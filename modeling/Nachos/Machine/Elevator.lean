import Nachos.Lib.History
import Mathlib.Data.List.FinRange
import Mathlib.Algebra.Order.Ring.Int

/-! The bank of elevators: `elevator.cc`. Doors and motion exclude each other, but an elevator whose
destination is changed to the floor that it has just left goes down from there, and from floor 0
it leaves the building. -/

namespace Nachos
open Lib

def delayPerFloor : Int := 100
def maxRiders : Nat := 4

inductive Direction where
  | down
  | up
  | neither
  deriving DecidableEq

inductive ElevatorEvent where
  | noEvent
  | doorsOpened
  | upButtonPressed
  | downButtonPressed
  | floorButtonPressed
  | elevatorArrived
  deriving DecidableEq

structure PendingElevatorEvent where
  event : ElevatorEvent
  floor : Int
  elevator : Int
  deriving DecidableEq

/-! ## One elevator -/

/-- Riders are known by the numbers of their threads. -/
structure ElevatorInfo where
  display : Direction
  doorsOpen : Bool
  inMotion : Bool
  lastFloor : Int
  willArrive : Int
  goingTo : Int
  riders : List Nat

namespace ElevatorInfo

def initial : ElevatorInfo := ⟨.neither, false, false, 0, 0, 0, []⟩

def openDoors (e : ElevatorInfo) : Option (Int × ElevatorInfo) :=
  if !e.doorsOpen && !e.inMotion then some (e.lastFloor, { e with doorsOpen := true }) else none

def closeDoors (e : ElevatorInfo) : Option ElevatorInfo :=
  if e.doorsOpen then some { e with doorsOpen := false } else none

/-- Whether the elevator was set in motion. -/
def moveTo (e : ElevatorInfo) (now goingToFloor : Int) : Option (Bool × ElevatorInfo) :=
  if !e.doorsOpen && (e.inMotion || e.lastFloor != goingToFloor) then
    let e := { e with goingTo := goingToFloor }
    if !e.inMotion then
      some (true, { e with willArrive := now + delayPerFloor, inMotion := true })
    else some (false, e)
  else none

def enter (e : ElevatorInfo) (onFloor : Int) (currentThread : Nat) : Option (Bool × ElevatorInfo) :=
  if !e.doorsOpen || e.lastFloor != onFloor then some (false, e)
  else if !e.inMotion && decide (e.riders.length < maxRiders) then
    some (true, { e with riders := e.riders ++ [currentThread] })
  else none

/-- A thread that is not on the list of riders cannot be removed from it. -/
def exit (e : ElevatorInfo) (onFloor : Int) (currentThread : Nat) : Option (Bool × ElevatorInfo) :=
  if !e.doorsOpen || e.lastFloor != onFloor then some (false, e)
  else if !e.inMotion && decide (currentThread ∈ e.riders) then
    some (true, { e with riders := e.riders.erase currentThread })
  else none

def reachedNextFloor (e : ElevatorInfo) (now : Int) : Bool × ElevatorInfo :=
  if e.inMotion && decide (now ≥ e.willArrive) then
    (true, { e with lastFloor := e.lastFloor + if e.goingTo > e.lastFloor then 1 else -1 })
  else (false, e)

def checkArrived (e : ElevatorInfo) : Bool × ElevatorInfo :=
  if e.inMotion && e.lastFloor == e.goingTo then (true, { e with inMotion := false })
  else (false, e)

end ElevatorInfo

/-! ## The bank -/

structure ElevatorBank (numElevators : Nat) where
  numFloors : Int
  riderEvents : List PendingElevatorEvent
  controllerEvents : List PendingElevatorEvent
  elevators : Fin numElevators → ElevatorInfo

inductive BankCall where
  | openDoors (elevator : Int)
  | closeDoors (elevator : Int)
  | moveTo (goingToFloor elevator : Int)
  | markDirection (elevator : Int) (dir : Direction)
  | pressButton (onFloor : Int) (goingTo : Direction)
  | enterElevator (onFloor elevator : Int) (currentThread : Nat)
  | pressFloor (goingToFloor elevator : Int)
  | exitElevator (onFloor elevator : Int) (currentThread : Nat)
  | getNextRiderEvent
  | getNextControllerEvent

namespace ElevatorBank
variable {n : Nat}

def initial (n : Nat) (numFloors : Int) : ElevatorBank n := ⟨numFloors, [], [], fun _ => .initial⟩

/-- The elevator with this number, if the assertion holds. -/
def index (n : Nat) (elevator : Int) : Option (Fin n) :=
  if h : 0 ≤ elevator ∧ elevator < n then some ⟨elevator.toNat, by omega⟩ else none

def onFloors (b : ElevatorBank n) (floor : Int) : Option Unit :=
  if 0 ≤ floor ∧ floor < b.numFloors then some () else none

def put (b : ElevatorBank n) (i : Fin n) (e : ElevatorInfo) : ElevatorBank n :=
  { b with elevators := Function.update b.elevators i e }

/-- `PostEvent` outside of the handler, for riders: an interrupt is scheduled after one tick. -/
def postRiders (b : ElevatorBank n) (ev : PendingElevatorEvent) : ElevatorBank n × List Int :=
  ({ b with riderEvents := b.riderEvents ++ [ev] }, [1])

def postControllers (b : ElevatorBank n) (ev : PendingElevatorEvent) : ElevatorBank n × List Int :=
  ({ b with controllerEvents := b.controllerEvents ++ [ev] }, [1])

/-- A call at time `now`, with the delays of the interrupts that it schedules. -/
def perform (b : ElevatorBank n) (now : Int) : BankCall → Option (ElevatorBank n × List Int)
  | .openDoors elevator => do
    let i ← index n elevator
    let (floor, e) ← (b.elevators i).openDoors
    return (b.put i e).postRiders ⟨.doorsOpened, floor, elevator⟩
  | .closeDoors elevator => do
    let i ← index n elevator
    let e ← (b.elevators i).closeDoors
    return (b.put i e, [])
  | .moveTo goingToFloor elevator => do
    let i ← index n elevator
    b.onFloors goingToFloor
    let (started, e) ← (b.elevators i).moveTo now goingToFloor
    return (b.put i e, if started then [delayPerFloor] else [])
  | .markDirection elevator dir => do
    let i ← index n elevator
    return (b.put i { b.elevators i with display := dir }, [])
  | .pressButton onFloor goingTo => do
    b.onFloors onFloor
    if goingTo = .neither then none
    else
      let event := if goingTo = .up then .upButtonPressed else .downButtonPressed
      return b.postControllers ⟨event, onFloor, 0⟩
  | .enterElevator onFloor elevator currentThread => do
    b.onFloors onFloor
    let i ← index n elevator
    let (_, e) ← (b.elevators i).enter onFloor currentThread
    return (b.put i e, [])
  | .pressFloor goingToFloor elevator => do
    b.onFloors goingToFloor
    let _ ← index n elevator
    return b.postControllers ⟨.floorButtonPressed, goingToFloor, elevator⟩
  | .exitElevator onFloor elevator currentThread => do
    b.onFloors onFloor
    let i ← index n elevator
    let (_, e) ← (b.elevators i).exit onFloor currentThread
    return (b.put i e, [])
  | .getNextRiderEvent => some ({ b with riderEvents := b.riderEvents.tail }, [])
  | .getNextControllerEvent => some ({ b with controllerEvents := b.controllerEvents.tail }, [])

/-- The loop of `HandleInterrupt`, with the delays of the interrupts that it schedules. -/
structure Handling (n : Nat) where
  bank : ElevatorBank n
  intSched : Bool
  delays : List Int

def handleElevator (now : Int) (h : Handling n) (i : Fin n) : Handling n :=
  let (reached, e) := (h.bank.elevators i).reachedNextFloor now
  if reached then
    let (arrived, e) := e.checkArrived
    if arrived then
      { h with bank :=
        ((h.bank.put i e).postControllers ⟨.elevatorArrived, e.goingTo, (i : Nat)⟩).1 }
    else if !h.intSched then
      { bank := h.bank.put i { e with willArrive := e.willArrive + delayPerFloor }
        intSched := true
        delays := h.delays ++ [delayPerFloor] }
    else { h with bank := h.bank.put i e }
  else h

/-- What the handler does before it calls the riders and the controllers back. -/
def handleInterrupt (b : ElevatorBank n) (now : Int) : ElevatorBank n × List Int :=
  let h := (List.finRange n).foldl (handleElevator now) ⟨b, false, []⟩
  (h.bank, h.delays)

inductive Event where
  | call (now : Int) (c : BankCall)
  | interrupt (now : Int)

def step (b : ElevatorBank n) : Event → Option (ElevatorBank n)
  | .call now c => (b.perform now c).map Prod.fst
  | .interrupt now => some (b.handleInterrupt now).1

end ElevatorBank

/-! ## What calls and interrupts do to an elevator -/

namespace ElevatorInfo

/-- A call leaves the motion alone and opens the doors only of an elevator that stands, or it sets
the elevator in motion, or it changes the destination. -/
inductive Acts (numFloors now : Int) (delays : List Int) : ElevatorInfo → ElevatorInfo → Prop
  | keep {e e' : ElevatorInfo} (lastFloor : e'.lastFloor = e.lastFloor)
      (inMotion : e'.inMotion = e.inMotion) (goingTo : e'.goingTo = e.goingTo)
      (willArrive : e'.willArrive = e.willArrive)
      (doors : e'.doorsOpen = true → e.doorsOpen = true ∨ e.inMotion = false) :
      Acts numFloors now delays e e'
  | start {e : ElevatorInfo} {floor : Int} (closed : e.doorsOpen = false)
      (low : 0 ≤ floor) (high : floor < numFloors) (scheduled : delayPerFloor ∈ delays) :
      Acts numFloors now delays e
        { e with goingTo := floor, willArrive := now + delayPerFloor, inMotion := true }
  | turn {e : ElevatorInfo} {floor : Int} (closed : e.doorsOpen = false)
      (low : 0 ≤ floor) (high : floor < numFloors) :
      Acts numFloors now delays e { e with goingTo := floor }

theorem Acts.refl (numFloors now : Int) (delays : List Int) (e : ElevatorInfo) :
    Acts numFloors now delays e e := .keep rfl rfl rfl rfl .inl

def nextFloor (e : ElevatorInfo) : Int := e.lastFloor + if e.goingTo > e.lastFloor then 1 else -1

def Due (e : ElevatorInfo) (now : Int) : Prop := e.inMotion = true ∧ e.willArrive ≤ now

instance (e : ElevatorInfo) (now : Int) : Decidable (e.Due now) :=
  inferInstanceAs (Decidable (_ ∧ _))

/-- The elevator goes on from the next floor. -/
def Passes (e : ElevatorInfo) (now : Int) : Prop := e.Due now ∧ e.nextFloor ≠ e.goingTo

instance (e : ElevatorInfo) (now : Int) : Decidable (e.Passes now) :=
  inferInstanceAs (Decidable (_ ∧ _))

theorem reachedNextFloor_of_due {e : ElevatorInfo} {now : Int} (h : e.Due now) :
    e.reachedNextFloor now = (true, { e with lastFloor := e.nextFloor }) := by
  unfold reachedNextFloor
  rw [if_pos]
  · rfl
  · rw [h.1, Bool.true_and, decide_eq_true_iff]
    exact h.2

theorem reachedNextFloor_of_not_due {e : ElevatorInfo} {now : Int} (h : ¬ e.Due now) :
    e.reachedNextFloor now = (false, e) := by
  unfold reachedNextFloor
  rw [if_neg]
  rw [Bool.and_eq_true, decide_eq_true_iff]
  exact h

/-- The elevator after the handler, which schedules an interrupt at most for the `first` one that
goes on. -/
def handled (e : ElevatorInfo) (now : Int) (first : Bool) : ElevatorInfo :=
  if e.Due now then
    if e.nextFloor = e.goingTo then { e with lastFloor := e.nextFloor, inMotion := false }
    else if first then
      { e with lastFloor := e.nextFloor, willArrive := e.willArrive + delayPerFloor }
    else { e with lastFloor := e.nextFloor }
  else e

end ElevatorInfo

namespace ElevatorBank
variable {n : Nat} {b b' : ElevatorBank n} {now : Int}

theorem onFloors_eq_some {floor : Int} {u : Unit} (h : b.onFloors floor = some u) :
    0 ≤ floor ∧ floor < b.numFloors := by
  unfold onFloors at h
  split at h
  · next hf => exact hf
  · cases h

theorem put_elevators (b : ElevatorBank n) (i j : Fin n) (e : ElevatorInfo) :
    (b.put i e).elevators j = if j = i then e else b.elevators j := Function.update_apply ..

@[simp] theorem put_numFloors (b : ElevatorBank n) (i : Fin n) (e : ElevatorInfo) :
    (b.put i e).numFloors = b.numFloors := rfl

theorem put_acts {i : Fin n} {e : ElevatorInfo} {delays : List Int}
    (he : (b.elevators i).Acts b.numFloors now delays e) (j : Fin n) :
    (b.elevators j).Acts b.numFloors now delays ((b.put i e).elevators j) := by
  rw [put_elevators]
  split
  · next hj =>
    rw [hj]
    exact he
  · exact .refl ..

theorem perform_acts {c : BankCall} {delays : List Int}
    (h : b.perform now c = some (b', delays)) :
    b'.numFloors = b.numFloors ∧
      ∀ i, (b.elevators i).Acts b.numFloors now delays (b'.elevators i) := by
  cases c with
  | openDoors elevator =>
    obtain ⟨i, -, h⟩ := Option.bind_eq_some_iff.mp h
    obtain ⟨⟨floor, e⟩, he, h⟩ := Option.bind_eq_some_iff.mp h
    cases h
    refine ⟨rfl, put_acts ?_⟩
    unfold ElevatorInfo.openDoors at he
    split at he
    · next hclosed =>
      cases he
      refine .keep rfl rfl rfl rfl fun _ => .inr ?_
      simpa using (Bool.and_eq_true_iff.mp hclosed).2
    · cases he
  | closeDoors elevator =>
    obtain ⟨i, -, h⟩ := Option.bind_eq_some_iff.mp h
    obtain ⟨e, he, h⟩ := Option.bind_eq_some_iff.mp h
    cases h
    refine ⟨rfl, put_acts ?_⟩
    unfold ElevatorInfo.closeDoors at he
    split at he
    · cases he
      exact .keep rfl rfl rfl rfl (fun hopen => by cases hopen)
    · cases he
  | moveTo goingToFloor elevator =>
    obtain ⟨i, -, h⟩ := Option.bind_eq_some_iff.mp h
    obtain ⟨u, hfloor, h⟩ := Option.bind_eq_some_iff.mp h
    obtain ⟨⟨started, e⟩, he, h⟩ := Option.bind_eq_some_iff.mp h
    obtain ⟨hlow, hhigh⟩ := onFloors_eq_some hfloor
    cases h
    refine ⟨rfl, put_acts ?_⟩
    unfold ElevatorInfo.moveTo at he
    split at he
    · next haccepted =>
      have hclosed : (b.elevators i).doorsOpen = false := by
        simpa using (Bool.and_eq_true_iff.mp haccepted).1
      simp only at he
      split at he
      · cases he
        exact .start hclosed hlow hhigh (by simp)
      · cases he
        exact .turn hclosed hlow hhigh
    · cases he
  | markDirection elevator dir =>
    obtain ⟨i, -, h⟩ := Option.bind_eq_some_iff.mp h
    cases h
    exact ⟨rfl, put_acts (.keep rfl rfl rfl rfl .inl)⟩
  | pressButton onFloor goingTo =>
    obtain ⟨u, -, h⟩ := Option.bind_eq_some_iff.mp h
    split at h
    · cases h
    · cases h
      exact ⟨rfl, fun j => .refl ..⟩
  | enterElevator onFloor elevator currentThread =>
    obtain ⟨u, -, h⟩ := Option.bind_eq_some_iff.mp h
    obtain ⟨i, -, h⟩ := Option.bind_eq_some_iff.mp h
    obtain ⟨⟨entered, e⟩, he, h⟩ := Option.bind_eq_some_iff.mp h
    cases h
    refine ⟨rfl, put_acts ?_⟩
    unfold ElevatorInfo.enter at he
    split at he
    · cases he
      exact .refl ..
    · split at he
      · cases he
        exact .keep rfl rfl rfl rfl .inl
      · cases he
  | pressFloor goingToFloor elevator =>
    obtain ⟨u, -, h⟩ := Option.bind_eq_some_iff.mp h
    obtain ⟨i, -, h⟩ := Option.bind_eq_some_iff.mp h
    cases h
    exact ⟨rfl, fun j => .refl ..⟩
  | exitElevator onFloor elevator currentThread =>
    obtain ⟨u, -, h⟩ := Option.bind_eq_some_iff.mp h
    obtain ⟨i, -, h⟩ := Option.bind_eq_some_iff.mp h
    obtain ⟨⟨left, e⟩, he, h⟩ := Option.bind_eq_some_iff.mp h
    cases h
    refine ⟨rfl, put_acts ?_⟩
    unfold ElevatorInfo.exit at he
    split at he
    · cases he
      exact .refl ..
    · split at he
      · cases he
        exact .keep rfl rfl rfl rfl .inl
      · cases he
  | getNextRiderEvent =>
    cases h
    exact ⟨rfl, fun j => .refl ..⟩
  | getNextControllerEvent =>
    cases h
    exact ⟨rfl, fun j => .refl ..⟩

theorem handleElevator_spec (now : Int) (h : Handling n) (i : Fin n) :
    (handleElevator now h i).bank.numFloors = h.bank.numFloors ∧
    (∀ j, (handleElevator now h i).bank.elevators j =
      if j = i then (h.bank.elevators i).handled now (!h.intSched) else h.bank.elevators j) ∧
    (handleElevator now h i).intSched =
      (h.intSched || decide ((h.bank.elevators i).Passes now)) ∧
    (handleElevator now h i).delays =
      if h.intSched = false ∧ (h.bank.elevators i).Passes now then h.delays ++ [delayPerFloor]
      else h.delays := by
  unfold handleElevator ElevatorInfo.handled ElevatorInfo.Passes
  by_cases hdue : (h.bank.elevators i).Due now
  · simp only [ElevatorInfo.reachedNextFloor_of_due hdue, if_pos hdue, if_true]
    by_cases hnext : (h.bank.elevators i).nextFloor = (h.bank.elevators i).goingTo
    · simp [ElevatorInfo.checkArrived, hdue.1, hnext, hdue, postControllers, put_elevators]
    · cases h.intSched <;>
        simp [ElevatorInfo.checkArrived, hnext, hdue, put_elevators]
  · simp only [ElevatorInfo.reachedNextFloor_of_not_due hdue, Bool.false_eq_true, if_false, hdue,
      false_and, and_false, decide_false, Bool.or_false, true_and, and_true]
    intro j
    split
    · next hj => rw [hj]
    · rfl

theorem foldl_handleElevator (now : Int) {l : List (Fin n)} (hl : l.Nodup) (h : Handling n) :
    (l.foldl (handleElevator now) h).bank.numFloors = h.bank.numFloors ∧
    ∀ j, ∃ first, (l.foldl (handleElevator now) h).bank.elevators j =
      if j ∈ l then (h.bank.elevators j).handled now first else h.bank.elevators j := by
  induction l generalizing h with
  | nil => exact ⟨rfl, fun j => ⟨true, rfl⟩⟩
  | cons i l ih =>
    obtain ⟨hi, hl⟩ := List.nodup_cons.mp hl
    obtain ⟨hfloors, helevators, -⟩ := handleElevator_spec now h i
    obtain ⟨hfloors', helevators'⟩ := ih hl (handleElevator now h i)
    refine ⟨hfloors'.trans hfloors, fun j => ?_⟩
    obtain ⟨first, hj⟩ := helevators' j
    rw [List.foldl_cons, hj, helevators j]
    by_cases hji : j = i
    · subst hji
      exact ⟨!h.intSched, by simp [hi]⟩
    · exact ⟨first, by simp [hji]⟩

theorem handleInterrupt_spec (b : ElevatorBank n) (now : Int) :
    (b.handleInterrupt now).1.numFloors = b.numFloors ∧
    ∀ j, ∃ first, (b.handleInterrupt now).1.elevators j = (b.elevators j).handled now first := by
  obtain ⟨hfloors, helevators⟩ :=
    foldl_handleElevator now (List.nodup_finRange n) ⟨b, false, []⟩
  refine ⟨hfloors, fun j => ?_⟩
  obtain ⟨first, hj⟩ := helevators j
  rw [if_pos (List.mem_finRange j)] at hj
  exact ⟨first, hj⟩

end ElevatorBank

/-! ## Safety -/

namespace ElevatorInfo
variable {numFloors now : Int} {delays : List Int} {e e' : ElevatorInfo}

structure Sound (numFloors : Int) (e : ElevatorInfo) : Prop where
  low : 0 ≤ e.lastFloor
  high : e.lastFloor < numFloors
  doors : ¬ (e.inMotion = true ∧ e.doorsOpen = true)
  bound : e.inMotion = true → 0 ≤ e.goingTo ∧ e.goingTo < numFloors

theorem Sound.acts (h : e.Sound numFloors) (hact : Acts numFloors now delays e e') :
    e'.Sound numFloors := by
  cases hact with
  | keep lastFloor inMotion goingTo willArrive doors =>
    refine ⟨?_, ?_, ?_, ?_⟩
    · rw [lastFloor]
      exact h.low
    · rw [lastFloor]
      exact h.high
    · rw [inMotion]
      rintro ⟨hm, ho⟩
      rcases doors ho with ho | hm'
      · exact h.doors ⟨hm, ho⟩
      · exact Bool.false_ne_true (hm'.symm.trans hm)
    · rw [inMotion, goingTo]
      exact h.bound
  | start closed low high scheduled =>
    exact ⟨h.low, h.high, fun hopen => Bool.false_ne_true (closed.symm.trans hopen.2),
      fun _ => ⟨low, high⟩⟩
  | turn closed low high =>
    exact ⟨h.low, h.high, fun hopen => Bool.false_ne_true (closed.symm.trans hopen.2),
      fun _ => ⟨low, high⟩⟩

theorem Sound.nextFloor_bounds (h : e.Sound numFloors) (hmotion : e.inMotion = true)
    (hground : ¬ (e.lastFloor = 0 ∧ e.goingTo = 0)) :
    0 ≤ e.nextFloor ∧ e.nextFloor < numFloors := by
  have hlow := h.low
  have hhigh := h.high
  obtain ⟨hlow', hhigh'⟩ := h.bound hmotion
  unfold nextFloor
  split <;> omega

theorem Sound.handled (h : e.Sound numFloors)
    (hground : e.Due now → ¬ (e.lastFloor = 0 ∧ e.goingTo = 0)) (first : Bool) :
    (e.handled now first).Sound numFloors := by
  unfold ElevatorInfo.handled
  by_cases hdue : e.Due now
  · obtain ⟨hlow, hhigh⟩ := h.nextFloor_bounds hdue.1 (hground hdue)
    rw [if_pos hdue]
    split
    · exact ⟨hlow, hhigh, fun hm => Bool.false_ne_true hm.1, fun hm => absurd hm Bool.false_ne_true⟩
    · split
      · exact ⟨hlow, hhigh, h.doors, h.bound⟩
      · exact ⟨hlow, hhigh, h.doors, h.bound⟩
  · rw [if_neg hdue]
    exact h

end ElevatorInfo

namespace ElevatorBank
variable {n : Nat} {b b' : ElevatorBank n} {now : Int}

/-- All elevators are in the building, and those that move have their doors closed. -/
def InBuilding (b : ElevatorBank n) : Prop :=
  ∀ i, (0 ≤ (b.elevators i).lastFloor ∧ (b.elevators i).lastFloor < b.numFloors) ∧
    ¬ ((b.elevators i).inMotion = true ∧ (b.elevators i).doorsOpen = true)

/-- In an interrupt, no elevator that left floor 0 is on its way back there. -/
def LeavesGround (b : ElevatorBank n) : Event → Prop
  | .call _ _ => True
  | .interrupt now => ∀ i, (b.elevators i).Due now →
      ¬ ((b.elevators i).lastFloor = 0 ∧ (b.elevators i).goingTo = 0)

structure Sound (b : ElevatorBank n) : Prop where
  elevators : ∀ i, (b.elevators i).Sound b.numFloors

theorem Sound.inBuilding (hb : b.Sound) : b.InBuilding := fun i =>
  ⟨⟨(hb.elevators i).low, (hb.elevators i).high⟩, (hb.elevators i).doors⟩

theorem sound_initial {numFloors : Int} (h : 0 < n → 0 < numFloors) :
    (initial n numFloors).Sound := by
  refine ⟨fun i => ⟨le_rfl, h i.pos, ?_, ?_⟩⟩
  · rintro ⟨hmotion, -⟩
    cases hmotion
  · intro hmotion
    cases hmotion

theorem Sound.step {e : Event} (hb : b.Sound) (h : b.step e = some b') (hok : b.LeavesGround e) :
    b'.Sound := by
  cases e with
  | call now c =>
    obtain ⟨⟨b₁, delays⟩, hperform, rfl⟩ := Option.map_eq_some_iff.mp h
    obtain ⟨hfloors, hacts⟩ := perform_acts hperform
    refine ⟨fun i => ?_⟩
    rw [hfloors]
    exact (hb.elevators i).acts (hacts i)
  | interrupt now =>
    cases h
    obtain ⟨hfloors, helevators⟩ := b.handleInterrupt_spec now
    refine ⟨fun i => ?_⟩
    obtain ⟨first, hi⟩ := helevators i
    rw [hfloors, hi]
    exact (hb.elevators i).handled (hok i) first

theorem not_inBuilding_of_ground {e : Event} (h : b.step e = some b') (hok : ¬ b.LeavesGround e) :
    ¬ b'.InBuilding := by
  cases e with
  | call now c => exact absurd trivial hok
  | interrupt now =>
    cases h
    obtain ⟨i, hi⟩ := not_forall.mp hok
    obtain ⟨hdue, hground⟩ := Classical.not_imp.mp hi
    obtain ⟨hlast, hgoing⟩ := not_not.mp hground
    have hnext : (b.elevators i).nextFloor = -1 := by
      rw [ElevatorInfo.nextFloor, hlast, hgoing]
      rfl
    obtain ⟨first, helevator⟩ := (b.handleInterrupt_spec now).2 i
    intro hin
    have hlow := (hin i).1.1
    rw [helevator, ElevatorInfo.handled, if_pos hdue, if_neg (by rw [hnext, hgoing]; decide)]
      at hlow
    cases first with
    | true => exact absurd (hlow.trans_eq hnext) (by decide)
    | false => exact absurd (hlow.trans_eq hnext) (by decide)

/-- Along every sequence of calls and interrupts, at whatever times, the elevators stay in the
building and move with closed doors, if and only if there is a floor 0 and no interrupt finds a
moving elevator at floor 0 on its way to floor 0. -/
theorem inBuilding_iff (n : Nat) (numFloors : Int) (events : List Event) :
    History.Always step InBuilding (initial n numFloors) events ↔
      (0 < n → 0 < numFloors) ∧ History.Meets step LeavesGround (initial n numFloors) events := by
  constructor
  · intro h
    have hfloors : 0 < n → 0 < numFloors := by
      intro hn
      have hstart : (initial n numFloors).InBuilding := by
        cases events with
        | nil => exact h
        | cons e events => exact h.1
      exact (hstart ⟨0, hn⟩).1.2
    refine ⟨hfloors, (History.always_iff_meets (fun b hb => hb.inBuilding)
      (fun b e b' hb => hb.step) (fun b e b' _ => not_inBuilding_of_ground)
      (sound_initial hfloors)).mp h⟩
  · rintro ⟨hfloors, h⟩
    exact h.always (fun b hb => hb.inBuilding) (fun b e b' hb => hb.step) (sound_initial hfloors)

/-- An elevator goes up one floor and opens its doors. -/
theorem inBuilding_up :
    History.Always step InBuilding (initial 1 2)
      [.call 0 (.moveTo 1 0), .interrupt 100, .call 101 (.openDoors 0)] := by
  refine (inBuilding_iff 1 2 _).mpr ⟨fun _ => by decide, ?_⟩
  rintro b₁ ⟨⟩
  refine ⟨trivial, ?_⟩
  rintro b₂ ⟨⟩
  refine ⟨?_, ?_⟩
  · intro i hdue hground
    obtain rfl : i = 0 := Subsingleton.elim ..
    exact absurd hground.2 (by decide)
  · rintro b₃ -
    exact ⟨trivial, trivial⟩

/-- An elevator is called back to the floor that it has just left, and goes to floor -1. -/
theorem not_inBuilding_called_back :
    ∃ b : ElevatorBank 1, History.run step (initial 1 2)
        [.call 0 (.moveTo 1 0), .call 50 (.moveTo 0 0), .interrupt 100] = some b ∧
      (b.elevators 0).lastFloor = -1 ∧ ¬ b.InBuilding := by
  refine ⟨_, rfl, rfl, fun h => ?_⟩
  exact absurd (h 0).1.1 (by decide)

end ElevatorBank
end Nachos
