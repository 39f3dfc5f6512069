import Nachos.Lib.History
import Nachos.Threads.Machine
import Nachos.Threads.List

/-! Simulated time and interrupts: `interrupt.cc`, with the sorted lists of `list.cc`. A handler
is known by what it does to the rest of the system, by its calls of `Schedule`, and by whether it
calls `YieldOnReturn`.

Ticks are of type `int` in the source and unbounded here. No sum of them overflows as long as
`totalTicks + fromNow < 2^31` at each call of `Schedule` and `totalTicks + 10 < 2^31` at each tick:
the other sums are at most a time that was scheduled or `totalTicks`. -/

namespace Nachos
open Lib Threads

inductive MachineStatus where
  | idleMode
  | systemMode
  | userMode
  deriving DecidableEq

inductive IntType where
  | timerInt
  | diskInt
  | consoleWriteInt
  | consoleReadInt
  | elevatorInt
  | networkSendInt
  | networkRecvInt
  deriving DecidableEq

structure PendingInterrupt (H : Type) where
  handler : H
  arg : Int
  when : Int
  type : IntType

structure Statistics where
  totalTicks : Int
  idleTicks : Int
  systemTicks : Int
  userTicks : Int

/-- The arguments of `Schedule`. -/
structure Request (H : Type) where
  handler : H
  arg : Int
  fromNow : Int
  type : IntType

structure Interrupt (H ω : Type) where
  level : IntStatus
  pending : List (Int × PendingInterrupt H)
  inHandler : Bool
  yieldOnReturn : Bool
  status : MachineStatus
  stats : Statistics
  system : ω

/-- What `DelayedLoad(0, 0)` and the handlers do. -/
structure Handlers (H ω : Type) where
  delayedLoad : ω → ω
  call : H → Int → Interrupt H ω → ω × List (Request H) × Bool

def Handlers.Later {H ω : Type} (d : Handlers H ω) : Prop :=
  ∀ h arg s, ∀ r ∈ (d.call h arg s).2.1, 0 < r.fromNow

namespace Statistics

def initial : Statistics := ⟨0, 0, 0, 0⟩

def Balanced (stats : Statistics) : Prop :=
  stats.totalTicks = stats.idleTicks + stats.systemTicks + stats.userTicks

def idleUntil (stats : Statistics) (when : Int) : Statistics :=
  { stats with
    idleTicks := stats.idleTicks + (when - stats.totalTicks)
    totalTicks := when }

/-- `SystemTick` is 10, and `UserTick` is 1. -/
def advance (stats : Statistics) : MachineStatus → Statistics
  | .systemMode =>
    { stats with totalTicks := stats.totalTicks + 10, systemTicks := stats.systemTicks + 10 }
  | _ => { stats with totalTicks := stats.totalTicks + 1, userTicks := stats.userTicks + 1 }

theorem Balanced.idleUntil {stats : Statistics} (h : stats.Balanced) (when : Int) :
    (stats.idleUntil when).Balanced := by
  simp only [Balanced, Statistics.idleUntil] at h ⊢
  omega

theorem Balanced.advance {stats : Statistics} (h : stats.Balanced) (status : MachineStatus) :
    (stats.advance status).Balanced ∧
      stats.totalTicks < (stats.advance status).totalTicks := by
  cases status <;> simp only [Balanced, Statistics.advance] at h ⊢ <;> omega

end Statistics

namespace Interrupt
variable {H ω : Type}

def initial (system : ω) : Interrupt H ω where
  level := .off
  pending := []
  inHandler := false
  yieldOnReturn := false
  status := .systemMode
  stats := .initial
  system := system

def schedule (s : Interrupt H ω) (r : Request H) : Option (Interrupt H ω) :=
  let when := s.stats.totalTicks + r.fromNow
  if 0 < r.fromNow then
    some { s with pending := sortedInsert ⟨r.handler, r.arg, when, r.type⟩ when s.pending }
  else none

def fire (d : Handlers H ω) (s : Interrupt H ω) (toOccur : PendingInterrupt H) :
    Option (Interrupt H ω) :=
  let inside :=
    { s with system := d.delayedLoad s.system, inHandler := true, status := .systemMode }
  let (system, requests, yields) := d.call toOccur.handler toOccur.arg inside
  (requests.foldlM schedule
    { inside with system := system, yieldOnReturn := s.yieldOnReturn || yields }).map fun s' =>
      { s' with status := s.status, inHandler := false }

/-- The interrupt that was fired, if any. -/
def checkIfDue (d : Handlers H ω) (advanceClock : Bool) (s : Interrupt H ω) :
    Option (Option (PendingInterrupt H) × Interrupt H ω) :=
  if s.level ≠ .off then none
  else
    match s.pending with
    | [] => some (none, s)
    | (when, toOccur) :: rest =>
      if s.stats.totalTicks < when ∧ advanceClock = false then
        some (none, { s with pending := sortedInsert toOccur when rest })
      else
        let stats := if s.stats.totalTicks < when then s.stats.idleUntil when else s.stats
        -- only the timer is left, and nobody waits for it
        if s.status = .idleMode ∧ toOccur.type = .timerInt ∧ rest = [] then
          some (none, { s with stats := stats, pending := sortedInsert toOccur when rest })
        else
          (fire d { s with stats := stats, pending := rest } toOccur).map fun s => (some toOccur, s)

/-- The loop over `CheckIfDue(FALSE)`, with the interrupts that it fires. -/
def whileDue (d : Handlers H ω) : Nat → Interrupt H ω →
    Option (List (PendingInterrupt H) × Interrupt H ω)
  | 0, _ => none
  | fuel + 1, s =>
    match checkIfDue d false s with
    | none => none
    | some (none, s) => some ([], s)
    | some (some toOccur, s) => (whileDue d fuel s).map fun (fired, s) => (toOccur :: fired, s)

def tick (s : Interrupt H ω) : Interrupt H ω :=
  { s with stats := s.stats.advance s.status, level := .off }

/-- Until the call of `Yield`, if there is one; the status is set back when the thread runs
again. -/
def oneTick (d : Handlers H ω) (fuel : Nat) (s : Interrupt H ω) : Option (Interrupt H ω) :=
  (whileDue d fuel s.tick).map fun (_, s) =>
    if s.yieldOnReturn then
      { s with level := .on, yieldOnReturn := false, status := .systemMode }
    else { s with level := .on }

/-- Whether `Idle` returns, rather than halts the machine. -/
def idle (d : Handlers H ω) (fuel : Nat) (s : Interrupt H ω) : Option (Bool × Interrupt H ω) :=
  match checkIfDue d true { s with status := .idleMode } with
  | none => none
  | some (none, s) => some (false, s)
  | some (some _, s) =>
    (whileDue d fuel s).map fun (_, s) =>
      (true, { s with yieldOnReturn := false, status := .systemMode })

def setLevel (d : Handlers H ω) (fuel : Nat) (now : IntStatus) (s : Interrupt H ω) :
    Option (Interrupt H ω) :=
  if now = .on ∧ s.inHandler = true then none
  else if now = .on ∧ s.level = .off then oneTick d fuel { s with level := now }
  else some { s with level := now }

/-- What the kernel and the devices do with the simulation. The numbers bound the loops. -/
inductive Event (H ω : Type) where
  | schedule (r : Request H)
  | setLevel (fuel : Nat) (now : IntStatus)
  | changeLevel (now : IntStatus)
  | setStatus (status : MachineStatus)
  | oneTick (fuel : Nat)
  | idle (fuel : Nat)
  | other (system : ω)

def step (d : Handlers H ω) (s : Interrupt H ω) : Event H ω → Option (Interrupt H ω)
  | .schedule r => s.schedule r
  | .setLevel fuel now => s.setLevel d fuel now
  | .changeLevel now => some { s with level := now }
  | .setStatus status => some { s with status := status }
  | .oneTick fuel => s.oneTick d fuel
  | .idle fuel => (s.idle d fuel).bind fun (returns, s) => if returns then some s else none
  | .other system => some { s with system := system }

end Interrupt

/-! ## The pending list -/

namespace Interrupt
variable {H ω : Type} {d : Handlers H ω} {s s' : Interrupt H ω} {p : PendingInterrupt H}
  {fuel : Nat}

def due (s : Interrupt H ω) : List (PendingInterrupt H) :=
  (s.pending.filter fun x => x.2.when ≤ s.stats.totalTicks).map Prod.snd

structure Ordered (s : Interrupt H ω) : Prop where
  sorted : s.pending.Pairwise (·.1 ≤ ·.1)
  keys : ∀ x ∈ s.pending, x.1 = x.2.when
  balanced : s.stats.Balanced

theorem Ordered.congr (ho : s.Ordered) (hp : s'.pending = s.pending) (hst : s'.stats = s.stats) :
    s'.Ordered :=
  ⟨hp ▸ ho.sorted, hp ▸ ho.keys, hst ▸ ho.balanced⟩

structure Extends (s s' : Interrupt H ω) : Prop where
  ordered : s.Ordered → s'.Ordered
  due : s'.due = s.due
  stats : s'.stats = s.stats
  level : s'.level = s.level

theorem Extends.refl (s : Interrupt H ω) : s.Extends s := ⟨id, rfl, rfl, rfl⟩

theorem Extends.trans {s'' : Interrupt H ω} (h : s.Extends s') (h' : s'.Extends s'') :
    s.Extends s'' :=
  ⟨h'.ordered ∘ h.ordered, h'.due.trans h.due, h'.stats.trans h.stats, h'.level.trans h.level⟩

theorem Ordered.insert (ho : s.Ordered) (p : PendingInterrupt H) :
    Ordered { s with pending := sortedInsert p p.when s.pending } := by
  refine ⟨pairwise_sortedInsert ho.sorted, fun x hx => ?_, ho.balanced⟩
  obtain rfl | hx := mem_sortedInsert.mp hx
  · rfl
  · exact ho.keys x hx

theorem extends_insert (h : s.stats.totalTicks < p.when) :
    s.Extends { s with pending := sortedInsert p p.when s.pending } := by
  refine ⟨fun ho => ho.insert p, ?_, rfl, rfl⟩
  rw [due, due, filter_sortedInsert (by simpa using h)]

theorem schedule_extends {r : Request H} (h : s.schedule r = some s') : s.Extends s' := by
  rw [schedule] at h
  split at h
  · next hr =>
    cases h
    exact extends_insert (by simpa using hr)
  · cases h

theorem foldlM_schedule_extends {rs : List (Request H)} (h : rs.foldlM schedule s = some s') :
    s.Extends s' := by
  induction rs generalizing s with
  | nil =>
    cases h
    exact .refl _
  | cons r rs ih =>
    rw [List.foldlM_cons] at h
    obtain ⟨s₁, h₁, h⟩ := Option.bind_eq_some_iff.mp h
    exact (schedule_extends h₁).trans (ih h)

theorem foldlM_schedule_isSome {rs : List (Request H)} (h : ∀ r ∈ rs, 0 < r.fromNow) :
    (rs.foldlM schedule s).isSome = true := by
  induction rs generalizing s with
  | nil => rfl
  | cons r rs ih =>
    rw [List.foldlM_cons, schedule, if_pos (h r (List.mem_cons_self ..))]
    exact ih fun r hr => h r (List.mem_cons_of_mem _ hr)

theorem fire_extends (h : fire d s p = some s') : s.Extends s' ∧ s'.status = s.status := by
  obtain ⟨s₁, h₁, rfl⟩ := Option.map_eq_some_iff.mp h
  have he := foldlM_schedule_extends h₁
  exact ⟨⟨fun ho => (he.ordered (ho.congr rfl rfl)).congr rfl rfl, he.due, he.stats, he.level⟩, rfl⟩

/-! ## The loop -/

/-- What is left of `CheckIfDue` once the first interrupt is taken: its time is still to come, or
it is the timer and nothing else is left, or it is fired. -/
theorem checkIfDue_cases {advanceClock : Bool} {fired : Option (PendingInterrupt H)}
    (h : checkIfDue d advanceClock s = some (fired, s')) :
    (s.pending = [] ∧ fired = none ∧ s' = s) ∨
    ∃ when p rest, s.pending = (when, p) :: rest ∧
      ((s.stats.totalTicks < when ∧ advanceClock = false ∧ fired = none ∧
        s' = { s with pending := sortedInsert p when rest }) ∨
      ∃ stats, (stats = s.stats ∧ when ≤ s.stats.totalTicks ∨
          stats = s.stats.idleUntil when ∧ s.stats.totalTicks < when ∧ advanceClock = true) ∧
        ((s.status = .idleMode ∧ rest = [] ∧ fired = none ∧
          s' = { s with stats := stats, pending := [(when, p)] }) ∨
        (fired = some p ∧ fire d { s with stats := stats, pending := rest } p = some s'))) := by
  rw [checkIfDue] at h
  split at h
  · cases h
  split at h
  · next hp =>
    cases h
    exact .inl ⟨hp, rfl, rfl⟩
  · next when p rest hp =>
    refine .inr ⟨when, p, rest, hp, ?_⟩
    split at h
    · next hlate =>
      cases h
      exact .inl ⟨hlate.1, hlate.2, rfl, rfl⟩
    · next hnow =>
      refine .inr ⟨if s.stats.totalTicks < when then s.stats.idleUntil when else s.stats, ?_, ?_⟩
      · split
        · next hlt => exact .inr ⟨rfl, hlt, by simpa [hlt] using hnow⟩
        · next hle => exact .inl ⟨rfl, not_lt.mp hle⟩
      · simp only at h
        split at h
        · next hidle =>
          obtain ⟨hst, -, rfl⟩ := hidle
          cases h
          exact .inl ⟨hst, rfl, rfl, rfl⟩
        · obtain ⟨s₁, hs₁, he⟩ := Option.map_eq_some_iff.mp h
          cases he
          exact .inr ⟨rfl, hs₁⟩

theorem checkIfDue_isSome (hd : d.Later) (hl : s.level = .off) (advanceClock : Bool) :
    (checkIfDue d advanceClock s).isSome = true := by
  rw [checkIfDue, if_neg (by simp [hl])]
  split
  · rfl
  · split
    · rfl
    · simp only
      split
      · rfl
      · rw [Option.isSome_map, fire, Option.isSome_map]
        exact foldlM_schedule_isSome (hd _ _ _)

section
variable {when : Int} {rest : List (Int × PendingInterrupt H)}

theorem Ordered.tail (ho : s.Ordered) (hp : s.pending = (when, p) :: rest) :
    Ordered { s with pending := rest } ∧ when = p.when ∧ ∀ x ∈ rest, when ≤ x.1 := by
  have hsorted := ho.sorted
  have hkeys := ho.keys
  rw [hp] at hsorted hkeys
  obtain ⟨hle, hrest⟩ := List.pairwise_cons.mp hsorted
  exact ⟨⟨hrest, fun x hx => hkeys x (List.mem_cons_of_mem _ hx), ho.balanced⟩,
    hkeys _ (List.mem_cons_self ..), hle⟩

theorem Ordered.due_eq_nil (ho : s.Ordered) (hp : s.pending = (when, p) :: rest)
    (hlate : s.stats.totalTicks < when) : s.due = [] := by
  obtain ⟨-, hw, hle⟩ := ho.tail hp
  rw [due, List.map_eq_nil_iff, List.filter_eq_nil_iff]
  intro x hx
  rw [← ho.keys x hx, decide_eq_true_eq, not_le]
  rw [hp] at hx
  obtain rfl | hx := List.mem_cons.mp hx
  · exact hlate
  · exact hlate.trans_le (hle x hx)

theorem due_eq_cons (hp : s.pending = (when, p) :: rest) (hw : p.when ≤ s.stats.totalTicks) :
    s.due = p :: due { s with pending := rest } := by
  rw [due, hp, List.filter_cons_of_pos (by simpa using hw)]
  rfl

end

theorem checkIfDue_ordered {advanceClock : Bool} {fired : Option (PendingInterrupt H)}
    (ho : s.Ordered) (h : checkIfDue d advanceClock s = some (fired, s')) :
    s'.Ordered ∧ s.stats.totalTicks ≤ s'.stats.totalTicks ∧ s'.level = s.level ∧
      (advanceClock = false → s'.stats = s.stats) := by
  obtain ⟨-, -, rfl⟩ | ⟨when, p, rest, hp, ⟨-, -, -, rfl⟩ | ⟨stats, hstats, hend⟩⟩ :=
    checkIfDue_cases h
  · exact ⟨ho, le_rfl, rfl, fun _ => rfl⟩
  · obtain ⟨hrest, rfl, -⟩ := ho.tail hp
    exact ⟨hrest.insert p, le_rfl, rfl, fun _ => rfl⟩
  · obtain ⟨hrest, rfl, -⟩ := ho.tail hp
    have hle : s.stats.totalTicks ≤ stats.totalTicks ∧
        stats.Balanced ∧ (advanceClock = false → stats = s.stats) := by
      obtain ⟨rfl, -⟩ | ⟨rfl, hlt, ha⟩ := hstats
      · exact ⟨le_rfl, ho.balanced, fun _ => rfl⟩
      · exact ⟨hlt.le, ho.balanced.idleUntil _, fun hn => absurd (ha.symm.trans hn) (by decide)⟩
    have hrest' : Ordered { s with stats := stats, pending := rest } :=
      ⟨hrest.sorted, hrest.keys, hle.2.1⟩
    obtain ⟨-, rfl, -, rfl⟩ | ⟨-, hf⟩ := hend
    · exact ⟨hrest'.insert p, hle.1, rfl, hle.2.2⟩
    · obtain ⟨he, -⟩ := fire_extends hf
      exact ⟨he.ordered hrest', he.stats ▸ hle.1, he.level, fun hn => he.stats.trans (hle.2.2 hn)⟩

theorem whileDue_ordered {fired : List (PendingInterrupt H)} (ho : s.Ordered)
    (h : whileDue d fuel s = some (fired, s')) : s'.Ordered ∧ s'.stats = s.stats := by
  induction fuel generalizing s fired with
  | zero => cases h
  | succ fuel ih =>
    rw [whileDue] at h
    split at h
    · cases h
    · next s₁ h₁ =>
      cases h
      obtain ⟨ho₁, -, -, hst⟩ := checkIfDue_ordered ho h₁
      exact ⟨ho₁, hst rfl⟩
    · next p s₁ h₁ =>
      obtain ⟨⟨ps, s₂⟩, h₂, he⟩ := Option.map_eq_some_iff.mp h
      cases he
      obtain ⟨ho₁, -, -, hst⟩ := checkIfDue_ordered ho h₁
      obtain ⟨ho₂, hst₂⟩ := ih ho₁ h₂
      exact ⟨ho₂, hst₂.trans (hst rfl)⟩

/-- The loop ends, and outside of the idle mode it fires exactly the interrupts that are due. Each
round takes one of them from the list, and what handlers add is not due. -/
theorem whileDue_due (hd : d.Later) (ho : s.Ordered) (hl : s.level = .off)
    (hf : s.due.length < fuel) :
    ∃ fired s', whileDue d fuel s = some (fired, s') ∧
      (s.status ≠ .idleMode → fired = s.due ∧ s'.due = []) := by
  induction fuel generalizing s with
  | zero => cases hf
  | succ fuel ih =>
    obtain ⟨⟨fired, s₁⟩, h₁⟩ := Option.isSome_iff_exists.mp (checkIfDue_isSome hd hl false)
    rw [whileDue, h₁]
    obtain ⟨hp, rfl, he⟩ | ⟨when, p, rest, hp, ⟨hlt, -, rfl, rfl⟩ | ⟨stats, hstats, hend⟩⟩ :=
      checkIfDue_cases h₁
    · have hdue : s.due = [] := by simp [due, hp]
      exact ⟨[], s₁, rfl, fun _ => ⟨hdue.symm, he ▸ hdue⟩⟩
    · have hdue := ho.due_eq_nil hp hlt
      obtain ⟨hrest, rfl, -⟩ := ho.tail hp
      refine ⟨[], _, rfl, fun _ => ⟨hdue.symm, ?_⟩⟩
      have hnew : due { s with pending := sortedInsert p p.when rest } =
          due { s with pending := rest } :=
        (@extends_insert H ω { s with pending := rest } p hlt).due
      have hold : s.due = due { s with pending := rest } := by
        rw [due, hp, List.filter_cons_of_neg (by simpa using hlt)]
        rfl
      rw [hnew, ← hold, hdue]
    · obtain ⟨hrest, rfl, -⟩ := ho.tail hp
      obtain ⟨rfl, hle⟩ | ⟨-, -, ha⟩ := hstats
      · have hdue := due_eq_cons hp hle
        obtain ⟨hst, -, rfl, rfl⟩ | ⟨rfl, hfire⟩ := hend
        · exact ⟨[], _, rfl, fun hn => absurd hst hn⟩
        · obtain ⟨he, hst⟩ := fire_extends hfire
          rw [hdue] at hf
          obtain ⟨ps, s₂, h₂, hps⟩ := ih (he.ordered hrest) (he.level.trans hl)
            (by rw [he.due]; exact Nat.lt_of_succ_lt_succ hf)
          refine ⟨p :: ps, s₂, by simp only [h₂, Option.map_some], fun hn => ?_⟩
          obtain ⟨rfl, hnil⟩ := hps (by rw [hst]; exact hn)
          exact ⟨by rw [hdue, he.due], hnil⟩
      · cases ha

/-! ## Histories -/

theorem ordered_initial (system : ω) : (initial system : Interrupt H ω).Ordered :=
  ⟨List.Pairwise.nil, fun _ h => absurd h List.not_mem_nil, rfl⟩

theorem Ordered.tick (ho : s.Ordered) : s.tick.Ordered :=
  ⟨ho.sorted, ho.keys, (ho.balanced.advance s.status).1⟩

theorem oneTick_ordered (ho : s.Ordered) (h : oneTick d fuel s = some s') :
    s'.Ordered ∧ s.stats.totalTicks < s'.stats.totalTicks := by
  obtain ⟨⟨fired, s₁⟩, h₁, he⟩ := Option.map_eq_some_iff.mp h
  obtain ⟨ho₁, hst⟩ := whileDue_ordered ho.tick h₁
  have hlt := (ho.balanced.advance s.status).2
  rw [show s.stats.advance s.status = s₁.stats from hst.symm] at hlt
  simp only at he
  split at he
  · cases he
    exact ⟨ho₁.congr rfl rfl, hlt⟩
  · cases he
    exact ⟨ho₁.congr rfl rfl, hlt⟩

theorem idle_ordered {returns : Bool} (ho : s.Ordered) (h : idle d fuel s = some (returns, s')) :
    s'.Ordered ∧ s.stats.totalTicks ≤ s'.stats.totalTicks := by
  have hoi : Ordered { s with status := .idleMode } := ho.congr rfl rfl
  rw [idle] at h
  split at h
  · cases h
  · next s₁ h₁ =>
    cases h
    obtain ⟨ho₁, hle, -⟩ := checkIfDue_ordered hoi h₁
    exact ⟨ho₁, hle⟩
  · next p s₁ h₁ =>
    obtain ⟨ho₁, hle, -⟩ := checkIfDue_ordered hoi h₁
    obtain ⟨⟨fired, s₂⟩, h₂, he⟩ := Option.map_eq_some_iff.mp h
    cases he
    obtain ⟨ho₂, hst⟩ := whileDue_ordered ho₁ h₂
    exact ⟨ho₂.congr rfl rfl, hst ▸ hle⟩

theorem step_ordered {e : Event H ω} (ho : s.Ordered) (h : step d s e = some s') : s'.Ordered := by
  cases e with
  | schedule r => exact (schedule_extends h).ordered ho
  | setLevel fuel now =>
    rw [step, setLevel] at h
    split at h
    · cases h
    split at h
    · exact (oneTick_ordered (ho.congr rfl rfl) h).1
    · cases h
      exact ho.congr rfl rfl
  | oneTick fuel => exact (oneTick_ordered ho h).1
  | idle fuel =>
    obtain ⟨⟨returns, s₁⟩, h₁, he⟩ := Option.bind_eq_some_iff.mp h
    simp only at he
    split at he
    · cases he
      exact (idle_ordered ho h₁).1
    · cases he
  | changeLevel now =>
    cases h
    exact ho.congr rfl rfl
  | setStatus status =>
    cases h
    exact ho.congr rfl rfl
  | other system =>
    cases h
    exact ho.congr rfl rfl

theorem length_due_le (s : Interrupt H ω) : s.due.length ≤ s.pending.length := by
  rw [due, List.length_map]
  exact List.length_filter_le ..

theorem idle_isSome (hd : d.Later) (ho : s.Ordered) (hl : s.level = .off)
    (hf : s.pending.length < fuel) : (idle d fuel s).isSome = true := by
  have hoi : Ordered { s with status := .idleMode } := ho.congr rfl rfl
  obtain ⟨⟨fired, s₁⟩, h₁⟩ := Option.isSome_iff_exists.mp
    (@checkIfDue_isSome _ _ d { s with status := .idleMode } hd hl true)
  rw [idle, h₁]
  cases fired with
  | none => rfl
  | some p =>
    obtain ⟨-, h, -⟩ | ⟨when, q, rest, hp, ⟨-, h, -⟩ | ⟨stats, -, ⟨-, -, h, -⟩ | ⟨-, hfire⟩⟩⟩ :=
      checkIfDue_cases h₁
    · cases h
    · cases h
    · cases h
    · obtain ⟨he, -⟩ := fire_extends hfire
      obtain ⟨ho₁, -, hl₁, -⟩ := checkIfDue_ordered hoi h₁
      have hrest : rest.length < s.pending.length := by
        rw [show s.pending = (when, q) :: rest from hp]
        exact Nat.lt_succ_self _
      have hlen : s₁.due.length < fuel := by
        rw [he.due]
        exact (length_due_le _).trans_lt (hrest.trans hf)
      obtain ⟨ps, s₂, h₂, -⟩ := whileDue_due hd ho₁ (hl₁.trans hl) hlen
      simp only [h₂, Option.map_some, Option.isSome_some]

/-- In every state that the simulation comes to, a tick in system or user mode ends after it has
fired exactly the interrupts that are due, in the order of their times, and what is left is sorted
and lies in the future. The time never goes back, and it is the sum of its parts. -/
theorem due_fire_in_order (hd : d.Later) {system : ω} {events : List (Event H ω)}
    (hr : History.run (step d) (initial system) events = some s) :
    (s.status ≠ .idleMode → ∀ fuel, s.pending.length < fuel →
      (oneTick d fuel s).isSome = true ∧
      ∃ s', whileDue d fuel s.tick = some (s.tick.due, s') ∧
        s.tick.due.Pairwise (·.when ≤ ·.when) ∧ s'.stats = s.tick.stats ∧
        s'.pending.Pairwise (·.2.when ≤ ·.2.when) ∧
        ∀ x ∈ s'.pending, s'.stats.totalTicks < x.2.when) ∧
    s.stats.Balanced ∧
    (∀ fuel s', oneTick d fuel s = some s' →
      s.stats.totalTicks ≤ s'.stats.totalTicks ∧ s'.stats.Balanced) ∧
    (s.level = .off → ∀ fuel, s.pending.length < fuel → (idle d fuel s).isSome = true) ∧
    ∀ fuel returns s', idle d fuel s = some (returns, s') →
      s.stats.totalTicks ≤ s'.stats.totalTicks ∧ s'.stats.Balanced := by
  have ho : s.Ordered :=
    History.run_keeps (fun s e s' ho h => step_ordered ho h) (ordered_initial system) hr
  have hwhen : ∀ {t : Interrupt H ω}, t.Ordered → t.pending.Pairwise (·.2.when ≤ ·.2.when) :=
    fun {t} ht => ht.sorted.imp_of_mem fun hx hy hle => by
      rwa [← ht.keys _ hx, ← ht.keys _ hy]
  refine ⟨fun hst fuel hf => ?_, ho.balanced, fun fuel s' h => ?_,
    fun hl fuel hf => idle_isSome hd ho hl hf, fun fuel returns s' h => ?_⟩
  · obtain ⟨fired, s', h, hdue⟩ :=
      whileDue_due hd ho.tick rfl ((length_due_le s.tick).trans_lt hf)
    obtain ⟨rfl, hnil⟩ := hdue hst
    obtain ⟨ho', hstats⟩ := whileDue_ordered ho.tick h
    refine ⟨by simp only [oneTick, h, Option.map_some, Option.isSome_some], s', h, ?_, hstats,
      hwhen ho', fun x hx => ?_⟩
    · exact List.pairwise_map.mpr ((hwhen ho.tick).filter _)
    · rw [due, List.map_eq_nil_iff, List.filter_eq_nil_iff] at hnil
      simpa using hnil x hx
  · obtain ⟨ho', hlt⟩ := oneTick_ordered ho h
    exact ⟨hlt.le, ho'.balanced⟩
  · obtain ⟨ho', hle⟩ := idle_ordered ho h
    exact ⟨hle, ho'.balanced⟩

def again : Handlers Unit Unit where
  delayedLoad := id
  call _ arg _ := ((), [⟨(), arg, 100, .timerInt⟩], true)

def twoPending : Interrupt Unit Unit :=
  { (initial () : Interrupt Unit Unit) with
    pending := [(5, ⟨(), 2, 5, .diskInt⟩), (7, ⟨(), 1, 7, .timerInt⟩)] }

theorem due_fire_in_order_again :
    History.run (step again) (initial ())
      [.schedule ⟨(), 1, 7, .timerInt⟩, .schedule ⟨(), 2, 5, .diskInt⟩] = some twoPending ∧
    ∃ s', whileDue again 3 twoPending.tick =
      some ([⟨(), 2, 5, .diskInt⟩, ⟨(), 1, 7, .timerInt⟩], s') ∧
      ∀ x ∈ s'.pending, s'.stats.totalTicks < x.2.when := by
  have hr : History.run (step again) (initial ())
      [.schedule ⟨(), 1, 7, .timerInt⟩, .schedule ⟨(), 2, 5, .diskInt⟩] = some twoPending := rfl
  have hd : again.Later := fun h arg s r hr => by
    rw [List.mem_singleton.mp hr]
    exact (by decide : (0 : Int) < 100)
  obtain ⟨-, s', h, -, -, -, hlate⟩ := (due_fire_in_order hd hr).1 (by decide) 3 (by decide)
  exact ⟨hr, s', h, hlate⟩

end Interrupt
end Nachos
