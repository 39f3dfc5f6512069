import Nachos.Machine.Elevator

/-! The speed of the elevators, in simulated time. All elevators share one handler, which goes on
with at most one of them per call and counts from the time at which this one should have arrived.
If each call comes on time and finds no more than one elevator that goes on, an elevator changes
its floor once in `delayPerFloor` ticks. Times are unbounded: the source adds 100 at most to the
current time or to a `willArrive`, which does not overflow as long as these are below 2^31 - 100. -/

namespace Nachos
open Lib

namespace ElevatorBank
variable {n : Nat}

/-- The bank at a time, with the times for which interrupts are pending. For each elevator, all
changes of its floor are recorded with their times, the last one first. -/
structure Timed (n : Nat) where
  now : Int
  pending : List Int
  bank : ElevatorBank n
  log : Fin n → List (Int × Int)

inductive TimedEvent where
  | wait (ticks : Nat)
  | call (c : BankCall)
  | fire (when : Int)

namespace Timed

def initial (n : Nat) (numFloors now : Int) : Timed n :=
  ⟨now, [], .initial n numFloors, fun _ => []⟩

def become (x : Timed n) (pending : List Int) (r : ElevatorBank n × List Int) : Timed n where
  now := x.now
  pending := pending ++ r.2.map (x.now + ·)
  bank := r.1
  log i :=
    if (r.1.elevators i).lastFloor = (x.bank.elevators i).lastFloor then x.log i
    else (x.now, (r.1.elevators i).lastFloor - (x.bank.elevators i).lastFloor) :: x.log i

/-- An interrupt may fire when its time has come, or later. -/
def step (x : Timed n) : TimedEvent → Option (Timed n)
  | .wait ticks => some { x with now := x.now + ticks }
  | .call c => (x.bank.perform x.now c).map (x.become x.pending)
  | .fire when =>
    if when ∈ x.pending ∧ when ≤ x.now then
      some (x.become (x.pending.erase when) (x.bank.handleInterrupt x.now))
    else none

/-- Changes of floors are by one floor and lie `delayPerFloor` ticks apart, and for an elevator in
motion an interrupt is pending that is not too late. -/
structure AtSpeed (x : Timed n) : Prop where
  apart : ∀ i, (x.log i).Pairwise fun later earlier => earlier.1 + delayPerFloor ≤ later.1
  single : ∀ i, ∀ m ∈ x.log i, m.2 = 1 ∨ m.2 = -1
  covered : ∀ i, (x.bank.elevators i).inMotion = true →
    ∃ p ∈ x.pending, p ≤ (x.bank.elevators i).willArrive

/-- When an interrupt fires, at most one elevator goes on from the next floor, and it has reached
this floor just now. -/
def OneOnTime (x : Timed n) : TimedEvent → Prop
  | .fire _ =>
    (∀ i j, (x.bank.elevators i).Passes x.now → (x.bank.elevators j).Passes x.now → i = j) ∧
    ∀ i, (x.bank.elevators i).Passes x.now → (x.bank.elevators i).willArrive = x.now
  | _ => True

end Timed

/-! ## The handler -/

theorem delays_foldl_handleElevator {now d : Int} (l : List (Fin n)) (h : Handling n)
    (hd : d ∈ h.delays) : d ∈ (l.foldl (handleElevator now) h).delays := by
  induction l generalizing h with
  | nil => exact hd
  | cons i l ih =>
    apply ih
    obtain ⟨-, -, -, hdelays⟩ := handleElevator_spec now h i
    rw [hdelays]
    split
    · exact List.mem_append_left _ hd
    · exact hd

theorem foldl_handleElevator_passes {now : Int} {l : List (Fin n)} (hl : l.Nodup) {h : Handling n}
    (hsched : h.intSched = false) {i : Fin n} (hi : i ∈ l)
    (hpasses : (h.bank.elevators i).Passes now)
    (halone : ∀ j ∈ l, (h.bank.elevators j).Passes now → j = i) :
    (l.foldl (handleElevator now) h).bank.elevators i = (h.bank.elevators i).handled now true ∧
      delayPerFloor ∈ (l.foldl (handleElevator now) h).delays := by
  induction l generalizing h with
  | nil => cases hi
  | cons k l ih =>
    obtain ⟨hk, hl⟩ := List.nodup_cons.mp hl
    obtain ⟨-, helevators, hsched', hdelays⟩ := handleElevator_spec now h k
    rw [List.foldl_cons]
    by_cases hki : k = i
    · subst hki
      obtain ⟨first, hrest⟩ := (foldl_handleElevator now hl (handleElevator now h k)).2 k
      rw [if_neg hk, helevators, if_pos rfl, hsched] at hrest
      refine ⟨hrest, delays_foldl_handleElevator l _ ?_⟩
      rw [hdelays, if_pos ⟨hsched, hpasses⟩]
      exact List.mem_append_right _ List.mem_cons_self
    · have hpass : ¬ (h.bank.elevators k).Passes now := fun hp =>
        hki (halone k List.mem_cons_self hp)
      have hother : ∀ j ∈ l, (handleElevator now h k).bank.elevators j = h.bank.elevators j := by
        intro j hj
        rw [helevators j, if_neg]
        rintro rfl
        exact hk hj
      have hil : i ∈ l := List.mem_of_ne_of_mem (Ne.symm hki) hi
      have hrest := ih hl (h := handleElevator now h k)
        (by rw [hsched', hsched, decide_eq_false hpass]; rfl) hil
        (by rw [hother i hil]; exact hpasses)
        (fun j hj hp => halone j (List.mem_cons_of_mem _ hj) (hother j hj ▸ hp))
      rw [hother i hil] at hrest
      exact hrest

theorem handleInterrupt_passes {b : ElevatorBank n} {now : Int} {i : Fin n}
    (hpasses : (b.elevators i).Passes now)
    (halone : ∀ j, (b.elevators j).Passes now → j = i) :
    (b.handleInterrupt now).1.elevators i = (b.elevators i).handled now true ∧
      delayPerFloor ∈ (b.handleInterrupt now).2 :=
  foldl_handleElevator_passes (List.nodup_finRange n) rfl (List.mem_finRange i) hpasses
    fun j _ => halone j

/-! ## Steps -/

namespace Timed
variable {x x' : Timed n}

/-- The interrupt for an elevator in motion is pending for the time of its arrival, which is late
enough after its last change of floors. -/
structure OnTrack (x : Timed n) (i : Fin n) : Prop where
  apart : (x.log i).Pairwise fun later earlier => earlier.1 + delayPerFloor ≤ later.1
  single : ∀ m ∈ x.log i, m.2 = 1 ∨ m.2 = -1
  scheduled : (x.bank.elevators i).inMotion = true → (x.bank.elevators i).willArrive ∈ x.pending
  past : ∀ m ∈ x.log i, m.1 ≤ x.now
  later : (x.bank.elevators i).inMotion = true →
    ∀ m ∈ x.log i, m.1 + delayPerFloor ≤ (x.bank.elevators i).willArrive

theorem atSpeed_of_onTrack (h : ∀ i, x.OnTrack i) : x.AtSpeed :=
  ⟨fun i => (h i).apart, fun i => (h i).single,
    fun i hi => ⟨_, (h i).scheduled hi, le_rfl⟩⟩

theorem onTrack_initial {numFloors now : Int} (i : Fin n) :
    (initial n numFloors now).OnTrack i := by
  refine ⟨List.Pairwise.nil, fun m hm => ?_, fun hi => ?_, fun m hm => ?_, fun hi => ?_⟩
  · cases hm
  · cases hi
  · cases hm
  · cases hi

theorem OnTrack.wait {i : Fin n} (h : x.OnTrack i) (ticks : Nat) :
    OnTrack { x with now := x.now + ticks } i := by
  refine ⟨h.apart, h.single, h.scheduled, fun m hm => ?_, h.later⟩
  exact (h.past m hm).trans (le_add_of_nonneg_right (Int.natCast_nonneg ticks))

theorem lastFloor_of_acts {numFloors now : Int} {delays : List Int} {e e' : ElevatorInfo}
    (h : ElevatorInfo.Acts numFloors now delays e e') : e'.lastFloor = e.lastFloor := by
  cases h with
  | keep lastFloor inMotion goingTo willArrive doors => exact lastFloor
  | start closed low high scheduled => rfl
  | turn closed low high => rfl

theorem OnTrack.call {i : Fin n} (h : x.OnTrack i) {c : BankCall} {r : ElevatorBank n × List Int}
    (hr : x.bank.perform x.now c = some r) : (x.become x.pending r).OnTrack i := by
  obtain ⟨b, delays⟩ := r
  obtain ⟨-, hacts⟩ := perform_acts hr
  have hact := hacts i
  have hlog : (x.become x.pending (b, delays)).log i = x.log i := if_pos (lastFloor_of_acts hact)
  have hnext : (b.elevators i).inMotion = true →
      (b.elevators i).willArrive ∈ x.pending ++ delays.map (x.now + ·) ∧
      ∀ m ∈ x.log i, m.1 + delayPerFloor ≤ (b.elevators i).willArrive := by
    generalize b.elevators i = e' at hact ⊢
    intro hi
    cases hact with
    | keep lastFloor inMotion goingTo willArrive doors =>
      rw [inMotion] at hi
      rw [willArrive]
      exact ⟨List.mem_append_left _ (h.scheduled hi), h.later hi⟩
    | start closed low high scheduled =>
      refine ⟨List.mem_append_right _ (List.mem_map_of_mem scheduled), fun m hm => ?_⟩
      exact add_le_add_left (h.past m hm) _
    | turn closed low high =>
      exact ⟨List.mem_append_left _ (h.scheduled hi), h.later hi⟩
  refine ⟨?_, ?_, fun hi => (hnext hi).1, ?_, fun hi => ?_⟩
  · rw [hlog]
    exact h.apart
  · rw [hlog]
    exact h.single
  · rw [hlog]
    exact h.past
  · rw [hlog]
    exact (hnext hi).2

/-- The handler leaves an elevator alone, or the elevator reaches the next floor, and if it goes on,
an interrupt comes when it arrives. -/
theorem handleInterrupt_cases {when : Int} (hok : x.OneOnTime (.fire when)) (i : Fin n) :
    (¬ (x.bank.elevators i).Due x.now ∧
      (x.bank.handleInterrupt x.now).1.elevators i = x.bank.elevators i) ∨
    ((x.bank.elevators i).Due x.now ∧
      ((x.bank.handleInterrupt x.now).1.elevators i).lastFloor = (x.bank.elevators i).nextFloor ∧
      (((x.bank.handleInterrupt x.now).1.elevators i).inMotion = true →
        ((x.bank.handleInterrupt x.now).1.elevators i).willArrive = x.now + delayPerFloor ∧
        delayPerFloor ∈ (x.bank.handleInterrupt x.now).2)) := by
  obtain ⟨hone, htime⟩ := hok
  by_cases hpasses : (x.bank.elevators i).Passes x.now
  · obtain ⟨helevator, hdelay⟩ := handleInterrupt_passes hpasses fun j hj => hone j i hj hpasses
    rw [helevator, ElevatorInfo.handled, if_pos hpasses.1, if_neg hpasses.2, if_pos rfl]
    refine .inr ⟨hpasses.1, rfl, fun _ => ⟨?_, hdelay⟩⟩
    exact congrArg (· + delayPerFloor) (htime i hpasses)
  · obtain ⟨first, helevator⟩ := (handleInterrupt_spec x.bank x.now).2 i
    rw [helevator, ElevatorInfo.handled]
    by_cases hdue : (x.bank.elevators i).Due x.now
    · have harrives : (x.bank.elevators i).nextFloor = (x.bank.elevators i).goingTo := by
        by_contra hne
        exact hpasses ⟨hdue, hne⟩
      rw [if_pos hdue, if_pos harrives]
      exact .inr ⟨hdue, rfl, fun h => absurd h Bool.false_ne_true⟩
    · rw [if_neg hdue]
      exact .inl ⟨hdue, rfl⟩

theorem nextFloor_sub (e : ElevatorInfo) :
    e.nextFloor - e.lastFloor = 1 ∨ e.nextFloor - e.lastFloor = -1 := by
  unfold ElevatorInfo.nextFloor
  split <;> omega

theorem OnTrack.fire {i : Fin n} (h : x.OnTrack i) {when : Int} (hwhen : when ≤ x.now)
    (hok : x.OneOnTime (.fire when)) :
    (x.become (x.pending.erase when) (x.bank.handleInterrupt x.now)).OnTrack i := by
  obtain ⟨hdue, helevator⟩ | ⟨hdue, hfloor, hgoes⟩ := handleInterrupt_cases hok i
  · have hlog : (x.become (x.pending.erase when) (x.bank.handleInterrupt x.now)).log i =
        x.log i := by
      refine if_pos ?_
      rw [helevator]
    refine ⟨?_, ?_, fun hi => ?_, ?_, fun hi => ?_⟩
    · rw [hlog]
      exact h.apart
    · rw [hlog]
      exact h.single
    · -- the interrupt that has fired was not the one for this elevator
      change ((x.bank.handleInterrupt x.now).1.elevators i).inMotion = true at hi
      change ((x.bank.handleInterrupt x.now).1.elevators i).willArrive ∈ _
      rw [helevator] at hi ⊢
      have hne : (x.bank.elevators i).willArrive ≠ when := by
        rintro rfl
        exact hdue ⟨hi, hwhen⟩
      exact List.mem_append_left _ ((List.mem_erase_of_ne hne).mpr (h.scheduled hi))
    · rw [hlog]
      exact h.past
    · change ((x.bank.handleInterrupt x.now).1.elevators i).inMotion = true at hi
      change ∀ m ∈ _, _ ≤ ((x.bank.handleInterrupt x.now).1.elevators i).willArrive
      rw [helevator] at hi ⊢
      rw [hlog]
      exact h.later hi
  · have hsub := nextFloor_sub (x.bank.elevators i)
    have hlog : (x.become (x.pending.erase when) (x.bank.handleInterrupt x.now)).log i =
        (x.now, (x.bank.elevators i).nextFloor - (x.bank.elevators i).lastFloor) :: x.log i := by
      refine (if_neg ?_).trans (by rw [hfloor])
      rw [hfloor]
      omega
    have hbefore : ∀ m ∈ x.log i, m.1 + delayPerFloor ≤ x.now := fun m hm =>
      (h.later hdue.1 m hm).trans hdue.2
    refine ⟨?_, ?_, fun hi => ?_, ?_, fun hi => ?_⟩
    · rw [hlog]
      exact List.pairwise_cons.mpr ⟨hbefore, h.apart⟩
    · rw [hlog]
      exact List.forall_mem_cons.mpr ⟨hsub, h.single⟩
    · obtain ⟨harrive, hdelay⟩ := hgoes hi
      change ((x.bank.handleInterrupt x.now).1.elevators i).willArrive ∈ _
      rw [harrive]
      exact List.mem_append_right _ (List.mem_map_of_mem hdelay)
    · rw [hlog]
      exact List.forall_mem_cons.mpr ⟨le_rfl, h.past⟩
    · obtain ⟨harrive, -⟩ := hgoes hi
      change ∀ m ∈ _, _ ≤ ((x.bank.handleInterrupt x.now).1.elevators i).willArrive
      rw [harrive, hlog]
      refine List.forall_mem_cons.mpr ⟨le_rfl, fun m hm => ?_⟩
      exact add_le_add_left (h.past m hm) _

theorem onTrack_step {e : TimedEvent} (h : ∀ i, x.OnTrack i) (hs : x.step e = some x')
    (hok : x.OneOnTime e) : ∀ i, x'.OnTrack i := by
  cases e with
  | wait ticks =>
    cases hs
    exact fun i => (h i).wait ticks
  | call c =>
    obtain ⟨r, hr, rfl⟩ := Option.map_eq_some_iff.mp hs
    exact fun i => (h i).call hr
  | fire when =>
    rw [step] at hs
    split at hs
    · next hfire =>
      cases hs
      exact fun i => (h i).fire hfire.2 hok
    · cases hs

/-- Along every run of calls and interrupts in which each interrupt lets at most one elevator go on,
and this one on time, the elevators keep their speed. -/
theorem atSpeed_of_oneOnTime (n : Nat) (numFloors now : Int) (events : List TimedEvent)
    (h : History.Meets step OneOnTime (initial n numFloors now) events) :
    History.Always step AtSpeed (initial n numFloors now) events :=
  h.always (fun _ => atSpeed_of_onTrack) (fun _ _ _ => onTrack_step) onTrack_initial

/-- Two elevators start 50 ticks apart, and one of them has two floors to go. -/
theorem atSpeed_two :
    History.Always step AtSpeed (initial 2 5 0)
      [.call (.moveTo 2 0), .wait 50, .call (.moveTo 1 1), .wait 50, .fire 100] := by
  refine atSpeed_of_oneOnTime 2 5 0 _ ?_
  rintro x₁ ⟨⟩
  refine ⟨trivial, ?_⟩
  rintro x₂ ⟨⟩
  refine ⟨trivial, ?_⟩
  rintro x₃ ⟨⟩
  refine ⟨trivial, ?_⟩
  rintro x₄ ⟨⟩
  refine ⟨trivial, ?_⟩
  rintro x₅ -
  refine ⟨⟨?_, ?_⟩, trivial⟩
  · decide
  · decide

/-- Two elevators start at the same time and have some floors to go. At time 100 there are two
interrupts. The first one lets both go on, but only the first elevator properly, so that the second
interrupt finds the other one at the next floor already. -/
theorem not_atSpeed_two :
    ∃ x : Timed 2, History.run step (initial 2 5 0)
        [.call (.moveTo 4 0), .call (.moveTo 4 1), .wait 100, .fire 100, .fire 100] = some x ∧
      x.log 1 = [(100, 1), (100, 1)] ∧ ¬ x.AtSpeed := by
  refine ⟨_, rfl, rfl, fun h => ?_⟩
  have hapart := List.rel_of_pairwise_cons (h.apart 1) List.mem_cons_self
  exact absurd hapart (by decide)

end Timed
end ElevatorBank
end Nachos
