import Mathlib.Tactic.Positivity
import Nachos.Machine.Interrupt

/-! The timer (`timer.cc`) and its handler in `system.cc`, among any other devices. Whenever it
expires, the timer asks for its next interrupt. Its handler counts the expirations of the thread
that runs, and lets the thread yield at the fifth one of every ten. The count is taken modulo 10,
and the timer's own sums do not overflow as long as `totalTicks + 60 < 2^31`. -/

namespace Nachos
open Lib Threads

/-! ## Properties that all calls keep -/

theorem perm_sortedInsert {α : Type} (item : α) (sortKey : Int) (l : List (Int × α)) :
    (sortedInsert item sortKey l).Perm ((sortKey, item) :: l) := by
  induction l with
  | nil => exact .refl _
  | cons x l ih =>
    rw [sortedInsert]
    split
    · exact .refl _
    · exact (ih.cons x).trans (.swap ..)

namespace Interrupt
variable {H ω : Type} {d : Handlers H ω} {s s' : Interrupt H ω} {fuel : Nat}

/-- A property of the pending interrupts, whatever their order is, of the time and of the rest of
the system, which is kept as time passes and when an interrupt fires. -/
structure Kept (d : Handlers H ω) (I : Interrupt H ω → Prop) : Prop where
  frame : ∀ {s s'}, I s → s'.pending.Perm s.pending → s.stats.totalTicks ≤ s'.stats.totalTicks →
    s'.system = s.system → I s'
  fire : ∀ {s s' when p rest}, I s → s.pending = (when, p) :: rest →
    fire d { s with pending := rest } p = some s' → I s'

variable {I : Interrupt H ω → Prop}

theorem Kept.checkIfDue (h : Kept d I) {advanceClock : Bool} {fired : Option (PendingInterrupt H)}
    (hs : I s) (hc : checkIfDue d advanceClock s = some (fired, s')) : I s' := by
  obtain ⟨-, -, rfl⟩ | ⟨when, p, rest, hp, ⟨-, -, -, rfl⟩ | ⟨stats, hstats, hend⟩⟩ :=
    checkIfDue_cases hc
  · exact hs
  · exact h.frame hs (hp ▸ perm_sortedInsert p when rest) le_rfl rfl
  · have hle : s.stats.totalTicks ≤ stats.totalTicks := by
      obtain ⟨rfl, -⟩ | ⟨rfl, hlt, -⟩ := hstats
      · exact le_rfl
      · exact hlt.le
    obtain ⟨-, rfl, -, rfl⟩ | ⟨-, hf⟩ := hend
    · exact h.frame hs (hp ▸ .refl _) hle rfl
    · have hs' : I { s with stats := stats } := h.frame hs (.refl _) hle rfl
      exact h.fire hs' hp hf

theorem Kept.whileDue (h : Kept d I) {fired : List (PendingInterrupt H)} (hs : I s)
    (hc : whileDue d fuel s = some (fired, s')) : I s' := by
  induction fuel generalizing s fired with
  | zero => cases hc
  | succ fuel ih =>
    rw [Interrupt.whileDue] at hc
    split at hc
    · cases hc
    · next s₁ h₁ =>
      cases hc
      exact h.checkIfDue hs h₁
    · next p s₁ h₁ =>
      obtain ⟨⟨ps, s₂⟩, h₂, he⟩ := Option.map_eq_some_iff.mp hc
      cases he
      exact ih (h.checkIfDue hs h₁) h₂

theorem Kept.oneTick (h : Kept d I) (hs : I s) (hc : oneTick d fuel s = some s') : I s' := by
  obtain ⟨⟨fired, s₁⟩, h₁, he⟩ := Option.map_eq_some_iff.mp hc
  have htick : I s.tick := by
    refine h.frame hs (.refl _) ?_ rfl
    change s.stats.totalTicks ≤ (s.stats.advance s.status).totalTicks
    cases s.status <;> simp [Statistics.advance]
  have hs₁ := h.whileDue htick h₁
  simp only at he
  split at he <;> cases he <;> exact h.frame hs₁ (.refl _) le_rfl rfl

theorem Kept.idle (h : Kept d I) {returns : Bool} (hs : I s)
    (hc : idle d fuel s = some (returns, s')) : I s' := by
  have hidle : I { s with status := .idleMode } := h.frame hs (.refl _) le_rfl rfl
  rw [Interrupt.idle] at hc
  split at hc
  · cases hc
  · next s₁ h₁ =>
    cases hc
    exact h.checkIfDue hidle h₁
  · next p s₁ h₁ =>
    obtain ⟨⟨fired, s₂⟩, h₂, he⟩ := Option.map_eq_some_iff.mp hc
    cases he
    exact h.frame (h.whileDue (h.checkIfDue hidle h₁) h₂) (.refl _) le_rfl rfl

theorem Kept.step (h : Kept d I) {e : Event H ω} (hs : I s) (hc : step d s e = some s')
    (hsched : ∀ r, e = .schedule r → s.schedule r = some s' → I s')
    (hother : ∀ system, e = .other system → I { s with system := system }) : I s' := by
  cases e with
  | schedule r => exact hsched r rfl hc
  | setLevel fuel now =>
    rw [Interrupt.step, Interrupt.setLevel] at hc
    split at hc
    · cases hc
    split at hc
    · have hon : I { s with level := now } := h.frame hs (.refl _) le_rfl rfl
      exact h.oneTick hon hc
    · cases hc
      exact h.frame hs (.refl _) le_rfl rfl
  | oneTick fuel => exact h.oneTick hs hc
  | idle fuel =>
    obtain ⟨⟨returns, s₁⟩, h₁, he⟩ := Option.bind_eq_some_iff.mp hc
    simp only at he
    split at he <;> cases he
    exact h.idle hs h₁
  | changeLevel now =>
    cases hc
    exact h.frame hs (.refl _) le_rfl rfl
  | setStatus status =>
    cases hc
    exact h.frame hs (.refl _) le_rfl rfl
  | other system =>
    cases hc
    exact hother system rfl

end Interrupt

/-! ## The timer -/

structure Expiration where
  thread : Thread
  yields : Bool

/-- The timer with the random numbers that it is going to draw, and what its handler knows of the
threads. All its expirations are recorded, the latest one first. -/
structure Clocks (ω : Type) where
  randomize : Bool
  random : Nat → Nat
  currentThread : Thread
  timeSlice : Thread → Int
  expirations : List Expiration
  rest : ω

namespace Clocks
variable {H ω : Type}

/-- `TimerTicks` is 30. -/
def timeOfNextInterrupt (c : Clocks ω) : Int × Clocks ω :=
  if c.randomize then
    (1 + (c.random 0 % 60 : Nat), { c with random := fun i => c.random (i + 1) })
  else (30, c)

/-- The interrupt handler of `system.cc`, and whether it calls `YieldOnReturn`. -/
def timerInterruptHandler (c : Clocks ω) (status : MachineStatus) : Clocks ω × Bool :=
  let ts := (c.timeSlice c.currentThread + 1).tmod 10
  let timeSlice := Function.update c.timeSlice c.currentThread ts
  let yields := decide (status ≠ .idleMode ∧ timeSlice c.currentThread = 5)
  ({ c with
    timeSlice := timeSlice
    expirations := ⟨c.currentThread, yields⟩ :: c.expirations }, yields)

/-- The timer itself is the handler `none`. -/
def timerExpired (c : Clocks ω) (arg : Int) (status : MachineStatus) :
    Clocks ω × List (Request (Option H)) × Bool :=
  let (fromNow, c) := c.timeOfNextInterrupt
  let (c, yields) := c.timerInterruptHandler status
  (c, [⟨none, arg, fromNow, .timerInt⟩], yields)

/-- The constructor of the timer, which runs right after the one of `Interrupt`. -/
def start (H : Type) (c : Clocks ω) (timer : Int) : Option (Interrupt (Option H) (Clocks ω)) :=
  let (fromNow, c) := c.timeOfNextInterrupt
  (Interrupt.initial c).schedule ⟨none, timer, fromNow, .timerInt⟩

end Clocks

structure Devices (H ω : Type) where
  delayedLoad : ω → ω
  call : H → Int → Interrupt (Option H) (Clocks ω) → ω × List (Request H) × Bool

namespace Devices
variable {H ω : Type}

def withTimer (d : Devices H ω) : Handlers (Option H) (Clocks ω) where
  delayedLoad c := { c with rest := d.delayedLoad c.rest }
  call
    | none, arg, s => s.system.timerExpired arg s.status
    | some h, arg, s =>
      let (rest, requests, yields) := d.call h arg s
      ({ s.system with rest := rest },
        requests.map fun r => ⟨some r.handler, r.arg, r.fromNow, r.type⟩, yields)

/-- The other devices schedule only their own interrupts, and for later times. -/
def Own (d : Devices H ω) : Prop :=
  ∀ h arg s, ∀ r ∈ (d.call h arg s).2.1, r.type ≠ .timerInt ∧ 0 < r.fromNow

end Devices

namespace Clocks
variable {H ω : Type}

def longest (c : Clocks ω) : Int := if c.randomize then 60 else 30

def charged (t : Thread) (l : List Expiration) : Nat := l.countP (·.thread = t)

theorem timeOfNextInterrupt_mem (c : Clocks ω) :
    0 < c.timeOfNextInterrupt.1 ∧ c.timeOfNextInterrupt.1 ≤ c.longest := by
  unfold longest timeOfNextInterrupt
  split
  · constructor <;> simp only <;> omega
  · exact ⟨by simp, le_rfl⟩

theorem timeOfNextInterrupt_keeps (c : Clocks ω) :
    c.timeOfNextInterrupt.2 = { c with random := c.timeOfNextInterrupt.2.random } := by
  unfold timeOfNextInterrupt
  split <;> rfl

/-- The record agrees with the time slices: a thread yields at the fifth of every ten expirations
that it is charged with. -/
structure Recorded (c : Clocks ω) : Prop where
  slices : ∀ t, c.timeSlice t = (charged t c.expirations % 10 : Nat)
  yields : ∀ later x earlier, c.expirations = later ++ x :: earlier →
    (x.yields = true ↔ charged x.thread (x :: earlier) % 10 = 5)

theorem Recorded.congr {c c' : Clocks ω} (h : c.Recorded) (ht : c'.timeSlice = c.timeSlice)
    (he : c'.expirations = c.expirations) : c'.Recorded :=
  ⟨ht ▸ he ▸ h.slices, he ▸ h.yields⟩

theorem charged_cons_of_eq {t : Thread} {x : Expiration} (h : x.thread = t) (l : List Expiration) :
    charged t (x :: l) = charged t l + 1 :=
  List.countP_cons_of_pos (by simpa using h)

theorem charged_cons_of_ne {t : Thread} {x : Expiration} (h : x.thread ≠ t) (l : List Expiration) :
    charged t (x :: l) = charged t l :=
  List.countP_cons_of_neg (by simpa using h)

/-- The status is the one that every handler finds, also when the machine was idle. -/
theorem Recorded.handled {c : Clocks ω} (h : c.Recorded) :
    (c.timerInterruptHandler .systemMode).1.Recorded := by
  have hts : (c.timeSlice c.currentThread + 1).tmod 10 =
      ((charged c.currentThread c.expirations + 1) % 10 : Nat) := by
    rw [h.slices, Int.tmod_eq_emod_of_nonneg (by positivity)]
    omega
  have hnew : ∀ yields, charged c.currentThread (⟨c.currentThread, yields⟩ :: c.expirations) =
      charged c.currentThread c.expirations + 1 := fun _ => charged_cons_of_eq rfl _
  refine ⟨fun t => ?_, fun later x earlier he => ?_⟩
  · by_cases ht : t = c.currentThread
    · subst ht
      simp only [timerInterruptHandler, Function.update_self, hts, hnew]
    · simp only [timerInterruptHandler, Function.update_of_ne ht, h.slices t]
      rw [charged_cons_of_ne (Ne.symm ht)]
  · -- the new expiration, or one that was recorded before
    cases later with
    | nil =>
      obtain ⟨rfl, rfl⟩ := List.cons.inj he
      simp only [hnew, Function.update_self, hts, ne_eq, reduceCtorEq, not_false_eq_true, true_and,
        decide_eq_true_eq]
      omega
    | cons y later => exact h.yields later x earlier (List.cons.inj he).2

end Clocks

/-! ## Whole runs -/

section
variable {H ω : Type} {d : Devices H ω} {s s' : Interrupt (Option H) (Clocks ω)}

def Interrupt.timers (s : Interrupt (Option H) (Clocks ω)) :
    List (Int × PendingInterrupt (Option H)) :=
  s.pending.filter fun x => x.2.type = .timerInt

/-- Exactly one interrupt of the timer is pending, and it does not come too late. -/
structure Ticking (s : Interrupt (Option H) (Clocks ω)) : Prop where
  timer : ∃ when arg, s.timers = [(when, ⟨none, arg, when, .timerInt⟩)] ∧
    when ≤ s.stats.totalTicks + s.system.longest
  own : ∀ x ∈ s.pending, x.2.handler = none → x.2.type = .timerInt
  recorded : s.system.Recorded

/-- What the kernel does besides: it schedules no timer interrupt, and leaves the time slices
alone when it switches threads. -/
def Permitted (s : Interrupt (Option H) (Clocks ω)) :
    Interrupt.Event (Option H) (Clocks ω) → Prop
  | .schedule r => r.handler ≠ none ∧ r.type ≠ .timerInt
  | .other c => c.timeSlice = s.system.timeSlice ∧ c.expirations = s.system.expirations ∧
      c.randomize = s.system.randomize
  | _ => True

theorem Ticking.congr (h : Ticking s) (hp : s'.pending.Perm s.pending)
    (ht : s.stats.totalTicks ≤ s'.stats.totalTicks)
    (hslice : s'.system.timeSlice = s.system.timeSlice)
    (hexp : s'.system.expirations = s.system.expirations)
    (hrand : s'.system.randomize = s.system.randomize) : Ticking s' := by
  obtain ⟨when, arg, htimer, hlate⟩ := h.timer
  refine ⟨⟨when, arg, ?_, ?_⟩, fun x hx => h.own x (hp.mem_iff.mp hx),
    h.recorded.congr hslice hexp⟩
  · have hperm : s'.timers.Perm s.timers := hp.filter _
    rw [htimer] at hperm
    exact List.perm_singleton.mp hperm
  · rw [Clocks.longest, hrand, ← Clocks.longest]
    omega

theorem Ticking.schedule (h : Ticking s) {r : Request (Option H)}
    (hr : r.handler ≠ none ∧ r.type ≠ .timerInt) (hs : s.schedule r = some s') : Ticking s' := by
  rw [Interrupt.schedule] at hs
  split at hs
  · cases hs
    obtain ⟨when, arg, htimer, hlate⟩ := h.timer
    refine ⟨⟨when, arg, ?_, hlate⟩, fun x hx hnone => ?_, h.recorded⟩
    · unfold Interrupt.timers
      rw [filter_sortedInsert (by simpa using hr.2)]
      exact htimer
    · obtain rfl | hx := mem_sortedInsert.mp hx
      · exact absurd hnone hr.1
      · exact h.own x hx hnone
  · cases hs

theorem Ticking.foldlM_schedule (h : Ticking s) {rs : List (Request (Option H))}
    (hrs : ∀ r ∈ rs, r.handler ≠ none ∧ r.type ≠ .timerInt)
    (hs : rs.foldlM Interrupt.schedule s = some s') : Ticking s' := by
  induction rs generalizing s with
  | nil =>
    cases hs
    exact h
  | cons r rs ih =>
    rw [List.foldlM_cons] at hs
    obtain ⟨s₁, h₁, hs⟩ := Option.bind_eq_some_iff.mp hs
    have hs₁ := h.schedule (hrs r (List.mem_cons_self ..)) h₁
    exact ih hs₁ (fun r hr => hrs r (List.mem_cons_of_mem _ hr)) hs

/-- What the timer's handler leaves behind: it runs after `DelayedLoad`, in system mode. -/
theorem fire_timer_cases {arg when : Int}
    (hf : Interrupt.fire d.withTimer s ⟨none, arg, when, .timerInt⟩ = some s') :
    ∃ c : Clocks ω, c = { s.system with rest := d.delayedLoad s.system.rest } ∧
      s'.system = (c.timeOfNextInterrupt.2.timerInterruptHandler .systemMode).1 ∧
      s'.stats = s.stats ∧
      s'.pending = sortedInsert ⟨none, arg, s.stats.totalTicks + c.timeOfNextInterrupt.1, .timerInt⟩
        (s.stats.totalTicks + c.timeOfNextInterrupt.1) s.pending := by
  refine ⟨_, rfl, ?_⟩
  obtain ⟨s₁, h₁, rfl⟩ := Option.map_eq_some_iff.mp hf
  -- the timer makes one request
  obtain ⟨s₂, h₂, h₁⟩ := Option.bind_eq_some_iff.mp h₁
  cases h₁
  rw [Interrupt.schedule] at h₂
  split at h₂
  · cases h₂
    exact ⟨rfl, rfl, rfl⟩
  · cases h₂

theorem Ticking.fire_timer (h : Ticking s) {when arg : Int}
    {rest : List (Int × PendingInterrupt (Option H))}
    (hp : s.pending = (when, ⟨none, arg, when, .timerInt⟩) :: rest)
    (hf : Interrupt.fire d.withTimer { s with pending := rest } ⟨none, arg, when, .timerInt⟩ =
      some s') : Ticking s' := by
  obtain ⟨c, hc, hsys, hstats, hpend⟩ := fire_timer_cases hf
  obtain ⟨w, a, htimer, -⟩ := h.timer
  rw [Interrupt.timers, hp, List.filter_cons_of_pos (by simp)] at htimer
  have hnone := (List.cons.inj htimer).2
  -- drawing a random number changes nothing that the record depends on
  rw [c.timeOfNextInterrupt_keeps] at hsys
  refine ⟨⟨s.stats.totalTicks + c.timeOfNextInterrupt.1, arg, ?_, ?_⟩, ?_, ?_⟩
  · rw [Interrupt.timers, hpend]
    have hperm := (perm_sortedInsert ⟨none, arg, s.stats.totalTicks + c.timeOfNextInterrupt.1,
      .timerInt⟩ (s.stats.totalTicks + c.timeOfNextInterrupt.1) rest).filter
        fun x => x.2.type = .timerInt
    rw [List.filter_cons_of_pos (by simp), hnone] at hperm
    exact List.perm_singleton.mp hperm
  · have hmax : s'.system.longest = c.longest := by rw [hsys]; rfl
    rw [hstats, hmax]
    exact Int.add_le_add_left c.timeOfNextInterrupt_mem.2 _
  · intro x hx hhandler
    rw [hpend] at hx
    obtain rfl | hx := mem_sortedInsert.mp hx
    · rfl
    · exact h.own x (hp ▸ List.mem_cons_of_mem _ hx) hhandler
  · rw [hsys]
    apply Clocks.Recorded.handled
    apply h.recorded.congr <;> rw [hc]

theorem Ticking.fire_device (hd : d.Own) (h : Ticking s) {p : PendingInterrupt (Option H)}
    {dev : H} (hh : p.handler = some dev)
    (hf : Interrupt.fire d.withTimer s p = some s') : Ticking s' := by
  obtain ⟨s₁, h₁, rfl⟩ := Option.map_eq_some_iff.mp hf
  simp only [hh] at h₁
  have hs₁ : Ticking s₁ := by
    refine Ticking.foldlM_schedule ?_ (fun r hr => ?_) h₁
    · exact h.congr (.refl _) le_rfl rfl rfl rfl
    · obtain ⟨r', hr', rfl⟩ := List.mem_map.mp hr
      exact ⟨by simp, (hd dev p.arg _ r' hr').1⟩
  exact hs₁.congr (.refl _) le_rfl rfl rfl rfl

theorem Ticking.kept (hd : d.Own) : Interrupt.Kept d.withTimer (@Ticking H ω) where
  frame h hp ht hsys := h.congr hp ht (by rw [hsys]) (by rw [hsys]) (by rw [hsys])
  fire := by
    intro s s' when p rest h hp hf
    obtain ⟨w, arg, htimer, hlate⟩ := h.timer
    by_cases htype : p.type = .timerInt
    · have hmem : (when, p) ∈ s.timers := by
        rw [Interrupt.timers, hp, List.filter_cons_of_pos (by simpa using htype)]
        exact List.mem_cons_self ..
      rw [htimer, List.mem_singleton] at hmem
      cases hmem
      exact h.fire_timer hp hf
    · have hrest : Ticking { s with pending := rest } := by
        refine ⟨⟨w, arg, ?_, hlate⟩, fun x hx => ?_, h.recorded⟩
        · rw [Interrupt.timers, hp, List.filter_cons_of_neg (by simpa using htype)] at htimer
          exact htimer
        · exact h.own x (hp ▸ List.mem_cons_of_mem _ hx)
      obtain ⟨dev, hh⟩ : ∃ dev, p.handler = some dev := by
        apply Option.ne_none_iff_exists'.mp
        intro hnone
        exact htype (h.own _ (hp ▸ List.mem_cons_self ..) hnone)
      exact hrest.fire_device hd hh hf

theorem Ticking.step (hd : d.Own) (h : Ticking s) {e : Interrupt.Event (Option H) (Clocks ω)}
    (he : Permitted s e) (hs : Interrupt.step d.withTimer s e = some s') : Ticking s' := by
  apply (Ticking.kept hd).step h hs
  · rintro r rfl hr
    exact h.schedule he hr
  · rintro c rfl
    exact h.congr (.refl _) le_rfl he.1 he.2.1 he.2.2

theorem ticking_start {c : Clocks ω} {timer : Int} (hslice : c.timeSlice = fun _ => 0)
    (hexp : c.expirations = []) (hs : c.start H timer = some s) : Ticking s := by
  have hs : (Interrupt.initial c.timeOfNextInterrupt.2).schedule
    ⟨none, timer, c.timeOfNextInterrupt.1, .timerInt⟩ = some s := hs
  rw [c.timeOfNextInterrupt_keeps, Interrupt.schedule] at hs
  split at hs
  · cases hs
    refine ⟨⟨_, timer, rfl, ?_⟩, ?_, ?_, ?_⟩
    · exact Int.add_le_add_left c.timeOfNextInterrupt_mem.2 _
    · intro x hx _
      rw [List.mem_singleton.mp hx]
    · intro t
      simp only [Interrupt.initial, hslice, hexp]
      rfl
    · intro later x earlier he
      have hnil : [] = later ++ x :: earlier := hexp.symm.trans he
      simp at hnil
  · cases hs

theorem Devices.Own.later (hd : d.Own) : d.withTimer.Later := by
  intro h arg s r hr
  cases h with
  | none =>
    rw [List.mem_singleton.mp hr]
    exact s.system.timeOfNextInterrupt_mem.1
  | some h =>
    obtain ⟨r', hr', rfl⟩ := List.mem_map.mp hr
    exact (hd h arg s r' hr').2

theorem Ticking.idle (h : Ticking s) {fuel : Nat} {returns : Bool}
    (hi : Interrupt.idle d.withTimer fuel s = some (returns, s')) :
    returns = false ↔ s.pending.length = 1 := by
  obtain ⟨w, arg, htimer, -⟩ := h.timer
  have hmem : (w, ⟨none, arg, w, .timerInt⟩) ∈ s.pending := by
    have : (w, ⟨none, arg, w, .timerInt⟩) ∈ s.timers := by
      rw [htimer]
      exact List.mem_singleton_self _
    exact List.mem_of_mem_filter this
  constructor
  · rintro rfl
    rw [Interrupt.idle] at hi
    split at hi
    · cases hi
    · next s₁ h₁ =>
      obtain ⟨hp, -⟩ | ⟨when, p, rest, hp, ⟨-, hadv, -⟩ | ⟨stats, -, ⟨-, rfl, -⟩ | ⟨hfired, -⟩⟩⟩ :=
        Interrupt.checkIfDue_cases h₁
      · rw [show s.pending = [] from hp] at hmem
        cases hmem
      · cases hadv
      · rw [show s.pending = _ from hp]
        rfl
      · cases hfired
    · obtain ⟨x, -, hx⟩ := Option.map_eq_some_iff.mp hi
      cases hx
  · intro hlen
    obtain ⟨x, hx⟩ := List.length_eq_one_iff.mp hlen
    rw [hx, List.mem_singleton] at hmem
    subst hmem
    rw [Interrupt.idle, Interrupt.checkIfDue] at hi
    split at hi
    · cases hi
    · cases hi
      rfl
    · next p s₁ h₁ =>
      -- the timer alone is never fired on an idle machine
      simp [hx] at h₁

end

/-- The timer never stops, whatever the other devices and the threads do, and a thread is told to
yield at the fifth of every ten expirations that it is charged with. An expiration is charged to
the thread that ran last, also if the machine was idle. -/
theorem timer_keeps_ticking {H ω : Type} {d : Devices H ω} (hd : d.Own) {c : Clocks ω}
    {timer : Int} {s₀ s : Interrupt (Option H) (Clocks ω)}
    {events : List (Interrupt.Event (Option H) (Clocks ω))}
    (hslice : c.timeSlice = fun _ => 0) (hexp : c.expirations = [])
    (h₀ : c.start H timer = some s₀)
    (hm : History.Meets (Interrupt.step d.withTimer) Permitted s₀ events)
    (hr : History.run (Interrupt.step d.withTimer) s₀ events = some s) :
    (∃ when arg, s.timers = [(when, ⟨none, arg, when, .timerInt⟩)] ∧
      when ≤ s.stats.totalTicks + s.system.longest) ∧
    (∀ t, s.system.timeSlice t = (Clocks.charged t s.system.expirations % 10 : Nat)) ∧
    (∀ later x earlier, s.system.expirations = later ++ x :: earlier →
      (x.yields = true ↔ Clocks.charged x.thread (x :: earlier) % 10 = 5)) ∧
    (s.level = .off → ∀ fuel, s.pending.length < fuel →
      ∃ returns s', Interrupt.idle d.withTimer fuel s = some (returns, s') ∧
        (returns = false ↔ s.pending.length = 1)) := by
  have h : Ticking s :=
    (hm.always (fun _ h => h) (fun s e s' h he hok => h.step hd hok he)
      (ticking_start hslice hexp h₀)).run hr
  have ho : s.Ordered :=
    History.run_keeps (fun s e s' ho he => Interrupt.step_ordered ho he)
      ((Interrupt.schedule_extends h₀).ordered (Interrupt.ordered_initial _)) hr
  refine ⟨h.timer, h.recorded.slices, h.recorded.yields, fun hl fuel hf => ?_⟩
  obtain ⟨⟨returns, s'⟩, hi⟩ :=
    Option.isSome_iff_exists.mp (Interrupt.idle_isSome hd.later ho hl hf)
  exact ⟨returns, s', hi, h.idle hi⟩

def slowDevice : Devices Unit Unit where
  delayedLoad := id
  call _ arg _ := ((), [⟨(), arg, 50, .diskInt⟩], false)

def newTimer : Clocks Unit := ⟨false, fun _ => 0, 1, fun _ => 0, [], ()⟩

def startedTimer : Interrupt (Option Unit) (Clocks Unit) :=
  { (Interrupt.initial newTimer : Interrupt (Option Unit) (Clocks Unit)) with
    pending := [(30, ⟨none, 0, 30, .timerInt⟩)] }

def busyTicks : List (Interrupt.Event (Option Unit) (Clocks Unit)) :=
  [.other { newTimer with currentThread := 2 }, .schedule ⟨some (), 0, 50, .diskInt⟩] ++
    List.replicate 18 (.oneTick 5)

theorem meets_oneTick (n fuel : Nat) (s : Interrupt (Option Unit) (Clocks Unit)) :
    History.Meets (Interrupt.step slowDevice.withTimer) Permitted s
      (List.replicate n (.oneTick fuel)) := by
  induction n generalizing s with
  | zero => trivial
  | succ n ih => exact fun s' _ => ⟨trivial, ih s'⟩

theorem timer_keeps_ticking_busy : ∃ s,
    newTimer.start Unit 0 = some startedTimer ∧
    History.run (Interrupt.step slowDevice.withTimer) startedTimer busyTicks = some s ∧
    (s.system.expirations.map fun x => (x.thread, x.yields)) =
      [(2, false), (2, true), (2, false), (2, false), (2, false), (2, false)] ∧
    s.system.timeSlice 2 = 6 ∧ s.timers.length = 1 := by
  have hd : slowDevice.Own := by
    intro h arg s r hr
    rw [List.mem_singleton.mp hr]
    exact ⟨by simp, by simp⟩
  have h₀ : newTimer.start Unit 0 = some startedTimer := rfl
  have hm : History.Meets (Interrupt.step slowDevice.withTimer) Permitted startedTimer busyTicks :=
    fun _ _ => ⟨⟨rfl, rfl, rfl⟩, fun s _ => ⟨⟨by simp, by simp⟩, meets_oneTick 18 5 s⟩⟩
  have hlog : (History.run (Interrupt.step slowDevice.withTimer) startedTimer busyTicks).map
      (fun s => s.system.expirations.map fun x => (x.thread, x.yields)) =
      some [(2, false), (2, true), (2, false), (2, false), (2, false), (2, false)] := by
    decide +kernel
  obtain ⟨s, hr, hexp⟩ := Option.map_eq_some_iff.mp hlog
  obtain ⟨⟨when, arg, htimer, -⟩, hslice, -⟩ := timer_keeps_ticking hd rfl rfl h₀ hm hr
  have hcount : Clocks.charged 2 s.system.expirations = 6 := by
    have h := congrArg (List.countP (·.1 = 2)) hexp
    rw [List.countP_map] at h
    exact h
  refine ⟨s, h₀, hr, hexp, ?_, by rw [htimer]; rfl⟩
  rw [hslice, hcount]
  rfl

end Nachos
