import Nachos.Machine.Interrupt

/-! Interrupts for the same time. `CheckIfDue` takes the first interrupt from the list and, if it is
not due, puts it back behind all others for its time. Interrupts keep the order in which they were
scheduled exactly as long as this makes no difference. -/

namespace Nachos
open Lib Threads

theorem cons_eq_concat_iff {α : Type} {x : α} {l : List α} :
    x :: l = l ++ [x] ↔ ∀ y ∈ l, y = x := by
  induction l with
  | nil => simp
  | cons z l ih =>
    rw [List.cons_append, List.cons.injEq, List.forall_mem_cons, ← ih]
    constructor
    · rintro ⟨rfl, h⟩
      exact ⟨rfl, h⟩
    · rintro ⟨rfl, h⟩
      exact ⟨rfl, h⟩

section
variable {α : Type} {item : α} {sortKey : Int} {l : List (Int × α)}

theorem filter_sortedInsert_self (item : α) (sortKey : Int) (h : l.Pairwise (·.1 ≤ ·.1)) :
    (sortedInsert item sortKey l).filter (fun x => x.1 = sortKey) =
      l.filter (fun x => x.1 = sortKey) ++ [(sortKey, item)] := by
  obtain ⟨before, after, rfl, hinsert, -, hafter⟩ := exists_sortedInsert_eq item sortKey h
  have hnone : after.filter (fun x => x.1 = sortKey) = [] := by
    rw [List.filter_eq_nil_iff]
    intro x hx
    simpa using (hafter x hx).ne'
  rw [hinsert, List.filter_append, List.filter_append, List.filter_cons_of_pos (by simp), hnone,
    List.append_nil]

theorem sortedInsert_eq_cons_iff (h : ((sortKey, item) :: l).Pairwise (·.1 ≤ ·.1)) :
    sortedInsert item sortKey l = (sortKey, item) :: l ↔ ∀ q ∈ l, q.1 = sortKey → q.2 = item := by
  obtain ⟨hle, hl⟩ := List.pairwise_cons.mp h
  obtain ⟨before, after, rfl, hinsert, hbefore, hafter⟩ := exists_sortedInsert_eq item sortKey hl
  have hkeys : ∀ q ∈ before, q.1 = sortKey := fun q hq =>
    le_antisymm (hbefore q hq) (hle q (List.mem_append_left _ hq))
  have hcancel : before ++ (sortKey, item) :: after = (sortKey, item) :: (before ++ after) ↔
      (sortKey, item) :: before = before ++ [(sortKey, item)] := by
    rw [← List.cons_append, List.append_cons, List.append_left_inj, eq_comm]
  rw [hinsert, hcancel, cons_eq_concat_iff]
  constructor
  · intro heq q hq hqk
    rcases List.mem_append.mp hq with hq | hq
    · rw [heq q hq]
    · exact absurd hqk (hafter q hq).ne'
  · intro heq q hq
    exact Prod.ext (hkeys q hq) (heq q (List.mem_append_left _ hq) (hkeys q hq))

end

namespace Interrupt
variable {H ω : Type} {d : Handlers H ω} {s s' : Interrupt H ω}

/-! ## What was scheduled and what has fired -/

inductive Entry (H : Type) where
  | scheduled (p : PendingInterrupt H)
  | fired (p : PendingInterrupt H)

def scheduledAt (t : Int) (log : List (Entry H)) : List (PendingInterrupt H) :=
  log.filterMap fun
    | .scheduled p => if p.when = t then some p else none
    | .fired _ => none

def firedAt (t : Int) (log : List (Entry H)) : List (PendingInterrupt H) :=
  log.filterMap fun
    | .fired p => if p.when = t then some p else none
    | .scheduled _ => none

def pendingAt (t : Int) (s : Interrupt H ω) : List (PendingInterrupt H) :=
  (s.pending.filter fun x => x.1 = t).map Prod.snd

def pendingOf (now : Int) (r : Request H) : PendingInterrupt H :=
  ⟨r.handler, r.arg, now + r.fromNow, r.type⟩

def requests (d : Handlers H ω) (s : Interrupt H ω) (p : PendingInterrupt H) : List (Request H) :=
  (d.call p.handler p.arg
    { s with system := d.delayedLoad s.system, inHandler := true, status := .systemMode }).2.1

def firing (d : Handlers H ω) (s : Interrupt H ω) : List (Entry H) :=
  match s.pending with
  | [] => []
  | (when, p) :: rest =>
    let stats := if s.stats.totalTicks < when then s.stats.idleUntil when else s.stats
    .fired p :: (requests d { s with stats := stats, pending := rest } p).map fun r =>
      .scheduled (pendingOf stats.totalTicks r)

/-- The simulation, with all that was scheduled and fired so far. -/
structure Traced (H ω : Type) where
  log : List (Entry H)
  state : Interrupt H ω

/-- The calls of which the work of the simulation consists: `Schedule`, `CheckIfDue`, a step of
the clock, and what does not concern time or the list. -/
inductive Call (H ω : Type) where
  | schedule (r : Request H)
  | checkIfDue (advanceClock : Bool)
  | tick
  | resume (level : IntStatus) (yieldOnReturn : Bool) (status : MachineStatus) (system : ω)

def callStep (d : Handlers H ω) (x : Traced H ω) : Call H ω → Option (Traced H ω)
  | .schedule r => (x.state.schedule r).map fun s =>
      ⟨x.log ++ [.scheduled (pendingOf x.state.stats.totalTicks r)], s⟩
  | .checkIfDue advanceClock => (checkIfDue d advanceClock x.state).map fun (fired, s) =>
      ⟨x.log ++ if fired.isSome then firing d x.state else [], s⟩
  | .tick => some ⟨x.log, x.state.tick⟩
  | .resume level yieldOnReturn status system =>
    some ⟨x.log, { x.state with
      level := level, yieldOnReturn := yieldOnReturn, status := status, system := system }⟩

def Traced.initial (system : ω) : Traced H ω := ⟨[], .initial system⟩

/-- For each time, those that have fired are the first that were scheduled, and those that are
pending are the others, in the same order. -/
def Traced.InOrder (x : Traced H ω) : Prop :=
  ∀ t, firedAt t x.log ++ pendingAt t x.state = scheduledAt t x.log

structure Traced.Sound (x : Traced H ω) : Prop where
  ordered : x.state.Ordered
  inOrder : x.InOrder

/-- All interrupts that are pending for the time of the first one are the same as it. -/
def Untied (s : Interrupt H ω) : Prop :=
  ∀ when p rest, s.pending = (when, p) :: rest → ∀ q ∈ rest, q.1 = when → q.2 = p

/-- If the list is checked while nothing is due, the first interrupt is untied. -/
def Traced.ChecksUntied (x : Traced H ω) (c : Call H ω) : Prop :=
  c = .checkIfDue false → x.state.due = [] → x.state.Untied

/-! ## One call -/

/-- From one state to the other, the interrupts of each time are treated as in a queue. -/
def Serves (s : Interrupt H ω) (log : List (Entry H)) (s' : Interrupt H ω) : Prop :=
  ∀ t, pendingAt t s ++ scheduledAt t log = firedAt t log ++ pendingAt t s'

theorem serves_of_pending (h : s'.pending = s.pending) : s.Serves [] s' := by
  intro t
  rw [pendingAt, pendingAt, h]
  exact List.append_nil _

theorem scheduledAt_append (t : Int) (l l' : List (Entry H)) :
    scheduledAt t (l ++ l') = scheduledAt t l ++ scheduledAt t l' := List.filterMap_append

theorem firedAt_append (t : Int) (l l' : List (Entry H)) :
    firedAt t (l ++ l') = firedAt t l ++ firedAt t l' := List.filterMap_append

theorem Serves.trans {l l' : List (Entry H)} {s₁ : Interrupt H ω} (h : s.Serves l s₁)
    (h' : s₁.Serves l' s') : s.Serves (l ++ l') s' := by
  intro t
  rw [scheduledAt_append, firedAt_append, ← List.append_assoc, h t, List.append_assoc, h' t,
    List.append_assoc]

theorem Serves.inOrder {x : Traced H ω} {l : List (Entry H)} (h : x.state.Serves l s')
    (hx : x.InOrder) : Traced.InOrder ⟨x.log ++ l, s'⟩ := by
  intro t
  change firedAt t (x.log ++ l) ++ pendingAt t s' = scheduledAt t (x.log ++ l)
  rw [scheduledAt_append, firedAt_append, ← hx t, List.append_assoc, ← h t, List.append_assoc]

theorem schedule_serves {r : Request H} (ho : s.Ordered) (h : s.schedule r = some s') :
    s.Serves [.scheduled (pendingOf s.stats.totalTicks r)] s' := by
  rw [schedule] at h
  split at h
  · cases h
    intro t
    by_cases ht : s.stats.totalTicks + r.fromNow = t
    · subst ht
      simp only [pendingAt, filter_sortedInsert_self _ _ ho.sorted, List.map_append]
      simp [scheduledAt, firedAt, pendingOf]
    · have hout : decide ((s.stats.totalTicks + r.fromNow,
          pendingOf s.stats.totalTicks r).1 = t) = false := by simpa using ht
      have hfilter := @filter_sortedInsert _ (pendingOf s.stats.totalTicks r)
        (s.stats.totalTicks + r.fromNow) s.pending (fun x => x.1 = t) hout
      simp only [pendingAt]
      rw [← hfilter]
      simp [scheduledAt, firedAt, pendingOf, ht]
  · cases h

theorem foldlM_schedule_serves {rs : List (Request H)} (ho : s.Ordered)
    (h : rs.foldlM schedule s = some s') :
    s.Serves (rs.map fun r => .scheduled (pendingOf s.stats.totalTicks r)) s' := by
  induction rs generalizing s with
  | nil =>
    cases h
    exact serves_of_pending rfl
  | cons r rs ih =>
    rw [List.foldlM_cons] at h
    obtain ⟨s₁, h₁, h⟩ := Option.bind_eq_some_iff.mp h
    have hext := schedule_extends h₁
    have hrest := ih (hext.ordered ho) h
    rw [hext.stats] at hrest
    exact (schedule_serves ho h₁).trans hrest

theorem fire_serves {p : PendingInterrupt H} (ho : s.Ordered) (h : fire d s p = some s') :
    s.Serves ((requests d s p).map fun r => .scheduled (pendingOf s.stats.totalTicks r)) s' := by
  obtain ⟨s₁, h₁, rfl⟩ := Option.map_eq_some_iff.mp h
  have hserves := fun ho => foldlM_schedule_serves ho h₁
  exact hserves (ho.congr rfl rfl)

theorem serves_take {when : Int} {p : PendingInterrupt H} {rest : List (Int × PendingInterrupt H)}
    (hp : s.pending = (when, p) :: rest) (hw : when = p.when) (stats : Statistics) :
    s.Serves [.fired p] { s with stats := stats, pending := rest } := by
  subst hw
  intro t
  by_cases ht : p.when = t
  · simp [pendingAt, hp, scheduledAt, firedAt, ht]
  · simp [pendingAt, hp, scheduledAt, firedAt, ht]

theorem Ordered.sortedInsert_iff {when : Int} {p : PendingInterrupt H}
    {rest : List (Int × PendingInterrupt H)} (ho : s.Ordered) (hp : s.pending = (when, p) :: rest) :
    sortedInsert p when rest = s.pending ↔ s.Untied := by
  have hsorted := ho.sorted
  rw [hp] at hsorted ⊢
  rw [sortedInsert_eq_cons_iff hsorted]
  constructor
  · intro h when' p' rest' hp'
    cases hp.symm.trans hp'
    exact h
  · intro h
    exact h when p rest hp

theorem checkIfDue_serves {advanceClock : Bool} {fired : Option (PendingInterrupt H)}
    (ho : s.Ordered) (h : checkIfDue d advanceClock s = some (fired, s'))
    (hu : advanceClock = false → s.due = [] → s.Untied) :
    s.Serves (if fired.isSome then firing d s else []) s' := by
  obtain ⟨-, rfl, rfl⟩ | ⟨when, p, rest, hp, ⟨hlt, hadv, rfl, rfl⟩ | ⟨stats, hstats, hend⟩⟩ :=
    checkIfDue_cases h
  · exact serves_of_pending rfl
  · have huntied := hu hadv (ho.due_eq_nil hp hlt)
    exact serves_of_pending ((ho.sortedInsert_iff hp).mpr huntied)
  · obtain ⟨hrest, hw, -⟩ := ho.tail hp
    obtain ⟨-, rfl, rfl, rfl⟩ | ⟨rfl, hfire⟩ := hend
    · exact serves_of_pending hp.symm
    · have hst : (if s.stats.totalTicks < when then s.stats.idleUntil when else s.stats) =
          stats := by
        obtain ⟨rfl, hle⟩ | ⟨rfl, hlt, -⟩ := hstats
        · exact if_neg (not_lt.mpr hle)
        · exact if_pos hlt
      have hbalanced : stats.Balanced := by
        obtain ⟨rfl, -⟩ | ⟨rfl, -⟩ := hstats
        · exact ho.balanced
        · exact ho.balanced.idleUntil _
      have htake := serves_take hp hw stats
      have hordered : Ordered { s with stats := stats, pending := rest } :=
        ⟨hrest.sorted, hrest.keys, hbalanced⟩
      have hserves := fire_serves hordered hfire
      simp only [Option.isSome_some, if_true, firing, hp, hst]
      exact htake.trans hserves

/-- The list is as before if and only if the first interrupt is untied. -/
theorem checkIfDue_unchanged_iff (ho : s.Ordered) (hl : s.level = .off) (hdue : s.due = []) :
    checkIfDue d false s = some (none, s) ↔ s.Untied := by
  rw [checkIfDue, if_neg (by simp [hl])]
  cases hp : s.pending with
  | nil =>
    refine iff_of_true rfl ?_
    intro when p rest hp'
    cases hp.symm.trans hp'
  | cons x rest =>
    obtain ⟨when, p⟩ := x
    have hlate : s.stats.totalTicks < when := by
      by_contra hle
      obtain ⟨-, rfl, -⟩ := ho.tail hp
      rw [due_eq_cons hp (not_lt.mp hle)] at hdue
      cases hdue
    rw [← ho.sortedInsert_iff hp]
    simp only [hlate, true_and, if_true, Option.some.injEq, Prod.mk.injEq]
    constructor
    · intro h
      exact congrArg Interrupt.pending h
    · intro h
      rw [h]

theorem callStep_ordered {x x' : Traced H ω} {c : Call H ω} (ho : x.state.Ordered)
    (h : callStep d x c = some x') : x'.state.Ordered := by
  cases c with
  | schedule r =>
    obtain ⟨s, hs, rfl⟩ := Option.map_eq_some_iff.mp h
    exact (schedule_extends hs).ordered ho
  | checkIfDue advanceClock =>
    obtain ⟨⟨fired, s⟩, hs, rfl⟩ := Option.map_eq_some_iff.mp h
    exact (checkIfDue_ordered ho hs).1
  | tick =>
    cases h
    exact ho.tick
  | resume level yieldOnReturn status system =>
    cases h
    exact ho.congr rfl rfl

theorem callStep_sound {x x' : Traced H ω} {c : Call H ω} (hx : x.Sound)
    (h : callStep d x c = some x') (hu : x.ChecksUntied c) : x'.Sound := by
  obtain ⟨ho, hx⟩ := hx
  refine ⟨callStep_ordered ho h, ?_⟩
  cases c with
  | schedule r =>
    obtain ⟨s, hs, rfl⟩ := Option.map_eq_some_iff.mp h
    exact (schedule_serves ho hs).inOrder hx
  | checkIfDue advanceClock =>
    obtain ⟨⟨fired, s⟩, hs, rfl⟩ := Option.map_eq_some_iff.mp h
    refine (checkIfDue_serves ho hs fun hadv => hu ?_).inOrder hx
    rw [hadv]
  | tick =>
    cases h
    exact hx
  | resume level yieldOnReturn status system =>
    cases h
    exact hx

theorem not_inOrder_of_tied {x x' : Traced H ω} {c : Call H ω} (hx : x.Sound)
    (h : callStep d x c = some x') (hu : ¬ x.ChecksUntied c) : ¬ x'.InOrder := by
  obtain ⟨ho, hx⟩ := hx
  obtain ⟨hc, hrest⟩ := Classical.not_imp.mp hu
  obtain ⟨hdue, htied⟩ := Classical.not_imp.mp hrest
  subst hc
  obtain ⟨⟨fired, s⟩, hs, rfl⟩ := Option.map_eq_some_iff.mp h
  intro hx'
  apply htied
  intro when p rest hp
  obtain ⟨hnil, -⟩ | ⟨when', p', rest', hp', ⟨-, -, rfl, rfl⟩ | ⟨stats, hstats, -⟩⟩ :=
    checkIfDue_cases hs
  · cases hnil.symm.trans hp
  · cases hp'.symm.trans hp
    obtain ⟨hsorted, -, -⟩ := ho.tail hp
    -- nothing was scheduled or fired, so that the same should be pending for this time
    have hsame : pendingAt when { x.state with pending := sortedInsert p when rest } =
        pendingAt when x.state := by
      have hlog := hx' when
      simp only [Option.isSome_none, Bool.false_eq_true, if_false, List.append_nil] at hlog
      exact List.append_cancel_left (hlog.trans (hx when).symm)
    simp only [pendingAt, filter_sortedInsert_self _ _ hsorted.sorted, hp, List.map_append,
      List.filter_cons_of_pos, decide_true, List.map_cons, List.map_nil] at hsame
    have hequal := cons_eq_concat_iff.mp hsame.symm
    intro q hq hqw
    exact hequal q.2 (List.mem_map_of_mem (List.mem_filter.mpr ⟨hq, by simpa using hqw⟩))
  · obtain ⟨-, hw, -⟩ := ho.tail hp'
    obtain ⟨-, hle⟩ | ⟨-, -, hadv⟩ := hstats
    · rw [due_eq_cons hp' (hw ▸ hle)] at hdue
      cases hdue
    · cases hadv

/-! ## Runs -/

def Leads (d : Handlers H ω) (s s' : Interrupt H ω) : Prop :=
  ∀ log, ∃ calls log', History.run (callStep d) ⟨log, s⟩ calls = some ⟨log', s'⟩

theorem Leads.refl (s : Interrupt H ω) : Leads d s s := fun log => ⟨[], log, rfl⟩

theorem Leads.trans {s₁ : Interrupt H ω} (h : Leads d s s₁) (h' : Leads d s₁ s') :
    Leads d s s' := by
  intro log
  obtain ⟨calls, log₁, hcalls⟩ := h log
  obtain ⟨calls', log₂, hcalls'⟩ := h' log₁
  refine ⟨calls ++ calls', log₂, ?_⟩
  rw [History.run_append, hcalls, Option.bind_some, hcalls']

theorem leads_tick (s : Interrupt H ω) : Leads d s s.tick := fun log => ⟨[.tick], log, rfl⟩

theorem leads_resume (s : Interrupt H ω) (level : IntStatus) (yieldOnReturn : Bool)
    (status : MachineStatus) (system : ω) :
    Leads d s { s with
      level := level, yieldOnReturn := yieldOnReturn, status := status, system := system } :=
  fun log => ⟨[.resume level yieldOnReturn status system], log, rfl⟩

theorem leads_schedule {r : Request H} (h : s.schedule r = some s') : Leads d s s' := by
  intro log
  refine ⟨[.schedule r], log ++ [.scheduled (pendingOf s.stats.totalTicks r)], ?_⟩
  rw [History.run, callStep, h]
  rfl

theorem leads_checkIfDue {advanceClock : Bool} {fired : Option (PendingInterrupt H)}
    (h : checkIfDue d advanceClock s = some (fired, s')) : Leads d s s' := by
  intro log
  refine ⟨[.checkIfDue advanceClock], log ++ if fired.isSome then firing d s else [], ?_⟩
  rw [History.run, callStep, h]
  rfl

theorem leads_whileDue {fuel : Nat} {fired : List (PendingInterrupt H)}
    (h : whileDue d fuel s = some (fired, s')) : Leads d s s' := by
  induction fuel generalizing s fired with
  | zero => cases h
  | succ fuel ih =>
    rw [whileDue] at h
    split at h
    · cases h
    · next s₁ h₁ =>
      cases h
      exact leads_checkIfDue h₁
    · next p s₁ h₁ =>
      obtain ⟨⟨ps, s₂⟩, h₂, he⟩ := Option.map_eq_some_iff.mp h
      cases he
      exact (leads_checkIfDue h₁).trans (ih h₂)

theorem leads_oneTick {fuel : Nat} (h : oneTick d fuel s = some s') : Leads d s s' := by
  obtain ⟨⟨fired, s₁⟩, h₁, he⟩ := Option.map_eq_some_iff.mp h
  have hloop := (leads_tick s).trans (leads_whileDue h₁)
  simp only at he
  split at he
  · cases he
    exact hloop.trans (leads_resume s₁ .on false .systemMode s₁.system)
  · cases he
    exact hloop.trans (leads_resume s₁ .on s₁.yieldOnReturn s₁.status s₁.system)

theorem leads_idle {fuel : Nat} {returns : Bool} (h : idle d fuel s = some (returns, s')) :
    Leads d s s' := by
  have hidle : Leads d s { s with status := .idleMode } :=
    leads_resume s s.level s.yieldOnReturn .idleMode s.system
  rw [idle] at h
  split at h
  · cases h
  · next s₁ h₁ =>
    cases h
    exact hidle.trans (leads_checkIfDue h₁)
  · next p s₁ h₁ =>
    obtain ⟨⟨fired, s₂⟩, h₂, he⟩ := Option.map_eq_some_iff.mp h
    cases he
    exact ((hidle.trans (leads_checkIfDue h₁)).trans (leads_whileDue h₂)).trans
      (leads_resume s₂ s₂.level false .systemMode s₂.system)

/-- Whatever the kernel does with the simulation consists of calls. -/
theorem leads_step {e : Event H ω} (h : step d s e = some s') : Leads d s s' := by
  cases e with
  | schedule r => exact leads_schedule h
  | setLevel fuel now =>
    have hlevel := leads_resume (d := d) s now s.yieldOnReturn s.status s.system
    rw [step, setLevel] at h
    split at h
    · cases h
    split at h
    · exact hlevel.trans (leads_oneTick h)
    · cases h
      exact hlevel
  | oneTick fuel => exact leads_oneTick h
  | idle fuel =>
    obtain ⟨⟨returns, s₁⟩, h₁, he⟩ := Option.bind_eq_some_iff.mp h
    simp only at he
    split at he
    · cases he
      exact leads_idle h₁
    · cases he
  | changeLevel now =>
    cases h
    exact leads_resume s now s.yieldOnReturn s.status s.system
  | setStatus status =>
    cases h
    exact leads_resume s s.level s.yieldOnReturn status s.system
  | other system =>
    cases h
    exact leads_resume s s.level s.yieldOnReturn s.status system

theorem leads_run {events : List (Event H ω)} (h : History.run (step d) s events = some s') :
    Leads d s s' := by
  induction events generalizing s with
  | nil =>
    cases h
    exact .refl _
  | cons e events ih =>
    obtain ⟨s₁, h₁, h⟩ := Option.bind_eq_some_iff.mp h
    exact (leads_step h₁).trans (ih h)

/-- The interrupts of each time fire in the order in which they were scheduled, all along a run of
the simulation, if and only if every check while nothing is due finds the first interrupt untied.
Such a check leaves the list as it is if and only if this is so. The runs are made of single calls,
of which all that the kernel does consists. -/
theorem simultaneous_inOrder_iff (d : Handlers H ω) :
    (∀ (system : ω) (calls : List (Call H ω)),
      History.Always (callStep d) Traced.InOrder (.initial system) calls ↔
        History.Meets (callStep d) Traced.ChecksUntied (.initial system) calls) ∧
    (∀ s : Interrupt H ω, s.Ordered → s.level = .off → s.due = [] →
      (checkIfDue d false s = some (none, s) ↔ s.Untied)) ∧
    ∀ (system : ω) (events : List (Event H ω)) s,
      History.run (step d) (initial system) events = some s →
        ∃ calls log, History.run (callStep d) (.initial system) calls = some ⟨log, s⟩ := by
  refine ⟨fun system calls => ?_, fun s ho hl hdue => checkIfDue_unchanged_iff ho hl hdue,
    fun system events s h => leads_run h []⟩
  have hinit : (Traced.initial system : Traced H ω).Sound :=
    ⟨ordered_initial system, fun t => rfl⟩
  exact History.always_iff_meets (fun x hx => hx.inOrder) (fun x c x' => callStep_sound)
    (fun x c x' => not_inOrder_of_tied) hinit

/-- Two interrupts for the times 20 and 30, and a check at time 10. -/
theorem simultaneous_inOrder_untied :
    History.Always (callStep again) Traced.InOrder (.initial ())
      [.schedule ⟨(), 1, 20, .diskInt⟩, .schedule ⟨(), 2, 30, .diskInt⟩, .tick,
        .checkIfDue false] := by
  rw [(simultaneous_inOrder_iff again).1]
  rintro x₁ ⟨⟩
  refine ⟨(fun h => by cases h), ?_⟩
  rintro x₂ ⟨⟩
  refine ⟨(fun h => by cases h), ?_⟩
  rintro x₃ ⟨⟩
  refine ⟨(fun h => by cases h), ?_⟩
  rintro x₄ -
  refine ⟨fun _ _ => ?_, trivial⟩
  intro when p rest hp q hq hqw
  cases hp
  cases List.mem_singleton.mp hq
  cases hqw

/-- Two interrupts are scheduled for time 20. The check at time 10 turns them over, and the second
one fires before the first one. -/
theorem simultaneous_turned_over :
    ∃ x, History.run (callStep again) (.initial ())
        [.schedule ⟨(), 1, 20, .diskInt⟩, .schedule ⟨(), 2, 20, .diskInt⟩, .tick,
          .checkIfDue false, .tick, .checkIfDue false, .checkIfDue false] = some x ∧
      scheduledAt 20 x.log = [⟨(), 1, 20, .diskInt⟩, ⟨(), 2, 20, .diskInt⟩] ∧
      firedAt 20 x.log = [⟨(), 2, 20, .diskInt⟩, ⟨(), 1, 20, .diskInt⟩] ∧ ¬ x.InOrder := by
  refine ⟨_, rfl, rfl, rfl, fun h => ?_⟩
  cases h 20

end Interrupt
end Nachos
