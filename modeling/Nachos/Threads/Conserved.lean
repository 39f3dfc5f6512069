import Nachos.Threads.Action
import Mathlib.Data.List.Count

/-! No thread is lost or doubled: until it finishes, a thread that was started has the CPU, or
is once on the ready list, or is once on the queue of one semaphore or condition. -/

namespace Nachos.Threads
open Lib Relation

inductive Place where
  | cpu
  | readyList
  | semaphore (s : SemId)
  | condition (c : CondId)
  deriving DecidableEq

def Place.status : Place → ThreadStatus
  | .cpu => .running
  | .readyList => .ready
  | .semaphore _ | .condition _ => .blocked

namespace Sched

def who (k : Sched) : Place → List Thread
  | .cpu => if k.status k.currentThread = .running then [k.currentThread] else []
  | .readyList => k.readyList
  | .semaphore s => (k.semaphore s).queue
  | .condition c => k.queue c

/-- The main thread and the forked threads, until they finish. -/
def Live (k : Sched) (t : Thread) : Prop :=
  (t = 0 ∨ .forked t ∈ k.trace) ∧ .finished t ∉ k.trace

def Sits (k : Sched) (t : Thread) (p : Place) : Prop :=
  k.status t = p.status ∧ (k.who p).count t = 1 ∧ ∀ q ≠ p, (k.who q).count t = 0

end Sched

/-- `place` says where every thread is, and that is the only place where it is. -/
structure Placed (k : Sched) (place : Thread → Option Place) : Prop where
  count : ∀ t p, (k.who p).count t = if place t = some p then 1 else 0
  status : ∀ t p, place t = some p → k.status t = p.status
  live : ∀ t, place t ≠ none ↔ k.Live t
  created : ∀ t, k.status t = .justCreated ↔ t ≠ 0 ∧ .forked t ∉ k.trace
  finished : ∀ t, .finished t ∈ k.trace → t = 0 ∨ .forked t ∈ k.trace
  awake : k.asleep = false → place k.currentThread = some .cpu
  asleep : k.asleep = true → ∀ t, place t ≠ some .cpu

namespace Placed
variable {k k' : Sched} {place : Thread → Option Place} {t : Thread} {s : SemId} {c : CondId}
  {p p' : Place}

theorem of_mem (h : Placed k place) (ht : t ∈ k.who p) : place t = some p := by
  by_contra hne
  have hc := h.count t p
  rw [if_neg hne] at hc
  exact List.count_eq_zero.mp hc ht

theorem sits (h : Placed k place) (ht : k.Live t) : ∃ p, k.Sits t p := by
  obtain ⟨p, hp⟩ := Option.ne_none_iff_exists'.mp ((h.live t).mpr ht)
  refine ⟨p, h.status t p hp, by rw [h.count, if_pos hp], fun q hq => ?_⟩
  rw [h.count, hp, if_neg (by simpa using hq.symm)]

theorem congr (h : Placed k place) (hwho : k'.who = k.who) (hst : k'.status = k.status)
    (hforked : ∀ u, .forked u ∈ k'.trace ↔ .forked u ∈ k.trace)
    (hfin : ∀ u, .finished u ∈ k'.trace ↔ .finished u ∈ k.trace) (has : k'.asleep = k.asleep)
    (hcur : k'.currentThread = k.currentThread) : Placed k' place where
  count t p := by rw [hwho, h.count]
  status t p ht := by rw [hst, h.status t p ht]
  live t := by rw [h.live, Sched.Live, Sched.Live, hforked, hfin]
  created t := by rw [hst, h.created, hforked]
  finished t := by
    rw [hfin, hforked]
    exact h.finished t
  awake ha := by rw [hcur, h.awake (has ▸ ha)]
  asleep ha := h.asleep (has ▸ ha)

theorem move (h : Placed k place) (p' : Place) (ht : place t = some p) (hp : p ≠ p')
    (hwho : ∀ q, k'.who q =
      if q = p' then k.who q ++ [t] else if q = p then (k.who q).erase t else k.who q)
    (hst : k'.status = Function.update k.status t p'.status)
    (hforked : ∀ u, .forked u ∈ k'.trace ↔ .forked u ∈ k.trace)
    (hfin : ∀ u, .finished u ∈ k'.trace ↔ .finished u ∈ k.trace)
    (hawake : k'.asleep = false → Function.update place t (some p') k'.currentThread = some .cpu)
    (hasleep : k'.asleep = true → ∀ u, Function.update place t (some p') u ≠ some .cpu) :
    Placed k' (Function.update place t (some p')) where
  count u q := by
    rw [hwho]
    by_cases hut : u = t
    · subst hut
      have hq := h.count u q
      rw [ht] at hq
      simp only [Function.update_self, Option.some.injEq] at hq ⊢
      split
      · next he =>
        subst he
        rw [List.count_append, hq, if_neg hp, List.count_singleton_self, if_pos rfl]
      · next he =>
        rw [if_neg (Ne.symm he)]
        split
        · next he' =>
          rw [List.count_erase_self, hq, if_pos he'.symm]
        · next he' => rw [hq, if_neg (Ne.symm he')]
    · rw [Function.update_of_ne hut, ← h.count]
      split
      · rw [List.count_append, List.count_singleton, if_neg (by simpa using Ne.symm hut),
          Nat.add_zero]
      · split
        · rw [List.count_erase_of_ne hut]
        · rfl
  status u q hu := by
    rw [hst]
    by_cases hut : u = t
    · subst hut
      rw [Function.update_self, Option.some.injEq] at hu
      rw [Function.update_self, hu]
    · rw [Function.update_of_ne hut] at hu ⊢
      exact h.status u q hu
  live u := by
    rw [Sched.Live, hforked, hfin, ← Sched.Live, ← h.live]
    by_cases hut : u = t
    · subst hut
      simp [ht]
    · rw [Function.update_of_ne hut]
  created u := by
    rw [hforked, ← h.created, hst]
    by_cases hut : u = t
    · subst hut
      rw [Function.update_self, h.status u p ht]
      cases p <;> cases p' <;> simp [Place.status]
    · rw [Function.update_of_ne hut]
  finished u := by
    rw [hfin, hforked]
    exact h.finished u
  awake := hawake
  asleep := hasleep

theorem only_current (h : Placed k place) (ht : place t = some .cpu) : t = k.currentThread := by
  have hc := h.count t .cpu
  rw [if_pos ht] at hc
  have hm : t ∈ k.who .cpu := List.count_pos_iff.mp (by omega)
  rw [Sched.who] at hm
  split at hm
  · exact List.mem_singleton.mp hm
  · cases hm

theorem left_cpu (h : Placed k place) (hp : p' ≠ .cpu) (u : Thread) :
    Function.update place k.currentThread (some p') u ≠ some .cpu := by
  by_cases hu : u = k.currentThread
  · rw [hu, Function.update_self]
    simpa using hp
  · rw [Function.update_of_ne hu]
    exact fun hc => hu (h.only_current hc)

theorem who_cpu (h : Placed k place) (ha : k.asleep = false) : k.who .cpu = [k.currentThread] := by
  exact if_pos (h.status _ _ (h.awake ha))

/-! ## The actions -/

theorem note (h : Placed k place) {e : Event} (he : e.external = true) :
    Placed (k.note e) place := by
  refine h.congr rfl rfl (fun u => ?_) (fun u => ?_) rfl rfl
  all_goals cases e <;> simp_all [Event.external]

theorem who_setValue (v : Int) (e : Event) :
    ((k.setSemaphore s ⟨v, (k.semaphore s).queue⟩).note e).who = k.who := by
  funext q
  cases q with
  | semaphore s' =>
    by_cases hs : s' = s
    · subst hs
      simp [Sched.who]
    · simp [Sched.who, hs]
  | cpu | readyList | condition c => rfl

theorem down (h : Placed k place) : Placed (k.down s) place :=
  h.congr (who_setValue ..) rfl (by simp [Sched.down]) (by simp [Sched.down]) rfl rfl

theorem park (h : Placed k place) (ha : k.asleep = false) :
    Placed (k.park s) (Function.update place k.currentThread (some (.semaphore s))) := by
  refine h.move (.semaphore s) (h.awake ha) (by simp) (fun q => ?_) rfl (by simp [Sched.park])
    (by simp [Sched.park]) Bool.noConfusion
    fun _ => h.left_cpu Place.noConfusion
  cases q with
  | semaphore s' =>
    by_cases hs : s' = s
    · subst hs
      simp [Sched.who, Sched.park]
    · simp [Sched.who, Sched.park, hs]
  | cpu =>
    rw [h.who_cpu ha]
    simp [Sched.who, Sched.park]
  | readyList | condition c => rfl

theorem wait (h : Placed k place) (ha : k.asleep = false) :
    Placed (k.wait c) (Function.update place k.currentThread (some (.condition c))) := by
  refine h.move (.condition c) (h.awake ha) (by simp) (fun q => ?_) rfl (by simp [Sched.wait])
    (by simp [Sched.wait]) Bool.noConfusion
    fun _ => h.left_cpu Place.noConfusion
  cases q with
  | condition c' =>
    by_cases hc : c' = c
    · subst hc
      simp [Sched.who, Sched.wait]
    · simp [Sched.who, Sched.wait, hc]
  | cpu =>
    rw [h.who_cpu ha]
    simp [Sched.who, Sched.wait]
  | readyList | semaphore s => rfl

theorem who_cpu_readyToRun (h : Placed k place) (ht : place t = some p) (hp : p ≠ .cpu) :
    (k.readyToRun t).who .cpu = k.who .cpu := by
  by_cases htc : k.currentThread = t
  · have hst := h.status t p ht
    subst htc
    have : k.status k.currentThread ≠ .running := by
      rw [hst]
      cases p <;> simp_all [Place.status]
    simp [Sched.who, this]
  · simp [Sched.who, htc]

theorem wake_awake (h : Placed k place) (ht : place t = some p) (hp : p ≠ .cpu)
    (ha : k.asleep = false) :
    Function.update place t (some .readyList) k.currentThread = some .cpu := by
  have hc := h.awake ha
  rw [Function.update_of_ne, hc]
  rintro rfl
  rw [ht, Option.some.injEq] at hc
  exact hp hc

theorem wake_asleep (h : Placed k place) (ha : k.asleep = true) (u : Thread) :
    Function.update place t (some .readyList) u ≠ some .cpu := by
  by_cases hu : u = t
  · simp [hu]
  · rw [Function.update_of_ne hu]
    exact h.asleep ha u

theorem up (h : Placed k place) (who : Option Thread) : ∃ place', Placed (k.up s who) place' := by
  rw [Sched.up]
  split
  · next hq =>
    refine ⟨place, h.congr ?_ rfl (by simp) (by simp) rfl rfl⟩
    rw [← hq]
    exact who_setValue ..
  · next t rest hq =>
    have ht : place t = some (.semaphore s) := h.of_mem (by simp [Sched.who, hq])
    refine ⟨_, h.move .readyList ht (by simp) (fun q => ?_) rfl (by simp) (by simp)
      (h.wake_awake ht Place.noConfusion) h.wake_asleep⟩
    cases q with
    | semaphore s' =>
      by_cases hs : s' = s
      · subst hs
        simp [Sched.who, hq]
      · simp [Sched.who, hs]
    | cpu => exact h.who_cpu_readyToRun ht Place.noConfusion
    | readyList | condition c => rfl

theorem signal (h : Placed k place) : ∃ place', Placed (k.signal c) place' := by
  rw [Sched.signal]
  split
  · exact ⟨place, h⟩
  · next t rest hq =>
    have ht : place t = some (.condition c) := h.of_mem (by simp [Sched.who, hq])
    refine ⟨_, h.move .readyList ht (by simp) (fun q => ?_) rfl (by simp) (by simp)
      (h.wake_awake ht Place.noConfusion) h.wake_asleep⟩
    cases q with
    | condition c' =>
      by_cases hc : c' = c
      · subst hc
        simp [Sched.who, hq]
      · simp [Sched.who, hc]
    | cpu => exact h.who_cpu_readyToRun ht Place.noConfusion
    | readyList | semaphore s => rfl

theorem fork (h : Placed k place) (ht : k.status t = .justCreated) :
    Placed (k.fork t) (Function.update place t (some .readyList)) := by
  obtain ⟨ht0, htf⟩ := (h.created t).mp ht
  have hnf : Event.finished t ∉ k.trace := fun hf => (h.finished t hf).elim ht0 htf
  have hnone : place t = none := by
    by_contra hne
    exact ((h.live t).mp hne).1.elim ht0 htf
  have hwho : ∀ q, (k.fork t).who q = if q = .readyList then k.who q ++ [t] else k.who q :=
    fun q => by
    cases q with
    | cpu =>
      by_cases htc : k.currentThread = t
      · simp [Sched.who, Sched.fork, htc, ht]
      · simp [Sched.who, Sched.fork, htc]
    | readyList | condition c | semaphore s => rfl
  refine ⟨fun u q => ?_, fun u q hu => ?_, fun u => ?_, fun u => ?_, fun u => ?_, fun ha => ?_,
    h.wake_asleep⟩
  · have hc := h.count u q
    rw [hwho]
    by_cases hut : u = t
    · subst hut
      rw [hnone, if_neg (by simp)] at hc
      rw [Function.update_self]
      split
      · next he =>
        subst he
        simp [hc]
      · next he => simp [hc, Ne.symm he]
    · rw [Function.update_of_ne hut, ← hc]
      split <;> simp [Ne.symm hut]
  · by_cases hut : u = t
    · subst hut
      rw [Function.update_self, Option.some.injEq] at hu
      subst hu
      simp [Sched.fork, Place.status]
    · rw [Function.update_of_ne hut] at hu
      simpa [Sched.fork, hut] using h.status u q hu
  · by_cases hut : u = t
    · subst hut
      simp [Sched.Live, Sched.fork, hnf]
    · simpa [Sched.Live, Sched.fork, hut] using h.live u
  · by_cases hut : u = t
    · simp [hut, Sched.fork]
    · simpa [Sched.fork, hut] using h.created u
  · intro hf
    simp only [Sched.fork, Sched.note, Sched.readyToRun, List.mem_cons, reduceCtorEq,
      false_or] at hf ⊢
    exact (h.finished u hf).imp_right .inr
  · rw [Function.update_of_ne]
    · exact h.awake ha
    · intro he
      have := h.awake ha
      rw [show k.currentThread = t from he, hnone] at this
      cases this

theorem finish (h : Placed k place) (ha : k.asleep = false) :
    Placed k.finish (Function.update place k.currentThread none) := by
  have hcur := h.awake ha
  have hwho : ∀ q, k.finish.who q = (k.who q).erase k.currentThread := fun q => by
    by_cases hq : q = .cpu
    · subst hq
      rw [h.who_cpu ha]
      simp [Sched.who, Sched.finish]
    · have hc := h.count k.currentThread q
      rw [hcur, if_neg (by simpa using Ne.symm hq)] at hc
      rw [List.erase_of_not_mem (List.count_eq_zero.mp hc)]
      cases q with
      | cpu => exact absurd rfl hq
      | readyList | condition c | semaphore s => rfl
  refine ⟨fun u q => ?_, fun u q hu => ?_, fun u => ?_, fun u => ?_, fun u => ?_, Bool.noConfusion,
    fun _ u => ?_⟩
  · rw [hwho]
    have hc := h.count u q
    by_cases hut : u = k.currentThread
    · subst hut
      rw [hcur] at hc
      rw [List.count_erase_self, hc, Function.update_self]
      split <;> simp
    · rw [Function.update_of_ne hut, List.count_erase_of_ne hut, hc]
  · by_cases hut : u = k.currentThread
    · simp [hut] at hu
    · rw [Function.update_of_ne hut] at hu
      simpa [Sched.finish, hut] using h.status u q hu
  · by_cases hut : u = k.currentThread
    · simp [hut, Sched.Live, Sched.finish]
    · simpa [Sched.Live, Sched.finish, hut] using h.live u
  · by_cases hut : u = k.currentThread
    · have hr := h.status _ _ hcur
      have := (h.created u).not.mp (by rw [hut, hr]; simp [Place.status])
      simp only [Sched.finish, Sched.sleep, Sched.note, hut, Function.update_self,
        reduceCtorEq, false_iff]
      simpa [hut] using this
    · simpa [Sched.finish, hut] using h.created u
  · intro hf
    simp only [Sched.finish, Sched.note, Sched.sleep, List.mem_cons, Event.finished.injEq,
      reduceCtorEq,
      false_or] at hf ⊢
    rcases hf with rfl | hf
    · exact ((h.live _).mp (by simp [hcur])).1
    · exact h.finished u hf
  · by_cases hut : u = k.currentThread
    · simp [hut]
    · rw [Function.update_of_ne hut]
      exact fun hc => hut (h.only_current hc)

theorem dispatch (h : Placed k place) (ha : k.asleep = true) (hd : k.dispatch = some k') :
    ∃ place', Placed k' place' := by
  rw [Sched.dispatch] at hd
  split at hd
  · cases hd
  · next t rest hr =>
    cases hd
    have ht : place t = some .readyList := h.of_mem (by simp [Sched.who, hr])
    have hcpu : k.who .cpu = [] := by
      rw [Sched.who, if_neg]
      intro hrun
      have hc := h.count k.currentThread .cpu
      rw [if_neg (h.asleep ha _), Sched.who, if_pos hrun] at hc
      simp at hc
    refine ⟨_, h.move .cpu ht (by simp) (fun q => ?_) (by simp [Place.status]) (by simp)
      (by simp) ?_ Bool.noConfusion⟩
    · cases q with
      | cpu =>
        rw [hcpu]
        simp [Sched.who]
      | readyList => simp [Sched.who, hr]
      | semaphore s | condition c => simp [Sched.who]
    · simp

theorem dispatch_readyToRun {rest : List Thread} (ha : k.asleep = false)
    (hr : k.readyList = t :: rest) :
    ({ k.readyToRun k.currentThread with asleep := true } : Sched).dispatch = some k.yield := by
  simp only [Sched.dispatch, Sched.yield, Sched.readyToRun, Sched.run, hr, List.cons_append]
  by_cases hst : k.started t = true <;> simp [hst, ha]

theorem preempt (h : Placed k place) (ha : k.asleep = false) :
    Placed { k.readyToRun k.currentThread with asleep := true }
      (Function.update place k.currentThread (some .readyList)) := by
  refine h.move .readyList (h.awake ha) (by simp) (fun q => ?_) rfl (by simp) (by simp)
    Bool.noConfusion fun _ =>
    h.left_cpu Place.noConfusion
  cases q with
  | cpu =>
    rw [h.who_cpu ha]
    simp [Sched.who]
  | readyList | semaphore s | condition c => rfl

theorem yield (h : Placed k place) (ha : k.asleep = false) : ∃ place', Placed k.yield place' := by
  cases hr : k.readyList with
  | nil =>
    rw [Sched.yield, hr]
    exact ⟨place, h⟩
  | cons t rest => exact (h.preempt ha).dispatch rfl (dispatch_readyToRun ha hr)

theorem action (h : Placed k place) (ha : Action k k') : ∃ place', Placed k' place' := by
  cases ha with
  | note he => exact ⟨_, h.note he⟩
  | down ha hv => exact ⟨_, h.down⟩
  | park ha hv => exact ⟨_, h.park ha⟩
  | up s who => exact h.up who
  | wait c ha => exact ⟨_, h.wait ha⟩
  | signal c => exact h.signal
  | fork ht => exact ⟨_, h.fork ht⟩
  | yield ha => exact h.yield ha
  | finish ha => exact ⟨_, h.finish ha⟩
  | dispatch ha hd => exact h.dispatch ha hd

theorem initial (value : SemId → Int) :
    Placed (Machine.initial value).toSched fun t => if t = 0 then some .cpu else none := by
  refine ⟨fun t p => ?_, fun t p ht => ?_, fun t => ?_, fun t => ?_, by simp [Machine.initial],
    fun _ => rfl, Bool.noConfusion⟩
  · by_cases ht : t = 0
    · subst ht
      cases p <;> simp [Machine.initial, Sched.who]
    · cases p <;> simp [Machine.initial, Sched.who, ht, Ne.symm ht]
  · by_cases ht0 : t = 0
    · simp_all [Machine.initial, Place.status]
      subst ht
      rfl
    · simp [ht0] at ht
  · by_cases ht : t = 0 <;> simp [ht, Sched.Live, Machine.initial]
  · by_cases ht : t = 0 <;> simp [ht, Machine.initial]

end Placed

/-- The rule for invariants: where threads are may be used for every action. -/
theorem Reachable.invariant {I : Sched → Prop} {value : SemId → Int} {prog : Thread → Prog Unit}
    {c : Tasks ops Machine Unit Thread} (h : Reachable value prog c)
    (hinit : I (Machine.initial value).toSched)
    (hact : ∀ {k k' place}, I k → Placed k place → Action k k' → I k') : I c.state.toSched := by
  have hr : Actions (Machine.initial value).toSched c.state.toSched := run_actions h
  generalize c.state.toSched = k at hr ⊢
  have hboth : (∃ place, Placed k place) ∧ I k := by
    induction hr with
    | refl => exact ⟨⟨_, Placed.initial value⟩, hinit⟩
    | tail _ ha ih =>
      obtain ⟨⟨place, hp⟩, hI⟩ := ih
      exact ⟨hp.action ha, hact hI hp ha⟩
  exact hboth.2

theorem Reachable.placed {value : SemId → Int} {prog : Thread → Prog Unit}
    {c : Tasks ops Machine Unit Thread} (h : Reachable value prog c) :
    ∃ place, Placed c.state.toSched place :=
  h.invariant (I := fun k => ∃ place, Placed k place) ⟨_, Placed.initial value⟩ fun _ hp ha =>
    hp.action ha

/-- Whatever the threads do, each of them is in exactly one place until it finishes. -/
theorem sits_of_reachable {value : SemId → Int} {prog : Thread → Prog Unit}
    {c : Tasks ops Machine Unit Thread} (h : Reachable value prog c) {t : Thread}
    (ht : c.state.Live t) : ∃ p, c.state.Sits t p := by
  obtain ⟨place, hp⟩ := h.placed
  exact hp.sits ht

/-- The main thread has forked a thread, which waits for its turn. -/
theorem sits_of_fork :
    ∃ p, ((Machine.initial fun _ => 0).fork 1).Sits 1 p := by
  have h : Reachable (fun _ => 0) (fun _ => Program.perform (S := ops) (.fork 1))
      ⟨_, (Machine.initial fun _ => 0).setSched ((Machine.initial fun _ => 0).fork 1)⟩ :=
    Platform.run_of_replay [.act 0 ⟨[], false, 0⟩] rfl
  exact sits_of_reachable h ⟨.inr (by simp [Sched.fork]), by simp [Sched.fork, Machine.initial]⟩

end Nachos.Threads
