import Nachos.Threads.Blocked

/-! Destruction of finished threads. `Finish` only records its thread; the destructor is called
by the next thread that comes back from `SWITCH` in `Scheduler::Run`. A thread that runs for the
first time starts in `ThreadRoot` and does not come back there, so it can finish, and be
recorded, while the thread before it still waits for its destruction. -/

namespace Nachos.Threads
open Lib Relation

/-- The main thread, and the threads that were dispatched; the events are given latest first. -/
def HasRun (h : List Event) (t : Thread) : Prop := t = 0 ∨ .dispatch t ∈ h

/-- There was a `Finish`, and since then no thread was dispatched that had run before. -/
def Undestroyed : List Event → Prop
  | [] => False
  | .finished _ :: _ => True
  | .dispatch t :: h => ¬ HasRun h t ∧ Undestroyed h
  | _ :: h => Undestroyed h

/-- Between two calls of `Finish`, a thread is dispatched that had run before. -/
def Spaced : List Event → Prop
  | [] => True
  | .finished _ :: h => ¬ Undestroyed h ∧ Spaced h
  | _ :: h => Spaced h

namespace Sched

/-- Every thread that called `Finish` was destroyed or is recorded. -/
def Reclaimed (k : Sched) : Prop :=
  ∀ t, .finished t ∈ k.trace → t ∈ k.destroyed ∨ k.threadToBeDestroyed = some t

end Sched

def Event.ofLifecycle : Event → Bool
  | .finished _ | .dispatch _ => true
  | _ => false

section events
variable {es h : List Event} {t : Thread}

theorem undestroyed_append (he : ∀ e ∈ es, e.ofLifecycle = false) :
    Undestroyed (es ++ h) ↔ Undestroyed h := by
  induction es with
  | nil => rfl
  | cons e es ih =>
    obtain ⟨he, hes⟩ := List.forall_mem_cons.mp he
    rw [← ih hes]
    cases e <;> first | rfl | cases he

theorem spaced_append (he : ∀ e ∈ es, e.ofLifecycle = false) : Spaced (es ++ h) ↔ Spaced h := by
  induction es with
  | nil => rfl
  | cons e es ih =>
    obtain ⟨he, hes⟩ := List.forall_mem_cons.mp he
    rw [← ih hes]
    cases e <;> first | rfl | cases he

theorem mem_append_of_ofLifecycle {e : Event} (he : ∀ e ∈ es, e.ofLifecycle = false)
    (hl : e.ofLifecycle = true) : e ∈ es ++ h ↔ e ∈ h := by
  refine List.mem_append.trans (or_iff_right fun hm => ?_)
  rw [he e hm] at hl
  cases hl

end events

theorem Sched.reclaimed_iff_mem {k : Sched} : k.Reclaimed ↔
    ∀ t, .finished t ∈ k.trace → t ∈ k.threadToBeDestroyed.toList ++ k.destroyed := by
  simp only [Reclaimed, List.mem_append, Option.mem_toList]
  exact forall_congr' fun t => imp_congr_right fun _ => or_comm

structure Reclaims (k : Sched) : Prop where
  slept : Slept k
  started : ∀ t, k.started t = true ↔ HasRun k.trace t
  recorded : k.threadToBeDestroyed ≠ none ↔ Undestroyed k.trace
  fresh : ∀ t, k.threadToBeDestroyed = some t → t ∉ k.destroyed
  spaced : k.Reclaimed ↔ Spaced k.trace

namespace Reclaims
variable {k k' : Sched} {t : Thread} {place : Thread → Option Place}

theorem keep (h : Reclaims k) (hs : Slept k') (es : List Event)
    (hst : k'.started = k.started) (hr : k'.threadToBeDestroyed = k.threadToBeDestroyed)
    (hd : k'.destroyed = k.destroyed) (ht : k'.trace = es ++ k.trace)
    (he : ∀ e ∈ es, e.ofLifecycle = false) : Reclaims k' where
  slept := hs
  started t := by
    rw [hst, ht, h.started, HasRun, HasRun, mem_append_of_ofLifecycle he rfl]
  recorded := by rw [hr, ht, undestroyed_append he, h.recorded]
  fresh t := by
    rw [hr, hd]
    exact h.fresh t
  spaced := by
    rw [ht, spaced_append he, ← h.spaced, Sched.Reclaimed, Sched.Reclaimed, hr, hd, ht]
    exact forall_congr' fun t => imp_congr_left (mem_append_of_ofLifecycle he rfl)

/-- The recorded thread is destroyed if and only if the next thread comes back from `SWITCH`. -/
theorem run (h : Reclaims k) (hs : Slept (k.run t)) : Reclaims (k.run t) where
  slept := hs
  started u := by
    rw [Sched.run_trace]
    by_cases hut : u = t
    · subst hut
      by_cases hk : k.started u = true <;> simp [Sched.run, hk, HasRun]
    · by_cases hk : k.started t = true <;> simp [Sched.run, hk, HasRun, hut, h.started]
  recorded := by
    rw [Sched.run_trace, Undestroyed, ← h.started, ← h.recorded]
    by_cases hk : k.started t = true <;> simp [Sched.run, hk]
  fresh u := by
    by_cases hk : k.started t = true
    · simp [Sched.run, hk]
    · simpa [Sched.run, hk] using h.fresh u
  spaced := by
    have hmem := Slept.destroyed_run k t
    have hfin : ∀ u, .finished u ∈ (k.run t).trace ↔ .finished u ∈ k.trace := by simp
    have hsp : Spaced (k.run t).trace ↔ Spaced k.trace := by
      rw [Sched.run_trace]
      rfl
    rw [hsp, ← h.spaced, Sched.reclaimed_iff_mem, Sched.reclaimed_iff_mem, hmem]
    exact forall_congr' fun u => imp_congr_left (hfin u)

/-- The current thread is recorded; whoever was recorded before is lost. -/
theorem finish (h : Reclaims k) (hs : Slept k.finish)
    (hrun : k.status k.currentThread = .running) : Reclaims k.finish where
  slept := hs
  started t := by simp [Sched.finish, HasRun, h.started]
  recorded := by simp [Sched.finish, Undestroyed]
  fresh t ht hd := by
    have htc : k.currentThread = t := by simpa [Sched.finish] using ht
    have hb := h.slept.blocked t (h.slept.finished t (List.mem_append_right _ hd))
    rw [← htc, hrun] at hb
    cases hb
  spaced := by
    have hcur : .finished k.currentThread ∉ k.trace := fun hf => by
      have hb := h.slept.blocked _ hf
      rw [hrun] at hb
      cases hb
    have hnew : k.finish.Reclaimed ↔ ∀ t, .finished t ∈ k.trace → t ∈ k.destroyed := by
      simp only [Sched.Reclaimed, Sched.finish, Sched.note, Sched.sleep, List.mem_cons,
        Event.finished.injEq, Option.some.injEq]
      refine forall_congr' fun t => ⟨fun ht hf => ?_, fun ht hf => ?_⟩
      · exact (ht (.inr hf)).resolve_right fun e => hcur (e ▸ hf)
      · exact hf.symm.imp ht Eq.symm
    have hold : Spaced k.finish.trace ↔ k.threadToBeDestroyed = none ∧ k.Reclaimed := by
      rw [h.spaced, ← not_not (a := k.threadToBeDestroyed = none), ← ne_eq, h.recorded]
      rfl
    rw [hnew, hold]
    constructor
    · refine fun ht => ⟨Option.eq_none_iff_forall_ne_some.mpr fun t hr => ?_, fun t hf => .inl (ht t hf)⟩
      have hf := h.slept.finished t (by simp [hr])
      exact h.fresh t hr (ht t hf)
    · rintro ⟨hn, hr⟩ t hf
      exact (hr t hf).resolve_right (by simp [hn])

theorem dispatch (h : Reclaims k) (hp : Placed k place) (hd : k.dispatch = some k') :
    Reclaims k' := by
  have hs := h.slept.dispatch hp hd
  rw [Sched.dispatch] at hd
  split at hd
  · cases hd
  · next t rest hr =>
    cases hd
    have h₁ : Reclaims { k with readyList := rest } :=
      h.keep (h.slept.congr rfl rfl rfl (fun _ => Iff.rfl) rfl) [] rfl rfl rfl rfl (by simp)
    refine (h₁.run (t := t) ?_).keep hs [] rfl rfl rfl rfl (by simp)
    exact hs.congr rfl rfl rfl (fun _ => Iff.rfl) rfl

theorem yield (h : Reclaims k) (hp : Placed k place) (ha : k.asleep = false) :
    Reclaims k.yield := by
  cases hr : k.readyList with
  | nil =>
    rw [Sched.yield, hr]
    exact h
  | cons t rest =>
    have hrun := hp.status _ _ (hp.awake ha)
    have hs : Slept { k.readyToRun k.currentThread with asleep := true } :=
      h.slept.restate k.currentThread (.ready k.currentThread) .ready rfl (by simp)
        (by simp [hrun, Place.status]) (by simp) rfl rfl rfl rfl
    have h₁ : Reclaims { k.readyToRun k.currentThread with asleep := true } :=
      h.keep hs [.ready k.currentThread] rfl rfl rfl rfl (by simp [Event.ofLifecycle])
    exact h₁.dispatch (hp.preempt ha) (Placed.dispatch_readyToRun ha hr)

theorem action (h : Reclaims k) (hp : Placed k place) (ha : Action k k') : Reclaims k' := by
  have hs := h.slept.action hp ha
  have hrun : k.asleep = false → k.status k.currentThread = .running := fun ha =>
    hp.status _ _ (hp.awake ha)
  cases ha with
  | @note e he =>
    refine h.keep hs [e] rfl rfl rfl rfl (List.forall_mem_singleton.mpr ?_)
    cases e <;> first | rfl | cases he
  | @down s ha hv =>
    exact h.keep hs [.down s k.currentThread] rfl rfl rfl rfl (by simp [Event.ofLifecycle])
  | @park s ha hv =>
    exact h.keep hs [.slept s k.currentThread] rfl rfl rfl rfl (by simp [Event.ofLifecycle])
  | up s who =>
    rw [Sched.up] at hs ⊢
    split at hs
    · exact h.keep hs [.up s who] rfl rfl rfl rfl (by simp [Event.ofLifecycle])
    · next t rest _ =>
      exact h.keep hs [.up s who, .ready t, .woke s t] rfl rfl rfl rfl
        (by simp [Event.ofLifecycle])
  | wait c ha =>
    exact h.keep hs [.parked c k.currentThread] rfl rfl rfl rfl (by simp [Event.ofLifecycle])
  | signal c =>
    rw [Sched.signal] at hs ⊢
    split at hs
    · exact h
    · next t rest _ =>
      exact h.keep hs [.ready t, .signalled c t] rfl rfl rfl rfl (by simp [Event.ofLifecycle])
  | @fork t ht =>
    exact h.keep hs [.ready t, .forked t] rfl rfl rfl rfl (by simp [Event.ofLifecycle])
  | yield ha => exact h.yield hp ha
  | finish ha => exact h.finish hs (hrun ha)
  | dispatch ha hd => exact h.dispatch hp hd

theorem initial (value : SemId → Int) : Reclaims (Machine.initial value).toSched where
  slept := .initial value
  started t := by simp [Machine.initial, HasRun]
  recorded := by simp [Machine.initial, Undestroyed]
  fresh := nofun
  spaced := by simp [Machine.initial, Sched.Reclaimed, Spaced]

end Reclaims

/-- Every finished thread is destroyed or recorded for it, as long as a thread that had run
before is dispatched between any two calls of `Finish`. Otherwise a finished thread is lost. -/
theorem reclaimed_iff_spaced {value : SemId → Int} {prog : Thread → Prog Unit}
    {c : Tasks ops Machine Unit Thread} (h : Reachable value prog c) :
    c.state.Reclaimed ↔ Spaced c.state.trace :=
  (h.invariant (I := Reclaims) (Reclaims.initial value) Reclaims.action).spaced

/-- The main thread has finished, and is recorded. -/
theorem reclaimed_iff_spaced_main :
    (Machine.initial fun _ => 0).finish.Reclaimed :=
  have h : Reachable (fun _ => 0) (fun _ => Program.perform (S := ops) .finish)
      ⟨_, { Machine.initial (fun _ => 0) with level := .off }.setSched
        (Machine.initial fun _ => 0).finish⟩ :=
    Platform.run_of_replay [.act 0 ⟨[], false, 0⟩] rfl
  (reclaimed_iff_spaced h).mpr ⟨id, trivial⟩

def forkTwo : Thread → Client
  | 0 => do
    Program.perform (S := calls) (.fork 1)
    Program.perform (S := calls) (.fork 2)
    Program.perform (S := calls) .yield
  | _ => pure ()

/-- Both forked threads have only `Finish` to do, and each of them runs for the first time: when
the second one has finished, the first one is neither destroyed nor recorded. -/
theorem not_reclaimed_forkTwo :
    ∃ c, Reachable (initialValue fun _ => 0) (fun t => threadRoot t (forkTwo t)) c ∧
      ¬ c.state.Reclaimed := by
  refine ⟨_, Platform.run_of_replay (List.replicate 13 (.act 0 ⟨[], false, 0⟩) ++
    List.replicate 3 (.act 1 ⟨[], false, 0⟩) ++ .env ⟨[], false, 0⟩ ::
    List.replicate 3 (.act 2 ⟨[], false, 0⟩)) rfl, fun h => ?_⟩
  obtain hd | hr := h 1 (by decide)
  · cases hd
  · cases hr

end Nachos.Threads
