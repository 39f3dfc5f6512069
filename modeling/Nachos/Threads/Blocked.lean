import Nachos.Threads.Conserved

/-! `Scheduler::blockedList`. `Sleep` puts every thread on it and nothing takes a thread off
it, so it is the list of the blocked threads only until a thread is woken or destroyed. -/

namespace Nachos.Threads
open Lib Relation

def Event.wakes : Event → Option Thread
  | .woke _ t | .signalled _ t => some t
  | _ => none

def wakeups (h : List Event) : List Thread := h.filterMap Event.wakes

namespace Sched

/-- The blocked list has each live thread that is blocked once, and no other thread and none
that was destroyed. -/
structure BlockedListExact (k : Sched) : Prop where
  once : ∀ t, (t = 0 ∨ .forked t ∈ k.trace) → t ∉ k.destroyed → k.status t = .blocked →
    k.blockedList.count t = 1
  blocked : ∀ t ∈ k.blockedList, k.status t = .blocked
  alive : ∀ t ∈ k.blockedList, t ∉ k.destroyed

end Sched

/-- A thread is on the blocked list once for every time it went to sleep. -/
structure Slept (k : Sched) : Prop where
  count : ∀ t, k.blockedList.count t =
    (wakeups k.trace).count t + if k.status t = .blocked then 1 else 0
  finished : ∀ t, t ∈ k.threadToBeDestroyed.toList ++ k.destroyed → .finished t ∈ k.trace
  blocked : ∀ t, .finished t ∈ k.trace → k.status t = .blocked

theorem wakeups_cons_of_none {e : Event} {h : List Event} (he : e.wakes = none) :
    wakeups (e :: h) = wakeups h := by
  simp [wakeups, he]

theorem wakeups_cons_of_some {e : Event} {h : List Event} {t : Thread} (he : e.wakes = some t) :
    wakeups (e :: h) = t :: wakeups h := by
  simp [wakeups, he]

namespace Slept
variable {k k' : Sched} {t : Thread} {place : Thread → Option Place}

theorem congr (h : Slept k) (hb : k'.blockedList = k.blockedList) (hst : k'.status = k.status)
    (hw : wakeups k'.trace = wakeups k.trace)
    (hfin : ∀ u, .finished u ∈ k'.trace ↔ .finished u ∈ k.trace)
    (hd : k'.threadToBeDestroyed.toList ++ k'.destroyed = k.threadToBeDestroyed.toList ++ k.destroyed) :
    Slept k' where
  count t := by rw [hb, hst, hw, h.count]
  finished t ht := (hfin t).mpr (h.finished t (hd ▸ ht))
  blocked t ht := by
    rw [hst]
    exact h.blocked t ((hfin t).mp ht)

theorem sleep (h : Slept k) (hrun : k.status k.currentThread = .running) : Slept k.sleep where
  count t := by
    have ht := h.count t
    by_cases htc : t = k.currentThread
    · subst htc
      rw [hrun] at ht
      simp_all
    · simp [ht, htc, Ne.symm htc]
  finished := h.finished
  blocked t ht := by
    by_cases htc : t = k.currentThread
    · simp [htc]
    · simpa [htc] using h.blocked t ht

theorem wake (h : Slept k) (e : Event) (he : e.wakes = some t) (hb : k.status t = .blocked)
    (hf : .finished t ∉ k.trace) : Slept ((k.note e).readyToRun t) where
  count u := by
    have hu := h.count u
    have hw : wakeups ((k.note e).readyToRun t).trace = t :: wakeups k.trace :=
      (wakeups_cons_of_none rfl).trans (wakeups_cons_of_some he)
    rw [hw]
    by_cases hut : u = t
    · subst hut
      simp_all
    · simp [hu, hut, Ne.symm hut]
  finished u hu := by
    have := h.finished u hu
    simp [this]
  blocked u hu := by
    have hu' : .finished u ∈ k.trace := by
      cases e <;> simp_all [Event.wakes]
    have hut : u ≠ t := fun e => hf (e ▸ hu')
    simpa [hut] using h.blocked u hu'

theorem restate (h : Slept k) (t : Thread) (e : Event) (st : ThreadStatus) (he : e.wakes = none)
    (hfin : ∀ u, e ≠ .finished u) (hb : k.status t ≠ .blocked) (hst : st ≠ .blocked)
    (hb' : k'.blockedList = k.blockedList) (hs' : k'.status = Function.update k.status t st)
    (ht' : k'.trace = e :: k.trace)
    (hd : k'.threadToBeDestroyed.toList ++ k'.destroyed = k.threadToBeDestroyed.toList ++ k.destroyed) :
    Slept k' where
  count u := by
    rw [hb', h.count, ht', wakeups_cons_of_none he, hs']
    by_cases hut : u = t
    · subst hut
      simp [hb, hst]
    · simp [hut]
  finished u hu := by
    rw [ht']
    exact List.mem_cons_of_mem _ (h.finished u (hd ▸ hu))
  blocked u hu := by
    rw [ht', List.mem_cons, or_iff_right (hfin u).symm] at hu
    have hut : u ≠ t := by
      rintro rfl
      exact hb (h.blocked u hu)
    rw [hs', Function.update_of_ne hut]
    exact h.blocked u hu

theorem destroyed_run (k : Sched) (t : Thread) :
    (k.run t).threadToBeDestroyed.toList ++ (k.run t).destroyed =
      k.threadToBeDestroyed.toList ++ k.destroyed := by
  simp only [Sched.run]
  split <;> simp

theorem dispatch (h : Slept k) (hp : Placed k place) (hd : k.dispatch = some k') : Slept k' := by
  rw [Sched.dispatch] at hd
  split at hd
  · cases hd
  · next t rest hr =>
    cases hd
    have ht := hp.status t .readyList (hp.of_mem (by simp [Sched.who, hr]))
    refine h.restate t (.dispatch t) .running rfl (by simp) (by simp [ht, Place.status]) (by simp) ?_ ?_ ?_ ?_
    · simp
    · simp
    · simp
    · exact destroyed_run { k with readyList := rest } t

theorem yield (h : Slept k) (hp : Placed k place) (ha : k.asleep = false) : Slept k.yield := by
  cases hr : k.readyList with
  | nil =>
    rw [Sched.yield, hr]
    exact h
  | cons t rest =>
    have hrun := hp.status _ _ (hp.awake ha)
    have h₁ : Slept { k.readyToRun k.currentThread with asleep := true } :=
      h.restate k.currentThread (.ready k.currentThread) .ready rfl (by simp)
        (by simp [hrun, Place.status]) (by simp) rfl rfl rfl rfl
    exact h₁.dispatch (hp.preempt ha) (Placed.dispatch_readyToRun ha hr)

theorem action (h : Slept k) (hp : Placed k place) (ha : Action k k') : Slept k' := by
  have hrun : k.asleep = false → k.status k.currentThread = .running := fun ha =>
    hp.status _ _ (hp.awake ha)
  cases ha with
  | @note e he =>
    refine h.congr rfl rfl ?_ (fun u => ?_) rfl
    · cases e <;> first | rfl | cases he
    · cases e <;> simp_all [Event.external]
  | down ha hv => exact h.congr rfl rfl rfl (by simp [Sched.down]) rfl
  | @park s ha hv =>
    have h₁ : Slept ((k.setSemaphore s { k.semaphore s with
        queue := (k.semaphore s).queue ++ [k.currentThread] }).note (.slept s k.currentThread)) :=
      h.congr rfl rfl rfl (by simp) rfl
    exact h₁.sleep (hrun ha)
  | up s who =>
    rw [Sched.up]
    split
    · exact h.congr rfl rfl rfl (by simp) rfl
    · next t rest hq =>
      have ht := hp.of_mem (t := t) (p := .semaphore s) (by simp [Sched.who, hq])
      have hl := (hp.live t).mp (by simp [ht])
      refine (h.wake (.woke s t) rfl (hp.status _ _ ht) hl.2).congr rfl rfl rfl (by simp) rfl
  | wait c ha =>
    have h₁ : Slept ((k.setQueue c (k.queue c ++ [k.currentThread])).note
      (.parked c k.currentThread)) :=
      h.congr rfl rfl rfl (by simp) rfl
    exact h₁.sleep (hrun ha)
  | signal c =>
    rw [Sched.signal]
    split
    · exact h
    · next t rest hq =>
      have ht := hp.of_mem (t := t) (p := .condition c) (by simp [Sched.who, hq])
      have hl := (hp.live t).mp (by simp [ht])
      refine (h.wake (.signalled c t) rfl (hp.status _ _ ht) hl.2).congr rfl rfl rfl (by simp) rfl
  | @fork t ht =>
    have h₁ : Slept (k.note (.forked t)) := h.congr rfl rfl rfl (by simp) rfl
    exact h₁.restate t (.ready t) .ready rfl (by simp) (by simp [ht]) (by simp) rfl rfl rfl rfl
  | yield ha => exact h.yield hp ha
  | finish ha =>
    refine ⟨fun t => ?_, fun t ht => ?_, fun t ht => ?_⟩
    · have hw : wakeups k.finish.trace = wakeups k.trace := wakeups_cons_of_none rfl
      rw [hw]
      exact (h.sleep (hrun ha)).count t
    · simp only [Sched.finish, Sched.note, Sched.sleep, Option.toList_some, List.singleton_append,
        List.mem_cons] at ht ⊢
      rcases ht with rfl | ht
      · exact .inl rfl
      · exact .inr (h.finished t (List.mem_append_right _ ht))
    · simp only [Sched.finish, Sched.note, Sched.sleep, List.mem_cons, Event.finished.injEq] at ht ⊢
      by_cases htc : t = k.currentThread
      · simp [htc]
      · simpa [htc] using h.blocked t (ht.resolve_left htc)
  | dispatch ha hd => exact h.dispatch hp hd

theorem initial (value : SemId → Int) : Slept (Machine.initial value).toSched where
  count t := by by_cases ht : t = 0 <;> simp [Machine.initial, wakeups, ht]
  finished := nofun
  blocked := nofun

theorem exact_iff (h : Slept k) (hp : Placed k place) :
    k.BlockedListExact ↔ wakeups k.trace = [] ∧ k.destroyed = [] := by
  constructor
  · intro he
    refine ⟨List.eq_nil_iff_forall_not_mem.mpr fun t ht => ?_, List.eq_nil_iff_forall_not_mem.mpr
      fun t ht => ?_⟩
    · have hc := h.count t
      have hpos := List.count_pos_iff.mpr ht
      have hm : t ∈ k.blockedList := List.count_pos_iff.mp (by omega)
      have hb := he.blocked t hm
      have hcr := (hp.created t).not.mp (by simp [hb])
      rw [he.once t (by tauto) (he.alive t hm) hb, if_pos hb] at hc
      omega
    · have hb := h.blocked t (h.finished t (List.mem_append_right _ ht))
      have hc := h.count t
      rw [if_pos hb] at hc
      exact he.alive t (List.count_pos_iff.mp (by omega)) ht
  · rintro ⟨hw, hd⟩
    have hc : ∀ t, k.blockedList.count t = if k.status t = .blocked then 1 else 0 := fun t => by
      rw [h.count, hw, List.count_nil, Nat.zero_add]
    refine ⟨fun t _ _ hb => by rw [hc, if_pos hb], fun t ht => ?_, fun t _ => by simp [hd]⟩
    by_contra hb
    have := List.count_pos_iff.mpr ht
    rw [hc, if_neg hb] at this
    omega

end Slept

theorem blockedList_exact_iff {value : SemId → Int} {prog : Thread → Prog Unit}
    {c : Tasks ops Machine Unit Thread} (h : Reachable value prog c) :
    c.state.BlockedListExact ↔ wakeups c.state.trace = [] ∧ c.state.destroyed = [] := by
  obtain ⟨place, hp⟩ := h.placed
  exact (h.invariant (I := Slept) (Slept.initial value) Slept.action).exact_iff hp

/-- The main thread sleeps in `P`, and is on the list. -/
theorem blockedList_exact_sleeping :
    ∃ c, Reachable (fun _ => 0) (fun _ => Semaphore.p (.user 0)) c ∧ c.state.blockedList = [0] ∧
      c.state.BlockedListExact := by
  have h := Platform.run_of_replay (P := platform) (c := ⟨fun _ => Semaphore.p (.user 0),
    .initial fun _ => 0⟩)
    [.act 0 ⟨[], false, 0⟩, .act 0 ⟨[], false, 0⟩] rfl
  exact ⟨_, h, rfl, (blockedList_exact_iff h).mpr ⟨rfl, rfl⟩⟩

/-- The main thread sleeps in `P` until a handler signals the semaphore. It runs again, and is
on the blocked list. -/
theorem not_blockedListExact_woken :
    ∃ c, Reachable (fun _ => 0) (fun _ => Semaphore.p (.user 0)) c ∧
      ¬ c.state.BlockedListExact := by
  refine ⟨_, Platform.run_of_replay [.act 0 ⟨[], false, 0⟩, .act 0 ⟨[], false, 0⟩,
    .env ⟨[.v 0], false, 0⟩, .env ⟨[], false, 0⟩] rfl, fun h => ?_⟩
  have hrun : ThreadStatus.running = .blocked := h.blocked 0 (List.mem_singleton.mpr rfl)
  cases hrun

end Nachos.Threads
