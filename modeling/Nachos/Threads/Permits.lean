import Nachos.Threads.Conserved
import Mathlib.Data.Finset.Card

/-! A semaphore counts permits: its value is what was put in less what was taken out, and no
thread sleeps while there is a permit for it that nobody else was woken for. -/

namespace Nachos.Threads
open Lib Relation

def ups (s : SemId) (h : List Event) : Nat := h.countP fun | .up s' _ => s' = s | _ => false

def downs (s : SemId) (h : List Event) : Nat := h.countP fun | .down s' _ => s' = s | _ => false

/-- The threads that `V` has taken off the queue of `s` and that have not looked at its value
again. -/
def woken (s : SemId) : List Event → Finset Thread
  | [] => ∅
  | .woke s' t :: h => if s' = s then insert t (woken s h) else woken s h
  | .slept s' t :: h => if s' = s then (woken s h).erase t else woken s h
  | .down s' t :: h => if s' = s then (woken s h).erase t else woken s h
  | _ :: h => woken s h

def Event.about (s : SemId) : Event → Bool
  | .up s' _ | .down s' _ | .slept s' _ | .woke s' _ => s' = s
  | _ => false

section events
variable {s : SemId} {e : Event} {h : List Event}

theorem ups_of_not (he : e.about s = false) : ups s (e :: h) = ups s h := by
  cases e <;> simp_all [ups, Event.about]

theorem downs_of_not (he : e.about s = false) : downs s (e :: h) = downs s h := by
  cases e <;> simp_all [downs, Event.about]

theorem woken_of_not (he : e.about s = false) : woken s (e :: h) = woken s h := by
  cases e <;> simp_all [woken, Event.about]

end events

structure Counts (n : Int) (s : SemId) (k : Sched) : Prop where
  value : (k.semaphore s).value = n + ups s k.trace - downs s k.trace
  nonneg : 0 ≤ (k.semaphore s).value
  permits : (k.semaphore s).queue ≠ [] → (k.semaphore s).value ≤ (woken s k.trace).card
  queued : ∀ t ∈ (k.semaphore s).queue, t ∉ woken s k.trace

namespace Counts
variable {n : Int} {s : SemId} {k k' : Sched} {t : Thread} {place : Thread → Option Place}

theorem congr (h : Counts n s k) (hs : k'.semaphore s = k.semaphore s)
    (hu : ups s k'.trace = ups s k.trace) (hd : downs s k'.trace = downs s k.trace)
    (hw : woken s k'.trace = woken s k.trace) : Counts n s k' where
  value := by rw [hs, hu, hd, h.value]
  nonneg := hs ▸ h.nonneg
  permits := by
    rw [hs, hw]
    exact h.permits
  queued := by
    rw [hs, hw]
    exact h.queued

theorem note (h : Counts n s k) {e : Event} (he : e.about s = false) : Counts n s (k.note e) :=
  h.congr rfl (ups_of_not he) (downs_of_not he) (woken_of_not he)

theorem readyToRun (h : Counts n s k) (t : Thread) : Counts n s (k.readyToRun t) :=
  h.congr rfl rfl rfl rfl

theorem run (h : Counts n s k) (t : Thread) : Counts n s (k.run t) := by
  refine h.congr (by simp) ?_ ?_ ?_
  all_goals rw [Sched.run_trace]; rfl

theorem down (h : Counts n s k) (hv : (k.semaphore s).value ≠ 0) : Counts n s (k.down s) := by
  have hval := h.value
  have hpos := h.nonneg
  have hup : ups s (k.down s).trace = ups s k.trace := rfl
  have hdown : downs s (k.down s).trace = downs s k.trace + 1 := by simp [downs, Sched.down]
  have hwoken : woken s (k.down s).trace = (woken s k.trace).erase k.currentThread := by
    simp [woken, Sched.down]
  have hv' : ((k.down s).semaphore s).value = (k.semaphore s).value - 1 := by simp [Sched.down]
  have hq' : ((k.down s).semaphore s).queue = (k.semaphore s).queue := by simp [Sched.down]
  refine ⟨?_, ?_, ?_, ?_⟩
  · rw [hv', hup, hdown]
    push_cast
    omega
  · omega
  · rw [hv', hq', hwoken]
    intro hq
    have := h.permits hq
    have := Finset.pred_card_le_card_erase (s := woken s k.trace) (a := k.currentThread)
    omega
  · rw [hq', hwoken]
    exact fun t ht hm => h.queued t ht (Finset.mem_of_mem_erase hm)

theorem park (h : Counts n s k) (hv : (k.semaphore s).value = 0) : Counts n s (k.park s) := by
  have hwoken : woken s (k.park s).trace = (woken s k.trace).erase k.currentThread := by
    simp [woken, Sched.park]
  have hsem : (k.park s).semaphore s =
      ⟨(k.semaphore s).value, (k.semaphore s).queue ++ [k.currentThread]⟩ := by
    simp [Sched.park]
  refine ⟨?_, ?_, ?_, ?_⟩
  · rw [hsem]
    exact h.value
  · rw [hsem]
    exact h.nonneg
  · rw [hsem, hv]
    omega
  · rw [hsem, hwoken]
    intro t ht hm
    rcases List.mem_append.mp ht with ht | ht
    · exact h.queued t ht (Finset.mem_of_mem_erase hm)
    · exact (Finset.mem_erase.mp hm).1 (List.mem_singleton.mp ht)

theorem up (h : Counts n s k) (hp : Placed k place) (who : Option Thread) :
    Counts n s (k.up s who) := by
  have hval := h.value
  have hpos := h.nonneg
  have hcount : ∀ q, ups s (.up s who :: q) = ups s q + 1 := fun q => by simp [ups]
  rw [Sched.up]
  split
  · next hq =>
    refine ⟨?_, ?_, ?_, ?_⟩
    · simp only [Sched.note, Sched.setSemaphore, Function.update_self, hcount]
      rw [show downs s (.up s who :: k.trace) = downs s k.trace from rfl]
      push_cast
      omega
    · simp only [Sched.note, Sched.setSemaphore, Function.update_self]
      omega
    · simp
    · simp
  · next t rest hq =>
    have htw := h.queued t (by simp [hq])
    -- the sleeper is on the queue once
    have htr : t ∉ rest := by
      have hc := hp.count t (.semaphore s)
      simp only [Sched.who, hq, List.count_cons_self] at hc
      intro hm
      have := List.count_pos_iff.mpr hm
      split at hc <;> omega
    have hwoken : woken s (.up s who :: .ready t :: .woke s t :: k.trace) = insert t
      (woken s k.trace) := by
      simp [woken]
    refine ⟨?_, ?_, ?_, ?_⟩
    · simp only [Sched.note, Sched.readyToRun, Sched.setSemaphore, Function.update_self, hcount]
      rw [show downs s (.up s who :: .ready t :: .woke s t :: k.trace) = downs s k.trace from rfl,
        show ups s (.ready t :: .woke s t :: k.trace) = ups s k.trace from rfl]
      push_cast
      omega
    · simp only [Sched.note, Sched.readyToRun, Sched.setSemaphore, Function.update_self]
      omega
    · simp only [Sched.note, Sched.readyToRun, Sched.setSemaphore, Function.update_self, hwoken,
        Finset.card_insert_of_notMem htw]
      intro _
      have := h.permits (by simp [hq])
      push_cast
      omega
    · simp only [Sched.note, Sched.readyToRun, Sched.setSemaphore, Function.update_self, hwoken]
      intro u hu hm
      rcases Finset.mem_insert.mp hm with rfl | hm
      · exact htr hu
      · exact h.queued u (by simp [hq, hu]) hm

theorem other (h : Counts n s k) {s' : SemId} (hs : s ≠ s') (x : Semaphore) :
    Counts n s (k.setSemaphore s' x) :=
  h.congr (Function.update_of_ne hs _ _) rfl rfl rfl

theorem action (h : Counts n s k) (hp : Placed k place) (ha : Action k k') : Counts n s k' := by
  cases ha with
  | @note e he =>
    refine h.note ?_
    cases e <;> first | rfl | cases he
  | @down s' ha hv =>
    by_cases hs : s = s'
    · subst hs
      exact h.down hv
    · exact (h.other hs _).note (by simp [Event.about, Ne.symm hs])
  | @park s' ha hv =>
    by_cases hs : s = s'
    · subst hs
      exact h.park hv
    · exact ((h.other hs _).note (e := .slept s' k.currentThread)
        (by simp [Event.about, Ne.symm hs])).congr
        rfl rfl rfl rfl
  | up s' who =>
    by_cases hs : s = s'
    · subst hs
      exact h.up hp who
    · rw [Sched.up]
      split
      · exact (h.other hs _).note (by simp [Event.about, Ne.symm hs])
      · exact (((h.other hs _).note (by simp [Event.about, Ne.symm hs])).readyToRun _).note
          (by simp [Event.about, Ne.symm hs])
  | wait c ha => exact (h.note (e := .parked c k.currentThread) rfl).congr rfl rfl rfl rfl
  | signal c =>
    rw [Sched.signal]
    split
    · exact h
    · next t rest hq =>
      exact ((h.note (e := .signalled c t) rfl).readyToRun t).congr rfl rfl rfl rfl
  | fork ht => exact (h.note rfl).readyToRun _
  | yield ha =>
    rw [Sched.yield]
    split
    · exact h
    · next t rest hr =>
      have h₁ : Counts n s { k with readyList := rest } := h.congr rfl rfl rfl rfl
      exact (h₁.readyToRun _).run t
  | finish ha => exact (h.note (e := .finished k.currentThread) rfl).congr rfl rfl rfl rfl
  | dispatch ha hd =>
    rw [Sched.dispatch] at hd
    split at hd
    · cases hd
    · next t rest hr =>
      cases hd
      have h₁ : Counts n s { k with readyList := rest } := h.congr rfl rfl rfl rfl
      exact (h₁.run t).congr rfl rfl rfl rfl

theorem initial {value : SemId → Int} (hn : 0 ≤ value s) :
    Counts (value s) s (Machine.initial value).toSched where
  value := by simp [Machine.initial, ups, downs]
  nonneg := hn
  permits h := absurd rfl h
  queued := nofun

end Counts

/-- The value of a semaphore, and the threads that sleep on it, in every reachable state. -/
theorem semaphore_counts {value : SemId → Int} {prog : Thread → Prog Unit}
    {c : Tasks ops Machine Unit Thread} (h : Reachable value prog c) {s : SemId}
    (hs : 0 ≤ value s) :
    (c.state.semaphore s).value = value s + ups s c.state.trace - downs s c.state.trace ∧
    0 ≤ (c.state.semaphore s).value ∧
    ((c.state.semaphore s).queue ≠ [] → (c.state.semaphore s).value ≤
      (woken s c.state.trace).card) := by
  have hc := h.invariant (I := Counts (value s) s) (Counts.initial hs) Counts.action
  exact ⟨hc.value, hc.nonneg, hc.permits⟩

/-- The main thread sleeps on a semaphore that has no permit. -/
theorem semaphore_counts_sleeping :
    ∃ c, Reachable (fun _ => 0) (fun _ => Semaphore.p (.user 0)) c ∧
      (c.state.semaphore (.user 0)).queue = [0] ∧ 0 ≤ (c.state.semaphore (.user 0)).value ∧
      (c.state.semaphore (.user 0)).value ≤ (woken (.user 0) c.state.trace).card := by
  have h := Platform.run_of_replay (P := platform) (c := ⟨fun _ => Semaphore.p (.user 0),
    .initial fun _ => 0⟩)
    [.act 0 ⟨[], false, 0⟩, .act 0 ⟨[], false, 0⟩] rfl
  have hc := semaphore_counts h (s := .user 0) (Int.le_refl 0)
  exact ⟨_, h, rfl, hc.2.1, hc.2.2 (List.cons_ne_nil _ _)⟩

end Nachos.Threads
