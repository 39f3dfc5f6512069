import Nachos.Threads.Conserved

/-! Threads are dispatched first come, first served: what `Run` is given is what `ReadyToRun`
was given, in the same order. -/

namespace Nachos.Threads
open Lib Relation

/-- The threads that were put on the ready list, in order; the events are given latest first. -/
def readied (h : List Event) : List Thread :=
  (h.filterMap fun | .ready t => some t | _ => none).reverse

def dispatched (h : List Event) : List Thread :=
  (h.filterMap fun | .dispatch t => some t | _ => none).reverse

def waiting (h : List Event) : List Thread := (readied h).drop (dispatched h).length

/-- Every thread that was dispatched was the first of the ready list, and not on it again. -/
def InOrder : List Event → Prop
  | [] => True
  | .dispatch t :: h => InOrder h ∧ ∃ rest, readied h = dispatched h ++ t :: rest ∧ t ∉ rest
  | _ :: h => InOrder h

structure Fifo (k : Sched) : Prop where
  order : InOrder k.trace
  list : readied k.trace = dispatched k.trace ++ k.readyList

section events
variable {h : List Event} {t : Thread} {e : Event}

@[simp] theorem readied_ready : readied (.ready t :: h) = readied h ++ [t] := by simp [readied]

@[simp] theorem dispatched_dispatch : dispatched (.dispatch t :: h) = dispatched h ++ [t] := by
  simp [dispatched]

@[simp] theorem readied_dispatch : readied (.dispatch t :: h) = readied h := rfl

@[simp] theorem dispatched_ready : dispatched (.ready t :: h) = dispatched h := rfl

def Event.ofReadyList : Event → Bool
  | .ready _ | .dispatch _ => true
  | _ => false

theorem readied_of_not (he : e.ofReadyList = false) : readied (e :: h) = readied h := by
  cases e <;> first | rfl | cases he

theorem dispatched_of_not (he : e.ofReadyList = false) : dispatched (e :: h) = dispatched h := by
  cases e <;> first | rfl | cases he

theorem inOrder_cons_of_not (he : e.ofReadyList = false) : InOrder (e :: h) ↔ InOrder h := by
  cases e <;> first | rfl | cases he

end events

namespace Fifo
variable {k k' : Sched} {t : Thread} {place : Thread → Option Place}

theorem note (h : Fifo k) {e : Event} (he : e.ofReadyList = false) : Fifo (k.note e) where
  order := (inOrder_cons_of_not he).mpr h.order
  list := by
    rw [Sched.note_trace, readied_of_not he, dispatched_of_not he]
    exact h.list

theorem congr (h : Fifo k) (ht : k'.trace = k.trace) (hr : k'.readyList = k.readyList) :
    Fifo k' where
  order := ht ▸ h.order
  list := by rw [ht, hr, h.list]

theorem readyToRun (h : Fifo k) : Fifo (k.readyToRun t) where
  order := h.order
  list := by simp [h.list]

theorem run {rest : List Thread} (h : Fifo k) (hr : k.readyList = t :: rest) (ht : t ∉ rest) :
    Fifo (({ k with readyList := rest } : Sched).run t) where
  order := by
    rw [Sched.run_trace]
    exact ⟨h.order, rest, by rw [h.list, hr], ht⟩
  list := by simp [h.list, hr]

theorem dispatch (h : Fifo k) (hp : Placed k place) (hd : k.dispatch = some k') : Fifo k' := by
  rw [Sched.dispatch] at hd
  split at hd
  · cases hd
  · next t rest hr =>
    cases hd
    refine (h.run hr fun ht => ?_).congr rfl rfl
    have hc := hp.count t .readyList
    simp only [Sched.who, hr, List.count_cons_self] at hc
    have := List.count_pos_iff.mpr ht
    split at hc <;> omega

theorem yield (h : Fifo k) (hp : Placed k place) (ha : k.asleep = false) : Fifo k.yield := by
  cases hr : k.readyList with
  | nil =>
    rw [Sched.yield, hr]
    exact h
  | cons t rest =>
    have h₁ : Fifo { k.readyToRun k.currentThread with asleep := true } :=
      h.readyToRun.congr rfl rfl
    exact h₁.dispatch (hp.preempt ha) (Placed.dispatch_readyToRun ha hr)

theorem action (h : Fifo k) (hp : Placed k place) (ha : Action k k') : Fifo k' := by
  cases ha with
  | note he =>
    refine h.note ?_
    rename_i e
    cases e <;> first | rfl | cases he
  | down ha hv => exact (h.note rfl).congr rfl rfl
  | park ha hv => exact (h.note rfl).congr rfl rfl
  | up s who =>
    rw [Sched.up]
    split
    · exact (h.note rfl).congr rfl rfl
    · exact ((h.note rfl).readyToRun.note rfl).congr rfl rfl
  | wait c ha => exact (h.note rfl).congr rfl rfl
  | signal c =>
    rw [Sched.signal]
    split
    · exact h
    · exact (h.note rfl).readyToRun.congr rfl rfl
  | fork ht => exact (h.note rfl).readyToRun
  | yield ha => exact h.yield hp ha
  | finish ha => exact (h.note rfl).congr rfl rfl
  | dispatch ha hd => exact h.dispatch hp hd

theorem initial (value : SemId → Int) : Fifo (Machine.initial value).toSched := ⟨trivial, rfl⟩

end Fifo

theorem InOrder.of_append {h h' : List Event} (ho : InOrder (h ++ h')) : InOrder h' := by
  induction h with
  | nil => exact ho
  | cons e h ih =>
    cases e with
    | dispatch t => exact ih ho.1
    | _ => exact ih ho

/-- Between two turns of a thread, everyone who was ready at the first one has a turn. -/
theorem InOrder.overtaken {a b : List Event} {t u : Thread}
    (ho : InOrder (.dispatch t :: (b ++ .dispatch t :: a))) (hu : u ∈ waiting (.dispatch t :: a)) :
    u ∈ dispatched b := by
  obtain ⟨ho, rest, hrest, -⟩ := ho
  obtain ⟨-, first, hfirst, ht⟩ := ho.of_append
  have hr : readied (b ++ .dispatch t :: a) = readied a ++ readied b := by simp [readied]
  have hd : dispatched (b ++ .dispatch t :: a) = (dispatched a ++ [t]) ++ dispatched b := by
    simp [dispatched]
  rw [← List.singleton_append, ← List.append_assoc] at hfirst
  have hw : waiting (.dispatch t :: a) = first := by
    rw [waiting, readied_dispatch, dispatched_dispatch, hfirst, List.drop_left]
  rw [hw] at hu
  -- the ready list at the first turn, and what came behind it, is what was dispatched since
  have hlist : first ++ readied b = dispatched b ++ t :: rest := by
    rw [hr, hd, hfirst, List.append_assoc, List.append_assoc (dispatched a ++ [t])] at hrest
    exact List.append_cancel_left hrest
  rcases List.append_eq_append_iff.mp hlist with ⟨l, hl, -⟩ | ⟨l, hl, hl'⟩
  · rw [hl]
    exact List.mem_append_left _ hu
  · -- the second turn cannot be among those who were ready at the first
    cases l with
    | nil =>
      rw [List.append_nil] at hl
      rwa [← hl]
    | cons t' l =>
      obtain rfl : t = t' := by simpa using congrArg List.head? hl'
      exact absurd (hl ▸ List.mem_append_right _ (List.mem_cons_self ..)) ht

/-- The ready list is served first come, first served, and no thread has two turns while
another one stays on the list. -/
theorem dispatch_fifo {value : SemId → Int} {prog : Thread → Prog Unit}
    {c : Tasks ops Machine Unit Thread} (h : Reachable value prog c) :
    readied c.state.trace = dispatched c.state.trace ++ c.state.readyList ∧
    ∀ a b d t u, c.state.trace = d ++ .dispatch t :: (b ++ .dispatch t :: a) →
      u ∈ waiting (.dispatch t :: a) → .dispatch u ∈ b := by
  have hf := h.invariant (I := Fifo) (Fifo.initial value) Fifo.action
  refine ⟨hf.list, fun a b d t u he hu => ?_⟩
  have ho := hf.order
  rw [he] at ho
  have hm := ho.of_append.overtaken hu
  simp only [dispatched, List.mem_reverse, List.mem_filterMap] at hm
  obtain ⟨e, he, hm⟩ := hm
  cases e <;> simp_all

/-- The main thread forks a thread and yields to it. -/
theorem dispatch_fifo_yield :
    ∃ c, Reachable (fun _ => 0)
        (fun _ => do Program.perform (S := ops) (.fork 1); Program.perform (S := ops) .yield) c ∧
      readied c.state.trace = dispatched c.state.trace ++ [0] := by
  have h := Platform.run_of_replay (P := platform)
    (c := ⟨fun _ => (do
        Program.perform (S := ops) (.fork 1)
        Program.perform (S := ops) .yield : Prog Unit), .initial fun _ => 0⟩)
    [.act 0 ⟨[], false, 0⟩, .act 0 ⟨[], false, 0⟩] rfl
  exact ⟨_, h, (dispatch_fifo h).1⟩

end Nachos.Threads
