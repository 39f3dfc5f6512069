import Nachos.Threads.Synch
import Mathlib.Logic.Relation

/-! What a move of the machine can do to the threads and their queues: a finite number of
actions. The properties of the scheduler are shown for the actions, whatever the programs. -/

namespace Nachos.Threads
open Lib Relation

def Event.external : Event → Bool
  | .enter .. | .leave .. | .put .. | .took .. | .request _ | .interrupt => true
  | .shown .. | .typed _ | .got .. | .sent .. | .arrived _ | .pulled _ | .opened .. => true
  | _ => false

inductive Action : Sched → Sched → Prop
  | note {k : Sched} {e : Event} (he : e.external = true) : Action k (k.note e)
  | down {k : Sched} {s : SemId} (ha : k.asleep = false) (hv : (k.semaphore s).value ≠ 0) :
      Action k (k.down s)
  | park {k : Sched} {s : SemId} (ha : k.asleep = false) (hv : (k.semaphore s).value = 0) :
      Action k (k.park s)
  | up (k : Sched) (s : SemId) (who : Option Thread) : Action k (k.up s who)
  | wait {k : Sched} (c : CondId) (ha : k.asleep = false) : Action k (k.wait c)
  | signal (k : Sched) (c : CondId) : Action k (k.signal c)
  | fork {k : Sched} {t : Thread} (ht : k.status t = .justCreated) : Action k (k.fork t)
  | yield {k : Sched} (ha : k.asleep = false) : Action k k.yield
  | finish {k : Sched} (ha : k.asleep = false) : Action k k.finish
  | dispatch {k k' : Sched} (ha : k.asleep = true) (hd : k.dispatch = some k') : Action k k'

abbrev Actions := ReflTransGen Action

namespace Sched
variable (k : Sched) (t : Thread)

@[simp] theorem run_currentThread : (k.run t).currentThread = t := by
  simp only [run]; split <;> rfl

@[simp] theorem run_status : (k.run t).status = Function.update k.status t .running := by
  simp only [run]; split <;> rfl

@[simp] theorem run_readyList : (k.run t).readyList = k.readyList := by
  simp only [run]; split <;> rfl

@[simp] theorem run_blockedList : (k.run t).blockedList = k.blockedList := by
  simp only [run]; split <;> rfl

@[simp] theorem run_asleep : (k.run t).asleep = k.asleep := by
  simp only [run]; split <;> rfl

@[simp] theorem run_semaphore : (k.run t).semaphore = k.semaphore := by
  simp only [run]; split <;> rfl

@[simp] theorem run_queue : (k.run t).queue = k.queue := by
  simp only [run]; split <;> rfl

@[simp] theorem run_trace : (k.run t).trace = .dispatch t :: k.trace := by
  simp only [run]; split <;> rfl

theorem broadcast_actions (c : CondId) : Actions k (k.broadcast c) := by
  rw [broadcast]
  -- as many signals as there were threads in the queue
  generalize k.queue c = q
  induction q generalizing k with
  | nil => exact .refl
  | cons t q ih => exact .head (.signal k c) (ih _)

end Sched

namespace Machine
variable {m m' : Machine} {x : Choice}

theorem interrupt_cases {i : Irq} (h : m.interrupt i = some m') :
    m' = m ∨ (∃ n, m' = m.setSched (m.toSched.up (.user n) none)) ∨
    (0 < m.pending ∧ m' = m.handleInterrupt) ∨
    (∃ c, m.console.incoming = eof ∧ m' = m.readChar c) ∨
    (0 < m.console.writes ∧ m' = m.writeDone) ∨
    (∃ buffer, m.network.inHdr.length = 0 ∧
      (PacketHeader.ofBytes buffer).dest = m.network.ident ∧ m' = m.readPacket buffer) ∨
    m' = m.sendDone := by
  cases i with
  | v n =>
    cases h
    exact .inr (.inl ⟨n, rfl⟩)
  | disk =>
    obtain ⟨hp, h⟩ := Option.ite_none_right_eq_some.mp h
    cases h
    exact .inr (.inr (.inl ⟨hp, rfl⟩))
  | consoleReadPoll c =>
    cases h
    rw [checkCharAvail]
    split
    · exact .inl rfl
    · next hc =>
      cases c with
      | none => exact .inl rfl
      | some c => exact .inr (.inr (.inr (.inl ⟨c, not_not.mp hc, rfl⟩)))
  | consoleWriteDone =>
    obtain ⟨hw, h⟩ := Option.ite_none_right_eq_some.mp h
    cases h
    exact .inr (.inr (.inr (.inr (.inl ⟨hw, rfl⟩))))
  | networkReadPoll packet =>
    rw [interrupt, checkPktAvail] at h
    split at h
    · cases h
      exact .inl rfl
    · next hl =>
      cases packet with
      | none =>
        cases h
        exact .inl rfl
      | some buffer =>
        obtain ⟨hc, h⟩ := Option.ite_none_right_eq_some.mp h
        cases h
        exact .inr (.inr (.inr (.inr (.inr (.inl ⟨buffer, not_not.mp hl, hc.1, rfl⟩)))))
  | networkSendDone =>
    obtain ⟨-, h⟩ := Option.ite_none_right_eq_some.mp h
    cases h
    exact .inr (.inr (.inr (.inr (.inr (.inr rfl)))))

theorem interrupt_sched {i : Irq} (h : m.interrupt i = some m') :
    m'.toSched = m.toSched ∨ (∃ s, m'.toSched = m.toSched.up s none) ∨
      ∃ e s, e.external = true ∧ m'.toSched = (m.toSched.note e).up s none := by
  obtain rfl | ⟨n, rfl⟩ | ⟨-, rfl⟩ | ⟨c, -, rfl⟩ | ⟨-, rfl⟩ | ⟨buffer, -, -, rfl⟩ | rfl :=
    interrupt_cases h
  · exact .inl rfl
  · exact .inr (.inl ⟨_, rfl⟩)
  · exact .inr (.inr ⟨_, _, rfl, rfl⟩)
  · exact .inr (.inr ⟨.typed c, _, rfl, rfl⟩)
  · exact .inr (.inl ⟨_, rfl⟩)
  · exact .inr (.inr ⟨.arrived buffer, _, rfl, rfl⟩)
  · exact .inr (.inl ⟨_, rfl⟩)

theorem interrupt_actions {i : Irq} (h : m.interrupt i = some m') :
    Actions m.toSched m'.toSched := by
  obtain h | ⟨s, h⟩ | ⟨e, s, he, h⟩ := interrupt_sched h <;> rw [h]
  · exact .single (.up ..)
  · exact .head (.note he) (.single (.up ..))

theorem handle_actions {is : List Irq} (h : m.handle is = some m') :
    Actions m.toSched m'.toSched := by
  induction is generalizing m with
  | nil =>
    cases h
    exact .refl
  | cons i is ih =>
    obtain ⟨m₁, h₁, h⟩ := Option.bind_eq_some_iff.mp h
    exact (interrupt_actions h₁).trans (ih h)

theorem up_asleep (k : Sched) (s : SemId) (who : Option Thread) :
    (k.up s who).asleep = k.asleep := by
  simp only [Sched.up]; split <;> rfl

theorem up_currentThread (k : Sched) (s : SemId) (who : Option Thread) :
    (k.up s who).currentThread = k.currentThread := by
  simp only [Sched.up]; split <;> rfl

theorem handle_asleep {is : List Irq} (h : m.handle is = some m') : m'.asleep = m.asleep := by
  induction is generalizing m with
  | nil =>
    cases h
    rfl
  | cons i is ih =>
    obtain ⟨m₁, h₁, h⟩ := Option.bind_eq_some_iff.mp h
    rw [ih h]
    obtain h₁ | ⟨s, h₁⟩ | ⟨e, s, -, h₁⟩ := interrupt_sched h₁ <;> rw [h₁]
    · exact up_asleep ..
    · exact up_asleep ..

theorem handle_currentThread {is : List Irq} (h : m.handle is = some m') :
    m'.currentThread = m.currentThread := by
  induction is generalizing m with
  | nil =>
    cases h
    rfl
  | cons i is ih =>
    obtain ⟨m₁, h₁, h⟩ := Option.bind_eq_some_iff.mp h
    rw [ih h]
    obtain h₁ | ⟨s, h₁⟩ | ⟨e, s, -, h₁⟩ := interrupt_sched h₁ <;> rw [h₁]
    · exact up_currentThread ..
    · exact up_currentThread ..

theorem setLevel_done {now r : IntStatus} (h : m.setLevel now x = some (.done r m')) :
    (∃ m₁, m.handle x.interrupts = some m₁ ∧ m' = { m₁ with level := .on }) ∨
      m' = { m with level := now } := by
  rw [setLevel] at h
  split at h
  · obtain ⟨m₁, h₁, h⟩ := Option.map_eq_some_iff.mp h
    split at h
    · cases h
    · cases h
      exact .inl ⟨m₁, h₁, rfl⟩
  · cases h
    exact .inr rfl

theorem setLevel_again {now : IntStatus} (h : m.setLevel now x = some (.again m')) :
    ∃ m₁, m.handle x.interrupts = some m₁ ∧ x.timeSlice = true ∧
      m' = { m₁ with level := .off }.setSched m₁.toSched.yield := by
  rw [setLevel] at h
  split at h
  · obtain ⟨m₁, h₁, h⟩ := Option.map_eq_some_iff.mp h
    split at h
    · next ht =>
      cases h
      exact ⟨m₁, h₁, ht, rfl⟩
    · cases h
  · cases h

theorem on_of_setLevel_again {now : IntStatus} (h : m.setLevel now x = some (.again m')) :
    now = .on := by
  rw [setLevel] at h
  split at h
  · next hn => exact hn.1
  · cases h

/-- An operation that is to be executed again is the wait for a semaphore, or `SetLevel` at the
end of a time slice. -/
theorem execute_again {o : Op} (h : m.execute x o = some (.again m')) :
    (∃ s, o = .takeValue s ∧ (m.semaphore s).value = 0 ∧ m' = m.setSched (m.toSched.park s)) ∨
      ∃ now, o = .setLevel now ∧ m.setLevel now x = some (.again m') := by
  cases o with
  | setLevel now => exact .inr ⟨now, rfl, h⟩
  | takeValue s =>
    simp only [execute] at h
    split at h
    · next hv =>
      split at h
      · cases h
        exact .inl ⟨s, rfl, hv, rfl⟩
      · cases h
    · cases h
  | listRemove | getMail =>
    simp only [execute] at h
    split at h <;> cases h
  | sleepOn | assert | fork =>
    simp only [execute] at h
    split at h <;> cases h
  | enter | leave | currentThread | giveValue | getHolder | setHolder | wakeOne | wakeAll
  | getReaders | setReaders | listIsEmpty | listAppend | getActive | readRequest | writeRequest
  | getPutBusy | putChar | getChar | getNetwork | networkSend | networkReceive | getPostOffice
  | newMail | yield | finish | rounds | stop => cases h

theorem execute_actions {o : Op} {r : ops.Res o} (ha : m.asleep = false)
    (h : m.execute x o = some (.done r m')) : Actions m.toSched m'.toSched := by
  cases o with
  | setLevel now =>
    obtain ⟨m₁, h₁, rfl⟩ | rfl := setLevel_done h
    · change Actions m.toSched m₁.toSched
      exact handle_actions h₁
    · exact .refl
  | takeValue s =>
    simp only [execute] at h
    split at h
    · split at h <;> cases h
    · next hv =>
      cases h
      exact .single (.down ha hv)
  | sleepOn c =>
    simp only [execute] at h
    split at h
    · cases h
      exact .single (.wait c ha)
    · cases h
  | listRemove q =>
    simp only [execute] at h
    split at h
    · cases h
      exact .refl
    · cases h
      exact .single (.note rfl)
  | getMail address =>
    simp only [execute] at h
    split at h
    · cases h
    · cases h
      exact .single (.note rfl)
  | assert a b =>
    simp only [execute] at h
    split at h
    · cases h
      exact .refl
    · cases h
  | fork t =>
    simp only [execute] at h
    split at h
    · next ht =>
      cases h
      exact .single (.fork ht)
    · cases h
  | stop => cases h
  | enter | leave | listAppend | readRequest | writeRequest | putChar | getChar | networkSend
  | networkReceive =>
    cases h
    exact .single (.note rfl)
  | currentThread | getHolder | setHolder | getReaders | setReaders | listIsEmpty | getActive
  | getPutBusy | getNetwork | getPostOffice | newMail | rounds =>
    cases h
    exact .refl
  | giveValue s =>
    cases h
    exact .single (.up ..)
  | wakeOne c =>
    cases h
    exact .single (.signal ..)
  | wakeAll c =>
    cases h
    exact Sched.broadcast_actions ..
  | yield =>
    cases h
    exact .single (.yield ha)
  | finish =>
    cases h
    exact .single (.finish ha)

end Machine

variable {t : Thread} {o : Op} {x : Choice} {m m' : Machine}

theorem exec_eq_some {e : Effect (ops.Res o) Machine} (h : platform.exec t o x m = some e) :
    m.currentThread = t ∧ m.asleep = false ∧ m.execute x o = some e := by
  simp only [platform] at h
  split at h
  · next hc => exact ⟨hc.1, hc.2, h⟩
  · cases h

theorem exec_of_execute {e : Effect (ops.Res o) Machine} (ht : m.currentThread = t)
    (ha : m.asleep = false)
    (h : m.execute x o = some e) : platform.exec t o x m = some e := by
  simp only [platform]
  rwa [if_pos ⟨ht, ha⟩]

theorem env_eq_some (h : platform.env x m = some m') :
    m.asleep = true ∧ ((∃ k, m.dispatch = some k ∧ m' = m.setSched k) ∨
      m.handle x.interrupts = some m') := by
  simp only [platform] at h
  split at h
  · cases h
  · next ha =>
    refine ⟨by simpa using ha, ?_⟩
    split at h
    · next k hd =>
      cases h
      exact .inl ⟨k, hd, rfl⟩
    · exact .inr h

/-- Every move of the machine consists of actions. -/
theorem run_actions {A : Tasks ops Machine Unit Thread → Move Thread Choice → Prop}
    {c c' : Tasks ops Machine Unit Thread} (h : platform.Run A c c') :
    Actions c.state.toSched c'.state.toSched := by
  refine h.invariant (I := fun m => Actions c.state.toSched m.toSched) ?_ ?_ ?_ .refl
  · intro t o x m r m' hI he
    obtain ⟨-, ha, he⟩ := exec_eq_some he
    exact hI.trans (Machine.execute_actions ha he)
  · intro t o x m m' hI he
    obtain ⟨-, ha, he⟩ := exec_eq_some he
    obtain ⟨s, rfl, hv, rfl⟩ | ⟨now, rfl, he⟩ := Machine.execute_again he
    · exact hI.tail (.park ha hv)
    · obtain ⟨m₁, h₁, -, rfl⟩ := Machine.setLevel_again he
      refine (hI.trans (Machine.handle_actions h₁)).tail (.yield ?_)
      rw [Machine.handle_asleep h₁, ha]
  · intro x m m' hI he
    obtain ⟨ha, ⟨k, hd, rfl⟩ | he⟩ := env_eq_some he
    · exact hI.tail (.dispatch ha hd)
    · exact hI.trans (Machine.handle_actions he)

/-- The states that the machine reaches when it runs the given programs. -/
def Reachable (value : SemId → Int) (prog : Thread → Prog Unit)
    (c : Tasks ops Machine Unit Thread) : Prop :=
  platform.Run (fun _ _ => True) ⟨prog, .initial value⟩ c

end Nachos.Threads
