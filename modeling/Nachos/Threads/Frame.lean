import Nachos.Threads.Action

/-! What an operation leaves alone: the objects that it does not touch. Interrupt handlers and
the scheduler touch nothing but the queues, the semaphores that threads share with handlers,
and the devices. -/

namespace Nachos.Threads
open Lib Program Platform

inductive Obj where
  | semaphore (s : SemId)
  | holder (l : LockId)
  | condition (c : CondId)
  | readers (w : Nat)
  | list (q : Nat)
  | disk
  | keyboard
  | display
  /-- What has arrived from the network. -/
  | inbox
  /-- What is being sent to the network. -/
  | outbox
  | postOffice
  | assertion (a : Assertion)
  /-- The record of calls and returns. -/
  | calls

def Op.touches : Op → Obj → Prop
  | .enter _, x | .leave _, x => x = .calls
  | .takeValue s, x | .giveValue s, x => x = .semaphore s
  | .setHolder l _, x => x = .holder l
  | .sleepOn c, x | .wakeOne c, x | .wakeAll c, x => x = .condition c
  | .setReaders w _, x => x = .readers w
  | .listAppend q _, x | .listRemove q, x => x = .list q
  | .readRequest _, x | .writeRequest .., x => x = .disk
  | .putChar _, x => x = .display
  | .getChar, x => x = .keyboard
  | .networkSend .., x => x = .outbox
  | .networkReceive, x => x = .inbox
  | .newMail _, x | .getMail _, x => x = .postOffice
  | .assert a _, x => x = .assertion a
  | _, _ => False

def Event.obj : Event → Option Obj
  | .enter .. | .leave .. => some .calls
  | .down s _ | .up s _ | .slept s _ | .woke s _ => some (.semaphore s)
  | .parked c _ | .signalled c _ => some (.condition c)
  | .put q _ | .took q _ => some (.list q)
  | .request _ | .interrupt => some .disk
  | .shown .. => some .display
  | .typed _ | .got .. => some .keyboard
  | .sent .. => some .outbox
  | .arrived _ | .pulled _ => some .inbox
  | .opened .. => some .postOffice
  | _ => none

/-- All that changed, and all that was recorded, is about the objects `T`. -/
structure Frame (T : Obj → Prop) (m m' : Machine) : Prop where
  value : ∀ s, ¬ T (.semaphore s) → (m'.semaphore s).value = (m.semaphore s).value
  holder : ∀ l, ¬ T (.holder l) → m'.threadHoldTheLock l = m.threadHoldTheLock l
  queue : ∀ c, ¬ T (.condition c) → m'.queue c = m.queue c
  readers : ∀ w, ¬ T (.readers w) → m'.readers w = m.readers w
  list : ∀ q, ¬ T (.list q) → m'.list q = m.list q
  disk : ¬ T .disk → m'.active = m.active ∧ m'.pending = m.pending
  keyboard : ¬ T .keyboard → m'.console.incoming = m.console.incoming
  display : ¬ T .display →
    m'.console.putBusy = m.console.putBusy ∧ m'.console.writes = m.console.writes
  inbox : ¬ T .inbox → m'.network.inHdr = m.network.inHdr ∧ m'.network.inbox = m.network.inbox
  outbox : ¬ T .outbox →
    m'.network.sendBusy = m.network.sendBusy ∧ m'.network.sends = m.network.sends
  postOffice : ¬ T .postOffice → m'.postOffice.mail = m.postOffice.mail
  /-- The address and the number of mailboxes never change. -/
  named : m'.network.ident = m.network.ident ∧ m'.postOffice.netAddr = m.postOffice.netAddr ∧
    m'.postOffice.numBoxes = m.postOffice.numBoxes
  trace : ∃ new, m'.trace = new ++ m.trace ∧ ∀ e ∈ new, ∀ x, e.obj = some x → T x

namespace Frame
variable {T T' : Obj → Prop} {m m' m'' : Machine}

theorem refl (T : Obj → Prop) (m : Machine) : Frame T m m where
  value _ _ := rfl
  holder _ _ := rfl
  queue _ _ := rfl
  readers _ _ := rfl
  list _ _ := rfl
  disk _ := ⟨rfl, rfl⟩
  keyboard _ := rfl
  display _ := ⟨rfl, rfl⟩
  inbox _ := ⟨rfl, rfl⟩
  outbox _ := ⟨rfl, rfl⟩
  postOffice _ := rfl
  named := ⟨rfl, rfl, rfl⟩
  trace := ⟨[], rfl, by simp⟩

theorem note (m : Machine) {e : Event} (he : ∀ x, e.obj = some x → T x) :
    Frame T m (m.setSched (m.toSched.note e)) :=
  { Frame.refl T m with trace := ⟨[e], rfl, by simpa using he⟩ }

theorem mono (h : Frame T m m') (hT : ∀ x, T x → T' x) : Frame T' m m' where
  value s hs := h.value s (mt (hT _) hs)
  holder l hl := h.holder l (mt (hT _) hl)
  queue c hc := h.queue c (mt (hT _) hc)
  readers w hw := h.readers w (mt (hT _) hw)
  list q hq := h.list q (mt (hT _) hq)
  disk hd := h.disk (mt (hT _) hd)
  keyboard hk := h.keyboard (mt (hT _) hk)
  display hd := h.display (mt (hT _) hd)
  inbox hi := h.inbox (mt (hT _) hi)
  outbox ho := h.outbox (mt (hT _) ho)
  postOffice hp := h.postOffice (mt (hT _) hp)
  named := h.named
  trace := by
    obtain ⟨new, hn, hnew⟩ := h.trace
    exact ⟨new, hn, fun e he x hx => hT x (hnew e he x hx)⟩

theorem trans (h : Frame T m m') (h' : Frame T m' m'') : Frame T m m'' where
  value s hs := (h'.value s hs).trans (h.value s hs)
  holder l hl := (h'.holder l hl).trans (h.holder l hl)
  queue c hc := (h'.queue c hc).trans (h.queue c hc)
  readers w hw := (h'.readers w hw).trans (h.readers w hw)
  list q hq := (h'.list q hq).trans (h.list q hq)
  disk hd := ⟨(h'.disk hd).1.trans (h.disk hd).1, (h'.disk hd).2.trans (h.disk hd).2⟩
  keyboard hk := (h'.keyboard hk).trans (h.keyboard hk)
  display hd := ⟨(h'.display hd).1.trans (h.display hd).1,
    (h'.display hd).2.trans (h.display hd).2⟩
  inbox hi := ⟨(h'.inbox hi).1.trans (h.inbox hi).1, (h'.inbox hi).2.trans (h.inbox hi).2⟩
  outbox ho := ⟨(h'.outbox ho).1.trans (h.outbox ho).1, (h'.outbox ho).2.trans (h.outbox ho).2⟩
  postOffice hp := (h'.postOffice hp).trans (h.postOffice hp)
  named := ⟨h'.named.1.trans h.named.1, h'.named.2.1.trans h.named.2.1,
    h'.named.2.2.trans h.named.2.2⟩
  trace := by
    obtain ⟨new, hn, hnew⟩ := h.trace
    obtain ⟨new', hn', hnew'⟩ := h'.trace
    refine ⟨new' ++ new, by rw [hn', hn, List.append_assoc], fun e he => ?_⟩
    exact (List.mem_append.mp he).elim (hnew' e) (hnew e)

theorem trace_eq {β : Type} {F : List Event → β} (h : Frame T m m')
    (hF : ∀ e h, (∀ x, e.obj = some x → T x) → F (e :: h) = F h) : F m'.trace = F m.trace := by
  obtain ⟨new, hn, hnew⟩ := h.trace
  rw [hn]
  clear hn
  induction new with
  | nil => rfl
  | cons e new ih =>
    rw [List.cons_append, hF e _ (hnew e (List.mem_cons_self ..))]
    exact ih fun e he => hnew e (List.mem_cons_of_mem _ he)

end Frame

/-! ## Positions -/

/-- Whether the latest of the events `on` and `off` is an `on`. -/
def since (on off : Event → Bool) : List Event → Bool
  | [] => false
  | e :: h => on e || (!off e && since on off h)

section since
variable {on off : Event → Bool} {e : Event} {h : List Event}

theorem since_cons_on (he : on e = true) : since on off (e :: h) = true := by
  rw [since, he, Bool.true_or]

theorem since_cons_off (hn : on e = false) (he : off e = true) : since on off (e :: h) = false := by
  rw [since, hn, he]
  rfl

theorem since_cons_of_not (hn : on e = false) (hf : off e = false) :
    since on off (e :: h) = since on off h := by
  rw [since, hn, hf]
  rfl

theorem Frame.since_eq {T : Obj → Prop} {m m' : Machine} (h : Frame T m m')
    (hx : ∀ e, on e = true ∨ off e = true → ∃ x, e.obj = some x ∧ ¬ T x) :
    since on off m'.trace = since on off m.trace := by
  refine h.trace_eq fun e h he => ?_
  have hnot : ¬ (on e = true ∨ off e = true) := fun hoo => by
    obtain ⟨x, hox, hT⟩ := hx e hoo
    exact hT (he x hox)
  rw [not_or, Bool.not_eq_true, Bool.not_eq_true] at hnot
  exact since_cons_of_not hnot.1 hnot.2

/-- `V` records that it woke a thread before it records itself. -/
theorem since_up {k : Sched} {s : SemId} {w : Option Thread}
    (hw : ∀ u, on (.woke s u) = false ∧ off (.woke s u) = false)
    (hr : ∀ u, on (.ready u) = false ∧ off (.ready u) = false) :
    since on off (k.up s w).trace = since on off (.up s w :: k.trace) := by
  rw [Sched.up]
  split
  · rfl
  · next u rest _ =>
    simp only [Sched.note_trace, Sched.readyToRun_trace, Sched.setSemaphore_trace, since, hw, hr]
    simp

end since

/-! ## Operations -/

namespace Sched
variable {k : Sched}

theorem trace_broadcast (c : CondId) :
    ∃ new, (k.broadcast c).trace = new ++ k.trace ∧ ∀ e ∈ new, ∃ u, e = .signalled c u ∨
      e = .ready u := by
  rw [broadcast]
  generalize k.queue c = q
  induction q generalizing k with
  | nil => exact ⟨[], rfl, by simp⟩
  | cons t q ih =>
    obtain ⟨new, hn, hnew⟩ := ih (k := k.signal c)
    rw [List.foldl_cons, hn, signal]
    split
    · exact ⟨new, rfl, hnew⟩
    · next u rest _ =>
      refine ⟨new ++ [.ready u, .signalled c u], by simp, fun e he => ?_⟩
      rcases List.mem_append.mp he with he | he
      · exact hnew e he
      · simp only [List.mem_cons, List.not_mem_nil, or_false] at he
        exact ⟨u, he.symm⟩

theorem broadcast_frame (c : CondId) : (k.broadcast c).semaphore = k.semaphore ∧
    ∀ c' ≠ c, (k.broadcast c).queue c' = k.queue c' := by
  rw [broadcast]
  generalize k.queue c = q
  induction q generalizing k with
  | nil => exact ⟨rfl, fun _ _ => rfl⟩
  | cons t q ih =>
    obtain ⟨hs, hq⟩ := ih (k := k.signal c)
    have h₁ : (k.signal c).semaphore = k.semaphore := by
      rw [signal]
      split <;> rfl
    have h₂ : ∀ c' ≠ c, (k.signal c).queue c' = k.queue c' := fun c' hc => by
      rw [signal]
      split
      · rfl
      · simp [hc]
    exact ⟨hs.trans h₁, fun c' hc => (hq c' hc).trans (h₂ c' hc)⟩

theorem value_up {s s' : SemId} (hs : s' ≠ s) (w : Option Thread) :
    (k.up s w).semaphore s' = k.semaphore s' := by
  rw [up]
  split <;> simp [hs]

theorem queue_up {s : SemId} (w : Option Thread) : (k.up s w).queue = k.queue := by
  rw [up]
  split <;> rfl

theorem trace_up {s : SemId} (w : Option Thread) : ∃ new, (k.up s w).trace = new ++ k.trace ∧
    ∀ e ∈ new, e = .up s w ∨ ∃ u, e = .woke s u ∨ e = .ready u := by
  rw [up]
  split
  · exact ⟨[.up s w], rfl, by simp⟩
  · next t rest _ => exact ⟨[.up s w, .ready t, .woke s t], rfl, by simp⟩

theorem value_up_self {s : SemId} (w : Option Thread) :
    ((k.up s w).semaphore s).value = (k.semaphore s).value + 1 := by
  rw [up]
  split <;> simp

end Sched

variable {t : Thread} {o : Op} {x : Choice} {m m' : Machine} {e : Effect (ops.Res o) Machine}

theorem frame_up (m : Machine) (s : SemId) (w : Option Thread) :
    Frame (· = .semaphore s) m (m.setSched (m.toSched.up s w)) := by
  obtain ⟨new, hn, hnew⟩ := Sched.trace_up (k := m.toSched) (s := s) w
  refine { Frame.refl (· = .semaphore s) m with
    value := fun s' hs' => ?_
    queue := fun c _ => congrFun (Sched.queue_up _) c
    trace := ⟨new, hn, fun e he x hx => ?_⟩ }
  · exact congrArg Semaphore.value (Sched.value_up (mt (congrArg Obj.semaphore) hs') w)
  · obtain rfl | ⟨u, rfl | rfl⟩ := hnew e he <;> cases hx <;> rfl

theorem frame_park (m : Machine) (s : SemId) :
    Frame (· = .semaphore s) m (m.setSched (m.toSched.park s)) := by
  refine { Frame.refl (· = .semaphore s) m with
    value := fun s' hs => ?_
    trace := ⟨[_], rfl, by simp [Event.obj]⟩ }
  have hs' : s' ≠ s := mt (congrArg Obj.semaphore) hs
  simp [Sched.park, hs']

theorem frame_down (m : Machine) (s : SemId) :
    Frame (· = .semaphore s) m (m.setSched (m.toSched.down s)) := by
  refine { Frame.refl (· = .semaphore s) m with
    value := fun s' hs => ?_
    trace := ⟨[_], rfl, by simp [Event.obj]⟩ }
  have hs' : s' ≠ s := mt (congrArg Obj.semaphore) hs
  simp [Sched.down, hs']

theorem yield_frame {T : Obj → Prop} (m : Machine) : Frame T m (m.setSched m.toSched.yield) := by
  simp only [Machine.setSched, Sched.yield]
  split
  · exact .refl T m
  · next u rest _ =>
    exact { Frame.refl T m with
      value := by simp
      queue := by simp
      trace := ⟨[.dispatch u, .ready m.currentThread], by simp, by simp [Event.obj]⟩ }

theorem exec_frame (ho : ∀ now, o ≠ .setLevel now) (h : platform.exec t o x m = some e) :
    Frame o.touches m e.state := by
  obtain ⟨rfl, ha, h⟩ := exec_eq_some h
  cases o with
  | setLevel now => exact absurd rfl (ho now)
  | stop => cases h
  | currentThread | getHolder | getReaders | listIsEmpty | getActive | getPutBusy | getNetwork
  | getPostOffice | rounds =>
    cases h
    exact .refl ..
  | enter c | leave c =>
    cases h
    exact .note m (by simp [Event.obj, Op.touches])
  | takeValue s =>
    simp only [Machine.execute] at h
    split at h
    · split at h
      · cases h
        exact frame_park m s
      · cases h
    · cases h
      exact frame_down m s
  | giveValue s =>
    cases h
    exact frame_up m s _
  | setHolder l u =>
    cases h
    exact { Frame.refl (Op.touches _) m with
      holder := fun l' hl => Function.update_of_ne (mt (congrArg Obj.holder) hl) _ _ }
  | sleepOn c =>
    simp only [Machine.execute] at h
    split at h
    · cases h
      exact { Frame.refl (Op.touches _) m with
        queue := fun c' hc => Function.update_of_ne (mt (congrArg Obj.condition) hc) _ _
        trace := ⟨[_], rfl, by simp [Event.obj, Op.touches]⟩ }
    · cases h
  | wakeOne c =>
    cases h
    refine { Frame.refl (Op.touches _) m with
      value := fun s _ => ?_
      queue := fun c' hc => ?_
      trace := ?_ }
    · simp only [Effect.state, Machine.setSched, Sched.signal]
      split <;> rfl
    · have hc' : c' ≠ c := mt (congrArg Obj.condition) hc
      simp only [Effect.state, Machine.setSched, Sched.signal]
      split
      · rfl
      · simp [hc']
    · simp only [Effect.state, Machine.setSched, Sched.signal]
      split
      · exact ⟨[], rfl, by simp⟩
      · next u rest _ => exact ⟨[.ready u, .signalled c u], rfl, by simp [Event.obj, Op.touches]⟩
  | wakeAll c =>
    cases h
    obtain ⟨new, hn, hnew⟩ := Sched.trace_broadcast (k := m.toSched) c
    refine { Frame.refl (Op.touches _) m with
      value := fun s _ => congrArg Semaphore.value (congrFun (Sched.broadcast_frame c).1 s)
      queue := fun c' hc => (Sched.broadcast_frame c).2 c' (mt (congrArg Obj.condition) hc)
      trace := ⟨new, hn, fun e he y hy => ?_⟩ }
    obtain ⟨u, rfl | rfl⟩ := hnew e he <;> simp_all [Event.obj, Op.touches]
  | setReaders w n =>
    cases h
    exact { Frame.refl (Op.touches _) m with
      readers := fun w' hw => Function.update_of_ne (mt (congrArg Obj.readers) hw) _ _ }
  | listAppend q item =>
    cases h
    exact { Frame.refl (Op.touches _) m with
      list := fun q' hq => Function.update_of_ne (mt (congrArg Obj.list) hq) _ _
      trace := ⟨[_], rfl, by simp [Event.obj, Op.touches]⟩ }
  | listRemove q =>
    simp only [Machine.execute] at h
    split at h
    · cases h
      exact .refl ..
    · cases h
      exact { Frame.refl (Op.touches _) m with
        list := fun q' hq => Function.update_of_ne (mt (congrArg Obj.list) hq) _ _
        trace := ⟨[_], rfl, by simp [Event.obj, Op.touches]⟩ }
  | readRequest n | writeRequest n d =>
    cases h
    exact { Frame.refl (Op.touches _) m with
      disk := fun hd => absurd rfl hd
      trace := ⟨[_], rfl, by simp [Event.obj, Op.touches]⟩ }
  | putChar =>
    cases h
    exact { Frame.refl (Op.touches _) m with
      display := fun hd => absurd rfl hd
      trace := ⟨[_], rfl, by simp [Event.obj, Op.touches]⟩ }
  | getChar =>
    cases h
    exact { Frame.refl (Op.touches _) m with
      keyboard := fun hk => absurd rfl hk
      trace := ⟨[_], rfl, by simp [Event.obj, Op.touches]⟩ }
  | networkSend =>
    cases h
    exact { Frame.refl (Op.touches _) m with
      outbox := fun ho => absurd rfl ho
      trace := ⟨[_], rfl, by simp [Event.obj, Op.touches]⟩ }
  | networkReceive =>
    cases h
    exact { Frame.refl (Op.touches _) m with
      inbox := fun hi => absurd rfl hi
      trace := ⟨[_], rfl, by simp [Event.obj, Op.touches]⟩ }
  | newMail mail =>
    cases h
    exact { Frame.refl (Op.touches _) m with postOffice := fun hp => absurd rfl hp }
  | getMail address =>
    simp only [Machine.execute] at h
    split at h
    · cases h
    · cases h
      exact .note m (by simp [Event.obj, Op.touches])
  | assert a b =>
    simp only [Machine.execute] at h
    split at h
    · cases h
      exact .refl ..
    · cases h
  | fork u =>
    simp only [Machine.execute] at h
    split at h
    · cases h
      exact { Frame.refl (Op.touches _) m with
        trace := ⟨[.ready u, .forked u], rfl, by simp [Event.obj, Op.touches]⟩ }
    · cases h
  | yield =>
    cases h
    exact yield_frame m
  | finish =>
    cases h
    exact { Frame.refl (Op.touches _) m with
      trace := ⟨[_], rfl, by simp [Event.obj, Op.touches]⟩ }

/-! ## Interrupts and turns of other threads -/

/-- The objects that interrupt handlers use too. -/
def Obj.Shared : Obj → Prop
  | .semaphore (.user _) | .semaphore .disk | .disk => True
  | .semaphore .readAvail | .keyboard | .semaphore .writeDone | .display => True
  | .semaphore .messageAvailable | .inbox | .semaphore .messageSent | .outbox => True
  | _ => False

def Apart (T P : Obj → Prop) : Prop := ∀ y, P y → ¬ T y

section noise
variable {T P : Obj → Prop}

theorem apart_false : Apart (fun _ => False) P := fun _ _ => id

theorem Apart.or_shared (h : Apart T P) (hs : Apart Obj.Shared P) :
    Apart (fun y => T y ∨ y.Shared) P :=
  fun y hy ht => ht.elim (h y hy) (hs y hy)

theorem note_up_frame (m : Machine) (s : SemId) {e : Event} {y : Obj} (he : e.obj = some y) :
    Frame (fun x => x = y ∨ x = .semaphore s) m
      (m.setSched ((m.toSched.note e).up s none)) := by
  have hnote : Frame (fun x => x = y ∨ x = .semaphore s) m (m.setSched (m.toSched.note e)) :=
    .note m fun x hx => .inl (Option.some.inj (hx.symm.trans he))
  exact hnote.trans ((frame_up _ s none).mono fun _ => .inr)

theorem handleInterrupt_frame (m : Machine) :
    Frame (fun x => x = .disk ∨ x = .semaphore .disk) m m.handleInterrupt :=
  { note_up_frame m .disk rfl with disk := fun hd => absurd (.inl rfl) hd }

theorem readChar_frame (m : Machine) (c : Byte) :
    Frame (fun x => x = .keyboard ∨ x = .semaphore .readAvail) m (m.readChar c) :=
  { note_up_frame m .readAvail rfl with keyboard := fun hk => absurd (.inl rfl) hk }

theorem writeDone_frame (m : Machine) :
    Frame (fun x => x = .display ∨ x = .semaphore .writeDone) m m.writeDone :=
  { (frame_up m .writeDone none).mono fun _ => .inr with
    display := fun hd => absurd (.inl rfl) hd }

theorem readPacket_frame (m : Machine) (buffer : List Byte) :
    Frame (fun x => x = .inbox ∨ x = .semaphore .messageAvailable) m (m.readPacket buffer) :=
  { note_up_frame m .messageAvailable rfl with inbox := fun hi => absurd (.inl rfl) hi }

theorem sendDone_frame (m : Machine) :
    Frame (fun x => x = .outbox ∨ x = .semaphore .messageSent) m m.sendDone :=
  { (frame_up m .messageSent none).mono fun _ => .inr with
    outbox := fun ho => absurd (.inl rfl) ho }

theorem interrupt_frame {i : Irq} (h : m.interrupt i = some m') : Frame Obj.Shared m m' := by
  obtain rfl | ⟨n, rfl⟩ | ⟨-, rfl⟩ | ⟨c, -, rfl⟩ | ⟨-, rfl⟩ | ⟨buffer, -, -, rfl⟩ | rfl :=
    Machine.interrupt_cases h
  · exact .refl _ _
  · exact (frame_up m (.user n) none).mono fun _ hx => hx ▸ trivial
  · exact (handleInterrupt_frame m).mono (by simp [Obj.Shared])
  · exact (readChar_frame m c).mono (by simp [Obj.Shared])
  · exact (writeDone_frame m).mono (by simp [Obj.Shared])
  · exact (readPacket_frame m buffer).mono (by simp [Obj.Shared])
  · exact (sendDone_frame m).mono (by simp [Obj.Shared])

theorem handle_frame {is : List Irq} (h : m.handle is = some m') : Frame Obj.Shared m m' := by
  induction is generalizing m with
  | nil =>
    cases h
    exact .refl _ _
  | cons i is ih =>
    obtain ⟨m₁, h₁, h⟩ := Option.bind_eq_some_iff.mp h
    exact (interrupt_frame h₁).trans (ih h)

theorem level_frame (m : Machine) (l : IntStatus) : Frame T m { m with level := l } :=
  { Frame.refl T m with }

theorem dispatch_frame {k : Sched} (h : m.dispatch = some k) : Frame T m (m.setSched k) := by
  rw [Sched.dispatch] at h
  split at h
  · cases h
  · next u rest _ =>
    cases h
    exact { Frame.refl T m with
      value := by simp
      queue := by simp
      trace := ⟨[.dispatch u], by simp, by simp [Event.obj]⟩ }

theorem setLevel_frame {now : IntStatus} {e : Effect IntStatus Machine}
    (h : platform.exec t (.setLevel now) x m = some e) :
    ∃ m₁ is, m.handle is = some m₁ ∧ Frame (fun _ => False) m₁ e.state := by
  obtain ⟨-, -, h⟩ := exec_eq_some h
  cases e with
  | done r m' =>
    obtain ⟨m₁, h₁, rfl⟩ | rfl := Machine.setLevel_done h
    · exact ⟨m₁, _, h₁, level_frame m₁ .on⟩
    · exact ⟨m, [], rfl, level_frame m now⟩
  | again m' =>
    obtain ⟨m₁, h₁, -, rfl⟩ := Machine.setLevel_again h
    exact ⟨m₁, _, h₁, (yield_frame m₁).trans (level_frame _ .off)⟩

theorem env_frame (h : platform.env x m = some m') :
    ∃ m₁ is, m.handle is = some m₁ ∧ Frame (fun _ => False) m₁ m' := by
  obtain ⟨-, ⟨k, hd, rfl⟩ | h⟩ := env_eq_some h
  · exact ⟨m, [], rfl, dispatch_frame hd⟩
  · exact ⟨m', _, h, .refl _ _⟩

end noise

/-! ## The ghost rule for operations and threads -/

/-- The client keeps to a protocol: in each state, `next` says which calls it may make. -/
def Follows {β : Type} (next : β → Call → Option β) : β → Client → Prop
  | _, .ret _ => True
  | b, .call c k => ∃ b', next b c = some b' ∧ ∀ r, Follows next b' (k r)

theorem follows_any (p : Client) : Follows (fun _ _ => some ()) () p := by
  induction p with
  | ret _ => trivial
  | call c k ih => exact ⟨(), rfl, ih⟩

theorem Follows.mono {β β' : Type} {next : β → Call → Option β} {next' : β' → Call → Option β'}
    (f : β → β') (hf : ∀ b c b', next b c = some b' → next' (f b) c = some (f b')) {b : β}
    {p : Client} (h : Follows next b p) : Follows next' (f b) p := by
  induction p generalizing b with
  | ret _ => trivial
  | call c k ih =>
    obtain ⟨b', hc, hk⟩ := h
    exact ⟨f b', hf b c b' hc, fun r => ih r (hk r)⟩

def Op.retried : Op → Bool
  | .takeValue _ | .setLevel _ => true
  | _ => false

section rules
variable {γ : Type} {D : Discipline ops Machine Thread Choice γ} {g : γ}

theorem safe_once {Q : ops.Res o → γ → Prop} (ho : o.retried = false) (hl : D.Legal o)
    (h : ∀ G m x r m', D.Inv G m → G t = g → D.Allowed m t o x → m.currentThread = t →
      m.asleep = false → m.execute x o = some (.done r m') →
      ∃ g', D.Inv (Function.update G t g') m' ∧ Q r g') :
    platform.Safe D t (perform (S := ops) o) Q g := by
  refine ⟨hl, fun G m x hI hg hA => ⟨fun r m' he => ?_, fun m' he => ?_⟩⟩
  · obtain ⟨ht, ha, he⟩ := exec_eq_some he
    exact h G m x r m' hI hg hA ht ha he
  · obtain ⟨-, -, he⟩ := exec_eq_some he
    obtain ⟨s, rfl, -⟩ | ⟨now, rfl, -⟩ := Machine.execute_again he <;> cases ho

theorem safe_takeValue {Q : Unit → γ → Prop} {s : SemId} (hl : D.Legal (.takeValue s))
    (hpark : ∀ G m, D.Inv G m → G t = g → m.currentThread = t → m.asleep = false →
      (m.semaphore s).value = 0 → D.Inv G (m.setSched (m.toSched.park s)))
    (hdown : ∀ G m x, D.Inv G m → G t = g → D.Allowed m t (.takeValue s) x → m.currentThread = t →
      m.asleep = false → (m.semaphore s).value ≠ 0 →
      ∃ g', D.Inv (Function.update G t g') (m.setSched (m.toSched.down s)) ∧ Q () g') :
    platform.Safe D t (takeValue s) Q g := by
  refine ⟨hl, fun G m x hI hg hA => ⟨fun r m' he => ?_, fun m' he => ?_⟩⟩
  · obtain ⟨ht, ha, he⟩ := exec_eq_some he
    simp only [Machine.execute] at he
    split at he
    · split at he <;> cases he
    · next hv =>
      cases he
      exact hdown G m x hI hg hA ht ha hv
  · obtain ⟨ht, ha, he⟩ := exec_eq_some he
    obtain ⟨s', hs, hv, rfl⟩ | ⟨now, h, -⟩ := Machine.execute_again he
    · cases hs
      exact hpark G m hI hg ht ha hv
    · cases h

theorem Op.assert_true_ne (a b : Assertion) : Op.assert a true ≠ .assert b false := by
  simp

theorem safe_look {Q : ops.Res o → γ → Prop} (ho : o.retried = false) (hl : D.Legal o)
    (h : ∀ G m x r m', D.Inv G m → G t = g → m.currentThread = t →
      m.execute x o = some (.done r m') →
      m' = m ∧ Q r g) : platform.Safe D t (perform (S := ops) o) Q g := by
  refine safe_once ho hl fun G m x r m' hI hg _ ht _ he => ?_
  obtain ⟨rfl, hQ⟩ := h G m x r m' hI hg ht he
  exact ⟨g, by rwa [← hg, Function.update_eq_self], hQ⟩

theorem safe_assert {a : Assertion} {b : Bool} (hl : D.Legal (.assert a b)) :
    platform.Safe D t (assert a b) (fun _ g' => b = true ∧ g' = g) g := by
  refine safe_look rfl hl fun G m x r m' _ _ _ he => ?_
  obtain ⟨hb, he⟩ := Option.ite_none_right_eq_some.mp he
  cases he
  exact ⟨rfl, hb, rfl⟩

theorem safe_currentThread (hl : D.Legal .currentThread) :
    platform.Safe D t currentThread (fun u g' => u = t ∧ g' = g) g := by
  refine safe_look rfl hl fun G m x r m' _ _ ht he => ?_
  cases he
  exact ⟨rfl, ht, rfl⟩

section routines
variable {g₁ : γ} {Q V : Unit → γ → Prop} {s : SemId} {l : LockId}

theorem safe_p
    (hset : ∀ now q, q = g ∨ Q () q → platform.Safe D t (setLevel now) (fun _ q' => q' = q) q)
    (htake : platform.Safe D t (takeValue s) Q g) : platform.Safe D t (Semaphore.p s) Q g := by
  refine (hset .off g (.inl rfl)).bind_eq fun old => htake.bind fun _ q hq => ?_
  exact (hset old q (.inr hq)).bind_eq fun _ => hq

theorem safe_v
    (hset : ∀ now q, q = g ∨ Q () q → platform.Safe D t (setLevel now) (fun _ q' => q' = q) q)
    (hgive : platform.Safe D t (giveValue s) Q g) : platform.Safe D t (Semaphore.v s) Q g := by
  refine (hset .off g (.inl rfl)).bind_eq fun old => hgive.bind fun _ q hq => ?_
  exact (hset old q (.inr hq)).bind_eq fun _ => hq

theorem safe_acquire (hl : D.Legal .currentThread)
    (hp : platform.Safe D t (Semaphore.p (.lock l)) (fun _ q => q = g₁) g)
    (hset : platform.Safe D t (setHolder l (some t)) Q g₁) :
    platform.Safe D t (Lock.acquire l) Q g := by
  refine hp.bind_eq fun _ => (safe_currentThread hl).bind fun u q hq => ?_
  obtain ⟨rfl, rfl⟩ := hq
  exact hset

theorem safe_isHeldByCurrentThread {R : Bool → γ → Prop} (hl : D.Legal .currentThread)
    (hget : platform.Safe D t (getHolder l) (fun v q => R (v == some t) q) g) :
    platform.Safe D t (Lock.isHeldByCurrentThread l) R g := by
  refine hget.bind fun v q hv => (safe_currentThread hl).bind fun u q' hq => ?_
  obtain ⟨rfl, rfl⟩ := hq
  exact hv

theorem safe_release (g₁ : γ)
    (hheld : platform.Safe D t (Lock.isHeldByCurrentThread l)
      (fun b q => if b then q = g₁ else Q () q) g)
    (hv : platform.Safe D t (Semaphore.v (.lock l)) V g₁)
    (hset : ∀ q, V () q → platform.Safe D t (setHolder l none) Q q) :
    platform.Safe D t (Lock.release l) Q g := by
  refine hheld.bind fun b q hb => ?_
  cases b with
  | false => exact hb
  | true =>
    have hq : q = g₁ := hb
    subst hq
    exact hv.bind fun _ q hq => hset q hq

end routines

/-- `I` holds before each test of the condition, `B` before each round, `K` after the loop. -/
theorem safe_whileLoop {I B K : γ → Prop} {cond : Prog Bool} {body : Prog Unit}
    (hrounds : D.Legal .rounds) (hstop : D.Legal .stop)
    (hcond : ∀ g, I g → platform.Safe D t cond (fun b g' => if b then B g' else K g') g)
    (hbody : ∀ g, B g → platform.Safe D t body (fun _ => I) g) (hg : I g) :
    platform.Safe D t (whileLoop cond body) (fun _ => K) g := by
  have hgo : ∀ n g, I g → platform.Safe D t (whileLoop.go cond body n) (fun _ => K) g := by
    intro n
    induction n with
    | zero =>
      intro g _
      exact safe_once rfl hstop fun G m x r m' _ _ _ _ _ he => by cases he
    | succ n ih =>
      intro g hg
      refine (hcond g hg).bind fun b g' hb => ?_
      cases b with
      | true => exact (hbody g' hb).bind fun _ g'' => ih g''
      | false => exact hb
  refine Safe.bind (Q := fun _ g' => g' = g) (safe_look rfl hrounds fun G m x r m' _ _ _ he => ?_)
    fun n g' hg' => hgo n g' (hg' ▸ hg)
  cases he
  exact ⟨rfl, rfl⟩

theorem safe_prog {c : Call} {g₁ g₂ : γ} {Q : γ → Prop}
    (henter : platform.Safe D t (enter c) (fun _ q => q = g₁) g)
    (hbody : platform.Safe D t c.body (fun _ q => q = g₂) g₁)
    (hleave : platform.Safe D t (leave c) (fun _ q => Q q) g₂) :
    platform.Safe D t c.prog (fun _ q => Q q) g :=
  henter.bind_eq fun _ => hbody.bind_eq fun _ => hleave.bind fun _ _ hq => hq

/-- The rule for all threads: `R` ties the state of the clients' protocol to the ghost value. -/
theorem exists_ghost {β : Type} {next : β → Call → Option β} {R : Thread → β → γ → Prop}
    {b₀ : Thread → β}
    {config : NetConfig} {user : Nat → Int}
    {client : Thread → Client} {c : Tasks ops Machine Unit Thread}
    (hinit : D.Inv (fun _ => g) ((Machine.initial (initialValue user)).named config))
    (henv : ∀ G x m m', D.Inv G m → platform.env x m = some m' → D.Inv G m')
    (hset : ∀ t, platform.Safe D t (setLevel .on) (fun _ g' => g' = g) g)
    (hcall : ∀ t o b b' g, next b o = some b' → R t b g → platform.Safe D t o.prog
      (fun _ g' => R t b' g') g)
    (hfinish : ∀ t b g, R t b g → platform.Safe D t Call.finish.prog (fun _ _ => True) g)
    (hR : ∀ t, R t (b₀ t) g) (hC : ∀ t, Follows next (b₀ t) (client t))
    (hr : platform.Run D.Meets (startNamed config user client) c) :
    ∃ G, D.Inv G c.state ∧ ∀ t, platform.Safe D t (c.prog t) (fun _ _ => True) (G t) := by
  have hclient : ∀ t, platform.Safe D t ((client t).translate Call.prog)
    (fun _ g => ∃ b, R t b g) g := fun t => by
    refine Safe.translate (C := fun p g => ∃ b, Follows next b p ∧ R t b g) ?_ ?_ ⟨b₀ t, hC t, hR t⟩
    · rintro _ g ⟨b, -, hb⟩
      exact ⟨b, hb⟩
    · rintro o k g ⟨b, ⟨b', ho, hk⟩, hb⟩
      exact (hcall t o b b' g ho hb).mono fun r g' hg' => ⟨b', hk r, hg'⟩
  have hfunc : ∀ t, platform.Safe D t ((client t).translate Call.prog >>= fun _ => Call.finish.prog)
      (fun _ _ => True) g := fun t => (hclient t).bind fun _ g' ⟨b, hb⟩ => hfinish t b g' hb
  refine Safe.sound (c := startNamed config user client) (G := fun _ => g) henv hinit (fun t => ?_) hr
  change platform.Safe D t (threadRoot t (client t)) _ g
  by_cases ht : t = 0
  · simp only [threadRoot, ht]
    exact ht ▸ hfunc t
  · simp only [threadRoot, ht]
    refine (hset t).bind fun _ g' hg' => ?_
    subst hg'
    exact hfunc t

end rules

/-! ## The objects of a call -/

@[simp] def listTouches (q : Nat) (x : Obj) : Prop :=
  x = .semaphore (.lock (.list q)) ∨ x = .holder (.list q) ∨ x = .condition (.listEmpty q) ∨
    x = .list q ∨ x = .assertion .itemNotNull

@[simp] def mailTouches (x : Obj) : Prop :=
  x = .postOffice ∨ x = .assertion .mailLength ∨ x = .assertion .mailBox

def Call.touches : Call → Obj → Prop
  | .p n, x | .v n, x => x = .semaphore (.user n)
  | .acquire n, x | .release n, x => x = .semaphore (.lock (.user n)) ∨ x = .holder (.user n)
  | .wait c n, x => x = .semaphore (.lock (.user n)) ∨ x = .holder (.user n) ∨
    x = .condition (.user c)
  | .signal c _, x | .broadcast c _, x => x = .condition (.user c)
  | .rdLock w, x | .rdUnlock w, x =>
    x = .semaphore (.lock (.rdlock w)) ∨ x = .holder (.rdlock w) ∨ x = .semaphore (.wrlock w) ∨
      x = .readers w
  | .wrLock w, x | .wrUnlock w, x => x = .semaphore (.wrlock w)
  | .append q _, x | .remove q, x => listTouches q x
  | .readSector _, x | .writeSector .., x =>
    x = .semaphore (.lock .disk) ∨ x = .holder .disk ∨ x = .semaphore .disk ∨ x = .disk ∨
      x = .assertion .notActive ∨ x = .assertion .sectorNumber
  | .pReadAvail, x => x = .semaphore .readAvail
  | .pWriteDone, x => x = .semaphore .writeDone
  | .putChar _, x =>
    x = .semaphore (.lock .console) ∨ x = .holder .console ∨ x = .display ∨
      x = .assertion .notPutBusy
  | .getChar, x => x = .semaphore (.lock .console) ∨ x = .holder .console ∨ x = .keyboard
  | .send .., x =>
    x = .semaphore (.lock .send) ∨ x = .holder .send ∨ x = .semaphore .messageSent ∨ x = .outbox ∨
      x = .assertion .maySend ∨ x = .assertion .mailLength ∨ x = .assertion .mailBox
  | .receive box, x => listTouches box.toNat x ∨ mailTouches x
  | .postalDelivery, x =>
    (∃ q, listTouches q x) ∨ x = .semaphore .messageAvailable ∨ x = .inbox ∨ mailTouches x
  | _, _ => False

/-- The operation sets the interrupt level, or touches only objects of `T`. -/
def Op.Within (T : Obj → Prop) (o : Op) : Prop :=
    (∃ now, o = .setLevel now) ∨ ∀ x, o.touches x → T x

section within
variable {T : Obj → Prop}

theorem within_perform (h : o.Within T) : (perform (S := ops) o : Prog _).Uses (Op.Within T) :=
  ⟨h, fun _ => trivial⟩

theorem within_setLevel (now : IntStatus) : (setLevel now).Uses (Op.Within T) :=
  within_perform (.inl ⟨now, rfl⟩)

theorem within_p {s : SemId} (hs : T (.semaphore s)) : (Semaphore.p s).Uses (Op.Within T) :=
  (within_setLevel _).bind fun _ => (within_perform (.inr fun _ h => h ▸ hs)).bind fun _ =>
    (within_setLevel _).bind fun _ => trivial

theorem within_v {s : SemId} (hs : T (.semaphore s)) : (Semaphore.v s).Uses (Op.Within T) :=
  (within_setLevel _).bind fun _ => (within_perform (.inr fun _ h => h ▸ hs)).bind fun _ =>
    (within_setLevel _).bind fun _ => trivial

theorem within_isHeldByCurrentThread (l : LockId) :
    (Lock.isHeldByCurrentThread l).Uses (Op.Within T) :=
  (within_perform (.inr fun _ => False.elim)).bind fun _ =>
    (within_perform (.inr fun _ => False.elim)).bind fun _ => trivial

theorem within_acquire {l : LockId} (hs : T (.semaphore (.lock l))) (hl : T (.holder l)) :
    (Lock.acquire l).Uses (Op.Within T) :=
  (within_p hs).bind fun _ => (within_perform (.inr fun _ => False.elim)).bind fun _ =>
    within_perform (.inr fun _ h => h ▸ hl)

theorem within_release {l : LockId} (hs : T (.semaphore (.lock l))) (hl : T (.holder l)) :
    (Lock.release l).Uses (Op.Within T) := by
  refine Uses.bind ?_ fun b => ?_
  · exact within_isHeldByCurrentThread l
  · cases b
    · exact trivial
    · exact (within_v hs).bind fun _ => within_perform (.inr fun _ h => h ▸ hl)

theorem within_wait {c : CondId} {l : LockId} (hs : T (.semaphore (.lock l))) (hl : T (.holder l))
    (hc : T (.condition c)) : (Condition.wait c l).Uses (Op.Within T) :=
  (within_release hs hl).bind fun _ => (within_setLevel _).bind fun _ =>
    (within_perform (.inr fun _ h => h ▸ hc)).bind fun _ => (within_setLevel _).bind fun _ =>
      within_acquire hs hl

theorem within_signal {c : CondId} (hc : T (.condition c)) :
    (Condition.signal c).Uses (Op.Within T) :=
  (within_setLevel _).bind fun _ => (within_perform (.inr fun _ h => h ▸ hc)).bind fun _ =>
    (within_setLevel _).bind fun _ => trivial

theorem within_whileLoop {cond : Prog Bool} {body : Prog Unit} (hc : cond.Uses (Op.Within T))
    (hb : body.Uses (Op.Within T)) : (whileLoop cond body).Uses (Op.Within T) := by
  refine (within_perform (.inr fun _ => False.elim)).bind fun n => ?_
  induction n with
  | zero => exact within_perform (.inr fun _ => False.elim)
  | succ n ih =>
    refine hc.bind fun b => ?_
    cases b
    · exact trivial
    · exact hb.bind fun _ => ih

theorem within_checkRequest (n : Int) (ha : T (.assertion .notActive))
    (hs : T (.assertion .sectorNumber)) :
    (SynchDisk.checkRequest n).Uses (Op.Within T) :=
  (within_perform (.inr fun _ => False.elim)).bind fun _ =>
    (within_perform (.inr fun _ h => h ▸ ha)).bind
    fun _ =>
    within_perform (.inr fun _ h => h ▸ hs)

theorem within_append {q item : Nat} (hT : ∀ x, listTouches q x → T x) :
    (SynchList.append q item).Uses (Op.Within T) := by
  have hs := hT (.semaphore (.lock (.list q))) (.inl rfl)
  have hl := hT (.holder (.list q)) (.inr (.inl rfl))
  have hc := hT (.condition (.listEmpty q)) (.inr (.inr (.inl rfl)))
  have hlist := hT (.list q) (.inr (.inr (.inr (.inl rfl))))
  exact (within_acquire hs hl).bind fun _ => (within_perform (.inr fun _ h => h ▸ hlist)).bind
    fun _ => (within_signal hc).bind fun _ => within_release hs hl

theorem within_remove {q : Nat} (hT : ∀ x, listTouches q x → T x) :
    (SynchList.remove q).Uses (Op.Within T) := by
  have hs := hT (.semaphore (.lock (.list q))) (.inl rfl)
  have hl := hT (.holder (.list q)) (.inr (.inl rfl))
  have hc := hT (.condition (.listEmpty q)) (.inr (.inr (.inl rfl)))
  have hlist := hT (.list q) (.inr (.inr (.inr (.inl rfl))))
  have hnull := hT (.assertion .itemNotNull) (.inr (.inr (.inr (.inr rfl))))
  exact (within_acquire hs hl).bind fun _ =>
    (within_whileLoop (within_perform (.inr fun _ => False.elim)) (within_wait hs hl hc)).bind
    fun _ => (within_perform (.inr fun _ h => h ▸ hlist)).bind fun _ =>
      (within_perform (.inr fun _ h => h ▸ hnull)).bind fun _ =>
        (within_release hs hl).bind fun _ => trivial

theorem within_networkSend {hdr : PacketHeader} {data : List Byte} (hn : T .outbox)
    (ha : T (.assertion .maySend)) : (Network.send hdr data).Uses (Op.Within T) :=
  (within_perform (.inr fun _ => False.elim)).bind fun _ =>
    (within_perform (.inr fun _ h => h ▸ ha)).bind fun _ =>
      (within_perform (.inr fun _ => False.elim)).bind fun _ =>
        within_perform (.inr fun _ h => h ▸ hn)

theorem within_deliver {buffer : List Byte} (hT : ∀ x, Call.touches .postalDelivery x → T x) :
    (PostOffice.deliver buffer).Uses (Op.Within T) := by
  have hbox : ∀ b, (assert .mailBox b).Uses (Op.Within T) := fun b =>
    within_perform (.inr fun x h => hT x (.inr (.inr (.inr (.inr (.inr h))))))
  have hlength : ∀ b, (assert .mailLength b).Uses (Op.Within T) := fun b =>
    within_perform (.inr fun x h => hT x (.inr (.inr (.inr (.inr (.inl h))))))
  have hn := hT .inbox (.inr (.inr (.inl rfl)))
  refine (within_p (hT _ (.inr (.inl rfl)))).bind fun _ =>
    (within_perform (.inr fun _ h => h ▸ hn)).bind fun _ =>
      (within_perform (.inr fun _ => False.elim)).bind fun _ => (hbox _).bind fun _ =>
        (hlength _).bind fun _ => Uses.bind ?_ fun _ => trivial
  refine (hlength _).bind fun _ => Uses.bind ?_ fun _ => within_append fun x h => hT x (.inl ⟨_, h⟩)
  exact within_perform (.inr fun x h => hT x (.inr (.inr (.inr (.inl h)))))

theorem within_postalDelivery :
    PostOffice.postalDelivery.Uses (Op.Within (Call.touches .postalDelivery)) := by
  refine (within_perform (.inr fun _ => False.elim)).bind fun n => ?_
  generalize List.replicate 52 (0 : Byte) = buffer
  induction n generalizing buffer with
  | zero => exact within_perform (.inr fun _ => False.elim)
  | succ n ih => exact (within_deliver fun _ h => h).bind fun buffer => ih buffer

end within

theorem exec_within {T : Obj → Prop} (ho : o.Within T) (h : platform.exec t o x m = some e) :
    Frame (fun y => T y ∨ y.Shared) m e.state := by
  by_cases hl : ∃ now, o = .setLevel now
  · obtain ⟨now, rfl⟩ := hl
    obtain ⟨m₁, is, h₁, hf⟩ := setLevel_frame h
    exact ((handle_frame h₁).mono fun _ => .inr).trans (hf.mono fun _ => False.elim)
  · have hT := ho.resolve_left hl
    exact (exec_frame (fun now hn => hl ⟨now, hn⟩) h).mono fun y hy => .inl (hT y hy)

theorem not_calls_of_within {T : Obj → Prop} (ho : o.Within T) (hT : ¬ T .calls) :
    ¬ o.touches .calls := by
  obtain ⟨now, rfl⟩ | ho := ho
  · exact not_false
  · exact fun h => hT (ho _ h)

theorem Call.not_touches_calls (c : Call) : ¬ c.touches .calls := by
  cases c <;> simp [touches]

theorem Call.body_within (c : Call) : c.body.Uses (Op.Within c.touches) := by
  cases c with
  | p n => exact within_p rfl
  | v n => exact within_v rfl
  | acquire n => exact within_acquire (.inl rfl) (.inr rfl)
  | release n => exact within_release (.inl rfl) (.inr rfl)
  | wait c n => exact within_wait (.inl rfl) (.inr (.inl rfl)) (.inr (.inr rfl))
  | signal c n => exact within_signal rfl
  | broadcast c n => exact within_perform (.inr fun _ h => h)
  | rdLock w =>
    have hl : (Lock.release (.rdlock w)).Uses (Op.Within (Call.touches (.rdLock w))) :=
      within_release (.inl rfl) (.inr (.inl rfl))
    have hcount : (do setReaders w ((← getReaders w) + 1); Lock.release (.rdlock w) :
      Prog Unit).Uses
        (Op.Within (Call.touches (.rdLock w))) :=
      (within_perform (.inr fun _ => False.elim)).bind fun _ =>
        (within_perform (.inr fun _ h => .inr (.inr (.inr h)))).bind fun _ => hl
    refine (within_acquire (.inl rfl) (.inr (.inl rfl))).bind fun _ =>
      (within_perform (.inr fun _ => False.elim)).bind fun n => ?_
    dsimp only
    split
    · exact (within_p (.inr (.inr (.inl rfl)))).bind fun _ => hcount
    · exact hcount
  | rdUnlock w =>
    have hl : (Lock.release (.rdlock w)).Uses (Op.Within (Call.touches (.rdUnlock w))) :=
      within_release (.inl rfl) (.inr (.inl rfl))
    refine (within_acquire (.inl rfl) (.inr (.inl rfl))).bind fun _ =>
      (within_perform (.inr fun _ => False.elim)).bind fun _ =>
        (within_perform (.inr fun _ h => .inr (.inr (.inr h)))).bind fun _ =>
          (within_perform (.inr fun _ => False.elim)).bind fun n => ?_
    dsimp only
    split
    · exact (within_v (.inr (.inr (.inl rfl)))).bind fun _ => hl
    · exact hl
  | wrLock w => exact within_p rfl
  | wrUnlock w => exact within_v rfl
  | append q item => exact within_append fun _ h => h
  | remove q => exact within_remove fun _ h => h
  | readSector n =>
    exact (within_acquire (.inl rfl) (.inr (.inl rfl))).bind fun _ =>
      (within_checkRequest n (.inr (.inr (.inr (.inr (.inl rfl)))))
        (.inr (.inr (.inr (.inr (.inr rfl)))))).bind
        fun _ => (within_perform (.inr fun _ h => .inr (.inr (.inr (.inl h))))).bind fun _ =>
          (within_p (.inr (.inr (.inl rfl)))).bind fun _ =>
            (within_release (.inl rfl) (.inr (.inl rfl))).bind fun _ => trivial
  | writeSector n d =>
    exact (within_acquire (.inl rfl) (.inr (.inl rfl))).bind fun _ =>
      (within_checkRequest n (.inr (.inr (.inr (.inr (.inl rfl)))))
        (.inr (.inr (.inr (.inr (.inr rfl)))))).bind
        fun _ => (within_perform (.inr fun _ h => .inr (.inr (.inr (.inl h))))).bind fun _ =>
          (within_p (.inr (.inr (.inl rfl)))).bind fun _ => within_release (.inl rfl)
            (.inr (.inl rfl))
  | pReadAvail => exact within_p rfl
  | pWriteDone => exact within_p rfl
  | putChar ch =>
    exact (within_acquire (.inl rfl) (.inr (.inl rfl))).bind fun _ =>
      ((within_perform (.inr fun _ => False.elim)).bind fun _ =>
        (within_perform (.inr fun _ h => .inr (.inr (.inr h)))).bind fun _ =>
          within_perform (.inr fun _ h => .inr (.inr (.inl h)))).bind fun _ =>
        within_release (.inl rfl) (.inr (.inl rfl))
  | getChar =>
    exact (within_acquire (.inl rfl) (.inr (.inl rfl))).bind fun _ =>
      (within_perform (.inr fun _ h => .inr (.inr h))).bind fun _ =>
        (within_release (.inl rfl) (.inr (.inl rfl))).bind fun _ => trivial
  | send pktHdr mailHdr data =>
    exact (within_perform (.inr fun _ => False.elim)).bind fun _ =>
      (within_perform (.inr fun _ h => .inr (.inr (.inr (.inr (.inr (.inl h))))))).bind
        fun _ =>
      (within_perform (.inr fun _ h => .inr (.inr (.inr (.inr (.inr (.inr h))))))).bind
        fun _ =>
      (within_acquire (.inl rfl) (.inr (.inl rfl))).bind fun _ =>
      (within_networkSend (.inr (.inr (.inr (.inl rfl))))
        (.inr (.inr (.inr (.inr (.inl rfl)))))).bind fun _ =>
      (within_p (.inr (.inr (.inl rfl)))).bind fun _ =>
        within_release (.inl rfl) (.inr (.inl rfl))
  | receive box =>
    have hget : (MailBox.get box.toNat).Uses (Op.Within (Call.touches (.receive box))) :=
      (within_remove fun _ h => .inl h).bind fun _ => within_perform (.inr fun _ h => .inr (.inl h))
    exact (within_perform (.inr fun _ => False.elim)).bind fun _ =>
      (within_perform (.inr fun _ h => .inr (.inr (.inr h)))).bind fun _ => hget.bind fun _ =>
        (within_perform (.inr fun _ h => .inr (.inr (.inl h)))).bind fun _ => trivial
  | postalDelivery => exact within_postalDelivery
  | fork t =>
    exact (within_setLevel _).bind fun _ => (within_perform (.inr fun _ => False.elim)).bind
      fun _ =>
      (within_setLevel _).bind fun _ => trivial
  | yield =>
    exact (within_setLevel _).bind fun _ => (within_perform (.inr fun _ => False.elim)).bind
      fun _ =>
      (within_setLevel _).bind fun _ => trivial
  | finish => exact within_perform (.inr fun _ => False.elim)

end Nachos.Threads
