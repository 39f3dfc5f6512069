import Nachos.Threads.Alone
import Nachos.Threads.Frame
import Mathlib.Data.Finset.Card
import Mathlib.Data.List.Chain

/-! Input from the console. `incoming` buffers one character, and `EOF` in it stands for the empty
buffer. A character that is itself `EOF` leaves the buffer empty, so the next poll may overwrite
it; the order is kept as long as nothing but `EOF` can come after an `EOF`. -/

namespace Nachos.Threads
open Lib Program Platform

def typedChars : List Event → List Byte
  | [] => []
  | .typed c :: h => typedChars h ++ [c]
  | _ :: h => typedChars h

def gotChars : List Event → List Byte
  | [] => []
  | .got _ c :: h => gotChars h ++ [c]
  | _ :: h => gotChars h

/-- `GetChar` is called once for each permit; the state is whether the thread has one. -/
def perPermit : Bool → Call → Option Bool
  | hasPermit, .pReadAvail => if hasPermit then none else some true
  | hasPermit, .getChar => if hasPermit then some false else none
  | hasPermit, _ => some hasPermit

/-- In the file, nothing but `EOF` follows an `EOF`. -/
def EofLast (file : List Byte) : Prop := file.IsChain fun a b => a = eof → b = eof

instance (file : List Byte) : Decidable (EofLast file) :=
  inferInstanceAs (Decidable (List.IsChain _ _))

/-- The characters `rest` are typed and not returned, `S` are the threads with a permit. -/
structure Input (G : Thread → Bool) (m : Machine) (rest : List Byte) (S : Finset Thread) :
    Prop where
  accounted : typedChars m.trace = gotChars m.trace ++ rest
  buffer : (m.console.incoming ≠ eof ∧ rest = [m.console.incoming]) ∨
    (m.console.incoming = eof ∧ ∀ c ∈ rest, c = eof)
  nonneg : 0 ≤ (m.semaphore .readAvail).value
  permits : (m.semaphore .readAvail).value + S.card = rest.length
  holders : ∀ t, t ∈ S ↔ G t = true

def InputInv (file : List Byte) (G : Thread → Bool) (m : Machine) : Prop :=
  typedChars m.trace <+: file → ∃ rest S, Input G m rest S

section invariant
variable {file rest : List Byte} {S : Finset Thread} {G : Thread → Bool} {m m' : Machine}
  {T : Obj → Prop} {t : Thread}

theorem chars_of_frame (hf : Frame T m m') (hc : ¬ T .keyboard) :
    typedChars m'.trace = typedChars m.trace ∧ gotChars m'.trace = gotChars m.trace := by
  constructor
  · refine hf.trace_eq fun e h he => ?_
    cases e with
    | typed c => exact absurd (he _ rfl) hc
    | _ => rfl
  · refine hf.trace_eq fun e h he => ?_
    cases e with
    | got u c => exact absurd (he _ rfl) hc
    | _ => rfl

def inputObjs (x : Obj) : Prop := x = .semaphore .readAvail ∨ x = .keyboard

@[simp] theorem apart_inputObjs :
    Apart T inputObjs ↔ ¬ T (.semaphore .readAvail) ∧ ¬ T .keyboard := by
  simp [Apart, inputObjs]

theorem Input.congr (h : Input G m rest S)
    (hv : (m'.semaphore .readAvail).value = (m.semaphore .readAvail).value)
    (hc : m'.console.incoming = m.console.incoming)
    (htyped : typedChars m'.trace = typedChars m.trace)
    (hgot : gotChars m'.trace = gotChars m.trace) : Input G m' rest S where
  accounted := by rw [htyped, hgot, h.accounted]
  buffer := by rw [hc]; exact h.buffer
  nonneg := by rw [hv]; exact h.nonneg
  permits := by rw [hv]; exact h.permits
  holders := h.holders

namespace InputInv

theorem congr (h : InputInv file G m)
    (hv : (m'.semaphore .readAvail).value = (m.semaphore .readAvail).value)
    (hc : m'.console.incoming = m.console.incoming)
    (htyped : typedChars m'.trace = typedChars m.trace)
    (hgot : gotChars m'.trace = gotChars m.trace) : InputInv file G m' := fun hfile => by
  obtain ⟨rest, S, hI⟩ := h (htyped ▸ hfile)
  exact ⟨rest, S, hI.congr hv hc htyped hgot⟩

theorem frame (h : InputInv file G m) (hf : Frame T m m') (hT : Apart T inputObjs) :
    InputInv file G m' := by
  obtain ⟨hs, hc⟩ := apart_inputObjs.mp hT
  have hchars := chars_of_frame hf hc
  exact h.congr (hf.value _ hs) (hf.keyboard hc) hchars.1 hchars.2

end InputInv

theorem chars_readChar (m : Machine) (c : Byte) :
    typedChars (m.readChar c).trace = typedChars m.trace ++ [c] ∧
      gotChars (m.readChar c).trace = gotChars m.trace :=
  chars_of_frame (frame_up (m.setSched (m.toSched.note (.typed c))) .readAvail none) (by simp)

theorem value_readChar (m : Machine) (c : Byte) :
    ((m.readChar c).semaphore .readAvail).value = (m.semaphore .readAvail).value + 1 :=
  Sched.value_up_self none

/-- A poll reads a character into the empty buffer. If characters are waiting, they are `EOF`, so
this one is `EOF` as well. -/
theorem Input.readChar {c : Byte} (hfile : EofLast file) (h : Input G m rest S)
    (hempty : m.console.incoming = eof) (hc : typedChars m.trace ++ [c] <+: file) :
    Input G (m.readChar c) (rest ++ [c]) S := by
  have hrest : ∀ b ∈ rest, b = eof := by
    rcases h.buffer with hb | hb
    · exact absurd hempty hb.1
    · exact hb.2
  have hlast : rest ≠ [] → c = eof := fun hne => by
    obtain ⟨init, b, rfl⟩ := (List.eq_nil_or_concat rest).resolve_left hne
    rw [h.accounted] at hc
    obtain ⟨tail, ht⟩ := hc
    have hsplit : file = (gotChars m.trace ++ init) ++ b :: c :: tail := by
      rw [← ht]
      simp
    exact List.isChain_iff_forall_rel_of_append_cons_cons.mp hfile hsplit (hrest b (by simp))
  refine ⟨?_, ?_, ?_, ?_, h.holders⟩
  · rw [(chars_readChar m c).1, (chars_readChar m c).2, h.accounted, List.append_assoc]
  · change (c ≠ eof ∧ rest ++ [c] = [c]) ∨ (c = eof ∧ _)
    by_cases hce : c = eof
    · refine .inr ⟨hce, fun b hb => ?_⟩
      rcases List.mem_append.mp hb with hb | hb
      · exact hrest b hb
      · rw [List.mem_singleton.mp hb, hce]
    · have hnil : rest = [] := not_not.mp (mt hlast hce)
      exact .inl ⟨hce, by rw [hnil, List.nil_append]⟩
  · have hnonneg := h.nonneg
    rw [value_readChar]
    omega
  · have hpermits := h.permits
    rw [value_readChar, List.length_append, List.length_singleton]
    push_cast
    omega

namespace InputInv

theorem interrupt {i : Irq} (hfile : EofLast file) (h : InputInv file G m)
    (hi : m.interrupt i = some m') : InputInv file G m' := by
  obtain rfl | ⟨n, rfl⟩ | ⟨-, rfl⟩ | ⟨c, hc, rfl⟩ | ⟨-, rfl⟩ | ⟨buffer, -, -, rfl⟩ | rfl :=
    Machine.interrupt_cases hi
  · exact h
  · exact h.frame (frame_up m (.user n) none) (by simp)
  · exact h.frame (handleInterrupt_frame m) (by simp)
  · intro hprefix
    have htyped : typedChars m.trace ++ [c] <+: file := (chars_readChar m c).1 ▸ hprefix
    obtain ⟨rest, S, hI⟩ := h ((List.prefix_append _ _).trans htyped)
    exact ⟨_, S, hI.readChar hfile hc htyped⟩
  · exact h.frame (writeDone_frame m) (by simp)
  · exact h.frame (readPacket_frame m buffer) (by simp)
  · exact h.frame (sendDone_frame m) (by simp)

theorem handle {is : List Irq} (hfile : EofLast file) (h : InputInv file G m)
    (hi : m.handle is = some m') : InputInv file G m' := by
  induction is generalizing m with
  | nil =>
    cases hi
    exact h
  | cons i is ih =>
    obtain ⟨m₁, h₁, hi⟩ := Option.bind_eq_some_iff.mp hi
    exact ih (h.interrupt hfile h₁) hi

theorem down (h : InputInv file G m) (hg : G t = false)
    (hv : (m.semaphore .readAvail).value ≠ 0) :
    InputInv file (Function.update G t true) (m.setSched (m.toSched.down .readAvail)) := by
  intro hprefix
  obtain ⟨rest, S, hI⟩ := h hprefix
  have hnot : t ∉ S := by simp [hI.holders, hg]
  have hvalue : ((m.toSched.down .readAvail).semaphore .readAvail).value =
      (m.semaphore .readAvail).value - 1 := by
    simp [Sched.down]
  have hnonneg := hI.nonneg
  have hpermits := hI.permits
  refine ⟨rest, insert t S, hI.accounted, hI.buffer, ?_, ?_, fun u => ?_⟩
  · change 0 ≤ ((m.toSched.down .readAvail).semaphore .readAvail).value
    omega
  · change ((m.toSched.down .readAvail).semaphore .readAvail).value + _ = _
    rw [Finset.card_insert_of_notMem hnot]
    push_cast
    omega
  · rw [Finset.mem_insert, hI.holders]
    rcases eq_or_ne u t with rfl | hu
    · simp
    · simp [hu]

theorem getChar (h : InputInv file G m) (hg : G t = true) (ht : m.currentThread = t) :
    InputInv file (Function.update G t false)
      ({ m with console := { m.console with incoming := eof } }.setSched
        (m.toSched.note (.got m.currentThread m.console.incoming))) := by
  intro hprefix
  obtain ⟨rest, S, hI⟩ := h hprefix
  have hmem : t ∈ S := (hI.holders t).mpr hg
  have hcard : (S.erase t).card + 1 = S.card := Finset.card_erase_add_one hmem
  obtain ⟨rest', hrest, heof⟩ : ∃ rest', rest = m.console.incoming :: rest' ∧
      ∀ c ∈ rest', c = eof := by
    rcases hI.buffer with ⟨-, hb⟩ | ⟨he, hb⟩
    · exact ⟨[], hb, by simp⟩
    · cases rest with
      | nil =>
        have hpermits := hI.permits
        have hnonneg := hI.nonneg
        rw [List.length_nil] at hpermits
        omega
      | cons c rest' =>
        refine ⟨rest', ?_, fun b hb' => hb b (List.mem_cons_of_mem _ hb')⟩
        rw [he, hb c (List.mem_cons_self ..)]
  have hpermits := hI.permits
  refine ⟨rest', S.erase t, ?_, .inr ⟨rfl, heof⟩, hI.nonneg, ?_, fun u => ?_⟩
  · change typedChars m.trace = gotChars m.trace ++ [m.console.incoming] ++ rest'
    rw [hI.accounted, hrest, List.append_assoc]
    rfl
  · change (m.semaphore .readAvail).value + _ = _
    rw [hrest, List.length_cons] at hpermits
    omega
  · rw [Finset.mem_erase, hI.holders]
    rcases eq_or_ne u t with rfl | hu
    · simp
    · simp [hu]

end InputInv
end invariant

/-! ## The routines -/

def inputDiscipline (file : List Byte) : Discipline ops Machine Thread Choice Bool where
  Inv := InputInv file
  Allowed _ _ _ _ := True
  Legal _ := True

section routines
variable {file : List Byte} {t : Thread} {g : Bool}

theorem input_within {α : Type} {T : Obj → Prop} {prog : Prog α} (hfile : EofLast file)
    (hp : prog.Uses (Op.Within T)) (hT : Apart T inputObjs) :
    platform.Safe (inputDiscipline file) t prog (fun _ g' => g' = g) g := by
  refine Safe.of_uses (hp.mono fun o ho => ⟨trivial, fun G m x e hI _ he => ?_⟩)
  by_cases hl : ∃ now, o = .setLevel now
  · obtain ⟨now, rfl⟩ := hl
    obtain ⟨m₁, is, h₁, hf⟩ := setLevel_frame he
    exact (InputInv.handle hfile hI h₁).frame hf apart_false
  · have ho := ho.resolve_left hl
    exact InputInv.frame hI (exec_frame (fun now hn => hl ⟨now, hn⟩) he)
      fun y hy => mt (ho y) (hT y hy)

theorem input_setLevel (hfile : EofLast file) (now : IntStatus) :
    platform.Safe (inputDiscipline file) t (setLevel now) (fun _ g' => g' = g) g :=
  input_within hfile (T := fun _ => False) (within_setLevel now) apart_false

theorem input_pReadAvail (hfile : EofLast file) :
    platform.Safe (inputDiscipline file) t (Semaphore.p .readAvail) (fun _ g' => g' = true)
      false := by
  refine safe_p (fun now _ _ => input_setLevel hfile now) (safe_takeValue trivial
    (fun G m hI _ _ _ _ => ?_)
    fun G m x hI hg _ _ _ hv => ⟨true, InputInv.down hI hg hv, rfl⟩)
  refine InputInv.congr hI ?_ rfl rfl rfl
  simp [Sched.park]

theorem input_getChar (hfile : EofLast file) :
    platform.Safe (inputDiscipline file) t SynchConsole.getChar (fun _ g' => g' = false) true := by
  have hacquire : ∀ g, platform.Safe (inputDiscipline file) t (Lock.acquire .console)
      (fun _ g' => g' = g) g := fun g =>
    input_within hfile (T := fun x => x = .semaphore (.lock .console) ∨ x = .holder .console)
      (within_acquire (.inl rfl) (.inr rfl)) (by simp)
  have hrelease : ∀ g, platform.Safe (inputDiscipline file) t (Lock.release .console)
      (fun _ g' => g' = g) g := fun g =>
    input_within hfile (T := fun x => x = .semaphore (.lock .console) ∨ x = .holder .console)
      (within_release (.inl rfl) (.inr rfl)) (by simp)
  have hget : platform.Safe (inputDiscipline file) t Console.getChar (fun _ g' => g' = false)
      true := by
    refine safe_once rfl trivial fun G m x r m' hI hg _ ht _ he => ?_
    cases he
    exact ⟨false, InputInv.getChar hI hg ht, rfl⟩
  exact (hacquire true).bind_eq fun _ => hget.bind_eq fun ch => (hrelease false).bind_eq fun _ => rfl

theorem input_call {c : Call} {g' : Bool} (hfile : EofLast file) (hc : perPermit g c = some g') :
    platform.Safe (inputDiscipline file) t c.prog (fun _ q => q = g') g := by
  have hnote : ∀ g, platform.Safe (inputDiscipline file) t (enter c) (fun _ q => q = g) g ∧
      platform.Safe (inputDiscipline file) t (leave c) (fun _ q => q = g) g := fun g =>
    ⟨input_within hfile (T := (· = .calls)) (within_perform (.inr fun _ h => h)) (by simp),
      input_within hfile (T := (· = .calls)) (within_perform (.inr fun _ h => h)) (by simp)⟩
  refine safe_prog (hnote g).1 ?_ (hnote g').2
  cases c with
  | pReadAvail =>
    obtain rfl : g = false := by
      cases g
      · rfl
      · cases hc
    cases hc
    exact input_pReadAvail hfile
  | getChar =>
    obtain rfl : g = true := by
      cases g
      · cases hc
      · rfl
    cases hc
    exact input_getChar hfile
  | _ =>
    cases hc
    refine input_within hfile (Call.body_within _) ?_
    simp [Call.touches]

end routines

theorem InputInv.initial (file : List Byte) (config : NetConfig) (user : Nat → Int) :
    InputInv file (fun _ => false) ((Machine.initial (initialValue user)).named config) :=
  fun _ => ⟨[], ∅, rfl, .inr ⟨rfl, by simp⟩, le_refl _, rfl, by simp⟩

variable {user : Nat → Int} {client : Thread → Client} {c : Tasks ops Machine Unit Thread}

theorem gotChars_prefix {file : List Byte} (hfile : EofLast file)
    (hclient : ∀ t, Follows perPermit false (client t))
    (h : platform.Run (fun _ _ => True) (start user client) c)
    (htyped : typedChars c.state.trace <+: file) :
    gotChars c.state.trace <+: typedChars c.state.trace := by
  have hmeets : (inputDiscipline file).Meets (α := Unit) = fun _ _ => True := by
    funext c mv
    cases mv <;> simp [Discipline.Meets, inputDiscipline]
  obtain ⟨G, hI, -⟩ := exists_ghost (D := inputDiscipline file) (R := fun _ b g => g = b)
    (InputInv.initial file _ user)
    (fun G x m m' hI he => by
      obtain ⟨m₁, is, h₁, hf⟩ := env_frame he
      exact (InputInv.handle hfile hI h₁).frame hf apart_false)
    (fun t => input_setLevel hfile .on)
    (fun t o b b' g ho hg => by
      subst hg
      exact input_call hfile ho)
    (fun t b g hg => by
      subst hg
      exact (input_call hfile (c := .finish) rfl).mono fun _ _ _ => trivial)
    (fun _ => rfl) hclient (hmeets ▸ h)
  obtain ⟨rest, S, hI⟩ := hI htyped
  exact ⟨rest, hI.accounted.symm⟩

/-! ## A reader of a file with another character after an `EOF` -/

def reader : Nat → Client
  | 0 => pure ()
  | n + 1 => do
    perform (S := calls) .pReadAvail
    let _ ← perform (S := calls) .getChar
    reader n

def readerThread (n : Nat) (t : Thread) : Client :=
  if t = 0 then do perform (S := calls) .yield; reader n else pure ()

theorem follows_reader (n : Nat) : Follows perPermit false (reader n) := by
  induction n with
  | zero => trivial
  | succ n ih => exact ⟨true, rfl, fun _ => ⟨false, rfl, fun _ => ih⟩⟩

theorem follows_readerThread (n : Nat) (t : Thread) :
    Follows perPermit false (readerThread n t) := by
  rw [readerThread]
  split
  · exact ⟨false, rfl, fun _ => follows_reader n⟩
  · trivial

/-- The reader is the main thread, nobody waits for a semaphore of the console. -/
structure Reading (typed got : List Byte) (permits : Int) (incoming : Byte) (m : Machine) :
    Prop where
  currentThread : m.currentThread = 0
  asleep : m.asleep = false
  readAvail : m.semaphore .readAvail = ⟨permits, []⟩
  lock : m.semaphore (.lock .console) = ⟨1, []⟩
  incoming : m.console.incoming = incoming
  typed : typedChars m.trace = typed
  got : gotChars m.trace = got

structure Entered (typed got : List Byte) (permits : Int) (incoming : Byte) (m : Machine) :
    Prop where
  running : Running 0 m
  readAvail : m.semaphore .readAvail = ⟨permits, []⟩
  lock : m.semaphore (.lock .console) = ⟨0, []⟩
  holder : m.threadHoldTheLock .console = some 0
  incoming : m.console.incoming = incoming
  typed : typedChars m.trace = typed
  got : gotChars m.trace = got

namespace Reading
variable {typed got typed' got' : List Byte} {permits permits' : Int} {incoming incoming' : Byte}
  {m : Machine} {is : List Irq}

theorem running (h : Reading typed got permits incoming m) (hl : m.level = .on) : Running 0 m :=
  ⟨h.currentThread, h.asleep, hl⟩

theorem note {e : Event} (h : Reading typed got permits incoming m)
    (ht : ∀ c, e ≠ .typed c) (hg : ∀ t c, e ≠ .got t c) :
    Reading typed got permits incoming (m.setSched (m.toSched.note e)) := by
  refine ⟨h.currentThread, h.asleep, h.readAvail, h.lock, h.incoming, ?_, ?_⟩
  · refine Eq.trans ?_ h.typed
    cases e with
    | typed c => exact absurd rfl (ht c)
    | _ => rfl
  · refine Eq.trans ?_ h.got
    cases e with
    | got t c => exact absurd rfl (hg t c)
    | _ => rfl

theorem readChar (h : Reading typed got permits eof m) (c : Byte) :
    Reading (typed ++ [c]) got (permits + 1) c (m.readChar c) where
  currentThread := (Machine.up_currentThread ..).trans h.currentThread
  asleep := (Machine.up_asleep ..).trans h.asleep
  readAvail := by simp [Machine.readChar, Sched.up, h.readAvail]
  lock := (Sched.value_up (by simp) none).trans h.lock
  incoming := rfl
  typed := (chars_readChar m c).1.trans (by rw [h.typed])
  got := (chars_readChar m c).2.trans h.got

theorem poll (h : Reading typed got permits eof m) (c : Byte) :
    ∃ m₁, m.handle [.consoleReadPoll (some c)] = some m₁ ∧
      Reading (typed ++ [c]) got (permits + 1) c m₁ := by
  refine ⟨_, ?_, h.readChar c⟩
  simp [Machine.handle, Machine.interrupt, Machine.checkCharAvail, h.incoming]

theorem pollTwice (h : Reading typed got permits eof m) (c : Byte) :
    ∃ m₁, m.handle [.consoleReadPoll (some eof), .consoleReadPoll (some c)] = some m₁ ∧
      Reading (typed ++ [eof] ++ [c]) got (permits + 1 + 1) c m₁ := by
  refine ⟨_, ?_, (h.readChar eof).readChar c⟩
  simp [Machine.handle, Machine.interrupt, Machine.checkCharAvail, h.incoming,
    (h.readChar eof).incoming]

theorem may_pReadAvail (h : Reading typed got permits incoming m) (hl : m.level = .on)
    (hp : permits ≠ 0) : platform.May 0 (Call.prog .pReadAvail)
      (fun _ m' => m'.level = .on ∧ Reading typed got (permits - 1) incoming m') m := by
  have hdown : Reading typed got (permits - 1) incoming
      (m.setSched ((m.toSched.note (.enter m.currentThread .pReadAvail)).down .readAvail)) := by
    refine ⟨h.currentThread, h.asleep, ?_, ?_, h.incoming, h.typed, h.got⟩
    · simp [Sched.down, h.readAvail]
    · simp [Sched.down, h.lock]
  refine (h.running hl).may_bind rfl ?_
  have hrun : Running 0 (m.setSched (m.toSched.note (.enter m.currentThread .pReadAvail))) :=
    ⟨h.currentThread, h.asleep, hl⟩
  refine May.bind (hrun.may_p (Q := fun _ m' => m'.level = .on ∧
    Reading typed got (permits - 1) incoming m') ?_ ⟨hl, hdown⟩) fun _ m₂ hm => ?_
  · change (m.semaphore .readAvail).value ≠ 0
    rw [h.readAvail]
    exact hp
  · obtain ⟨hl₂, h₂⟩ := hm
    exact (h₂.running hl₂).may_bind rfl ⟨hl₂, h₂.note (by simp) (by simp)⟩

theorem may_acquire (h : Reading typed got permits incoming m) (hl : m.level = .on) :
    platform.May 0 (Lock.acquire .console) (fun _ => Entered typed got permits incoming) m := by
  refine (h.running hl).may_acquire (by simp [h.lock]) ⟨⟨h.currentThread, h.asleep, hl⟩, ?_, ?_,
    by simp [Machine.setSched], h.incoming, h.typed, h.got⟩
  · simp [Machine.setSched, Sched.down, h.readAvail]
  · simp [Machine.setSched, Sched.down, h.lock]

theorem may_release (h : Entered typed got permits incoming m)
    (hi : ∀ m₁, Reading typed got permits incoming m₁ →
      ∃ m₂, m₁.handle is = some m₂ ∧ Reading typed' got' permits' incoming' m₂) :
    platform.May 0 (Lock.release .console)
      (fun _ m' => m'.level = .on ∧ Reading typed' got' permits' incoming' m') m := by
  have hf := frame_up m (.lock .console) (some 0)
  obtain ⟨m₂, hm₂, h₂⟩ := hi ({ m with level := .off }.setSched
    (m.toSched.up (.lock .console) (some 0)))
    ⟨(Machine.up_currentThread ..).trans h.running.currentThread,
      (Machine.up_asleep ..).trans h.running.asleep, (Sched.value_up (by simp) _).trans h.readAvail,
      by simp [Machine.setSched, Sched.up, h.lock], h.incoming,
      (chars_of_frame hf (by simp)).1.trans h.typed, (chars_of_frame hf (by simp)).2.trans h.got⟩
  refine h.running.may_release h.holder hm₂ ⟨rfl, ?_⟩
  exact ⟨h₂.currentThread, h₂.asleep, h₂.readAvail, h₂.lock, h₂.incoming, h₂.typed, h₂.got⟩

theorem may_getChar (h : Reading typed got permits incoming m) (hl : m.level = .on)
    (hi : ∀ m₁, Reading typed (got ++ [incoming]) permits eof m₁ →
      ∃ m₂, m₁.handle is = some m₂ ∧ Reading typed' got' permits' incoming' m₂) :
    platform.May 0 (Call.prog .getChar)
      (fun _ m' => m'.level = .on ∧ Reading typed' got' permits' incoming' m') m := by
  have hbody : platform.May 0 SynchConsole.getChar (fun _ m' => m'.level = .on ∧
      Reading typed' got' permits' incoming' m')
      (m.setSched (m.toSched.note (.enter m.currentThread .getChar))) := by
    refine May.bind ((h.note (by simp) (by simp)).may_acquire hl) fun _ m₁ h₁ => ?_
    have h₂ : Entered typed (got ++ [incoming]) permits eof
        ({ m₁ with console := { m₁.console with incoming := eof } }.setSched
          (m₁.toSched.note (.got m₁.currentThread m₁.console.incoming))) := by
      refine ⟨⟨h₁.running.currentThread, h₁.running.asleep, h₁.running.level⟩, h₁.readAvail,
        h₁.lock, h₁.holder, rfl, h₁.typed, ?_⟩
      rw [← h₁.got, ← h₁.incoming]
      rfl
    refine h₁.running.may_bind rfl (May.bind (may_release h₂ hi) fun _ m₃ h₃ => h₃)
  refine (h.running hl).may_bind rfl (hbody.bind fun ch m₂ hm => ?_)
  obtain ⟨hl₂, h₂⟩ := hm
  exact (h₂.running hl₂).may_bind rfl ⟨hl₂, h₂.note (by simp) (by simp)⟩

theorem may_yield (h : Reading typed got permits incoming m) (hl : m.level = .on)
    (hr : m.readyList = [])
    (hi : ∀ m₁, Reading typed got permits incoming m₁ →
      ∃ m₂, m₁.handle is = some m₂ ∧ Reading typed' got' permits' incoming' m₂) :
    platform.May 0 (Call.prog .yield)
      (fun _ m' => m'.level = .on ∧ Reading typed' got' permits' incoming' m') m := by
  have h₁ := h.note (e := .enter m.currentThread .yield) (by simp) (by simp)
  have hyield : ({ m with level := .off }.setSched
      (m.toSched.note (.enter m.currentThread .yield)).yield) =
      { m with level := .off }.setSched (m.toSched.note (.enter m.currentThread .yield)) := by
    simp [Sched.yield, hr]
  obtain ⟨m₂, hm₂, h₂⟩ := hi ({ m with level := .off }.setSched
    (m.toSched.note (.enter m.currentThread .yield)))
    ⟨h₁.currentThread, h₁.asleep, h₁.readAvail, h₁.lock, h₁.incoming, h₁.typed, h₁.got⟩
  rw [← hyield] at hm₂
  have hbody : platform.May 0 (Call.body .yield) (fun _ m' => m'.level = .on ∧
      Reading typed' got' permits' incoming' m')
      (m.setSched (m.toSched.note (.enter m.currentThread .yield))) := by
    refine (h₁.running hl).may_atomic (o := .yield) (r := ()) is rfl ?_ ?_ rfl hm₂ ⟨rfl,
      h₂.currentThread, h₂.asleep, h₂.readAvail, h₂.lock, h₂.incoming, h₂.typed, h₂.got⟩
    · exact (congrArg (·.asleep) hyield).trans h.asleep
    · exact (congrArg (·.currentThread) hyield).trans h.currentThread
  refine (h.running hl).may_bind rfl (hbody.bind fun _ m₃ hm => ?_)
  obtain ⟨hl₃, h₃⟩ := hm
  exact (h₃.running hl₃).may_bind rfl ⟨hl₃, h₃.note (by simp) (by simp)⟩

theorem may_round {α : Type} {rest : Prog α} {Q : α → Machine → Prop}
    (h : Reading typed got permits incoming m) (hl : m.level = .on) (hp : permits ≠ 0)
    (hi : ∀ m₁, Reading typed (got ++ [incoming]) (permits - 1) eof m₁ →
      ∃ m₂, m₁.handle is = some m₂ ∧ Reading typed' got' permits' incoming' m₂)
    (hrest : ∀ m', m'.level = .on → Reading typed' got' permits' incoming' m' →
      platform.May 0 rest Q m') :
    platform.May 0 (do
      Call.prog .pReadAvail
      let _ ← Call.prog .getChar
      rest) Q m := by
  refine (h.may_pReadAvail hl hp).bind fun _ m₁ h₁ => ?_
  exact (h₁.2.may_getChar h₁.1 hi).bind fun _ m₂ h₂ => hrest m₂ h₂.1 h₂.2

theorem may_lastRound (h : Reading typed got permits incoming m) (hl : m.level = .on)
    (hp : permits ≠ 0) : platform.May 0 ((reader 1).translate Call.prog)
      (fun _ m' => typedChars m'.trace = typed ∧ gotChars m'.trace = got ++ [incoming]) m :=
  h.may_round hl hp (fun m₁ h₁ => ⟨m₁, m₁.handle_nil, h₁⟩) fun _ _ h₁ => ⟨h₁.typed, h₁.got⟩

/-- The reader gets each character of `a :: w` before the next one is typed, and then two polls
come between its calls. -/
theorem may_reader (w : List Byte) (a c : Byte) (h : Reading (got ++ [a]) got 1 a m)
    (hl : m.level = .on) : platform.May 0 ((reader (w.length + 2)).translate Call.prog)
      (fun _ m' => typedChars m'.trace = got ++ a :: w ++ [eof, c] ∧
        gotChars m'.trace = got ++ a :: w ++ [c]) m := by
  induction w generalizing got a m with
  | nil =>
    refine h.may_round hl (by decide) (fun m₁ h₁ => h₁.pollTwice c) fun m₁ hl₁ h₁ => ?_
    refine (h₁.may_lastRound hl₁ (by decide)).mono fun _ m₂ h₂ => ?_
    simpa using h₂
  | cons b w ih =>
    refine h.may_round hl (by decide) (fun m₁ h₁ => h₁.poll b) fun m₁ hl₁ h₁ => ?_
    refine (ih b h₁ hl₁).mono fun _ m₂ h₂ => ?_
    simpa using h₂

theorem initial (config : NetConfig) (user : Nat → Int) :
    Reading [] [] 0 eof ((Machine.initial (initialValue user)).named config) :=
  ⟨rfl, rfl, rfl, rfl, rfl, rfl, rfl⟩

end Reading

theorem exists_run_overwritten (user : Nat → Int) (w : List Byte) (b : Byte) :
    ∃ n c, platform.Run (fun _ _ => True) (start user (readerThread n)) c ∧
      typedChars c.state.trace = w ++ [eof, b] ∧ gotChars c.state.trace = w ++ [b] := by
  obtain ⟨n, hmay⟩ : ∃ n, platform.May 0 ((readerThread n 0).translate Call.prog)
      (fun _ m' => typedChars m'.trace = w ++ [eof, b] ∧ gotChars m'.trace = w ++ [b])
      (start user (readerThread n)).state := by
    have h := Reading.initial ⟨0, 1, 10⟩ user
    cases w with
    | nil =>
      exact ⟨1, (h.may_yield rfl rfl fun m₁ h₁ => h₁.pollTwice b).bind fun _ m₁ h₁ =>
        h₁.2.may_lastRound h₁.1 (by decide)⟩
    | cons a w =>
      exact ⟨w.length + 2, (h.may_yield rfl rfl fun m₁ h₁ => h₁.poll a).bind fun _ m₁ h₁ =>
        h₁.2.may_reader w a b h₁.1⟩
  obtain ⟨_, m', hm', hrun⟩ := hmay.run (f := fun _ => Call.finish.prog) rfl
  exact ⟨n, _, hrun, hm'⟩

/-- Whatever the interleaving of the polls with threads that call `GetChar` once per permit, the
characters returned are the first ones read from the file, in the same order, if and only if
nothing but `EOF` follows an `EOF` in the file. -/
theorem getChar_lossless_iff (file : List Byte) :
    (∀ user client c, (∀ t, Follows perPermit false (client t)) →
      platform.Run (fun _ _ => True) (start user client) c →
      typedChars c.state.trace <+: file →
      gotChars c.state.trace <+: typedChars c.state.trace) ↔ EofLast file := by
  refine ⟨fun h => ?_, fun hfile user client c hclient hrun htyped =>
    gotChars_prefix hfile hclient hrun htyped⟩
  refine List.isChain_iff_forall_rel_of_append_cons_cons.mpr fun a b w rest hsplit ha => ?_
  obtain ⟨n, c, hrun, htyped, hgot⟩ := exists_run_overwritten (fun _ => 0) w b
  have hprefix := h _ _ c (follows_readerThread n) hrun
    (by rw [htyped, hsplit, ha]; exact ⟨rest, by simp⟩)
  rw [htyped, hgot] at hprefix
  exact (List.cons_prefix_cons.mp ((List.prefix_append_right_inj w).mp hprefix)).1

/-- An `EOF` and an `A` are typed between two calls of the reader, and it gets the `A`. -/
theorem getChar_overwritten :
    ∃ n c, (∀ t, Follows perPermit false (readerThread n t)) ∧
      platform.Run (fun _ _ => True) (start (fun _ => 0) (readerThread n)) c ∧
      typedChars c.state.trace = [eof, 65] ∧ gotChars c.state.trace = [65] ∧
      ¬ gotChars c.state.trace <+: typedChars c.state.trace := by
  obtain ⟨n, c, hrun, htyped, hgot⟩ := exists_run_overwritten (fun _ => 0) [] 65
  refine ⟨n, c, follows_readerThread n, hrun, htyped, hgot, ?_⟩
  rw [htyped, hgot]
  decide

end Nachos.Threads
