import Nachos.Threads.Lock

/-! Output through `SynchConsole`. The lock is held while the character is given to the display,
but not until the interrupt for it has come, and the console refuses a character before that. -/

namespace Nachos.Threads
open Lib Program Platform

def calledChars (t : Thread) : List Event → List Byte
  | [] => []
  | .enter u (.putChar ch) :: h => if u = t then calledChars t h ++ [ch] else calledChars t h
  | _ :: h => calledChars t h

def shownChars (t : Thread) : List Event → List Byte
  | [] => []
  | .shown u ch :: h => if u = t then shownChars t h ++ [ch] else shownChars t h
  | _ :: h => shownChars t h

def returnedChars (t : Thread) : List Event → List Byte
  | [] => []
  | .leave u (.putChar ch) :: h => if u = t then returnedChars t h ++ [ch] else returnedChars t h
  | _ :: h => returnedChars t h

/-- A thread comes to the test of `putBusy` only after the interrupts for all characters that
were written. -/
def Unhurried (c : Tasks ops Machine Unit Thread) : Move Thread Choice → Prop
  | .act t _ => ∀ k, c.prog t = .call .getPutBusy k → c.state.console.writes = 0
  | .env _ => True

inductive PutPos where
  | out
  | entered (ch : Byte)
  /-- It has the lock. -/
  | locked (ch : Byte)
  /-- It has found that the console is not busy. -/
  | checked (ch : Byte)
  | written (ch : Byte)

def PutPos.Accounts (called shown returned : List Byte) : PutPos → Prop
  | .out => called = shown ∧ shown = returned
  | .entered ch | .locked ch | .checked ch => called = shown ++ [ch] ∧ shown = returned
  | .written ch => called = shown ∧ shown = returned ++ [ch]

def PutAt (m : Machine) (t : Thread) : PutPos → Prop
  | .locked _ => holds .console t m.trace = true
  | .checked _ => holds .console t m.trace = true ∧ m.console.writes = 0
  | _ => True

structure OutputInv (G : Thread → PutPos) (m : Machine) : Prop where
  busy : (m.console.putBusy = false ∧ m.console.writes = 0) ∨
    (m.console.putBusy = true ∧ m.console.writes = 1)
  place : ∀ t, PutAt m t (G t)
  account : ∀ t, (G t).Accounts (calledChars t m.trace) (shownChars t m.trace)
    (returnedChars t m.trace)

section invariant
variable {t u : Thread} {p : PutPos} {ch : Byte} {G : Thread → PutPos} {m m' : Machine}
  {T : Obj → Prop} {o : Op} {x : Choice} {e : Effect (ops.Res o) Machine}

theorem PutPos.Accounts.sandwich {called shown returned : List Byte} (h : p.Accounts called shown
    returned) : returned <+: shown ∧ shown <+: called := by
  cases p with
  | out =>
    obtain ⟨rfl, rfl⟩ := h
    exact ⟨List.prefix_rfl, List.prefix_rfl⟩
  | entered ch | locked ch | checked ch =>
    obtain ⟨rfl, rfl⟩ := h
    exact ⟨List.prefix_rfl, List.prefix_append ..⟩
  | written ch =>
    obtain ⟨rfl, rfl⟩ := h
    exact ⟨List.prefix_append .., List.prefix_rfl⟩

theorem shownChars_of_frame (hf : Frame T m m') (hd : ¬ T .display) (t : Thread) :
    shownChars t m'.trace = shownChars t m.trace := by
  refine hf.trace_eq fun e h he => ?_
  cases e with
  | shown u c => exact absurd (he _ rfl) hd
  | _ => rfl

theorem callChars_of_frame (hf : Frame T m m') (hc : ¬ T .calls) (t : Thread) :
    calledChars t m'.trace = calledChars t m.trace ∧
      returnedChars t m'.trace = returnedChars t m.trace := by
  constructor
  · refine hf.trace_eq fun e h he => ?_
    cases e with
    | enter u c => exact absurd (he _ rfl) hc
    | _ => rfl
  · refine hf.trace_eq fun e h he => ?_
    cases e with
    | leave u c => exact absurd (he _ rfl) hc
    | _ => rfl

theorem PutAt.congr (h : PutAt m u p)
    (hh : holds .console u m'.trace = holds .console u m.trace)
    (hw : m.console.writes = 0 → m'.console.writes = 0) : PutAt m' u p := by
  cases p with
  | locked ch => exact hh.trans h
  | checked ch => exact ⟨hh.trans h.1, hw h.2⟩
  | _ => trivial

def outputObjs (x : Obj) : Prop := x = .semaphore (.lock .console) ∨ x = .display ∨ x = .calls

@[simp] theorem apart_outputObjs : Apart T outputObjs ↔
    ¬ T (.semaphore (.lock .console)) ∧ ¬ T .display ∧ ¬ T .calls := by
  simp [Apart, outputObjs]

namespace OutputInv

theorem frame (h : OutputInv G m) (hf : Frame T m m') (hT : Apart T outputObjs) :
    OutputInv G m' := by
  obtain ⟨hs, hd, hc⟩ := apart_outputObjs.mp hT
  refine ⟨?_, fun u => ?_, fun u => ?_⟩
  · rw [(hf.display hd).1, (hf.display hd).2]
    exact h.busy
  · exact (h.place u).congr (holds_of_frame hf hs u) fun hw => (hf.display hd).2.trans hw
  · rw [(callChars_of_frame hf hc u).1, (callChars_of_frame hf hc u).2, shownChars_of_frame hf hd]
    exact h.account u

theorem writeDone (h : OutputInv G m) (hw : 0 < m.console.writes) : OutputInv G m.writeDone := by
  have hf := frame_up m .writeDone none
  refine ⟨.inl ⟨rfl, ?_⟩, fun u => ?_, fun u => ?_⟩
  · rcases h.busy with hb | hb
    · rw [hb.2] at hw
      cases hw
    · change m.console.writes - 1 = 0
      rw [hb.2]
  · refine (h.place u).congr (holds_of_frame hf (by simp) u) fun hz => ?_
    rw [hz] at hw
    cases hw
  · have hcalls : calledChars u m.writeDone.trace = calledChars u m.trace ∧
        returnedChars u m.writeDone.trace = returnedChars u m.trace :=
      callChars_of_frame hf (by simp) u
    have hshown : shownChars u m.writeDone.trace = shownChars u m.trace :=
      shownChars_of_frame hf (by simp) u
    rw [hcalls.1, hshown, hcalls.2]
    exact h.account u

theorem interrupt (h : OutputInv G m) {i : Irq} (hi : m.interrupt i = some m') :
    OutputInv G m' := by
  obtain rfl | ⟨n, rfl⟩ | ⟨-, rfl⟩ | ⟨c, -, rfl⟩ | ⟨hw, rfl⟩ | ⟨buffer, -, -, rfl⟩ | rfl :=
    Machine.interrupt_cases hi
  · exact h
  · exact h.frame (frame_up m (.user n) none) (by simp)
  · exact h.frame (handleInterrupt_frame m) (by simp)
  · exact h.frame (readChar_frame m c) (by simp)
  · exact h.writeDone hw
  · exact h.frame (readPacket_frame m buffer) (by simp)
  · exact h.frame (sendDone_frame m) (by simp)

theorem handle (h : OutputInv G m) {is : List Irq} (hi : m.handle is = some m') :
    OutputInv G m' := by
  induction is generalizing m with
  | nil =>
    cases hi
    exact h
  | cons i is ih =>
    obtain ⟨m₁, h₁, hi⟩ := Option.bind_eq_some_iff.mp hi
    exact ih (h.interrupt h₁) hi

theorem step (h : OutputInv G m) (he : platform.exec t o x m = some e)
    (hl : ∀ now, o ≠ .setLevel now) (hd : ¬ o.touches .display) (hc : ¬ o.touches .calls)
    (hat : PutAt e.state t p)
    (hacc : p.Accounts (calledChars t m.trace) (shownChars t m.trace) (returnedChars t m.trace)) :
    OutputInv (Function.update G t p) e.state := by
  have hf := exec_frame hl he
  refine ⟨?_, fun u => ?_, fun u => ?_⟩
  · rw [(hf.display hd).1, (hf.display hd).2]
    exact h.busy
  · rcases eq_or_ne u t with rfl | hu
    · rwa [Function.update_self]
    · rw [Function.update_of_ne hu]
      exact (h.place u).congr (holds_exec he hu) fun hw => (hf.display hd).2.trans hw
  · rw [(callChars_of_frame hf hc u).1, (callChars_of_frame hf hc u).2, shownChars_of_frame hf hd]
    rcases eq_or_ne u t with rfl | hu
    · rwa [Function.update_self]
    · rw [Function.update_of_ne hu]
      exact h.account u

theorem putChar (h : OutputInv G m) (hex : Exclusive .console m) (hg : G t = .checked ch) :
    OutputInv (Function.update G t (.written ch))
      ({ m with console := { m.console with
        putBusy := true
        writes := m.console.writes + 1 } }.setSched (m.toSched.note (.shown t ch))) := by
  have hat := h.place t
  have hacc := h.account t
  rw [hg] at hat hacc
  refine ⟨.inr ⟨rfl, ?_⟩, fun u => ?_, fun u => ?_⟩
  · change m.console.writes + 1 = 1
    rw [hat.2]
  · rcases eq_or_ne u t with rfl | hu
    · rw [Function.update_self]
      trivial
    · rw [Function.update_of_ne hu]
      have hatu := h.place u
      have hholds : holds .console u (.shown t ch :: m.trace) = holds .console u m.trace :=
        since_cons_of_not rfl rfl
      cases hgu : G u with
      | checked c =>
        -- two threads would have the lock
        rw [hgu] at hatu
        exact absurd (hex.unique u t hatu.1 hat.1) hu
      | locked c =>
        rw [hgu] at hatu
        exact hholds.trans hatu
      | _ => trivial
  · rcases eq_or_ne u t with rfl | hu
    · rw [Function.update_self]
      obtain ⟨hcalled, hshown⟩ := hacc
      have hnew : shownChars u (.shown u ch :: m.trace) = shownChars u m.trace ++ [ch] :=
        if_pos rfl
      refine ⟨?_, ?_⟩
      · exact hcalled.trans hnew.symm
      · exact hnew.trans (by rw [hshown]; rfl)
    · rw [Function.update_of_ne hu]
      have hold : shownChars u (.shown t ch :: m.trace) = shownChars u m.trace :=
        if_neg (Ne.symm hu)
      change (G u).Accounts (calledChars u m.trace) (shownChars u (.shown t ch :: m.trace))
        (returnedChars u m.trace)
      rw [hold]
      exact h.account u

theorem note {e : Event} (h : OutputInv G m) (he : e.obj = some .calls)
    (hother : ∀ u, u ≠ t → calledChars u (e :: m.trace) = calledChars u m.trace ∧
      returnedChars u (e :: m.trace) = returnedChars u m.trace)
    (hat : PutAt (m.setSched (m.toSched.note e)) t p)
    (hacc : p.Accounts (calledChars t (e :: m.trace)) (shownChars t m.trace)
      (returnedChars t (e :: m.trace))) :
    OutputInv (Function.update G t p) (m.setSched (m.toSched.note e)) := by
  have hf : Frame (· = .calls) m (m.setSched (m.toSched.note e)) := .note m (by simp [he])
  have hshown := shownChars_of_frame hf (by simp)
  refine ⟨h.busy, fun u => ?_, fun u => ?_⟩
  · rcases eq_or_ne u t with rfl | hu
    · rwa [Function.update_self]
    · rw [Function.update_of_ne hu]
      exact (h.place u).congr (holds_of_frame hf (by simp) u) id
  · rw [hshown]
    rcases eq_or_ne u t with rfl | hu
    · rw [Function.update_self]
      exact hacc
    · rw [Function.update_of_ne hu]
      change (G u).Accounts (calledChars u (e :: m.trace)) _ (returnedChars u (e :: m.trace))
      rw [(hother u hu).1, (hother u hu).2]
      exact h.account u

end OutputInv
end invariant

/-! ## The routines -/

/-- If the runs are `quiet`, no thread comes to a failing test of `putBusy`. -/
def outputDiscipline (quiet : Bool) : Discipline ops Machine Thread Choice PutPos where
  Inv := OutputInv
  Allowed m _ o _ := Exclusive .console m ∧
    (quiet = true → o = .getPutBusy → m.console.writes = 0)
  Legal o := quiet = true → o ≠ .assert .notPutBusy false

section routines
variable {quiet : Bool} {t : Thread} {ch : Byte} {g : PutPos}

theorem output_within {α : Type} {T : Obj → Prop} {prog : Prog α} (hp : prog.Uses (Op.Within T))
    (hT : Apart T outputObjs) (ha : ¬ T (.assertion .notPutBusy)) :
    platform.Safe (outputDiscipline quiet) t prog (fun _ g' => g' = g) g := by
  refine Safe.of_uses (hp.mono fun o ho => ⟨?_, fun G m x e hI _ he => ?_⟩)
  · rintro - rfl
    obtain ⟨now, h⟩ | ho := ho
    · cases h
    · exact ha (ho _ rfl)
  · by_cases hl : ∃ now, o = .setLevel now
    · obtain ⟨now, rfl⟩ := hl
      obtain ⟨m₁, is, h₁, hf⟩ := setLevel_frame he
      exact (OutputInv.handle hI h₁).frame hf apart_false
    · have ho := ho.resolve_left hl
      exact OutputInv.frame hI (exec_frame (fun now hn => hl ⟨now, hn⟩) he)
        fun y hy => mt (ho y) (hT y hy)

theorem output_setLevel (now : IntStatus) :
    platform.Safe (outputDiscipline quiet) t (setLevel now) (fun _ g' => g' = g) g :=
  output_within (T := fun _ => False) (within_setLevel now) apart_false not_false

theorem output_setHolder (v : Option Thread) :
    platform.Safe (outputDiscipline quiet) t (setHolder .console v) (fun _ g' => g' = g) g :=
  output_within (T := (· = .holder .console)) (within_perform (.inr fun _ h => h)) (by simp)
    (by simp)

theorem output_goto {o : Op} {Q : ops.Res o → PutPos → Prop} {g₁ : PutPos}
    (ho : o.retried = false) (hlegal : (outputDiscipline quiet).Legal o)
    (hd : ¬ o.touches .display) (hc : ¬ o.touches .calls)
    (hg : ∀ called shown returned, g.Accounts called shown returned →
      g₁.Accounts called shown returned)
    (hstep : ∀ G m x r m', OutputInv G m → G t = g → (outputDiscipline quiet).Allowed m t o x →
      m.currentThread = t → m.execute x o = some (.done r m') → PutAt m' t g₁ ∧ Q r g₁) :
    platform.Safe (outputDiscipline quiet) t (perform (S := ops) o) Q g := by
  refine safe_once ho hlegal fun G m x r m' hI hG hA ht ha he => ?_
  obtain ⟨hat, hQ⟩ := hstep G m x r m' hI hG hA ht he
  have hacc := OutputInv.account hI t
  rw [hG] at hacc
  refine ⟨g₁, OutputInv.step hI (exec_of_execute ht ha he) (fun now hn => ?_) hd hc hat
    (hg _ _ _ hacc), hQ⟩
  subst hn
  cases ho

theorem output_acquire {g₁ : PutPos} (hg : ∀ called shown returned,
      g.Accounts called shown returned → g₁.Accounts called shown returned)
    (hat : ∀ m, holds .console t m.trace = true → PutAt m t g₁) :
    platform.Safe (outputDiscipline quiet) t (Lock.acquire .console) (fun _ g' => g' = g₁) g := by
  refine safe_acquire (fun _ => Op.noConfusion) (safe_p (fun now _ _ => output_setLevel now) ?_)
    (output_setHolder _)
  refine safe_takeValue (fun _ => Op.noConfusion) (fun G m hI _ _ _ _ => ?_)
    fun G m x hI hG _ ht ha hv => ?_
  · have hI : OutputInv G m := hI
    refine OutputInv.mk hI.busy (fun u => ?_) hI.account
    exact (hI.place u).congr (since_cons_of_not rfl rfl) id
  · have hacc := OutputInv.account hI t
    rw [hG] at hacc
    have hexec : platform.exec t (.takeValue (.lock .console)) x m =
        some (.done () (m.setSched (m.toSched.down (.lock .console)))) :=
      exec_of_execute ht ha (by simp [Machine.execute, hv])
    refine ⟨g₁, OutputInv.step hI hexec (by simp) (by simp [Op.touches]) (by simp [Op.touches])
      (hat _ ?_) (hg _ _ _ hacc), rfl⟩
    exact (holds_down t).trans (by simp [ht])

theorem output_release (hat : ∀ m, PutAt m t g) :
    platform.Safe (outputDiscipline quiet) t (Lock.release .console) (fun _ g' => g' = g) g := by
  have hheld : platform.Safe (outputDiscipline quiet) t (Lock.isHeldByCurrentThread .console)
      (fun _ g' => g' = g) g :=
    output_within (T := fun _ => False) (within_isHeldByCurrentThread _) apart_false not_false
  have hgive : platform.Safe (outputDiscipline quiet) t (giveValue (.lock .console))
      (fun _ g' => g' = g) g :=
    output_goto rfl (fun _ => Op.noConfusion) (by simp [Op.touches]) (by simp [Op.touches])
      (fun _ _ _ h => h) fun G m x r m' _ _ _ _ _ => ⟨hat m', rfl⟩
  refine safe_release g (hheld.mono fun held _ hg => ?_)
    (safe_v (fun now _ _ => output_setLevel now) hgive) fun _ hg => hg ▸ output_setHolder none
  cases held <;> exact hg

/-- The test of `putBusy`. In a quiet run it finds the console ready. -/
theorem output_getPutBusy :
    platform.Safe (outputDiscipline quiet) t getPutBusy
      (fun busy g' => (busy = true ∧ quiet = false) ∨ (busy = false ∧ g' = .checked ch))
      (.locked ch) := by
  refine safe_once rfl (fun _ => Op.noConfusion) fun G m x r m' hI hG hA ht ha he => ?_
  have hI : OutputInv G m := hI
  have hacc := hI.account t
  have hat := hI.place t
  rw [hG] at hacc hat
  have hexec := exec_of_execute ht ha he
  cases he
  rcases hI.busy with ⟨hb, hw⟩ | ⟨hb, hw⟩
  · exact ⟨.checked ch, hI.step hexec (by simp) (by simp [Op.touches]) (by simp [Op.touches])
      ⟨hat, hw⟩ hacc, .inr ⟨hb, rfl⟩⟩
  · refine ⟨.locked ch, hI.step hexec (by simp) (by simp [Op.touches]) (by simp [Op.touches])
      hat hacc, .inl ⟨hb, ?_⟩⟩
    refine Bool.eq_false_of_not_eq_true fun hq => ?_
    rw [hA.2 hq rfl] at hw
    cases hw

theorem output_consolePutChar :
    platform.Safe (outputDiscipline quiet) t (Console.putChar ch)
      (fun _ g' => g' = .written ch) (.locked ch) := by
  refine output_getPutBusy.bind fun busy g hb => ?_
  obtain ⟨rfl, hq⟩ | ⟨rfl, rfl⟩ := hb
  · -- the assertion fails
    refine Safe.bind (Q := fun _ _ => False) (safe_once rfl ?_ fun G m x r m' _ _ _ _ _ he => ?_)
      fun _ _ hf => hf.elim
    · intro hq'
      rw [hq] at hq'
      cases hq'
    · cases he
  · have hassert : platform.Safe (outputDiscipline quiet) t (assert .notPutBusy true)
        (fun _ g' => g' = .checked ch) (.checked ch) := by
      refine safe_look rfl (fun _ => Op.assert_true_ne _ _) fun G m x r m' _ _ _ he => ?_
      cases he
      exact ⟨rfl, rfl⟩
    refine hassert.bind_eq fun _ => safe_once rfl (fun _ => Op.noConfusion)
      fun G m x r m' hI hG hA ht _ he => ?_
    cases he
    exact ⟨.written ch, ht ▸ OutputInv.putChar hI hA.1 (ht ▸ hG), rfl⟩

theorem output_putChar :
    platform.Safe (outputDiscipline quiet) t (SynchConsole.putChar ch)
      (fun _ g' => g' = .written ch) (.entered ch) := by
  have hacquire : platform.Safe (outputDiscipline quiet) t (Lock.acquire .console)
      (fun _ g' => g' = .locked ch) (.entered ch) :=
    output_acquire (fun _ _ _ h => h) fun _ h => h
  have hrelease : platform.Safe (outputDiscipline quiet) t (Lock.release .console)
      (fun _ g' => g' = .written ch) (.written ch) := output_release fun _ => trivial
  exact hacquire.bind_eq fun _ => output_consolePutChar.bind_eq fun _ => hrelease

theorem output_getChar :
    platform.Safe (outputDiscipline quiet) t SynchConsole.getChar (fun _ g' => g' = .out)
      .out := by
  have hacquire : platform.Safe (outputDiscipline quiet) t (Lock.acquire .console)
      (fun _ g' => g' = .out) .out := output_acquire (fun _ _ _ h => h) fun _ _ => trivial
  have hget : platform.Safe (outputDiscipline quiet) t Console.getChar (fun _ g' => g' = .out)
      .out :=
    output_within (T := (· = .keyboard)) (within_perform (.inr fun _ h => h)) (by simp) (by simp)
  have hrelease : platform.Safe (outputDiscipline quiet) t (Lock.release .console)
      (fun _ g' => g' = .out) .out := output_release fun _ => trivial
  exact hacquire.bind_eq fun _ => hget.bind_eq fun _ => hrelease.bind_eq fun _ => rfl

theorem output_note {c : Call} (hc : ∀ ch, c ≠ .putChar ch) :
    platform.Safe (outputDiscipline quiet) t (enter c) (fun _ g' => g' = .out) .out ∧
      platform.Safe (outputDiscipline quiet) t (leave c) (fun _ g' => g' = .out) .out := by
  have hcalled : ∀ u v h, calledChars u (.enter v c :: h) = calledChars u h := fun u v h => by
    cases c with
    | putChar ch => exact absurd rfl (hc ch)
    | _ => rfl
  have hreturned : ∀ u v h, returnedChars u (.leave v c :: h) = returnedChars u h := fun u v h => by
    cases c with
    | putChar ch => exact absurd rfl (hc ch)
    | _ => rfl
  constructor
  · refine safe_once rfl (fun _ => Op.noConfusion) fun G m x r m' hI hG _ _ _ he => ?_
    cases he
    have hacc := OutputInv.account hI t
    rw [hG] at hacc
    refine ⟨.out, OutputInv.note hI rfl (fun u _ => ⟨hcalled .., rfl⟩) trivial ?_, rfl⟩
    rw [hcalled]
    exact hacc
  · refine safe_once rfl (fun _ => Op.noConfusion) fun G m x r m' hI hG _ _ _ he => ?_
    cases he
    have hacc := OutputInv.account hI t
    rw [hG] at hacc
    refine ⟨.out, OutputInv.note hI rfl (fun u _ => ⟨rfl, hreturned ..⟩) trivial ?_, rfl⟩
    rw [hreturned]
    exact hacc

theorem output_prog {c : Call} (hc : ∀ ch, c ≠ .putChar ch)
    (hbody : platform.Safe (outputDiscipline quiet) t c.body (fun _ g' => g' = .out) .out) :
    platform.Safe (outputDiscipline quiet) t c.prog (fun _ g' => g' = .out) .out :=
  safe_prog (output_note hc).1 hbody (output_note hc).2

theorem output_enter :
    platform.Safe (outputDiscipline quiet) t (enter (.putChar ch)) (fun _ g' => g' = .entered ch)
      .out := by
  refine safe_once rfl (fun _ => Op.noConfusion) fun G m x r m' hI hG _ ht _ he => ?_
  cases he
  have hacc := OutputInv.account hI t
  rw [hG] at hacc
  refine ⟨.entered ch, OutputInv.note hI rfl (fun u hu => ⟨?_, rfl⟩) trivial ⟨?_, hacc.2⟩, rfl⟩
  · exact if_neg (ht ▸ Ne.symm hu)
  · rw [← hacc.1]
    exact if_pos ht

theorem output_leave :
    platform.Safe (outputDiscipline quiet) t (leave (.putChar ch)) (fun _ g' => g' = .out)
      (.written ch) := by
  refine safe_once rfl (fun _ => Op.noConfusion) fun G m x r m' hI hG _ ht _ he => ?_
  cases he
  have hacc := OutputInv.account hI t
  rw [hG] at hacc
  refine ⟨.out, OutputInv.note hI rfl (fun u hu => ⟨rfl, ?_⟩) trivial ⟨hacc.1, ?_⟩, rfl⟩
  · exact if_neg (ht ▸ Ne.symm hu)
  · rw [hacc.2]
    exact (if_pos ht).symm

theorem output_call (c : Call) :
    platform.Safe (outputDiscipline quiet) t c.prog (fun _ g' => g' = .out) .out := by
  cases c with
  | putChar ch => exact safe_prog output_enter output_putChar output_leave
  | getChar => exact output_prog (by simp) output_getChar
  | _ =>
    refine output_prog (by simp) (output_within (Call.body_within _) ?_ ?_)
    all_goals simp [Call.touches]

end routines

theorem OutputInv.initial (config : NetConfig) (user : Nat → Int) :
    OutputInv (fun _ => .out) ((Machine.initial (initialValue user)).named config) :=
  ⟨.inl ⟨rfl, rfl⟩, fun _ => trivial, fun _ => ⟨rfl, rfl⟩⟩

section runs
variable {user : Nat → Int} {client : Thread → Client}
  {c c' : Tasks ops Machine Unit Thread}

theorem outputInv_of_run (quiet : Bool)
    (h : platform.Run (fun _ _ => True) (start user client) c)
    (hquiet : quiet = true → platform.Run Unhurried (start user client) c) :
    ∃ G, OutputInv G c.state ∧
      ∀ t, platform.Safe (outputDiscipline quiet) t (c.prog t) (fun _ _ => True) (G t) := by
  have hmeets : platform.Run (outputDiscipline quiet).Meets (start user client) c := by
    cases quiet with
    | false =>
      refine (h.strengthen fun c' h' => exclusive_of_run .console h').mono fun c' mv hmv => ?_
      cases mv with
      | env x => trivial
      | act t x => exact fun o k _ => ⟨hmv.2, Bool.noConfusion⟩
    | true =>
      refine ((hquiet rfl).strengthen fun c' h' => exclusive_of_run .console
        (h'.mono fun _ _ _ => trivial)).mono fun c' mv hmv => ?_
      cases mv with
      | env x => trivial
      | act t x =>
        refine fun o k hk => ⟨hmv.2, fun _ ho => ?_⟩
        subst ho
        exact hmv.1 k hk
  exact exists_ghost (D := outputDiscipline quiet) (R := fun _ _ g => g = .out) (g := .out)
    (OutputInv.initial _ user)
    (fun G x m m' hI he => by
      obtain ⟨m₁, is, h₁, hf⟩ := env_frame he
      exact (OutputInv.handle hI h₁).frame hf apart_false)
    (fun t => output_setLevel .on)
    (fun t o _ _ g _ hg => by
      subst hg
      exact output_call o)
    (fun t _ g hg => by
      subst hg
      exact (output_call .finish).mono fun _ _ _ => trivial)
    (fun _ => rfl) (fun t => follows_any (client t)) hmeets

theorem putChar_refused {t : Thread} {x : Choice} {ch : Byte} {k : Unit → Prog Unit}
    (h : platform.Run (fun _ _ => True) (start user client) c)
    (hk : c.prog t = Console.putChar ch >>= k) (hw : c.state.console.writes ≠ 0)
    (hs : platform.step (.act t x) c = some c') :
    ∃ k', c'.prog t = .call (.assert .notPutBusy false) k' := by
  obtain ⟨G, hI, -⟩ := outputInv_of_run false h Bool.noConfusion
  have hbusy : c.state.console.putBusy = true := by
    rcases hI.busy with hb | hb
    · exact absurd hb.2 hw
    · exact hb.1
  rw [step, hk] at hs
  obtain ⟨e, he, rfl⟩ := Option.map_eq_some_iff.mp hs
  obtain ⟨-, -, he⟩ := exec_eq_some he
  cases he
  refine ⟨fun _ => perform (S := ops) (.putChar ch) >>= k, (Function.update_self ..).trans ?_⟩
  rw [hbusy]
  rfl

/-- In every run in which the threads come to the test of `putBusy` only when no interrupt for a
character is outstanding, the assertion never fails and the display receives the characters of
each thread once and in order. A thread that comes to `Console::PutChar` earlier fails the
assertion. -/
theorem putChar_serialised (user : Nat → Int) (client : Thread → Client)
    (c : Tasks ops Machine Unit Thread) :
    (platform.Run Unhurried (start user client) c →
      (∀ t k, c.prog t ≠ .call (.assert .notPutBusy false) k) ∧
      ∀ t, returnedChars t c.state.trace <+: shownChars t c.state.trace ∧
        shownChars t c.state.trace <+: calledChars t c.state.trace) ∧
    ∀ c' t x ch k, platform.Run (fun _ _ => True) (start user client) c →
      c.prog t = Console.putChar ch >>= k → c.state.console.writes ≠ 0 →
      platform.step (.act t x) c = some c' →
      ∃ k', c'.prog t = .call (.assert .notPutBusy false) k' := by
  constructor
  · intro h
    obtain ⟨G, hI, hsafe⟩ := outputInv_of_run true (h.mono fun _ _ _ => trivial)
      fun _ => h
    exact ⟨fun t k hk => (hsafe t).legal hk rfl rfl, fun t => (hI.account t).sandwich⟩
  · intro c' t x ch k h hk hw hs
    exact putChar_refused h hk hw hs

def twoChars : Client := do
  perform (S := calls) (.putChar 65)
  perform (S := calls) (.putChar 66)

def testsEarly (c : Tasks ops Machine Unit Thread) : Move Thread Choice → Bool
  | .act t _ =>
    match c.prog t with
    | .call .getPutBusy _ => c.state.console.writes != 0
    | _ => false
  | .env _ => false

/-- The interrupt for the first character comes before the second call, and both are shown. Without
it the second call is refused. -/
theorem putChar_serialised_two :
    (∃ c, platform.Run Unhurried (start (fun _ => 0) fun _ => twoChars) c ∧
      shownChars 0 c.state.trace = [65, 66] ∧ returnedChars 0 c.state.trace = [65, 66] ∧
      shownChars 0 c.state.trace <+: calledChars 0 c.state.trace) ∧
    ∃ c c' x k, platform.Run (fun _ _ => True) (start (fun _ => 0) fun _ => twoChars) c ∧
      platform.step (.act 0 x) c = some c' ∧ c'.prog 0 = .call (.assert .notPutBusy false) k := by
  have hok : ∀ c mv, (!testsEarly c mv) = true → Unhurried c mv := by
    intro c mv hmv
    cases mv with
    | env x => trivial
    | act t x =>
      intro k hk
      simpa [testsEarly, hk] using hmv
  have h := run_of_replayIf (P := platform) (c := start (fun _ => 0) fun _ => twoChars) hok
    (List.replicate 13 (.act 0 ⟨[], false, 0⟩) ++ .act 0 ⟨[.consoleWriteDone], false, 0⟩ ::
      List.replicate 18 (.act 0 ⟨[], false, 0⟩)) rfl
  obtain ⟨c, c', k, h', hput, hw, hs⟩ : ∃ c c' k,
      platform.Run (fun _ _ => True) (start (fun _ => 0) fun _ => twoChars) c ∧
      c.prog 0 = Console.putChar 66 >>= k ∧ c.state.console.writes = 1 ∧
      platform.step (.act 0 ⟨[], false, 0⟩) c = some c' :=
    ⟨_, _, _, run_of_replay (List.replicate 22 (.act 0 ⟨[], false, 0⟩)) rfl, rfl, rfl, rfl⟩
  obtain ⟨k', hk⟩ := (putChar_serialised _ _ c).2 c' 0 _ 66 k h' hput (by simp [hw]) hs
  exact ⟨⟨_, h, rfl, rfl, (((putChar_serialised _ _ _).1 h).2 0).2⟩, c, c', _, k', h', hs, hk⟩

/-- A thread calls `PutChar` twice, and the interrupt for the first character has not come. -/
theorem putChar_twice_fails :
    ∃ c k, platform.Run (fun _ _ => True) (start (fun _ => 0) fun _ => twoChars) c ∧
      c.prog 0 = .call (.assert .notPutBusy false) k ∧ shownChars 0 c.state.trace = [65] := by
  have h := run_of_replay (P := platform) (c := start (fun _ => 0) fun _ => twoChars)
    (List.replicate 23 (.act 0 ⟨[], false, 0⟩)) rfl
  exact ⟨_, _, h, rfl, rfl⟩

end runs
end Nachos.Threads
