import Nachos.Machine.Instruction
import Nachos.Machine.VirtualMemory

/-! Instructions that are executed again after a page fault. No register is written before the last
access of an instruction, and nothing is accessed after a write, so an attempt that faults has done
nothing but complete the pending load. -/

namespace Nachos
open Lib

/-! ## Registers -/

/-- The registers that an instruction names, as a source or as its destination. -/
def Instruction.names (i : Instruction) : List (Fin 32) :=
  match i.opCode with
  | .add | .addu | .and | .nor | .or | .sllv | .slt | .sltu | .srav | .srlv | .sub | .subu | .xor =>
    [i.rs, i.rt, i.rd]
  | .addi | .addiu | .andi | .ori | .slti | .sltiu | .xori | .beq | .bne | .div | .divu | .mult
  | .multu | .lb | .lbu | .lh | .lhu | .lw | .lwl | .lwr | .sb | .sh | .sw | .swl | .swr =>
    [i.rs, i.rt]
  | .sll | .sra | .srl => [i.rt, i.rd]
  | .bgez | .bgtz | .blez | .bltz | .jr | .mthi | .mtlo => [i.rs]
  | .bgezal | .bltzal => [i.rs, 31]
  | .jalr => [i.rs, i.rd]
  | .jal => [31]
  | .lui => [i.rt]
  | .mfhi | .mflo => [i.rd]
  | .j | .rfe | .syscall | .unimp | .res | .special | .bcond => []

def Cpu.shown (cpu : Cpu) : Cpu := { cpu with badVAddr := 0 }

def Completion.shown : Completion → Completion
  | .done cpu => .done cpu.shown
  | .raise which cpu => .raise which cpu.shown
  | .assertFailed => .assertFailed
  | .undefined => .undefined

namespace Cpu
variable {cpu : Cpu} {i : Instruction} {x d : Fin 32} {bad : Word}

/-- The instruction does not touch the target of the pending load, or none is pending. -/
def Unrelated (cpu : Cpu) (i : Instruction) : Prop :=
  cpu.load ∉ i.names ∨ cpu.load = 0 ∧ cpu.loadValue = 0

theorem gp_raise (cpu : Cpu) (bad : Word) :
    (cpu.raise bad).gp = Function.update (Function.update cpu.gp cpu.load cpu.loadValue) 0 0 := rfl

theorem gp_raise_of_names (h : cpu.Unrelated i) (hx : x ∈ i.names) :
    (cpu.raise bad).gp x = cpu.gp x := by
  rw [gp_raise]
  by_cases h0 : x = 0
  · rw [h0, Function.update_self, cpu.zero]
  · rw [Function.update_of_ne h0]
    obtain h | ⟨hl, -⟩ := h
    · exact Function.update_of_ne (fun e : x = cpu.load => h (e ▸ hx)) ..
    · exact Function.update_of_ne (hl ▸ h0) ..

theorem update_raise (h : d ≠ cpu.load ∨ cpu.load = 0) (v : Word) :
    Function.update (Function.update (Function.update (cpu.raise bad).gp d v) 0 0) 0 0 =
      Function.update (Function.update (Function.update cpu.gp d v) cpu.load cpu.loadValue) 0 0 := by
  funext g
  rw [gp_raise]
  simp only [Function.update_apply]
  by_cases h0 : g = 0
  · simp [h0]
  · simp only [h0, if_false]
    obtain hd | hl := h
    · by_cases hg : g = d
      · simp [hg, hd]
      · simp [hg]
    · simp [hl, h0]

theorem update_raise_self :
    Function.update (Function.update (cpu.raise bad).gp 0 0) 0 0 =
      Function.update (Function.update cpu.gp cpu.load cpu.loadValue) 0 0 := by
  rw [gp_raise, Function.update_idem, Function.update_idem]

theorem complete_set_raise (h : d ≠ cpu.load ∨ cpu.load = 0) (v : Word) (n : Fin 32)
    (nv pcAfter : Word) :
    ((cpu.raise bad).complete (.next ((cpu.raise bad).set d v) n nv pcAfter)).shown =
      (cpu.complete (.next (cpu.set d v) n nv pcAfter)).shown := by
  simp only [complete, Completion.shown, Completion.done.injEq]
  exact Cpu.ext (update_raise h v) rfl rfl rfl rfl rfl rfl rfl rfl

theorem complete_raise (hi lo : Word) (n : Fin 32) (nv pcAfter : Word) :
    ((cpu.raise bad).complete
      (.next { (cpu.raise bad).toRegisters with hi := hi, lo := lo } n nv pcAfter)).shown =
    (cpu.complete (.next { cpu.toRegisters with hi := hi, lo := lo } n nv pcAfter)).shown := by
  simp only [complete, Completion.shown, Completion.done.injEq]
  exact Cpu.ext update_raise_self rfl rfl rfl rfl rfl rfl rfl rfl

theorem raise_raise (bad' : Word) : ((cpu.raise bad).raise bad').shown = (cpu.raise bad').shown :=
  Cpu.ext update_raise_self rfl rfl rfl rfl rfl rfl rfl rfl

theorem complete_raise_raise (which : ExceptionType) (bad' : Word) :
    ((cpu.raise bad).complete (.raise which bad')).shown =
      (cpu.complete (.raise which bad')).shown := by
  simp only [complete, Completion.shown, raise_raise]

theorem loading_raise (h : cpu.Unrelated i) (hx : x ∈ i.names) :
    (cpu.raise bad).loading x = cpu.loading x := by
  have hgp : (cpu.raise bad).gp x = cpu.gp x := gp_raise_of_names h hx
  have hleft : (cpu.raise bad).loading x = cpu.gp x := by
    rw [Registers.loading, hgp]
    split
    · next h0 =>
      have h0 : (0 : Fin 32) = x := h0
      rw [← h0, cpu.zero]
      rfl
    · rfl
  rw [hleft, Registers.loading]
  split
  · next hl =>
    obtain h | ⟨h0, hv⟩ := h
    · exact absurd (hl ▸ hx) h
    · rw [hv, ← hl, h0, cpu.zero]
  · rfl

def ending (cpu : Cpu) (i : Instruction) : Program MemSig Completion :=
  cpu.execute i >>= fun effect => .ret (cpu.complete effect).shown

/-- An instruction that does not touch the target of the pending load makes the same accesses and
ends in the same way when the load has been completed before it. -/
theorem ending_raise (h : cpu.Unrelated i) : (cpu.raise bad).ending i = cpu.ending i := by
  have hgp : ∀ x ∈ i.names, (cpu.raise bad).gp x = cpu.gp x := fun x => gp_raise_of_names h
  have hdest : ∀ x ∈ i.names, x ≠ cpu.load ∨ cpu.load = 0 := fun x hx => by
    obtain h | h := h
    · exact .inl fun e => h (e ▸ hx)
    · exact .inr h.1
  have hload : ∀ x ∈ i.names, (cpu.raise bad).loading x = cpu.loading x := fun x =>
    loading_raise h
  obtain ⟨op, rs, rt, rd, extra⟩ := i
  cases op with
  | addu | subu | and | nor | or | xor | sllv | srav | srlv | slt | sltu =>
    have hs := hgp rs (by simp [Instruction.names])
    have ht := hgp rt (by simp [Instruction.names])
    have hd := hdest rd (by simp [Instruction.names])
    simp only [ending, Registers.execute, Registers.setIf, hs, ht]
    exact congrArg Program.ret (complete_set_raise hd _ _ _ _)
  | add | sub =>
    have hs := hgp rs (by simp [Instruction.names])
    have ht := hgp rt (by simp [Instruction.names])
    have hd := hdest rd (by simp [Instruction.names])
    simp only [ending, Registers.execute, hs, ht]
    split_ifs
    · exact congrArg Program.ret (complete_raise_raise _ _)
    · exact congrArg Program.ret (complete_set_raise hd _ _ _ _)
  | addi =>
    have hs := hgp rs (by simp [Instruction.names])
    have hd := hdest rt (by simp [Instruction.names])
    simp only [ending, Registers.execute, hs]
    split_ifs
    · exact congrArg Program.ret (complete_raise_raise _ _)
    · exact congrArg Program.ret (complete_set_raise hd _ _ _ _)
  | addiu | andi | ori | xori | slti | sltiu =>
    have hs := hgp rs (by simp [Instruction.names])
    have hd := hdest rt (by simp [Instruction.names])
    simp only [ending, Registers.execute, Registers.setIf, hs]
    exact congrArg Program.ret (complete_set_raise hd _ _ _ _)
  | sll | sra | srl =>
    have ht := hgp rt (by simp [Instruction.names])
    have hd := hdest rd (by simp [Instruction.names])
    simp only [ending, Registers.execute, ht]
    exact congrArg Program.ret (complete_set_raise hd _ _ _ _)
  | lui =>
    exact congrArg Program.ret (complete_set_raise (hdest rt (by simp [Instruction.names])) _ _ _ _)
  | mfhi | mflo =>
    exact congrArg Program.ret (complete_set_raise (hdest rd (by simp [Instruction.names])) _ _ _ _)
  | jal =>
    exact congrArg Program.ret (complete_set_raise (hdest 31 (by simp [Instruction.names])) _ _ _ _)
  | j => exact congrArg Program.ret (complete_raise cpu.hi cpu.lo 0 0 _)
  | jr =>
    have hs := hgp rs (by simp [Instruction.names])
    simp only [ending, Registers.execute, hs]
    exact congrArg Program.ret (complete_raise cpu.hi cpu.lo 0 0 _)
  | jalr =>
    have hs := hgp rs (by simp [Instruction.names])
    have hd := hdest rd (by simp [Instruction.names])
    simp only [ending, Registers.execute, Registers.link, Registers.set, Function.update_apply, hs]
    exact congrArg Program.ret (complete_set_raise hd _ _ _ _)
  | beq | bne =>
    have hs := hgp rs (by simp [Instruction.names])
    have ht := hgp rt (by simp [Instruction.names])
    simp only [ending, Registers.execute, hs, ht]
    exact congrArg Program.ret (complete_raise cpu.hi cpu.lo 0 0 _)
  | bgez | bgtz | blez | bltz =>
    have hs := hgp rs (by simp [Instruction.names])
    simp only [ending, Registers.execute, hs]
    exact congrArg Program.ret (complete_raise cpu.hi cpu.lo 0 0 _)
  | bgezal | bltzal =>
    have hs := hgp rs (by simp [Instruction.names])
    have hd := hdest 31 (by simp [Instruction.names])
    simp only [ending, Registers.execute, Registers.link, Registers.set, Function.update_apply, hs]
    exact congrArg Program.ret (complete_set_raise hd _ _ _ _)
  | mthi | mtlo =>
    have hs := hgp rs (by simp [Instruction.names])
    simp only [ending, Registers.execute, hs]
    exact congrArg Program.ret (complete_raise _ _ 0 0 _)
  | mult | multu =>
    have hs := hgp rs (by simp [Instruction.names])
    have ht := hgp rt (by simp [Instruction.names])
    simp only [ending, Registers.execute, hs, ht]
    exact congrArg Program.ret (complete_raise _ _ 0 0 _)
  | div =>
    have hs := hgp rs (by simp [Instruction.names])
    have ht := hgp rt (by simp [Instruction.names])
    simp only [ending, Registers.execute, hs, ht]
    split_ifs
    · exact congrArg Program.ret (complete_raise 0 0 0 0 _)
    · rfl
    · exact congrArg Program.ret (complete_raise _ _ 0 0 _)
  | divu =>
    have hs := hgp rs (by simp [Instruction.names])
    have ht := hgp rt (by simp [Instruction.names])
    simp only [ending, Registers.execute, hs, ht]
    split_ifs
    · exact congrArg Program.ret (complete_raise 0 0 0 0 _)
    · exact congrArg Program.ret (complete_raise _ _ 0 0 _)
  | lb | lbu =>
    have hs := hgp rs (by simp [Instruction.names])
    simp only [ending, Registers.execute, hs]
    exact congrArg (Program.call _) (funext fun v =>
      congrArg Program.ret (complete_raise cpu.hi cpu.lo _ _ _))
  | lh | lhu | lw =>
    have hs := hgp rs (by simp [Instruction.names])
    simp only [ending, Registers.execute, hs]
    split_ifs
    · exact congrArg Program.ret (complete_raise_raise _ _)
    · exact congrArg (Program.call _) (funext fun v =>
        congrArg Program.ret (complete_raise cpu.hi cpu.lo _ _ _))
  | lwl | lwr =>
    have hs := hgp rs (by simp [Instruction.names])
    have hl := hload rt (by simp [Instruction.names])
    simp only [ending, Registers.execute, hs, hl]
    split_ifs
    · rfl
    · exact congrArg (Program.call _) (funext fun v =>
        congrArg Program.ret (complete_raise cpu.hi cpu.lo _ _ _))
  | sb | sh | sw =>
    have hs := hgp rs (by simp [Instruction.names])
    have ht := hgp rt (by simp [Instruction.names])
    simp only [ending, Registers.execute, hs, ht]
    exact congrArg (Program.call _) (funext fun v =>
      congrArg Program.ret (complete_raise cpu.hi cpu.lo _ _ _))
  | swl | swr =>
    have hs := hgp rs (by simp [Instruction.names])
    have ht := hgp rt (by simp [Instruction.names])
    simp only [ending, Registers.execute, hs, ht]
    split_ifs
    · rfl
    · exact congrArg (Program.call _) (funext fun v => congrArg (Program.call _) (funext fun v' =>
        congrArg Program.ret (complete_raise cpu.hi cpu.lo _ _ _)))
  | syscall | unimp | res => exact congrArg Program.ret (complete_raise_raise _ _)
  | rfe | special | bcond => rfl

end Cpu

/-! ## Attempts -/

def InstrEffect.pageFaults : InstrEffect → Bool
  | .raise .pageFault _ => true
  | _ => false

def Completion.pageFaults : Completion → Bool
  | .raise .pageFault _ => true
  | _ => false

inductive Restartable {α : Type} (P : α → Prop) : Nat → Program MemSig α → Prop where
  | ret {n : Nat} {x : α} (h : P x) : Restartable P n (.ret x)
  | read {n : Nat} {addr : Word} {size : MemSize} {k : Option Word → Program MemSig α}
      (h : ∀ v, Restartable P n (k v)) : Restartable P (n + 1) (.call (.read addr size) k)
  | write {n : Nat} {addr value : Word} {size : MemSize} {x : α} (h : P x) :
      Restartable P (n + 1) (.call (.write addr size value) fun _ => .ret x)

theorem Restartable.map {α β : Type} {P : α → Prop} {Q : β → Prop} {f : α → β} {n : Nat}
    {p : Program MemSig α} (h : Restartable P n p) (hf : ∀ x, P x → Q (f x)) :
    Restartable Q n (p >>= fun x => .ret (f x)) := by
  induction h with
  | ret h => exact .ret (hf _ h)
  | read _ ih => exact .read ih
  | write h => exact .write (hf _ h)

theorem restartable_execute (r : Registers) (i : Instruction) :
    Restartable (fun e => e.pageFaults = false) 2 (r.execute i) := by
  obtain ⟨op, rs, rt, rd, extra⟩ := i
  cases op with
  | lb | lbu => exact .read fun v => .ret rfl
  | lh | lhu | lw | lwl | lwr =>
    simp only [Registers.execute]
    split_ifs
    · exact .ret rfl
    · exact .read fun v => .ret rfl
  | sb | sh | sw => exact .write rfl
  | swl | swr =>
    simp only [Registers.execute]
    split_ifs
    · exact .ret rfl
    · exact .read fun v => .write rfl
  | add | addi | sub | div | divu =>
    simp only [Registers.execute]
    split_ifs <;> exact .ret rfl
  | _ => exact .ret rfl

theorem restartable_oneInstruction (cpu : Cpu) :
    Restartable (fun c => c.pageFaults = false) 3 cpu.oneInstruction := by
  rw [Cpu.oneInstruction_eq]
  refine .read fun v => (restartable_execute _ _).map fun effect he => ?_
  cases effect with
  | raise which bad =>
    cases which with
    | pageFault => cases he
    | _ => rfl
  | _ => rfl

namespace Cpu
variable {α : Type} {cpu : Cpu} {bad : Word} {V : VirtualMemory} {m : Memory} {tid now : Int} {n : Nat}
  {p : Program MemSig Completion}

/-- A program of accesses when all pages are present. -/
def runIn (cpu : Cpu) : Program MemSig Completion → VirtualMemory → Completion × VirtualMemory
  | .ret c, V => (c, V)
  | .call a k, V => cpu.settle a (fun v V => cpu.runIn (k v) V) (V.access a)

def stepIn (cpu : Cpu) (V : VirtualMemory) : Completion × VirtualMemory := cpu.runIn cpu.oneInstruction V

def pagesIn : Program MemSig α → VirtualMemory → List Nat
  | .ret _, _ => []
  | .call a k, V =>
    a.vpn :: match V.access a with
      | (.error _, _) => []
      | (.ok v, V) => pagesIn (k v) V

theorem runIn_call (a : Access) (k : Option Word → Program MemSig Completion) :
    cpu.runIn (.call a k) V = cpu.settle a (fun v V => cpu.runIn (k v) V) (V.access a) := rfl

theorem vpn_mem_pagesIn (a : Access) (k : Option Word → Program MemSig α) :
    a.vpn ∈ pagesIn (.call a k) V := by
  rw [pagesIn]
  exact List.mem_cons_self ..

theorem pageFaults_error {a : Access} {e : ExceptionType} {V' : VirtualMemory}
    (ha : V.access a = (.error e, V')) : (Completion.raise e cpu).pageFaults = false := by
  cases e with
  | pageFault => exact absurd (congrArg Prod.fst ha) VirtualMemory.access_ne_pageFault
  | _ => rfl

theorem pageFaults_runIn (hp : Restartable (fun c => c.pageFaults = false) n p) :
    (cpu.runIn p V).1.pageFaults = false := by
  induction hp generalizing V with
  | ret h => exact h
  | @read _ addr size k _ ih =>
    rw [runIn_call]
    rcases ha : V.access (.read addr size) with ⟨e | v, V'⟩
    · exact pageFaults_error ha
    · exact ih v
  | @write _ addr value size x h =>
    rw [runIn_call]
    rcases ha : V.access (.write addr size value) with ⟨e | v, V'⟩
    · exact pageFaults_error ha
    · exact h

theorem length_pagesIn {P : α → Prop} {q : Program MemSig α} (hq : Restartable P n q) :
    (pagesIn q V).length ≤ n := by
  induction hq generalizing V with
  | ret h => exact Nat.zero_le _
  | @read _ addr size k _ ih =>
    rw [pagesIn]
    rcases V.access (.read addr size) with ⟨e | v, V'⟩
    · simp
    · exact Nat.succ_le_succ (ih v)
  | @write _ addr value size x h =>
    rw [pagesIn]
    rcases V.access (.write addr size value) with ⟨e | v, V'⟩
    · simp
    · simp [pagesIn]

/-- An attempt finds a page absent before it has written anything, or it ends as with all pages
present. -/
theorem runOn_shows (hp : Restartable (fun c => c.pageFaults = false) n p) (hm : m.Shows tid V) :
    (∃ a m', m.Faults tid a ∧ a.vpn ∈ pagesIn p V ∧
      cpu.runOn tid now p m = (.raise .pageFault (cpu.raise a.addr), m') ∧ m'.Shows tid V ∧
      ∀ v, m'.entryOf tid v = m.entryOf tid v) ∨
    ∃ m', cpu.runOn tid now p m = ((cpu.runIn p V).1, m') ∧ m'.Shows tid (cpu.runIn p V).2 := by
  induction hp generalizing m with
  | ret h => exact .inr ⟨m, rfl, hm⟩
  | @read _ addr size k _ ih =>
    rw [runOn_call, runIn_call]
    obtain ⟨hf, he⟩ | ⟨m', he, hm', hsame⟩ := hm.access now (.read addr size)
    · rw [he]
      exact .inl ⟨_, _, hf, vpn_mem_pagesIn _ _, rfl, hm.missed, fun v => rfl⟩
    · rw [he, pagesIn]
      have hV : (V.access (.read addr size)).2 = V := VirtualMemory.access_of_not_writing rfl
      rcases ha : V.access (.read addr size) with ⟨e | v, V'⟩
      · rw [ha] at hm'
        exact .inr ⟨m', rfl, hm'⟩
      · rw [ha] at hm' hV
        subst hV
        obtain ⟨a, m₁, hf, hmem, hrun, hm₁, hsame₁⟩ | hdone := ih v hm'
        · have hf' : m.Faults tid a := by
            rwa [Memory.faults_iff_entryOf, ← hsame, ← Memory.faults_iff_entryOf]
          exact .inl ⟨a, m₁, hf', List.mem_cons_of_mem _ hmem, hrun, hm₁,
            fun w => (hsame₁ w).trans (hsame w)⟩
        · exact .inr hdone
  | @write _ addr value size x h =>
    rw [runOn_call, runIn_call]
    obtain ⟨hf, he⟩ | ⟨m', he, hm', hsame⟩ := hm.access now (.write addr size value)
    · rw [he]
      exact .inl ⟨_, _, hf, vpn_mem_pagesIn _ _, rfl, hm.missed, fun v => rfl⟩
    · rw [he]
      rcases ha : V.access (.write addr size value) with ⟨e | v, V'⟩
      · rw [ha] at hm'
        exact .inr ⟨m', rfl, hm'⟩
      · rw [ha] at hm'
        exact .inr ⟨m', rfl, hm'⟩

/-! ## With the pending load completed -/

def shownIn (r : Completion × VirtualMemory) : Completion × VirtualMemory := (r.1.shown, r.2)

theorem shownIn_runIn_raise (p : Program MemSig Completion) (V : VirtualMemory) :
    shownIn ((cpu.raise bad).runIn p V) = shownIn (cpu.runIn p V) := by
  induction p generalizing V with
  | ret c => rfl
  | call a k ih =>
    rw [runIn_call, runIn_call]
    rcases V.access a with ⟨e | v, V'⟩
    · simp only [shownIn, settle, Completion.shown, raise_raise]
    · exact ih v V'

theorem shownIn_runIn_shown (p : Program MemSig Completion) (V : VirtualMemory) :
    shownIn (cpu.runIn (p >>= fun c => .ret c.shown) V) = shownIn (cpu.runIn p V) := by
  induction p generalizing V with
  | ret c => cases c <;> rfl
  | call a k ih =>
    rw [Program.call_bind, runIn_call, runIn_call]
    rcases V.access a with ⟨e | v, V'⟩
    · rfl
    · exact ih v V'

theorem pagesIn_map {β : Type} (q : Program MemSig α) (f : α → β) (V : VirtualMemory) :
    pagesIn (q >>= fun x => .ret (f x)) V = pagesIn q V := by
  induction q generalizing V with
  | ret x => rfl
  | call a k ih =>
    rw [Program.call_bind, pagesIn, pagesIn]
    rcases V.access a with ⟨e | v, V'⟩
    · rfl
    · simp only [ih]

end Cpu

def VirtualMemory.instruction (V : VirtualMemory) (pc : Word) : Instruction :=
  .decode (Memory.value (fun p => V.byte p.toNat) pc.toNat .word)

namespace Cpu
variable {cpu : Cpu} {bad : Word} {V : VirtualMemory}

theorem access_fetch {v : Option Word} {V' : VirtualMemory}
    (h : V.access (.read cpu.pc .word) = (.ok v, V')) :
    V' = V ∧ Instruction.decode (v.getD 0) = V.instruction cpu.pc := by
  have hV : (V.access (.read cpu.pc .word)).2 = V := VirtualMemory.access_of_not_writing rfl
  rw [h] at hV
  refine ⟨hV, ?_⟩
  rw [VirtualMemory.access] at h
  split_ifs at h <;> cases h
  rfl

/-- With all pages present, the instruction ends in the same way when the pending load has been
completed before it. -/
theorem shownIn_stepIn_raise (hu : cpu.Unrelated (V.instruction cpu.pc)) :
    shownIn ((cpu.raise bad).stepIn V) = shownIn (cpu.stepIn V) := by
  rw [stepIn, shownIn_runIn_raise, stepIn, oneInstruction_eq, oneInstruction_eq, runIn_call,
    runIn_call]
  rcases ha : V.access (.read cpu.pc .word) with ⟨e | v, V'⟩
  · rw [show (cpu.raise bad).pc = cpu.pc from rfl, ha]
    rfl
  · obtain ⟨rfl, hv⟩ := access_fetch ha
    have hend : ∀ c : Cpu, shownIn (cpu.runIn (c.ending (V'.instruction cpu.pc)) V') =
        shownIn (cpu.runIn (c.execute (V'.instruction cpu.pc) >>= fun effect =>
          .ret (c.complete effect)) V') := fun c => by
      rw [← shownIn_runIn_shown (c.execute _ >>= _), Program.bind_assoc']
      rfl
    rw [show (cpu.raise bad).pc = cpu.pc from rfl, ha]
    simp only [settle, hv]
    rw [← hend, ← hend, ending_raise hu]

theorem pagesIn_oneInstruction_raise (hu : cpu.Unrelated (V.instruction cpu.pc)) :
    pagesIn (cpu.raise bad).oneInstruction V = pagesIn cpu.oneInstruction V := by
  rw [oneInstruction_eq, oneInstruction_eq, pagesIn, pagesIn]
  rcases ha : V.access (.read cpu.pc .word) with ⟨e | v, V'⟩
  · rw [show (cpu.raise bad).pc = cpu.pc from rfl, ha]
  · obtain ⟨rfl, hv⟩ := access_fetch ha
    have hend : ∀ c : Cpu, pagesIn (c.ending (V'.instruction cpu.pc)) V' =
        pagesIn (c.execute (V'.instruction cpu.pc) >>= fun effect =>
          .ret (c.complete effect)) V' := fun c => by
      rw [ending, pagesIn_map, pagesIn_map]
    rw [show (cpu.raise bad).pc = cpu.pc from rfl, ha]
    simp only [hv]
    rw [← hend, ← hend, ending_raise hu]

/-! ## Faults -/

/-- The instruction is tried, each time with a time and with a handler for a page fault, which gets
the address and does not know the registers. After a page fault it is executed again from the
start; if it has faulted at each try, there is no outcome. -/
def attempts (tid : Int) : List (Int × (Word → Memory → Memory)) → Cpu → Memory →
    Option (Completion × Memory)
  | [], _, _ => none
  | (now, handler) :: rest, cpu, m =>
    match cpu.step tid now m with
    | (.raise .pageFault cpu, m) => attempts tid rest cpu (handler cpu.badVAddr m)
    | r => some r

structure Handles (tid : Int) (V : VirtualMemory) (handler : Word → Memory → Memory) : Prop where
  shows : ∀ m bad, m.Shows tid V → (handler bad m).Shows tid V
  present : ∀ m bad, m.Shows tid V → (handler bad m).entryOf tid (bad.toNat / 128) ≠ none

def Retains (tid : Int) (handler : Word → Memory → Memory) : Prop :=
  ∀ m bad v, m.entryOf tid v ≠ none → (handler bad m).entryOf tid v ≠ none

variable {m m' : Memory} {tid now : Int} {handler : Word → Memory → Memory} {c : Completion}
  {tries : List (Int × (Word → Memory → Memory))}

theorem attempts_of_pageFault {cpu' : Cpu}
    (h : cpu.step tid now m = (.raise .pageFault cpu', m')) :
    attempts tid ((now, handler) :: tries) cpu m =
      attempts tid tries cpu' (handler cpu'.badVAddr m') := by
  rw [attempts, h]

theorem attempts_of_not (h : cpu.step tid now m = (c, m')) (hc : c.pageFaults = false) :
    attempts tid ((now, handler) :: tries) cpu m = some (c, m') := by
  rw [attempts, h]
  cases c with
  | raise which cpu =>
    cases which with
    | pageFault => cases hc
    | _ => rfl
  | _ => rfl

theorem unrelated_raise (cpu : Cpu) (bad : Word) (i : Instruction) : (cpu.raise bad).Unrelated i :=
  .inr ⟨rfl, rfl⟩

theorem attempts_shows (hm : m.Shows tid V) (hu : cpu.Unrelated (V.instruction cpu.pc))
    (hh : ∀ t ∈ tries, Handles tid V t.2) (h : attempts tid tries cpu m = some (c, m')) :
    c.shown = (cpu.stepIn V).1.shown ∧ m'.Shows tid (cpu.stepIn V).2 := by
  induction tries generalizing cpu m with
  | nil => cases h
  | cons t tries ih =>
    obtain ⟨now, handler⟩ := t
    have hp := restartable_oneInstruction cpu
    obtain ⟨a, m₁, -, -, hrun, hm₁, -⟩ | ⟨m₁, hrun, hm₁⟩ := runOn_shows hp hm
    · rw [attempts_of_pageFault hrun] at h
      have hh₁ := (hh _ (List.mem_cons_self ..)).shows _ a.addr hm₁
      obtain ⟨hc, hV⟩ := Prod.mk.inj (@shownIn_stepIn_raise cpu a.addr V hu)
      rw [← hc, ← hV]
      exact ih hh₁ (unrelated_raise cpu a.addr _) (fun t ht => hh t (List.mem_cons_of_mem _ ht)) h
    · rw [attempts_of_not hrun (pageFaults_runIn hp)] at h
      cases h
      exact ⟨rfl, hm₁⟩

def absent (m : Memory) (tid : Int) (pages : List Nat) : List Nat :=
  pages.filter fun v => m.entryOf tid v = none

theorem length_absent_lt {pages : List Nat} {v : Nat} (hv : v ∈ pages)
    (h : m.entryOf tid v = none) (h' : m'.entryOf tid v ≠ none)
    (hkeep : ∀ w, m.entryOf tid w ≠ none → m'.entryOf tid w ≠ none) :
    (absent m' tid pages).length < (absent m tid pages).length := by
  have hsub : absent m' tid pages = absent m' tid (absent m tid pages) := by
    rw [absent, absent, absent, List.filter_filter]
    refine List.filter_congr fun w _ => ?_
    have := hkeep w
    simp only [Bool.and_eq_decide, decide_eq_true_eq]
    grind
  rw [hsub, absent, List.length_filter_lt_length_iff_exists]
  refine ⟨v, List.mem_filter.mpr ⟨hv, by simpa using h⟩, by simpa using h'⟩

/-- With handlers that take no page away, each try gets further. -/
theorem attempts_ne_none (hm : m.Shows tid V) (hu : cpu.Unrelated (V.instruction cpu.pc))
    (hh : ∀ t ∈ tries, Handles tid V t.2 ∧ Retains tid t.2)
    (hn : (absent m tid (pagesIn cpu.oneInstruction V)).length < tries.length) :
    attempts tid tries cpu m ≠ none := by
  induction tries generalizing cpu m with
  | nil => cases hn
  | cons t tries ih =>
    obtain ⟨now, handler⟩ := t
    have hp := restartable_oneInstruction cpu
    obtain ⟨a, m₁, hf, hmem, hrun, hm₁, hsame⟩ | ⟨m₁, hrun, hm₁⟩ := runOn_shows hp hm
    · rw [attempts_of_pageFault hrun]
      obtain ⟨hh₁, hr⟩ := hh _ (List.mem_cons_self ..)
      refine ih (hh₁.shows _ _ hm₁) (unrelated_raise cpu a.addr _)
        (fun t ht => hh t (List.mem_cons_of_mem _ ht)) ?_
      rw [pagesIn_oneInstruction_raise hu]
      have := length_absent_lt hmem (Memory.faults_iff_entryOf.mp hf) (hh₁.present _ a.addr hm₁)
        (fun w hw => hr m₁ a.addr w (by rwa [hsame]))
      exact Nat.lt_of_lt_of_le this (Nat.le_of_lt_succ hn)
    · rw [attempts_of_not hrun (pageFaults_runIn hp)]
      exact Option.some_ne_none _

/-- However often an instruction that does not touch the target of the pending load finds pages
absent, it ends with the registers and the virtual memory of an execution that finds all of its
pages. With handlers that take no page away, it needs at most four tries. -/
theorem faults_transparent {m₀ : Memory} (hm : m.Shows tid V) (hm₀ : m₀.Shows tid V)
    (hp : (cpu.step tid now m₀).1.pageFaults = false)
    (hu : cpu.Unrelated (V.instruction cpu.pc)) (hh : ∀ t ∈ tries, Handles tid V t.2) :
    (∀ c m', attempts tid tries cpu m = some (c, m') →
      c.shown = (cpu.step tid now m₀).1.shown ∧
      m'.Shows tid (cpu.stepIn V).2 ∧ (cpu.step tid now m₀).2.Shows tid (cpu.stepIn V).2) ∧
    ((∀ t ∈ tries, Retains tid t.2) → 4 ≤ tries.length → attempts tid tries cpu m ≠ none) := by
  have hr := restartable_oneInstruction cpu
  refine ⟨fun c m' h => ?_, fun hk hn => ?_⟩
  · obtain ⟨hc, hm'⟩ := attempts_shows hm hu hh h
    obtain ⟨a, m₁, -, -, hrun, -⟩ | ⟨m₁, hrun, hm₁⟩ := @runOn_shows cpu V m₀ tid now _ _ hr hm₀
    · rw [step, hrun] at hp
      cases hp
    · rw [step, hrun]
      exact ⟨hc, hm', hm₁⟩
  · refine attempts_ne_none hm hu (fun t ht => ⟨hh t ht, hk t ht⟩) ?_
    have hlen : (absent m tid (pagesIn cpu.oneInstruction V)).length ≤ 3 :=
      (List.length_filter_le ..).trans (length_pagesIn hr)
    omega

def storing : Cpu where
  gp := Function.update (fun _ => 0) 1 7
  hi := 0
  lo := 0
  pc := 0
  nextPC := 4
  prevPC := 0
  load := 2
  loadValue := 5
  badVAddr := 0
  zero := rfl

end Cpu

def storeCode : VirtualMemory where
  readOnly _ := false
  lost _ := false
  byte p := [0x80, 0x00, 0x01, 0xac].getD p 0

namespace Memory

def window (tid : Int) (V : VirtualMemory) (v : Nat) : Memory :=
  { initial (fun _ => 0) (fun p => V.byte (v * 128 + p.toNat)) (fun _ => 0) ⟨0, fun _ => 0⟩ with
    pageTable := fun i =>
      { TranslationEntry.initial with
        virtualPage := (v + i : Nat)
        physicalPage := i
        valid := true
        readOnly := V.readOnly (v + i)
        tid := tid } }

theorem entryOf_window {tid : Int} {V : VirtualMemory} {v w : Nat} {i : Fin 32}
    (h : (window tid V v).entryOf tid w = some i) : w = v + i := by
  have hm := maps_iff.mp (mem_found.mp (List.mem_of_getLast? h))
  exact Int.ofNat_inj.mp hm.2.2.symm

theorem window_shows {tid : Int} {V : VirtualMemory} (hV : ∀ v, V.lost v = false) (v : Nat) :
    (window tid V v).Shows tid V := by
  refine ⟨fun w i hi => ?_, fun w i hi => ?_, fun w i hi _ o ho => ?_, fun w w' i j hi hj _ he => ?_⟩
  · rw [entryOf_window hi]
    rfl
  · have := i.isLt
    simp only [hV, true_iff]
    change 0 ≤ ((i : Nat) : Int) ∧ ((i : Nat) : Int) < 32
    omega
  · rw [entryOf_window hi]
    refine congrArg V.byte ?_
    change v * 128 + (((i : Nat) : Int) * 128 + o).toNat = (v + i) * 128 + o
    omega
  · rw [entryOf_window hi, entryOf_window hj]
    have : ((i : Nat) : Int) = ((j : Nat) : Int) := he
    omega

theorem window_present (tid : Int) (V : VirtualMemory) (v : Nat) :
    (window tid V v).entryOf tid v ≠ none := by
  intro h
  have hn := found_eq_nil.mp (List.getLast?_eq_none_iff.mp h) 0
  simp [maps, window] at hn

def bare : Memory := initial (fun _ => 0) (fun _ => 0) (fun _ => 0) ⟨0, fun _ => 0⟩

theorem bare_shows (tid : Int) (V : VirtualMemory) : bare.Shows tid V := by
  have hn : ∀ v i, bare.entryOf tid v ≠ some i := fun v i h => by
    have hm := maps_iff.mp (mem_found.mp (List.mem_of_getLast? h))
    exact Bool.false_ne_true hm.2.1
  exact ⟨fun v i h => absurd h (hn v i), fun v i h => absurd h (hn v i),
    fun v i h => absurd h (hn v i), fun v _ i _ h => absurd h (hn v i)⟩

end Memory

namespace Cpu

/-- Each fault makes all pages from the missing one on present. -/
def mapFrom (bad : Word) (_ : Memory) : Memory := .window 0 storeCode (bad.toNat / 128)

theorem mapFrom_handles : Handles 0 storeCode mapFrom where
  shows _ _ _ := Memory.window_shows (fun _ => rfl) _
  present _ _ _ := Memory.window_present 0 _ _

theorem faults_transparent_store :
    ∃ c m', attempts 0 (List.replicate 2 (0, mapFrom)) storing .bare = some (c, m') ∧
      c.shown = (storing.step 0 0 (.window 0 storeCode 0)).1.shown ∧
      m'.Shows 0 (storing.stepIn storeCode).2 := by
  have hsome : (attempts 0 (List.replicate 2 (0, mapFrom)) storing .bare).isSome = true := by
    decide +kernel
  have hfetch : (storing.step 0 0 (.window 0 storeCode 0)).1.pageFaults = false := by
    decide +kernel
  have hu : storing.Unrelated (storeCode.instruction storing.pc) := .inl (by decide +kernel)
  obtain ⟨⟨c, m'⟩, h⟩ := Option.isSome_iff_exists.mp hsome
  obtain ⟨hc, hm', -⟩ := (faults_transparent (Memory.bare_shows 0 storeCode)
    (Memory.window_shows (fun _ => rfl) 0) hfetch hu
    (fun t ht => List.eq_of_mem_replicate ht ▸ mapFrom_handles)).1 c m' h
  exact ⟨c, m', h, hc, hm'⟩

end Cpu
end Nachos
