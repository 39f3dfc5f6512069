import Nachos.Machine.Multiply
import Nachos.Lib.Mips

/-! The arithmetic instructions of the simulator against those of the architecture. Three of them
compute something else, a pending load to the destination comes after the result, and one division
is left to the host. -/

namespace Nachos
open Lib

/-! ## Decoding -/

def OpCode.ofAlu : Mips.Alu → OpCode
  | .add => .add
  | .addi => .addi
  | .addiu => .addiu
  | .addu => .addu
  | .and => .and
  | .andi => .andi
  | .div => .div
  | .divu => .divu
  | .lui => .lui
  | .mfhi => .mfhi
  | .mflo => .mflo
  | .mthi => .mthi
  | .mtlo => .mtlo
  | .mult => .mult
  | .multu => .multu
  | .nor => .nor
  | .or => .or
  | .ori => .ori
  | .sll => .sll
  | .sllv => .sllv
  | .slt => .slt
  | .slti => .slti
  | .sltiu => .sltiu
  | .sltu => .sltu
  | .sra => .sra
  | .srav => .srav
  | .srl => .srl
  | .srlv => .srlv
  | .sub => .sub
  | .subu => .subu
  | .xor => .xor
  | .xori => .xori

namespace Instruction
variable {w : Word} {k : Mips.Alu}

theorem toNat_field (w : Word) (s n : Nat) (hn : n ≤ 32) :
    ((w >>> s) &&& BitVec.ofNat 32 (2 ^ n - 1)).toNat = (w.extractLsb' s n).toNat := by
  have hlt : 2 ^ n - 1 < 2 ^ 32 := by
    have := Nat.pow_le_pow_right (n := 2) (by decide) hn
    have := Nat.two_pow_pos n
    omega
  rw [BitVec.toNat_and, BitVec.toNat_ofNat, Nat.mod_eq_of_lt hlt, Nat.and_two_pow_sub_one_eq_mod,
    BitVec.toNat_ushiftRight, BitVec.extractLsb'_toNat]

theorem regAt_eq (w : Word) (s : Nat) : regAt w s = (w.extractLsb' s 5).toFin := by
  have h := toNat_field w s 5 (by decide)
  apply Fin.ext
  rw [regAt, Fin.val_ofNat]
  rw [show (0x1f : Word) = BitVec.ofNat 32 (2 ^ 5 - 1) from rfl, h]
  exact Nat.mod_eq_of_lt (w.extractLsb' s 5).isLt

theorem rs_decode : (decode w).rs = Mips.rs w := regAt_eq w 21
theorem rt_decode : (decode w).rt = Mips.rt w := regAt_eq w 16
theorem rd_decode : (decode w).rd = Mips.rd w := regAt_eq w 11

theorem opTable_alu (hk : k.Encodes w) :
    opTable.getD ((w >>> 26) &&& 0x3f).toNat ⟨.res, .ifmt⟩ =
      opTable.getD k.code.1.toNat ⟨.res, .ifmt⟩ := by
  rw [show (0x3f : Word) = BitVec.ofNat 32 (2 ^ 6 - 1) from rfl, toNat_field w 26 6 (by decide),
    ← hk.1]
  rfl

theorem opCode_decode (hk : k.Encodes w) : (decode w).opCode = .ofAlu k := by
  have hf : (w &&& 0x3f).toNat = (Mips.funct w).toNat := by
    have := toNat_field w 0 6 (by decide)
    rwa [BitVec.ushiftRight_zero] at this
  simp only [decode, opTable_alu hk]
  cases k <;> first
    | rfl
    | (change specialTable.getD (w &&& 0x3f).toNat .res = _
       rw [hf, hk.2 _ rfl]
       rfl)

theorem extra_shift (hk : k.Encodes w) (h0 : k.code.1 = 0) :
    (decode w).extra.toNat = Mips.shamt w := by
  simp only [decode, opTable_alu hk, h0]
  exact toNat_field w 6 5 (by decide)

theorem and_ffff (w : Word) : w &&& 0xffff = (Mips.imm w).setWidth 32 := by
  apply BitVec.eq_of_toNat_eq
  have h := toNat_field w 0 16 (by decide)
  rw [BitVec.ushiftRight_zero] at h
  rw [show (0xffff : Word) = BitVec.ofNat 32 (2 ^ 16 - 1) from rfl, h, Mips.imm,
    BitVec.toNat_setWidth]
  have := (w.extractLsb' 0 16).isLt
  omega

theorem toNat_signExtend_imm (i : BitVec 16) :
    (i.signExtend 32).toNat = i.toNat + if 32768 ≤ i.toNat then 4294901760 else 0 := by
  have := i.isLt
  rw [BitVec.toNat_signExtend, BitVec.toNat_setWidth, BitVec.msb_eq_decide]
  simp only [decide_eq_true_eq]
  split <;> omega

theorem signExtend_imm (i : BitVec 16) :
    (if i.setWidth 32 &&& 0x8000 ≠ 0 then i.setWidth 32 ||| 0xffff0000 else i.setWidth 32) =
      i.signExtend 32 := by
  have hlt := i.isLt
  have hb : i.setWidth 32 &&& 0x8000 ≠ 0 ↔ 32768 ≤ i.toNat := by
    have hm := BitVec.msb_eq_decide i
    rw [show (0x8000 : Word) = BitVec.twoPow 32 15 from rfl, BitVec.and_twoPow,
      BitVec.getLsbD_setWidth, ← decide_eq_true_iff (p := 32768 ≤ i.toNat), ← hm,
      BitVec.msb_eq_getLsbD_last]
    cases i.getLsbD 15 <;> decide
  apply BitVec.eq_of_toNat_eq
  rw [toNat_signExtend_imm]
  by_cases h : 32768 ≤ i.toNat
  · have hor := Nat.shiftLeft_add_eq_or_of_lt hlt 65535
    rw [if_pos (hb.mpr h), if_pos h, BitVec.toNat_or, BitVec.toNat_setWidth,
      Nat.mod_eq_of_lt (by omega), Nat.or_comm, show (0xffff0000 : Word).toNat = 65535 <<< 16 from rfl,
      ← hor]
    omega
  · rw [if_neg (mt hb.mp h), if_neg h, BitVec.toNat_setWidth]
    omega

theorem signExtend_and (i : BitVec 16) : i.signExtend 32 &&& 0xffff = i.setWidth 32 := by
  have := i.isLt
  apply BitVec.eq_of_toNat_eq
  rw [BitVec.toNat_and, show (0xffff : Word).toNat = 2 ^ 16 - 1 from rfl,
    Nat.and_two_pow_sub_one_eq_mod, toNat_signExtend_imm, BitVec.toNat_setWidth]
  split <;> omega

theorem signExtend_shift (i : BitVec 16) : i.signExtend 32 <<< 16 = i.setWidth 32 <<< 16 := by
  have := i.isLt
  apply BitVec.eq_of_toNat_eq
  rw [BitVec.toNat_shiftLeft, BitVec.toNat_shiftLeft, Nat.shiftLeft_eq, Nat.shiftLeft_eq,
    toNat_signExtend_imm, BitVec.toNat_setWidth]
  split <;> omega

theorem extra_imm (hk : k.Encodes w) (h : k.code.2 = none) :
    (decode w).extra = (Mips.imm w).signExtend 32 := by
  have hfmt : (opTable.getD k.code.1.toNat ⟨.res, .ifmt⟩).format = .ifmt := by
    cases k <;> first | rfl | cases h
  rw [← signExtend_imm, ← and_ffff]
  simp only [decode, opTable_alu hk, hfmt]
  rfl

end Instruction

/-! ## Results -/

/-- The registers after the instruction are as the architecture says. A pending load reaches its
register in the meantime, unless the register is the destination. -/
structure Follows (res : Mips.Result) (cpu cpu' : Cpu) : Prop where
  dest : ∀ d v, res.dest = some (d, v) → d ≠ 0 → cpu'.gp d = v
  others : ∀ g, g ≠ 0 → (∀ v, res.dest ≠ some (g, v)) →
    cpu'.gp g = if g = cpu.load then cpu.loadValue else cpu.gp g
  zero : cpu'.gp 0 = 0
  hi : res.hi.Allows cpu.hi cpu'.hi
  lo : res.lo.Allows cpu.lo cpu'.lo
  pc : cpu'.pc = cpu.nextPC
  nextPC : cpu'.nextPC = cpu.nextPC + 4

/-- The instruction ends, and the registers are as the architecture says. -/
def Cpu.Obeys (cpu : Cpu) (tid now : Int) (m : Memory) (res : Mips.Result) : Prop :=
  ∃ cpu', (cpu.step tid now m).1 = .done cpu' ∧ Follows res cpu cpu'

section
variable {cpu : Cpu} {tid now : Int} {m : Memory} {w : Word}

theorem Cpu.step_ret {e : InstrEffect} (hw : (m.readMem tid now cpu.pc .word).1 = .ok w)
    (he : cpu.execute (Instruction.decode w) = .ret e) :
    (cpu.step tid now m).1 = cpu.complete e := by
  rcases hr : m.readMem tid now cpu.pc .word with ⟨v, m'⟩
  rw [hr] at hw
  cases hw
  have ha : m.access tid now (.read cpu.pc .word) = (.ok (some w), m') := by
    rw [Memory.access, hr]
    rfl
  rw [step, oneInstruction_eq, runOn_call, ha]
  simp only [settle, Option.getD_some, he]
  rfl

theorem Cpu.obeys_general {d : Fin 32} {x v : Word}
    (hw : (m.readMem tid now cpu.pc .word).1 = .ok w)
    (he : cpu.execute (Instruction.decode w) = (cpu.set d x).advance (cpu.nextPC + 4)) :
    cpu.Obeys tid now m (.general d v) ↔
      (d ≠ 0 → if cpu.load = d then cpu.loadValue = v else x = v) := by
  have hs := Cpu.step_ret hw he
  constructor
  · rintro ⟨cpu', hc, hf⟩ hd
    rw [hs] at hc
    cases hc
    have hv := hf.dest d v rfl hd
    simp only [Registers.delayedLoad, Registers.set, Function.update_of_ne hd] at hv
    by_cases hl : cpu.load = d
    · rw [if_pos hl]
      rwa [hl, Function.update_self] at hv
    · rw [if_neg hl]
      rwa [Function.update_of_ne (Ne.symm hl), Function.update_self] at hv
  · intro hv
    refine ⟨_, hs, fun d' v' hd hd0 => ?_, fun g hg0 hg => ?_, Cpu.zero _, rfl, rfl, rfl, rfl⟩
    · cases hd
      simp only [Registers.delayedLoad, Registers.set, Function.update_of_ne hd0]
      have hv := hv hd0
      by_cases hl : cpu.load = d
      · rw [if_pos hl] at hv
        rw [hl, Function.update_self, hv]
      · rw [if_neg hl] at hv
        rw [Function.update_of_ne (Ne.symm hl), Function.update_self, hv]
    · have hgd : g ≠ d := fun e => hg v (by rw [e]; rfl)
      simp only [Registers.delayedLoad, Registers.set, Function.update_of_ne hg0]
      by_cases hl : g = cpu.load
      · rw [if_pos hl, hl, Function.update_self]
      · rw [if_neg hl, Function.update_of_ne hl, Function.update_of_ne hgd]

theorem Cpu.obeys_special {hi lo : Word} {h l : Mips.Special}
    (hw : (m.readMem tid now cpu.pc .word).1 = .ok w)
    (he : cpu.execute (Instruction.decode w) =
      { cpu.toRegisters with hi := hi, lo := lo }.advance (cpu.nextPC + 4))
    (hhi : h.Allows cpu.hi hi) (hlo : l.Allows cpu.lo lo) :
    cpu.Obeys tid now m ⟨none, h, l⟩ := by
  refine ⟨_, Cpu.step_ret hw he, fun d v hd => (by cases hd), fun g hg0 _ => ?_,
    Cpu.zero _, hhi, hlo, rfl, rfl⟩
  simp only [Registers.delayedLoad, Function.update_of_ne hg0]
  by_cases hl : g = cpu.load
  · rw [if_pos hl, hl, Function.update_self]
  · rw [if_neg hl, Function.update_of_ne hl]

/-- The operands are such that the simulator computes what the architecture defines. -/
def Computes (k : Mips.Alu) (w : Word) (gp : Fin 32 → Word) : Prop :=
  match k with
  | .or => gp (Mips.rt w) &&& ~~~ gp (Mips.rs w) = 0
  | .srl => Mips.shamt w = 0 ∨ 0 ≤ (gp (Mips.rt w)).toInt
  | .srlv => (gp (Mips.rs w)).toNat % 32 = 0 ∨ 0 ≤ (gp (Mips.rt w)).toInt
  | .div => ¬ (gp (Mips.rs w) = 0x80000000 ∧ gp (Mips.rt w) = -1)
  | _ => True

/-- The instruction is right for these registers: it writes R0, or a pending load to its
destination happens to bring the right value, or there is no such load and the operands are among
those that it treats correctly. -/
def Cpu.Fits (cpu : Cpu) (k : Mips.Alu) (w : Word) (res : Mips.Result) : Prop :=
  match res.dest with
  | some (d, v) => d ≠ 0 → if cpu.load = d then cpu.loadValue = v else Computes k w cpu.gp
  | none => Computes k w cpu.gp

theorem Cpu.obeys_iff_fits {k : Mips.Alu} {d : Fin 32} {x v : Word}
    (hw : (m.readMem tid now cpu.pc .word).1 = .ok w)
    (he : cpu.execute (Instruction.decode w) = (cpu.set d x).advance (cpu.nextPC + 4))
    (hx : x = v ↔ Computes k w cpu.gp) :
    cpu.Obeys tid now m (.general d v) ↔ cpu.Fits k w (.general d v) := by
  rw [Cpu.obeys_general hw he, hx]
  rfl

/-! ## Operations -/

theorem or_self_eq_iff (a b : Word) : a ||| a = a ||| b ↔ b &&& ~~~ a = 0 := by
  have hzero (i : Nat) : (0 : Word).getLsbD i = false := BitVec.getLsbD_zero
  rw [BitVec.or_self]
  constructor
  · intro h
    apply BitVec.eq_of_getLsbD_eq
    intro i hi
    have hb := congrArg (fun x => x.getLsbD i) h
    simp only [BitVec.getLsbD_or] at hb
    rw [BitVec.getLsbD_and, BitVec.getLsbD_not, hzero, hb]
    cases a.getLsbD i <;> cases b.getLsbD i <;> simp
  · intro h
    apply BitVec.eq_of_getLsbD_eq
    intro i hi
    have hb := congrArg (fun x => x.getLsbD i) h
    simp only [BitVec.getLsbD_and, BitVec.getLsbD_not, hzero, hi, decide_true, Bool.true_and] at hb
    rw [BitVec.getLsbD_or]
    revert hb
    cases a.getLsbD i <;> cases b.getLsbD i <;> decide

theorem sshiftRight_eq_iff (a : Word) (n : Nat) :
    a.sshiftRight n = a >>> n ↔ n = 0 ∨ 0 ≤ a.toInt := by
  have hm := BitVec.msb_eq_toInt (x := a)
  constructor
  · intro h
    by_contra hn
    obtain ⟨h0, hneg⟩ := not_or.mp hn
    have hb := congrArg BitVec.msb h
    rw [BitVec.msb_sshiftRight, BitVec.msb_ushiftRight, decide_eq_true (Nat.pos_of_ne_zero h0),
      hm, decide_eq_true (not_le.mp hneg)] at hb
    cases hb
  · rintro (rfl | h)
    · rw [BitVec.sshiftRight_zero, BitVec.ushiftRight_zero]
    · refine BitVec.sshiftRight_eq_of_msb_false ?_
      rw [hm]
      exact decide_eq_false (not_lt.mpr h)

theorem overflow_add (a b : Word) :
    (!signBit (a ^^^ b) && signBit (a ^^^ (a + b))) = a.saddOverflow b := by
  rw [signBit_eq_msb, signBit_eq_msb, BitVec.msb_xor, BitVec.msb_xor, BitVec.saddOverflow_eq]
  cases a.msb <;> cases b.msb <;> cases (a + b).msb <;> rfl

theorem overflow_addi (a b : Word) :
    (!signBit (a ^^^ b) && signBit (b ^^^ (a + b))) = a.saddOverflow b := by
  rw [signBit_eq_msb, signBit_eq_msb, BitVec.msb_xor, BitVec.msb_xor, BitVec.saddOverflow_eq]
  cases a.msb <;> cases b.msb <;> cases (a + b).msb <;> rfl

theorem overflow_sub (a b : Word) :
    (signBit (a ^^^ b) && signBit (a ^^^ (a - b))) = a.ssubOverflow b := by
  rw [signBit_eq_msb, signBit_eq_msb, BitVec.msb_xor, BitVec.msb_xor, BitVec.ssubOverflow_eq]
  cases a.msb <;> cases b.msb <;> cases (a - b).msb <;> rfl

theorem saddOverflow_eq_inWord (a b : Word) :
    a.saddOverflow b = !decide (Mips.InWord (a.toInt + b.toInt)) := by
  rw [Bool.eq_iff_iff, BitVec.saddOverflow, Bool.or_eq_true, decide_eq_true_iff,
    decide_eq_true_iff, Bool.not_eq_true', decide_eq_false_iff_not]
  unfold Mips.InWord
  omega

theorem ssubOverflow_eq_inWord (a b : Word) :
    a.ssubOverflow b = !decide (Mips.InWord (a.toInt - b.toInt)) := by
  rw [Bool.eq_iff_iff, BitVec.ssubOverflow, Bool.or_eq_true, decide_eq_true_iff,
    decide_eq_true_iff, Bool.not_eq_true', decide_eq_false_iff_not]
  unfold Mips.InWord
  omega

theorem Cpu.execute_trapping (cpu : Cpu) {w : Word} (k : Mips.Trapping) (hk : k.alu.Encodes w) :
    cpu.execute (Instruction.decode w) =
      if Mips.InWord (k.value w cpu.gp) then
        (cpu.set (k.dest w) (BitVec.ofInt 32 (k.value w cpu.gp))).advance (cpu.nextPC + 4)
      else .ret (.raise .overflow 0) := by
  have hop := Instruction.opCode_decode hk
  have hrs := @Instruction.rs_decode w
  have hrt := @Instruction.rt_decode w
  have hrd := @Instruction.rd_decode w
  -- the code tests for overflow, the statement for its absence
  rw [← ite_not]
  cases k with
  | add =>
    simp only [Registers.execute, hop, Mips.Trapping.alu, OpCode.ofAlu, hrs, hrt, hrd, overflow_add,
      saddOverflow_eq_inWord, Mips.Trapping.value, Mips.Trapping.dest, BitVec.ofInt_add,
      BitVec.ofInt_toInt, Bool.not_eq_true', decide_eq_false_iff_not]
  | addi =>
    have hext : ((Mips.imm w).signExtend 32).toInt = (Mips.imm w).toInt :=
      BitVec.toInt_signExtend_of_le (by decide)
    simp only [Registers.execute, hop, Mips.Trapping.alu, OpCode.ofAlu, hrs, hrt,
      Instruction.extra_imm hk rfl, overflow_addi, saddOverflow_eq_inWord, Mips.Trapping.value,
      Mips.Trapping.dest, ← hext, BitVec.ofInt_add, BitVec.ofInt_toInt, Bool.not_eq_true',
      decide_eq_false_iff_not]
  | sub =>
    have hv : BitVec.ofInt 32 ((cpu.gp (Mips.rs w)).toInt - (cpu.gp (Mips.rt w)).toInt) =
        cpu.gp (Mips.rs w) - cpu.gp (Mips.rt w) := by
      rw [Int.sub_eq_add_neg, BitVec.ofInt_add, BitVec.ofInt_neg, BitVec.ofInt_toInt,
        BitVec.ofInt_toInt, BitVec.sub_eq_add_neg]
    simp only [Registers.execute, hop, Mips.Trapping.alu, OpCode.ofAlu, hrs, hrt, hrd, overflow_sub,
      ssubOverflow_eq_inWord, Mips.Trapping.value, Mips.Trapping.dest, hv, Bool.not_eq_true',
      decide_eq_false_iff_not]

theorem sdiv_eq {a b : Word} (h : ¬ (a = 0x80000000 ∧ b = -1)) :
    a.sdiv b = BitVec.ofInt 32 (a.toInt.tdiv b.toInt) := by
  rw [← BitVec.toInt_sdiv_of_ne_or_ne a b (not_and_or.mp h), BitVec.ofInt_toInt]

theorem srem_eq (a b : Word) : a.srem b = BitVec.ofInt 32 (a.toInt.tmod b.toInt) := by
  rw [← BitVec.toInt_srem, BitVec.ofInt_toInt]

theorem checked_eq_some {d : Fin 32} {v : Int} {res : Mips.Result}
    (h : Mips.Result.checked d v = some res) :
    Mips.InWord v ∧ res = .general d (BitVec.ofInt 32 v) := by
  rw [Mips.Result.checked] at h
  split at h
  · next hv =>
    cases h
    exact ⟨hv, rfl⟩
  · cases h

theorem and_1f (a : Word) : (a &&& 0x1f).toNat = a.toNat % 32 := by
  rw [BitVec.toNat_and, show (0x1f : Word).toNat = 2 ^ 5 - 1 from rfl,
    Nat.and_two_pow_sub_one_eq_mod]

theorem wide_result {hi lo : Word} {p : BitVec 64} (h : wide hi lo = p) :
    Mips.Result.wide p = ⟨none, .set hi, .set lo⟩ := by
  rw [← h, Mips.Result.wide, wide, BitVec.extractLsb'_append_eq_left,
    BitVec.extractLsb'_append_eq_right]

/-- Whatever the registers hold: an arithmetic instruction that does not trap does what the
architecture defines if and only if the registers fit. -/
theorem alu_obeys_iff (cpu : Cpu) (tid now : Int) (m : Memory) (w : Word) (k : Mips.Alu)
    (res : Mips.Result) (hw : (m.readMem tid now cpu.pc .word).1 = .ok w) (hk : k.Encodes w)
    (hres : k.result w cpu.gp cpu.hi cpu.lo = some res) :
    cpu.Obeys tid now m res ↔ cpu.Fits k w res := by
  have hop := Instruction.opCode_decode hk
  have hshift := Instruction.extra_shift hk
  have himm := Instruction.extra_imm hk
  have hrs := @Instruction.rs_decode w
  have hrt := @Instruction.rt_decode w
  have hrd := @Instruction.rd_decode w
  cases k with
  | add =>
    obtain ⟨hv, rfl⟩ := checked_eq_some hres
    refine Cpu.obeys_iff_fits hw ?_ (iff_of_true rfl trivial)
    rw [Cpu.execute_trapping cpu .add hk]
    exact if_pos hv
  | addi =>
    obtain ⟨hv, rfl⟩ := checked_eq_some hres
    refine Cpu.obeys_iff_fits hw ?_ (iff_of_true rfl trivial)
    rw [Cpu.execute_trapping cpu .addi hk]
    exact if_pos hv
  | sub =>
    obtain ⟨hv, rfl⟩ := checked_eq_some hres
    refine Cpu.obeys_iff_fits hw ?_ (iff_of_true rfl trivial)
    rw [Cpu.execute_trapping cpu .sub hk]
    exact if_pos hv
  | addiu =>
    cases hres
    refine Cpu.obeys_iff_fits hw ?_ (iff_of_true rfl trivial)
    simp only [Registers.execute, hop, OpCode.ofAlu, hrs, hrt, himm rfl]
  | andi | ori | xori =>
    cases hres
    refine Cpu.obeys_iff_fits hw ?_ (iff_of_true rfl trivial)
    simp only [Registers.execute, hop, OpCode.ofAlu, hrs, hrt, himm rfl,
      Instruction.signExtend_and]
  | lui =>
    cases hres
    refine Cpu.obeys_iff_fits hw ?_ (iff_of_true rfl trivial)
    simp only [Registers.execute, hop, OpCode.ofAlu, hrt, himm rfl, Instruction.signExtend_shift]
  | addu | subu | and | nor | xor | mfhi | mflo =>
    cases hres
    refine Cpu.obeys_iff_fits hw ?_ (iff_of_true rfl trivial)
    simp only [Registers.execute, hop, OpCode.ofAlu, hrs, hrt, hrd]
  | or =>
    cases hres
    refine Cpu.obeys_iff_fits hw ?_ (or_self_eq_iff _ _)
    simp only [Registers.execute, hop, OpCode.ofAlu, hrs, hrd]
  | sll | sra =>
    cases hres
    refine Cpu.obeys_iff_fits hw ?_ (iff_of_true rfl trivial)
    simp only [Registers.execute, hop, OpCode.ofAlu, hrt, hrd, hshift rfl]
  | srl =>
    cases hres
    refine Cpu.obeys_iff_fits hw ?_ (sshiftRight_eq_iff _ _)
    simp only [Registers.execute, hop, OpCode.ofAlu, hrt, hrd, hshift rfl]
  | sllv | srav =>
    cases hres
    refine Cpu.obeys_iff_fits hw ?_ (iff_of_true rfl trivial)
    simp only [Registers.execute, hop, OpCode.ofAlu, hrs, hrt, hrd, and_1f]
  | srlv =>
    cases hres
    refine Cpu.obeys_iff_fits hw ?_ (sshiftRight_eq_iff _ _)
    simp only [Registers.execute, hop, OpCode.ofAlu, hrs, hrt, hrd, and_1f]
  | slt | sltu =>
    cases hres
    refine Cpu.obeys_iff_fits hw ?_ (iff_of_true rfl trivial)
    simp only [Registers.execute, hop, OpCode.ofAlu, hrs, hrt, hrd]
    rfl
  | slti =>
    cases hres
    refine Cpu.obeys_iff_fits hw ?_ (iff_of_true rfl trivial)
    simp only [Registers.execute, hop, OpCode.ofAlu, hrs, hrt, himm rfl,
      BitVec.toInt_signExtend_of_le (show 16 ≤ 32 by decide)]
    rfl
  | sltiu =>
    cases hres
    refine Cpu.obeys_iff_fits hw ?_ (iff_of_true rfl trivial)
    simp only [Registers.execute, hop, OpCode.ofAlu, hrs, hrt, himm rfl]
    rfl
  | mthi | mtlo =>
    cases hres
    refine iff_of_true (Cpu.obeys_special hw ?_ rfl rfl) trivial
    simp only [Registers.execute, hop, OpCode.ofAlu, hrs]
  | mult =>
    cases hres
    rw [wide_result (wide_mult_signed _ _)]
    refine iff_of_true (Cpu.obeys_special hw ?_ rfl rfl) trivial
    simp only [Registers.execute, hop, OpCode.ofAlu, hrs, hrt]
  | multu =>
    cases hres
    rw [wide_result (wide_mult_unsigned _ _)]
    refine iff_of_true (Cpu.obeys_special hw ?_ rfl rfl) trivial
    simp only [Registers.execute, hop, OpCode.ofAlu, hrs, hrt]
  | div =>
    simp only [Mips.Alu.result] at hres
    by_cases h0 : cpu.gp (Mips.rt w) = 0
    · rw [if_pos h0] at hres
      cases hres
      have he : cpu.execute (Instruction.decode w) =
          { cpu.toRegisters with hi := 0, lo := 0 }.advance (cpu.nextPC + 4) := by
        simp only [Registers.execute, hop, OpCode.ofAlu, hrt, if_pos h0]
      refine iff_of_true (Cpu.obeys_special hw he trivial trivial) fun hov => ?_
      rw [h0] at hov
      exact absurd hov.2 (by decide)
    · rw [if_neg h0] at hres
      cases hres
      by_cases hov : cpu.gp (Mips.rs w) = 0x80000000 ∧ cpu.gp (Mips.rt w) = -1
      · -- the host does not return from this division
        refine iff_of_false ?_ (fun hf => hf hov)
        rintro ⟨cpu', hc, -⟩
        have he : cpu.execute (Instruction.decode w) = .ret .undefined := by
          simp only [Registers.execute, hop, OpCode.ofAlu, hrs, hrt, if_neg h0, if_pos hov]
        rw [Cpu.step_ret hw he] at hc
        cases hc
      · refine iff_of_true (Cpu.obeys_special hw ?_ (srem_eq _ _) (sdiv_eq hov)) hov
        simp only [Registers.execute, hop, OpCode.ofAlu, hrs, hrt, if_neg h0, if_neg hov]
  | divu =>
    simp only [Mips.Alu.result] at hres
    by_cases h0 : cpu.gp (Mips.rt w) = 0
    · rw [if_pos h0] at hres
      cases hres
      have he : cpu.execute (Instruction.decode w) =
          { cpu.toRegisters with hi := 0, lo := 0 }.advance (cpu.nextPC + 4) := by
        simp only [Registers.execute, hop, OpCode.ofAlu, hrt, if_pos h0]
      exact iff_of_true (Cpu.obeys_special hw he trivial trivial) trivial
    · rw [if_neg h0] at hres
      cases hres
      refine iff_of_true (Cpu.obeys_special hw ?_ BitVec.umod_def BitVec.udiv_def) trivial
      simp only [Registers.execute, hop, OpCode.ofAlu, hrs, hrt, if_neg h0]

end

def Memory.holding (w : Word) : Memory :=
  { Memory.initial (fun _ => 0) (overwrite (fun _ => 0) 0 (leBytes w)) (fun _ => 0)
      ⟨0, fun _ => 0⟩ with
    pageTable := fun _ =>
      { TranslationEntry.initial with virtualPage := 0, physicalPage := 0, valid := true, tid := 0 } }

def Cpu.ofTwo (v : Word) : Cpu where
  gp := Function.update (fun _ => 0) 2 v
  hi := 0
  lo := 0
  pc := 0
  nextPC := 4
  prevPC := 0
  load := 0
  loadValue := 0
  badVAddr := 0
  zero := rfl

/-- The sum of R1 and R2 goes to R3. -/
theorem alu_obeys_addu : (Cpu.ofTwo 1).Obeys 0 0 (.holding 0x00221821) (.general 3 1) :=
  (alu_obeys_iff (Cpu.ofTwo 1) 0 0 (.holding 0x00221821) 0x00221821 .addu (.general 3 1)
    (by decide +kernel) ⟨by decide, by decide⟩ rfl).mpr fun _ => trivial

/-- R3 should get the bits of R1 and R2, but it gets those of R1. -/
theorem not_alu_obeys_or :
    (Mips.Alu.or).Encodes 0x00221825 ∧
    (Mips.Alu.or).result 0x00221825 (Cpu.ofTwo 1).gp 0 0 = some (.general 3 1) ∧
    ¬ (Cpu.ofTwo 1).Obeys 0 0 (.holding 0x00221825) (.general 3 1) := by
  refine ⟨⟨by decide, by decide⟩, rfl, ?_⟩
  have hw : ((Memory.holding 0x00221825).readMem 0 0 0 .word).1 = .ok 0x00221825 := by
    decide +kernel
  have he : (Cpu.ofTwo 1).execute (Instruction.decode 0x00221825) =
      ((Cpu.ofTwo 1).set 3 0).advance 8 := by
    rw [show Instruction.decode 0x00221825 = ⟨.or, 1, 2, 3, 0⟩ by decide]
    rfl
  rw [@Cpu.obeys_general (Cpu.ofTwo 1) 0 0 _ 0x00221825 3 0 1 hw he]
  decide

end Nachos
