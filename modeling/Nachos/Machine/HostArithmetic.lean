import Nachos.Machine.Simulator
import Mathlib.Tactic.FinCases

/-! The interpreter on the host does what the model with named registers does, as long as its array
holds such registers; they always do. So an index is never out of range, a shift amount is never
too large, and the only undefined operation is the division of the least integer by -1. -/

namespace Nachos
open Lib

/-! ## The registers as an array -/

namespace Registers

def array (r : Registers) : Fin 40 → Word := fun i =>
  if h : i.val < 32 then r.gp ⟨i, h⟩
  else
    match i.val with
    | 32 => r.hi
    | 33 => r.lo
    | 34 => r.pc
    | 35 => r.nextPC
    | 36 => r.prevPC
    | 37 => BitVec.ofNat 32 r.load
    | 38 => r.loadValue
    | _ => r.badVAddr

section
variable (r : Registers) (v : Word)

theorem array_gp (i : Fin 32) : r.array (Fin.ofNat 40 i.val) = r.gp i := by
  have h : (Fin.ofNat 40 i.val).val = i.val := by
    rw [Fin.val_ofNat]
    omega
  unfold array
  rw [dif_pos (by rw [h]; exact i.isLt)]
  exact congrArg r.gp (Fin.ext h)

theorem array_set (i : Fin 32) :
    Function.update r.array (Fin.ofNat 40 i.val) v = (r.set i v).array := by
  funext j
  rw [Function.update_apply]
  split
  · next h => rw [h, array_gp, set_gp, Function.update_self]
  · next h =>
    unfold array
    split
    · next hj =>
      have hne : (⟨j.val, hj⟩ : Fin 32) ≠ i := by
        rintro rfl
        apply h
        apply Fin.ext
        rw [Fin.val_ofNat, Nat.mod_eq_of_lt j.isLt]
      rw [set_gp, Function.update_of_ne hne]
    · rfl

theorem array_hi : Function.update r.array 32 v = { r with hi := v }.array := by
  funext i
  fin_cases i <;> rfl

theorem array_lo : Function.update r.array 33 v = { r with lo := v }.array := by
  funext i
  fin_cases i <;> rfl

theorem array_pc : Function.update r.array 34 v = { r with pc := v }.array := by
  funext i
  fin_cases i <;> rfl

theorem array_nextPC : Function.update r.array 35 v = { r with nextPC := v }.array := by
  funext i
  fin_cases i <;> rfl

theorem array_prevPC : Function.update r.array 36 v = { r with prevPC := v }.array := by
  funext i
  fin_cases i <;> rfl

theorem array_load (n : Fin 32) :
    Function.update r.array 37 (BitVec.ofInt 32 (n.val : Int)) = { r with load := n }.array := by
  rw [BitVec.ofInt_natCast]
  funext i
  fin_cases i <;> rfl

theorem array_loadValue : Function.update r.array 38 v = { r with loadValue := v }.array := by
  funext i
  fin_cases i <;> rfl

theorem array_badVAddr : Function.update r.array 39 v = { r with badVAddr := v }.array := by
  funext i
  fin_cases i <;> rfl

end
end Registers

/-! ## Operations -/

namespace Simulator
section
variable {tid now : Int} {r : Registers} {m : Memory} {α : Type}

theorem run_call {o : HostOp} (h : o.Defined) (k : HostSig.Res o → Program HostSig α)
    (s : Simulator) :
    (Program.call o k).run (exec tid now) s =
      (k (s.answer tid now o).1).run (exec tid now) (s.answer tid now o).2 := by
  rw [Program.run, exec, if_pos h]

theorem run_get {i : Int} {v : Word} (h : 0 ≤ i ∧ i < 40)
    (hv : r.array (Fin.ofNat 40 i.toNat) = v) (f : Word → Program HostSig α) :
    (get i >>= f).run (exec tid now) ⟨r.array, m⟩ = (f v).run (exec tid now) ⟨r.array, m⟩ := by
  rw [← hv]
  exact run_call (o := .get i) h f _

theorem run_put {i : Int} {v : Word} {r' : Registers} (h : 0 ≤ i ∧ i < 40)
    (hr : Function.update r.array (Fin.ofNat 40 i.toNat) v = r'.array)
    (f : Unit → Program HostSig α) :
    (put i v >>= f).run (exec tid now) ⟨r.array, m⟩ = (f ()).run (exec tid now) ⟨r'.array, m⟩ := by
  rw [← hr]
  exact run_call (o := .put i v) h f _

theorem run_shift {kind : ShiftKind} {a : Word} {n : Int} (h : 0 ≤ n ∧ n ≤ 31)
    (f : Word → Program HostSig α) (s : Simulator) :
    (shift kind a n >>= f).run (exec tid now) s =
      (f (shifted a n.toNat kind)).run (exec tid now) s :=
  run_call (o := .shift kind a n) h f s

theorem run_mem {a : Access} (f : Except ExceptionType (Option Word) → Program HostSig α)
    (s : Simulator) :
    (mem a >>= f).run (exec tid now) s =
      (f (s.memory.access tid now a).1).run (exec tid now)
        ⟨s.registers, (s.memory.access tid now a).2⟩ :=
  run_call (o := .mem a) trivial f s

theorem run_get_gp (i : Fin 32) (f : Word → Program HostSig α) :
    (get (i.val : Int) >>= f).run (exec tid now) ⟨r.array, m⟩ =
      (f (r.gp i)).run (exec tid now) ⟨r.array, m⟩ :=
  run_get (by omega) (r.array_gp i) f

theorem run_put_gp (i : Fin 32) (v : Word) (f : Unit → Program HostSig α) :
    (put (i.val : Int) v >>= f).run (exec tid now) ⟨r.array, m⟩ =
      (f ()).run (exec tid now) ⟨(r.set i v).array, m⟩ :=
  run_put (by omega) (r.array_set v i) f

theorem toInt_ofNat_fin (n : Fin 32) : (BitVec.ofNat 32 n.val).toInt = n.val := by
  have h : (BitVec.ofNat 32 n.val).toNat = n.val := by
    rw [BitVec.toNat_ofNat]
    omega
  rw [BitVec.toInt_eq_toNat_of_lt (by omega), h]

theorem run_delayedLoad (n : Fin 32) (v : Word) (f : Unit → Program HostSig α) :
    (delayedLoad (n.val : Int) v >>= f).run (exec tid now) ⟨r.array, m⟩ =
      (f ()).run (exec tid now) ⟨(r.delayedLoad n v).array, m⟩ := by
  simp only [delayedLoad, Program.bind_assoc']
  rw [run_get (i := loadReg) (by decide) rfl, run_get (i := loadValueReg) (by decide) rfl]
  change ((put (BitVec.ofNat 32 r.load).toInt r.loadValue) >>= _).run _ _ = _
  rw [toInt_ofNat_fin, run_put_gp, run_put (i := loadReg) (by decide) (Registers.array_load _ n),
    run_put (i := loadValueReg) (by decide) (Registers.array_loadValue _ v),
    run_put (i := 0) (by decide) (Registers.array_set _ 0 0)]
  rfl

/-! ## Endings -/

def ending (cpu : Cpu) : Completion × Memory → Outcome Ending Simulator
  | (.done c, m) => .done .done ⟨c.array, m⟩
  | (.raise which c, m) => .done (.raised which) ⟨c.array, m⟩
  | (.assertFailed, m) => .done .assertFailed ⟨cpu.array, m⟩
  | (.undefined, _) => .fault

/-- From these registers, the code of the host does what is left of the instruction. -/
def Simulates (tid now : Int) (cpu : Cpu) (r : Registers) (p : Program HostSig Ending)
    (q : Program MemSig InstrEffect) : Prop :=
  ∀ m, p.run (exec tid now) ⟨r.array, m⟩ =
    ending cpu (cpu.runOn tid now (q >>= fun e => .ret (cpu.complete e)) m)

variable {cpu : Cpu} {p : Program HostSig Ending} {q : Program MemSig InstrEffect}

theorem simulates_get (i : Fin 32) {f : Word → Program HostSig Ending} :
    Simulates tid now cpu r (get (i.val : Int) >>= f) q ↔
      Simulates tid now cpu r (f (r.gp i)) q := by
  unfold Simulates
  simp only [run_get_gp]

theorem simulates_put (i : Fin 32) {v : Word} {f : Unit → Program HostSig Ending} :
    Simulates tid now cpu r (put (i.val : Int) v >>= f) q ↔
      Simulates tid now cpu (r.set i v) (f ()) q := by
  unfold Simulates
  simp only [run_put_gp]

theorem simulates_compute {o : HostOp} {v : HostSig.Res o} (h : o.Defined)
    (ho : ∀ s : Simulator, s.answer tid now o = (v, s))
    {f : HostSig.Res o → Program HostSig Ending} :
    Simulates tid now cpu r (.call o f) q ↔ Simulates tid now cpu r (f v) q := by
  unfold Simulates
  simp only [run_call h, ho]

theorem simulates_shift {kind : ShiftKind} {a : Word} {n : Int} (h : 0 ≤ n ∧ n ≤ 31)
    {f : Word → Program HostSig Ending} :
    Simulates tid now cpu r (shift kind a n >>= f) q ↔
      Simulates tid now cpu r (f (shifted a n.toNat kind)) q :=
  simulates_compute (o := .shift kind a n) h fun _ => rfl

theorem simulates_nextPC {f : Word → Program HostSig Ending} :
    Simulates tid now cpu r (get nextPCReg >>= f) q ↔ Simulates tid now cpu r (f r.nextPC) q :=
  forall_congr' fun _ => by rw [run_get (i := nextPCReg) (by decide) rfl]; rfl

theorem simulates_hi {f : Word → Program HostSig Ending} :
    Simulates tid now cpu r (get hiReg >>= f) q ↔ Simulates tid now cpu r (f r.hi) q :=
  forall_congr' fun _ => by rw [run_get (i := hiReg) (by decide) rfl]; rfl

theorem simulates_lo {f : Word → Program HostSig Ending} :
    Simulates tid now cpu r (get loReg >>= f) q ↔ Simulates tid now cpu r (f r.lo) q :=
  forall_congr' fun _ => by rw [run_get (i := loReg) (by decide) rfl]; rfl

theorem simulates_put_hi {v : Word} {f : Unit → Program HostSig Ending} :
    Simulates tid now cpu r (put hiReg v >>= f) q ↔
      Simulates tid now cpu { r with hi := v } (f ()) q :=
  forall_congr' fun _ => by rw [run_put (i := hiReg) (by decide) (r.array_hi v)]

theorem simulates_put_lo {v : Word} {f : Unit → Program HostSig Ending} :
    Simulates tid now cpu r (put loReg v >>= f) q ↔
      Simulates tid now cpu { r with lo := v } (f ()) q :=
  forall_congr' fun _ => by rw [run_put (i := loReg) (by decide) (r.array_lo v)]

theorem simulates_finish {n : Fin 32} {v pcAfter : Word} :
    Simulates tid now cpu r (finish (n.val : Int) v pcAfter) (.ret (.next r n v pcAfter)) := by
  intro m
  unfold finish
  rw [run_delayedLoad, run_get (i := pcReg) (by decide) rfl,
    run_put (i := prevPCReg) (by decide) (Registers.array_prevPC ..),
    run_get (i := nextPCReg) (by decide) rfl,
    run_put (i := pcReg) (by decide) (Registers.array_pc ..),
    run_put (i := nextPCReg) (by decide) (Registers.array_nextPC ..)]
  rfl

theorem simulates_advance {pcAfter : Word} :
    Simulates tid now cpu r (finish 0 0 pcAfter) (r.advance pcAfter) :=
  simulates_finish (n := 0)

theorem run_raise (which : ExceptionType) (badVAddr : Word) :
    (raiseException which badVAddr).run (exec tid now) ⟨r.array, m⟩ =
      .done (.raised which) ⟨(r.raise badVAddr).array, m⟩ := by
  unfold raiseException
  rw [run_put (i := badVAddrReg) (by decide) (r.array_badVAddr badVAddr)]
  exact run_delayedLoad (0 : Fin 32) 0 _

theorem simulates_raise {which : ExceptionType} {badVAddr : Word} :
    Simulates tid now cpu cpu.toRegisters (raiseException which badVAddr)
      (.ret (.raise which badVAddr)) :=
  fun _ => run_raise which badVAddr

theorem simulates_assertFailed :
    Simulates tid now cpu cpu.toRegisters (pure .assertFailed) (.ret .assertFailed) :=
  fun _ => rfl

theorem simulates_ite {c : Prop} [Decidable c] {p' : Program HostSig Ending}
    {q' : Program MemSig InstrEffect} (h : c → Simulates tid now cpu r p q)
    (h' : ¬ c → Simulates tid now cpu r p' q') :
    Simulates tid now cpu r (if c then p else p') (if c then q else q') := by
  by_cases hc : c
  · rw [if_pos hc, if_pos hc]
    exact h hc
  · rw [if_neg hc, if_neg hc]
    exact h' hc

theorem simulates_access {a : Access} {next : Option Word → Program HostSig Ending}
    {k : Option Word → Program MemSig InstrEffect}
    (h : ∀ v, Simulates tid now cpu cpu.toRegisters (next v) (k v)) :
    Simulates tid now cpu cpu.toRegisters (access a next) (.call a k) := by
  intro m
  unfold access
  rw [run_mem, Program.call_bind, Cpu.runOn_call]
  generalize m.access tid now a = x
  obtain ⟨v, m'⟩ := x
  cases v with
  | error e => exact run_raise e a.addr
  | ok value => exact h value m'

theorem simulates_readMem {addr : Word} {size : MemSize} {next : Word → Program HostSig Ending}
    {k : Word → Program MemSig InstrEffect}
    (h : ∀ v, Simulates tid now cpu cpu.toRegisters (next v) (k v)) :
    Simulates tid now cpu cpu.toRegisters (readMem addr size next)
      (Nachos.readMem addr size >>= k) :=
  simulates_access fun v => h (v.getD 0)

theorem simulates_writeMem {addr : Word} {size : MemSize} {value : Word}
    (h : Simulates tid now cpu cpu.toRegisters p q) :
    Simulates tid now cpu cpu.toRegisters (writeMem addr size value p)
      (Nachos.writeMem addr size value >>= fun _ => q) :=
  simulates_access fun _ => h

/-! ## Instructions -/

def lowered (instr : Instruction) : Decoded :=
  ⟨instr.opCode, (instr.rs.val : Int), (instr.rt.val : Int), (instr.rd.val : Int), instr.extra⟩

theorem toInt_and_1f (a : Word) : (a &&& 0x1f).toInt = ((a.toNat % 32 : Nat) : Int) := by
  have h := and_1f a
  rw [BitVec.toInt_eq_toNat_of_lt (by omega), h]

theorem toInt_regAt (value : Word) (n : Nat) :
    (value >>> n &&& 0x1f).toInt = ((Instruction.regAt value n).val : Int) := by
  rw [toInt_and_1f, Instruction.regAt, Fin.val_ofNat, and_1f, Nat.mod_mod]

theorem run_decode (value : Word) (f : Decoded → Program HostSig α) (s : Simulator) :
    (decode value >>= f).run (exec tid now) s =
      (f (lowered (Instruction.decode value))).run (exec tid now) s := by
  have hextra : ∀ (format : Format) (g : Word → Program HostSig α),
      (extraOf value format >>= g).run (exec tid now) s =
        (g (Instruction.extraOf value format)).run (exec tid now) s := by
    intro format g
    cases format with
    | rfmt =>
      unfold extraOf
      rw [Program.bind_assoc', run_shift (by decide)]
      rfl
    | _ => rfl
  simp only [decode, Program.bind_assoc']
  rw [run_shift (by decide), run_shift (by decide), run_shift (by decide), run_shift (by decide),
    hextra]
  change (f ⟨_, (value >>> 21 &&& 0x1f).toInt, (value >>> 16 &&& 0x1f).toInt,
    (value >>> 11 &&& 0x1f).toInt, _⟩).run (exec tid now) s = _
  rw [toInt_regAt, toInt_regAt, toInt_regAt]
  rfl

def shifts : List OpCode := [.sll, .srl, .sra]

theorem opCodeOf_not_shift (value : Word) {opCode : OpCode} (h : opCode ≠ .special)
    (h' : opCode ∉ shifts) : Instruction.opCodeOf value opCode ∉ shifts := by
  cases opCode with
  | special => exact absurd rfl h
  | bcond =>
    simp only [Instruction.opCodeOf]
    split_ifs <;> decide
  | _ => exact h'

theorem extra_lt_32 (value : Word) (h : (Instruction.decode value).opCode ∈ shifts) :
    (Instruction.decode value).extra.toNat < 32 := by
  have htable : ∀ i < 64, opTable.getD i ⟨.res, .ifmt⟩ ∈ opTable := by decide
  have hformat : ∀ e ∈ opTable, e.format = .rfmt ∨ e.opCode ≠ .special ∧ e.opCode ∉ shifts := by
    decide
  have hlt : ((value >>> 26) &&& 0x3f).toNat < 64 := by
    have hfield := Instruction.toNat_field value 26 6 (by decide)
    rw [show (0x3f : Word) = BitVec.ofNat 32 (2 ^ 6 - 1) from rfl, hfield]
    exact (value.extractLsb' 26 6).isLt
  simp only [Instruction.decode] at h ⊢
  rcases hformat _ (htable _ hlt) with hr | ⟨h1, h2⟩
  · rw [hr]
    change (value >>> 6 &&& 0x1f).toNat < 32
    rw [and_1f]
    omega
  · exact absurd h (opCodeOf_not_shift value h1 h2)

theorem run_multLoop (n : Nat) (a bLo bHi lo hi : Word) (f : Word × Word → Program HostSig α)
    (s : Simulator) :
    (multLoop n a bLo bHi lo hi >>= f).run (exec tid now) s =
      (f (Nachos.multLoop n a bLo bHi lo hi)).run (exec tid now) s := by
  induction n generalizing a bLo bHi lo hi with
  | zero => rfl
  | succ n ih =>
    have hshift : ∀ (k : ShiftKind) (b : Word) (g : Word → Program HostSig α),
        (shift k b 1 >>= g).run (exec tid now) s = (g (shifted b 1 k)).run (exec tid now) s :=
      fun k b g => run_shift (by decide) g s
    simp only [multLoop, Nachos.multLoop]
    by_cases h1 : a &&& 1 ≠ 0
    · by_cases h2 : a &&& 0xfffffffe = 0
      · simp only [h1, h2, ne_eq, not_false_eq_true, and_self, if_true]
        rfl
      · simp only [h1, h2, ne_eq, not_false_eq_true, and_false, if_true, if_false,
          Program.bind_assoc', hshift, ih, shifted]
    · simp only [h1, false_and, if_false, Program.bind_assoc', hshift, ih, shifted]

theorem run_mult (a b : Word) (signedArith : Bool) (f : Word × Word → Program HostSig α)
    (s : Simulator) :
    (mult a b signedArith >>= f).run (exec tid now) s =
      (f (Nachos.mult a b signedArith)).run (exec tid now) s := by
  unfold mult Nachos.mult
  split
  · rfl
  · simp only [Program.bind_assoc', run_multLoop, Program.pure_eq, Program.ret_bind]

theorem tdiv_range_iff (a b : Word) :
    (-2 ^ 31 ≤ a.toInt.tdiv b.toInt ∧ a.toInt.tdiv b.toInt < 2 ^ 31) ↔
      ¬ (a = 0x80000000 ∧ b = -1) := by
  constructor
  · rintro h ⟨rfl, rfl⟩
    exact absurd h (by decide)
  · intro h
    rw [← BitVec.toInt_sdiv_of_ne_or_ne a b (not_and_or.mp h)]
    exact ⟨BitVec.le_toInt _, BitVec.toInt_lt⟩

theorem defined_div_iff {a b : Word} (hb : b ≠ 0) :
    (HostOp.div a b).Defined ↔ ¬ (a = 0x80000000 ∧ b = -1) := by
  have hb' : b.toInt ≠ 0 := fun h => hb (BitVec.eq_of_toInt_eq h)
  rw [← tdiv_range_iff]
  exact and_iff_right hb'

theorem defined_divu {a b : Word} (hb : b ≠ 0) : (HostOp.divu a b).Defined := by
  refine ⟨fun h => hb (BitVec.eq_of_toNat_eq h), ?_⟩
  exact (Nat.div_le_self ..).trans_lt a.isLt

theorem simulates_div {a b : Word} (hb : b ≠ 0) (h : ¬ (a = 0x80000000 ∧ b = -1))
    {f : Word → Program HostSig Ending} :
    Simulates tid now cpu r (div a b >>= f) q ↔ Simulates tid now cpu r (f (a.sdiv b)) q :=
  simulates_compute (o := .div a b) ((defined_div_iff hb).mpr h) fun _ => rfl

theorem simulates_mod {a b : Word} (hb : b ≠ 0) (h : ¬ (a = 0x80000000 ∧ b = -1))
    {f : Word → Program HostSig Ending} :
    Simulates tid now cpu r (mod a b >>= f) q ↔ Simulates tid now cpu r (f (a.srem b)) q :=
  simulates_compute (o := .mod a b) ((defined_div_iff hb).mpr h) fun _ => rfl

theorem simulates_divu {a b : Word} (hb : b ≠ 0) {f : Word → Program HostSig Ending} :
    Simulates tid now cpu r (divu a b >>= f) q ↔ Simulates tid now cpu r (f (a / b)) q :=
  simulates_compute (o := .divu a b) (defined_divu hb) fun _ => rfl

theorem simulates_modu {a b : Word} (hb : b ≠ 0) {f : Word → Program HostSig Ending} :
    Simulates tid now cpu r (modu a b >>= f) q ↔ Simulates tid now cpu r (f (a % b)) q :=
  simulates_compute (o := .modu a b) (defined_divu hb) fun _ => rfl

theorem simulates_undefined {a : Word} (ha : a = 0x80000000) {f : Word → Program HostSig Ending} :
    Simulates tid now cpu r (div a (-1) >>= f) (.ret .undefined) := by
  intro m
  have hn : ¬ (HostOp.div a (-1)).Defined := fun h =>
    (defined_div_iff (by decide)).mp h ⟨ha, rfl⟩
  rw [show (div a (-1) >>= f) = .call (.div a (-1)) f from rfl, Program.run, exec, if_neg hn]
  rfl

/-! ## The instruction -/

theorem simulates_assign {d : Fin 32} {v pcAfter : Word} :
    Simulates tid now cpu r (assign (d.val : Int) v pcAfter) ((r.set d v).advance pcAfter) :=
  (simulates_put d).mpr simulates_advance

theorem simulates_branch {taken : Bool} {extra : Word} :
    Simulates tid now cpu r (branch taken extra (r.nextPC + 4)) (r.branch taken extra) := by
  unfold branch Registers.branch
  cases taken with
  | false => exact simulates_advance
  | true =>
    simp only [if_true, indexToAddr]
    rw [simulates_nextPC, simulates_shift (by decide)]
    exact simulates_advance

theorem simulates_link (d : Fin 32) {f : Unit → Program HostSig Ending} :
    Simulates tid now cpu r (link (d.val : Int) >>= f) q ↔
      Simulates tid now cpu (r.link d) (f ()) q := by
  unfold link
  rw [Program.bind_assoc', simulates_nextPC, simulates_put]
  rfl

theorem simulates_jump {extra pcAfter : Word} :
    Simulates tid now cpu r (jump extra pcAfter)
      (r.advance (pcAfter &&& 0xf0000000 ||| Nachos.indexToAddr extra)) := by
  unfold jump indexToAddr
  rw [simulates_shift (by decide)]
  exact simulates_advance

theorem simulates_loading (rt : Fin 32) {f : Word → Program HostSig Ending} :
    Simulates tid now cpu r (loading (rt.val : Int) >>= f) q ↔
      Simulates tid now cpu r (f (r.loading rt)) q := by
  refine forall_congr' fun m => ?_
  unfold loading Registers.loading
  rw [Program.bind_assoc', run_get (i := loadReg) (by decide) rfl]
  have hload : (r.array (Fin.ofNat 40 loadReg.toNat)).toInt = (r.load.val : Int) :=
    toInt_ofNat_fin r.load
  rw [hload]
  by_cases h : r.load = rt
  · rw [if_pos (by rw [h]), if_pos h, run_get (i := loadValueReg) (by decide) rfl]
    rfl
  · rw [if_neg (by rw [Int.natCast_inj]; exact mt Fin.ext h), if_neg h, run_get_gp]

theorem simulates_mult (a b : Word) (signedArith : Bool)
    {f : Word × Word → Program HostSig Ending} :
    Simulates tid now cpu r (mult a b signedArith >>= f) q ↔
      Simulates tid now cpu r (f (Nachos.mult a b signedArith)) q := by
  unfold Simulates
  simp only [run_mult]

theorem shiftAmount {a : Word} (h : a.toNat < 32) : 0 ≤ a.toInt ∧ a.toInt ≤ 31 := by
  rw [BitVec.toInt_eq_toNat_of_lt (by omega)]
  omega

theorem toNat_shiftAmount {a : Word} (h : a.toNat < 32) : a.toInt.toNat = a.toNat := by
  rw [BitVec.toInt_eq_toNat_of_lt (by omega), Int.toNat_natCast]

theorem and_1f_lt (a : Word) : (a &&& 0x1f).toNat < 32 := by
  rw [and_1f]
  omega

theorem simulates_execute (cpu : Cpu) (instr : Instruction)
    (hshift : instr.opCode ∈ shifts → instr.extra.toNat < 32) :
    Simulates tid now cpu cpu.toRegisters (execute (lowered instr) (cpu.nextPC + 4))
      (cpu.execute instr) := by
  obtain ⟨opCode, rs, rt, rd, extra⟩ := instr
  cases opCode with
  | addiu | addu | and | andi | mfhi | mflo | nor | or | ori | slt | slti | sltiu | sltu | subu
  | xor | xori =>
    simp only [execute, lowered, Registers.execute, simulates_get, simulates_hi, simulates_lo]
    exact simulates_assign
  | add | addi | sub =>
    simp only [execute, lowered, Registers.execute, simulates_get]
    exact simulates_ite (fun _ => simulates_raise) fun _ => simulates_assign
  | beq | bgez | bgtz | blez | bltz | bne =>
    simp only [execute, lowered, Registers.execute, simulates_get]
    exact simulates_branch
  | bgezal | bltzal =>
    simp only [execute, lowered, Registers.execute]
    refine (simulates_link (31 : Fin 32)).mpr ?_
    rw [simulates_get]
    exact simulates_branch
  | j => exact simulates_jump
  | jal => exact (simulates_link (31 : Fin 32)).mpr simulates_jump
  | jr =>
    simp only [execute, lowered, Registers.execute, simulates_get]
    exact simulates_advance
  | jalr =>
    simp only [execute, lowered, Registers.execute, simulates_link, simulates_get]
    exact simulates_advance
  | lb | lbu =>
    simp only [execute, lowered, Registers.execute, simulates_get]
    exact simulates_readMem fun _ => simulates_finish
  | lh | lhu | lw =>
    simp only [execute, lowered, Registers.execute, simulates_get]
    exact simulates_ite (fun _ => simulates_raise) fun _ =>
      simulates_readMem fun _ => simulates_finish
  | sb | sh | sw =>
    simp only [execute, lowered, Registers.execute, simulates_get]
    exact simulates_writeMem simulates_advance
  | lui =>
    simp only [execute, lowered, Registers.execute]
    rw [simulates_shift (by decide)]
    exact simulates_assign
  | sll | sra | srl =>
    have hlt : extra.toNat < 32 := hshift (by simp [shifts])
    simp only [execute, lowered, Registers.execute, simulates_get]
    rw [simulates_shift (shiftAmount hlt), toNat_shiftAmount hlt]
    exact simulates_assign
  | sllv | srav | srlv =>
    simp only [execute, lowered, Registers.execute, simulates_get]
    rw [simulates_shift (shiftAmount (and_1f_lt _)), toNat_shiftAmount (and_1f_lt _)]
    exact simulates_assign
  | mthi =>
    simp only [execute, lowered, Registers.execute, simulates_get]
    exact simulates_put_hi.mpr simulates_advance
  | mtlo =>
    simp only [execute, lowered, Registers.execute, simulates_get]
    exact simulates_put_lo.mpr simulates_advance
  | mult | multu =>
    simp only [execute, lowered, Registers.execute, simulates_get, simulates_mult]
    exact simulates_put_hi.mpr (simulates_put_lo.mpr simulates_advance)
  | div =>
    simp only [execute, lowered, Registers.execute, simulates_get]
    refine simulates_ite (fun _ => ?_) fun h0 => ?_
    · exact simulates_put_lo.mpr (simulates_put_hi.mpr simulates_advance)
    · rw [simulates_get]
      by_cases h : cpu.gp rs = 0x80000000 ∧ cpu.gp rt = -1
      · rw [if_pos h, h.2]
        exact simulates_undefined h.1
      · rw [if_neg h, simulates_div h0 h, simulates_put_lo, simulates_get, simulates_get]
        rw [simulates_mod h0 h, simulates_put_hi]
        exact simulates_advance
  | divu =>
    simp only [execute, lowered, Registers.execute, simulates_get]
    refine simulates_ite (fun _ => ?_) fun h0 => ?_
    · exact simulates_put_lo.mpr (simulates_put_hi.mpr simulates_advance)
    · rw [simulates_divu h0, simulates_put_lo, simulates_modu h0, simulates_put_hi]
      exact simulates_advance
  | lwl =>
    simp only [execute, lowered, Registers.execute, simulates_get]
    refine simulates_ite (fun _ => simulates_assertFailed) fun h0 => simulates_readMem fun v => ?_
    -- the assertion leaves one of the four cases
    rw [simulates_loading, mergeLeft, Nachos.mergeLeft, if_pos (not_not.mp h0),
      if_pos (not_not.mp h0)]
    exact simulates_finish
  | lwr =>
    simp only [execute, lowered, Registers.execute, simulates_get]
    refine simulates_ite (fun _ => simulates_assertFailed) fun h0 => simulates_readMem fun v => ?_
    rw [simulates_loading, mergeRight, Nachos.mergeRight, if_pos (not_not.mp h0),
      if_pos (not_not.mp h0), Program.bind_assoc', simulates_shift (by decide)]
    exact simulates_finish
  | swl =>
    simp only [execute, lowered, Registers.execute, simulates_get]
    refine simulates_ite (fun _ => simulates_assertFailed) fun h0 => simulates_readMem fun v => ?_
    rw [simulates_get, insertLeft, Nachos.insertLeft, if_pos (not_not.mp h0),
      if_pos (not_not.mp h0)]
    exact simulates_writeMem simulates_advance
  | swr =>
    simp only [execute, lowered, Registers.execute, simulates_get]
    refine simulates_ite (fun _ => simulates_assertFailed) fun h0 => simulates_readMem fun v => ?_
    rw [simulates_get, insertRight, Nachos.insertRight, if_pos (not_not.mp h0),
      if_pos (not_not.mp h0), Program.bind_assoc', simulates_shift (by decide)]
    exact simulates_writeMem simulates_advance
  | syscall | res | unimp => exact simulates_raise
  | rfe | special | bcond => exact simulates_assertFailed

/-- The instruction on the host does what the model says. -/
theorem run_oneInstruction (cpu : Cpu) (m : Memory) :
    oneInstruction.run (exec tid now) ⟨cpu.array, m⟩ = ending cpu (cpu.step tid now m) := by
  unfold oneInstruction
  rw [run_get (i := pcReg) (by decide) rfl]
  change (access (.read cpu.pc .word) _).run _ _ = _
  unfold access
  rw [run_mem, Cpu.step, Cpu.oneInstruction_eq, Cpu.runOn_call]
  generalize m.access tid now (.read cpu.pc .word) = x
  obtain ⟨v, m'⟩ := x
  cases v with
  | error e => exact run_raise e cpu.pc
  | ok value =>
    change (decode (value.getD 0) >>= _).run _ _ = _
    rw [run_decode, run_get (i := nextPCReg) (by decide) rfl]
    exact simulates_execute cpu _ (extra_lt_32 _) m'

/-! ## The undefined division -/

theorem yields_execute (r : Registers) {instr : Instruction} (h : instr.opCode ≠ .div) :
    (r.execute instr).Yields (· ≠ .undefined) := by
  obtain ⟨opCode, rs, rt, rd, extra⟩ := instr
  cases opCode with
  | div => exact absurd rfl h
  | add | addi | sub | divu =>
    simp only [Registers.execute]
    split
    · exact fun he => by cases he
    · exact fun he => by cases he
  | lh | lhu | lw | lwl | lwr =>
    simp only [Registers.execute]
    split
    · exact fun he => by cases he
    · exact fun _ he => by cases he
  | swl | swr =>
    simp only [Registers.execute]
    split
    · exact fun he => by cases he
    · exact fun _ _ he => by cases he
  | lb | lbu | sb | sh | sw => exact fun _ he => by cases he
  | _ => exact fun he => by cases he

theorem complete_eq_undefined {e : InstrEffect} (h : cpu.complete e = .undefined) :
    e = .undefined := by
  cases e with
  | undefined => rfl
  | _ => cases h

theorem runOn_ne_undefined (h : q.Yields (· ≠ .undefined)) :
    (cpu.runOn tid now (q >>= fun e => .ret (cpu.complete e)) m).1 ≠ .undefined := by
  induction q generalizing m with
  | ret e => exact fun he => h (complete_eq_undefined he)
  | call a k ih =>
    rw [Program.call_bind, Cpu.runOn_call]
    generalize m.access tid now a = x
    obtain ⟨v, m'⟩ := x
    cases v with
    | error e => exact fun he => by cases he
    | ok v => exact ih v (h v)

theorem runOn_execute_undefined_iff (instr : Instruction) :
    (cpu.runOn tid now (cpu.execute instr >>= fun e => .ret (cpu.complete e)) m).1 = .undefined ↔
      DividesLeast cpu.array instr := by
  unfold DividesLeast
  rw [Registers.array_gp, Registers.array_gp]
  by_cases hop : instr.opCode = .div
  · rw [and_iff_right hop]
    simp only [Registers.execute, hop]
    split
    · next h0 =>
      refine iff_of_false (fun he => by cases he) fun h => ?_
      rw [h0] at h
      exact absurd h.2 (by decide)
    · split
      · next h => exact iff_of_true rfl h
      · next h => exact iff_of_false (fun he => by cases he) h
  · exact iff_of_false (runOn_ne_undefined (yields_execute _ hop)) fun h => hop h.1

theorem step_undefined_iff (cpu : Cpu) :
    (cpu.step tid now m).1 = .undefined ↔ ∃ w, (m.readMem tid now cpu.pc .word).1 = .ok w ∧
      DividesLeast cpu.array (Instruction.decode w) := by
  rw [Cpu.step, Cpu.oneInstruction_eq, Cpu.runOn_call]
  simp only [Memory.access]
  obtain ⟨v, m'⟩ := m.readMem tid now cpu.pc .word
  cases v with
  | error e => exact iff_of_false (fun he => by cases he) (by simp)
  | ok w =>
    change (cpu.runOn tid now (cpu.execute (Instruction.decode w) >>= _) m').1 = _ ↔ _
    rw [runOn_execute_undefined_iff]
    simp

end

end Simulator

/-! ## Runs -/

namespace Simulation

/-- The arrays hold registers: the number in `LoadReg` is one, and R0 is zero. -/
structure Sound (s : Simulation) : Prop where
  registers : ∃ cpu : Cpu, s.registers = cpu.array
  userRegisters : ∀ t a, s.userRegisters t = some a → ∃ cpu : Cpu, a = cpu.array

theorem exists_initRegisters (numPages : Word) :
    ∃ cpu : Cpu, Simulator.initRegisters numPages = cpu.array := by
  refine ⟨⟨⟨Function.update (fun _ => 0) 29 (numPages * 128 - 16), 0, 0, 0, 4, 0, 0, 0, 0⟩, rfl⟩,
    ?_⟩
  funext i
  fin_cases i <;> rfl

theorem sound_start (numPages : Word) : (start numPages).Sound :=
  ⟨exists_initRegisters numPages, fun _ _ h => by cases h⟩

theorem Sound.step {s s' : Simulation} (h : s.Sound) (e : HostEvent) (he : s.step e = some s') :
    s'.Sound := by
  cases e with
  | initRegisters numPages =>
    cases he
    exact ⟨exists_initRegisters numPages, h.userRegisters⟩
  | oneInstruction tid now memory =>
    obtain ⟨cpu, hcpu⟩ := h.registers
    simp only [Simulation.step, hcpu, Simulator.run_oneInstruction] at he
    generalize cpu.step tid now memory = x at he
    obtain ⟨c, m⟩ := x
    cases c with
    | done c | raise _ c =>
      cases he
      exact ⟨⟨c, rfl⟩, h.userRegisters⟩
    | assertFailed | undefined => cases he
  | saveUserState thread =>
    cases he
    refine ⟨h.registers, fun t a ha => ?_⟩
    change Function.update s.userRegisters thread (some s.registers) t = some a at ha
    rw [Function.update_apply] at ha
    split at ha
    · cases ha
      exact h.registers
    · exact h.userRegisters t a ha
  | restoreUserState thread =>
    obtain ⟨a, ha, rfl⟩ := Option.map_eq_some_iff.mp he
    exact ⟨h.userRegisters thread a ha, h.userRegisters⟩

theorem allDefined_iff_value (s : Simulation) (tid now : Int) (memory : Memory) :
    s.AllDefined tid now memory ↔
      (Simulator.oneInstruction.run (Simulator.exec tid now)
        ⟨s.registers, memory⟩).value ≠ none := by
  unfold AllDefined
  rw [Program.performs_iff_value_eq_none]
  · intro o t h
    rw [Simulator.exec, if_neg h]
  · intro o t h
    rw [Simulator.exec, if_pos (not_not.mp h)]
    exact ⟨_, _, rfl⟩

/-- From the initial registers on, every operation of an instruction is defined unless it is that
division. -/
theorem allDefined_iff (numPages : Word) (h : List HostEvent) (s : Simulation)
    (hs : History.run step (start numPages) h = some s) (tid now : Int) (memory : Memory) :
    s.AllDefined tid now memory ↔ ¬ s.DividesLeast tid now memory := by
  have hsound : s.Sound := History.run_keeps (fun _ e _ h he => h.step e he)
    (sound_start numPages) hs
  obtain ⟨cpu, hcpu⟩ := hsound.registers
  have hpc : cpu.array 34 = cpu.pc := rfl
  rw [allDefined_iff_value, DividesLeast, hcpu, hpc, ← Simulator.step_undefined_iff,
    Simulator.run_oneInstruction]
  refine not_congr ?_
  generalize cpu.step tid now memory = x
  obtain ⟨c, m⟩ := x
  cases c with
  | undefined => exact iff_of_true rfl rfl
  | _ => exact iff_of_false (fun h => by cases h) (fun h => by cases h)

/-- A memory with LUI r1,0x8000, ADDIU r2,r0,divisor and DIV r1,r2 at address 0. -/
def dividing (divisor : Word) : Memory :=
  { Memory.initial (fun _ => 0)
      (overwrite (fun _ => 0) 0 (bytesOfWords [0x3c018000, 0x24020000 ||| divisor, 0x0022001a]))
      (fun _ => 0) ⟨0, fun _ => 0⟩ with
    pageTable := fun _ => { TranslationEntry.initial with
      virtualPage := 0, physicalPage := 0, valid := true, tid := 0 } }

def beforeDivision (divisor : Word) : Option Simulation :=
  History.run step (start 8)
    [.oneInstruction 0 0 (dividing divisor), .oneInstruction 0 0 (dividing divisor)]

theorem allDefined_two :
    ∃ s, beforeDivision 2 = some s ∧ s.AllDefined 0 0 (dividing 2) := by
  obtain ⟨s, hs⟩ : ∃ s, beforeDivision 2 = some s :=
    Option.isSome_iff_exists.mp (by decide +kernel)
  have hregisters : (beforeDivision 2).map (fun s => (s.registers 34, s.registers 2)) =
      some (8, 2) := by
    decide +kernel
  rw [hs] at hregisters
  obtain ⟨hpc, hr2⟩ := Prod.ext_iff.mp (Option.some_inj.mp hregisters)
  refine ⟨s, hs, (allDefined_iff 8 _ s hs 0 0 (dividing 2)).mpr ?_⟩
  rintro ⟨w, hw, -, -, hrt⟩
  have hdiv : ((dividing 2).readMem 0 0 8 .word).1 = .ok 0x0022001a := by decide +kernel
  rw [show s.registers 34 = 8 from hpc, hdiv] at hw
  cases hw
  have hindex : Fin.ofNat 40 (Instruction.decode 0x0022001a).rt.val = 2 := by decide
  rw [hindex, show s.registers 2 = 2 from hr2] at hrt
  exact absurd hrt (by decide)

/-- With -1 the host is asked for a quotient that it does not have. -/
theorem not_allDefined_least :
    ∃ s, beforeDivision 0xffff = some s ∧ ¬ s.AllDefined 0 0 (dividing 0xffff) := by
  obtain ⟨s, hs⟩ : ∃ s, beforeDivision 0xffff = some s :=
    Option.isSome_iff_exists.mp (by decide +kernel)
  have hvalue : (beforeDivision 0xffff).map (fun s =>
      (Simulator.oneInstruction.run (Simulator.exec 0 0)
        ⟨s.registers, dividing 0xffff⟩).value) = some none := by
    decide +kernel
  rw [hs] at hvalue
  refine ⟨s, hs, ?_⟩
  rw [allDefined_iff_value]
  exact fun h => h (Option.some_inj.mp hvalue)

end Simulation
end Nachos
