import Nachos.Lib.Bytes

/-! The arithmetic instructions of the MIPS I architecture: how they are encoded, and what they
write. Registers are read before anything is written; the result of a division by zero is
undefined, and additions that overflow trap. -/

namespace Lib.Mips

/-! ## Fields of an instruction word -/

def op (w : Word) : BitVec 6 := w.extractLsb' 26 6
def rs (w : Word) : Fin 32 := (w.extractLsb' 21 5).toFin
def rt (w : Word) : Fin 32 := (w.extractLsb' 16 5).toFin
def rd (w : Word) : Fin 32 := (w.extractLsb' 11 5).toFin
def shamt (w : Word) : Nat := (w.extractLsb' 6 5).toNat
def funct (w : Word) : BitVec 6 := w.extractLsb' 0 6
def imm (w : Word) : BitVec 16 := w.extractLsb' 0 16

inductive Alu where
  | add | addi | addiu | addu | and | andi | div | divu | lui | mfhi | mflo | mthi | mtlo | mult
  | multu | nor | or | ori | sll | sllv | slt | slti | sltiu | sltu | sra | srav | srl | srlv | sub
  | subu | xor | xori
  deriving DecidableEq

/-- The opcode of an instruction, and for opcode 0 its function code. -/
def Alu.code : Alu → BitVec 6 × Option (BitVec 6)
  | .sll => (0, some 0)
  | .srl => (0, some 2)
  | .sra => (0, some 3)
  | .sllv => (0, some 4)
  | .srlv => (0, some 6)
  | .srav => (0, some 7)
  | .mfhi => (0, some 16)
  | .mthi => (0, some 17)
  | .mflo => (0, some 18)
  | .mtlo => (0, some 19)
  | .mult => (0, some 24)
  | .multu => (0, some 25)
  | .div => (0, some 26)
  | .divu => (0, some 27)
  | .add => (0, some 32)
  | .addu => (0, some 33)
  | .sub => (0, some 34)
  | .subu => (0, some 35)
  | .and => (0, some 36)
  | .or => (0, some 37)
  | .xor => (0, some 38)
  | .nor => (0, some 39)
  | .slt => (0, some 42)
  | .sltu => (0, some 43)
  | .addi => (8, none)
  | .addiu => (9, none)
  | .slti => (10, none)
  | .sltiu => (11, none)
  | .andi => (12, none)
  | .ori => (13, none)
  | .xori => (14, none)
  | .lui => (15, none)

def Alu.Encodes (k : Alu) (w : Word) : Prop :=
  op w = k.code.1 ∧ ∀ f, k.code.2 = some f → funct w = f

/-! ## Results -/

inductive Special where
  | keep
  | set (v : Word)
  | undefined
  deriving DecidableEq

def Special.Allows (old new : Word) : Special → Prop
  | .keep => new = old
  | .set v => new = v
  | .undefined => True

/-- What an instruction writes: at most one general register, and HI and LO. -/
structure Result where
  dest : Option (Fin 32 × Word)
  hi : Special
  lo : Special

def Result.general (r : Fin 32) (v : Word) : Result := ⟨some (r, v), .keep, .keep⟩

def Result.checked (r : Fin 32) (v : Int) : Option Result :=
  if -2147483648 ≤ v ∧ v < 2147483648 then some (.general r (BitVec.ofInt 32 v)) else none

def Result.wide (p : BitVec 64) : Result :=
  ⟨none, .set (p.extractLsb' 32 32), .set (p.extractLsb' 0 32)⟩

def truth (p : Bool) : Word := if p then 1 else 0

section
variable (w : Word) (gp : Fin 32 → Word) (hi lo : Word)

/-- The result of an instruction, or `none` if it traps. -/
def Alu.result : Alu → Option Result
  | .add => Result.checked (rd w) ((gp (rs w)).toInt + (gp (rt w)).toInt)
  | .addi => Result.checked (rt w) ((gp (rs w)).toInt + (imm w).toInt)
  | .sub => Result.checked (rd w) ((gp (rs w)).toInt - (gp (rt w)).toInt)
  | .addiu => some (.general (rt w) (gp (rs w) + (imm w).signExtend 32))
  | .addu => some (.general (rd w) (gp (rs w) + gp (rt w)))
  | .subu => some (.general (rd w) (gp (rs w) - gp (rt w)))
  | .and => some (.general (rd w) (gp (rs w) &&& gp (rt w)))
  | .andi => some (.general (rt w) (gp (rs w) &&& (imm w).setWidth 32))
  | .nor => some (.general (rd w) (~~~ (gp (rs w) ||| gp (rt w))))
  | .or => some (.general (rd w) (gp (rs w) ||| gp (rt w)))
  | .ori => some (.general (rt w) (gp (rs w) ||| (imm w).setWidth 32))
  | .xor => some (.general (rd w) (gp (rs w) ^^^ gp (rt w)))
  | .xori => some (.general (rt w) (gp (rs w) ^^^ (imm w).setWidth 32))
  | .lui => some (.general (rt w) ((imm w).setWidth 32 <<< 16))
  | .sll => some (.general (rd w) (gp (rt w) <<< shamt w))
  | .sllv => some (.general (rd w) (gp (rt w) <<< ((gp (rs w)).toNat % 32)))
  | .srl => some (.general (rd w) (gp (rt w) >>> shamt w))
  | .srlv => some (.general (rd w) (gp (rt w) >>> ((gp (rs w)).toNat % 32)))
  | .sra => some (.general (rd w) ((gp (rt w)).sshiftRight (shamt w)))
  | .srav => some (.general (rd w) ((gp (rt w)).sshiftRight ((gp (rs w)).toNat % 32)))
  | .slt => some (.general (rd w) (truth ((gp (rs w)).toInt < (gp (rt w)).toInt)))
  | .slti => some (.general (rt w) (truth ((gp (rs w)).toInt < (imm w).toInt)))
  | .sltu => some (.general (rd w) (truth ((gp (rs w)).toNat < (gp (rt w)).toNat)))
  | .sltiu =>
    some (.general (rt w) (truth ((gp (rs w)).toNat < ((imm w).signExtend 32).toNat)))
  | .mfhi => some (.general (rd w) hi)
  | .mflo => some (.general (rd w) lo)
  | .mthi => some ⟨none, .set (gp (rs w)), .keep⟩
  | .mtlo => some ⟨none, .keep, .set (gp (rs w))⟩
  | .mult => some (.wide (BitVec.ofInt 64 ((gp (rs w)).toInt * (gp (rt w)).toInt)))
  | .multu => some (.wide (BitVec.ofNat 64 ((gp (rs w)).toNat * (gp (rt w)).toNat)))
  | .div =>
    if gp (rt w) = 0 then some ⟨none, .undefined, .undefined⟩
    else some ⟨none, .set (BitVec.ofInt 32 ((gp (rs w)).toInt.tmod (gp (rt w)).toInt)),
      .set (BitVec.ofInt 32 ((gp (rs w)).toInt.tdiv (gp (rt w)).toInt))⟩
  | .divu =>
    if gp (rt w) = 0 then some ⟨none, .undefined, .undefined⟩
    else some ⟨none, .set (BitVec.ofNat 32 ((gp (rs w)).toNat % (gp (rt w)).toNat)),
      .set (BitVec.ofNat 32 ((gp (rs w)).toNat / (gp (rt w)).toNat))⟩

end

/-! ## Overflow -/

def InWord (v : Int) : Prop := -2147483648 ≤ v ∧ v < 2147483648

instance (v : Int) : Decidable (InWord v) := inferInstanceAs (Decidable (_ ∧ _))

theorem InWord.toInt_ofInt {v : Int} (hv : InWord v) : (BitVec.ofInt 32 v).toInt = v := by
  unfold InWord at hv
  rw [BitVec.toInt_ofInt]
  apply Int.bmod_eq_of_le <;> omega

inductive Trapping where
  | add
  | addi
  | sub
  deriving DecidableEq

namespace Trapping

def alu : Trapping → Alu
  | add => .add
  | addi => .addi
  | sub => .sub

def dest (w : Word) : Trapping → Fin 32
  | add => rd w
  | addi => rt w
  | sub => rd w

def value (w : Word) (gp : Fin 32 → Word) : Trapping → Int
  | add => (gp (rs w)).toInt + (gp (rt w)).toInt
  | addi => (gp (rs w)).toInt + (imm w).toInt
  | sub => (gp (rs w)).toInt - (gp (rt w)).toInt

end Trapping
end Lib.Mips
