import Nachos.Machine.Alu
import Nachos.Lib.History

/-! `OneInstruction` as the host computer carries it out. The registers are one array, and every
index, shift and division has to be one that the host can do. It does the same as the model with
named registers, in which the number of a delayed register is in range by its type; this is the
invariant of the array. What is left undefined is one division. -/

namespace Nachos
open Lib

/-! ## What the host does -/

inductive ShiftKind where
  | left
  | logical
  | arithmetic

inductive HostOp where
  | get (i : Int)
  | put (i : Int) (value : Word)
  | shift (kind : ShiftKind) (a : Word) (n : Int)
  | div (a b : Word)
  | mod (a b : Word)
  | divu (a b : Word)
  | modu (a b : Word)
  | mem (a : Access)

@[reducible] def HostSig : Signature where
  Op := HostOp
  Res
    | .put .. => Unit
    | .mem _ => Except ExceptionType (Option Word)
    | _ => Word

/-- The index is in the array, the shift amount is less than the width, and the quotient exists and
has 32 bits. -/
def HostOp.Defined : HostOp → Prop
  | .get i | .put i _ => 0 ≤ i ∧ i < 40
  | .shift _ _ n => 0 ≤ n ∧ n ≤ 31
  | .div a b | .mod a b =>
    b.toInt ≠ 0 ∧ -2 ^ 31 ≤ a.toInt.tdiv b.toInt ∧ a.toInt.tdiv b.toInt < 2 ^ 31
  | .divu a b | .modu a b => b.toNat ≠ 0 ∧ a.toNat / b.toNat < 2 ^ 32
  | .mem _ => True

instance : DecidablePred HostOp.Defined
  | .get _ | .put .. | .shift .. => inferInstanceAs (Decidable (_ ∧ _))
  | .div .. | .mod .. => inferInstanceAs (Decidable (_ ∧ _ ∧ _))
  | .divu .. | .modu .. => inferInstanceAs (Decidable (_ ∧ _))
  | .mem _ => inferInstanceAs (Decidable True)

structure Simulator where
  registers : Fin 40 → Word
  memory : Memory

namespace Simulator

def shifted (a : Word) (n : Nat) : ShiftKind → Word
  | .left => a <<< n
  | .logical => a >>> n
  | .arithmetic => a.sshiftRight n

def answer (tid now : Int) (s : Simulator) : (o : HostOp) → HostSig.Res o × Simulator
  | .get i => (s.registers (Fin.ofNat 40 i.toNat), s)
  | .put i value =>
    ((), { s with registers := Function.update s.registers (Fin.ofNat 40 i.toNat) value })
  | .shift kind a n => (shifted a n.toNat kind, s)
  | .div a b => (a.sdiv b, s)
  | .mod a b => (a.srem b, s)
  | .divu a b => (a / b, s)
  | .modu a b => (a % b, s)
  | .mem a =>
    let r := s.memory.access tid now a
    (r.1, { s with memory := r.2 })

def exec (tid now : Int) : Handler HostSig Simulator := fun o s =>
  if o.Defined then .done (s.answer tid now o).1 (s.answer tid now o).2 else .fault

def get (i : Int) : Program HostSig Word := .call (.get i) .ret
def put (i : Int) (value : Word) : Program HostSig Unit := .call (.put i value) .ret
def shift (kind : ShiftKind) (a : Word) (n : Int) : Program HostSig Word :=
  .call (.shift kind a n) .ret
def div (a b : Word) : Program HostSig Word := .call (.div a b) .ret
def mod (a b : Word) : Program HostSig Word := .call (.mod a b) .ret
def divu (a b : Word) : Program HostSig Word := .call (.divu a b) .ret
def modu (a b : Word) : Program HostSig Word := .call (.modu a b) .ret
def mem (a : Access) : Program HostSig (Except ExceptionType (Option Word)) := .call (.mem a) .ret

/-! ## The code -/

def r31 : Int := 31
def hiReg : Int := 32
def loReg : Int := 33
def pcReg : Int := 34
def nextPCReg : Int := 35
def prevPCReg : Int := 36
def loadReg : Int := 37
def loadValueReg : Int := 38
def badVAddrReg : Int := 39

inductive Ending where
  | done
  | raised (which : ExceptionType)
  | assertFailed
  deriving DecidableEq

def delayedLoad (nextReg : Int) (nextValue : Word) : Program HostSig Unit := do
  let i ← get loadReg
  let value ← get loadValueReg
  put i.toInt value
  put loadReg (BitVec.ofInt 32 nextReg)
  put loadValueReg nextValue
  put 0 0

/-- `RaiseException`; the handler changes no register. -/
def raiseException (which : ExceptionType) (badVAddr : Word) : Program HostSig Ending := do
  put badVAddrReg badVAddr
  delayedLoad 0 0
  return .raised which

def finish (nextLoadReg : Int) (nextLoadValue pcAfter : Word) : Program HostSig Ending := do
  delayedLoad nextLoadReg nextLoadValue
  let pc ← get pcReg
  put prevPCReg pc
  let nextPC ← get nextPCReg
  put pcReg nextPC
  put nextPCReg pcAfter
  return .done

/-- `if (!machine->ReadMem(...)) return;`, and the same for `WriteMem`. -/
def access (a : Access) (next : Option Word → Program HostSig Ending) :
    Program HostSig Ending := do
  match ← mem a with
  | .error e => raiseException e a.addr
  | .ok value => next value

def readMem (addr : Word) (size : MemSize) (next : Word → Program HostSig Ending) :
    Program HostSig Ending :=
  access (.read addr size) fun value => next (value.getD 0)

def writeMem (addr : Word) (size : MemSize) (value : Word) (next : Program HostSig Ending) :
    Program HostSig Ending :=
  access (.write addr size value) fun _ => next

structure Decoded where
  opCode : OpCode
  rs : Int
  rt : Int
  rd : Int
  extra : Word

def extraOf (value : Word) : Format → Program HostSig Word
  | .rfmt => do return (← shift .logical value 6) &&& 0x1f
  | format => return Instruction.extraOf value format

def decode (value : Word) : Program HostSig Decoded := do
  let rs ← shift .logical value 21
  let rt ← shift .logical value 16
  let rd ← shift .logical value 11
  let op ← shift .logical value 26
  let opPtr := opTable.getD (op &&& 0x3f).toNat ⟨.res, .ifmt⟩
  let extra ← extraOf value opPtr.format
  return ⟨Instruction.opCodeOf value opPtr.opCode,
    (rs &&& 0x1f).toInt, (rt &&& 0x1f).toInt, (rd &&& 0x1f).toInt, extra⟩

def indexToAddr (x : Word) : Program HostSig Word := shift .left x 2

def multLoop : Nat → (a bLo bHi lo hi : Word) → Program HostSig (Word × Word)
  | 0, _, _, _, lo, hi => return (hi, lo)
  | n + 1, a, bLo, bHi, lo, hi =>
    if a &&& 1 ≠ 0 ∧ a &&& 0xfffffffe = 0 then
      return ((if lo + bLo < bLo then hi + 1 else hi) + bHi, lo + bLo)
    else do
      let bHi' ← shift .left bHi 1
      let bLo' ← shift .left bLo 1
      let a' ← shift .arithmetic a 1
      let bHi' := if bLo &&& 0x80000000 ≠ 0 then bHi' ||| 1 else bHi'
      if a &&& 1 ≠ 0 then
        multLoop n a' bLo' bHi' (lo + bLo) ((if lo + bLo < bLo then hi + 1 else hi) + bHi)
      else multLoop n a' bLo' bHi' lo hi

def mult (a b : Word) (signedArith : Bool) : Program HostSig (Word × Word) :=
  if a = 0 ∨ b = 0 then return (0, 0)
  else do
    let negative := signedArith && (decide (a.toInt < 0) != decide (b.toInt < 0))
    let a := if signedArith && decide (a.toInt < 0) then -a else a
    let b := if signedArith && decide (b.toInt < 0) then -b else b
    let p ← multLoop 32 a b 0 0 0
    return if negative then (if ~~~ p.2 + 1 = 0 then ~~~ p.1 + 1 else ~~~ p.1, ~~~ p.2 + 1) else p

/-- `registers[d] = value; break;` -/
def assign (d : Int) (value pcAfter : Word) : Program HostSig Ending := do
  put d value
  finish 0 0 pcAfter

def branch (taken : Bool) (extra pcAfter : Word) : Program HostSig Ending :=
  if taken then do
    let nextPC ← get nextPCReg
    let offset ← indexToAddr extra
    finish 0 0 (nextPC + offset)
  else finish 0 0 pcAfter

def link (d : Int) : Program HostSig Unit := do
  let nextPC ← get nextPCReg
  put d (nextPC + 4)

def jump (extra pcAfter : Word) : Program HostSig Ending := do
  let target ← indexToAddr extra
  finish 0 0 (pcAfter &&& 0xf0000000 ||| target)

def loading (rt : Int) : Program HostSig Word := do
  let load ← get loadReg
  if load.toInt = rt then get loadValueReg else get rt

def mergeLeft (tmp old value : Word) : Program HostSig Word :=
  if tmp &&& 0x3 = 0 then return value
  else if tmp &&& 0x3 = 1 then do return old &&& 0xff ||| (← shift .left value 8)
  else if tmp &&& 0x3 = 2 then do return old &&& 0xffff ||| (← shift .left value 16)
  else do return old &&& 0xffffff ||| (← shift .left value 24)

def mergeRight (tmp old value : Word) : Program HostSig Word :=
  if tmp &&& 0x3 = 0 then do
    return old &&& 0xffffff00 ||| (← shift .arithmetic value 24) &&& 0xff
  else if tmp &&& 0x3 = 1 then do
    return old &&& 0xffff0000 ||| (← shift .arithmetic value 16) &&& 0xffff
  else if tmp &&& 0x3 = 2 then do
    return old &&& 0xff000000 ||| (← shift .arithmetic value 8) &&& 0xffffff
  else return value

def insertLeft (tmp rt value : Word) : Program HostSig Word :=
  if tmp &&& 0x3 = 0 then return rt
  else if tmp &&& 0x3 = 1 then do
    return value &&& 0xff000000 ||| (← shift .arithmetic rt 8) &&& 0xffffff
  else if tmp &&& 0x3 = 2 then do
    return value &&& 0xffff0000 ||| (← shift .arithmetic rt 16) &&& 0xffff
  else do return value &&& 0xffffff00 ||| (← shift .arithmetic rt 24) &&& 0xff

def insertRight (tmp rt value : Word) : Program HostSig Word :=
  if tmp &&& 0x3 = 0 then do return value &&& 0xffffff ||| (← shift .left rt 24)
  else if tmp &&& 0x3 = 1 then do return value &&& 0xffff ||| (← shift .left rt 16)
  else if tmp &&& 0x3 = 2 then do return value &&& 0xff ||| (← shift .left rt 8)
  else return rt

def execute (instr : Decoded) (pcAfter : Word) : Program HostSig Ending :=
  match instr.opCode with
  | .add => do
    let rs ← get instr.rs
    let rt ← get instr.rt
    if !signBit (rs ^^^ rt) && signBit (rs ^^^ (rs + rt)) then raiseException .overflow 0
    else assign instr.rd (rs + rt) pcAfter
  | .addi => do
    let rs ← get instr.rs
    if !signBit (rs ^^^ instr.extra) && signBit (instr.extra ^^^ (rs + instr.extra)) then
      raiseException .overflow 0
    else assign instr.rt (rs + instr.extra) pcAfter
  | .addiu => do assign instr.rt ((← get instr.rs) + instr.extra) pcAfter
  | .addu => do assign instr.rd ((← get instr.rs) + (← get instr.rt)) pcAfter
  | .and => do assign instr.rd ((← get instr.rs) &&& (← get instr.rt)) pcAfter
  | .andi => do assign instr.rt ((← get instr.rs) &&& (instr.extra &&& 0xffff)) pcAfter
  | .beq => do branch ((← get instr.rs) == (← get instr.rt)) instr.extra pcAfter
  | .bgezal => do
    link r31
    branch (!signBit (← get instr.rs)) instr.extra pcAfter
  | .bgez => do branch (!signBit (← get instr.rs)) instr.extra pcAfter
  | .bgtz => do branch (decide (0 < (← get instr.rs).toInt)) instr.extra pcAfter
  | .blez => do branch (decide ((← get instr.rs).toInt ≤ 0)) instr.extra pcAfter
  | .bltzal => do
    link r31
    branch (signBit (← get instr.rs)) instr.extra pcAfter
  | .bltz => do branch (signBit (← get instr.rs)) instr.extra pcAfter
  | .bne => do branch ((← get instr.rs) != (← get instr.rt)) instr.extra pcAfter
  | .div => do
    let rt ← get instr.rt
    if rt = 0 then do
      put loReg 0
      put hiReg 0
      finish 0 0 pcAfter
    else do
      let rs ← get instr.rs
      put loReg (← div rs rt)
      let rs ← get instr.rs
      let rt ← get instr.rt
      put hiReg (← mod rs rt)
      finish 0 0 pcAfter
  | .divu => do
    let rs ← get instr.rs
    let rt ← get instr.rt
    if rt = 0 then do
      put loReg 0
      put hiReg 0
      finish 0 0 pcAfter
    else do
      put loReg (← divu rs rt)
      put hiReg (← modu rs rt)
      finish 0 0 pcAfter
  | .jal => do
    link r31
    jump instr.extra pcAfter
  | .j => jump instr.extra pcAfter
  | .jalr => do
    link instr.rd
    finish 0 0 (← get instr.rs)
  | .jr => do finish 0 0 (← get instr.rs)
  | .lb => do
    readMem ((← get instr.rs) + instr.extra) .byte fun value =>
      finish instr.rt (if value &&& 0x80 ≠ 0 then value ||| 0xffffff00 else value &&& 0xff) pcAfter
  | .lbu => do
    readMem ((← get instr.rs) + instr.extra) .byte fun value =>
      finish instr.rt (value &&& 0xff) pcAfter
  | .lh => do
    let tmp := (← get instr.rs) + instr.extra
    if tmp &&& 0x1 ≠ 0 then raiseException .addressError tmp
    else
      readMem tmp .half fun value =>
        finish instr.rt
          (if value &&& 0x8000 ≠ 0 then value ||| 0xffff0000 else value &&& 0xffff) pcAfter
  | .lhu => do
    let tmp := (← get instr.rs) + instr.extra
    if tmp &&& 0x1 ≠ 0 then raiseException .addressError tmp
    else readMem tmp .half fun value => finish instr.rt (value &&& 0xffff) pcAfter
  | .lui => do assign instr.rt (← shift .left instr.extra 16) pcAfter
  | .lw => do
    let tmp := (← get instr.rs) + instr.extra
    if tmp &&& 0x3 ≠ 0 then raiseException .addressError tmp
    else readMem tmp .word fun value => finish instr.rt value pcAfter
  | .lwl => do
    let tmp := (← get instr.rs) + instr.extra
    if tmp &&& 0x3 ≠ 0 then return .assertFailed
    else readMem tmp .word fun value => do
      finish instr.rt (← mergeLeft tmp (← loading instr.rt) value) pcAfter
  | .lwr => do
    let tmp := (← get instr.rs) + instr.extra
    if tmp &&& 0x3 ≠ 0 then return .assertFailed
    else readMem tmp .word fun value => do
      finish instr.rt (← mergeRight tmp (← loading instr.rt) value) pcAfter
  | .mfhi => do assign instr.rd (← get hiReg) pcAfter
  | .mflo => do assign instr.rd (← get loReg) pcAfter
  | .mthi => do assign hiReg (← get instr.rs) pcAfter
  | .mtlo => do assign loReg (← get instr.rs) pcAfter
  | .mult => do
    let p ← mult (← get instr.rs) (← get instr.rt) true
    put hiReg p.1
    put loReg p.2
    finish 0 0 pcAfter
  | .multu => do
    let p ← mult (← get instr.rs) (← get instr.rt) false
    put hiReg p.1
    put loReg p.2
    finish 0 0 pcAfter
  | .nor => do assign instr.rd (~~~ ((← get instr.rs) ||| (← get instr.rt))) pcAfter
  | .or => do assign instr.rd ((← get instr.rs) ||| (← get instr.rs)) pcAfter
  | .ori => do assign instr.rt ((← get instr.rs) ||| (instr.extra &&& 0xffff)) pcAfter
  | .sb => do
    writeMem ((← get instr.rs) + instr.extra) .byte (← get instr.rt) (finish 0 0 pcAfter)
  | .sh => do
    writeMem ((← get instr.rs) + instr.extra) .half (← get instr.rt) (finish 0 0 pcAfter)
  | .sll => do assign instr.rd (← shift .left (← get instr.rt) instr.extra.toInt) pcAfter
  | .sllv => do
    let rt ← get instr.rt
    let rs ← get instr.rs
    assign instr.rd (← shift .left rt (rs &&& 0x1f).toInt) pcAfter
  | .slt => do
    let rs ← get instr.rs
    let rt ← get instr.rt
    assign instr.rd (if decide (rs.toInt < rt.toInt) then 1 else 0) pcAfter
  | .slti => do
    let rs ← get instr.rs
    assign instr.rt (if decide (rs.toInt < instr.extra.toInt) then 1 else 0) pcAfter
  | .sltiu => do
    let rs ← get instr.rs
    assign instr.rt (if decide (rs < instr.extra) then 1 else 0) pcAfter
  | .sltu => do
    let rs ← get instr.rs
    let rt ← get instr.rt
    assign instr.rd (if decide (rs < rt) then 1 else 0) pcAfter
  | .sra => do assign instr.rd (← shift .arithmetic (← get instr.rt) instr.extra.toInt) pcAfter
  | .srav => do
    let rt ← get instr.rt
    let rs ← get instr.rs
    assign instr.rd (← shift .arithmetic rt (rs &&& 0x1f).toInt) pcAfter
  | .srl => do assign instr.rd (← shift .arithmetic (← get instr.rt) instr.extra.toInt) pcAfter
  | .srlv => do
    let rt ← get instr.rt
    let rs ← get instr.rs
    assign instr.rd (← shift .arithmetic rt (rs &&& 0x1f).toInt) pcAfter
  | .sub => do
    let rs ← get instr.rs
    let rt ← get instr.rt
    if signBit (rs ^^^ rt) && signBit (rs ^^^ (rs - rt)) then raiseException .overflow 0
    else assign instr.rd (rs - rt) pcAfter
  | .subu => do assign instr.rd ((← get instr.rs) - (← get instr.rt)) pcAfter
  | .sw => do
    writeMem ((← get instr.rs) + instr.extra) .word (← get instr.rt) (finish 0 0 pcAfter)
  | .swl => do
    let tmp := (← get instr.rs) + instr.extra
    if tmp &&& 0x3 ≠ 0 then return .assertFailed
    else readMem (tmp &&& ~~~ 0x3) .word fun value => do
      let value ← insertLeft tmp (← get instr.rt) value
      writeMem (tmp &&& ~~~ 0x3) .word value (finish 0 0 pcAfter)
  | .swr => do
    let tmp := (← get instr.rs) + instr.extra
    if tmp &&& 0x3 ≠ 0 then return .assertFailed
    else readMem (tmp &&& ~~~ 0x3) .word fun value => do
      let value ← insertRight tmp (← get instr.rt) value
      writeMem (tmp &&& ~~~ 0x3) .word value (finish 0 0 pcAfter)
  | .syscall => raiseException .syscall 0
  | .xor => do assign instr.rd ((← get instr.rs) ^^^ (← get instr.rt)) pcAfter
  | .xori => do assign instr.rt ((← get instr.rs) ^^^ (instr.extra &&& 0xffff)) pcAfter
  | .res | .unimp => raiseException .illegalInstr 0
  | .rfe | .special | .bcond => return .assertFailed

def oneInstruction : Program HostSig Ending := do
  readMem (← get pcReg) .word fun raw => do
    let instr ← decode raw
    let nextPC ← get nextPCReg
    execute instr (nextPC + 4)

/-! ## Runs -/

/-- `InitRegisters` of an address space. -/
def initRegisters (numPages : Word) : Fin 40 → Word :=
  Function.update (Function.update (Function.update (fun _ => 0) 34 0) 35 4) 29
    (numPages * 128 - 16)

def DividesLeast (registers : Fin 40 → Word) (instr : Instruction) : Prop :=
  instr.opCode = .div ∧ registers (Fin.ofNat 40 instr.rs) = 0x80000000 ∧
    registers (Fin.ofNat 40 instr.rt) = -1

end Simulator

/-- What changes the registers of the machine. An instruction may find any memory. -/
inductive HostEvent where
  | initRegisters (numPages : Word)
  | oneInstruction (tid now : Int) (memory : Memory)
  | saveUserState (thread : Nat)
  | restoreUserState (thread : Nat)

/-- The registers of the machine, and those that threads have saved. -/
structure Simulation where
  registers : Fin 40 → Word
  userRegisters : Nat → Option (Fin 40 → Word)

namespace Simulation

def start (numPages : Word) : Simulation := ⟨Simulator.initRegisters numPages, fun _ => none⟩

/-- A failed assertion and an undefined operation end the run. -/
def step (s : Simulation) : HostEvent → Option Simulation
  | .initRegisters numPages => some { s with registers := Simulator.initRegisters numPages }
  | .oneInstruction tid now memory =>
    match Simulator.oneInstruction.run (Simulator.exec tid now) ⟨s.registers, memory⟩ with
    | .done .assertFailed _ => none
    | .done _ s' => some { s with registers := s'.registers }
    | _ => none
  | .saveUserState thread =>
    some { s with userRegisters := Function.update s.userRegisters thread (some s.registers) }
  | .restoreUserState thread =>
    (s.userRegisters thread).map fun registers => { s with registers := registers }

def AllDefined (s : Simulation) (tid now : Int) (memory : Memory) : Prop :=
  ¬ Program.Performs (Simulator.exec tid now) (fun o => ¬ o.Defined) Simulator.oneInstruction
    ⟨s.registers, memory⟩

def DividesLeast (s : Simulation) (tid now : Int) (memory : Memory) : Prop :=
  ∃ w, (memory.readMem tid now (s.registers 34) .word).1 = .ok w ∧
    Simulator.DividesLeast s.registers (Instruction.decode w)

end Simulation
end Nachos
