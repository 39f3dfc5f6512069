import Nachos.Machine.Memory
import Nachos.Lib.Program

/-! The CPU: `Instruction::Decode`, `Machine::OneInstruction` and `Machine::DelayedLoad` of
`mipssim.cc`, and the part of `Machine::RaiseException` that changes registers. An instruction is a
program over accesses to memory; every other step of it only reads and writes registers. -/

namespace Nachos
open Lib

/-! ## Decoding -/

/-- The values of `opCode`, with the two that need further decoding. -/
inductive OpCode where
  | add | addi | addiu | addu | and | andi | beq | bgez | bgezal | bgtz | blez | bltz | bltzal | bne
  | div | divu | j | jal | jalr | jr | lb | lbu | lh | lhu | lui | lw | lwl | lwr | mfhi | mflo
  | mthi | mtlo | mult | multu | nor | or | ori | rfe | sb | sh | sll | sllv | slt | slti | sltiu
  | sltu | sra | srav | srl | srlv | sub | subu | sw | swl | swr | xor | xori | syscall | unimp | res
  | special | bcond
  deriving DecidableEq

inductive Format where
  | ifmt
  | jfmt
  | rfmt
  deriving DecidableEq

structure OpInfo where
  opCode : OpCode
  format : Format
  deriving DecidableEq

def opTable : List OpInfo :=
  [⟨.special, .rfmt⟩, ⟨.bcond, .ifmt⟩, ⟨.j, .jfmt⟩, ⟨.jal, .jfmt⟩,
    ⟨.beq, .ifmt⟩, ⟨.bne, .ifmt⟩, ⟨.blez, .ifmt⟩, ⟨.bgtz, .ifmt⟩,
    ⟨.addi, .ifmt⟩, ⟨.addiu, .ifmt⟩, ⟨.slti, .ifmt⟩, ⟨.sltiu, .ifmt⟩,
    ⟨.andi, .ifmt⟩, ⟨.ori, .ifmt⟩, ⟨.xori, .ifmt⟩, ⟨.lui, .ifmt⟩,
    ⟨.unimp, .ifmt⟩, ⟨.unimp, .ifmt⟩, ⟨.unimp, .ifmt⟩, ⟨.unimp, .ifmt⟩,
    ⟨.res, .ifmt⟩, ⟨.res, .ifmt⟩, ⟨.res, .ifmt⟩, ⟨.res, .ifmt⟩,
    ⟨.res, .ifmt⟩, ⟨.res, .ifmt⟩, ⟨.res, .ifmt⟩, ⟨.res, .ifmt⟩,
    ⟨.res, .ifmt⟩, ⟨.res, .ifmt⟩, ⟨.res, .ifmt⟩, ⟨.res, .ifmt⟩,
    ⟨.lb, .ifmt⟩, ⟨.lh, .ifmt⟩, ⟨.lwl, .ifmt⟩, ⟨.lw, .ifmt⟩,
    ⟨.lbu, .ifmt⟩, ⟨.lhu, .ifmt⟩, ⟨.lwr, .ifmt⟩, ⟨.res, .ifmt⟩,
    ⟨.sb, .ifmt⟩, ⟨.sh, .ifmt⟩, ⟨.swl, .ifmt⟩, ⟨.sw, .ifmt⟩,
    ⟨.res, .ifmt⟩, ⟨.res, .ifmt⟩, ⟨.swr, .ifmt⟩, ⟨.res, .ifmt⟩,
    ⟨.unimp, .ifmt⟩, ⟨.unimp, .ifmt⟩, ⟨.unimp, .ifmt⟩, ⟨.unimp, .ifmt⟩,
    ⟨.res, .ifmt⟩, ⟨.res, .ifmt⟩, ⟨.res, .ifmt⟩, ⟨.res, .ifmt⟩,
    ⟨.unimp, .ifmt⟩, ⟨.unimp, .ifmt⟩, ⟨.unimp, .ifmt⟩, ⟨.unimp, .ifmt⟩,
    ⟨.res, .ifmt⟩, ⟨.res, .ifmt⟩, ⟨.res, .ifmt⟩, ⟨.res, .ifmt⟩]

def specialTable : List OpCode :=
  [.sll, .res, .srl, .sra, .sllv, .res, .srlv, .srav,
    .jr, .jalr, .res, .res, .syscall, .unimp, .res, .res,
    .mfhi, .mthi, .mflo, .mtlo, .res, .res, .res, .res,
    .mult, .multu, .div, .divu, .res, .res, .res, .res,
    .add, .addu, .sub, .subu, .and, .or, .xor, .nor,
    .res, .res, .slt, .sltu, .res, .res, .res, .res,
    .res, .res, .res, .res, .res, .res, .res, .res,
    .res, .res, .res, .res, .res, .res, .res, .res]

structure Instruction where
  opCode : OpCode
  rs : Fin 32
  rt : Fin 32
  rd : Fin 32
  extra : Word
  deriving DecidableEq

namespace Instruction

def regAt (value : Word) (shift : Nat) : Fin 32 := Fin.ofNat 32 ((value >>> shift) &&& 0x1f).toNat

def extraOf (value : Word) : Format → Word
  | .ifmt =>
    if value &&& 0xffff &&& 0x8000 ≠ 0 then value &&& 0xffff ||| 0xffff0000 else value &&& 0xffff
  | .rfmt => (value >>> 6) &&& 0x1f
  | .jfmt => value &&& 0x3ffffff

/-- The second step of decoding. -/
def opCodeOf (value : Word) : OpCode → OpCode
  | .special => specialTable.getD (value &&& 0x3f).toNat .res
  | .bcond =>
    if value &&& 0x1f0000 = 0 then .bltz
    else if value &&& 0x1f0000 = 0x10000 then .bgez
    else if value &&& 0x1f0000 = 0x100000 then .bltzal
    else if value &&& 0x1f0000 = 0x110000 then .bgezal
    else .unimp
  | opCode => opCode

def decode (value : Word) : Instruction :=
  let opPtr := opTable.getD ((value >>> 26) &&& 0x3f).toNat ⟨.res, .ifmt⟩
  { opCode := opCodeOf value opPtr.opCode
    rs := regAt value 21
    rt := regAt value 16
    rd := regAt value 11
    extra := extraOf value opPtr.format }

end Instruction

/-! ## Registers -/

@[ext] structure Registers where
  gp : Fin 32 → Word
  hi : Word
  lo : Word
  pc : Word
  nextPC : Word
  prevPC : Word
  load : Fin 32
  loadValue : Word
  badVAddr : Word

/-- The registers between two instructions: R0 is zero. -/
@[ext] structure Cpu extends Registers where
  zero : gp 0 = 0

namespace Registers

@[simps -fullyApplied] def set (r : Registers) (d : Fin 32) (v : Word) : Registers :=
  { r with gp := Function.update r.gp d v }

def delayedLoad (r : Registers) (nextReg : Fin 32) (nextValue : Word) : Cpu :=
  { r with
    gp := Function.update (Function.update r.gp r.load r.loadValue) 0 0
    load := nextReg
    loadValue := nextValue
    zero := Function.update_self .. }

/-- `RaiseException` before it calls the handler. -/
def raise (r : Registers) (badVAddr : Word) : Cpu :=
  { r with badVAddr := badVAddr }.delayedLoad 0 0

end Registers

/-! ## Execution -/

/-- The accesses that an instruction makes. Each answers the value that was read. -/
@[reducible] def MemSig : Signature where
  Op := Access
  Res _ := Option Word

/-- How the `switch` of `OneInstruction` is left: at its end, with a delayed load and the PC to
come, or through an exception, a failed assertion or a division that the host cannot do. -/
inductive InstrEffect where
  | next (r : Registers) (nextLoadReg : Fin 32) (nextLoadValue : Word) (pcAfter : Word)
  | raise (which : ExceptionType) (badVAddr : Word)
  | assertFailed
  | undefined

/-- How an instruction ends: completely, or with an exception for the handler. -/
inductive Completion where
  | done (cpu : Cpu)
  | raise (which : ExceptionType) (cpu : Cpu)
  | assertFailed
  | undefined

def readMem (addr : Word) (size : MemSize) : Program MemSig Word :=
  .call (.read addr size) fun v => .ret (v.getD 0)

def writeMem (addr : Word) (size : MemSize) (value : Word) : Program MemSig Unit :=
  .call (.write addr size value) fun _ => .ret ()

def signBit (w : Word) : Bool := w &&& 0x80000000 != 0

def indexToAddr (x : Word) : Word := x <<< 2

def multLoop : Nat → (a bLo bHi lo hi : Word) → Word × Word
  | 0, _, _, _, lo, hi => (hi, lo)
  | n + 1, a, bLo, bHi, lo, hi =>
    let bHi' := if bLo &&& 0x80000000 ≠ 0 then bHi <<< 1 ||| 1 else bHi <<< 1
    if a &&& 1 ≠ 0 then
      let lo' := lo + bLo
      let hi' := (if lo' < bLo then hi + 1 else hi) + bHi
      if a &&& 0xfffffffe = 0 then (hi', lo')
      else multLoop n (a.sshiftRight 1) (bLo <<< 1) bHi' lo' hi'
    else multLoop n (a.sshiftRight 1) (bLo <<< 1) bHi' lo hi

def mult (a b : Word) (signedArith : Bool) : Word × Word :=
  if a = 0 ∨ b = 0 then (0, 0)
  else
    let negative := signedArith && (decide (a.toInt < 0) != decide (b.toInt < 0))
    let a := if signedArith && decide (a.toInt < 0) then -a else a
    let b := if signedArith && decide (b.toInt < 0) then -b else b
    let p := multLoop 32 a b 0 0 0
    if negative then (if ~~~ p.2 + 1 = 0 then ~~~ p.1 + 1 else ~~~ p.1, ~~~ p.2 + 1) else p

/-- What LWL takes from the word in memory and from the old value. -/
def mergeLeft (tmp old value : Word) : Word :=
  if tmp &&& 0x3 = 0 then value
  else if tmp &&& 0x3 = 1 then old &&& 0xff ||| value <<< 8
  else if tmp &&& 0x3 = 2 then old &&& 0xffff ||| value <<< 16
  else old &&& 0xffffff ||| value <<< 24

def mergeRight (tmp old value : Word) : Word :=
  if tmp &&& 0x3 = 0 then old &&& 0xffffff00 ||| value.sshiftRight 24 &&& 0xff
  else if tmp &&& 0x3 = 1 then old &&& 0xffff0000 ||| value.sshiftRight 16 &&& 0xffff
  else if tmp &&& 0x3 = 2 then old &&& 0xff000000 ||| value.sshiftRight 8 &&& 0xffffff
  else value

/-- What SWL puts into the word in memory. -/
def insertLeft (tmp rt value : Word) : Word :=
  if tmp &&& 0x3 = 0 then rt
  else if tmp &&& 0x3 = 1 then value &&& 0xff000000 ||| rt.sshiftRight 8 &&& 0xffffff
  else if tmp &&& 0x3 = 2 then value &&& 0xffff0000 ||| rt.sshiftRight 16 &&& 0xffff
  else value &&& 0xffffff00 ||| rt.sshiftRight 24 &&& 0xff

def insertRight (tmp rt value : Word) : Word :=
  if tmp &&& 0x3 = 0 then value &&& 0xffffff ||| rt <<< 24
  else if tmp &&& 0x3 = 1 then value &&& 0xffff ||| rt <<< 16
  else if tmp &&& 0x3 = 2 then value &&& 0xff ||| rt <<< 8
  else rt

namespace Registers

/-- The value that a partial load changes: the one that is still on its way to the register, or
else the one in the register. -/
def loading (r : Registers) (rt : Fin 32) : Word := if r.load = rt then r.loadValue else r.gp rt

/-- The instruction ends without a load of its own. -/
def advance (r : Registers) (pcAfter : Word) : Program MemSig InstrEffect :=
  .ret (.next r 0 0 pcAfter)

def setIf (r : Registers) (d : Fin 32) (p : Bool) : Registers := r.set d (if p then 1 else 0)

def branch (r : Registers) (p : Bool) (extra : Word) : Program MemSig InstrEffect :=
  r.advance (if p then r.nextPC + indexToAddr extra else r.nextPC + 4)

def link (r : Registers) (d : Fin 32) : Registers := r.set d (r.nextPC + 4)

/-- The `switch` of `OneInstruction`. -/
def execute (r : Registers) (instr : Instruction) : Program MemSig InstrEffect :=
  let pcAfter := r.nextPC + 4
  let tmp := r.gp instr.rs + instr.extra
  match instr.opCode with
  | .add =>
    let sum := r.gp instr.rs + r.gp instr.rt
    if !signBit (r.gp instr.rs ^^^ r.gp instr.rt) && signBit (r.gp instr.rs ^^^ sum) then
      .ret (.raise .overflow 0)
    else (r.set instr.rd sum).advance pcAfter
  | .addi =>
    let sum := r.gp instr.rs + instr.extra
    if !signBit (r.gp instr.rs ^^^ instr.extra) && signBit (instr.extra ^^^ sum) then
      .ret (.raise .overflow 0)
    else (r.set instr.rt sum).advance pcAfter
  | .addiu => (r.set instr.rt (r.gp instr.rs + instr.extra)).advance pcAfter
  | .addu => (r.set instr.rd (r.gp instr.rs + r.gp instr.rt)).advance pcAfter
  | .and => (r.set instr.rd (r.gp instr.rs &&& r.gp instr.rt)).advance pcAfter
  | .andi => (r.set instr.rt (r.gp instr.rs &&& (instr.extra &&& 0xffff))).advance pcAfter
  | .beq => r.branch (r.gp instr.rs == r.gp instr.rt) instr.extra
  | .bgezal =>
    -- the link is written before the register is tested
    let r := r.link 31
    r.branch (!signBit (r.gp instr.rs)) instr.extra
  | .bgez => r.branch (!signBit (r.gp instr.rs)) instr.extra
  | .bgtz => r.branch (decide (0 < (r.gp instr.rs).toInt)) instr.extra
  | .blez => r.branch (decide ((r.gp instr.rs).toInt ≤ 0)) instr.extra
  | .bltzal =>
    let r := r.link 31
    r.branch (signBit (r.gp instr.rs)) instr.extra
  | .bltz => r.branch (signBit (r.gp instr.rs)) instr.extra
  | .bne => r.branch (r.gp instr.rs != r.gp instr.rt) instr.extra
  | .div =>
    if r.gp instr.rt = 0 then { r with lo := 0, hi := 0 }.advance pcAfter
    else if r.gp instr.rs = 0x80000000 ∧ r.gp instr.rt = -1 then .ret .undefined
    else
      { r with
        lo := (r.gp instr.rs).sdiv (r.gp instr.rt)
        hi := (r.gp instr.rs).srem (r.gp instr.rt) }.advance pcAfter
  | .divu =>
    if r.gp instr.rt = 0 then { r with lo := 0, hi := 0 }.advance pcAfter
    else
      { r with
        lo := r.gp instr.rs / r.gp instr.rt
        hi := r.gp instr.rs % r.gp instr.rt }.advance pcAfter
  | .jal => (r.link 31).advance (pcAfter &&& 0xf0000000 ||| indexToAddr instr.extra)
  | .j => r.advance (pcAfter &&& 0xf0000000 ||| indexToAddr instr.extra)
  | .jalr =>
    let r := r.link instr.rd
    r.advance (r.gp instr.rs)
  | .jr => r.advance (r.gp instr.rs)
  | .lb => do
    let value ← readMem tmp .byte
    return .next r instr.rt
      (if value &&& 0x80 ≠ 0 then value ||| 0xffffff00 else value &&& 0xff) pcAfter
  | .lbu => do
    let value ← readMem tmp .byte
    return .next r instr.rt (value &&& 0xff) pcAfter
  | .lh =>
    if tmp &&& 0x1 ≠ 0 then .ret (.raise .addressError tmp)
    else do
      let value ← readMem tmp .half
      return .next r instr.rt
        (if value &&& 0x8000 ≠ 0 then value ||| 0xffff0000 else value &&& 0xffff) pcAfter
  | .lhu =>
    if tmp &&& 0x1 ≠ 0 then .ret (.raise .addressError tmp)
    else do
      let value ← readMem tmp .half
      return .next r instr.rt (value &&& 0xffff) pcAfter
  | .lui => (r.set instr.rt (instr.extra <<< 16)).advance pcAfter
  | .lw =>
    if tmp &&& 0x3 ≠ 0 then .ret (.raise .addressError tmp)
    else do
      let value ← readMem tmp .word
      return .next r instr.rt value pcAfter
  | .lwl =>
    if tmp &&& 0x3 ≠ 0 then .ret .assertFailed
    else do
      let value ← readMem tmp .word
      return .next r instr.rt (mergeLeft tmp (r.loading instr.rt) value) pcAfter
  | .lwr =>
    if tmp &&& 0x3 ≠ 0 then .ret .assertFailed
    else do
      let value ← readMem tmp .word
      return .next r instr.rt (mergeRight tmp (r.loading instr.rt) value) pcAfter
  | .mfhi => (r.set instr.rd r.hi).advance pcAfter
  | .mflo => (r.set instr.rd r.lo).advance pcAfter
  | .mthi => { r with hi := r.gp instr.rs }.advance pcAfter
  | .mtlo => { r with lo := r.gp instr.rs }.advance pcAfter
  | .mult =>
    let p := Nachos.mult (r.gp instr.rs) (r.gp instr.rt) true
    { r with hi := p.1, lo := p.2 }.advance pcAfter
  | .multu =>
    let p := Nachos.mult (r.gp instr.rs) (r.gp instr.rt) false
    { r with hi := p.1, lo := p.2 }.advance pcAfter
  | .nor => (r.set instr.rd (~~~ (r.gp instr.rs ||| r.gp instr.rt))).advance pcAfter
  -- both operands are the same register in the source
  | .or => (r.set instr.rd (r.gp instr.rs ||| r.gp instr.rs)).advance pcAfter
  | .ori => (r.set instr.rt (r.gp instr.rs ||| (instr.extra &&& 0xffff))).advance pcAfter
  | .sb => do
    writeMem tmp .byte (r.gp instr.rt)
    r.advance pcAfter
  | .sh => do
    writeMem tmp .half (r.gp instr.rt)
    r.advance pcAfter
  | .sll => (r.set instr.rd (r.gp instr.rt <<< instr.extra.toNat)).advance pcAfter
  | .sllv =>
    (r.set instr.rd (r.gp instr.rt <<< (r.gp instr.rs &&& 0x1f).toNat)).advance pcAfter
  | .slt =>
    (r.setIf instr.rd (decide ((r.gp instr.rs).toInt < (r.gp instr.rt).toInt))).advance pcAfter
  | .slti => (r.setIf instr.rt (decide ((r.gp instr.rs).toInt < instr.extra.toInt))).advance pcAfter
  | .sltiu => (r.setIf instr.rt (decide (r.gp instr.rs < instr.extra))).advance pcAfter
  | .sltu => (r.setIf instr.rd (decide (r.gp instr.rs < r.gp instr.rt))).advance pcAfter
  | .sra => (r.set instr.rd ((r.gp instr.rt).sshiftRight instr.extra.toNat)).advance pcAfter
  | .srav =>
    (r.set instr.rd ((r.gp instr.rt).sshiftRight (r.gp instr.rs &&& 0x1f).toNat)).advance pcAfter
  -- `tmp` is a signed integer in the source
  | .srl => (r.set instr.rd ((r.gp instr.rt).sshiftRight instr.extra.toNat)).advance pcAfter
  | .srlv =>
    (r.set instr.rd ((r.gp instr.rt).sshiftRight (r.gp instr.rs &&& 0x1f).toNat)).advance pcAfter
  | .sub =>
    let diff := r.gp instr.rs - r.gp instr.rt
    if signBit (r.gp instr.rs ^^^ r.gp instr.rt) && signBit (r.gp instr.rs ^^^ diff) then
      .ret (.raise .overflow 0)
    else (r.set instr.rd diff).advance pcAfter
  | .subu => (r.set instr.rd (r.gp instr.rs - r.gp instr.rt)).advance pcAfter
  | .sw => do
    writeMem tmp .word (r.gp instr.rt)
    r.advance pcAfter
  | .swl =>
    if tmp &&& 0x3 ≠ 0 then .ret .assertFailed
    else do
      let value ← readMem (tmp &&& ~~~ 0x3) .word
      writeMem (tmp &&& ~~~ 0x3) .word (insertLeft tmp (r.gp instr.rt) value)
      r.advance pcAfter
  | .swr =>
    if tmp &&& 0x3 ≠ 0 then .ret .assertFailed
    else do
      let value ← readMem (tmp &&& ~~~ 0x3) .word
      writeMem (tmp &&& ~~~ 0x3) .word (insertRight tmp (r.gp instr.rt) value)
      r.advance pcAfter
  | .syscall => .ret (.raise .syscall 0)
  | .xor => (r.set instr.rd (r.gp instr.rs ^^^ r.gp instr.rt)).advance pcAfter
  | .xori => (r.set instr.rt (r.gp instr.rs ^^^ (instr.extra &&& 0xffff))).advance pcAfter
  | .res | .unimp => .ret (.raise .illegalInstr 0)
  | .rfe | .special | .bcond => .ret .assertFailed

end Registers

namespace Cpu

/-- The end of `OneInstruction`: the delayed load, and the program counters. -/
def complete (cpu : Cpu) : InstrEffect → Completion
  | .next r nextLoadReg nextLoadValue pcAfter =>
    let c := r.delayedLoad nextLoadReg nextLoadValue
    .done { c with
      prevPC := c.pc
      pc := c.nextPC
      nextPC := pcAfter }
  | .raise which badVAddr => .raise which (cpu.raise badVAddr)
  | .assertFailed => .assertFailed
  | .undefined => .undefined

def oneInstruction (cpu : Cpu) : Program MemSig Completion := do
  let raw ← readMem cpu.pc .word
  let effect ← cpu.execute (Instruction.decode raw)
  return cpu.complete effect

/-- The instruction after one of its accesses: if the access failed, it has raised its exception,
and the instruction ends. -/
def settle {σ : Type} (cpu : Cpu) (a : Access) (next : Option Word → σ → Completion × σ) :
    Except ExceptionType (Option Word) × σ → Completion × σ
  | (.error e, m) => (.raise e (cpu.raise a.addr), m)
  | (.ok v, m) => next v m

def runOn (cpu : Cpu) (tid now : Int) : Program MemSig Completion → Memory → Completion × Memory
  | .ret c, m => (c, m)
  | .call a k, m => cpu.settle a (fun v m => cpu.runOn tid now (k v) m) (m.access tid now a)

def step (cpu : Cpu) (tid now : Int) (m : Memory) : Completion × Memory :=
  cpu.runOn tid now cpu.oneInstruction m

theorem runOn_call (cpu : Cpu) (tid now : Int) (a : Access)
    (k : Option Word → Program MemSig Completion) (m : Memory) :
    cpu.runOn tid now (.call a k) m =
      cpu.settle a (fun v m => cpu.runOn tid now (k v) m) (m.access tid now a) := rfl

theorem oneInstruction_eq (cpu : Cpu) :
    cpu.oneInstruction = .call (.read cpu.pc .word) fun v =>
      cpu.execute (Instruction.decode (v.getD 0)) >>= fun effect => .ret (cpu.complete effect) := rfl

end Cpu
end Nachos
