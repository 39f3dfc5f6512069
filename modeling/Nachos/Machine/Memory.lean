import Nachos.FileSys.BitMap
import Mathlib.Data.List.FinRange

/-! Virtual memory: `translate.cc` and `Machine::LRU` of `exception.cc`, without a TLB. Pages and
frames have `PageSize` = 128 bytes, and there are `NumPhysPages` = 32 frames and page-table
entries. The host is little-endian, and its `char` is signed. -/

namespace Nachos
open Lib

instance neZeroSize : NeZero 32 := ⟨by decide⟩

inductive ExceptionType where
  | syscall
  | pageFault
  | readOnly
  | busError
  | addressError
  | overflow
  | illegalInstr
  deriving DecidableEq

structure TranslationEntry where
  virtualPage : Int
  physicalPage : Int
  valid : Bool
  readOnly : Bool
  use : Bool
  dirty : Bool
  tid : Int
  deriving DecidableEq

/-- As the constructor of `Machine` leaves an entry. -/
def TranslationEntry.initial : TranslationEntry where
  virtualPage := -1
  physicalPage := -1
  valid := false
  readOnly := false
  use := false
  dirty := false
  tid := -1

def overwrite (f : Int → Byte) (p : Int) (bs : List Byte) : Int → Byte := fun q =>
  if p ≤ q ∧ q < p + bs.length then bs.getD (q - p).toNat 0 else f q

/-- The file behind `machine->disk`: its length, and its bytes. The bytes at and after the end
are what the file gets when it grows over them. -/
structure BackingFile where
  length : Nat
  byte : Int → Byte

namespace BackingFile

/-- At a negative position `Lseek` fails its assertion in the source. Here nothing is read or
written there, and the program goes on. -/
def readAt (f : BackingFile) (numBytes : Nat) (position : Int) : List Byte :=
  if 0 ≤ position then
    (List.range (min numBytes (f.length - position.toNat))).map fun (i : Nat) =>
      f.byte (position + i)
  else []

def writeAt (f : BackingFile) (bs : List Byte) (position : Int) : BackingFile :=
  if 0 ≤ position then
    { length := max f.length (position.toNat + bs.length), byte := overwrite f.byte position bs }
  else f

end BackingFile

inductive MemSize where
  | byte
  | half
  | word
  deriving DecidableEq

def MemSize.bytes : MemSize → Nat
  | .byte => 1
  | .half => 2
  | .word => 4

/-- What translation and paging work on. Addresses outside of `mainMemory` stand for what the
host has around the array. -/
structure Memory where
  pageTable : Fin 32 → TranslationEntry
  pageLasttime : Int → Int
  pagehit : Nat
  pagemiss : Nat
  mainMemory : Int → Byte
  memBitMap : BitMap
  numBits : memBitMap.numBits = 32
  disk : BackingFile

namespace Memory

/-- After the constructors of `Machine` and of `memBitMap`. -/
def initial (pageLasttime : Int → Int) (mainMemory : Int → Byte) (words : Nat → Word)
    (disk : BackingFile) : Memory where
  pageTable _ := .initial
  pageLasttime := pageLasttime
  pagehit := 0
  pagemiss := 0
  mainMemory := mainMemory
  memBitMap := .new words 32
  numBits := BitMap.numBits_new ..
  disk := disk

@[simps -fullyApplied] def setEntry (m : Memory) (i : Fin 32) (e : TranslationEntry) : Memory :=
  { m with pageTable := Function.update m.pageTable i e }

def maps (m : Memory) (tid : Int) (vpn : Nat) (i : Fin 32) : Bool :=
  (m.pageTable i).tid == tid && (m.pageTable i).valid && (m.pageTable i).virtualPage == vpn

/-- The body of the loop of `Translate`: a later match replaces an earlier one. -/
def lookAt (tid now : Int) (vpn : Nat) : Option (Fin 32) × Memory → Fin 32 →
    Option (Fin 32) × Memory
  | (entry, m), i =>
    if m.maps tid vpn i then
      (some i, { m with
        pagehit := m.pagehit + 1
        pageLasttime := Function.update m.pageLasttime (m.pageTable i).physicalPage now })
    else (entry, m)

def lookup (m : Memory) (tid now : Int) (vpn : Nat) : Option (Fin 32) × Memory :=
  (List.finRange 32).foldl (lookAt tid now vpn) (none, m)

def misaligned (virtAddr : Word) : MemSize → Bool
  | .byte => false
  | .half => virtAddr &&& 0x1 != 0
  | .word => virtAddr &&& 0x3 != 0

/-- The end of `Translate`, with the entry that was found. The last assertion cannot fail: an
aligned access stays in its page. -/
def through (m : Memory) (i : Fin 32) (offset : Nat) (writing : Bool) :
    Except ExceptionType Int × Memory :=
  if (m.pageTable i).readOnly && writing then (.error .readOnly, m)
  else if 0 ≤ (m.pageTable i).physicalPage ∧ (m.pageTable i).physicalPage < 32 then
    (.ok ((m.pageTable i).physicalPage * 128 + offset),
      m.setEntry i
        { m.pageTable i with use := true, dirty := (m.pageTable i).dirty || writing })
  else (.error .busError, m)

def translate (m : Memory) (tid now : Int) (virtAddr : Word) (size : MemSize) (writing : Bool) :
    Except ExceptionType Int × Memory :=
  if misaligned virtAddr size then (.error .addressError, m)
  else
    match m.lookup tid now (virtAddr.toNat / 128) with
    | (none, m) => (.error .pageFault, { m with pagemiss := m.pagemiss + 1 })
    | (some i, m) => m.through i (virtAddr.toNat % 128) writing

def value (f : Int → Byte) (physicalAddress : Int) : MemSize → Word
  | .byte => (f physicalAddress).signExtend 32
  | .half => (f (physicalAddress + 1) ++ f physicalAddress).setWidth 32
  | .word => leWord (f physicalAddress) (f (physicalAddress + 1)) (f (physicalAddress + 2))
      (f (physicalAddress + 3))

def readMem (m : Memory) (tid now : Int) (addr : Word) (size : MemSize) :
    Except ExceptionType Word × Memory :=
  match m.translate tid now addr size false with
  | (.error e, m) => (.error e, m)
  | (.ok physicalAddress, m) => (.ok (value m.mainMemory physicalAddress size), m)

def writeMem (m : Memory) (tid now : Int) (addr : Word) (size : MemSize) (value : Word) :
    Except ExceptionType Unit × Memory :=
  match m.translate tid now addr size true with
  | (.error e, m) => (.error e, m)
  | (.ok physicalAddress, m) =>
    (.ok (), { m with
      mainMemory := overwrite m.mainMemory physicalAddress ((leBytes value).take size.bytes) })

/-! ## Replacement -/

def firstUnused (m : Memory) : Option (Fin 32) :=
  (List.finRange 32).find? fun i => !(m.pageTable i).use

/-- The frame with the least time, which is then taken for the number of an entry. -/
def oldest (m : Memory) : Fin 32 :=
  ((List.finRange 32).foldl (fun (temp, temp_i) i =>
    if m.pageLasttime i < temp then (m.pageLasttime i, i) else (temp, temp_i))
    ((2147483644 : Int), (0 : Fin 32))).2

def frame (m : Memory) (physicalPage : Int) : List Byte :=
  (List.range 128).map fun (i : Nat) => m.mainMemory (physicalPage * 128 + i)

/-- An entry that is not in use gets a frame of its own. -/
def install (m : Memory) (i : Fin 32) (tid : Int) (vpn : Nat) : Memory :=
  { m.setEntry i { m.pageTable i with
      physicalPage := m.memBitMap.find.1, tid := tid, virtualPage := vpn, valid := true } with
    memBitMap := m.memBitMap.find.2
    numBits := by
      rw [BitMap.numBits_find]
      exact m.numBits }

/-- The page of an entry is written to the disk, and its frame is given to another page. -/
def replace (m : Memory) (i : Fin 32) (tid : Int) (vpn : Nat) : Memory :=
  { m.setEntry i { m.pageTable i with tid := tid, virtualPage := vpn, valid := true } with
    disk := m.disk.writeAt (m.frame (m.pageTable i).physicalPage)
      (int32 ((m.pageTable i).virtualPage * 128)) }

/-- The entry that `LRU` gives to page `vpn`, and the memory before the page is read. -/
def assign (m : Memory) (tid : Int) (vpn : Nat) : Fin 32 × Memory :=
  match m.firstUnused with
  | some i => (i, m.install i tid vpn)
  | none => (m.oldest, m.replace m.oldest tid vpn)

def loadPage (m : Memory) (i : Fin 32) (vpn : Nat) : Memory :=
  { m with
    mainMemory := overwrite m.mainMemory ((m.pageTable i).physicalPage * 128)
      (m.disk.readAt 128 (int32 (vpn * 128))) }

def lru (m : Memory) (tid : Int) (virtAddr : Word) : Memory :=
  let vpn := virtAddr.toNat / 128
  let (i, m) := m.assign tid vpn
  m.loadPage i vpn

end Memory

/-! ## Accesses -/

inductive Access where
  | read (addr : Word) (size : MemSize)
  | write (addr : Word) (size : MemSize) (value : Word)
  deriving DecidableEq

namespace Access

def addr : Access → Word
  | .read addr _ => addr
  | .write addr _ _ => addr

def size : Access → MemSize
  | .read _ size => size
  | .write _ size _ => size

def vpn (a : Access) : Nat := a.addr.toNat / 128

end Access

/-- How an access ends: with the value that was read, or, after a page fault, with the page in
memory and the access still to be made. -/
inductive Attempt where
  | done (value : Option Word)
  | faulted
  deriving DecidableEq

namespace Memory

def access (m : Memory) (tid now : Int) : Access → Except ExceptionType (Option Word) × Memory
  | .read addr size =>
    match m.readMem tid now addr size with
    | (r, m) => (r.map some, m)
  | .write addr size value =>
    match m.writeMem tid now addr size value with
    | (r, m) => (r.map fun _ => none, m)

/-- An access with its `RaiseException` and `ExceptionHandler`, which knows only page faults:
with any other exception it stops. -/
def attempt (m : Memory) (tid now : Int) (a : Access) : Option (Attempt × Memory) :=
  match m.access tid now a with
  | (.ok v, m) => some (.done v, m)
  | (.error .pageFault, m) => some (.faulted, m.lru tid a.addr)
  | (.error _, _) => none

end Memory

/-- User threads, known by their ids, with the accesses that they have made and still have to
make. -/
structure Users where
  memory : Memory
  log : Int → List (Access × Option Word)
  todo : Int → List Access

namespace Users

def start (m : Memory) (todo : Int → List Access) : Users := ⟨m, fun _ => [], todo⟩

/-- A thread tries its next access, at the given time. -/
def step (u : Users) : Int × Int → Option Users
  | (tid, now) =>
    match u.todo tid with
    | [] => some u
    | a :: rest =>
      (u.memory.attempt tid now a).map fun
        | (.faulted, m) => { u with memory := m }
        | (.done v, m) =>
          { memory := m
            log := Function.update u.log tid (u.log tid ++ [(a, v)])
            todo := Function.update u.todo tid rest }

end Users
end Nachos
