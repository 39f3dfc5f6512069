import Nachos.FileSys.OpenFile

/-! `filesys/directory.cc`. An entry is stored as its memory: a flag, a sector number, and
the address of the name. -/

namespace Nachos
open Lib

/-- `DirectoryEntry`: `inUse` is the low byte of the first word, the rest of it is padding. -/
structure DirectoryEntry where
  flags : Word
  sector : Word
  name : Word
  deriving DecidableEq

namespace DirectoryEntry

def inUse (e : DirectoryEntry) : Bool := e.flags.extractLsb' 0 8 != 0

def setInUse (e : DirectoryEntry) (b : Bool) : DirectoryEntry :=
  { e with flags := e.flags.extractLsb' 8 24 ++ (if b then 1#8 else 0#8) }

def toWords (e : DirectoryEntry) : List Word := [e.flags, e.sector, e.name]

end DirectoryEntry

def entriesOfWords : List Word → List DirectoryEntry
  | flags :: sector :: name :: ws => ⟨flags, sector, name⟩ :: entriesOfWords ws
  | _ => []

structure Directory where
  table : List DirectoryEntry

namespace Directory

def tableSize (d : Directory) : Nat := d.table.length

/-- The constructor, which also stamps the header in sector 1. -/
def new (size : Nat) : Prog Directory := do
  let memory ← freshMemory
  let table := (entriesOfWords ((List.range (3 * size)).map memory)).map (·.setInUse false)
  let dirHdr ← FileHeader.fetchFrom 1
  let dirHdr := { dirHdr with lastVisitTime := ← time }
  dirHdr.writeBack 1
  return { table }

def toBytes (d : Directory) : List Byte := bytesOfWords (d.table.flatMap (·.toWords))

def load (d : Directory) (bytes : List Byte) : Directory where
  table := entriesOfWords (wordsOfBytes (bytes ++ d.toBytes.drop bytes.length))

def fetchFrom (d : Directory) (file : Handle) : Prog Directory := do
  return d.load (← OpenFile.readAt file (12 * d.tableSize) 0)

def writeBack (d : Directory) (file : Handle) : Prog Unit := do
  let _ ← OpenFile.writeAt file d.toBytes 0

/-- `FindIndex`, from entry `i` on; -1 if there is no such name, or the name is null. -/
def findIndexFrom (name : Option CString) (i : Nat) : List DirectoryEntry → Prog Int
  | [] => pure (-1)
  | e :: es => do
    match name with
    | some name =>
      if e.inUse && e.name != 0 then
        if (← getName e.name) = name then pure i
        else findIndexFrom (some name) (i + 1) es
      else findIndexFrom (some name) (i + 1) es
    | none => findIndexFrom none (i + 1) es

def findIndex (d : Directory) (name : Option CString) : Prog Int := findIndexFrom name 0 d.table

def find (d : Directory) (name : Option CString) : Prog Int := do
  let i ← findIndex d name
  if i ≠ -1 then return (← orFault d.table[i.toNat]?).sector.toInt else return -1

/-- The entry that `Add` writes; `strlen` of a null name faults. -/
def newEntry (e : DirectoryEntry) (name : Option CString) (newSector : Int) :
    Prog DirectoryEntry := do
  let p ← newName (← orFault name)
  return { e.setInUse true with sector := .ofInt 32 newSector, name := p }

def add (d : Directory) (name : Option CString) (newSector : Int) : Prog (Bool × Directory) := do
  if (← findIndex d name) ≠ -1 then return (false, d)
  else
    match d.table.findIdx? fun e => !e.inUse with
    | some i =>
      let e ← orFault d.table[i]?
      return (true, { table := d.table.set i (← newEntry e name newSector) })
    | none => return (false, d)

def remove (d : Directory) (name : Option CString) : Prog (Bool × Directory) := do
  let i ← findIndex d name
  if i = -1 then return (false, d)
  else
    return (true,
      { table := d.table.modify i.toNat fun e => { e.setInUse false with name := 0 } })

/-- `List` prints the names, and so follows their addresses. -/
def list (d : Directory) : Prog Unit :=
  forM d.table fun e => do
    if e.inUse && e.name != 0 then
      let _ ← getName e.name

end Directory
end Nachos
