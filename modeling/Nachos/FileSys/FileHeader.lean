import Nachos.FileSys.Kernel
import Nachos.FileSys.BitMap

/-! `filesys/filehdr.cc`: the header object, its two-level index, and the sectors it takes
from and gives back to a bitmap. -/

namespace Nachos
open Lib

/-- `for (j = lo; j < lo + n; j++) tempDataSectors[j] = freeMap->Find();` -/
def fillTable (t : Nat → Word) (freeMap : BitMap) (lo : Nat) : Nat → (Nat → Word) × BitMap
  | 0 => (t, freeMap)
  | n + 1 => fillTable (Function.update t lo (.ofInt 32 freeMap.find.1)) freeMap.find.2 (lo + 1) n

/-- The header of an `OpenFile` object, which several threads may share. -/
def getHdr (f : Handle) : Prog FileHeader := do return (← getFile f).hdr

def modifyHdr (f : Handle) (g : FileHeader → FileHeader) : Prog Unit := do
  let file ← getFile f
  setFile f { file with hdr := g file.hdr }

namespace FileHeader

/-- `new FileHeader`, which has no constructor. -/
def new : Prog FileHeader := do return ofSector (.ofWords (← freshMemory))

def fetchFrom (sector : Int) : Prog FileHeader := do return ofSector (← readSector sector)

def writeBack (hdr : FileHeader) (sector : Int) : Prog Unit := writeSector sector hdr.toSector

/-- The loop of `Allocate` with `count` index tables to go, the next one being the `i`-th. -/
def allocateTables (hdr : FileHeader) (freeMap : BitMap) (tempNumSectors : Int) (i : Nat) :
    Nat → Prog (FileHeader × BitMap)
  | 0 => pure (hdr, freeMap)
  | count + 1 => do
    let (sector, freeMap) := freeMap.find
    assert (i < 25)
    let hdr := hdr.setEntry i (.ofInt 32 sector)
    let (table, freeMap) := fillTable (← freshMemory) freeMap 0 (min tempNumSectors 32).toNat
    writeSector sector (.ofWords table)
    allocateTables hdr freeMap (if tempNumSectors < 32 then tempNumSectors else tempNumSectors - 32)
      (i + 1) count

def allocate (hdr : FileHeader) (freeMap : BitMap) (fileSize fileType : Int) :
    Prog (Bool × FileHeader × BitMap) := do
  let numSectors := divRoundUp fileSize 128
  let hdr := { hdr with
    numBytes := .ofInt 32 fileSize
    numSectors := .ofInt 32 numSectors
    fileType := .ofInt 32 fileType
    createTime := ← time }
  if freeMap.numClear < numSectors then return (false, hdr, freeMap)
  let (hdr, freeMap) ← allocateTables hdr freeMap numSectors 0 (divRoundUp numSectors 32).toNat
  return (true, hdr, freeMap)

/-- Fill up the last index table of a file of `num` sectors, if it has room; answers how many
of the `extra` sectors remain to be placed in new tables. -/
def extendLastTable (f : Handle) (freeMap : BitMap) (num extra : Int) : Prog (Int × BitMap) :=
  if num.tmod 32 = 0 then pure (extra, freeMap)
  else do
    let sector ← orFault ((← getHdr f).entry (divRoundUp num 32 - 1))
    let table ← readSector sector.toInt
    assert (0 ≤ num.tmod 32)
    let room := 32 - num.tmod 32
    let (table, freeMap) := fillTable table.word freeMap (num.tmod 32).toNat (min extra room).toNat
    let sector ← orFault ((← getHdr f).entry (divRoundUp num 32 - 1))
    writeSector sector.toInt (.ofWords table)
    return (if extra ≥ room then extra - room else extra, freeMap)

/-- The second loop of `ExtendAllocate`; it differs from that of `Allocate` in that the header
is the shared object. -/
def extendTables (f : Handle) (freeMap : BitMap) (tempNumSectors : Int) (i : Int) :
    Nat → Prog BitMap
  | 0 => pure freeMap
  | count + 1 => do
    let (sector, freeMap) := freeMap.find
    assert (0 ≤ i ∧ i < 25)
    modifyHdr f (·.setEntry i.toNat (.ofInt 32 sector))
    let (table, freeMap) := fillTable (← freshMemory) freeMap 0 (min tempNumSectors 32).toNat
    writeSector (← orFault ((← getHdr f).entry i)).toInt (.ofWords table)
    extendTables f freeMap (if tempNumSectors < 32 then tempNumSectors else tempNumSectors - 32)
      (i + 1) count

/-- The part of `ExtendAllocate` that takes `extra` sectors from the map, once there are
enough. -/
def takeSectors (f : Handle) (freeMap : BitMap) (extra : Int) : Prog BitMap := do
  let num := (← getHdr f).numSectors.toInt
  let (temp, freeMap) ← extendLastTable f freeMap num extra
  let initialEntries := divRoundUp num 32
  let freeMap ← extendTables f freeMap temp initialEntries
    (divRoundUp (extra + num) 32 - initialEntries).toNat
  modifyHdr f fun h => { h with numSectors := .ofInt 32 (h.numSectors.toInt + extra) }
  return freeMap

def extendAllocate (f : Handle) (freeMap : BitMap) (extraFileSize : Int) :
    Prog (Bool × BitMap) := do
  let hdr ← getHdr f
  let grow := modifyHdr f fun h =>
    { h with numBytes := .ofInt 32 (h.numBytes.toInt + extraFileSize) }
  if divRoundUp (int32 (hdr.numBytes.toInt + extraFileSize)) 128 ≤ hdr.numSectors.toInt then
    grow
    return (true, freeMap)
  else
    grow
    let extraSectors := divRoundUp extraFileSize 128
    if freeMap.numClear < extraSectors then return (false, freeMap)
    else return (true, ← takeSectors f freeMap extraSectors)

/-- Clear the bits of some sectors, each of which has to pass the assertion of `Clear`. -/
def clearAll (freeMap : BitMap) (sectors : List Word) : Option BitMap :=
  sectors.foldlM (fun m w => m.clear w.toInt) freeMap

def deallocateTables (hdr : FileHeader) (freeMap : BitMap) (tempNumSectors : Int) (i : Nat) :
    Nat → Prog BitMap
  | 0 => pure freeMap
  | count + 1 => do
    let sector := (← orFault (hdr.entry i)).toInt
    assert (← orFault (freeMap.test sector))
    let table ← readSector sector
    let freeMap ← orFault
      (clearAll freeMap ((List.range (min tempNumSectors 32).toNat).map table.word))
    let freeMap ← orFault (freeMap.clear sector)
    deallocateTables hdr freeMap
      (if tempNumSectors < 32 then tempNumSectors else tempNumSectors - 32)
      (i + 1) count

def deallocate (hdr : FileHeader) (freeMap : BitMap) : Prog BitMap :=
  deallocateTables hdr freeMap hdr.numSectors.toInt 0 (divRoundUp hdr.numSectors.toInt 32).toNat

def byteToSector (f : Handle) (offset : Int) : Prog Int := do
  let sector ← orFault ((← getHdr f).entry (offset.tdiv 4096))
  let table ← readSector sector.toInt
  let i := (offset.tmod 4096).tdiv 128
  assert (0 ≤ i)
  return (table.word i.toNat).toInt

end FileHeader
end Nachos
