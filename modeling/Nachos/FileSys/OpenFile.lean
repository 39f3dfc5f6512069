import Nachos.FileSys.FileHeader

/-! `filesys/openfile.cc`, and the two functions of `bitmap.cc` that go through a file. -/

namespace Nachos
open Lib FileHeader

def newChars (n : Int) : Prog (List Byte) := do
  assert (0 ≤ n)
  let memory ← freshMemory
  return (bytesOfWords ((List.range n.toNat).map memory)).take n.toNat

/-- `bcopy(data, &buf[off], ...)`, inside the buffer. -/
def copyInto (buf : List Byte) (off : Int) (data : List Byte) : Option (List Byte) :=
  if 0 ≤ off ∧ off + data.length ≤ buf.length then some (splice buf off.toNat data) else none

/-- `bcopy(&buf[off], into, n)`, inside the buffer. -/
def copyOut (buf : List Byte) (off n : Int) : Option (List Byte) :=
  if 0 ≤ off ∧ off + n ≤ buf.length then some ((buf.drop off.toNat).take n.toNat) else none

/-- The values of the loop variable of `for (i = firstSector; i <= lastSector; i++)`. -/
def sectorRange (firstSector lastSector : Int) : List Int :=
  (List.range (lastSector - firstSector + 1).toNat).map fun k : Nat => firstSector + (k : Int)

namespace OpenFile

def new (sector : Int) : Prog Handle := do
  let f ← newFile
  rwP sector
  let hdr ← fetchFrom sector
  let hdr := { hdr with lastVisitTime := ← time }
  hdr.writeBack sector
  rwV sector
  setFile f { hdr, hdrSectorNumber := sector, seekPosition := 0 }
  return f

/-- `hdr->FetchFrom(hdrSectorNumber)` under the header's mutex. -/
def fetchHeader (f : Handle) : Prog Unit := do
  let sector := (← getFile f).hdrSectorNumber
  rwP sector
  let hdr ← fetchFrom sector
  modifyHdr f fun _ => hdr
  rwV sector

/-- Take the mutexes of the sectors under blocks `blocks`, as one step among threads. -/
def lockSectors (f : Handle) (blocks : List Int) : Prog Unit := do
  arrP
  forM blocks fun i => do rwP (← byteToSector f (i * 128))
  arrV

def readSectors (f : Handle) : List Int → Prog (List Byte)
  | [] => pure []
  | i :: blocks => do
    let data ← readSector (← byteToSector f (i * 128))
    rwV (← byteToSector f (i * 128))
    return data.bytes ++ (← readSectors f blocks)

def writeSectors (f : Handle) : List Int → List Byte → Prog Unit
  | [], _ => pure ()
  | i :: blocks, buf => do
    writeSector (← byteToSector f (i * 128)) (.ofBytes (buf.take 128))
    rwV (← byteToSector f (i * 128))
    writeSectors f blocks (buf.drop 128)

/-- The part of `ReadAt` behind its checks: `numBytes` bytes at `position`. -/
def readRange (f : Handle) (numBytes position : Int) : Prog (List Byte) := do
  let firstSector := divRoundDown position 128
  let lastSector := divRoundDown (int32 (position + numBytes - 1)) 128
  lockSectors f (sectorRange firstSector lastSector)
  let buf ← newChars (int32 ((1 + lastSector - firstSector) * 128))
  let bytes ← readSectors f (sectorRange firstSector lastSector)
  orFault (copyOut (bytes ++ buf.drop bytes.length) (position - firstSector * 128) numBytes)

/-- The bytes that `ReadAt` puts into its buffer; their number is its result. -/
def readAt (f : Handle) (numBytes position : Int) : Prog (List Byte) := do
  fetchHeader f
  let now ← time
  modifyHdr f fun h => { h with lastVisitTime := now }
  let fileLength := (← getHdr f).fileLength
  if numBytes ≤ 0 ∨ position ≥ fileLength then return []
  else
    let numBytes :=
      if int32 (position + numBytes) > fileLength then int32 (fileLength - position) else numBytes
    readRange f numBytes position

end OpenFile

namespace BitMap

def fetchFrom (m : BitMap) (file : Handle) : Prog BitMap := do
  return m.load (← OpenFile.readAt file (4 * m.numWords) 0)

end BitMap

namespace OpenFile

/-- The growing branch of `WriteAt`. The bitmap that `ExtendAllocate` has changed is not
written back. -/
def extend (f : Handle) (extraFileLength : Int) : Prog Bool := do
  let freeMap := BitMap.new (← freshMemory) 1024
  let freeMapFile ← OpenFile.new 0
  let freeMap ← freeMap.fetchFrom freeMapFile
  let (ok, _) ← extendAllocate f freeMap extraFileLength
  if ok then
    let file ← getFile f
    file.hdr.writeBack file.hdrSectorNumber
    return true
  else return false

/-- Read in one sector that is written only in part, at its place in the buffer. -/
def readPartial (f : Handle) (needed : Bool) (buf : List Byte) (off block : Int) :
    Prog (List Byte) :=
  if needed then do orFault (copyInto buf off (← readAt f 128 (block * 128))) else pure buf

/-- The part of `WriteAt` that writes inside the file: partly covered sectors are read in
first, by calls that lock for themselves. -/
def writeRange (f : Handle) (src : List Byte) (position : Int) : Prog Int := do
  let numBytes : Int := src.length
  let firstSector := divRoundDown position 128
  let lastSector := divRoundDown (int32 (position + numBytes - 1)) 128
  let buf ← newChars (int32 ((1 + lastSector - firstSector) * 128))
  let firstAligned := position == firstSector * 128
  let lastAligned := int32 (position + numBytes) == int32 ((lastSector + 1) * 128)
  let buf ← readPartial f (!firstAligned) buf 0 firstSector
  let buf ← readPartial f (!lastAligned && (firstSector != lastSector || firstAligned)) buf
    ((lastSector - firstSector) * 128) lastSector
  let buf ← orFault (copyInto buf (position - firstSector * 128) src)
  lockSectors f (sectorRange firstSector lastSector)
  writeSectors f (sectorRange firstSector lastSector) buf
  return numBytes

def makeRoom (f : Handle) (numBytes position fileLength : Int) : Prog Bool :=
  if int32 (position + numBytes) > fileLength then
    extend f (int32 (numBytes + position - fileLength))
  else pure true

/-- `WriteAt(from, numBytes, position)`, with `numBytes` the length of the buffer. -/
def writeAt (f : Handle) (src : List Byte) (position : Int) : Prog Int := do
  fetchHeader f
  let now ← time
  modifyHdr f fun h => { h with lastVisitTime := now }
  let now ← time
  modifyHdr f fun h => { h with lastWriteTime := now }
  let fileLength := (← getHdr f).fileLength
  if (src.length : Int) ≤ 0 then return 0
  else if ← makeRoom f src.length position fileLength then writeRange f src position
  else return 0

def length (f : Handle) : Prog Int := do return (← getHdr f).fileLength

def advance (f : Handle) (n : Int) : Prog Unit := do
  let file ← getFile f
  setFile f { file with seekPosition := int32 (file.seekPosition + n) }

def read (f : Handle) (numBytes : Int) : Prog (List Byte) := do
  let result ← readAt f numBytes (← getFile f).seekPosition
  advance f result.length
  return result

def write (f : Handle) (src : List Byte) : Prog Int := do
  let result ← writeAt f src (← getFile f).seekPosition
  advance f result
  return result

end OpenFile

namespace BitMap

def writeBack (m : BitMap) (file : Handle) : Prog Unit := do
  let _ ← OpenFile.writeAt file m.toBytes 0

end BitMap
end Nachos
