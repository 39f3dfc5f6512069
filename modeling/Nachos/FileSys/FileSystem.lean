import Nachos.FileSys.Directory

/-! `filesys/filesys.cc`. -/

namespace Nachos
open Lib

structure FileSystem where
  freeMapFile : Handle
  directoryFile : Handle

namespace FileSystem

/-- `FileSystem(TRUE)`. -/
def format : Prog FileSystem := do
  let freeMap := BitMap.new (← freshMemory) 1024
  let directory ← Directory.new 10
  let mapHdr ← FileHeader.new
  let dirHdr ← FileHeader.new
  let freeMap ← orFault (freeMap.mark 0)
  let freeMap ← orFault (freeMap.mark 1)
  let (ok, mapHdr, freeMap) ← mapHdr.allocate freeMap 128 1
  assert ok
  let (ok, dirHdr, freeMap) ← dirHdr.allocate freeMap 120 1
  assert ok
  let mapHdr := { mapHdr with lastVisitTime := ← time }
  let dirHdr := { dirHdr with lastVisitTime := ← time }
  let mapHdr := { mapHdr with lastWriteTime := ← time }
  let dirHdr := { dirHdr with lastWriteTime := ← time }
  mapHdr.writeBack 0
  dirHdr.writeBack 1
  let freeMapFile ← OpenFile.new 0
  let directoryFile ← OpenFile.new 1
  freeMap.writeBack freeMapFile
  directory.writeBack directoryFile
  return { freeMapFile, directoryFile }

/-- `FileSystem(FALSE)`. -/
def mount : Prog FileSystem := do
  let freeMapFile ← OpenFile.new 0
  let directoryFile ← OpenFile.new 1
  return { freeMapFile, directoryFile }

/-- The scan of `getFileName`: where the text after the first and after the second `/` starts,
0 for a `/` that is not there. -/
def scanPath : CString → (i tokNum fstart sstart : Nat) → Nat × Nat
  | [], _, _, fstart, sstart => (fstart, sstart)
  | c :: cs, i, tokNum, fstart, sstart =>
    if tokNum < 2 then
      if c = '/' then
        if tokNum = 0 then scanPath cs (i + 1) 1 (i + 1) sstart
        else scanPath cs (i + 1) 2 fstart (i + 1)
      else scanPath cs (i + 1) tokNum fstart sstart
    else (fstart, sstart)

/-- The loop of `getFileName`; each round drops the part of `name` up to its first `/`, so
`fuel` is the length of the name. -/
def walkPath (directory : Directory) (currDirectoryFile : Handle) (name : CString) :
    (fuel : Nat) → Prog (Option CString × Directory × Handle)
  | 0 => fault
  | fuel + 1 => do
    let directory ← directory.fetchFrom currDirectoryFile
    let (fstart, sstart) := scanPath name 0 0 0 0
    if sstart = 0 then return (some (name.drop fstart), directory, currDirectoryFile)
    else
      let fname := (name.drop fstart).take (sstart - 1 - fstart)
      if (← directory.find (some fname)) = -1 then return (none, directory, currDirectoryFile)
      else
        let newSector ← directory.find (some fname)
        let currDirectoryFile ← OpenFile.new newSector
        walkPath directory currDirectoryFile (name.drop fstart) fuel

/-- `getFileName`: the last component (null if a directory on the way is missing), and the
table and the open file of the directory it is looked up in. -/
def getFileName (name : CString) : Prog (Option CString × Directory × Handle) := do
  let rootFile ← OpenFile.new 1
  let directory ← Directory.new 10
  walkPath directory rootFile name (name.length + 1)

def initDirectory (sector fileType : Int) : Prog Unit :=
  if fileType = 1 then do
    let newDirectoryFile ← OpenFile.new sector
    let newDirectory ← Directory.new 10
    newDirectory.writeBack newDirectoryFile
  else pure ()

/-- The branch of `Create` in which everything worked. -/
def install (fs : FileSystem) (hdr : FileHeader) (sector : Int) (fileType : Int)
    (directory : Directory) (currDirectoryFile : Handle) (freeMap : BitMap) : Prog Unit := do
  hdr.writeBack sector
  initDirectory sector fileType
  directory.writeBack currDirectoryFile
  let directory ← directory.fetchFrom currDirectoryFile
  directory.list
  freeMap.writeBack fs.freeMapFile

def create (fs : FileSystem) (name : CString) (initialSize fileType : Int) : Prog Bool := do
  let (name, directory, currDirectoryFile) ← getFileName name
  if (← directory.find name) ≠ -1 then return false
  else
    let freeMap := BitMap.new (← freshMemory) 1024
    let freeMap ← freeMap.fetchFrom fs.freeMapFile
    let (sector, freeMap) := freeMap.find
    if sector = -1 then return false
    else
      let (added, directory) ← directory.add name sector
      if added then
        let (ok, hdr, freeMap) ← (← FileHeader.new).allocate freeMap initialSize fileType
        if ok then
          install fs hdr sector fileType directory currDirectoryFile freeMap
          return true
        else return false
      else return false

/-- `Open`. What it answers for a name that is not bound is the file that `getFileName` left
in `openFile`. -/
def «open» (name : CString) : Prog Handle := do
  let (name, directory, openFile) ← getFileName name
  let sector ← directory.find name
  if sector ≥ 0 then
    let fileHdr ← FileHeader.fetchFrom sector
    let fileHdr := { fileHdr with numVisits := fileHdr.numVisits + 1 }
    fileHdr.writeBack sector
    OpenFile.new sector
  else return openFile

def release (fs : FileSystem) (fileHdr : FileHeader) (sector : Int) (name : Option CString)
    (directory : Directory) (openFile : Handle) : Prog Unit := do
  let freeMap := BitMap.new (← freshMemory) 1024
  let freeMap ← freeMap.fetchFrom fs.freeMapFile
  let freeMap ← fileHdr.deallocate freeMap
  let freeMap ← orFault (freeMap.clear sector)
  let (_, directory) ← directory.remove name
  freeMap.writeBack fs.freeMapFile
  directory.writeBack openFile

/-- The path text of a child, built in `new char[100]`. -/
def childName (name child : CString) : Option CString :=
  if (name ++ '/' :: child).length < 100 then some (name ++ '/' :: child) else none

/-- One round of the loop of `Remove` over the entries of a directory; `remove` is the nested
call. -/
def removeChild (remove : CString → Prog Bool) (name : CString) (e : DirectoryEntry) : Prog Unit :=
  if e.inUse then do
    let _ ← remove (← orFault (childName name (← getName e.name)))
  else pure ()

/-- `Remove`. The path grows with each nested call and has to stay below 100 characters, so
`fuel` 101 is never used up. -/
def removeFuel (fs : FileSystem) : (fuel : Nat) → CString → Prog Bool
  | 0, _ => fault
  | fuel + 1, Name => do
    let (name, directory, openFile) ← getFileName Name
    let sector ← directory.find name
    if sector = -1 then return false
    else
      let fileHdr ← FileHeader.fetchFrom sector
      if fileHdr.fileType = 0 then
        let refused : Bool := fileHdr.numVisits ≠ 1
        let fileHdr := { fileHdr with numVisits := fileHdr.numVisits - 1 }
        fileHdr.writeBack sector
        if refused then return false
        else
          release fs fileHdr sector name directory openFile
          return true
      else
        let dirFile ← OpenFile.new sector
        let dir ← Directory.new 10
        let dir ← dir.fetchFrom dirFile
        forM dir.table (removeChild (removeFuel fs fuel) Name)
        release fs fileHdr sector name directory openFile
        return true

def remove (fs : FileSystem) (name : CString) : Prog Bool := removeFuel fs 101 name

end FileSystem
end Nachos
