import Nachos.Threads.Machine

/-! `synch.cc`, `synchlist.cc`, `synchdisk.cc`, `console.cc`, `network.cc` and `post.cc` as
programs for the machine. -/

namespace Nachos.Threads
open Lib Program

/-- The assertions of the source that a program can reach. -/
inductive Assertion where
  | notActive
  | sectorNumber
  | itemNotNull
  | notPutBusy
  | maySend
  | mailLength
  | mailBox
  deriving DecidableEq

inductive Op where
  | enter (c : Call)
  | leave (c : Call)
  | currentThread
  | setLevel (now : IntStatus)
  /-- The loop of `P` with `value--`. -/
  | takeValue (s : SemId)
  | giveValue (s : SemId)
  | getHolder (l : LockId)
  | setHolder (l : LockId) (t : Option Thread)
  | sleepOn (c : CondId)
  | wakeOne (c : CondId)
  | wakeAll (c : CondId)
  | getReaders (w : Nat)
  | setReaders (w : Nat) (n : Int)
  | listIsEmpty (q : Nat)
  | listAppend (q item : Nat)
  | listRemove (q : Nat)
  | getActive
  | readRequest (sectorNumber : Int)
  | writeRequest (sectorNumber : Int) (data : Sector)
  | getPutBusy
  | putChar (ch : Byte)
  | getChar
  | getNetwork
  | networkSend (hdr : PacketHeader) (data : List Byte) (lost : Bool)
  | networkReceive
  | getPostOffice
  | newMail (mail : Mail)
  | getMail (address : Nat)
  | assert (a : Assertion) (b : Bool)
  | fork (t : Thread)
  | yield
  | finish
  /-- A number that is left open. -/
  | rounds
  | stop

def ops : Signature where
  Op := Op
  Res
    | .currentThread => Thread
    | .setLevel _ => IntStatus
    | .getHolder _ => Option Thread
    | .getReaders _ => Int
    | .listIsEmpty _ => Bool
    | .listRemove _ => Nat
    | .getActive => Bool
    | .readRequest _ => Sector
    | .getPutBusy => Bool
    | .getChar => Byte
    | .getNetwork => Network
    | .networkReceive => PacketHeader × List Byte
    | .getPostOffice => PostOffice
    | .newMail _ => Nat
    | .getMail _ => Mail
    | .rounds => Nat
    | _ => Unit

abbrev Prog := Program ops

namespace Machine

/-- What an operation of the current thread does. A thread is forked once. -/
def execute (m : Machine) (x : Choice) : (o : Op) → Option (Effect (ops.Res o) Machine)
  | .enter c => some (.done () (m.setSched (m.toSched.note (.enter m.currentThread c))))
  | .leave c => some (.done () (m.setSched (m.toSched.note (.leave m.currentThread c))))
  | .currentThread => some (.done m.currentThread m)
  | .setLevel now => m.setLevel now x
  | .takeValue s =>
    if (m.semaphore s).value = 0 then
      if m.level = .off then some (.again (m.setSched (m.toSched.park s))) else none
    else some (.done () (m.setSched (m.toSched.down s)))
  | .giveValue s => some (.done () (m.setSched (m.toSched.up s (some m.currentThread))))
  | .getHolder l => some (.done (m.threadHoldTheLock l) m)
  | .setHolder l t =>
    some (.done () { m with threadHoldTheLock := Function.update m.threadHoldTheLock l t })
  | .sleepOn c => if m.level = .off then some (.done () (m.setSched (m.toSched.wait c))) else none
  | .wakeOne c => some (.done () (m.setSched (m.toSched.signal c)))
  | .wakeAll c => some (.done () (m.setSched (m.toSched.broadcast c)))
  | .getReaders w => some (.done (m.readers w) m)
  | .setReaders w n => some (.done () { m with readers := Function.update m.readers w n })
  | .listIsEmpty q => some (.done (m.list q).isEmpty m)
  | .listAppend q item =>
    some (.done () ({ m with list := Function.update m.list q (m.list q ++ [item]) }.setSched
      (m.toSched.note (.put q item))))
  | .listRemove q =>
    match m.list q with
    | [] => some (.done (0 : Nat) m)
    | item :: rest =>
      some (.done item ({ m with list := Function.update m.list q rest }.setSched
        (m.toSched.note (.took q item))))
  | .getActive => some (.done m.active m)
  | .readRequest n =>
    some (.done (m.data n.toNat) ({ m with active := true, pending := m.pending + 1 }.setSched
      (m.toSched.note (.request m.currentThread))))
  | .writeRequest n d =>
    some (.done () ({ m with
        active := true
        pending := m.pending + 1
        data := Function.update m.data n.toNat d }.setSched
      (m.toSched.note (.request m.currentThread))))
  | .getPutBusy => some (.done m.console.putBusy m)
  | .putChar ch =>
    some (.done () ({ m with console := { m.console with
        putBusy := true
        writes := m.console.writes + 1 } }.setSched (m.toSched.note (.shown m.currentThread ch))))
  | .getChar =>
    some (.done m.console.incoming ({ m with console := { m.console with incoming := eof }
      }.setSched (m.toSched.note (.got m.currentThread m.console.incoming))))
  | .getNetwork => some (.done m.network m)
  | .networkSend hdr data lost =>
    some (.done () ({ m with network := { m.network with sends := m.network.sends + 1 } }.setSched
      (m.toSched.note (.sent m.currentThread hdr data lost))))
  | .networkReceive =>
    some (.done (m.network.inHdr, bcopy m.network.inbox m.network.inHdr.length.toNat)
      ({ m with network := { m.network with
          inHdr := { m.network.inHdr with length := 0 } } }.setSched
        (m.toSched.note (.pulled m.network.inHdr))))
  | .getPostOffice => some (.done m.postOffice m)
  | .newMail mail =>
    some (.done (m.postOffice.mail.length + 1) { m with postOffice := { m.postOffice with
      mail := m.postOffice.mail ++ [mail] } })
  | .getMail address =>
    match m.postOffice.mailAt address with
    | none => none
    | some mail =>
      some (.done mail (m.setSched (m.toSched.note (.opened m.currentThread address mail))))
  | .assert _ b => if b then some (.done () m) else none
  | .fork t =>
    if m.status t = .justCreated then some (.done () (m.setSched (m.toSched.fork t))) else none
  | .yield => some (.done () (m.setSched m.toSched.yield))
  | .finish => some (.done () ({ m with level := .off }.setSched m.toSched.finish))
  | .rounds => some (.done x.rounds m)
  | .stop => none

end Machine

/-- Only the current thread executes; while it is in `Sleep`, the machine idles until a thread
is ready, and then runs it. -/
def platform : Platform ops Machine Thread Choice where
  exec t o x m := if m.currentThread = t ∧ m.asleep = false then m.execute x o else none
  env x m :=
    if m.asleep = false then none
    else match m.dispatch with
      | some k => some (m.setSched k)
      | none => m.handle x.interrupts

/-! ## The operations as programs -/

def enter (c : Call) : Prog Unit := perform (S := ops) (.enter c)
def leave (c : Call) : Prog Unit := perform (S := ops) (.leave c)
def currentThread : Prog Thread := perform (S := ops) .currentThread
def setLevel (now : IntStatus) : Prog IntStatus := perform (S := ops) (.setLevel now)
def takeValue (s : SemId) : Prog Unit := perform (S := ops) (.takeValue s)
def giveValue (s : SemId) : Prog Unit := perform (S := ops) (.giveValue s)
def getHolder (l : LockId) : Prog (Option Thread) := perform (S := ops) (.getHolder l)
def setHolder (l : LockId) (t : Option Thread) : Prog Unit := perform (S := ops) (.setHolder l t)
def sleepOn (c : CondId) : Prog Unit := perform (S := ops) (.sleepOn c)
def wakeOne (c : CondId) : Prog Unit := perform (S := ops) (.wakeOne c)
def wakeAll (c : CondId) : Prog Unit := perform (S := ops) (.wakeAll c)
def getReaders (w : Nat) : Prog Int := perform (S := ops) (.getReaders w)
def setReaders (w : Nat) (n : Int) : Prog Unit := perform (S := ops) (.setReaders w n)
def listIsEmpty (q : Nat) : Prog Bool := perform (S := ops) (.listIsEmpty q)
def listAppend (q item : Nat) : Prog Unit := perform (S := ops) (.listAppend q item)
def listRemove (q : Nat) : Prog Nat := perform (S := ops) (.listRemove q)
def getActive : Prog Bool := perform (S := ops) .getActive
def getPutBusy : Prog Bool := perform (S := ops) .getPutBusy
def getNetwork : Prog Network := perform (S := ops) .getNetwork
def getPostOffice : Prog PostOffice := perform (S := ops) .getPostOffice
def newMail (mail : Mail) : Prog Nat := perform (S := ops) (.newMail mail)
def getMail (address : Nat) : Prog Mail := perform (S := ops) (.getMail address)
def assert (a : Assertion) (b : Bool) : Prog Unit := perform (S := ops) (.assert a b)

/-- `while (cond) body`. How many rounds there will be is guessed at its start, and a thread
that has guessed too few stops: every finite run guesses right. -/
def whileLoop (cond : Prog Bool) (body : Prog Unit) : Prog Unit := do
  let rec go : Nat → Prog Unit
    | 0 => perform (S := ops) .stop
    | n + 1 => do if ← cond then body; go n else pure ()
  go (← perform (S := ops) .rounds)

/-! ## `synch.cc` -/

namespace Semaphore

def p (s : SemId) : Prog Unit := do
  let oldLevel ← setLevel .off
  takeValue s
  let _ ← setLevel oldLevel

def v (s : SemId) : Prog Unit := do
  let oldLevel ← setLevel .off
  giveValue s
  let _ ← setLevel oldLevel

end Semaphore

namespace Lock

def acquire (l : LockId) : Prog Unit := do
  Semaphore.p (.lock l)
  setHolder l (some (← currentThread))

def isHeldByCurrentThread (l : LockId) : Prog Bool := do
  return (← getHolder l) == some (← currentThread)

def release (l : LockId) : Prog Unit := do
  if ← isHeldByCurrentThread l then
    Semaphore.v (.lock l)
    setHolder l none
  else pure ()

end Lock

namespace Condition

def wait (c : CondId) (conditionLock : LockId) : Prog Unit := do
  Lock.release conditionLock
  let oldLevel ← setLevel .off
  sleepOn c
  let _ ← setLevel oldLevel
  Lock.acquire conditionLock

def signal (c : CondId) : Prog Unit := do
  let oldLevel ← setLevel .off
  wakeOne c
  let _ ← setLevel oldLevel

def broadcast (c : CondId) : Prog Unit := wakeAll c

end Condition

namespace RWLock

def rdLock (w : Nat) : Prog Unit := do
  Lock.acquire (.rdlock w)
  if (← getReaders w) = 0 then Semaphore.p (.wrlock w) else pure ()
  setReaders w ((← getReaders w) + 1)
  Lock.release (.rdlock w)

def wrLock (w : Nat) : Prog Unit := Semaphore.p (.wrlock w)

def rdUnlock (w : Nat) : Prog Unit := do
  Lock.acquire (.rdlock w)
  setReaders w ((← getReaders w) - 1)
  if (← getReaders w) = 0 then Semaphore.v (.wrlock w) else pure ()
  Lock.release (.rdlock w)

def wrUnlock (w : Nat) : Prog Unit := Semaphore.v (.wrlock w)

end RWLock

/-! ## `synchlist.cc` and `synchdisk.cc` -/

namespace SynchList

def append (q item : Nat) : Prog Unit := do
  Lock.acquire (.list q)
  listAppend q item
  Condition.signal (.listEmpty q)
  Lock.release (.list q)

def remove (q : Nat) : Prog Nat := do
  Lock.acquire (.list q)
  whileLoop (listIsEmpty q) (Condition.wait (.listEmpty q) (.list q))
  let item ← listRemove q
  assert .itemNotNull (item != 0)
  Lock.release (.list q)
  return item

end SynchList

namespace SynchDisk

/-- The assertions at the start of `Disk::ReadRequest` and `Disk::WriteRequest`. -/
def checkRequest (sectorNumber : Int) : Prog Unit := do
  assert .notActive (!(← getActive))
  assert .sectorNumber (0 ≤ sectorNumber ∧ sectorNumber < 1024)

def readSector (sectorNumber : Int) : Prog Sector := do
  Lock.acquire .disk
  checkRequest sectorNumber
  let data ← perform (S := ops) (.readRequest sectorNumber)
  Semaphore.p .disk
  Lock.release .disk
  return data

def writeSector (sectorNumber : Int) (data : Sector) : Prog Unit := do
  Lock.acquire .disk
  checkRequest sectorNumber
  perform (S := ops) (.writeRequest sectorNumber data)
  Semaphore.p .disk
  Lock.release .disk

end SynchDisk

/-! ## `console.cc` -/

namespace Console

def putChar (ch : Byte) : Prog Unit := do
  assert .notPutBusy (!(← getPutBusy))
  perform (S := ops) (.putChar ch)

def getChar : Prog Byte := perform (S := ops) .getChar

end Console

namespace SynchConsole

def putChar (ch : Byte) : Prog Unit := do
  Lock.acquire .console
  Console.putChar ch
  Lock.release .console

def getChar : Prog Byte := do
  Lock.acquire .console
  let ch ← Console.getChar
  Lock.release .console
  return ch

end SynchConsole

/-! ## `network.cc` and `post.cc` -/

def random : Prog Nat := perform (S := ops) .rounds

namespace Network

/-- The constructor, with `chanceToWork` brought into range. -/
def new (addr : NetworkAddress) (reliability : Rat) : Network where
  ident := addr
  chanceToWork := if reliability < 0 then 0 else if 1 < reliability then 1 else reliability
  sendBusy := false
  inHdr := ⟨0, 0, 0⟩
  inbox := List.replicate 52 0
  sends := 0

/-- `sendBusy` is never set. -/
def send (hdr : PacketHeader) (data : List Byte) : Prog Unit := do
  let net ← getNetwork
  assert .maySend (!net.sendBusy && 0 < hdr.length.toNat && hdr.length.toNat ≤ 52 &&
    hdr.sender == net.ident)
  let r ← random
  perform (S := ops) (.networkSend hdr data (net.chanceToWork * 100 ≤ ((r % 100 : Nat) : Rat)))

def receive : Prog (PacketHeader × List Byte) := perform (S := ops) .networkReceive

end Network

namespace MailBox

def put (box : Nat) (mail : Mail) : Prog Unit := do
  assert .mailLength (mail.mailHdr.length.toNat ≤ 40)
  SynchList.append box (← newMail mail)

def get (box : Nat) : Prog Mail := do
  getMail (← SynchList.remove box)

end MailBox

namespace PostOffice

def send (pktHdr : PacketHeader) (mailHdr : MailHeader) (data : List Byte) : Prog Unit := do
  let office ← getPostOffice
  assert .mailLength (mailHdr.length.toNat ≤ 40)
  assert .mailBox (0 ≤ mailHdr.dest.toInt ∧ mailHdr.dest.toInt < office.numBoxes)
  Lock.acquire .send
  Network.send { pktHdr with sender := office.netAddr, length := mailHdr.length + 12 }
    (mailHdr.bytes ++ bcopy data mailHdr.length.toNat)
  Semaphore.p .messageSent
  Lock.release .send

def receive (box : Int) : Prog Mail := do
  let office ← getPostOffice
  assert .mailBox (0 ≤ box ∧ box < office.numBoxes)
  let mail ← MailBox.get box.toNat
  assert .mailLength (mail.mailHdr.length.toNat ≤ 40)
  return mail

/-- One round of `PostalDelivery`. What a packet leaves of the buffer stays there. -/
def deliver (buffer : List Byte) : Prog (List Byte) := do
  Semaphore.p .messageAvailable
  let (pktHdr, data) ← Network.receive
  let buffer := splice buffer 0 data
  let mailHdr := MailHeader.ofBytes buffer
  let office ← getPostOffice
  assert .mailBox (0 ≤ mailHdr.dest.toInt ∧ mailHdr.dest.toInt < office.numBoxes)
  assert .mailLength (mailHdr.length.toNat ≤ 40)
  MailBox.put mailHdr.dest.toNat ⟨pktHdr, mailHdr, bcopy (buffer.drop 12) mailHdr.length.toNat⟩
  return buffer

/-- The loop has no end: however many rounds are guessed, the thread stops after them. -/
def postalDelivery : Prog Unit := do
  let rec go : Nat → List Byte → Prog Unit
    | 0, _ => perform (S := ops) .stop
    | n + 1, buffer => do go n (← deliver buffer)
  go (← perform (S := ops) .rounds) (List.replicate 52 0)

end PostOffice

/-! ## Threads -/

def calls : Signature where
  Op := Call
  Res
    | .remove _ => Nat
    | .readSector _ => Sector
    | .getChar => Byte
    | .receive _ => Mail
    | _ => Unit

def Call.body : (c : Call) → Prog (calls.Res c)
  | .p n => Semaphore.p (.user n)
  | .v n => Semaphore.v (.user n)
  | .acquire n => Lock.acquire (.user n)
  | .release n => Lock.release (.user n)
  | .wait c n => Condition.wait (.user c) (.user n)
  | .signal c _ => Condition.signal (.user c)
  | .broadcast c _ => Condition.broadcast (.user c)
  | .rdLock w => RWLock.rdLock w
  | .rdUnlock w => RWLock.rdUnlock w
  | .wrLock w => RWLock.wrLock w
  | .wrUnlock w => RWLock.wrUnlock w
  | .append q item => SynchList.append q item
  | .remove q => SynchList.remove q
  | .readSector n => SynchDisk.readSector n
  | .writeSector n d => SynchDisk.writeSector n d
  | .pReadAvail => Semaphore.p .readAvail
  | .pWriteDone => Semaphore.p .writeDone
  | .putChar ch => SynchConsole.putChar ch
  | .getChar => SynchConsole.getChar
  | .send pktHdr mailHdr data => PostOffice.send pktHdr mailHdr data
  | .receive box => PostOffice.receive box
  | .postalDelivery => PostOffice.postalDelivery
  | .fork t => do
    let oldLevel ← setLevel .off
    perform (S := ops) (.fork t)
    let _ ← setLevel oldLevel
  | .yield => do
    let oldLevel ← setLevel .off
    perform (S := ops) .yield
    let _ ← setLevel oldLevel
  | .finish => perform (S := ops) .finish

def Call.prog (c : Call) : Prog (calls.Res c) := do
  enter c
  let r ← c.body
  leave c
  return r

abbrev Client := Program calls Unit

/-- `ThreadRoot`, and for the main thread the end of `main`. -/
def threadRoot (t : Thread) (func : Client) : Prog Unit := do
  if t = 0 then pure () else let _ ← setLevel .on
  func.translate Call.prog
  Call.finish.prog

/-- The command line options `-m` and `-l`, and the number of mailboxes. -/
structure NetConfig where
  netname : NetworkAddress
  rely : Rat
  numBoxes : Int

/-- The machine after `Initialize`, with the given values of the semaphores. -/
def Machine.initial (value : SemId → Int) : Machine where
  currentThread := 0
  status t := if t = 0 then .running else .justCreated
  started t := t == 0
  readyList := []
  blockedList := []
  threadToBeDestroyed := none
  destroyed := []
  asleep := false
  semaphore s := ⟨value s, []⟩
  queue _ := []
  trace := []
  level := .on
  threadHoldTheLock _ := none
  readers _ := 0
  list _ := []
  active := false
  pending := 0
  data _ := ⟨List.replicate 128 0, by simp⟩
  console := ⟨false, eof, 0⟩
  network := .new 0 1
  postOffice := ⟨0, 10, []⟩

def Machine.named (m : Machine) (config : NetConfig) : Machine :=
  { m with
    network := .new config.netname config.rely
    postOffice := ⟨config.netname, config.numBoxes, []⟩ }

/-- The values that the constructors of `Lock`, `RWLock`, `SynchDisk` and `PostOffice` give. -/
def initialValue (user : Nat → Int) : SemId → Int
  | .user n => user n
  | .lock _ => 1
  | .wrlock _ => 1
  | .disk => 0
  | .readAvail | .writeDone => 0
  | .messageAvailable | .messageSent => 0

def startNamed (config : NetConfig) (user : Nat → Int) (client : Thread → Client) :
    Tasks ops Machine Unit Thread where
  prog t := threadRoot t (client t)
  state := (Machine.initial (initialValue user)).named config

def start (user : Nat → Int) (client : Thread → Client) : Tasks ops Machine Unit Thread :=
  startNamed ⟨0, 1, 10⟩ user client

end Nachos.Threads
