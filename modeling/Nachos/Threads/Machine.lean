import Nachos.Lib.Multitask
import Nachos.FileSys.Sector
import Nachos.Network.Packet

/-! The uniprocessor that Nachos threads run on: `thread.cc`, `scheduler.cc` and what
`interrupt.cc` does when interrupts are turned on again, with the devices whose interrupts it
handles: the disk, the console and the network.

Interrupts are off while one of the routines below works, so each of them is one step. Another
thread can run only after `Sleep` or `Yield`, and where `SetLevel` turns interrupts on: there
`OneTick` calls the interrupt handlers that are due, and may let the timer end the time slice.
Which handlers are due, and whether the slice ends, is left open.

The value of a semaphore is an `int` in the source and unbounded here. It is at most its first value
plus the number of calls of `V` (`semaphore_counts`), so that it does not overflow as long as this
sum is below 2^31. -/

namespace Nachos.Threads
open Lib

/-- A `Thread` object; 0 is the main thread. -/
abbrev Thread := Nat

inductive ThreadStatus where
  | justCreated
  | running
  | ready
  | blocked
  deriving DecidableEq

inductive IntStatus where
  | off
  | on
  deriving DecidableEq

/-- The `Lock` objects: those that threads use directly, and the private ones of `RWLock`,
`SynchList`, `SynchDisk`, `SynchConsole` and `PostOffice`. -/
inductive LockId where
  | user (n : Nat)
  | rdlock (w : Nat)
  | list (q : Nat)
  | disk
  | console
  /-- `sendLock` of the post office. -/
  | send
  deriving DecidableEq

/-- The `Semaphore` objects, with the private one of each lock. `readAvail` and `writeDone` are
those that the console's handlers signal, the last two those of the post office. -/
inductive SemId where
  | user (n : Nat)
  | lock (l : LockId)
  | wrlock (w : Nat)
  | disk
  | readAvail
  | writeDone
  | messageAvailable
  | messageSent
  deriving DecidableEq

inductive CondId where
  | user (n : Nat)
  | listEmpty (q : Nat)
  deriving DecidableEq

/-- The calls that threads make. Items of a `SynchList` are addresses, 0 is `NULL`. The calls
`pReadAvail` and `pWriteDone` are `P` on the semaphores of the console. -/
inductive Call where
  | p (n : Nat)
  | v (n : Nat)
  | acquire (n : Nat)
  | release (n : Nat)
  | wait (c n : Nat)
  | signal (c n : Nat)
  | broadcast (c n : Nat)
  | rdLock (w : Nat)
  | rdUnlock (w : Nat)
  | wrLock (w : Nat)
  | wrUnlock (w : Nat)
  | append (q item : Nat)
  | remove (q : Nat)
  | readSector (sectorNumber : Int)
  | writeSector (sectorNumber : Int) (data : Sector)
  | pReadAvail
  | pWriteDone
  | putChar (ch : Byte)
  | getChar
  | send (pktHdr : PacketHeader) (mailHdr : MailHeader) (data : List Byte)
  | receive (box : Int)
  | postalDelivery
  | fork (t : Thread)
  | yield
  | finish
  deriving DecidableEq

inductive Event where
  | enter (t : Thread) (c : Call)
  | leave (t : Thread) (c : Call)
  | forked (t : Thread)
  | finished (t : Thread)
  | ready (t : Thread)
  | dispatch (t : Thread)
  /-- `value--`. -/
  | down (s : SemId) (t : Thread)
  /-- `value++`, by a thread or by an interrupt handler. -/
  | up (s : SemId) (t : Option Thread)
  | slept (s : SemId) (t : Thread)
  | woke (s : SemId) (t : Thread)
  | parked (c : CondId) (t : Thread)
  | signalled (c : CondId) (t : Thread)
  | put (q item : Nat)
  | took (q item : Nat)
  | request (t : Thread)
  | interrupt
  /-- The console writes a character to the display. -/
  | shown (t : Thread) (ch : Byte)
  /-- The console reads a character from the keyboard file. -/
  | typed (ch : Byte)
  /-- `GetChar` returns the character. -/
  | got (t : Thread) (ch : Byte)
  /-- `Network::Send`; a packet that is lost does not get to the socket. -/
  | sent (t : Thread) (hdr : PacketHeader) (data : List Byte) (lost : Bool)
  /-- The network reads a packet from its socket. -/
  | arrived (packet : List Byte)
  /-- `Network::Receive` returns the header. -/
  | pulled (hdr : PacketHeader)
  /-- `MailBox::Get` copies the `Mail` object at the address. -/
  | opened (t : Thread) (address : Nat) (mail : Mail)
  deriving DecidableEq

structure Semaphore where
  value : Int
  queue : List Thread

structure Sched where
  currentThread : Thread
  status : Thread → ThreadStatus
  /-- Whether the thread has run before: `SWITCH` then returns to its call of `Run`, and
  otherwise goes to `ThreadRoot`. -/
  started : Thread → Bool
  readyList : List Thread
  blockedList : List Thread
  threadToBeDestroyed : Option Thread
  destroyed : List Thread
  /-- The current thread is in the loop of `Sleep`, without a thread to run. -/
  asleep : Bool
  semaphore : SemId → Semaphore
  queue : CondId → List Thread
  /-- Latest first. -/
  trace : List Event

namespace Sched

@[simps -fullyApplied] def note (k : Sched) (e : Event) : Sched := { k with trace := e :: k.trace }

@[simps -fullyApplied] def setSemaphore (k : Sched) (s : SemId) (x : Semaphore) : Sched :=
  { k with semaphore := Function.update k.semaphore s x }

@[simps -fullyApplied] def setQueue (k : Sched) (c : CondId) (q : List Thread) : Sched :=
  { k with queue := Function.update k.queue c q }

@[simps -fullyApplied] def readyToRun (k : Sched) (t : Thread) : Sched :=
  { k with
    status := Function.update k.status t .ready
    readyList := k.readyList ++ [t]
    trace := .ready t :: k.trace }

/-- `Run(nextThread)`, up to where the next thread goes on. -/
def run (k : Sched) (nextThread : Thread) : Sched :=
  let k := { k with
    currentThread := nextThread
    status := Function.update k.status nextThread .running
    trace := .dispatch nextThread :: k.trace }
  if k.started nextThread then
    { k with
      threadToBeDestroyed := none
      destroyed := k.threadToBeDestroyed.toList ++ k.destroyed }
  else { k with started := Function.update k.started nextThread true }

def fork (k : Sched) (t : Thread) : Sched := (k.note (.forked t)).readyToRun t

def yield (k : Sched) : Sched :=
  match k.readyList with
  | [] => k
  | t :: rest => (({ k with readyList := rest }).readyToRun k.currentThread).run t

/-- `Sleep`, up to the loop that looks for the next thread. -/
@[simps -fullyApplied] def sleep (k : Sched) : Sched :=
  { k with
    status := Function.update k.status k.currentThread .blocked
    blockedList := k.blockedList ++ [k.currentThread]
    asleep := true }

def dispatch (k : Sched) : Option Sched :=
  match k.readyList with
  | [] => none
  | t :: rest => some { ({ k with readyList := rest }).run t with asleep := false }

def finish (k : Sched) : Sched :=
  (({ k with threadToBeDestroyed := some k.currentThread }).note (.finished k.currentThread)).sleep

/-- `P` finds the value 0. -/
def park (k : Sched) (s : SemId) : Sched :=
  ((k.setSemaphore s { k.semaphore s with queue :=
    (k.semaphore s).queue ++ [k.currentThread] }).note
    (.slept s k.currentThread)).sleep

/-- `P` finds another value. -/
def down (k : Sched) (s : SemId) : Sched :=
  (k.setSemaphore s { k.semaphore s with value := (k.semaphore s).value - 1 }).note
    (.down s k.currentThread)

/-- `V`, by the thread `who` or by an interrupt handler. -/
def up (k : Sched) (s : SemId) (who : Option Thread) : Sched :=
  match (k.semaphore s).queue with
  | [] => (k.setSemaphore s ⟨(k.semaphore s).value + 1, []⟩).note (.up s who)
  | t :: rest =>
    (((k.setSemaphore s ⟨(k.semaphore s).value + 1, rest⟩).note (.woke s t)).readyToRun t).note
      (.up s who)

/-- The part of `Condition::Wait` with interrupts off. -/
def wait (k : Sched) (c : CondId) : Sched :=
  ((k.setQueue c (k.queue c ++ [k.currentThread])).note (.parked c k.currentThread)).sleep

def signal (k : Sched) (c : CondId) : Sched :=
  match k.queue c with
  | [] => k
  | t :: rest => ((k.setQueue c rest).note (.signalled c t)).readyToRun t

/-- Signal as often as there are threads in the queue. -/
def broadcast (k : Sched) (c : CondId) : Sched := (k.queue c).foldl (fun k _ => k.signal c) k

end Sched

def eof : Byte := 255

structure Console where
  putBusy : Bool
  incoming : Byte
  /-- How many interrupts for written characters are scheduled. -/
  writes : Nat

structure Network where
  ident : NetworkAddress
  chanceToWork : Rat
  sendBusy : Bool
  inHdr : PacketHeader
  inbox : List Byte
  /-- How many interrupts for sent packets are scheduled. -/
  sends : Nat

/-- The post office with the `Mail` objects it has made. The list of a mailbox is the
`SynchList` of the same number. -/
structure PostOffice where
  netAddr : NetworkAddress
  numBoxes : Int
  mail : List Mail

def PostOffice.mailAt (office : PostOffice) : Nat → Option Mail
  | 0 => none
  | address + 1 => office.mail[address]?

structure Machine extends Sched where
  level : IntStatus
  threadHoldTheLock : LockId → Option Thread
  readers : Nat → Int
  list : Nat → List Nat
  /-- `Disk::active`. -/
  active : Bool
  /-- How many disk interrupts are scheduled. -/
  pending : Nat
  data : Nat → Sector
  console : Console
  network : Network
  postOffice : PostOffice

/-- The handlers. A poll has what it would find on the keyboard file or in the socket. -/
inductive Irq where
  | v (n : Nat)
  | disk
  | consoleReadPoll (c : Option Byte)
  | consoleWriteDone
  | networkReadPoll (packet : Option (List Byte))
  | networkSendDone

/-- What is left open: the handlers that a tick calls, whether the time slice ends, and how
often a loop is going to be executed. -/
structure Choice where
  interrupts : List Irq
  timeSlice : Bool
  rounds : Nat

namespace Machine

@[simps toSched] def setSched (m : Machine) (k : Sched) : Machine := { m with toSched := k }

def handleInterrupt (m : Machine) : Machine :=
  { m with active := false, pending := m.pending - 1 }.setSched
    ((m.toSched.note .interrupt).up .disk none)

/-- `CheckCharAvail` reads a character. -/
def readChar (m : Machine) (c : Byte) : Machine :=
  { m with console := { m.console with incoming := c } }.setSched
    ((m.toSched.note (.typed c)).up .readAvail none)

def checkCharAvail (m : Machine) (c : Option Byte) : Machine :=
  if m.console.incoming ≠ eof then m else c.elim m m.readChar

def writeDone (m : Machine) : Machine :=
  { m with console := { m.console with
    putBusy := false
    writes := m.console.writes - 1 } }.setSched (m.toSched.up .writeDone none)

/-- `CheckPktAvail` reads a packet. -/
def readPacket (m : Machine) (buffer : List Byte) : Machine :=
  { m with network := { m.network with
    inHdr := PacketHeader.ofBytes buffer
    inbox := splice m.network.inbox 0
      (bcopy (buffer.drop 12) (PacketHeader.ofBytes buffer).length.toNat) } }.setSched
    ((m.toSched.note (.arrived buffer)).up .messageAvailable none)

/-- `Network::CheckPktAvail`, with the assertion on the header of the packet. -/
def checkPktAvail (m : Machine) (packet : Option (List Byte)) : Option Machine :=
  if m.network.inHdr.length ≠ 0 then some m
  else packet.elim (some m) fun buffer =>
    if (PacketHeader.ofBytes buffer).dest = m.network.ident ∧
        (PacketHeader.ofBytes buffer).length.toNat ≤ 52 then some (m.readPacket buffer)
    else none

def sendDone (m : Machine) : Machine :=
  { m with network := { m.network with
    sendBusy := false
    sends := m.network.sends - 1 } }.setSched (m.toSched.up .messageSent none)

/-- An interrupt handler: one that signals a semaphore, or one of a device. -/
def interrupt (m : Machine) : Irq → Option Machine
  | .v n => some (m.setSched (m.toSched.up (.user n) none))
  | .disk => if 0 < m.pending then some m.handleInterrupt else none
  | .consoleReadPoll c => some (m.checkCharAvail c)
  | .consoleWriteDone => if 0 < m.console.writes then some m.writeDone else none
  | .networkReadPoll packet => m.checkPktAvail packet
  | .networkSendDone => if 0 < m.network.sends then some m.sendDone else none

def handle (m : Machine) : List Irq → Option Machine
  | [] => some m
  | i :: is => (m.interrupt i).bind fun m => m.handle is

theorem handle_nil (m : Machine) : m.handle [] = some m := rfl

/-- `SetLevel`. After `Yield` the level is set once more, so it is executed again. -/
def setLevel (m : Machine) (now : IntStatus) (x : Choice) : Option (Effect IntStatus Machine) :=
  if now = .on ∧ m.level = .off then
    (m.handle x.interrupts).map fun m =>
      if x.timeSlice then .again ({ m with level := .off }.setSched m.toSched.yield)
      else .done .off { m with level := .on }
  else some (.done m.level { m with level := now })

end Machine
end Nachos.Threads
