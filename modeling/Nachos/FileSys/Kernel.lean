import Nachos.Lib.Interleave
import Nachos.FileSys.Sector
import Mathlib.Tactic.Simps.Basic

/-! The state that file system code shares, and the operations by which it reaches that
state: sector transfers and the semaphores of `SynchDisk`, `OpenFile` objects and the strings
of `Directory::Add` on the heap, and what the host supplies (the clock, and the contents of
memory that is used before it is written).

`SynchDisk::ReadSector` and `WriteSector` are single steps that complete, and a `Semaphore`
is at its specification. A failed `ASSERT`, and an access outside an object, is a fault. One such
access is left out: `Create`, `Open`, `Remove` and `getFileName` allocate `strlen` bytes for a copy
of the name, and write its terminating NUL one byte behind them. -/

namespace Nachos
open Lib

abbrev CString := List Char

structure OpenFile where
  hdr : FileHeader
  hdrSectorNumber : Int
  seekPosition : Int

abbrev Handle := Nat

structure Kernel where
  disk : Nat → Sector
  mutex : Nat → Nat
  arrayMutex : Nat
  files : Handle → OpenFile
  nextFile : Handle
  /-- The name at heap address `p` is `names[p - 1]`; 0 is the null pointer. -/
  names : List CString
  host : Nat → Nat → Word
  tick : Nat

inductive Op where
  | readSector (sector : Int)
  | writeSector (sector : Int) (data : Sector)
  | rwP (sector : Int)
  | rwV (sector : Int)
  | arrP
  | arrV
  | newFile
  | getFile (f : Handle)
  | setFile (f : Handle) (file : OpenFile)
  | newName (name : CString)
  | getName (p : Word)
  | host
  | fault

def kernelOps : Signature where
  Op := Op
  Res
    | .readSector _ => Sector
    | .newFile => Handle
    | .getFile _ => OpenFile
    | .newName _ => Word
    | .getName _ => CString
    | .host => Nat → Word
    | .fault => Empty
    | _ => Unit

abbrev Prog := Program kernelOps

namespace Kernel

@[simps -fullyApplied] def setDisk (s : Kernel) (n : Nat) (d : Sector) : Kernel :=
  { s with disk := Function.update s.disk n d }

@[simps -fullyApplied] def setMutex (s : Kernel) (n v : Nat) : Kernel :=
  { s with mutex := Function.update s.mutex n v }

@[simps -fullyApplied] def setFile (s : Kernel) (f : Handle) (file : OpenFile) : Kernel :=
  { s with files := Function.update s.files f file }

def exec : Handler kernelOps Kernel
  | .readSector n, s => if 0 ≤ n ∧ n < 1024 then .done (s.disk n.toNat) s else .fault
  | .writeSector n d, s => if 0 ≤ n ∧ n < 1024 then .done () (s.setDisk n.toNat d) else .fault
  | .rwP n, s =>
    if 0 ≤ n ∧ n < 1024 then
      if s.mutex n.toNat = 0 then .block
      else .done () (s.setMutex n.toNat (s.mutex n.toNat - 1))
    else .fault
  | .rwV n, s =>
    if 0 ≤ n ∧ n < 1024 then .done () (s.setMutex n.toNat (s.mutex n.toNat + 1)) else .fault
  | .arrP, s =>
    if s.arrayMutex = 0 then .block else .done () { s with arrayMutex := s.arrayMutex - 1 }
  | .arrV, s => .done () { s with arrayMutex := s.arrayMutex + 1 }
  | .newFile, s => .done s.nextFile { s with nextFile := s.nextFile + 1 }
  | .getFile f, s => .done (s.files f) s
  | .setFile f file, s => .done () (s.setFile f file)
  | .newName c, s =>
    -- `new` throws once the addresses are used up
    if s.names.length + 1 < 2 ^ 32 then
      .done (BitVec.ofNat 32 (s.names.length + 1)) { s with names := s.names ++ [c] }
    else .fault
  | .getName p, s =>
    match s.names[p.toNat - 1]? with
    | some c => if p = 0 then .fault else .done c s
    | none => .fault
  | .host, s => .done (s.host s.tick) { s with tick := s.tick + 1 }
  | .fault, _ => .fault

def zeroed : Kernel where
  disk _ := .ofWords fun _ => 0
  mutex _ := 1
  arrayMutex := 1
  files _ := { hdr := .ofSector (.ofWords fun _ => 0), hdrSectorNumber := 0, seekPosition := 0 }
  nextFile := 0
  names := []
  host _ _ := 0
  tick := 0

end Kernel

/-! ## The operations as programs -/

section programs

def readSector (n : Int) : Prog Sector := Program.perform (S := kernelOps) (.readSector n)
def writeSector (n : Int) (d : Sector) : Prog Unit :=
  Program.perform (S := kernelOps) (.writeSector n d)
def rwP (n : Int) : Prog Unit := Program.perform (S := kernelOps) (.rwP n)
def rwV (n : Int) : Prog Unit := Program.perform (S := kernelOps) (.rwV n)
def arrP : Prog Unit := Program.perform (S := kernelOps) .arrP
def arrV : Prog Unit := Program.perform (S := kernelOps) .arrV
def newFile : Prog Handle := Program.perform (S := kernelOps) .newFile
def getFile (f : Handle) : Prog OpenFile := Program.perform (S := kernelOps) (.getFile f)
def setFile (f : Handle) (file : OpenFile) : Prog Unit :=
  Program.perform (S := kernelOps) (.setFile f file)
def newName (c : CString) : Prog Word := Program.perform (S := kernelOps) (.newName c)
def getName (p : Word) : Prog CString := Program.perform (S := kernelOps) (.getName p)

/-- Memory that was not written since it was allocated, as `int`s. -/
def freshMemory : Prog (Nat → Word) := Program.perform (S := kernelOps) .host

def time : Prog Word := do return (← freshMemory) 0

def fault {α : Type} : Prog α := Program.call (S := kernelOps) .fault fun e : Empty => e.elim

def orFault {α : Type} : Option α → Prog α
  | some a => pure a
  | none => fault

def assert (b : Bool) : Prog Unit := if b then pure () else fault

end programs

/-! ## Rules for a thread that runs alone -/

section rules
open Program
variable {s : Kernel} {x : Nat} {α : Type}

/-- Total correctness of file system code. -/
def Wp {α : Type} (p : Prog α) (Q : α → Kernel → Prop) (s : Kernel) : Prop :=
  wp Kernel.exec p Q s

theorem wp_pure {a : α} {Q : α → Kernel → Prop} : Wp (pure a) Q s ↔ Q a s := wp_ret a

theorem wp_then {β : Type} {p : Prog α} {f : α → Prog β} {Q : β → Kernel → Prop} :
    Wp (p >>= f) Q s ↔ Wp p (fun a s' => Wp (f a) Q s') s := wp_bind

theorem Wp.mono {p : Prog α} {Q R : α → Kernel → Prop} (h : Wp p Q s)
    (hQ : ∀ a s', Q a s' → R a s') : Wp p R s := wp_mono h hQ

theorem Wp.and {p : Prog α} {Q R : α → Kernel → Prop} (h : Wp p Q s) (h' : Wp p R s) :
    Wp p (fun a s' => Q a s' ∧ R a s') s := wp_and h h'

theorem Wp.exists_iff {p : Prog α} {R : α → Kernel → Prop} (h : Wp p R s) :
    ∃ a s', R a s' ∧ ∀ Q : α → Kernel → Prop, Wp p Q s ↔ Q a s' := exists_wp_iff h

theorem Wp.not {p : Prog α} {Q : α → Kernel → Prop} (h : Wp p (fun a s' => ¬ Q a s') s) :
    ¬ Wp p Q s := by
  intro h'
  obtain ⟨a, s', ⟨hn, hp⟩, -⟩ := (h.and h').exists_iff
  exact hn hp

theorem wp_step {o : Op} {r : kernelOps.Res o} {s' : Kernel} {Q : kernelOps.Res o → Kernel → Prop}
    (h : Kernel.exec o s = .done r s') : Wp (perform (S := kernelOps) o) Q s ↔ Q r s' :=
  (wp_call h).trans (wp_ret r)

theorem inRange (hx : x < 1024) : 0 ≤ (x : Int) ∧ (x : Int) < 1024 := by omega

theorem wp_readSector (hx : x < 1024) {Q : Sector → Kernel → Prop} :
    Wp (readSector x) Q s ↔ Q (s.disk x) s :=
  wp_step (by simp [Kernel.exec, inRange hx])

theorem wp_writeSector (hx : x < 1024) {d : Sector} {Q : Unit → Kernel → Prop} :
    Wp (writeSector x d) Q s ↔ Q () (s.setDisk x d) :=
  wp_step (by simp [Kernel.exec, inRange hx])

theorem not_wp_writeSector {n : Int} (hn : n < 0) {d : Sector} {Q : Unit → Kernel → Prop} :
    ¬ Wp (writeSector n d) Q s :=
  not_wp_of_fault (by simp [Kernel.exec, show ¬ 0 ≤ n by omega])

theorem wp_rwP (hx : x < 1024) (hm : s.mutex x ≠ 0) {Q : Unit → Kernel → Prop} :
    Wp (rwP x) Q s ↔ Q () (s.setMutex x (s.mutex x - 1)) :=
  wp_step (by simp [Kernel.exec, inRange hx, hm])

theorem not_wp_rwP (hx : x < 1024) (hm : s.mutex x = 0) {Q : Unit → Kernel → Prop} :
    ¬ Wp (rwP x) Q s :=
  not_wp_of_block (by simp [Kernel.exec, inRange hx, hm])

theorem wp_rwV (hx : x < 1024) {Q : Unit → Kernel → Prop} :
    Wp (rwV x) Q s ↔ Q () (s.setMutex x (s.mutex x + 1)) :=
  wp_step (by simp [Kernel.exec, inRange hx])

theorem wp_arrP (hm : s.arrayMutex ≠ 0) {Q : Unit → Kernel → Prop} :
    Wp arrP Q s ↔ Q () { s with arrayMutex := s.arrayMutex - 1 } :=
  wp_step (by simp [Kernel.exec, hm])

@[simp] theorem wp_arrV {Q : Unit → Kernel → Prop} :
    Wp arrV Q s ↔ Q () { s with arrayMutex := s.arrayMutex + 1 } :=
  wp_step rfl

@[simp] theorem wp_newFile {Q : Handle → Kernel → Prop} :
    Wp newFile Q s ↔ Q s.nextFile { s with nextFile := s.nextFile + 1 } :=
  wp_step rfl

@[simp] theorem wp_getFile {f : Handle} {Q : OpenFile → Kernel → Prop} :
    Wp (getFile f) Q s ↔ Q (s.files f) s :=
  wp_step rfl

@[simp] theorem wp_setFile {f : Handle} {file : OpenFile} {Q : Unit → Kernel → Prop} :
    Wp (setFile f file) Q s ↔ Q () (s.setFile f file) :=
  wp_step rfl

theorem wp_newName {c : CString} (h : s.names.length + 1 < 2 ^ 32) {Q : Word → Kernel → Prop} :
    Wp (newName c) Q s ↔
      Q (BitVec.ofNat 32 (s.names.length + 1)) { s with names := s.names ++ [c] } :=
  wp_step (by simp only [Kernel.exec, if_pos h])

theorem wp_getName {p : Word} {c : CString} (hp : p ≠ 0) (hc : s.names[p.toNat - 1]? = some c)
    {Q : CString → Kernel → Prop} : Wp (getName p) Q s ↔ Q c s :=
  wp_step (by simp only [Kernel.exec, hc, if_neg hp])

theorem not_wp_getName {p : Word} (hc : s.names[p.toNat - 1]? = none)
    {Q : CString → Kernel → Prop} : ¬ Wp (getName p) Q s :=
  not_wp_of_fault (by simp only [Kernel.exec, hc])

@[simp] theorem wp_freshMemory {Q : (Nat → Word) → Kernel → Prop} :
    Wp freshMemory Q s ↔ Q (s.host s.tick) { s with tick := s.tick + 1 } :=
  wp_step rfl

@[simp] theorem wp_time {Q : Word → Kernel → Prop} :
    Wp time Q s ↔ Q (s.host s.tick 0) { s with tick := s.tick + 1 } := by
  simp only [time, wp_then, wp_freshMemory, wp_pure]

@[simp] theorem wp_orFault_some {a : α} {Q : α → Kernel → Prop} :
    Wp (orFault (some a)) Q s ↔ Q a s := wp_pure

theorem not_wp_fault {Q : α → Kernel → Prop} : ¬ Wp fault Q s := by
  rintro ⟨a, s', h, -⟩
  cases h

theorem not_wp_assert {b : Bool} (h : b = false) {Q : Unit → Kernel → Prop} :
    ¬ Wp (assert b) Q s := by
  rw [assert, h]
  exact not_wp_fault

theorem wp_assert {b : Bool} (h : b = true) {Q : Unit → Kernel → Prop} :
    Wp (assert b) Q s ↔ Q () s := by
  rw [assert, if_pos h, wp_pure]

/-! ## Runs that come to a fault -/

/-- Run alone, the program comes to an access outside an object, or to an assertion of the file
system code that fails. -/
def Faults {α : Type} (p : Prog α) (s : Kernel) : Prop :=
  Performs Kernel.exec (· = Op.fault) p s

@[simp] theorem faults_then {β : Type} {p : Prog α} {f : α → Prog β} :
    Faults (p >>= f) s ↔ Faults p s ∨ Wp p (fun a s' => Faults (f a) s') s := performs_bind

@[simp] theorem not_faults_pure {a : α} : ¬ Faults (pure a) s := not_performs_ret a

@[simp] theorem not_wp_false {p : Prog α} : ¬ Wp p (fun _ _ => False) s := by
  rintro ⟨_, _, -, h⟩
  exact h

theorem not_faults_perform {o : Op} (h : o ≠ .fault) :
    ¬ Faults (perform (S := kernelOps) o) s :=
  Uses.not_performs ⟨h, fun _ => trivial⟩

@[simp] theorem not_faults_readSector {n : Int} : ¬ Faults (readSector n) s :=
  not_faults_perform Op.noConfusion

@[simp] theorem not_faults_writeSector {n : Int} {d : Sector} : ¬ Faults (writeSector n d) s :=
  not_faults_perform Op.noConfusion

@[simp] theorem not_faults_getFile {f : Handle} : ¬ Faults (getFile f) s :=
  not_faults_perform Op.noConfusion

@[simp] theorem not_faults_setFile {f : Handle} {file : OpenFile} : ¬ Faults (setFile f file) s :=
  not_faults_perform Op.noConfusion

@[simp] theorem not_faults_freshMemory : ¬ Faults freshMemory s :=
  not_faults_perform Op.noConfusion

@[simp] theorem faults_fault : Faults (fault : Prog α) s := .here ⟨_, _, rfl, rfl⟩

@[simp] theorem faults_assert {b : Bool} : Faults (assert b) s ↔ b = false := by
  cases b
  · exact iff_of_true faults_fault rfl
  · exact iff_of_false not_faults_pure (by decide)

theorem not_faults_assert {b : Bool} (h : b = true) : ¬ Faults (assert b) s := by
  rw [faults_assert, h]
  decide

@[simp] theorem not_faults_orFault_some {a : α} : ¬ Faults (orFault (some a)) s := not_faults_pure

end rules
end Nachos
