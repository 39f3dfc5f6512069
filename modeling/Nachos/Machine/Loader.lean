import Nachos.Machine.SingleUser

/-! The constructor of `AddrSpace`. It copies code and initialised data of an executable in NOFF
format to the start of the backing file, byte by byte and through the first byte of `mainMemory`.
The rest of the address space is stored nowhere: a page that the file does not reach shows what its
frame held before. -/

namespace Nachos
open Lib

structure Segment where
  virtualAddr : Int
  inFileAddr : Int
  size : Int

structure NoffHeader where
  noffMagic : Int
  code : Segment
  initData : Segment
  uninitData : Segment

def intAt (f : Int → Byte) (p : Int) : Int :=
  (leWord (f p) (f (p + 1)) (f (p + 2)) (f (p + 3))).toInt

def segmentAt (f : Int → Byte) (p : Int) : Segment where
  virtualAddr := intAt f p
  inFileAddr := intAt f (p + 4)
  size := intAt f (p + 8)

/-- The header of an executable, read over what was on the stack. -/
def noffHeader (stack : Int → Byte) (executable : BackingFile) : NoffHeader :=
  let noffH := overwrite stack 0 (executable.readAt 40 0)
  { noffMagic := intAt noffH 0
    code := segmentAt noffH 4
    initData := segmentAt noffH 16
    uninitData := segmentAt noffH 28 }

def Segment.Has (s : Segment) (p : Nat) : Prop := s.virtualAddr ≤ p ∧ p < s.virtualAddr + s.size

instance (s : Segment) (p : Nat) : Decidable (s.Has p) :=
  inferInstanceAs (Decidable (_ ∧ _))

def NoffHeader.Outside (noffH : NoffHeader) (p : Nat) : Prop :=
  ¬ noffH.code.Has p ∧ ¬ noffH.initData.Has p

instance (noffH : NoffHeader) (p : Nat) : Decidable (noffH.Outside p) :=
  inferInstanceAs (Decidable (_ ∧ _))

namespace Memory

def copyByte (m : Memory) (executable : BackingFile) (filePos diskPos : Int) : Memory :=
  let mainMemory := overwrite m.mainMemory 0 (executable.readAt 1 filePos)
  { m with
    mainMemory := mainMemory
    disk := m.disk.writeAt [mainMemory 0] diskPos }

def copySegment (m : Memory) (executable : BackingFile) (s : Segment) (diskPos : Int) : Memory :=
  (List.range s.size.toNat).foldl
    (fun m (j : Nat) => m.copyByte executable (s.inFileAddr + j) (diskPos + j)) m

/-- The constructor, which returns `numPages`. `UserStackSize` is 1024. -/
def addrSpace (m : Memory) (stack : Int → Byte) (executable : BackingFile) :
    Option (Word × Memory) :=
  let noffH := noffHeader stack executable
  if noffH.noffMagic = 0xbadfad then
    let size : Word := BitVec.ofInt 32
      (noffH.code.size + noffH.initData.size + noffH.uninitData.size + 1024)
    let numPages := size / 128 + if 0 < size % 128 then 1 else 0
    let m := m.copySegment executable noffH.code 0
    some (numPages, m.copySegment executable noffH.initData noffH.code.size.toNat)
  else none

variable {m m' : Memory} {executable : BackingFile} {stack : Int → Byte} {numPages : Word}

/-- Loading changes neither the page table nor the map of free frames, and it writes nothing
behind the end of the file. -/
structure LoadedFrom (m' m : Memory) : Prop where
  pageTable : m'.pageTable = m.pageTable
  memBitMap : m'.memBitMap = m.memBitMap
  stale : ∀ p : Nat, m'.disk.length ≤ p → m.disk.length ≤ p ∧ m'.disk.byte p = m.disk.byte p

theorem LoadedFrom.trans {m'' : Memory} (h : m''.LoadedFrom m') (h' : m'.LoadedFrom m) :
    m''.LoadedFrom m where
  pageTable := h.pageTable.trans h'.pageTable
  memBitMap := h.memBitMap.trans h'.memBitMap
  stale p hp := by
    obtain ⟨hp, he⟩ := h.stale p hp
    obtain ⟨hp, he'⟩ := h'.stale p hp
    exact ⟨hp, he.trans he'⟩

theorem loadedFrom_copySegment (s : Segment) (diskPos : Int) :
    (m.copySegment executable s diskPos).LoadedFrom m := by
  rw [copySegment]
  generalize List.range s.size.toNat = js
  induction js generalizing m with
  | nil => exact ⟨rfl, rfl, fun p hp => ⟨hp, rfl⟩⟩
  | cons j js ih =>
    rw [List.foldl_cons]
    exact ih.trans ⟨rfl, rfl, fun p hp => BackingFile.writeAt_stale hp⟩

theorem loadedFrom_addrSpace (h : m.addrSpace stack executable = some (numPages, m')) :
    m'.LoadedFrom m := by
  rw [addrSpace] at h
  simp only at h
  split at h
  · cases h
    exact (loadedFrom_copySegment _ _).trans (loadedFrom_copySegment _ _)
  · cases h

theorem LoadedFrom.filled (h : m'.LoadedFrom m) {k : Nat} (hf : m.Filled k) : m'.Filled k := by
  obtain ⟨hle, hv, hfr, hun, hu, hfree, hp⟩ := hf
  rw [← h.pageTable] at hv hfr hun hu hp
  rw [← h.memBitMap] at hfree
  exact ⟨hle, hv, hfr, hun, hu, hfree, hp⟩

end Memory

/-! ## Fresh pages -/

/-- What a read must find outside of code and initialised data, where nothing was written. -/
def freshBytes (noffH : NoffHeader) (log : List (Access × Option Word)) (p : Nat) : Option Byte :=
  if noffH.Outside p ∧ lastWritten log p = none then some 0 else none

namespace Users
variable {u u' : Users} {tid now : Int} {noffH : NoffHeader}

def stepOf (tid : Int) (u : Users) (now : Int) : Option Users := u.step (tid, now)

/-- If the next access is a page fault, then the frame has zeros where the file has ended. -/
def FaultsClean (noffH : NoffHeader) (tid : Int) (u : Users) : Prop :=
  ∀ a rest, u.todo tid = a :: rest → u.memory.Faults tid a → u.memory.Clean noffH.Outside a

structure Zeroed (noffH : NoffHeader) (tid : Int) (u : Users) : Prop where
  alone : u.Alone tid
  right : u.Right (fun t _ => t = tid) fun _ p => if noffH.Outside p then some 0 else none

theorem Zeroed.step (h : u.Zeroed noffH tid) (hs : stepOf tid u now = some u')
    (hc : u.FaultsClean noffH tid) : u'.Zeroed noffH tid := by
  refine ⟨h.alone.keeps hs, h.right.step (fun t p b _ hb => ?_) hs fun a rest ht hf => ?_⟩
  · split at hb
    · cases hb
      rfl
    · cases hb
  · refine ⟨h.alone.isPrivate, fun o ho hfr hn => hc a rest ht hf o ho ?_ hn⟩
    by_contra hout
    exact hfr (if_neg hout)

theorem Zeroed.consistent (h : u.Zeroed noffH tid) : Consistent (freshBytes noffH) (u.log tid) := by
  intro before a v hp
  refine (h.right.results tid (fun _ _ => rfl) before a v hp).mono fun p b hb => ?_
  rw [freshBytes] at hb
  split at hb
  · next hout =>
    rw [expected, hout.2]
    exact (if_pos hout.1).trans hb
  · cases hb

end Users

section
variable (pageLasttime : Int → Int) (mainMemory : Int → Byte) (words : Nat → Word)
  (stale stack : Int → Byte) (executable : BackingFile) (numPages : Word) (m : Memory)

theorem zeroed_start
    (hload : (Memory.initial pageLasttime mainMemory words ⟨0, stale⟩).addrSpace stack executable =
      some (numPages, m))
    (hstale : ∀ p : Nat, (noffHeader stack executable).Outside p → stale p = 0)
    (honly : ∀ p < m.disk.length, (noffHeader stack executable).Outside p → m.disk.byte p = 0)
    (tid : Int) (todo : Int → List Access) :
    (Users.start m todo).Zeroed (noffHeader stack executable) tid := by
  have hfrom := Memory.loadedFrom_addrSpace hload
  have hm : ∀ i, m.pageTable i = .initial := fun i => congrFun hfrom.pageTable i
  have hbehind : ∀ p : Nat, (noffHeader stack executable).Outside p → m.disk.length ≤ p →
      m.disk.byte p = 0 := fun p hout hp => by
    rw [(hfrom.stale p hp).2]
    exact hstale p hout
  refine ⟨Users.alone_start todo tid hm (hfrom.filled (Memory.filled_initial ..)),
    Users.right_start todo hm (fun t v _ o _ b hb => ?_) fun t p hfr hp => hbehind p ?_ hp⟩
  · split at hb
    · next hout =>
      cases hb
      rw [Memory.Backs, BackingFile.stored]
      by_cases hp : v * 128 + o < m.disk.length ∧ v * 128 + o < 2147483648
      · rw [if_pos hp, honly _ hp.1 hout]
        exact .inl rfl
      · exact .inr ⟨if_neg hp, rfl, by simp [hout]⟩
    · cases hb
  · by_contra hout
    exact hfr (if_neg hout)

/-- A single thread whose backing file holds only code and initialised data, apart from zeros, and
that gets a frame of zeros for whatever the file does not reach: all along its run, what it reads
outside of code and initialised data without having written it is 0. -/
theorem fresh_reads_zero
    (hload : (Memory.initial pageLasttime mainMemory words ⟨0, stale⟩).addrSpace stack executable =
      some (numPages, m))
    (hstale : ∀ p : Nat, (noffHeader stack executable).Outside p → stale p = 0)
    (honly : ∀ p < m.disk.length, (noffHeader stack executable).Outside p → m.disk.byte p = 0)
    (tid : Int) (todo : Int → List Access) (times : List Int)
    (hclean : History.Meets (Users.stepOf tid)
      (fun u _ => u.FaultsClean (noffHeader stack executable) tid) (.start m todo) times) :
    History.Always (Users.stepOf tid)
      (fun u => Consistent (freshBytes (noffHeader stack executable)) (u.log tid))
      (.start m todo) times :=
  hclean.always (fun _ h => h.consistent) (fun _ _ _ h hs hc => h.step hs hc)
    (zeroed_start pageLasttime mainMemory words stale stack executable numPages m hload hstale honly
      tid todo)

end

def emptyProgram : BackingFile :=
  ⟨40, fun p => if p = 0 then 0xad else if p = 1 then 0xdf else if p = 2 then 0xba else 0⟩

def Memory.zero : Memory := .initial (fun _ => 0) (fun _ => 0) (fun _ => 0) ⟨0, fun _ => 0⟩

theorem addrSpace_emptyProgram :
    Memory.zero.addrSpace (fun _ => 0) emptyProgram = some (8, Memory.zero) := by
  have hcode : (noffHeader (fun _ => 0) emptyProgram).code.size = 0 := by decide +kernel
  have hdata : (noffHeader (fun _ => 0) emptyProgram).initData.size = 0 := by decide +kernel
  have hbss : (noffHeader (fun _ => 0) emptyProgram).uninitData.size = 0 := by decide +kernel
  rw [Memory.addrSpace]
  simp only [Memory.copySegment, hcode, hdata, hbss]
  rw [if_pos (by decide +kernel)]
  rfl

/-- The first page fault finds a frame of zeros. -/
theorem fresh_reads_zero_first :
    History.Always (Users.stepOf 0)
      (fun u => Consistent (freshBytes (noffHeader (fun _ => 0) emptyProgram)) (u.log 0))
      (.start .zero fun _ => [.read 0 .word]) [1, 2] := by
  refine fresh_reads_zero _ _ _ _ _ _ _ _ addrSpace_emptyProgram (fun _ _ => rfl)
    (fun p hp => absurd hp (Nat.not_lt_zero p)) 0 _ _ fun u₁ h₁ => ⟨?_, fun u₂ h₂ => ⟨?_, trivial⟩⟩
  · intro a rest _ _ o _ _ _
    rfl
  · -- the page is there now
    cases h₁
    intro a rest ht hf
    cases ht
    exact absurd (hf 0) (by decide +kernel)

def filling (value : Word) : List Access :=
  (List.range 32).map fun v => .write (BitVec.ofNat 32 (128 * v)) .word value

/-- The page that is read gets the frame of the first page, with its contents. -/
theorem not_fresh_reads_zero_filling :
    Memory.zero.addrSpace (fun _ => 0) emptyProgram = some (8, Memory.zero) ∧
    ¬ History.Always (Users.stepOf 0)
      (fun u => Consistent (freshBytes (noffHeader (fun _ => 0) emptyProgram)) (u.log 0))
      (.start .zero fun _ => filling 7 ++ [.read 4096 .word]) (List.replicate 66 0) := by
  refine ⟨addrSpace_emptyProgram, fun h => ?_⟩
  have hlog : (History.run (Users.stepOf 0) (.start .zero fun _ => filling 7 ++ [.read 4096 .word])
      (List.replicate 66 0)).map (fun u => u.log 0) =
      some ((filling 7).map (fun a => (a, none)) ++ [(.read 4096 .word, some 7)]) := by
    decide +kernel
  obtain ⟨u, hu, hlog⟩ := Option.map_eq_some_iff.mp hlog
  obtain ⟨g, hg, hv⟩ := h.run hu ((filling 7).map fun a => (a, none)) (.read 4096 .word)
    (some 7) (hlog ▸ List.prefix_rfl)
  have h0 := hg 4096 0 (by decide +kernel)
  have h1 := hg 4097 0 (by decide +kernel)
  have h2 := hg 4098 0 (by decide +kernel)
  have h3 := hg 4099 0 (by decide +kernel)
  have hval : Memory.value g 4096 .word = leWord 0 0 0 0 := by
    rw [Memory.value]
    exact congr (congr (congr (congrArg leWord h0) h1) h2) h3
  have h7 := (Option.some.inj hv).trans hval
  revert h7
  decide

end Nachos
