import Nachos.Lib.Bytes
import Mathlib.Tactic.IntervalCases

/-! Disk sectors and the structures that are stored in them by copying their memory.
The constants of `disk.h`, `filehdr.h` and `filesys.cc` appear as numerals: `SectorSize` is
128, `NumSectors` 1024, `NumDirect` 25, `NumDirEntries` 10 and `DirectoryFileSize` 120. -/

namespace Nachos
open Lib

/-- Rounding toward zero, as C divides. -/
def divRoundDown (n s : Int) : Int := n.tdiv s

def divRoundUp (n s : Int) : Int := n.tdiv s + if n.tmod s > 0 then 1 else 0

/-- The value that an `int` holds after a computation with result `x`. -/
def int32 (x : Int) : Int := (BitVec.ofInt 32 x).toInt

theorem int32_of_range {x : Int} (h₁ : -2147483648 ≤ x) (h₂ : x < 2147483648) : int32 x = x := by
  simp only [int32, BitVec.toInt_ofInt]
  exact Int.bmod_eq_of_le (by omega) (by omega)

theorem toInt_ofInt_of_range {x : Int} (h₁ : -2147483648 ≤ x) (h₂ : x < 2147483648) :
    (BitVec.ofInt 32 x).toInt = x := int32_of_range h₁ h₂

theorem ofInt_toInt (w : Word) : BitVec.ofInt 32 w.toInt = w := BitVec.ofInt_toInt

theorem word_range (w : Word) : -2147483648 ≤ w.toInt ∧ w.toInt < 2147483648 := by
  have h₁ := BitVec.le_toInt w
  have h₂ := BitVec.toInt_lt (x := w)
  omega

theorem divRoundDown_of_nonneg {n : Int} (s : Int) (h : 0 ≤ n) : divRoundDown n s = n / s :=
  Int.tdiv_eq_ediv_of_nonneg h

theorem divRoundUp_of_nonneg {n s : Int} (h : 0 ≤ n) :
    divRoundUp n s = n / s + if n % s > 0 then 1 else 0 := by
  rw [divRoundUp, Int.tdiv_eq_ediv_of_nonneg h, Int.tmod_eq_emod_of_nonneg h]

theorem divRoundUp_128 {n : Int} (h : 0 ≤ n) : divRoundUp n 128 = (n + 127) / 128 := by
  rw [divRoundUp_of_nonneg h]
  split <;> omega

theorem divRoundUp_of_nonpos {x s : Int} (h : x ≤ 0) (hs : 0 < s) : divRoundUp x s = -(-x / s) := by
  obtain ⟨y, rfl⟩ : ∃ y, x = -y := ⟨-x, by omega⟩
  have hy : 0 ≤ y := by omega
  have hmod := Int.emod_nonneg y hs.ne'
  rw [divRoundUp, Int.neg_tdiv, Int.neg_tmod, Int.tdiv_eq_ediv_of_nonneg hy,
    Int.tmod_eq_emod_of_nonneg hy, if_neg (by omega), Int.neg_neg, Int.add_zero]

/-! ## Sectors -/

@[ext] structure Sector where
  bytes : List Byte
  size : bytes.length = 128
  deriving DecidableEq

namespace Sector

def word (s : Sector) (i : Nat) : Word := (wordsOfBytes s.bytes).getD i 0

def ofWords (w : Nat → Word) : Sector where
  bytes := bytesOfWords ((List.range 32).map w)
  size := by simp

/-- A sector written from a buffer of at least 128 bytes; a shorter one is padded. -/
def ofBytes (bs : List Byte) : Sector where
  bytes := (bs ++ List.replicate 128 0).take 128
  size := by simp

theorem bytes_ofBytes {bs : List Byte} (h : bs.length = 128) : (ofBytes bs).bytes = bs := by
  simp [ofBytes, h]

@[simp] theorem ofBytes_bytes (s : Sector) : ofBytes s.bytes = s :=
  Sector.ext (bytes_ofBytes s.size)

@[simp] theorem word_ofWords {w : Nat → Word} {i : Nat} (h : i < 32) :
    (ofWords w).word i = w i := by
  simp [word, ofWords, List.getD, h]

theorem wordsOfBytes_bytes (s : Sector) : wordsOfBytes s.bytes = (List.range 32).map s.word := by
  have hl : (wordsOfBytes s.bytes).length = 32 := by simp [length_wordsOfBytes, s.size]
  refine List.ext_getElem (by simp [hl]) fun i h₁ h₂ => ?_
  simp [word, List.getD, List.getElem?_eq_getElem h₁]

@[simp] theorem ofWords_word (s : Sector) : ofWords s.word = s := by
  apply Sector.ext
  change bytesOfWords ((List.range 32).map s.word) = s.bytes
  rw [← wordsOfBytes_bytes]
  exact bytesOfWords_wordsOfBytes (n := 32) s.size

theorem ofWords_congr {v w : Nat → Word} (h : ∀ i < 32, v i = w i) : ofWords v = ofWords w := by
  apply Sector.ext
  have hm : (List.range 32).map v = (List.range 32).map w :=
    List.map_congr_left fun i hi => h i (List.mem_range.mp hi)
  simp only [ofWords, hm]

theorem ext_word {s t : Sector} (h : ∀ i < 32, s.word i = t.word i) : s = t := by
  rw [← ofWords_word s, ← ofWords_word t, ofWords_congr h]

end Sector

/-! ## File headers -/

/-- `FileHeader`: 32 `int`s, hence exactly one sector. -/
@[ext] structure FileHeader where
  createTime : Word
  lastVisitTime : Word
  lastWriteTime : Word
  fileType : Word
  primaryIndexTable : Fin 25 → Word
  numVisits : Word
  numBytes : Word
  numSectors : Word

namespace FileHeader

def toSector (h : FileHeader) : Sector := Sector.ofWords fun i =>
  if i = 0 then h.createTime else if i = 1 then h.lastVisitTime else if i = 2 then h.lastWriteTime
  else if i = 3 then h.fileType
  else if hi : 4 ≤ i ∧ i < 29 then h.primaryIndexTable ⟨i - 4, by omega⟩
  else if i = 29 then h.numVisits else if i = 30 then h.numBytes else h.numSectors

def ofSector (s : Sector) : FileHeader where
  createTime := s.word 0
  lastVisitTime := s.word 1
  lastWriteTime := s.word 2
  fileType := s.word 3
  primaryIndexTable := fun i => s.word (4 + i)
  numVisits := s.word 29
  numBytes := s.word 30
  numSectors := s.word 31

@[simp] theorem ofSector_toSector (h : FileHeader) : ofSector h.toSector = h := by
  apply FileHeader.ext
  case primaryIndexTable =>
    funext i
    simp only [ofSector, toSector]
    rw [Sector.word_ofWords (by omega)]
    simp [show ¬ (4 + i.val = 1) by omega, show ¬ (4 + i.val = 2) by omega,
      show ¬ (4 + i.val = 3) by omega, show 4 + i.val < 29 by omega]
  all_goals
    simp only [ofSector, toSector]
    rw [Sector.word_ofWords (by omega)]
    simp

@[simp] theorem toSector_ofSector (s : Sector) : (ofSector s).toSector = s := by
  apply Sector.ext_word
  intro i hi
  rw [toSector, Sector.word_ofWords hi]
  by_cases h4 : 4 ≤ i ∧ i < 29
  · have hi4 : 4 + (i - 4) = i := by omega
    simp [ofSector, h4, hi4, show ¬ i = 0 by omega, show ¬ i = 1 by omega,
      show ¬ i = 2 by omega, show ¬ i = 3 by omega]
  · have : i = 0 ∨ i = 1 ∨ i = 2 ∨ i = 3 ∨ i = 29 ∨ i = 30 ∨ i = 31 := by omega
    obtain rfl | rfl | rfl | rfl | rfl | rfl | rfl := this <;> simp [ofSector]

/-- `primaryIndexTable[i]`, which only `0 <= i < NumDirect` may use. -/
def entry (h : FileHeader) (i : Int) : Option Word :=
  if hi : 0 ≤ i ∧ i < 25 then some (h.primaryIndexTable ⟨i.toNat, by omega⟩) else none

def setEntry (h : FileHeader) (i : Nat) (w : Word) : FileHeader :=
  if hi : i < 25 then { h with primaryIndexTable := Function.update h.primaryIndexTable ⟨i, hi⟩ w }
  else h

def fileLength (h : FileHeader) : Int := h.numBytes.toInt

end FileHeader
end Nachos
