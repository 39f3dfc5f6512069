import Nachos.FileSys.ByteArray

/-! The checks of `ReadAt`, for any two `int`s. The sum of position and length may wrap around, and
a negative position is not refused. -/

namespace Nachos
open Lib Program FileHeader

variable {s : Kernel} {f : Handle} {h : Nat} {index data : List Nat}

namespace OpenFile

def firstSector (position : Int) : Int := divRoundDown position 128

def lastSector (numBytes position : Int) : Int :=
  divRoundDown (int32 (position + numBytes - 1)) 128

def bufLength (numBytes position : Int) : Int :=
  int32 ((1 + lastSector numBytes position - firstSector position) * 128)

theorem readRange_eq (f : Handle) (numBytes position : Int) :
    readRange f numBytes position = (do
      lockSectors f (sectorRange (firstSector position) (lastSector numBytes position))
      let buf ← newChars (bufLength numBytes position)
      let bytes ← readSectors f
        (sectorRange (firstSector position) (lastSector numBytes position))
      orFault (copyOut (bytes ++ buf.drop bytes.length) (position - firstSector position * 128)
        numBytes)) := rfl

/-- The blocks of the file that `ReadAt` asks the header for, with the place of each of them in the
buffer. -/
def readBlocks (fileLength numBytes position : Int) : List (Int × Int) :=
  if numBytes ≤ 0 ∨ position ≥ fileLength then []
  else (sectorRange (firstSector position)
    (lastSector (clamp fileLength numBytes position) position)).map
      fun i => (i, (i - firstSector position) * 128)

end OpenFile

open OpenFile

theorem length_copyOut {buf bytes : List Byte} {off n : Int} (h : copyOut buf off n = some bytes) :
    bytes.length = n.toNat := by
  rw [copyOut] at h
  split at h
  · cases h
    rw [List.length_take, List.length_drop]
    omega
  · cases h

theorem length_readRange {numBytes position : Int} {Q : List Byte → Kernel → Prop}
    (hw : Wp (readRange f numBytes position) Q s) :
    Wp (readRange f numBytes position) (fun bytes _ => bytes.length = numBytes.toNat) s := by
  rw [readRange_eq] at hw ⊢
  simp only [wp_then] at hw ⊢
  refine hw.mono fun _ s₁ hw => hw.mono fun buf s₂ hw => hw.mono fun bytes s₃ hw => ?_
  cases hc : copyOut (bytes ++ buf.drop bytes.length) (position - firstSector position * 128)
      numBytes with
  | none =>
    rw [hc] at hw
    exact absurd hw not_wp_fault
  | some r =>
    rw [wp_orFault_some]
    exact length_copyOut hc

/-- The call answers the clamped number of bytes, it asks only for blocks that the file has, and
they are inside the buffer. -/
structure ReadsInside (s : Kernel) (f : Handle) (fileLength numBytes position : Int) : Prop where
  result : Wp (readAt f numBytes position) (fun bytes _ => (bytes.length : Int) =
    if 0 < numBytes ∧ 0 ≤ position ∧ position < fileLength then
      min numBytes (fileLength - position)
    else 0) s
  blocks : ∀ b ∈ readBlocks fileLength numBytes position, 0 ≤ b.1 ∧ b.1 * 128 < fileLength ∧
    0 ≤ b.2 ∧ b.2 + 128 ≤ bufLength (clamp fileLength numBytes position) position

section
variable {fileLength numBytes position : Int}

theorem clamp_eq_min (h₀ : 0 ≤ position) (hl : position < fileLength) (hmax : fileLength ≤ 102400)
    (hn : 0 < numBytes) (hsum : position + numBytes < 2147483648) :
    clamp fileLength numBytes position = min numBytes (fileLength - position) := by
  rw [clamp, int32_of_range (by omega) (by omega), int32_of_range (by omega) (by omega)]
  split <;> omega

theorem clamp_ne (hl : position < fileLength) (hmax : fileLength ≤ 102400)
    (hn : 0 < numBytes) (hn' : numBytes < 2147483648) (hp : -2147483648 ≤ position)
    (hbad : position < 0 ∨ 2147483648 ≤ position + numBytes) :
    0 < clamp fileLength numBytes position ∧
      (0 ≤ position → clamp fileLength numBytes position ≠
        min numBytes (fileLength - position)) := by
  rcases hbad with hneg | hover
  · refine ⟨?_, fun h₀ => by omega⟩
    rw [clamp, int32_of_range (by omega) (by omega)]
    split
    · rw [int32_of_range (by omega) (by omega)]
      omega
    · exact hn
  · have hwrap : int32 (position + numBytes) ≤ fileLength := by
      rw [int32, BitVec.toInt_ofInt, Int.bmod_def]
      omega
    rw [clamp, if_neg (by omega)]
    exact ⟨hn, fun _ => by omega⟩

theorem readBlocks_inside (h₀ : 0 ≤ position) (hl : position < fileLength)
    (hmax : fileLength ≤ 102400) (hn : 0 < numBytes) (hsum : position + numBytes < 2147483648)
    {b : Int × Int} (hb : b ∈ readBlocks fileLength numBytes position) :
    0 ≤ b.1 ∧ b.1 * 128 < fileLength ∧
      0 ≤ b.2 ∧ b.2 + 128 ≤ bufLength (clamp fileLength numBytes position) position := by
  have hclamp := clamp_eq_min h₀ hl hmax hn hsum
  have hfirst : firstSector position = position / 128 := divRoundDown_of_nonneg 128 h₀
  have hlast : lastSector (clamp fileLength numBytes position) position =
      (position + clamp fileLength numBytes position - 1) / 128 := by
    rw [lastSector, int32_of_range (by omega) (by omega), divRoundDown_of_nonneg 128 (by omega)]
  rw [readBlocks, if_neg (by omega)] at hb
  obtain ⟨i, hi, rfl⟩ := List.mem_map.mp hb
  obtain ⟨j, hj, rfl⟩ := List.mem_map.mp hi
  have hlt := List.mem_range.mp hj
  rw [hlast, hfirst] at hlt
  simp only [bufLength, hlast, hfirst]
  rw [int32_of_range (by omega) (by omega)]
  omega

end

/-- `ReadAt` clamps the request as it should exactly when there is nothing to read, or the position
is not negative and the end of the request is an `int`. -/
theorem readAt_clamps_iff (hq : s.Quiet) (ho : s.OpenOn f h)
    (hm : MapsOffsets s.disk h index data) (numBytes position : Word) :
    ReadsInside s f (hdrAt s.disk h).fileLength numBytes.toInt position.toInt ↔
      numBytes.toInt ≤ 0 ∨ (hdrAt s.disk h).fileLength ≤ position.toInt ∨
        0 ≤ position.toInt ∧ position.toInt + numBytes.toInt < 2147483648 := by
  obtain ⟨hn₁, hn₂⟩ := word_range numBytes
  obtain ⟨hp₁, hp₂⟩ := word_range position
  generalize numBytes.toInt = num at *
  generalize position.toInt = pos at *
  have hlen : hm.node.length = (hdrAt s.disk h).fileLength := rfl
  have hmax := hm.node.length_le
  rw [← hlen]
  obtain ⟨s₁, -, hwp⟩ := readAt_fetched hq hm.holds ho num pos
  constructor
  · rintro ⟨hresult, -⟩
    by_contra hbad
    rw [hwp, if_neg (by omega)] at hresult
    obtain ⟨bytes, s₂, ⟨hr, hl⟩, -⟩ := (hresult.and (length_readRange hresult)).exists_iff
    obtain ⟨hpos, hne⟩ := @clamp_ne hm.node.length num pos (by omega) hmax (by omega) hn₂ hp₁
      (by omega)
    split at hr
    · exact hne (by omega) (by omega)
    · omega
  · intro hok
    by_cases hnone : num ≤ 0 ∨ pos ≥ hm.node.length
    · refine ⟨?_, fun b hb => ?_⟩
      · rw [hwp, if_pos hnone, wp_pure, if_neg (by omega)]
        rfl
      · rw [readBlocks, if_pos hnone] at hb
        cases hb
    · refine ⟨?_, fun b hb =>
        readBlocks_inside (by omega) (by omega) hmax (by omega) (by omega) hb⟩
      obtain ⟨p, rfl⟩ := Int.eq_ofNat_of_zero_le (show 0 ≤ pos by omega)
      refine wp_readAt hq hm.holds ho (by omega) fun s' _ => ?_
      have hsize := hm.node.size
      rw [if_pos (by omega), List.length_take, List.length_drop]
      omega

/-- A request that reaches over the end of a file of four bytes. -/
theorem readAt_clamps_tiny : ReadsInside (tiny 3) 0 4 100 1 := by
  have hlen : (hdrAt (tiny 3).disk 2).fileLength = 4 := by decide +kernel
  have hclamps := readAt_clamps_iff (s := tiny 3) (f := 0) ⟨fun _ _ => rfl, rfl⟩ ⟨by decide, rfl⟩
    mapsOffsets_tiny 100 1
  rw [hlen] at hclamps
  exact hclamps.mpr (.inr (.inr (by decide)))

/-- At position -1, the copy starts before the buffer. -/
theorem readAt_before_buffer : MapsOffsets (tiny 3).disk 2 [1] [3] ∧
    ¬ ReadsInside (tiny 3) 0 (hdrAt (tiny 3).disk 2).fileLength 1 (-1) :=
  ⟨mapsOffsets_tiny, fun h => not_wp_of_value (by decide +kernel) h.result⟩

end Nachos
