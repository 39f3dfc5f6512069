import Nachos.FileSys.Grow

/-! `FileHeader::Allocate` on any free map. It asks the map for as many clear bits as the file has
data sectors, and takes bits for the index tables as well. -/

namespace Nachos
open Lib Program FileHeader

theorem tablesFor_le_iff {k : Nat} : tablesFor k ≤ 25 ↔ k ≤ 800 := by
  rw [tablesFor]
  omega

structure FileHeader.Records (hdr : FileHeader) (d : Nat → Sector) (index data : List Nat) :
    Prop where
  numSectors : hdr.numSectors.toInt = data.length
  tables : index.length = tablesFor data.length
  lists : ∀ (i : Nat) t, index[i]? = some t → hdr.entry i = some (.ofNat 32 t)
  leads : Leads d index data

/-- `m'` is `m` with the bits `xs` set, which are different ones and were clear. -/
structure BitMap.Takes (m m' : BitMap) (xs : List Nat) : Prop where
  nodup : xs.Nodup
  valid : ∀ x ∈ xs, x < 1024
  clear : ∀ x ∈ xs, m.testBit x = false
  set : ∀ x, m'.testBit x = (decide (x ∈ xs) || m.testBit x)

theorem BitMap.takes_markAll {m : BitMap} (hm : m.numBits = 1024) {L rest xs : List Nat}
    (hf : m.free = L ++ rest) (hp : xs.Perm L) : m.Takes (m.markAll L) xs := by
  have hfree : ∀ x ∈ L, x < m.numBits ∧ m.testBit x = false := fun x hx =>
    BitMap.mem_free.mp (hf ▸ List.mem_append_left _ hx)
  refine ⟨hp.nodup_iff.mpr (List.nodup_append'.mp (hf ▸ m.free_nodup)).1, fun x hx => ?_,
    fun x hx => (hfree x (hp.subset hx)).2, fun x => ?_⟩
  · exact hm ▸ (hfree x (hp.subset hx)).1
  · rw [BitMap.testBit_markAll fun y hy => (hfree y hy).1]
    congr 2
    exact propext hp.symm.mem_iff

/-- What `Allocate(m, size)` should have done when it returns `ok` with the header `hdr` and the
map `m'`. -/
structure AllOrNothing (m : BitMap) (size : Int) (s : Kernel) (ok : Bool) (hdr : FileHeader)
    (m' : BitMap) (s' : Kernel) : Prop where
  enough : ok = true ↔ sectorsFor (divRoundUp size 128).toNat ≤ m.numClear
  all : ok = true → ∃ index data, hdr.Records s'.disk index data ∧
    data.length = (divRoundUp size 128).toNat ∧ m.Takes m' (index ++ data)
  nothing : ok = false → m' = m ∧ s'.disk = s.disk

section allocate
variable {s : Kernel} {m : BitMap} {hdr : FileHeader} {size ty : Int}

theorem wp_allocate_iff {Q : Bool × FileHeader × BitMap → Kernel → Prop}
    (h : ¬ (m.numClear : Int) < divRoundUp size 128) :
    Wp (hdr.allocate m size ty) Q s ↔
      Wp (allocateTables { hdr with
          numBytes := .ofInt 32 size
          numSectors := .ofInt 32 (divRoundUp size 128)
          fileType := .ofInt 32 ty
          createTime := s.host s.tick 0 } m (divRoundUp size 128) 0
        (tablesFor (divRoundUp size 128).toNat)) (fun r => Q (true, r.1, r.2))
        { s with tick := s.tick + 1 } := by
  simp only [allocate, wp_then, wp_time, if_neg h, wp_pure, divRoundUp_toNat_32]

/-- `Allocate` keeps what it should keep just if the clear bits are too few for the data sectors
alone, or suffice for the index tables too, of which there are at most 25. -/
theorem allocate_allOrNothing_iff (hm : m.numBits = 1024) (h0 : 0 ≤ size)
    (hsize : size < 2147483648) :
    Wp (hdr.allocate m size ty) (fun r s' => AllOrNothing m size s r.1 r.2.1 r.2.2 s') s ↔
      (m.numClear : Int) < divRoundUp size 128 ∨
        sectorsFor (divRoundUp size 128).toNat ≤ m.numClear ∧ divRoundUp size 128 ≤ 800 := by
  have hpos : 0 ≤ divRoundUp size 128 := by
    rw [divRoundUp_of_nonneg h0]
    split <;> omega
  obtain ⟨k, hk⟩ := Int.eq_ofNat_of_zero_le hpos
  have hkn : (divRoundUp size 128).toNat = k := by rw [hk, Int.toNat_natCast]
  rw [hkn, hk]
  constructor
  · intro h
    by_cases hfew : (m.numClear : Int) < k
    · exact .inl hfew
    · rw [← hk] at hfew
      rw [wp_allocate_iff hfew, hk] at h
      obtain ⟨r, s', ⟨hall, -, h25, -⟩, -⟩ := (allocateTables_returns hm rfl (fun _ => rfl) h).exists_iff
      have henough := hall.enough.mp rfl
      rw [hkn] at henough
      refine .inr ⟨henough, ?_⟩
      by_cases ht : tablesFor k = 0
      · rw [tablesFor] at ht
        omega
      · have := tablesFor_le_iff.mp (Nat.zero_add (tablesFor k) ▸ h25 ht)
        omega
  · rintro (hfew | ⟨henough, hcap⟩)
    · refine wp_allocate_refused (by rwa [hk]) fun hdr' s' hd _ => ⟨?_, fun h => ?_, fun _ => ⟨rfl, hd⟩⟩
      · rw [hkn]
        refine iff_of_false Bool.false_ne_true fun h => ?_
        rw [sectorsFor] at h
        omega
      · cases h
    · have hlen : (m.free.take (sectorsFor k)).length = k + tablesFor k := by
        rw [List.length_take, ← BitMap.numClear_eq, min_eq_left henough, sectorsFor]
      refine wp_allocate (by omega) hsize hkn.symm hm (tablesFor_le_iff.mpr (by omega))
        (List.take_append_drop _ _).symm hlen ?_
      intro hdr' s' index data hp _ hi hd hl _ _ _ hnum htab _
      refine ⟨?_, fun _ => ⟨index, data, ?_, ?_, ?_⟩, fun h => ?_⟩
      · rw [hkn]
        exact iff_of_true rfl henough
      · exact ⟨by rw [hnum, hk, hd], by rw [hi, hd], hl, htab.leads⟩
      · rw [hkn, hd]
      · exact BitMap.takes_markAll hm (List.take_append_drop _ _).symm hp
      · cases h

theorem wp_allocate_lastBit {t : Nat} (hf : m.free = [t]) (ht : t < 1024) :
    Wp (hdr.allocate m 1 ty) (fun r s' => r.1 = true ∧ r.2.1.entry 0 = some (.ofNat 32 t) ∧
      ((s'.disk t).word 0).toInt = -1) s := by
  have hfew : ¬ (m.numClear : Int) < divRoundUp 1 128 := by
    rw [BitMap.numClear_eq, hf, List.length_singleton]
    decide
  have hfull := BitMap.find_of_free_nil (BitMap.free_markBit hf)
  have hcount : tablesFor (divRoundUp 1 128).toNat = 1 := by decide
  have hone : (min (divRoundUp 1 128) 32).toNat = 1 := by decide
  rw [wp_allocate_iff hfew]
  simp only [hcount, hone, allocateTables, BitMap.find_of_free_cons hf, wp_then,
    wp_assert (decide_eq_true (show 0 < 25 by decide)), wp_freshMemory, fillTable, hfull,
    wp_writeSector ht, wp_pure, Kernel.setDisk_disk, Function.update_self, BitVec.ofInt_natCast]
  refine ⟨trivial, entry_setEntry (by decide) _, ?_⟩
  rw [Sector.word_ofWords (by decide), Function.update_self]
  decide

end allocate

def blankHdr : FileHeader := .ofSector (.ofWords fun _ => 0)

def emptyMap : BitMap := .new (fun _ => 0) 1024

theorem numBits_emptyMap : emptyMap.numBits = 1024 := BitMap.numBits_new ..

theorem free_emptyMap : emptyMap.free = List.range 1024 := BitMap.free_new ..

theorem numClear_emptyMap : emptyMap.numClear = 1024 := by
  rw [BitMap.numClear_eq, free_emptyMap, List.length_range]

/-- A file of three sectors on an empty disk. -/
theorem allocate_allOrNothing_iff_emptyMap :
    Wp (blankHdr.allocate emptyMap 300 0)
      (fun r s' => AllOrNothing emptyMap 300 .zeroed r.1 r.2.1 r.2.2 s') .zeroed := by
  refine (allocate_allOrNothing_iff numBits_emptyMap (by decide) (by decide)).mpr (.inr ⟨?_, ?_⟩)
  · rw [numClear_emptyMap]
    decide
  · decide

def oneLeft : BitMap := emptyMap.markAll (List.range 1023)

theorem free_oneLeft : oneLeft.free = [1023] :=
  BitMap.free_markAll (free_emptyMap.trans List.range_succ)

/-- The last sector becomes the index table, and the file's only data sector is -1. -/
theorem allocate_oneLeft :
    Wp (blankHdr.allocate oneLeft 1 0)
      (fun r s' => r.1 = true ∧ r.2.1.entry 0 = some (.ofNat 32 1023) ∧
        ((s'.disk 1023).word 0).toInt = -1) .zeroed :=
  wp_allocate_lastBit free_oneLeft (by decide)

end Nachos
