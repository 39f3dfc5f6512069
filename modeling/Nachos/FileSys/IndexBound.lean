import Nachos.Lib.History
import Nachos.FileSys.Built

/-! A header has 25 index tables, and the disk has more sectors than those can list. When does a
call of `Allocate` or `ExtendAllocate` use an entry that the table does not have? -/

namespace Nachos
open Lib Program FileHeader

variable {f : Handle} {m₀ m m' : BitMap} {s s' : Kernel} {hdr : FileHeader} {k i count extra : Nat}

/-! ## One call -/

/-- The loop of `Allocate` leaves the index table just if it has more than 25 tables to fill, as
long as the clear bits last for the tables before. -/
theorem faults_allocateTables_iff {temp : Int} (hm : m.numBits = 1024) (hc : count = (k + 31) / 32)
    (ht : count ≠ 0 → temp = k) (hi : i ≤ 25)
    (hbits : 25 < i + count → i < 25 → 33 * (24 - i) + 1 ≤ m.free.length) :
    Faults (allocateTables hdr m temp i count) s ↔ 25 < i + count := by
  induction count generalizing s m k i temp hdr with
  | zero => exact iff_of_false not_faults_pure (by omega)
  | succ count ih =>
    obtain rfl := ht (by omega)
    rw [allocateTables]
    by_cases h25 : i < 25
    · cases hf : m.free with
      | nil =>
        -- no sector for this table, so the loop ends here
        rw [hf, List.length_nil] at hbits
        simp only [BitMap.find_of_free_nil hf, faults_then,
          not_faults_assert (decide_eq_true h25), wp_assert (decide_eq_true h25),
          not_faults_freshMemory, wp_freshMemory, not_faults_writeSector, false_or]
        exact iff_of_false (not_wp_writeSector (by decide)) (by omega)
      | cons t rest =>
        have htl : t < 1024 := hm ▸ (BitMap.mem_free.mp (hf ▸ List.mem_cons_self ..)).1
        obtain ⟨hfree, hb⟩ := free_fillTable (s.host s.tick) (m.markBit t) 0 (min (k : Int) 32).toNat
        rw [BitMap.free_markBit hf] at hfree
        rw [hf, List.length_cons] at hbits
        simp only [BitMap.find_of_free_cons hf, faults_then,
          not_faults_assert (decide_eq_true h25), wp_assert (decide_eq_true h25),
          not_faults_freshMemory, wp_freshMemory, not_faults_writeSector, wp_writeSector htl,
          false_or]
        rw [ih (k := k - 32) (hb.trans hm) (by omega) (fun h => by split <;> omega) (by omega) ?_]
        · omega
        · intro h h'
          rw [hfree, List.length_drop]
          omega
    · have hout : decide (i < 25) = false := decide_eq_false h25
      rw [faults_then, faults_assert]
      exact iff_of_true (.inl hout) (by omega)

theorem faults_extendTables_iff {temp : Int} (hm : m.numBits = 1024) :
    Faults (extendTables f m temp i count) (s.withHdr f hdr) ↔
      Faults (allocateTables hdr m temp i count) s := by
  induction count generalizing s m temp i hdr with
  | zero => exact iff_of_false not_faults_pure not_faults_pure
  | succ count ih =>
    rw [extendTables, allocateTables]
    by_cases hi : i < 25
    · have hin : decide (0 ≤ (i : Int) ∧ (i : Int) < 25) = true := decide_eq_true (by omega)
      cases hf : m.free with
      | nil =>
        have hneg : (BitVec.ofInt 32 (-1)).toInt < 0 := by decide
        simp only [BitMap.find_of_free_nil hf, modifyHdr, getHdr, faults_then,
          not_faults_assert hin, not_faults_assert (decide_eq_true hi), not_faults_getFile,
          not_faults_setFile, not_faults_pure, not_faults_orFault_some, not_faults_freshMemory,
          not_faults_writeSector, false_or, wp_then, wp_getFile, wp_setFile, wp_pure, wp_assert hin,
          wp_assert (decide_eq_true hi), wp_freshMemory, Int.toNat_natCast,
          Kernel.setFile_files, Function.update_self, entry_setEntry hi, wp_orFault_some]
        exact iff_of_false (not_wp_writeSector hneg) (not_wp_writeSector (by decide))
      | cons t rest =>
        have htl : t < 1024 := hm ▸ (BitMap.mem_free.mp (hf ▸ List.mem_cons_self ..)).1
        simp only [BitMap.find_of_free_cons hf, modifyHdr, getHdr, faults_then,
          not_faults_assert hin, not_faults_assert (decide_eq_true hi), not_faults_getFile,
          not_faults_setFile, not_faults_pure, not_faults_orFault_some, not_faults_freshMemory,
          not_faults_writeSector, false_or, wp_then, wp_getFile, wp_setFile, wp_pure, wp_assert hin,
          wp_assert (decide_eq_true hi), wp_freshMemory, Int.toNat_natCast,
          Kernel.setFile_files, Function.update_self, entry_setEntry hi, wp_orFault_some,
          BitVec.ofInt_natCast, toInt_ofNat_sector htl, wp_writeSector htl]
        have hbits := (free_fillTable (s.host s.tick) (m.markBit t) 0 (min temp 32).toNat).2
        rw [← ih (hbits.trans hm)]
        simp only [Kernel.setFile, Kernel.setDisk, Function.update_idem, Kernel.withHdr]
        rfl
    · have hin : decide (0 ≤ (i : Int) ∧ (i : Int) < 25) = false := decide_eq_false (by omega)
      rw [faults_then, faults_then, faults_assert, faults_assert]
      exact iff_of_true (.inl hin) (.inl (decide_eq_false hi))

theorem faults_allocate_iff (hm : m.numBits = 1024) (size : ByteCount) {ty : Int} :
    Faults (hdr.allocate m size ty) s ↔ ¬ (m.numClear < size.sectors ∨ size.sectors ≤ 800) := by
  rw [allocate, faults_then, size.divRoundUp_eq]
  simp only [time, faults_then, not_faults_freshMemory, not_faults_pure, wp_freshMemory, wp_then,
    wp_pure, false_or, or_false]
  split
  · next hfew => exact iff_of_false not_faults_pure (not_not_intro (.inl (by omega)))
  · next hfew =>
    rw [BitMap.numClear_eq] at hfew
    have hcap := tablesFor_le_iff (k := size.sectors)
    simp only [faults_then, divRoundUp_toNat_32, Int.toNat_natCast, not_faults_pure, not_wp_false,
      or_false]
    rw [faults_allocateTables_iff (k := size.sectors) hm (by rw [tablesFor]) (fun _ => rfl)
      (Nat.zero_le 25) fun h _ => by omega, BitMap.numClear_eq]
    omega

theorem not_faults_extendLastTable (hval : (s.files f).hdr.ValidTables (tablesFor k)) :
    ¬ Faults (extendLastTable f m k extra) s := by
  by_cases hr : k % 32 = 0
  · rw [extendLastTable_full hr]
    exact not_faults_pure
  · obtain ⟨t, htl, he⟩ := hval (k / 32) (by rw [tablesFor]; omega)
    have hmod : (k : Int).tmod 32 = (k % 32 : Nat) := by
      rw [Int.tmod_eq_emod_of_nonneg (by omega)]; omega
    have hdiv : divRoundUp k 32 - 1 = (k / 32 : Nat) := by
      rw [divRoundUp_of_nonneg (by omega)]
      split <;> omega
    have hne : ¬ ((k % 32 : Nat) : Int) = 0 := by omega
    have hpos : decide (0 ≤ ((k % 32 : Nat) : Int)) = true := decide_eq_true (by omega)
    simp only [extendLastTable, getHdr, hmod, if_neg hne, hdiv, faults_then, wp_then, wp_getFile,
      wp_pure, he, wp_orFault_some, not_faults_getFile, not_faults_pure, not_faults_orFault_some,
      not_faults_readSector, not_faults_writeSector, not_faults_assert hpos,
      toInt_ofNat_sector htl, wp_readSector htl, wp_assert hpos, wp_writeSector htl, or_false,
      not_false_eq_true]

theorem faults_takeSectors_iff (hc : Drawn f m₀ m s k) (hclear : extra ≤ m.numClear) :
    Faults (takeSectors f m extra) s ↔ 800 < k + extra := by
  obtain ⟨temp, m₁, s₁, hiff, htemp, -, hbits, hfree⟩ :=
    exists_extendLastTable (m := m) extra hc.valid
  have hmono := tablesFor_mono k extra
  have hcap := tablesFor_le_iff (k := k + extra)
  have hcap' := tablesFor_le_iff.mpr hc.cap
  have hcount : (divRoundUp ((extra : Int) + k) 32 - divRoundUp (k : Nat) 32).toNat =
      tablesFor (k + extra) - tablesFor k := by
    rw [show (extra : Int) + k = ((k + extra : Nat) : Int) by omega, divRoundUp_natCast_32,
      divRoundUp_natCast_32]
    omega
  simp only [takeSectors, getHdr, modifyHdr, faults_then, wp_then, wp_getFile, wp_pure,
    hc.numSectors, not_faults_getFile, not_faults_setFile, not_faults_pure,
    not_faults_extendLastTable hc.valid, hcount, not_wp_false, false_or, or_false]
  rw [hiff, divRoundUp_natCast_32, ← s₁.withHdr_self f, faults_extendTables_iff (hbits.trans hc.numBits),
    faults_allocateTables_iff (k := extra - min extra (lastRoom k)) (hbits.trans hc.numBits)
      (newTables_eq k extra) (fun hne => htemp (by omega)) hcap' fun h25 hi => ?_]
  · omega
  · rw [BitMap.numClear_eq] at hclear
    rw [hfree, List.length_drop]
    rw [lastRoom]
    rw [tablesFor] at hi h25 ⊢
    rw [tablesFor] at h25
    omega

/-- The file of `f` has room for `e` more bytes, by the computation of `ExtendAllocate`. -/
def HasRoom (f : Handle) (s : Kernel) (e : Int) : Prop :=
  divRoundUp (int32 ((s.files f).hdr.numBytes.toInt + e)) 128 ≤ (s.files f).hdr.numSectors.toInt

/-- The index table has the entries that `ExtendAllocate` will use for `e` more bytes. -/
def FitsTable (f : Handle) (m : BitMap) (s : Kernel) (e : ByteCount) : Prop :=
  HasRoom f s e ∨ m.numClear < e.sectors ∨ (s.files f).hdr.numSectors.toInt + e.sectors ≤ 800

theorem faults_extendAllocate_iff (hc : Drawn f m₀ m s k) {e : ByteCount} :
    Faults (extendAllocate f m e) s ↔ ¬ FitsTable f m s e := by
  have hc₁ := hc.lengthen e
  rw [FitsTable, hc.numSectors]
  simp only [extendAllocate, getHdr, modifyHdr, faults_then, wp_getFile, wp_then, wp_pure,
    not_faults_getFile, not_faults_pure, false_or, e.divRoundUp_eq]
  split
  · next hroom =>
    refine iff_of_false ?_ (not_not_intro (.inl hroom))
    simp only [faults_then, wp_getFile, wp_then, wp_setFile, not_faults_getFile, not_faults_setFile,
      not_faults_pure, or_self, not_false_eq_true]
  · next hroom =>
    rw [or_iff_right (show ¬ HasRoom f s e from hroom)]
    simp only [faults_then, wp_getFile, wp_then, wp_setFile, not_faults_getFile, not_faults_setFile,
      false_or]
    split
    · next hfew => exact iff_of_false not_faults_pure (not_not_intro (.inl (by omega)))
    · next hfew =>
      simp only [faults_then, not_faults_pure, not_wp_false, or_false]
      exact (faults_takeSectors_iff hc₁ (by omega)).trans (by omega)

/-! ## A file's history -/

def extendStep (f : Handle) (now : BitMap × Kernel) (e : ByteCount) : Option (BitMap × Kernel) :=
  match (extendAllocate f now.1 e).run Kernel.exec now.2 with
  | .done (true, m') s' => some (m', s')
  | _ => none

theorem extendStep_eq_some_iff {now now' : BitMap × Kernel} {e : ByteCount} :
    extendStep f now e = some now' ↔
      (extendAllocate f now.1 e).run Kernel.exec now.2 = .done (true, now'.1) now'.2 := by
  rw [extendStep]
  split
  · next m' s' h =>
    rw [h]
    constructor
    · rintro ⟨⟩
      rfl
    · intro he
      cases he
      rfl
  · next h =>
    refine iff_of_false (fun he => ?_) fun he => h _ _ he
    cases he

/-- The entries that `Deallocate` goes through are in the table, and `ByteToSector` finds its entry
there for every byte of the file. -/
structure InTable (f : Handle) (s : Kernel) : Prop where
  used : divRoundUp (s.files f).hdr.numSectors.toInt 32 ≤ 25
  offset : ∀ off : Int, 0 ≤ off → off < (s.files f).hdr.numBytes.toInt →
    ¬ Faults (byteToSector f off) s

theorem Counted.inTable (hc : Counted f m₀ m s k) : InTable f s where
  used := by
    have := tablesFor_le_iff.mpr hc.cap
    rw [hc.numSectors, divRoundUp_natCast_32]
    omega
  offset off h0 hlt := by
    have hbytes := hc.bytes
    have hq : off.tdiv 4096 = (off.toNat / 4096 : Nat) := by
      rw [Int.tdiv_eq_ediv_of_nonneg h0]
      omega
    obtain ⟨t, htl, he⟩ := hc.valid (off.toNat / 4096) (by rw [tablesFor]; omega)
    have hpos : decide (0 ≤ (off.tmod 4096).tdiv 128) = true := by
      rw [Int.tmod_eq_emod_of_nonneg h0, Int.tdiv_eq_ediv_of_nonneg (by omega)]
      exact decide_eq_true (by omega)
    simp only [byteToSector, getHdr, hq, faults_then, wp_then, wp_getFile, wp_pure, he,
      wp_orFault_some, not_faults_getFile, not_faults_pure, not_faults_orFault_some,
      not_faults_readSector, toInt_ofNat_sector htl, wp_readSector htl, not_faults_assert hpos,
      wp_assert hpos, or_self, not_false_eq_true]

/-- This call leaves no array, and the header it leaves can be used without leaving the table. -/
def StaysInTable (f : Handle) (now : BitMap × Kernel) (e : ByteCount) : Prop :=
  ¬ Faults (extendAllocate f now.1 e) now.2 ∧
    ∀ now', extendStep f now e = some now' → InTable f now'.2

/-- In the whole history of a file no call uses an entry that the index table does not have. -/
def IndexInRange (f : Handle) (m₀ : BitMap) (hdr : FileHeader) (s : Kernel) (size : ByteCount)
    (ty : Int) (es : List ByteCount) : Prop :=
  ¬ Faults (hdr.allocate m₀ size ty) s ∧ ∀ hdr' m s',
    (hdr.allocate m₀ size ty).run Kernel.exec s = .done (true, hdr', m) s' →
    InTable f (s'.withHdr f hdr') ∧
      History.Along (extendStep f) (StaysInTable f) (m, s'.withHdr f hdr') es

/-- No call asks for more than 800 sectors in all, unless it is refused or needs none. -/
def SizesInRange (f : Handle) (m₀ : BitMap) (hdr : FileHeader) (s : Kernel) (size : ByteCount)
    (ty : Int) (es : List ByteCount) : Prop :=
  (m₀.numClear < size.sectors ∨ size.sectors ≤ 800) ∧ ∀ hdr' m s',
    (hdr.allocate m₀ size ty).run Kernel.exec s = .done (true, hdr', m) s' →
    History.Along (extendStep f) (fun now e => FitsTable f now.1 now.2 e) (m, s'.withHdr f hdr') es

theorem indexInRange_iff (hm₀ : m₀.numBits = 1024) (size : ByteCount) (ty : Int)
    (es : List ByteCount) :
    IndexInRange f m₀ hdr s size ty es ↔ SizesInRange f m₀ hdr s size ty es := by
  refine and_congr ?_ (forall_congr' fun hdr' => forall₂_congr fun m s' =>
    forall_congr' fun hr => ?_)
  · rw [faults_allocate_iff hm₀ size, not_not]
  · have hc := counted_of_allocate (f := f) hm₀ hr
    rw [and_iff_right hc.inTable]
    refine History.along_congr (fun now => ∃ k, Counted f m₀ now.1 now.2 k) ?_ ?_ ⟨_, hc⟩
    · rintro now e ⟨k, hc⟩
      rw [StaysInTable, faults_extendAllocate_iff hc.toDrawn, not_not]
      refine and_iff_left fun now' he => ?_
      obtain ⟨-, -, hc'⟩ | ⟨-, hc'⟩ := hc.extend (extendStep_eq_some_iff.mp he)
      · exact hc'.inTable
      · exact hc'.inTable
    · rintro now e now' ⟨k, hc⟩ - he
      obtain ⟨-, -, hc'⟩ | ⟨-, hc'⟩ := hc.extend (extendStep_eq_some_iff.mp he)
      · exact ⟨_, hc'⟩
      · exact ⟨_, hc'⟩

/-- A file of one full table that is extended by three sectors. -/
theorem indexInRange_iff_emptyMap :
    IndexInRange 0 emptyMap blankHdr .zeroed ⟨4096, by decide⟩ 0 [⟨300, by decide⟩] := by
  refine (indexInRange_iff numBits_emptyMap _ _ _).mpr ⟨.inr (by decide), fun hdr' m s' hr => ?_⟩
  have hnum := (counted_of_allocate (f := 0) numBits_emptyMap hr).numSectors
  refine ⟨.inr (.inr ?_), fun _ _ => trivial⟩
  rw [hnum]
  decide

/-- On an empty disk, `Allocate` takes 801 sectors for a file and uses a 26th table. -/
theorem allocate_pastTable : emptyMap.numClear = 1024 ∧
    Faults (blankHdr.allocate emptyMap (801 * 128) 0) .zeroed := by
  refine ⟨numClear_emptyMap,
    (faults_allocate_iff numBits_emptyMap ⟨801 * 128, by decide⟩).mpr ?_⟩
  rw [numClear_emptyMap]
  decide

end Nachos
