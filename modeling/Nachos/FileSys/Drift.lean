import Nachos.FileSys.IndexBound

/-! `ExtendAllocate` computes the number of new sectors from the new bytes alone. When does the
header then hold as many sectors as `Allocate` would give a file of that length? -/

namespace Nachos
open Lib Program FileHeader

variable {f : Handle} {m₀ m m' : BitMap} {s s' : Kernel} {k extra : Nat}

theorem int32_wrap {x : Int} (h₁ : 2147483648 ≤ x) (h₂ : x < 4294967296) :
    int32 x = x - 4294967296 := by
  rw [int32, BitVec.toInt_ofInt, Int.bmod_def]
  omega

theorem takeSectors_completes (hc : Drawn f m₀ m s k) (hcap : k + extra ≤ 800)
    (hbits : extra + (tablesFor (k + extra) - tablesFor k) ≤ m.numClear) :
    Wp (takeSectors f m extra) (fun _ _ => True) s := by
  obtain ⟨temp, m₁, s₁, hiff, htemp, -, hnum, hfree⟩ :=
    exists_extendLastTable (m := m) extra hc.valid
  have hmono := tablesFor_mono k extra
  have h25 := tablesFor_le_iff.mpr hcap
  have hnew := newTables_eq k extra
  rw [BitMap.numClear_eq] at hbits
  rw [wp_takeSectors_iff hc.numSectors, hiff]
  refine wp_extendTables (k := extra - min extra (lastRoom k)) (hnum.trans hc.numBits) hnew
    (fun hne => htemp (by omega)) (by omega) (List.take_append_drop
      (extra - min extra (lastRoom k) + (tablesFor (k + extra) - tablesFor k)) _).symm ?_
    fun _ _ _ _ _ _ _ _ _ _ => trivial
  rw [hfree, List.length_take, List.length_drop]
  omega

/-! ## One call -/

def slack (f : Handle) (s : Kernel) : Int :=
  128 * (s.files f).hdr.numSectors.toInt - (s.files f).hdr.numBytes.toInt

/-- The sectors, index tables among them, that the file lacks for `e` more bytes. -/
def lacking (f : Handle) (s : Kernel) (e : Int) : Nat :=
  sectorsFor (divRoundUp ((s.files f).hdr.numBytes.toInt + e) 128).toNat -
    sectorsFor (s.files f).hdr.numSectors.toInt.toNat

/-- The call leaves the header as `Allocate` would have made it for the new length, taking just
the sectors that were lacking; or they are not there and it answers FALSE. -/
def GrowsExactly (f : Handle) (m : BitMap) (s : Kernel) (e : ByteCount) : Prop :=
  Wp (extendAllocate f m e) (fun r s' =>
    if r.1 = true then
      (s'.files f).hdr.numBytes.toInt = (s.files f).hdr.numBytes.toInt + e ∧
      (s'.files f).hdr.numSectors.toInt = divRoundUp ((s.files f).hdr.numBytes.toInt + e) 128 ∧
      r.2.numClear + lacking f s e = m.numClear
    else m.numClear < lacking f s e) s

/-- The new length is an `int`, and the new bytes fit into the last sector; or there are too few
clear bits both for the sectors that are lacking and by the computation of the code; or the bytes
that do not fill a sector need one of their own, and the bits and the entries are there. -/
def KeepsPace (f : Handle) (m : BitMap) (s : Kernel) (e : ByteCount) : Prop :=
  (s.files f).hdr.numBytes.toInt + e < 2147483648 ∧
    ((e : Int) ≤ slack f s ∨
      m.numClear < e.sectors ∧ m.numClear < lacking f s e ∨
      slack f s < (e - 1) % 128 + 1 ∧ lacking f s e ≤ m.numClear ∧
        (s.files f).hdr.numSectors.toInt + e.sectors ≤ 800)

structure Snug (f : Handle) (m₀ m : BitMap) (s : Kernel) (k : Nat) : Prop
    extends Counted f m₀ m s k where
  nonneg : 0 ≤ (s.files f).hdr.numBytes.toInt
  exact : (k : Int) = divRoundUp (s.files f).hdr.numBytes.toInt 128

theorem takeSectors_exactly_iff (hc : Drawn f m₀ m s k) (extra new : Nat) :
    Wp (takeSectors f m extra) (fun m' s' =>
        (s'.files f).hdr.numBytes.toInt = (s.files f).hdr.numBytes.toInt ∧
        (s'.files f).hdr.numSectors.toInt = new ∧
        m'.numClear + (sectorsFor new - sectorsFor k) = m.numClear) s ↔
      new = k + extra ∧ sectorsFor new - sectorsFor k ≤ m.numClear ∧ k + extra ≤ 800 := by
  have hadd := sectorsFor_add k extra
  constructor
  · intro h
    obtain ⟨m', s', ⟨⟨-, hnum, hclear⟩, hlen⟩, -⟩ :=
      (takeSectors_returns hc.numBits hc.numSectors hc.valid h).exists_iff
    have hcap : k + extra ≤ 800 := hc.cap_of_lengthened hlen
    rw [hlen.rest] at hnum
    have hnew : ((k + extra : Nat) : Int) = new :=
      (toInt_ofInt_of_range (by omega) (by omega)).symm.trans hnum
    exact ⟨by omega, by omega, hcap⟩
  · rintro ⟨rfl, hbits, hcap⟩
    have hbits' : extra + (tablesFor (k + extra) - tablesFor k) ≤ m.numClear := by omega
    refine (takeSectors_returns hc.numBits hc.numSectors hc.valid
      (takeSectors_completes hc hcap hbits')).mono ?_
    rintro m' s' ⟨-, hlen⟩
    rw [hlen.rest]
    refine ⟨rfl, toInt_ofInt_of_range (by omega) (by omega), ?_⟩
    rw [BitMap.numClear_eq] at hbits' ⊢
    rw [hlen.free, List.length_drop, BitMap.numClear_eq]
    omega

theorem growsExactly_iff (hs : Snug f m₀ m s k) (e : ByteCount) :
    GrowsExactly f m s e ↔ KeepsPace f m s e := by
  have hnn := hs.nonneg
  have hex := hs.exact
  have hcap := hs.cap
  obtain ⟨he0, he⟩ := e.2
  have hsec := e.divRoundUp_eq
  rw [divRoundUp_128 he0] at hsec
  rw [divRoundUp_128 hnn] at hex
  set B := (s.files f).hdr.numBytes.toInt with hB
  have hnew := divRoundUp_128 (n := B + e) (by omega)
  have hslack : slack f s = 128 * k - B := by rw [slack, hs.numSectors]
  obtain ⟨new, hn⟩ : ∃ new : Nat, ((B + e + 127) / 128 : Int) = new :=
    Int.eq_ofNat_of_zero_le (by omega)
  have hlack : lacking f s e = sectorsFor new - sectorsFor k := by
    rw [lacking, hs.numSectors, ← hB, hnew, hn, Int.toNat_natCast, Int.toNat_natCast]
  rw [GrowsExactly, KeepsPace, wp_extendAllocate_iff, hslack, hlack, hs.numSectors, ← hB, hnew, hn,
    e.divRoundUp_eq]
  by_cases hint : B + e < 2147483648
  · rw [and_iff_right hint, int32_of_range (by omega) hint, hnew, hn]
    have hbytes : ((s.lengthen f e).files f).hdr.numBytes.toInt = B + e := by
      rw [numBytes_lengthen, int32_of_range (by omega) hint]
    have hnum := (hs.toDrawn.lengthen e).numSectors
    by_cases hroom : (new : Int) ≤ k
    · -- the last sector has room
      obtain rfl : new = k := by omega
      rw [if_pos hroom, if_pos rfl]
      refine iff_of_true ⟨hbytes, hnum, ?_⟩ (.inl (by omega))
      rw [Nat.sub_self, Nat.add_zero]
    · have hless : ¬ (e : Int) ≤ 128 * k - B := by omega
      rw [if_neg hroom, or_iff_right hless]
      split
      · next hfew =>
        -- the call is refused
        rw [if_neg Bool.false_ne_true]
        refine ⟨fun h => .inl ⟨by omega, h⟩, ?_⟩
        rintro (⟨-, h⟩ | ⟨hlast, hbits, -⟩)
        · exact h
        · have := sectorsFor_add k e.sectors
          rw [show new = k + e.sectors by omega] at hbits
          omega
      · next hfew =>
        have hiff := takeSectors_exactly_iff (hs.toDrawn.lengthen e) e.sectors new
        rw [hbytes] at hiff
        simp only [if_true]
        rw [hiff, or_iff_right (by omega)]
        have : new = k + e.sectors ↔ 128 * (k : Int) - B < (e - 1) % 128 + 1 := by omega
        rw [this]
        exact and_congr_right fun _ => and_congr_right fun _ => by omega
  · -- the new length wraps around to a negative number, for which every file has room
    have hneg := int32_wrap (x := B + e) (by omega) (by omega)
    have hle : divRoundUp (int32 (B + e)) 128 ≤ (k : Int) := by
      rw [divRoundUp_of_nonpos (by omega) (by decide)]
      omega
    rw [if_pos hle, if_pos rfl, numBytes_lengthen, ← hB, hneg]
    refine iff_of_false (fun h => ?_) fun h => hint h.1
    have := h.1
    omega

/-! ## A file's history -/

theorem snug_of_allocate {hdr hdr' : FileHeader} {size : ByteCount} {ty : Int}
    (hm₀ : m₀.numBits = 1024)
    (h : (hdr.allocate m₀ size ty).run Kernel.exec s = .done (true, hdr', m) s') :
    Snug f m₀ m (s'.withHdr f hdr') size.sectors := by
  have hbytes := (header_of_allocate (f := f) hm₀ h).2
  refine ⟨counted_of_allocate hm₀ h, ?_, ?_⟩
  · rw [Kernel.setFile_files, Function.update_self]
    exact hbytes ▸ size.2.1
  · rw [Kernel.setFile_files, Function.update_self]
    exact hbytes ▸ size.divRoundUp_eq.symm

theorem Snug.extend (hs : Snug f m₀ m s k) {e : ByteCount} (hg : GrowsExactly f m s e)
    (h : (extendAllocate f m e).run Kernel.exec s = .done (true, m') s') :
    ∃ k', Snug f m₀ m' s' k' := by
  obtain ⟨hbytes, hnum, -⟩ : _ ∧ _ ∧ _ := by simpa using wp_run hg h
  have hsnug : ∀ k', Counted f m₀ m' s' k' → Snug f m₀ m' s' k' := fun k' hc' =>
    ⟨hc', by have := hs.nonneg; have := e.2.1; omega, by rw [hbytes, ← hnum, hc'.numSectors]⟩
  obtain ⟨-, -, hc'⟩ | ⟨-, hc'⟩ := hs.toCounted.extend h
  · exact ⟨_, hsnug _ hc'⟩
  · exact ⟨_, hsnug _ hc'⟩

/-- A file that grows call by call holds all along what `Allocate` would have given it, just if
each of its extensions keeps pace. -/
theorem growsExactly_along_iff {hdr hdr' : FileHeader} {ty : Int}
    (hm₀ : m₀.numBits = 1024) (size : ByteCount)
    (h : (hdr.allocate m₀ size ty).run Kernel.exec s = .done (true, hdr', m) s')
    (es : List ByteCount) :
    History.Along (extendStep f) (fun now e => GrowsExactly f now.1 now.2 e)
        (m, s'.withHdr f hdr') es ↔
      History.Along (extendStep f) (fun now e => KeepsPace f now.1 now.2 e)
        (m, s'.withHdr f hdr') es := by
  refine History.along_congr (fun now => ∃ k, Snug f m₀ now.1 now.2 k) ?_ ?_
    ⟨_, snug_of_allocate hm₀ h⟩
  · rintro now e ⟨k, hs⟩
    exact growsExactly_iff hs e
  · rintro now e now' ⟨k, hs⟩ hg he
    exact hs.extend hg (extendStep_eq_some_iff.mp he)

theorem exists_allocate_100 : ∃ hdr' m s',
    (blankHdr.allocate emptyMap 100 0).run Kernel.exec .zeroed = .done (true, hdr', m) s' ∧
      Drawn 0 emptyMap m (s'.withHdr 0 hdr') 1 ∧
      ((s'.withHdr 0 hdr').files 0).hdr.numBytes.toInt = 100 ∧ m.numClear = 1022 := by
  obtain ⟨hdr', m, s', hr⟩ := exists_allocate numBits_emptyMap ⟨100, by decide⟩
    (by decide) (by rw [numClear_emptyMap]; decide)
  obtain ⟨hd, hbytes⟩ := header_of_allocate (f := 0) numBits_emptyMap hr
  refine ⟨hdr', m, s', hr, hd, ?_, ?_⟩
  · rw [Kernel.setFile_files, Function.update_self]
    exact hbytes
  · rw [BitMap.numClear_eq, hd.free, List.length_drop, ← BitMap.numClear_eq, numClear_emptyMap]
    decide

/-- A sector more for a file of 100 bytes. -/
theorem growsExactly_along_iff_emptyMap : ∃ hdr' m s',
    (blankHdr.allocate emptyMap 100 0).run Kernel.exec .zeroed = .done (true, hdr', m) s' ∧
      History.Along (extendStep 0) (fun now e => GrowsExactly 0 now.1 now.2 e)
        (m, s'.withHdr 0 hdr') [⟨128, by decide⟩] := by
  obtain ⟨hdr', m, s', hr, hd, hbytes, hclear⟩ := exists_allocate_100
  refine ⟨hdr', m, s', hr, (growsExactly_along_iff numBits_emptyMap ⟨100, by decide⟩ hr
    _).mpr ⟨?_, fun _ _ => trivial⟩⟩
  simp only [KeepsPace, slack, lacking, hd.numSectors, hbytes, hclear]
  decide

/-- For 229 bytes, reached from 100 by one extension, a file has three sectors. -/
theorem extendAllocate_drifts : divRoundUp 229 128 = 2 ∧ ∃ hdr' m s',
    (blankHdr.allocate emptyMap 100 0).run Kernel.exec .zeroed = .done (true, hdr', m) s' ∧
      Wp (extendAllocate 0 m 129) (fun r s'' => r.1 = true ∧
        (s''.files 0).hdr.numBytes.toInt = 229 ∧ (s''.files 0).hdr.numSectors.toInt = 3)
        (s'.withHdr 0 hdr') := by
  obtain ⟨hdr', m, s', hr, hd, hbytes, hclear⟩ := exists_allocate_100
  refine ⟨by decide, hdr', m, s', hr, ?_⟩
  rw [wp_extendAllocate_iff, hd.numSectors, hbytes, hclear, if_neg (by decide), if_neg (by decide)]
  have htake := (takeSectors_exactly_iff (hd.lengthen 129) 2 3).mpr (by
    rw [hclear]
    decide)
  rw [numBytes_lengthen, hbytes] at htake
  exact htake.mono fun m' s'' h => ⟨rfl, h.1, h.2.1⟩

end Nachos
