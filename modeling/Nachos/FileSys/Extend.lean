import Nachos.FileSys.Allocate

/-! `FileHeader::ExtendAllocate`: it fills up the last index table, and then goes on with the loop
of `Allocate`. -/

namespace Nachos
open Lib Program FileHeader

variable {s : Kernel} {m : BitMap} {f : Handle}

abbrev Kernel.withHdr (s : Kernel) (f : Handle) (hdr : FileHeader) : Kernel :=
  s.setFile f { s.files f with hdr }

theorem Kernel.withHdr_self (s : Kernel) (f : Handle) : s.withHdr f (s.files f).hdr = s := by
  rw [withHdr, setFile, Function.update_eq_self]

theorem wp_extendTables_iff {count i : Nat} {temp : Int} {hdr : FileHeader}
    (hm : m.numBits = 1024) {Q : BitMap → Kernel → Prop} :
    Wp (extendTables f m temp i count) Q (s.withHdr f hdr) ↔
      Wp (allocateTables hdr m temp i count) (fun r s' => Q r.2 (s'.withHdr f r.1)) s := by
  induction count generalizing s m temp i hdr with
  | zero => rw [extendTables, allocateTables, wp_pure, wp_pure]
  | succ count ih =>
    rw [extendTables, allocateTables]
    by_cases hi : i < 25
    · have hin : decide (0 ≤ (i : Int) ∧ (i : Int) < 25) = true := decide_eq_true (by omega)
      cases hf : m.free with
      | nil =>
        -- neither of them has a sector for the table
        have hneg : (BitVec.ofInt 32 (-1)).toInt < 0 := by decide
        simp only [BitMap.find_of_free_nil hf, modifyHdr, getHdr, wp_then, wp_getFile, wp_setFile,
          wp_pure, wp_assert hin, wp_assert (decide_eq_true hi), wp_freshMemory, Int.toNat_natCast,
          Kernel.setFile_files, Function.update_self, entry_setEntry hi, wp_orFault_some]
        exact iff_of_false (not_wp_writeSector hneg) (not_wp_writeSector (by decide))
      | cons t rest =>
        have htl : t < 1024 := hm ▸ (BitMap.mem_free.mp (hf ▸ List.mem_cons_self ..)).1
        simp only [BitMap.find_of_free_cons hf, modifyHdr, getHdr, wp_then, wp_getFile, wp_setFile,
          wp_pure, wp_assert hin, wp_assert (decide_eq_true hi), wp_freshMemory, Int.toNat_natCast,
          Kernel.setFile_files, Function.update_self, entry_setEntry hi, wp_orFault_some,
          BitVec.ofInt_natCast, toInt_ofNat_sector htl, wp_writeSector htl]
        have hbits := (free_fillTable (s.host s.tick) (m.markBit t) 0 (min temp 32).toNat).2
        rw [← ih (hbits.trans hm)]
        simp only [Kernel.setFile, Kernel.setDisk, Function.update_idem, Kernel.withHdr]
        rfl
    · have hin : decide (0 ≤ (i : Int) ∧ (i : Int) < 25) = false := decide_eq_false (by omega)
      simp only [wp_then]
      exact iff_of_false (not_wp_assert hin) (not_wp_assert (decide_eq_false hi))

theorem wp_extendTables {count k i : Nat} {temp : Int} {L rest : List Nat}
    (hm : m.numBits = 1024) (hc : count = (k + 31) / 32) (ht : count ≠ 0 → temp = k)
    (hi : i + count ≤ 25) (hf : m.free = L ++ rest) (hL : L.length = k + count)
    {Q : BitMap → Kernel → Prop}
    (hQ : ∀ s' index data, (index ++ data).Perm L → data.Sublist L → index.length = count →
      data.length = k → (s.files f).hdr.Indexed (s'.files f).hdr i index →
      Tabled s.disk s'.disk index data → Steady s s' → Q (m.markAll L) s') :
    Wp (FileHeader.extendTables f m temp i count) Q s := by
  rw [← s.withHdr_self f, wp_extendTables_iff hm]
  refine wp_allocateTables hm hc ht hi hf hL
    fun hdr' s' index data hp hsub hlen hdl hx htb hst => ?_
  refine hQ _ index data hp hsub hlen hdl ?_ htb (hst.trans (.setHdr ..))
  rw [Kernel.setFile_files, Function.update_self]
  exact hx

/-- The free entries of the last index table of a file of `num` sectors. -/
def lastRoom (num : Nat) : Nat := (32 - num % 32) % 32

theorem leads_lastTable {X : Extent} {d : Nat → Sector} {t : Nat} {ys : List Nat} (ht : Leads d X.index X.data)
    (hti : X.index[X.data.length / 32]? = some t) (hy : X.data.length % 32 + ys.length ≤ 32) :
    Leads (Function.update d t (.ofWords (putWords (d t).word (X.data.length % 32) ys))) X.index
      (X.data ++ ys) := by
  intro j x hj
  rw [List.getElem?_append] at hj
  split at hj
  · next hlt =>
    obtain ⟨t', ht', hw⟩ := ht j x hj
    refine ⟨t', ht', ?_⟩
    by_cases he : t' = t
    · have hidx : j / 32 = X.data.length / 32 := (List.getElem?_inj
        (List.getElem?_eq_some_iff.mp ht').1 X.index_nodup).mp (by rw [ht', hti, he])
      rw [he, Function.update_self, Sector.word_ofWords (by omega), putWords_of_lt (by omega), ← he,
        hw]
    · rw [Function.update_of_ne he, hw]
  · have hlt := (List.getElem?_eq_some_iff.mp hj).1
    refine ⟨t, by rw [← hti]; congr 1; omega, ?_⟩
    rw [Function.update_self, Sector.word_ofWords (by omega), ← putWords_of_getElem? hj]
    congr 1
    omega

theorem extendLastTable_full {k : Nat} (hr : k % 32 = 0) (extra : Int) :
    extendLastTable f m k extra = pure (extra, m) := by
  rw [extendLastTable, if_pos]
  rw [Int.tmod_eq_emod_of_nonneg (by omega)]
  omega

/-- What is left for new tables once the last one is full, if there will be any. -/
def leftOver (k extra : Nat) : Int :=
  if (extra : Int) ≥ 32 - (k % 32 : Nat) then extra - (32 - (k % 32 : Nat)) else extra

theorem leftOver_eq {k extra : Nat} (hr : k % 32 ≠ 0)
    (h : tablesFor (k + extra) ≠ tablesFor k) :
    leftOver k extra = (extra - min extra (lastRoom k) : Nat) := by
  rw [tablesFor, tablesFor] at h
  rw [leftOver, lastRoom]
  split <;> omega

theorem wp_extendLastTable_iff {k extra t : Nat} (hr : k % 32 ≠ 0) (htl : t < 1024)
    (he : (s.files f).hdr.entry (k / 32 : Nat) = some (.ofNat 32 t))
    {Q : Int × BitMap → Kernel → Prop} :
    Wp (extendLastTable f m k extra) Q s ↔
      Q (leftOver k extra,
          (fillTable (s.disk t).word m (k % 32) (min extra (lastRoom k))).2)
        (s.setDisk t (.ofWords
          (fillTable (s.disk t).word m (k % 32) (min extra (lastRoom k))).1)) := by
  have hmod : (k : Int).tmod 32 = (k % 32 : Nat) := by
    rw [Int.tmod_eq_emod_of_nonneg (by omega)]; omega
  have hdiv : divRoundUp k 32 - 1 = (k / 32 : Nat) := by
    rw [divRoundUp_of_nonneg (by omega)]
    split <;> omega
  have hmin : (min (extra : Int) (32 - (k % 32 : Nat))).toNat = min extra (lastRoom k) := by
    rw [lastRoom]
    omega
  have hne : ¬ ((k % 32 : Nat) : Int) = 0 := by omega
  have hpos : decide (0 ≤ ((k % 32 : Nat) : Int)) = true := decide_eq_true (by omega)
  simp only [extendLastTable, getHdr, hmod, if_neg hne, hdiv, wp_then, wp_getFile, wp_pure, he,
    wp_orFault_some, toInt_ofNat_sector htl, wp_readSector htl, wp_assert hpos, Int.toNat_natCast,
    hmin, wp_writeSector htl]
  rfl

theorem wp_extendLastTable {X : Extent} (hl : X.Lists (s.files f).hdr)
    (ht : Leads s.disk X.index X.data) {extra : Nat} {ys rest : List Nat}
    (hf : m.free = ys ++ rest) (hy : ys.length = min extra (lastRoom X.data.length))
    {Q : Int × BitMap → Kernel → Prop}
    (hQ : ∀ s' (temp : Int), (tablesFor (X.data.length + extra) ≠ tablesFor X.data.length →
        temp = (extra - ys.length : Nat)) → Steady s s' → s'.files = s.files →
      (∀ x ∉ X.index, s'.disk x = s.disk x) → Leads s'.disk X.index (X.data ++ ys) →
      Q (temp, m.markAll ys) s') :
    Wp (extendLastTable f m X.data.length extra) Q s := by
  by_cases hr : X.data.length % 32 = 0
  · obtain rfl : ys = [] := List.eq_nil_of_length_eq_zero (by rw [hy, lastRoom, hr]; omega)
    rw [extendLastTable_full hr, wp_pure]
    refine hQ s extra (fun _ => rfl) (.refl s) rfl (fun _ _ => rfl) ?_
    rw [List.append_nil]
    exact ht
  · have htab := X.tables
    obtain ⟨t, hti⟩ : ∃ t, X.index[X.data.length / 32]? = some t :=
      ⟨_, List.getElem?_eq_getElem (by omega)⟩
    have htl : t < 1024 := X.index_lt (List.mem_of_getElem? hti)
    have hroom : lastRoom X.data.length = 32 - X.data.length % 32 := by rw [lastRoom]; omega
    rw [wp_extendLastTable_iff hr htl (hl _ t hti), ← hy, fillTable_eq hf]
    refine hQ _ _ (fun h => ?_) (.setDisk ..) rfl (fun x hx => ?_)
      (leads_lastTable ht hti (by omega))
    · rw [leftOver_eq hr h, hy]
    · exact Function.update_of_ne (fun e : x = t => hx (e ▸ List.mem_of_getElem? hti)) _ _

theorem divRoundUp_natCast_32 (k : Nat) : divRoundUp k 32 = tablesFor k := by
  rw [divRoundUp_of_nonneg (by omega), tablesFor]
  split <;> omega

theorem tablesFor_mono (k extra : Nat) : tablesFor k ≤ tablesFor (k + extra) := by
  rw [tablesFor, tablesFor]
  omega

theorem newTables_eq (k extra : Nat) : tablesFor (k + extra) - tablesFor k =
    tablesFor (extra - min extra (lastRoom k)) := by
  rw [tablesFor, tablesFor, tablesFor, lastRoom]
  omega

theorem wp_takeSectors_iff {k extra : Nat} (hnum : (s.files f).hdr.numSectors.toInt = k)
    {Q : BitMap → Kernel → Prop} :
    Wp (takeSectors f m extra) Q s ↔ Wp (extendLastTable f m k extra) (fun r s₁ =>
      Wp (extendTables f r.2 r.1 (tablesFor k : Nat) (tablesFor (k + extra) - tablesFor k))
        (fun m' s₂ => Q m' (s₂.withHdr f { (s₂.files f).hdr with
          numSectors := .ofInt 32 ((s₂.files f).hdr.numSectors.toInt + extra) })) s₁) s := by
  have hcount : (divRoundUp ((extra : Int) + k) 32 - divRoundUp (k : Nat) 32).toNat =
      tablesFor (k + extra) - tablesFor k := by
    have := tablesFor_mono k extra
    rw [show (extra : Int) + k = ((k + extra : Nat) : Int) by omega, divRoundUp_natCast_32,
      divRoundUp_natCast_32]
    omega
  simp only [takeSectors, getHdr, modifyHdr, wp_then, wp_getFile, wp_pure, hnum, wp_setFile, hcount]
  rw [divRoundUp_natCast_32]

theorem wp_takeSectors {X : Extent} (hl : X.Lists (s.files f).hdr) (ht : Leads s.disk X.index X.data)
    (hnum : (s.files f).hdr.numSectors.toInt = X.data.length) (hm : m.numBits = 1024) {extra : Nat}
    (h25 : tablesFor (X.data.length + extra) ≤ 25) {L rest : List Nat} (hf : m.free = L ++ rest)
    (hL : L.length = extra + (tablesFor (X.data.length + extra) - X.index.length))
    (hnew : ∀ x ∈ X.index, x ∉ L)
    {Q : BitMap → Kernel → Prop}
    (hQ : ∀ s' index data, (index ++ data).Perm L → data.Sublist L → data.length = extra →
      (X.index ++ index).length = tablesFor (X.data.length + extra) →
      (extra ≤ lastRoom X.data.length → data = L) →
      (∀ (j : Nat) t, (X.index ++ index)[j]? = some t →
        (s'.files f).hdr.entry j = some (.ofNat 32 t)) →
      (s'.files f).hdr = { (s.files f).hdr with
        primaryIndexTable := (s'.files f).hdr.primaryIndexTable
        numSectors := .ofInt 32 (X.data.length + extra) } →
      Steady s s' → (∀ x ∉ X.index ++ index, s'.disk x = s.disk x) →
      Leads s'.disk (X.index ++ index) (X.data ++ data) → Q (m.markAll L) s') :
    Wp (takeSectors f m extra) Q s := by
  have htab := X.tables
  rw [← tablesFor] at htab
  set c := min extra (lastRoom X.data.length) with hc
  have hle : c ≤ L.length := by omega
  have hys : (L.take c).length = c := by rw [List.length_take]; omega
  have hf₁ : m.free = L.take c ++ (L.drop c ++ rest) := by
    rw [hf, ← List.append_assoc, List.take_append_drop]
  rw [wp_takeSectors_iff hnum]
  refine wp_extendLastTable hl ht hf₁ hys fun s₁ temp htemp hst₁ hfi₁ hd₁ hl₁ => ?_
  have hmono := tablesFor_mono X.data.length extra
  rw [← htab] at hmono ⊢
  refine wp_extendTables (k := extra - c) (by simpa using hm) ?_
    (fun h => ?_) ?_ (BitMap.free_markAll hf₁) ?_
    fun s₂ index data hp hsl hlen hdl hx htb hst₂ => ?_
  · rw [htab, newTables_eq, tablesFor]
  · rw [htemp (by omega), hys]
  · omega
  · rw [List.length_drop]; omega
  · rw [← BitMap.markAll_append, List.take_append_drop]
    have hrest := hx.rest
    rw [hfi₁] at hx hrest
    have hsub : ∀ x ∈ index ++ data, x ∈ L := fun x hx => List.mem_of_mem_drop (hp.subset hx)
    have hidx : ∀ x ∈ X.index, x ∉ index := fun x hx hxi =>
      hnew x hx (hsub x (List.mem_append_left _ hxi))
    refine hQ _ index (L.take c ++ data) ?_ ?_ ?_ ?_ (fun hin => ?_) (fun j t hj => ?_) ?_
      ((hst₁.trans hst₂).trans (.setHdr ..)) (fun x hxi => ?_) ?_
    · exact (List.perm_append_comm_assoc index (L.take c) data).trans
        ((hp.append_left _).trans (by rw [List.take_append_drop]))
    · have := hsl.append_left (L.take c)
      rwa [List.take_append_drop] at this
    · rw [List.length_append]; omega
    · rw [List.length_append]; omega
    · -- the last table has room for all of them
      have htabs : tablesFor (X.data.length + extra) = X.index.length := by
        rw [htab, tablesFor, tablesFor]
        rw [lastRoom] at hin
        omega
      rw [List.eq_nil_of_length_eq_zero (l := data) (by omega), List.append_nil,
        List.take_of_length_le (by omega)]
    · simp only [Kernel.setFile_files, Function.update_self]
      change (s₂.files f).hdr.entry j = _
      rw [List.getElem?_append] at hj
      split at hj
      · rw [hx.before j ‹_›]
        exact hl j t hj
      · rw [← hx.entry _ t hj]
        congr 1
        omega
    · simp only [Kernel.setFile_files, Function.update_self]
      rw [hrest, hnum]
    · rw [List.mem_append, not_or] at hxi
      exact (htb.other x hxi.2).trans (hd₁ x hxi.1)
    · simp only [Kernel.setFile_disk]
      rw [← List.append_assoc]
      refine (hl₁.congr fun x hxi => htb.other x (hidx x hxi)).append htb.leads ?_
      by_cases he : extra - c = 0
      · exact .inr (List.eq_nil_of_length_eq_zero (by omega))
      · rw [List.length_append, hys, htab, tablesFor]
        rw [lastRoom] at hc
        omega

/-! ## Whether or not there are enough clear bits -/

def FileHeader.ValidTables (hdr : FileHeader) (c : Nat) : Prop :=
  ∀ j : Nat, j < c → ∃ t < 1024, hdr.entry j = some (.ofNat 32 t)

theorem exists_extendLastTable {k : Nat} (extra : Nat)
    (hval : (s.files f).hdr.ValidTables (tablesFor k)) :
    ∃ temp m₁ s₁, (∀ Q : Int × BitMap → Kernel → Prop,
        Wp (extendLastTable f m k extra) Q s ↔ Q (temp, m₁) s₁) ∧
      (tablesFor (k + extra) ≠ tablesFor k → temp = (extra - min extra (lastRoom k) : Nat)) ∧
      s₁.files = s.files ∧ m₁.numBits = m.numBits ∧
      m₁.free = m.free.drop (min extra (lastRoom k)) := by
  by_cases hr : k % 32 = 0
  · have hroom : min extra (lastRoom k) = 0 := by rw [lastRoom]; omega
    refine ⟨extra, m, s, fun Q => ?_, fun _ => ?_, rfl, rfl, ?_⟩
    · rw [extendLastTable_full hr, wp_pure]
    · rw [hroom, Nat.sub_zero]
    · rw [hroom, List.drop_zero]
  · obtain ⟨t, htl, he⟩ := hval (k / 32) (by rw [tablesFor]; omega)
    obtain ⟨hfree, hbits⟩ := free_fillTable (s.disk t).word m (k % 32) (min extra (lastRoom k))
    exact ⟨_, _, _, fun Q => wp_extendLastTable_iff hr htl he, fun h => leftOver_eq hr h, rfl,
      hbits, hfree⟩

structure Lengthened (f : Handle) (m m' : BitMap) (s s' : Kernel) (k extra : Nat) : Prop where
  rest : (s'.files f).hdr = { (s.files f).hdr with
    primaryIndexTable := (s'.files f).hdr.primaryIndexTable
    numSectors := .ofInt 32 (k + extra : Nat) }
  valid : (s'.files f).hdr.ValidTables (tablesFor (k + extra))
  direct : tablesFor (k + extra) ≠ tablesFor k → tablesFor (k + extra) ≤ 25
  numBits : m'.numBits = m.numBits
  free : m'.free = m.free.drop (extra + (tablesFor (k + extra) - tablesFor k))

theorem takeSectors_returns {k extra : Nat} (hm : m.numBits = 1024)
    (hnum : (s.files f).hdr.numSectors.toInt = k)
    (hval : (s.files f).hdr.ValidTables (tablesFor k)) {Q : BitMap → Kernel → Prop}
    (h : Wp (takeSectors f m extra) Q s) :
    Wp (takeSectors f m extra) (fun m' s' => Q m' s' ∧ Lengthened f m m' s s' k extra) s := by
  rw [wp_takeSectors_iff hnum] at h ⊢
  obtain ⟨temp, m₁, s₁, hiff, htemp, hfiles, hbits, hfree⟩ :=
    exists_extendLastTable (m := m) extra hval
  have hmono := tablesFor_mono k extra
  rw [hiff] at h ⊢
  rw [← s₁.withHdr_self f, wp_extendTables_iff (hbits.trans hm)] at h ⊢
  refine (allocateTables_returns (hbits.trans hm) (newTables_eq k extra)
    (fun hne => htemp (by omega)) h).mono ?_
  rintro r s₂ ⟨hQ, htab, h25, hb, hfr⟩
  simp only [Kernel.setFile_files, Function.update_self] at hQ ⊢
  have hrest := htab.rest
  rw [hfiles] at htab hrest
  refine ⟨hQ, ?_, fun j hj => ?_, fun hne => ?_, hb.trans hm.symm, ?_⟩
  · simp only [Kernel.setFile_files, Function.update_self]
    rw [hrest, hnum]
    rfl
  · simp only [Kernel.setFile_files, Function.update_self]
    change ∃ t < 1024, r.1.entry j = _
    by_cases hjk : j < tablesFor k
    · rw [htab.before j hjk]
      exact hval j hjk
    · exact htab.entry j (by omega) (by omega)
  · have := h25 (by omega)
    omega
  · rw [hfr, hfree, List.drop_drop]
    congr 1
    omega

def Kernel.lengthen (s : Kernel) (f : Handle) (e : Int) : Kernel :=
  s.withHdr f { (s.files f).hdr with numBytes := .ofInt 32 ((s.files f).hdr.numBytes.toInt + e) }

theorem Kernel.lengthen_hdr (s : Kernel) (f : Handle) (e : Int) : ((s.lengthen f e).files f).hdr =
    { (s.files f).hdr with numBytes := .ofInt 32 ((s.files f).hdr.numBytes.toInt + e) } := by
  rw [lengthen, setFile_files, Function.update_self]

theorem wp_extendAllocate_iff {e : Int} {Q : Bool × BitMap → Kernel → Prop} :
    Wp (extendAllocate f m e) Q s ↔
      if divRoundUp (int32 ((s.files f).hdr.numBytes.toInt + e)) 128 ≤
          (s.files f).hdr.numSectors.toInt then
        Q (true, m) (s.lengthen f e)
      else if (m.numClear : Int) < divRoundUp e 128 then Q (false, m) (s.lengthen f e)
      else Wp (takeSectors f m (divRoundUp e 128)) (fun m' => Q (true, m')) (s.lengthen f e) := by
  simp only [extendAllocate, getHdr, modifyHdr, wp_then, wp_getFile, wp_pure]
  split
  · simp only [wp_then, wp_getFile, wp_setFile, wp_pure]
    rfl
  · split
    · simp only [wp_then, wp_getFile, wp_setFile, wp_pure]
      rfl
    · simp only [wp_then, wp_getFile, wp_setFile, wp_pure]
      rfl

end Nachos
