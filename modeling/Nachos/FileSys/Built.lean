import Nachos.FileSys.Allocation

/-! Headers that were built on one free map, by `Allocate` and then any number of calls of
`ExtendAllocate`. -/

namespace Nachos
open Lib Program FileHeader

abbrev ByteCount := { n : Int // 0 ≤ n ∧ n < 2147483648 }

def ByteCount.sectors (e : ByteCount) : Nat := (divRoundUp e 128).toNat

theorem ByteCount.divRoundUp_eq (e : ByteCount) : divRoundUp e 128 = e.sectors := by
  have hpos : 0 ≤ divRoundUp e 128 := by
    have := e.2.1
    rw [divRoundUp_of_nonneg e.2.1]
    split <;> omega
  exact (Int.toNat_of_nonneg hpos).symm

theorem ByteCount.le_sectors (e : ByteCount) : (e : Int) ≤ 128 * e.sectors := by
  rw [← e.divRoundUp_eq]
  exact (divRoundUp_range (by have := e.2.1; omega) e.2.2).2.2

/-- The header object of `f` was filled by `Allocate` on the map `m₀` and then extended, each call
returning TRUE; `m` is the map now. A call that would use an entry past the index table does not
return in the model. -/
inductive Built (f : Handle) (m₀ : BitMap) : BitMap → Kernel → Prop
  | allocate {hdr hdr' : FileHeader} {m : BitMap} {s s' : Kernel} (size : ByteCount) (ty : Int)
      (h : (hdr.allocate m₀ size ty).run Kernel.exec s = .done (true, hdr', m) s') :
      Built f m₀ m (s'.withHdr f hdr')
  | extend {m m' : BitMap} {s s' : Kernel} (hb : Built f m₀ m s) (e : ByteCount)
      (h : (extendAllocate f m e).run Kernel.exec s = .done (true, m') s') : Built f m₀ m' s'

variable {f : Handle} {m₀ m m' : BitMap} {s s' : Kernel} {k : Nat}

/-! ## What the header counts -/

/-- The header of `f` counts `k` sectors, and the sectors for those were taken off `m₀`, as far as
it had them. -/
structure Drawn (f : Handle) (m₀ m : BitMap) (s : Kernel) (k : Nat) : Prop where
  numBits : m.numBits = 1024
  numSectors : (s.files f).hdr.numSectors.toInt = k
  cap : k ≤ 800
  valid : (s.files f).hdr.ValidTables (tablesFor k)
  free : m.free = m₀.free.drop (sectorsFor k)

theorem Drawn.lengthen (hc : Drawn f m₀ m s k) (e : Int) : Drawn f m₀ m (s.lengthen f e) k where
  numBits := hc.numBits
  numSectors := by
    rw [Kernel.lengthen_hdr]
    exact hc.numSectors
  cap := hc.cap
  valid := by
    rw [Kernel.lengthen_hdr]
    exact hc.valid
  free := hc.free

theorem Drawn.cap_of_lengthened (hc : Drawn f m₀ m s k) {extra : Nat}
    (hlen : Lengthened f m m' s s' k extra) : k + extra ≤ 800 := by
  rw [← tablesFor_le_iff]
  by_cases hne : tablesFor (k + extra) = tablesFor k
  · rw [hne]
    exact tablesFor_le_iff.mpr hc.cap
  · exact hlen.direct hne

structure Counted (f : Handle) (m₀ m : BitMap) (s : Kernel) (k : Nat) : Prop
    extends Drawn f m₀ m s k where
  bytes : (s.files f).hdr.numBytes.toInt ≤ 128 * k

theorem int32_le {x : Int} (h : -2147483648 ≤ x) : int32 x ≤ x := by
  by_cases hx : x < 2147483648
  · rw [int32_of_range h hx]
  · have := (word_range (.ofInt 32 x)).2
    rw [int32]
    omega

theorem sectorsFor_mono {k k' : Nat} (h : k ≤ k') : sectorsFor k ≤ sectorsFor k' := by
  rw [sectorsFor, sectorsFor, tablesFor, tablesFor]
  omega

theorem sectorsFor_add (k extra : Nat) : sectorsFor (k + extra) =
    sectorsFor k + (extra + (tablesFor (k + extra) - tablesFor k)) := by
  have := tablesFor_mono k extra
  rw [sectorsFor, sectorsFor]
  omega

theorem header_of_allocate {hdr hdr' : FileHeader} {size : ByteCount} {ty : Int}
    (hm₀ : m₀.numBits = 1024)
    (h : (hdr.allocate m₀ size ty).run Kernel.exec s = .done (true, hdr', m) s') :
    Drawn f m₀ m (s'.withHdr f hdr') size.sectors ∧ hdr'.numBytes.toInt = size := by
  replace h := run_eq_done_iff.mp h
  change Wp _ _ s at h
  by_cases hfew : (m₀.numClear : Int) < divRoundUp size 128
  · obtain ⟨_, _, ⟨hr, -⟩, hiff⟩ := h.exists_iff
    have := (hiff fun r _ => r.1 = false).mp (wp_allocate_refused hfew fun _ _ _ _ => rfl)
    rw [hr] at this
    cases this
  · rw [wp_allocate_iff hfew, size.divRoundUp_eq] at h
    obtain ⟨r, t, ⟨⟨hr, rfl⟩, htab, h25, hb, hfree⟩, -⟩ :=
      (allocateTables_returns hm₀ rfl (fun _ => rfl) h).exists_iff
    rw [← tablesFor] at htab h25 hfree
    obtain ⟨r₁, r₂⟩ := r
    cases hr
    have hrest := htab.rest
    have hcap : size.sectors ≤ 800 := by
      by_cases h0 : tablesFor size.sectors = 0
      · rw [tablesFor] at h0
        omega
      · exact tablesFor_le_iff.mp (Nat.zero_add (tablesFor _) ▸ h25 h0)
    refine ⟨⟨hb, ?_, hcap, fun j hj => ?_, hfree⟩, ?_⟩
    · rw [Kernel.setFile_files, Function.update_self, hrest]
      exact toInt_ofInt_of_range (by omega) (by omega)
    · rw [Kernel.setFile_files, Function.update_self]
      exact htab.entry j (Nat.zero_le j) (by omega)
    · rw [hrest]
      refine toInt_ofInt_of_range ?_ size.2.2
      have := size.2.1
      omega

theorem counted_of_allocate {hdr hdr' : FileHeader} {size : ByteCount} {ty : Int}
    (hm₀ : m₀.numBits = 1024)
    (h : (hdr.allocate m₀ size ty).run Kernel.exec s = .done (true, hdr', m) s') :
    Counted f m₀ m (s'.withHdr f hdr') size.sectors := by
  obtain ⟨hd, hbytes⟩ := header_of_allocate (f := f) hm₀ h
  refine ⟨hd, ?_⟩
  rw [Kernel.setFile_files, Function.update_self]
  exact hbytes.trans_le size.le_sectors

theorem extendAllocate_accepted {e : ByteCount}
    (h : (extendAllocate f m e).run Kernel.exec s = .done (true, m') s') :
    m' = m ∧ s' = s.lengthen f e ∧ divRoundUp (int32 ((s.files f).hdr.numBytes.toInt + e)) 128 ≤
        (s.files f).hdr.numSectors.toInt ∨
      e.sectors ≤ m.numClear ∧ Wp (takeSectors f m e.sectors) (fun m₁ s₁ => m₁ = m' ∧ s₁ = s')
        (s.lengthen f e) := by
  replace h := run_eq_done_iff.mp h
  rw [← Wp, wp_extendAllocate_iff, e.divRoundUp_eq] at h
  split at h
  · next hw =>
    obtain ⟨h, rfl⟩ := h
    cases h
    exact .inl ⟨rfl, rfl, hw⟩
  · split at h
    · cases h.1
    · next hfew =>
      refine .inr ⟨by omega, h.mono ?_⟩
      rintro m₁ s₁ ⟨he, rfl⟩
      exact ⟨congrArg Prod.snd he, rfl⟩

theorem numBytes_lengthen (s : Kernel) (f : Handle) (e : Int) :
    ((s.lengthen f e).files f).hdr.numBytes.toInt =
      int32 ((s.files f).hdr.numBytes.toInt + e) := by
  rw [Kernel.lengthen_hdr]
  rfl

theorem Counted.extend (hc : Counted f m₀ m s k) {e : ByteCount}
    (h : (extendAllocate f m e).run Kernel.exec s = .done (true, m') s') :
    m' = m ∧ s' = s.lengthen f e ∧ Counted f m₀ m' s' k ∨
      Wp (takeSectors f m e.sectors) (fun m₁ s₁ => m₁ = m' ∧ s₁ = s') (s.lengthen f e) ∧
        Counted f m₀ m' s' (k + e.sectors) := by
  have hlow := (word_range (s.files f).hdr.numBytes).1
  have hle := int32_le (x := (s.files f).hdr.numBytes.toInt + e) (by have := e.2.1; omega)
  have hbytes := hc.bytes
  have hmore := e.le_sectors
  rcases extendAllocate_accepted h with ⟨rfl, rfl, hw⟩ | ⟨hclear, htake⟩
  · refine .inl ⟨rfl, rfl, hc.toDrawn.lengthen e, ?_⟩
    rw [hc.numSectors] at hw
    have hr := word_range (.ofInt 32 ((s.files f).hdr.numBytes.toInt + e))
    have := (divRoundUp_range hr.1 hr.2).2.2
    rw [numBytes_lengthen]
    rw [← int32] at this
    omega
  · refine .inr ⟨htake, ?_⟩
    have hc₁ := hc.toDrawn.lengthen e
    obtain ⟨_, _, ⟨⟨rfl, rfl⟩, hlen⟩, -⟩ :=
      (takeSectors_returns hc₁.numBits hc₁.numSectors hc₁.valid htake).exists_iff
    have hcap : k + e.sectors ≤ 800 := hc₁.cap_of_lengthened hlen
    have hrest := hlen.rest
    refine ⟨⟨hlen.numBits.trans hc.numBits, ?_, hcap, hlen.valid, ?_⟩, ?_⟩
    · rw [hrest]
      exact toInt_ofInt_of_range (by omega) (by omega)
    · rw [hlen.free, hc.free, List.drop_drop, sectorsFor_add]
    · rw [hrest]
      refine (numBytes_lengthen s f e).trans_le ?_
      omega

theorem Built.counted (hm₀ : m₀.numBits = 1024) (h : Built f m₀ m s) :
    ∃ k, Counted f m₀ m s k := by
  induction h with
  | allocate size ty h => exact ⟨_, counted_of_allocate hm₀ h⟩
  | extend hb e h ih =>
    obtain ⟨k, hc⟩ := ih
    obtain ⟨-, -, hc'⟩ | ⟨-, hc'⟩ := hc.extend h
    · exact ⟨_, hc'⟩
    · exact ⟨_, hc'⟩

/-! ## Maps that never ran out of clear bits -/

/-- The sectors of `X` are those that were taken off `m₀`, and its `k` data sectors come in the
order in which they were taken. -/
structure Backed (f : Handle) (m₀ m : BitMap) (s : Kernel) (k : Nat) (X : Extent) : Prop where
  length : X.data.length = k
  lists : X.Lists (s.files f).hdr
  leads : Leads s.disk X.index X.data
  taken : (X.index ++ X.data).Perm (m₀.free.take (sectorsFor k))
  order : X.data.Sublist (m₀.free.take (sectorsFor k))
  map : m = m₀.markAll (m₀.free.take (sectorsFor k))

def Extent.ofTaken (hm₀ : m₀.numBits = 1024) {index data : List Nat} {n : Nat}
    (hp : (index ++ data).Perm (m₀.free.take n)) (ht : index.length = tablesFor data.length)
    (h25 : index.length ≤ 25) : Extent where
  index := index
  data := data
  nodup := hp.nodup_iff.mpr (m₀.free_nodup.sublist (List.take_sublist ..))
  lt _ hx := hm₀ ▸ (BitMap.mem_free.mp (List.mem_of_mem_take (hp.subset hx))).1
  tables := ht
  direct := h25

theorem length_taken {n : Nat} (h : n ≤ m₀.numClear) : (m₀.free.take n).length = n := by
  rw [List.length_take, ← BitMap.numClear_eq, min_eq_left h]

theorem backed_of_allocate {hdr hdr' : FileHeader} {size : ByteCount} {ty : Int}
    (hm₀ : m₀.numBits = 1024)
    (h : (hdr.allocate m₀ size ty).run Kernel.exec s = .done (true, hdr', m) s')
    (hout : sectorsFor size.sectors ≤ m₀.numClear) :
    ∃ X, Backed f m₀ m (s'.withHdr f hdr') size.sectors X := by
  have h25 := tablesFor_le_iff.mpr (counted_of_allocate (f := f) hm₀ h).cap
  refine wp_run (wp_allocate (k := size.sectors) (L := m₀.free.take (sectorsFor size.sectors))
    (Q := fun r s' => ∃ X, Backed f m₀ r.2.2 (s'.withHdr f r.2.1) size.sectors X)
    (by have := size.2.1; omega) size.2.2 rfl hm₀ h25 (List.take_append_drop ..).symm
    (length_taken hout) ?_) h
  intro hdr' s' index data hp hsub hi hd hl _ _ _ _ htab _
  refine ⟨.ofTaken hm₀ hp (by rw [hi, hd]) (hi ▸ h25), hd, ?_, htab.leads, hp, hsub, rfl⟩
  rw [Kernel.setFile_files, Function.update_self]
  exact hl

theorem Backed.take (hm₀ : m₀.numBits = 1024) {X : Extent} (hX : Backed f m₀ m s k X)
    (hc : Drawn f m₀ m s k) {extra : Nat} (hcap : k + extra ≤ 800)
    (hout : sectorsFor (k + extra) ≤ m₀.numClear) :
    Wp (takeSectors f m extra) (fun m' s' => ∃ X', Backed f m₀ m' s' (k + extra) X' ∧
      X.data <+: X'.data) s := by
  obtain rfl := hX.length
  have htab : X.index.length = tablesFor X.data.length := X.tables
  have h25 := tablesFor_le_iff.mpr hcap
  have hadd := sectorsFor_add X.data.length extra
  -- the bits that this call takes come next after those that were taken
  obtain ⟨L, hL⟩ : ∃ L, L =
      m.free.take (extra + (tablesFor (X.data.length + extra) - tablesFor X.data.length)) :=
    ⟨_, rfl⟩
  have hnext : m₀.free.take (sectorsFor (X.data.length + extra)) =
      m₀.free.take (sectorsFor X.data.length) ++ L := by
    rw [hadd, List.take_add, ← hc.free, hL]
  have hlen := congrArg List.length hnext
  rw [List.length_append, length_taken hout, length_taken (by omega)] at hlen
  have hrest : m.free = L ++ m.free.drop L.length := by
    rw [show L.length = _ from Nat.add_left_cancel (hlen.symm.trans hadd), hL,
      List.take_append_drop]
  refine wp_takeSectors hX.lists hX.leads hc.numSectors hc.numBits h25 hrest (by omega)
    (fun x hx hxL => ?_) ?_
  · have hx₀ := hX.taken.subset (List.mem_append_left _ hx)
    have hnd := m₀.free_nodup.sublist (List.take_sublist (sectorsFor (X.data.length + extra)) _)
    rw [hnext] at hnd
    exact (List.nodup_append'.mp hnd).2.2 hx₀ hxL
  intro s' index data hp hsub hd hi _ hl _ _ _ hleads
  have hp' : (X.index ++ index ++ (X.data ++ data)).Perm
      (m₀.free.take (sectorsFor (X.data.length + extra))) := by
    rw [hnext]
    refine List.Perm.trans ?_ (hX.taken.append hp)
    rw [List.append_assoc, List.append_assoc]
    exact (List.perm_append_comm_assoc ..).append_left _
  have hd' : (X.data ++ data).length = X.data.length + extra := by rw [List.length_append, hd]
  refine ⟨.ofTaken hm₀ hp' (by rw [hi, hd']) (hi ▸ h25), ⟨hd', hl, hleads, hp', ?_, ?_⟩,
    List.prefix_append ..⟩
  · rw [hnext]
    exact hX.order.append hsub
  · rw [hnext, BitMap.markAll_append, ← hX.map]

theorem Backed.lengthen {X : Extent} (hX : Backed f m₀ m s k X) (e : Int) :
    Backed f m₀ m (s.lengthen f e) k X where
  length := hX.length
  lists := by
    rw [Kernel.lengthen_hdr]
    exact hX.lists
  leads := hX.leads
  taken := hX.taken
  order := hX.order
  map := hX.map

/-- The map had a clear bit for every sector that the header now counts. -/
def NotRunOut (f : Handle) (m₀ : BitMap) (s : Kernel) : Prop :=
  sectorsFor (s.files f).hdr.numSectors.toInt.toNat ≤ m₀.numClear

theorem Counted.notRunOut_iff (hc : Counted f m₀ m s k) :
    NotRunOut f m₀ s ↔ sectorsFor k ≤ m₀.numClear := by
  rw [NotRunOut, hc.numSectors, Int.toNat_natCast]

theorem Backed.extend (hm₀ : m₀.numBits = 1024) {X : Extent} (hX : Backed f m₀ m s k X)
    (hc : Counted f m₀ m s k) {e : ByteCount}
    (h : (extendAllocate f m e).run Kernel.exec s = .done (true, m') s') (hout : NotRunOut f m₀ s') :
    ∃ k' X', Counted f m₀ m' s' k' ∧ Backed f m₀ m' s' k' X' ∧ X.data <+: X'.data := by
  rcases hc.extend h with ⟨rfl, rfl, hc'⟩ | ⟨htake, hc'⟩
  · exact ⟨k, X, hc', hX.lengthen e, List.prefix_rfl⟩
  · have hX' := (hX.lengthen e).take hm₀ (hc.toDrawn.lengthen e) hc'.cap (hc'.notRunOut_iff.mp hout)
    obtain ⟨_, _, ⟨⟨rfl, rfl⟩, X', hX', hpre⟩, -⟩ := (htake.and hX').exists_iff
    exact ⟨_, X', hc', hX', hpre⟩

theorem Built.backed (hm₀ : m₀.numBits = 1024) (h : Built f m₀ m s) (hout : NotRunOut f m₀ s) :
    ∃ k X, Counted f m₀ m s k ∧ Backed f m₀ m s k X := by
  induction h with
  | allocate size ty h =>
    have hc := counted_of_allocate (f := f) hm₀ h
    obtain ⟨X, hX⟩ := backed_of_allocate hm₀ h (hc.notRunOut_iff.mp hout)
    exact ⟨_, X, hc, hX⟩
  | extend hb e h ih =>
    obtain ⟨k, hc⟩ := hb.counted hm₀
    have hout₁ : NotRunOut f m₀ _ := hc.notRunOut_iff.mpr (by
      obtain ⟨-, -, hc'⟩ | ⟨-, hc'⟩ := hc.extend h
      · exact hc'.notRunOut_iff.mp hout
      · exact (sectorsFor_mono (Nat.le_add_right ..)).trans (hc'.notRunOut_iff.mp hout))
    obtain ⟨k, X, hc, hX⟩ := ih hout₁
    obtain ⟨k', X', hc', hX', -⟩ := hX.extend hm₀ hc h hout
    exact ⟨k', X', hc', hX'⟩

theorem Built.exists_extend (hm₀ : m₀.numBits = 1024) (h : Built f m₀ m s) (hout : NotRunOut f m₀ s)
    {e : ByteCount} (hc : Counted f m₀ m s k) (hcap : k + e.sectors ≤ 800)
    (hmore : sectorsFor (k + e.sectors) ≤ m₀.numClear) :
    ∃ m' s', Built f m₀ m' s' ∧ NotRunOut f m₀ s' := by
  obtain ⟨k₁, X, hc₁, hX⟩ := h.backed hm₀ hout
  have hk : k₁ = k := Int.natCast_inj.mp (hc₁.numSectors.symm.trans hc.numSectors)
  subst hk
  have hclear : ¬ (m.numClear : Int) < divRoundUp e 128 := by
    have := sectorsFor_add k₁ e.sectors
    rw [BitMap.numClear_eq] at hmore ⊢
    rw [hc.free, List.length_drop, e.divRoundUp_eq]
    omega
  have hrun : Wp (extendAllocate f m e) (fun r _ => r.1 = true) s := by
    rw [wp_extendAllocate_iff, if_neg hclear, e.divRoundUp_eq]
    split
    · rfl
    · exact ((hX.lengthen e).take hm₀ (hc.toDrawn.lengthen e) hcap hmore).mono fun _ _ _ => rfl
  obtain ⟨⟨ok, m'⟩, s', hr, hok⟩ := hrun
  cases (hok : ok = true)
  refine ⟨m', s', h.extend e hr, ?_⟩
  obtain ⟨-, -, hc'⟩ | ⟨-, hc'⟩ := hc.extend hr
  · exact hc'.notRunOut_iff.mpr (hc.notRunOut_iff.mp hout)
  · exact hc'.notRunOut_iff.mpr hmore

theorem exists_allocate (hm₀ : m₀.numBits = 1024) (size : ByteCount) (hcap : size.sectors ≤ 800)
    (hout : sectorsFor size.sectors ≤ m₀.numClear) :
    ∃ hdr' m s', (blankHdr.allocate m₀ size 0).run Kernel.exec .zeroed =
      .done (true, hdr', m) s' := by
  have hrun : Wp (blankHdr.allocate m₀ size 0) (fun r _ => r.1 = true) .zeroed :=
    wp_allocate (by have := size.2.1; omega) size.2.2 rfl hm₀ (tablesFor_le_iff.mpr hcap)
      (List.take_append_drop (sectorsFor size.sectors) _).symm (length_taken hout)
      fun _ _ _ _ _ _ _ _ _ _ _ _ _ _ _ => rfl
  obtain ⟨⟨ok, hdr', m⟩, s', hr, hok⟩ := hrun
  cases (hok : ok = true)
  exact ⟨hdr', m, s', hr⟩

theorem exists_built_emptyMap : ∃ m s, Built 0 emptyMap m s ∧ NotRunOut 0 emptyMap s := by
  obtain ⟨hdr, m, s, hr⟩ := exists_allocate numBits_emptyMap ⟨4096, by decide⟩
    (by decide) (by rw [numClear_emptyMap]; decide)
  have hc := counted_of_allocate (f := 0) numBits_emptyMap hr
  have hout := hc.notRunOut_iff.mpr (by rw [numClear_emptyMap]; decide)
  exact (Built.allocate _ _ hr).exists_extend (e := ⟨300, by decide⟩) numBits_emptyMap hout hc
    (by decide) (by rw [numClear_emptyMap]; decide)

/-! ## Giving back -/

/-- `Deallocate` gives back to the map what was taken for the header. -/
theorem deallocate_built (hm₀ : m₀.numBits = 1024) (h : Built f m₀ m s)
    (hout : NotRunOut f m₀ s) : Wp (deallocate (s.files f).hdr m) (fun m' _ => m' = m₀) s := by
  obtain ⟨k, X, hc, hX⟩ := h.backed hm₀ hout
  have hfree : ∀ x ∈ m₀.free.take (sectorsFor k), x < m₀.numBits ∧ m₀.testBit x = false :=
    fun x hx => BitMap.mem_free.mp (List.mem_of_mem_take hx)
  have hbit : ∀ x, m.testBit x = (decide (x ∈ X.index ++ X.data) || m₀.testBit x) := by
    intro x
    rw [hX.map, BitMap.testBit_markAll fun y hy => (hfree y hy).1, decide_eq_decide.mpr
      hX.taken.mem_iff]
  refine wp_deallocate hX.lists ?_ hX.leads hc.numBits (fun t ht => ?_) fun m' hm' => ?_
  · rw [hX.length, hc.numSectors, Int.toNat_natCast]
  · rw [hbit, decide_eq_true (List.mem_append_left _ ht), Bool.true_or]
  · have hn : m'.numBits = m₀.numBits := by rw [hm'.numBits, hc.numBits, hm₀]
    refine BitMap.ext_testBit hn (by rw [hn, hm₀]; decide) fun x _ => ?_
    rw [hm'.testBit, hbit]
    by_cases hx : x ∈ X.index ++ X.data
    · rw [(hfree x (hX.taken.subset hx)).2, decide_eq_true hx]
      rfl
    · rw [decide_eq_false hx, Bool.false_or, Bool.not_false, Bool.and_true]

theorem deallocate_built_emptyMap : ∃ m s, Built 0 emptyMap m s ∧ NotRunOut 0 emptyMap s ∧
    Wp (deallocate (s.files 0).hdr m) (fun m' _ => m' = emptyMap) s := by
  obtain ⟨m, s, hb, hout⟩ := exists_built_emptyMap
  exact ⟨m, s, hb, hout, deallocate_built numBits_emptyMap hb hout⟩

/-! ## The offset mapping -/

theorem Backed.wp_byteToSector {X : Extent} (hX : Backed f m₀ m s k X) {off x : Nat}
    (hx : X.data[off / 128]? = some x) {Q : Int → Kernel → Prop} :
    Wp (byteToSector f off) Q s ↔ Q x s :=
  wp_byteToSector_offset (fun _ h => X.index_lt h) hX.lists hX.leads hx
    (X.data_lt (List.mem_of_getElem? hx))

theorem Backed.data_eq {X : Extent} (hX : Backed f m₀ m s k X) :
    X.data = (m₀.free.take (sectorsFor k)).filter (· ∉ X.index) := by
  have hself : X.data.filter (· ∉ X.index) = X.data :=
    List.filter_eq_self.mpr fun x hx => decide_eq_true fun hi => X.index_not_mem_data hi hx
  have hnone : X.index.filter (· ∉ X.index) = [] :=
    List.filter_eq_nil_iff.mpr fun x hx => by simpa using hx
  have hsub := hX.order.filter (· ∉ X.index)
  have hlen := (hX.taken.filter (· ∉ X.index)).length_eq
  rw [List.filter_append, hnone, List.nil_append, hself] at hlen
  rw [hself] at hsub
  exact hsub.eq_of_length hlen

/-- What `ByteToSector` should be on a header that was built on `m₀`: `data` lists the data sectors
as they were allocated, and `index` the sectors of the tables. -/
structure Mapping (f : Handle) (m₀ : BitMap) (s : Kernel) (index data : List Nat) : Prop where
  records : (s.files f).hdr.Records s.disk index data
  order : data = (m₀.free.take (sectorsFor data.length)).filter (· ∉ index)
  sector : ∀ off : Nat, off < 128 * data.length → ∃ x, data[off / 128]? = some x ∧
    Wp (byteToSector f off) (fun y s' => y = x ∧ s' = s) s
  nodup : data.Nodup
  notTable : ∀ x ∈ data, x ∉ index

theorem Backed.mapping {X : Extent} (hX : Backed f m₀ m s k X) (hc : Counted f m₀ m s k) :
    Mapping f m₀ s X.index X.data where
  records := ⟨by rw [hX.length, hc.numSectors], X.tables, hX.lists, hX.leads⟩
  order := by
    rw [hX.length]
    exact hX.data_eq
  sector off hoff := by
    obtain ⟨x, hx⟩ : ∃ x, X.data[off / 128]? = some x :=
      ⟨_, List.getElem?_eq_getElem (by omega)⟩
    exact ⟨x, hx, (hX.wp_byteToSector hx).mpr ⟨rfl, rfl⟩⟩
  nodup := (List.nodup_append'.mp X.nodup).2.1
  notTable _ hx hi := X.index_not_mem_data hi hx

/-- The offset mapping of a header built on one map, and what an extension leaves of it. -/
theorem byteToSector_built (hm₀ : m₀.numBits = 1024) (h : Built f m₀ m s)
    (hout : NotRunOut f m₀ s) : ∃ index data, Mapping f m₀ s index data ∧
      ∀ (e : ByteCount) (m' : BitMap) (s' : Kernel),
        (extendAllocate f m e).run Kernel.exec s = .done (true, m') s' → NotRunOut f m₀ s' →
        ∀ off : Nat, off < 128 * data.length → ∀ x,
          Wp (byteToSector f off) (fun y _ => y = x) s →
          Wp (byteToSector f off) (fun y _ => y = x) s' := by
  obtain ⟨k, X, hc, hX⟩ := h.backed hm₀ hout
  refine ⟨X.index, X.data, hX.mapping hc, fun e m' s' he hout' off hoff x hx => ?_⟩
  obtain ⟨k', X', -, hX', hpre⟩ := hX.extend hm₀ hc he hout'
  obtain ⟨y, hy⟩ : ∃ y, X.data[off / 128]? = some y := ⟨_, List.getElem?_eq_getElem (by omega)⟩
  have hyx := (hX.wp_byteToSector hy).mp hx
  obtain ⟨more, hmore⟩ := hpre
  refine (hX'.wp_byteToSector (x := y) ?_).mpr hyx
  rw [← hmore, List.getElem?_append_left (List.getElem?_eq_some_iff.mp hy).1, hy]

/-- The mapping of a file of more than one table. -/
theorem byteToSector_built_emptyMap : ∃ m s, Built 0 emptyMap m s ∧ NotRunOut 0 emptyMap s ∧
    ∃ index data, Mapping 0 emptyMap s index data := by
  obtain ⟨m, s, hb, hout⟩ := exists_built_emptyMap
  obtain ⟨index, data, hmap, -⟩ := byteToSector_built numBits_emptyMap hb hout
  exact ⟨m, s, hb, hout, index, data, hmap⟩

end Nachos
