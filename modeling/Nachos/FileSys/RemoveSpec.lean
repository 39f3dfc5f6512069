import Nachos.FileSys.OpenSpec

/-! What `FileSystem::Remove` does to the tree, and the call for a plain file. -/

namespace Nachos
open Lib Program FileSystem

variable {s s' : Kernel} {v : Volume} {p : Place} {d n : FileNode} {f : Handle}
  {m' : BitMap} {i : Nat}
  {c : CString} {lost : Set Nat}

/-! ## Giving back a file and its name -/

def removedTable (d : FileNode) (i : Nat) : Directory :=
  ⟨(entriesOf d.content).modify i removedEntry⟩

theorem removedTable_size (hd : v.node p = some d) (ht : d.fileType = 1) :
    (removedTable d i).tableSize = 10 := by
  rw [removedTable, Directory.tableSize, List.length_modify]
  exact Volume.length_entries hd ht

theorem removedTable_room (hd : v.node p = some d) (ht : d.fileType = 1) :
    ((0 : Nat) : Int) + (removedTable d i).toBytes.length ≤ d.length := by
  have := v.long p d hd ht
  rw [Directory.length_toBytes, removedTable_size hd ht]
  omega

def Volume.without (v : Volume) (d : FileNode) (i : Nat) (hd : v.node p = some d)
    (ht : d.fileType = 1) :
    FileNode :=
  d.overwrite 0 (removedTable d i).toBytes (removedTable_room hd ht)

theorem Volume.erases_without (hd : v.node p = some d) (ht : d.fileType = 1) :
    v.Erases p i d (v.without d i hd ht) where
  dir := hd
  isDir := ht
  sectors := rfl
  isDir' := ht
  long := v.long p d hd ht
  entries := Directory.entriesOf_splice (removedTable_size hd ht)

def Volume.below (v : Volume) (q : Place) : Set Nat :=
  { x | ∃ t m, q <+: t ∧ t ≠ q ∧ v.node t = some m ∧ x ∈ m.sectors }

def Volume.released (v : Volume) (d : FileNode) (i : Nat) (hd : v.node p = some d)
    (ht : d.fileType = 1)
    (m' : BitMap) (hm : m'.numBits = 1024) : Volume :=
  (v.storeMap m' hm).erase p i d (v.without d i hd ht)
    (Volume.erases_without (v := v.storeMap m' hm) hd ht)

theorem wp_release_map {fs : FileSystem} {hdr : FileHeader} {t : Directory} {k : Nat}
    (hr : Rep s v) (hn : v.node p = some n) (hset : ∀ x ∈ n.index, v.map.testBit x = true)
    (hl : n.Lists hdr) (hnum : hdr.numSectors.toInt = n.numSectors)
    (hfs : s.OpenOn fs.freeMapFile 0) (hrd : Readable v.names t.table)
    (hcall : t.table.findIdx? (·.called v.names c) = some k) {Q : Unit → Kernel → Prop}
    (hQ : ∀ s' m' hm, v.map.Cleared n.sectors m' → Rep s' (v.storeMap m' hm) → Steady s s' →
      Wp (Directory.writeBack ⟨t.table.modify k removedEntry⟩ f) Q s') :
    Wp (release fs hdr n.hdr (some c) t f) Q s := by
  rw [release, wp_then, wp_freshMemory, wp_then]
  have hst₁ := Steady.tick s (s.tick + 1)
  have hr₁ := hr.steady hst₁ rfl
  refine wp_fetchMap hr₁.quiet v.isMap hr₁.map (hst₁.openOn hfs) (BitMap.numBits_new _ _)
    fun s₂ hs₂ => ?_
  have hr₂ := hr₁.steady hs₂.toSteady hs₂.disk
  have hst₂ := hst₁.trans hs₂.toSteady
  rw [wp_then]
  refine wp_deallocate (X := n.extent) hl (by rw [hnum]; exact n.count) (hr₂.on _ n hn).tables
    v.isMap.numBits hset fun m₁ hc₁ => ?_
  have hlt : n.hdr < m₁.numBits := by rw [hc₁.numBits, v.isMap.numBits]; exact n.hdr_lt
  have hc₂ : v.map.Cleared n.sectors (m₁.clearBit n.hdr) :=
    (hc₁.trans (.clearBit hlt)).congr fun x => by
      simp only [FileNode.sectors, List.mem_append, List.mem_cons, List.not_mem_nil, or_false]
      tauto
  have hm : (m₁.clearBit n.hdr).numBits = 1024 := hc₂.numBits.trans v.isMap.numBits
  rw [← hr₂.names] at hrd hcall
  rw [BitMap.clear_sector hlt, wp_then, wp_orFault_some, wp_then, wp_remove hrd hcall, wp_then]
  exact hr₂.wp_writeMap (hst₂.openOn hfs) hm fun s₃ hr₃ hst₃ =>
    hQ s₃ _ hm hc₂ hr₃ (hst₂.trans hst₃)

theorem wp_release {fs : FileSystem} {hdr : FileHeader} (hr : Rep s v) (hmk : v.Marks lost)
    (ho : OpenDir s v p d f) (hc : v.child p c = some i) (hn : v.node (p ++ [i]) = some n)
    (hl : n.Lists hdr) (hnum : hdr.numSectors.toInt = n.numSectors)
    (hfs : s.OpenOn fs.freeMapFile 0)
    {Q : Unit → Kernel → Prop}
    (hQ : ∀ s' m' hm, v.map.Cleared n.sectors m' → Rep s' (v.released d i ho.node ho.isDir m' hm) →
      Steady s s' → Q () s') :
    Wp (release fs hdr n.hdr (some c) ⟨entriesOf d.content⟩ f) Q s := by
  refine wp_release_map hr hn (fun x hx => ?_) hl hnum hfs (Volume.readable ho.node ho.isDir)
    ((Volume.findIdx?_called (c := c) ho.node ho.isDir).trans hc) fun s₃ m' hm hc₂ hr₃ hst => ?_
  · exact ((hmk.used x).mpr
      (.inl (.inr ⟨_, n, hn, List.mem_cons_of_mem _ (List.mem_append_left _ hx)⟩))).2
  refine wp_writeDirectory (d := removedTable d i) hr₃.quiet (hr₃.on p d ho.node)
    (hst.openOn ho.openOn)
    (removedTable_room ho.node ho.isDir) (removedTable_size ho.node ho.isDir)
      fun s₄ hst₄ hon₄ hd₄ => ?_
  refine hQ s₄ _ hm hc₂ ⟨hst₄.quiet hr₃.quiet, hst₄.names.trans hr₃.names, ?_, fun q m hq => ?_⟩
    (hst.trans hst₄)
  · exact hr₃.map.frame fun x hx => hd₄ x fun hxd =>
      v.mapApart p d ho.node x hx (List.mem_cons_of_mem _ (List.mem_append_right _ hxd))
  · rcases Volume.eraseNode_cases hq with ⟨-, ⟨-, rfl⟩ | ⟨hqp, hq⟩⟩
    · exact hon₄
    · exact (hr₃.on q m hq).frame fun x hx => hd₄ x fun hxd =>
        v.apart q p m d hq ho.node hqp x hx (List.mem_cons_of_mem _ (List.mem_append_right _ hxd))

theorem Volume.released_node {hd : v.node p = some d} {ht : d.fileType = 1}
    {hm : m'.numBits = 1024} :
    (v.released d i hd ht m' hm).node = v.eraseNode p i (v.without d i hd ht) := rfl

theorem Volume.owned_released {hd : v.node p = some d} {ht : d.fileType = 1}
    {hm : m'.numBits = 1024} (x : Nat) :
    (v.released d i hd ht m' hm).Owned x ↔ x ∈ v.mapFile.sectors ∨
      ∃ q m, ¬ p ++ [i] <+: q ∧ v.node q = some m ∧ x ∈ m.sectors := by
  refine or_congr Iff.rfl ⟨?_, ?_⟩
  · rintro ⟨q, m, hm, hx⟩
    rcases Volume.eraseNode_cases hm with ⟨hq, ⟨rfl, rfl⟩ | ⟨-, hm⟩⟩
    · exact ⟨q, d, hq, hd, hx⟩
    · exact ⟨q, m, hq, hm, hx⟩
  · rintro ⟨q, m, hq, hm, hx⟩
    by_cases hqp : q = p
    · subst hqp
      rw [hd, Option.some.injEq] at hm
      exact ⟨q, _, Volume.eraseNode_dir, hm ▸ hx⟩
    · exact ⟨q, m, (Volume.eraseNode_other hq hqp).trans hm, hx⟩

theorem Volume.Marks.released {hd : v.node p = some d} {ht : d.fileType = 1}
    {hm : m'.numBits = 1024}
    (hmk : v.Marks lost) (hn : v.node (p ++ [i]) = some n) (hc : v.map.Cleared n.sectors m') :
    (v.released d i hd ht m' hm).Marks (lost ∪ v.below (p ++ [i])) := by
  have hapart : ∀ x ∈ n.sectors, ∀ q m, v.node q = some m → x ∈ m.sectors → q = p ++ [i] := by
    intro x hx q m hq hxm
    by_contra hne
    exact v.apart q _ m n hq hn hne x hxm hx
  refine ⟨fun x => ?_, fun x hx => ?_⟩
  · rw [Volume.owned_released, show (v.released d i hd ht m' hm).map = m' from rfl, hc.testBit]
    have hu := hmk.used x
    constructor
    · rintro ⟨hx, hb⟩
      simp only [Bool.and_eq_true, Bool.not_eq_true', decide_eq_false_iff_not] at hb
      rcases hu.mp ⟨hx, hb.1⟩ with (h | ⟨q, m, hq, hxm⟩) | h
      · exact .inl (.inl h)
      · by_cases hpre : p ++ [i] <+: q
        · refine .inr (.inr ⟨q, m, hpre, fun e => hb.2 ?_, hq, hxm⟩)
          rw [e, hn, Option.some.injEq] at hq
          exact hq ▸ hxm
        · exact .inl (.inr ⟨q, m, hpre, hq, hxm⟩)
      · exact .inr (.inl h)
    · intro h
      have hown : v.Owned x ∨ x ∈ lost := by
        rcases h with (h | ⟨q, m, -, hq, hxm⟩) | h | ⟨q, m, -, -, hq, hxm⟩
        · exact .inl (.inl h)
        · exact .inl (.inr ⟨q, m, hq, hxm⟩)
        · exact .inr h
        · exact .inl (.inr ⟨q, m, hq, hxm⟩)
      have hnot : x ∉ n.sectors := by
        intro hx
        rcases h with (h | ⟨q, m, hpre, hq, hxm⟩) | h | ⟨q, m, -, hne, hq, hxm⟩
        · exact v.mapApart _ n hn x h hx
        · exact hpre (hapart x hx q m hq hxm ▸ List.prefix_rfl)
        · exact hmk.lost x h (.inr ⟨_, n, hn, hx⟩)
        · exact hne (hapart x hx q m hq hxm)
      obtain ⟨hx, hb⟩ := hu.mpr hown
      exact ⟨hx, by simp [hb, hnot]⟩
  · rw [Volume.owned_released]
    rintro (h | ⟨q, m, hpre, hq, hxm⟩)
    · rcases hx with hx | ⟨t, m, -, -, ht, hxm⟩
      · exact hmk.lost x hx (.inl h)
      · exact v.mapApart t m ht x h hxm
    · rcases hx with hx | ⟨t, m', hpre', -, ht, hxm'⟩
      · exact hmk.lost x hx (.inr ⟨q, m, hq, hxm⟩)
      · exact v.apart q t m m' hq ht (fun e => hpre (e ▸ hpre')) x hxm hxm'

/-! ## What a call of `Remove` does to the tree -/

structure FileNode.SameShape (a b : FileNode) : Prop where
  hdr : a.hdr = b.hdr
  index : a.index = b.index
  data : a.data = b.data
  fileType : a.fileType = b.fileType
  numVisits : a.numVisits = b.numVisits
  length : a.length = b.length
  numSectors : a.numSectors = b.numSectors

namespace FileNode.SameShape
variable {a b c : FileNode}

theorem refl (a : FileNode) : a.SameShape a := ⟨rfl, rfl, rfl, rfl, rfl, rfl, rfl⟩

theorem trans (h : a.SameShape b) (h' : b.SameShape c) : a.SameShape c :=
  ⟨h.1.trans h'.1, h.2.trans h'.2, h.3.trans h'.3, h.4.trans h'.4, h.5.trans h'.5, h.6.trans h'.6,
    h.7.trans h'.7⟩

theorem sectors (h : a.SameShape b) : a.sectors = b.sectors := by
  rw [FileNode.sectors, FileNode.sectors, h.hdr, h.index, h.data]

theorem lists {hdr : FileHeader} (h : a.SameShape b) (hl : b.Lists hdr) :
    a.Lists hdr := fun j t hj =>
  hl j t (h.index ▸ hj)

end FileNode.SameShape

/-- A plain file whose visit count is not 1 is not deleted. -/
def FileNode.Refuses (n : FileNode) : Prop := n.fileType = 0 ∧ n.numVisits ≠ 1

instance (n : FileNode) : Decidable n.Refuses := inferInstanceAs (Decidable (_ ∧ _))

theorem FileNode.not_refuses_of_dir (ht : n.fileType = 1) : ¬ n.Refuses := fun h =>
  absurd (ht.symm.trans h.1) (by decide)

def Volume.under (v : Volume) (q : Place) : Set Nat :=
  { x | ∃ t m, q <+: t ∧ v.node t = some m ∧ x ∈ m.sectors }

/-- The sectors of the files at the place `q` or below that refuse deletion. -/
def Volume.stays (v : Volume) (q : Place) : Set Nat :=
  { x | ∃ t m, q <+: t ∧ v.node t = some m ∧ m.Refuses ∧ x ∈ m.sectors }

/-- `v'` is `v` after `Remove` was called on what is in slot `i` of the directory at `p`: the
file that refuses stays with a smaller count; all else below is gone from the tree, and what
refused there has become `lost'`. -/
structure Volume.Removed (v v' : Volume) (p : Place) (i : Nat) (lost lost' : Set Nat) : Prop where
  names : v'.names = v.names
  label : v'.label = v.label
  mapFile : v'.mapFile.sectors = v.mapFile.sectors
  kept : ∀ q, ¬ p ++ [i] <+: q → q ≠ p → v'.node q = v.node q
  dir : ∃ d d', v.node p = some d ∧ v'.node p = some d' ∧ d'.SameShape d
  left : ∀ q m', p ++ [i] <+: q → v'.node q = some m' →
    q = p ++ [i] ∧ ∃ m, v.node q = some m ∧ m.Refuses ∧ m' = m.withVisits (m.numVisits - 1)
  marks : v'.Marks lost'
  lost : lost' ∪ v'.under (p ++ [i]) = lost ∪ v.stays (p ++ [i])

theorem Volume.plain_below {q : Place} {m : FileNode} (hn : v.node p = some n) (ht : n.fileType = 0)
    (hp : p <+: q) (hm : v.node q = some m) : q = p ∧ m = n := by
  by_cases hq : q = p
  · rw [hq, hn, Option.some.injEq] at hm
    exact ⟨hq, hm.symm⟩
  · obtain ⟨d, hd, hdt⟩ := Volume.dir_of_below hp hq hm
    rw [hn, Option.some.injEq] at hd
    rw [← hd, ht] at hdt
    cases hdt

theorem Volume.below_plain (hn : v.node p = some n) (ht : n.fileType = 0) : v.below p = ∅ := by
  refine Set.eq_empty_iff_forall_notMem.mpr fun x hx => ?_
  obtain ⟨q, m, hq, hqr, hm, -⟩ := hx
  exact hqr (Volume.plain_below hn ht hq hm).1

theorem Volume.removed_refused (hmk : v.Marks lost) (hn : v.node (p ++ [i]) = some n)
    (hrf : n.Refuses) :
    v.Removed (v.setVisits (p ++ [i]) n hn (n.numVisits - 1)) p i lost lost := by
  have hnode : ∀ q, q ≠ p ++ [i] → (v.setVisits (p ++ [i]) n hn (n.numVisits - 1)).node
    q = v.node q :=
    fun q hq => Function.update_of_ne hq _ _
  have hself : (v.setVisits (p ++ [i]) n hn (n.numVisits - 1)).node (p ++ [i]) =
      some (n.withVisits (n.numVisits - 1)) := Function.update_self ..
  obtain ⟨-, d, hd, hdt⟩ := v.parent p i n hn
  refine ⟨rfl, rfl, rfl, fun q hq _ => hnode q fun e => hq (e ▸ List.prefix_rfl), ?_,
    fun q m' hq hm => ?_,
    hmk.replace _ rfl, ?_⟩
  · exact ⟨d, d, hd, (hnode p (Volume.concat_ne p i).symm).trans hd, .refl d⟩
  · by_cases hqr : q = p ++ [i]
    · rw [hqr, hself, Option.some.injEq] at hm
      exact ⟨hqr, n, hqr ▸ hn, hrf, hm.symm⟩
    · rw [hnode q hqr] at hm
      exact absurd (Volume.plain_below hn hrf.1 hq hm).1 hqr
  · congr 1
    ext x
    constructor
    · rintro ⟨q, m, hq, hm, hx⟩
      by_cases hqr : q = p ++ [i]
      · rw [hqr, hself, Option.some.injEq] at hm
        rw [← hm] at hx
        exact ⟨q, n, hq, hqr ▸ hn, hrf, hx⟩
      · rw [hnode q hqr] at hm
        exact absurd (Volume.plain_below hn hrf.1 hq hm).1 hqr
    · rintro ⟨q, m, hq, hm, -, hx⟩
      obtain ⟨rfl, rfl⟩ := Volume.plain_below hn hrf.1 hq hm
      exact ⟨_, _, hq, hself, hx⟩

/-- `v₁` is `v` right before the file in slot `i` of the directory at `p` is given back: what is
below it has been dealt with. -/
structure Volume.Emptied (v v₁ : Volume) (p : Place) (i : Nat) (lost lost₁ : Set Nat) : Prop where
  names : v₁.names = v.names
  label : v₁.label = v.label
  mapFile : v₁.mapFile.sectors = v.mapFile.sectors
  kept : ∀ q, ¬ p ++ [i] <+: q → v₁.node q = v.node q
  marks : v₁.Marks lost₁
  lost : lost₁ ∪ v₁.below (p ++ [i]) = lost ∪ v.stays (p ++ [i])

theorem Volume.Emptied.released {v₁ : Volume} {lost₁ : Set Nat} (h : v.Emptied v₁ p i lost lost₁)
    (hn : v₁.node (p ++ [i]) = some n) (hd : v₁.node p = some d) (ht : d.fileType = 1)
    (hc : v₁.map.Cleared n.sectors m') (hm : m'.numBits = 1024) :
    v.Removed (v₁.released d i hd ht m' hm) p i lost (lost₁ ∪ v₁.below (p ++ [i])) where
  names := h.names
  label := h.label
  mapFile := h.mapFile
  kept q hq hqp := (Volume.eraseNode_other hq hqp).trans (h.kept q hq)
  dir := ⟨d, _, (h.kept p (Volume.not_isPrefix_concat p i)).symm.trans hd, Volume.eraseNode_dir,
    ⟨rfl, rfl, rfl, rfl, rfl, rfl, rfl⟩⟩
  left q m' hq hm' := by
    rw [Volume.released_node, Volume.eraseNode_below hq] at hm'
    cases hm'
  marks := h.marks.released hn hc
  lost := by
    have hnone : (v₁.released d i hd ht m' hm).under (p ++ [i]) = ∅ := by
      refine Set.eq_empty_iff_forall_notMem.mpr fun x hx => ?_
      obtain ⟨q, m, hq, hqm, -⟩ := hx
      rw [Volume.released_node, Volume.eraseNode_below hq] at hqm
      cases hqm
    rw [hnone, Set.union_empty, h.lost]

theorem Volume.emptied_plain (hmk : v.Marks lost) (hn : v.node (p ++ [i]) = some n)
    (ht : n.fileType = 0)
    (hv : n.numVisits = 1) (w : Word) : v.Emptied (v.setVisits (p ++ [i]) n hn w) p i
    lost lost where
  names := rfl
  label := rfl
  mapFile := rfl
  kept q hq := Function.update_of_ne (fun e : q = p ++ [i] => hq (e ▸ List.prefix_rfl)) _ _
  marks := hmk.replace _ rfl
  lost := by
    have h₁ : (v.setVisits (p ++ [i]) n hn w).below (p ++ [i]) = ∅ :=
      Volume.below_plain (n := n.withVisits w) (Function.update_self ..) ht
    have h₂ : v.stays (p ++ [i]) = ∅ := by
      refine Set.eq_empty_iff_forall_notMem.mpr fun x hx => ?_
      obtain ⟨q, m, hq, hm, hrf, -⟩ := hx
      rw [(Volume.plain_below hn ht hq hm).2] at hrf
      exact hrf.2 hv
    rw [h₁, h₂]

theorem OpenDir.setVisits (ho : OpenDir s v p d f) (hn : v.node (p ++ [i]) = some n) (w : Word) :
    OpenDir s (v.setVisits (p ++ [i]) n hn w) p d f :=
  ⟨(Function.update_of_ne (Volume.concat_ne p i).symm _ _).trans ho.node, ho.isDir, ho.openOn⟩

theorem Volume.child_setVisits (hn : v.node (p ++ [i]) = some n) (w : Word)
    (hc : v.child p c = some i) :
    (v.setVisits (p ++ [i]) n hn w).child p c = some i :=
  Volume.child_eq_some.mpr ⟨⟨_, Function.update_self ..⟩, (Volume.child_eq_some.mp hc).2⟩

theorem removeFuel_plain {name : CString} (hr : Rep s v) (h : v.Binds name p i n)
    (ht : n.fileType = 0) (fs : FileSystem) (fuel : Nat) :
    ∃ s₁ d f hdr, Rep s₁ (v.setVisits (p ++ [i]) n h.node (n.numVisits - 1)) ∧ Steady s s₁ ∧
      OpenDir s₁ (v.setVisits (p ++ [i]) n h.node (n.numVisits - 1)) p d f ∧ n.Lists hdr ∧
      hdr.numSectors.toInt = n.numSectors ∧ ∀ Q : Bool → Kernel → Prop,
        Wp (removeFuel fs (fuel + 1) name) Q s ↔
        if n.numVisits = 1 then
          Wp (release fs hdr n.hdr (some (lastComp (components name))) ⟨entriesOf d.content⟩ f)
            (fun _ => Q true) s₁
        else Q false s₁ := by
  obtain ⟨a, s₁, ⟨d, f, rfl, hr₁, hst₁, ho₁⟩, hwp₁⟩ := Wp.exists_iff <| wp_getFileName_bound hr h
    (Q := fun a s₁ => ∃ d f, a = (some (lastComp (components name)), ⟨entriesOf d.content⟩, f) ∧
      Rep s₁ v ∧ Steady s s₁ ∧ OpenDir s₁ v p d f)
    fun s₁ d f hr₁ hst₁ ho₁ => ⟨d, f, rfl, hr₁, hst₁, ho₁⟩
  have hpos : ¬ (n.hdr : Int) = -1 := by omega
  have hon₁ := hr₁.on _ n h.node
  have htype : (hdrAt s₁.disk n.hdr).fileType = 0 := hon₁.fileType.trans ht
  have hr₂ := hr₁.setVisits h.node { hdrAt s₁.disk n.hdr with numVisits := n.numVisits - 1 }
    (w := n.numVisits - 1) (.refl _)
  have hst₂ := Steady.setDisk s₁ n.hdr
    ({ hdrAt s₁.disk n.hdr with numVisits := n.numVisits - 1 } : FileHeader).toSector
  refine ⟨_, d, f, { hdrAt s₁.disk n.hdr with numVisits := n.numVisits - 1 }, hr₂,
    hst₁.trans hst₂, (ho₁.steady hst₂).setVisits h.node _, fun j t hj => hon₁.lists j t hj,
    hon₁.numSectors, fun Q => ?_⟩
  rw [removeFuel, wp_then, hwp₁]
  simp only [wp_then]
  rw [wp_lookup_found hr₁ ho₁.node ho₁.isDir h.child h.node, if_neg hpos]
  simp only [FileHeader.fetchFrom, FileHeader.writeBack, wp_then, wp_readSector n.hdr_lt, wp_pure]
  rw [show FileHeader.ofSector (s₁.disk n.hdr) = hdrAt s₁.disk n.hdr from rfl, if_pos htype]
  simp only [wp_then, wp_writeSector n.hdr_lt, hon₁.numVisits]
  by_cases hv : n.numVisits = 1
  · have hcond : decide (n.numVisits ≠ 1) = false := by simp [hv]
    simp only [hcond, Bool.false_eq_true, if_false, wp_then, wp_pure, if_pos hv]
  · simp only [hv, ne_eq, not_false_eq_true, decide_true, if_true, if_false, wp_pure]

theorem wp_remove_refused {fs : FileSystem} {fuel : Nat} {name : CString} (hr : Rep s v)
    (h : v.Binds name p i n) (ht : n.fileType = 0) (hv : n.numVisits ≠ 1)
    {Q : Bool → Kernel → Prop}
    (hQ : ∀ s', Rep s' (v.setVisits (p ++ [i]) n h.node (n.numVisits - 1)) → Steady s s' →
      Q false s') :
    Wp (removeFuel fs (fuel + 1) name) Q s := by
  obtain ⟨s₁, d, f, hdr, hr₁, hst₁, -, -, -, hwp⟩ := removeFuel_plain hr h ht fs fuel
  rw [hwp, if_neg hv]
  exact hQ s₁ hr₁ hst₁

theorem wp_remove_last {fs : FileSystem} {fuel : Nat} {name : CString} (hr : Rep s v)
    (hmk : v.Marks lost) (hfs : s.OpenOn fs.freeMapFile 0) (h : v.Binds name p i n)
    (ht : n.fileType = 0) (hv : n.numVisits = 1) {Q : Bool → Kernel → Prop}
    (hQ : ∀ s' v', Rep s' v' → Steady s s' → v.Removed v' p i lost lost → Q true s') :
    Wp (removeFuel fs (fuel + 1) name) Q s := by
  obtain ⟨s₁, d, f, hdr, hr₁, hst₁, ho₁, hl, hnum, hwp⟩ := removeFuel_plain hr h ht fs fuel
  rw [hwp, if_pos hv]
  generalize n.numVisits - 1 = w at hr₁ ho₁
  have hself : (v.setVisits (p ++ [i]) n h.node w).node (p ++ [i]) = some (n.withVisits w) :=
    Function.update_self ..
  refine wp_release hr₁ (hmk.replace _ rfl) ho₁ (Volume.child_setVisits h.node _ h.child) hself hl
    hnum (hst₁.openOn hfs) fun s₂ m' hm hc hr₂ hst₂ => ?_
  have hrm := (Volume.emptied_plain hmk h.node ht hv w).released hself ho₁.node ho₁.isDir hc hm
  have hnone : (v.setVisits (p ++ [i]) n h.node w).below (p ++ [i]) = ∅ :=
    Volume.below_plain hself ht
  rw [hnone, Set.union_empty] at hrm
  exact hQ s₂ _ hr₂ (hst₁.trans hst₂) hrm

theorem wp_remove_plain {fs : FileSystem} {fuel : Nat} {name : CString} (hr : Rep s v)
    (hmk : v.Marks lost)
    (hfs : s.OpenOn fs.freeMapFile 0) (h : v.Binds name p i n) (ht : n.fileType = 0)
    {Q : Bool → Kernel → Prop}
    (hQ : ∀ s' v', Rep s' v' → Steady s s' → v.Removed v' p i lost lost → Q
      (decide (n.numVisits = 1)) s') :
    Wp (removeFuel fs (fuel + 1) name) Q s := by
  by_cases hv : n.numVisits = 1
  · rw [decide_eq_true hv] at hQ
    exact wp_remove_last hr hmk hfs h ht hv hQ
  · rw [decide_eq_false hv] at hQ
    exact wp_remove_refused hr h ht hv fun s' hr' hst' =>
      hQ s' _ hr' hst' (Volume.removed_refused hmk h.node ⟨ht, hv⟩)

theorem wp_remove_unbound {fs : FileSystem} {fuel : Nat} {name : CString} (hr : Rep s v)
    (hthru : v.ThroughDirs [] (dirComps (components name)))
    (hc : ∀ p, v.walk [] (dirComps (components name)) = some p →
      v.child p (lastComp (components name)) = none)
    {Q : Bool → Kernel → Prop} (hQ : ∀ s', Rep s' v → Steady s s' → Q false s') :
    Wp (removeFuel fs (fuel + 1) name) Q s := by
  rw [removeFuel, wp_then]
  refine wp_getFileName hr hthru (fun s₁ q d f hw hr₁ hst₁ ho₁ => ?_)
    fun s₁ q d f hw hr₁ hst₁ ho₁ => ?_
  · simp only [wp_then]
    rw [wp_lookup_missing hr₁ ho₁.node ho₁.isDir (hc q hw), if_pos rfl, wp_pure]
    exact hQ s₁ hr₁ hst₁
  · simp only [wp_then]
    rw [wp_find_null, if_pos rfl, wp_pure]
    exact hQ s₁ hr₁ hst₁

end Nachos
