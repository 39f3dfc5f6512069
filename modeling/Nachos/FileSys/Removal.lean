import Nachos.FileSys.Layout
import Nachos.FileSys.RemoveTree

/-! What `Remove` leaves, as the disk shows it: the part of the tree that is gone, and the rest of
it. -/

namespace Nachos
open Lib Program FileSystem

/-! ## The tree -/

namespace Volume.Removed
variable {v v' : Volume} {p q : Place} {i : Nat} {lost lost' : Set Nat} {n : FileNode}

theorem gone (h : v.Removed v' p i lost lost') (hn : v.node (p ++ [i]) = some n)
    (hrf : ¬ n.Refuses) (hq : p ++ [i] <+: q) : v'.node q = none := by
  cases hm : v'.node q with
  | none => rfl
  | some m' =>
    obtain ⟨rfl, m, hm', hrf', -⟩ := h.left q m' hq hm
    obtain rfl := Option.some.inj (hn.symm.trans hm')
    exact absurd hrf' hrf

theorem owned (h : v.Removed v' p i lost lost') (hgone : ∀ q, p ++ [i] <+: q → v'.node q = none)
    (x : Nat) : v'.Owned x ↔ v.Owned x ∧ x ∉ v.under (p ++ [i]) := by
  obtain ⟨d, d', hd, hd', hsh⟩ := h.dir
  have hout : ∀ q m, ¬ p ++ [i] <+: q → v.node q = some m → x ∈ m.sectors →
      x ∉ v.under (p ++ [i]) := by
    rintro q m hq hm hx ⟨t, k, ht, hk, hxk⟩
    exact v.apart q t m k hm hk (fun e => hq (e ▸ ht)) x hx hxk
  have hp : ¬ p ++ [i] <+: p := Volume.not_isPrefix_concat p i
  constructor
  · rintro (hx | ⟨q, m, hm, hx⟩)
    · rw [h.mapFile] at hx
      refine ⟨.inl hx, ?_⟩
      rintro ⟨t, k, -, hk, hxk⟩
      exact v.mapApart t k hk x hx hxk
    · have hq : ¬ p ++ [i] <+: q := fun hq => by
        rw [hgone q hq] at hm
        cases hm
      by_cases hqp : q = p
      · rw [hqp, hd', Option.some.injEq] at hm
        rw [← hm, hsh.sectors] at hx
        exact ⟨.inr ⟨p, d, hd, hx⟩, hout p d hp hd hx⟩
      · rw [h.kept q hq hqp] at hm
        exact ⟨.inr ⟨q, m, hm, hx⟩, hout q m hq hm hx⟩
  · rintro ⟨hx | ⟨q, m, hm, hx⟩, hnot⟩
    · exact .inl (h.mapFile ▸ hx)
    · have hq : ¬ p ++ [i] <+: q := fun hq => hnot ⟨q, m, hq, hm, hx⟩
      by_cases hqp : q = p
      · rw [hqp, hd, Option.some.injEq] at hm
        rw [← hm, ← hsh.sectors] at hx
        exact .inr ⟨p, d', hd', hx⟩
      · exact .inr ⟨q, m, (h.kept q hq hqp).trans hm, hx⟩

theorem lost_eq (h : v.Removed v' p i lost lost') (hgone : ∀ q, p ++ [i] <+: q → v'.node q = none) :
    lost' = lost ∪ v.stays (p ++ [i]) := by
  have hnone : v'.under (p ++ [i]) = ∅ := by
    refine Set.eq_empty_iff_forall_notMem.mpr fun x hx => ?_
    obtain ⟨q, m, hq, hm, -⟩ := hx
    rw [hgone q hq] at hm
    cases hm
  rw [← h.lost, hnone, Set.union_empty]

theorem walk (h : v.Removed v' p i lost lost') {cs : List CString} (hw : v.walk [] cs = some p) :
    v'.walk [] cs = some p := by
  refine Volume.walk_congr hw (fun t _ _ => congrFun h.label t) fun t m ht hm => ?_
  by_cases htp : t = p
  · obtain ⟨d, d', -, hd', -⟩ := h.dir
    exact ⟨d', htp ▸ hd'⟩
  · refine ⟨m, (h.kept t (fun hpre => ?_) htp).trans hm⟩
    exact Volume.not_isPrefix_concat p i (hpre.trans ht)

theorem unbound (h : v.Removed v' p i lost lost') {c : CString} (hc : v.child p c = some i)
    (hgone : ∀ q, p ++ [i] <+: q → v'.node q = none) : v'.child p c = none := by
  cases hc' : v'.child p c with
  | none => rfl
  | some j =>
    obtain ⟨⟨m, hm⟩, hlab⟩ := Volume.child_eq_some.mp hc'
    have hj : j ≠ i := by
      rintro rfl
      rw [hgone _ List.prefix_rfl] at hm
      cases hm
    have hq : ¬ p ++ [i] <+: p ++ [j] := fun hpre =>
      hj (Volume.concat_inj (hpre.eq_of_length (by simp))).2.symm
    rw [h.kept _ hq (Volume.concat_ne p j)] at hm
    rw [h.label] at hlab
    have := Volume.child_eq_some.mpr ⟨⟨m, hm⟩, hlab⟩
    exact absurd (Option.some.inj (this.symm.trans hc)) hj

end Volume.Removed

/-! ## The disk -/

def listed (s : Kernel) (h j : Nat) : Option (CString × Nat) :=
  ((entriesOf (fileBytes s.disk h))[j]?).bind fun e =>
    if e.inUse then (s.names[e.name.toNat - 1]?).map fun c => (c, e.sector.toNat) else none

def subtreeSectors (d : Nat → Sector) (r : Place) : Set Nat :=
  { x | ∃ q h, r <+: q ∧ headerAt d q = some h ∧ x ∈ fileSectors d h }

/-- Nothing is at `r` or below any more, and the map has lost the sectors that were there. -/
structure SubtreeDeleted (s s' : Kernel) (r : Place) : Prop where
  gone : ∀ q, r <+: q → headerAt s'.disk q = none
  map : ∀ x < 1024, (freeMapOn s'.disk).testBit x = true ↔
    (freeMapOn s.disk).testBit x = true ∧ x ∉ subtreeSectors s.disk r

/-- All that is at `r` or below is there and has its sectors. -/
structure SubtreeKept (s s' : Kernel) (r : Place) : Prop where
  tree : ∀ q, r <+: q → headerAt s'.disk q = headerAt s.disk q
  entries : ∀ q h j, r <+: q ++ [j] → headerAt s.disk q = some h →
    (hdrAt s.disk h).fileType = 1 → listed s' h j = listed s h j
  sectors : ∀ q h, r <+: q → headerAt s.disk q = some h →
    fileSectors s'.disk h = fileSectors s.disk h
  map : freeMapOn s'.disk = freeMapOn s.disk

/-- The headers differ at most in time stamps and in entries of the index that are not in use. -/
structure SameHeader (a b : FileHeader) : Prop where
  fileType : a.fileType = b.fileType
  numVisits : a.numVisits = b.numVisits
  numBytes : a.numBytes = b.numBytes
  numSectors : a.numSectors = b.numSectors

/-- What is not at `r` or below is as it was, apart from the slot that `r` is listed in. -/
structure OutsideUnchanged (s s' : Kernel) (r : Place) : Prop where
  tree : ∀ q, ¬ r <+: q → headerAt s'.disk q = headerAt s.disk q
  entries : ∀ q h j, ¬ r <+: q ++ [j] → headerAt s.disk q = some h →
    (hdrAt s.disk h).fileType = 1 → listed s' h j = listed s h j
  headers : ∀ q h, ¬ r <+: q → headerAt s.disk q = some h →
    SameHeader (hdrAt s'.disk h) (hdrAt s.disk h)
  sectors : ∀ q h, ¬ r <+: q → headerAt s.disk q = some h →
    fileSectors s'.disk h = fileSectors s.disk h
  bytes : ∀ q h, ¬ r <+: q → (∀ j, r ≠ q ++ [j]) → headerAt s.disk q = some h →
    fileBytes s'.disk h = fileBytes s.disk h

section disk
variable {s s' : Kernel} {v v' : Volume} {p : Place} {i : Nat} {lost lost' : Set Nat}
  {n m : FileNode}

theorem Rep.listed (hr : Rep s v) (hn : v.node p = some n) (ht : n.fileType = 1) (j : Nat) :
    listed s n.hdr j = (v.node (p ++ [j])).map fun m => (v.label (p ++ [j]), m.hdr) := by
  rw [Nachos.listed, (hr.on p n hn).fileBytes, hr.names]
  cases he : (entriesOf n.content)[j]? with
  | none =>
    have hlen := List.getElem?_eq_none_iff.mp he
    rw [Volume.length_entries hn ht] at hlen
    cases hm : v.node (p ++ [j]) with
    | none => rfl
    | some m =>
      have := (v.parent p j m hm).1
      omega
  | some e =>
    have hd := v.entry p n hn ht j e he
    rw [Option.bind_some]
    cases hm : v.node (p ++ [j]) with
    | none =>
      rw [hm] at hd
      rw [if_neg (by rw [show e.inUse = false from hd]; exact Bool.false_ne_true), Option.map_none]
    | some m =>
      rw [hm] at hd
      obtain ⟨hu, hsec, -, hname⟩ := hd
      rw [if_pos hu, hname, hsec, toNat_ofNat_sector m.hdr_lt]
      rfl

theorem Rep.mem_subtreeSectors (hr : Rep s v) {r : Place} {x : Nat} :
    x ∈ subtreeSectors s.disk r ↔ x ∈ v.under r := by
  constructor
  · rintro ⟨q, h, hq, hh, hx⟩
    rw [hr.headerAt] at hh
    obtain ⟨m, hm, rfl⟩ := Option.map_eq_some_iff.mp hh
    rw [(hr.on q m hm).fileSectors] at hx
    exact ⟨q, m, hq, hm, hx⟩
  · rintro ⟨q, m, hq, hm, hx⟩
    refine ⟨q, m.hdr, hq, ?_, ?_⟩
    · rw [hr.headerAt, hm, Option.map_some]
    · rwa [(hr.on q m hm).fileSectors]

theorem FileNode.On.sameHeader {d d' : Nat → Sector} (h : n.On d) (h' : m.On d')
    (hs : m.SameShape n) : SameHeader (hdrAt d' n.hdr) (hdrAt d n.hdr) := by
  rw [← hs.hdr]
  refine ⟨?_, ?_, ?_, ?_⟩
  · rw [h'.fileType, hs.hdr, h.fileType, hs.fileType]
  · rw [h'.numVisits, hs.hdr, h.numVisits, hs.numVisits]
  · refine BitVec.eq_of_toInt_eq ?_
    rw [h'.length, hs.hdr, h.length, hs.length]
  · refine BitVec.eq_of_toInt_eq ?_
    rw [h'.numSectors, hs.hdr, h.numSectors, hs.numSectors]

theorem Rep.outsideUnchanged (hr : Rep s v) (hr' : Rep s' v') (h : v.Removed v' p i lost lost') :
    OutsideUnchanged s s' (p ++ [i]) := by
  obtain ⟨d, d', hd, hd', hsh⟩ := h.dir
  -- a file outside has kept its shape
  have hshape : ∀ q k, ¬ p ++ [i] <+: q → Nachos.headerAt s.disk q = some k →
      ∃ n m, v.node q = some n ∧ v'.node q = some m ∧ m.SameShape n ∧ n.hdr = k ∧
        (q ≠ p → m = n) := by
    intro q k hq hk
    rw [hr.headerAt] at hk
    obtain ⟨n, hn, rfl⟩ := Option.map_eq_some_iff.mp hk
    by_cases hqp : q = p
    · subst hqp
      obtain rfl := Option.some.inj (hd.symm.trans hn)
      exact ⟨d, d', hd, hd', hsh, rfl, fun h => absurd rfl h⟩
    · exact ⟨n, n, hn, (h.kept q hq hqp).trans hn, .refl n, rfl, fun _ => rfl⟩
  refine ⟨fun q hq => ?_, fun q k j hq hk ht => ?_, fun q k hq hk => ?_, fun q k hq hk => ?_,
    fun q k hq hqr hk => ?_⟩
  · rw [hr'.headerAt, hr.headerAt]
    by_cases hqp : q = p
    · rw [hqp, hd, hd', Option.map_some, Option.map_some, hsh.hdr]
    · rw [h.kept q hq hqp]
  · have hq' : ¬ p ++ [i] <+: q := fun hpre => hq (hpre.trans (List.prefix_append ..))
    obtain ⟨n, m, hn, hm, hs, rfl, -⟩ := hshape q k hq' hk
    rw [(hr.on q n hn).fileType] at ht
    rw [hr.listed hn ht, ← hs.hdr, hr'.listed hm (hs.fileType.trans ht), h.label]
    by_cases hqp : q ++ [j] = p
    · rw [hqp, hd, hd', Option.map_some, Option.map_some, hsh.hdr]
    · rw [h.kept _ hq hqp]
  · obtain ⟨n, m, hn, hm, hs, rfl, -⟩ := hshape q k hq hk
    exact (hr.on q n hn).sameHeader (hr'.on q m hm) hs
  · obtain ⟨n, m, hn, hm, hs, rfl, -⟩ := hshape q k hq hk
    rw [(hr.on q n hn).fileSectors, ← hs.hdr, (hr'.on q m hm).fileSectors, hs.sectors]
  · obtain ⟨n, m, hn, hm, -, rfl, heq⟩ := hshape q k hq hk
    obtain rfl := heq fun e => hqr i (by rw [e])
    rw [(hr.on q m hn).fileBytes, (hr'.on q m hm).fileBytes]

theorem Rep.subtreeDeleted (hr : Rep s v) (hr' : Rep s' v') (hmk : v.Marks ∅)
    (h : v.Removed v' p i ∅ lost') (hgone : ∀ q, p ++ [i] <+: q → v'.node q = none)
    (hstays : v.stays (p ++ [i]) = ∅) : SubtreeDeleted s s' (p ++ [i]) := by
  have hlost : lost' = ∅ := by rw [h.lost_eq hgone, hstays, Set.union_empty]
  refine ⟨fun q hq => ?_, fun x hx => ?_⟩
  · rw [hr'.headerAt, hgone q hq, Option.map_none]
  · have h₁ := hmk.used x
    have h₂ := h.marks.used x
    rw [hlost] at h₂
    rw [h.owned hgone] at h₂
    rw [hr'.freeMapOn, hr.freeMapOn, hr.mem_subtreeSectors]
    simp only [hx, true_and, Set.mem_empty_iff_false, or_false] at h₁ h₂
    rw [h₂, h₁]

end disk
end Nachos
