import Nachos.FileSys.Resolve

/-! The files of a disk as its sectors describe them, with no regard to what a file system
would keep true of them; and that a disk which holds a tree describes that tree. -/

namespace Nachos
open Lib Program FileSystem

/-! ## One file -/

/-- The sectors of the index tables that the header in sector `h` lists. -/
def indexSectors (d : Nat → Sector) (h : Nat) : List Nat :=
  (List.range (tablesFor (hdrAt d h).numSectors.toInt.toNat)).map fun j : Nat =>
    (((hdrAt d h).entry j).getD 0).toNat

def dataSectors (d : Nat → Sector) (h : Nat) : List Nat :=
  (List.range (hdrAt d h).numSectors.toInt.toNat).map fun j =>
    ((d ((indexSectors d h).getD (j / 32) 0)).word (j % 32)).toNat

def fileSectors (d : Nat → Sector) (h : Nat) : List Nat :=
    h :: (indexSectors d h ++ dataSectors d h)

def fileBytes (d : Nat → Sector) (h : Nat) : List Byte :=
  (blocks d (dataSectors d h)).take (hdrAt d h).numBytes.toInt.toNat

def freeMapOn (d : Nat → Sector) : BitMap := (BitMap.new (fun _ => 0) 1024).load (fileBytes d 0)

section file
variable {d : Nat → Sector} {n : FileNode}

theorem toNat_ofNat_sector {x : Nat} (h : x < 1024) : (BitVec.ofNat 32 x).toNat = x := by
  rw [BitVec.toNat_ofNat]
  omega

theorem FileNode.On.indexSectors (h : n.On d) : indexSectors d n.hdr = n.index := by
  have hcount : tablesFor (hdrAt d n.hdr).numSectors.toInt.toNat = n.index.length := by
    rw [h.numSectors, ← n.count, n.tables, tablesFor]
  refine List.ext_getElem (by simp [Nachos.indexSectors, hcount]) fun j h₁ h₂ => ?_
  have he := h.lists j _ (List.getElem?_eq_getElem h₂)
  simp only [Nachos.indexSectors, List.getElem_map, List.getElem_range, he, Option.getD_some]
  exact toNat_ofNat_sector (n.index_lt (List.getElem_mem h₂))

theorem FileNode.On.dataSectors (h : n.On d) : dataSectors d n.hdr = n.data := by
  have hcount : (hdrAt d n.hdr).numSectors.toInt.toNat = n.data.length := by rw [h.numSectors,
    ← n.count]
  refine List.ext_getElem (by simp [Nachos.dataSectors, hcount]) fun j h₁ h₂ => ?_
  obtain ⟨t, ht, hw⟩ := h.tables j _ (List.getElem?_eq_getElem h₂)
  simp only [Nachos.dataSectors, List.getElem_map, List.getElem_range, h.indexSectors,
    List.getD, ht,
    Option.getD_some, hw]
  exact toNat_ofNat_sector (n.data_lt (List.getElem_mem h₂))

theorem FileNode.On.fileSectors (h : n.On d) : fileSectors d n.hdr = n.sectors := by
  rw [Nachos.fileSectors, h.indexSectors, h.dataSectors, FileNode.sectors]

theorem FileNode.On.fileBytes (h : n.On d) : fileBytes d n.hdr = n.content := by
  rw [Nachos.fileBytes, h.dataSectors, h.length, h.content]

theorem MapFile.freeMapOn {m : BitMap} (hm : MapFile n m) (h : n.On d) : freeMapOn d = m := by
  have hb := h.fileBytes
  rw [hm.hdr] at hb
  rw [Nachos.freeMapOn, hb, hm.content]
  exact BitMap.load_toBytes ((BitMap.numBits_new _ _).trans hm.numBits.symm)

end file

/-! ## The tree -/

def headerBelow (d : Nat → Sector) (h : Nat) : Place → Option Nat
  | [] => some h
  | i :: p =>
    if (hdrAt d h).fileType = 1 then
      match (entriesOf (fileBytes d h))[i]? with
      | some e => if e.inUse then headerBelow d e.sector.toNat p else none
      | none => none
    else none

/-- The header sector at a place: `FileSystem` keeps the root directory's in sector 1. -/
abbrev headerAt (d : Nat → Sector) (p : Place) : Option Nat := headerBelow d 1 p

def lookup (s : Kernel) (h : Nat) (c : CString) : Option Nat :=
  ((entriesOf (fileBytes s.disk h)).find? (·.called s.names c)).map (·.sector.toNat)

def walkDirs (s : Kernel) (h : Nat) : List CString → Option Nat
  | [] => some h
  | c :: cs => (lookup s h c).bind fun h' => walkDirs s h' cs

def DirsOnly (s : Kernel) (h : Nat) : List CString → Prop
  | [] => True
  | c :: cs => ∀ h', lookup s h c = some h' → (hdrAt s.disk h').fileType = 1 ∧ DirsOnly s h' cs

/-- The header that a path is bound to. The text before the first slash of a path is not
looked up. -/
def boundTo (s : Kernel) (name : CString) : Option Nat :=
  (walkDirs s 1 (dirComps (components name))).bind fun h => lookup s h (lastComp (components name))

theorem Volume.dir_of_walk {v : Volume} {p : Place} {n : FileNode} {q : Place} {cs : List CString}
    (hn : v.node p = some n)
    (ht : n.fileType = 1) (hthru : v.ThroughDirs p cs) (hw : v.walk p cs = some q) :
    ∃ d, v.node q = some d ∧ d.fileType = 1 := by
  induction cs generalizing p n with
  | nil =>
    cases hw
    exact ⟨n, hn, ht⟩
  | cons c cs ih =>
    obtain ⟨i, hc, hw⟩ := Volume.walk_cons hw
    obtain ⟨⟨m, hm, htype⟩, hrest⟩ := hthru i hc
    exact ih hm htype hrest hw

/-! Names are looked up in the directories only. -/

namespace Volume
variable {s : Kernel} {v : Volume} {p : Place} {n : FileNode}

theorem lookup_of_held (h : v.dirs.Held s) (hn : v.node p = some n) (ht : n.fileType = 1)
    (c : CString) :
    lookup s n.hdr c = (v.child p c).bind fun i => (v.node (p ++ [i])).map (·.hdr) := by
  have hf := Volume.findIdx?_called (c := c) hn ht
  rw [Nachos.lookup, (h.on n ⟨p, hn, ht⟩).fileBytes, h.names,
    show v.dirs.names = v.names from rfl]
  cases hc : v.child p c with
  | none =>
    rw [hc] at hf
    rw [List.find?_eq_none.mpr fun e he => by rw [List.findIdx?_eq_none_iff.mp hf e he]; decide]
    rfl
  | some i =>
    rw [hc] at hf
    obtain ⟨hi, hcall, hlt⟩ := List.findIdx?_eq_some_iff_getElem.mp hf
    obtain ⟨m, e, hm, he, hs⟩ := Volume.entry_child hn ht hc
    have hfind : (entriesOf n.content).find? (·.called v.names c) = some e := by
      have hei : (entriesOf n.content)[i] = e := (List.getElem?_eq_some_iff.mp he).2
      refine List.find?_eq_some_iff_getElem.mpr ⟨hei ▸ hcall, i, hi, hei, fun j hj => ?_⟩
      simpa using hlt j hj
    have hsec : e.sector.toNat = m.hdr := by
      have h₁ := BitVec.toInt_eq_toNat_cond e.sector
      have h₂ := e.sector.isLt
      split at h₁ <;> omega
    rw [hfind, Option.map_some, hsec, Option.bind_some, hm, Option.map_some]

theorem walkDirs_of_held (h : v.dirs.Held s) (hn : v.node p = some n) (ht : n.fileType = 1)
    {cs : List CString} (hthru : v.ThroughDirs p cs) :
    walkDirs s n.hdr cs = (v.walk p cs).bind fun q => (v.node q).map (·.hdr) := by
  induction cs generalizing p n with
  | nil => rw [Nachos.walkDirs, Volume.walk, Option.bind_some, hn, Option.map_some]
  | cons c cs ih =>
    rw [Nachos.walkDirs, Volume.walk, lookup_of_held h hn ht]
    cases hc : v.child p c with
    | none => rfl
    | some i =>
      obtain ⟨⟨m, hm, htype⟩, hrest⟩ := hthru i hc
      rw [Option.bind_some, Option.bind_some, hm, Option.map_some, Option.bind_some]
      exact ih hm htype hrest

theorem boundTo_of_held (h : v.dirs.Held s) {name : CString} {i : Nat} (hb : v.Binds name p i n) :
    boundTo s name = some n.hdr := by
  obtain ⟨r, hroot, hr1, hrt⟩ := v.root
  obtain ⟨-, d, hd, ht⟩ := v.parent p i n hb.node
  rw [boundTo, ← hr1, walkDirs_of_held h hroot hrt hb.thru, hb.walk, Option.bind_some, hd,
    Option.map_some, Option.bind_some, lookup_of_held h hd ht, hb.child, Option.bind_some, hb.node,
    Option.map_some]

end Volume

namespace Rep
variable {s : Kernel} {v : Volume} {p : Place} {n : FileNode}

theorem freeMapOn (hr : Rep s v) : freeMapOn s.disk = v.map := v.isMap.freeMapOn hr.map

theorem headerBelow (hr : Rep s v) (hn : v.node p = some n) (q : Place) :
    headerBelow s.disk n.hdr q = (v.node (p ++ q)).map (·.hdr) := by
  induction q generalizing p n with
  | nil => rw [Nachos.headerBelow, List.append_nil, hn, Option.map_some]
  | cons i q ih =>
    have hassoc : p ++ i :: q = p ++ [i] ++ q := by simp
    rw [Nachos.headerBelow, (hr.on p n hn).fileType, (hr.on p n hn).fileBytes, hassoc]
    -- below a free slot, and below a plain file, the tree has nothing
    have hnone : v.node (p ++ [i]) = none → v.node (p ++ [i] ++ q) = none := fun h =>
      Volume.node_below_none h (List.prefix_append ..)
    by_cases ht : n.fileType = 1
    · rw [if_pos ht]
      cases he : (entriesOf n.content)[i]? with
      | none =>
        have hi : ∀ m, v.node (p ++ [i]) ≠ some m := fun m hm => by
          have := List.getElem?_eq_none_iff.mp he
          have := (v.parent p i m hm).1
          rw [Volume.length_entries hn ht] at *
          omega
        rw [hnone (Option.eq_none_iff_forall_ne_some.mpr hi)]
        rfl
      | some e =>
        have hd := v.entry p n hn ht i e he
        cases hm : v.node (p ++ [i]) with
        | none =>
          rw [hm] at hd
          rw [hnone hm]
          simp [show e.inUse = false from hd]
        | some m =>
          rw [hm] at hd
          have hsec : e.sector.toNat = m.hdr := by rw [hd.2.1, toNat_ofNat_sector m.hdr_lt]
          simp only [hd.1, if_true, hsec]
          exact ih hm
    · rw [if_neg ht, hnone]
      · rfl
      · refine Option.eq_none_iff_forall_ne_some.mpr fun m hm => ?_
        obtain ⟨-, d, hd, hdt⟩ := v.parent p i m hm
        rw [hn, Option.some.injEq] at hd
        exact ht (hd ▸ hdt)

theorem headerAt (hr : Rep s v) (p : Place) : headerAt s.disk p = (v.node p).map (·.hdr) := by
  obtain ⟨r, hroot, hr1, -⟩ := v.root
  have h := hr.headerBelow hroot p
  rwa [hr1, List.nil_append] at h

theorem lookup (hr : Rep s v) (hn : v.node p = some n) (ht : n.fileType = 1) (c : CString) :
    lookup s n.hdr c = (v.child p c).bind fun i => (v.node (p ++ [i])).map (·.hdr) :=
  Volume.lookup_of_held hr.held hn ht c

theorem dirsOnly (hr : Rep s v) (hn : v.node p = some n) (ht : n.fileType = 1) (cs : List CString) :
    DirsOnly s n.hdr cs ↔ v.ThroughDirs p cs := by
  induction cs generalizing p n with
  | nil => exact Iff.rfl
  | cons c cs ih =>
    rw [DirsOnly, Volume.ThroughDirs, hr.lookup hn ht]
    constructor
    · intro h i hi
      obtain ⟨⟨m, hm⟩, -⟩ := Volume.child_eq_some.mp hi
      obtain ⟨htype, hrest⟩ := h m.hdr (by rw [hi, Option.bind_some, hm, Option.map_some])
      rw [(hr.on _ m hm).fileType] at htype
      exact ⟨⟨m, hm, htype⟩, (ih hm htype).mp hrest⟩
    · intro h h' hh'
      obtain ⟨i, hi, hmap⟩ := Option.bind_eq_some_iff.mp hh'
      obtain ⟨m, hm, rfl⟩ := Option.map_eq_some_iff.mp hmap
      obtain ⟨⟨m', hm', htype⟩, hrest⟩ := h i hi
      obtain rfl : m = m' := Option.some.inj (hm.symm.trans hm')
      exact ⟨(hr.on _ m hm).fileType.trans htype, (ih hm htype).mpr hrest⟩

theorem walkDirs (hr : Rep s v) (hn : v.node p = some n) (ht : n.fileType = 1) {cs : List CString}
    (hthru : v.ThroughDirs p cs) :
    walkDirs s n.hdr cs = (v.walk p cs).bind fun q => (v.node q).map (·.hdr) :=
  Volume.walkDirs_of_held hr.held hn ht hthru

theorem boundTo (hr : Rep s v) {name : CString} (hd : DirsOnly s 1 (dirComps (components name))) :
    v.ThroughDirs [] (dirComps (components name)) ∧ boundTo s name =
      (v.walk [] (dirComps (components name))).bind fun p =>
        (v.child p (lastComp (components name))).bind fun i => (v.node (p ++ [i])).map (·.hdr) := by
  obtain ⟨r, hroot, hr1, hrt⟩ := v.root
  rw [← hr1] at hd
  have hthru := (hr.dirsOnly hroot hrt _).mp hd
  refine ⟨hthru, ?_⟩
  rw [Nachos.boundTo, ← hr1, hr.walkDirs hroot hrt hthru]
  cases hw : v.walk [] (dirComps (components name)) with
  | none => rfl
  | some p =>
    obtain ⟨d, hd, ht⟩ := Volume.dir_of_walk hroot hrt hthru hw
    rw [Option.bind_some, Option.bind_some, hd, Option.map_some, Option.bind_some, hr.lookup hd ht]

theorem binds_of_boundTo (hr : Rep s v) {name : CString}
    (hd : DirsOnly s 1 (dirComps (components name)))
    {h : Nat} (hb : Nachos.boundTo s name = some h) : ∃ p i n, v.Binds name p i n ∧ n.hdr = h := by
  rw [(hr.boundTo hd).2] at hb
  obtain ⟨p, hp, hb⟩ := Option.bind_eq_some_iff.mp hb
  obtain ⟨i, hi, hb⟩ := Option.bind_eq_some_iff.mp hb
  obtain ⟨n, hn, rfl⟩ := Option.map_eq_some_iff.mp hb
  exact ⟨p, i, n, ⟨hp, hi, hn⟩, rfl⟩

theorem boundTo_of_binds (hr : Rep s v) {name : CString} {i : Nat} (h : v.Binds name p i n) :
    Nachos.boundTo s name = some n.hdr :=
  Volume.boundTo_of_held hr.held h

theorem boundTo_eq_none (hr : Rep s v) {name : CString}
    (hthru : v.ThroughDirs [] (dirComps (components name)))
    (hc : ∀ p, v.walk [] (dirComps (components name)) = some p →
      v.child p (lastComp (components name)) = none) : Nachos.boundTo s name = none := by
  obtain ⟨r, hroot, hr1, hrt⟩ := v.root
  have hd := (hr.dirsOnly hroot hrt _).mpr hthru
  rw [hr1] at hd
  rw [(hr.boundTo hd).2]
  cases hw : v.walk [] (dirComps (components name)) with
  | none => rfl
  | some q => rw [Option.bind_some, hc q hw, Option.bind_none]

theorem unbound_of_boundTo (hr : Rep s v) {name : CString}
    (hd : DirsOnly s 1 (dirComps (components name)))
    (hb : Nachos.boundTo s name = none) {p : Place}
    (hp : v.walk [] (dirComps (components name)) = some p) :
    v.child p (lastComp (components name)) = none := by
  rw [(hr.boundTo hd).2, hp, Option.bind_some] at hb
  cases hc : v.child p (lastComp (components name)) with
  | none => rfl
  | some i =>
    obtain ⟨⟨n, hn⟩, -⟩ := Volume.child_eq_some.mp hc
    rw [hc, Option.bind_some, hn] at hb
    cases hb

end Rep

end Nachos
