import Nachos.FileSys.DirSpec
import Mathlib.Data.List.Induction

/-! The file system as a tree: which file lies under which slot of which directory, who owns
which sector, and what it means that a state of the kernel holds such a tree. -/

namespace Nachos
open Lib Program

/-- A place in the tree: the slots to follow from the root directory. -/
abbrev Place := List Nat

/-- What the directory entry of a place says about the file there. -/
def Describes (names : List CString) (file : Option FileNode) (label : CString)
    (e : DirectoryEntry) : Prop :=
  match file with
  | none => e.inUse = false
  | some n => e.inUse = true ∧ e.sector = .ofNat 32 n.hdr ∧ e.name ≠ 0 ∧
      names[e.name.toNat - 1]? = some label

structure Volume where
  names : List CString
  map : BitMap
  mapFile : FileNode
  node : Place → Option FileNode
  label : Place → CString
  isMap : MapFile mapFile map
  root : ∃ r, node [] = some r ∧ r.hdr = 1 ∧ r.fileType = 1
  kind : ∀ p n, node p = some n → n.fileType = 0 ∨ n.fileType = 1
  parent : ∀ p i n, node (p ++ [i]) = some n → i < 10 ∧ ∃ d, node p = some d ∧ d.fileType = 1
  long : ∀ p d, node p = some d → d.fileType = 1 → 120 ≤ d.length
  entry : ∀ p d, node p = some d → d.fileType = 1 → ∀ i e, (entriesOf d.content)[i]? = some e →
    Describes names (node (p ++ [i])) (label (p ++ [i])) e
  plain : ∀ p i n, node (p ++ [i]) = some n → '/' ∉ label (p ++ [i])
  distinct : ∀ p i j n n', node (p ++ [i]) = some n → node (p ++ [j]) = some n' →
    label (p ++ [i]) = label (p ++ [j]) → i = j
  apart : ∀ p q n n', node p = some n → node q = some n' → p ≠ q → ∀ x ∈ n.sectors, x ∉ n'.sectors
  mapApart : ∀ p n, node p = some n → ∀ x ∈ mapFile.sectors, x ∉ n.sectors

def Volume.Owned (v : Volume) (x : Nat) : Prop :=
  x ∈ v.mapFile.sectors ∨ ∃ p n, v.node p = some n ∧ x ∈ n.sectors

/-- The free map marks the sectors of the files, and those of `lost`, which belong to none. -/
structure Volume.Marks (v : Volume) (lost : Set Nat) : Prop where
  used : ∀ x, x < 1024 ∧ v.map.testBit x = true ↔ v.Owned x ∨ x ∈ lost
  lost : ∀ x ∈ lost, ¬ v.Owned x

/-- The kernel is between calls and its disk holds the tree. -/
structure Rep (s : Kernel) (v : Volume) : Prop where
  quiet : s.Quiet
  names : s.names = v.names
  map : v.mapFile.On s.disk
  on : ∀ p n, v.node p = some n → n.On s.disk

namespace Rep
variable {s s' : Kernel} {v : Volume}

theorem touched {h : Nat} (hr : Rep s v) (hst : Steady s s') (ht : Touched h s.disk s'.disk)
    (hh : h = 0 ∨ ∃ p n, v.node p = some n ∧ n.hdr = h) : Rep s' v where
  quiet := hst.quiet hr.quiet
  names := hst.names.trans hr.names
  map := by
    refine hr.map.touched ht fun hm => ?_
    rcases hh with rfl | ⟨p, n, hn, rfl⟩
    · exact v.mapFile.hdr_not_mem (v.isMap.hdr ▸ hm)
    · exact v.mapApart p n hn _ (List.mem_cons_of_mem _ hm) (List.mem_cons_self ..)
  on p n hn := by
    refine (hr.on p n hn).touched ht fun hm => ?_
    rcases hh with rfl | ⟨q, n', hn', rfl⟩
    · exact v.mapApart p n hn 0 (v.isMap.hdr ▸ List.mem_cons_self ..) (List.mem_cons_of_mem _ hm)
    · by_cases hpq : p = q
      · rw [hpq, hn', Option.some.injEq] at hn
        exact n.hdr_not_mem (hn ▸ hm)
      · exact v.apart p q n n' hn hn' hpq _ (List.mem_cons_of_mem _ hm) (List.mem_cons_self ..)

theorem steady (hr : Rep s v) (hst : Steady s s') (hd : s'.disk = s.disk) : Rep s' v :=
  ⟨hst.quiet hr.quiet, hst.names.trans hr.names, hd ▸ hr.map, fun p n hn => hd ▸ hr.on p n hn⟩

theorem setFile (hr : Rep s v) (f : Handle) (file : OpenFile) : Rep (s.setFile f file) v :=
  ⟨⟨hr.quiet.mutex, hr.quiet.arrayMutex⟩, hr.names, hr.map, hr.on⟩

end Rep

/-! ## Looking up names -/

namespace Volume
variable {v : Volume} {p : Place} {c : CString} {i : Nat} {d : FileNode}

def child (v : Volume) (p : Place) (c : CString) : Option Nat :=
  (List.range 10).find? fun i => (v.node (p ++ [i])).isSome && v.label (p ++ [i]) == c

theorem child_eq_some : v.child p c = some i ↔ (∃ n, v.node (p ++ [i]) = some n) ∧ v.label
    (p ++ [i]) = c := by
  constructor
  · intro h
    have := List.find?_some h
    simpa [Option.isSome_iff_exists] using this
  · rintro ⟨⟨n, hn⟩, hc⟩
    cases hf : v.child p c with
    | none =>
      have := List.find?_eq_none.mp hf i (List.mem_range.mpr (v.parent p i n hn).1)
      simp [hn, hc] at this
    | some j =>
      have hj := List.find?_some hf
      simp only [Bool.and_eq_true, Option.isSome_iff_exists, beq_iff_eq] at hj
      obtain ⟨⟨n', hn'⟩, hc'⟩ := hj
      rw [v.distinct p i j n n' hn hn' (hc.trans hc'.symm)]

theorem length_entries (hd : v.node p = some d) (ht : d.fileType = 1) :
    (entriesOf d.content).length = 10 := by
  have := v.long p d hd ht
  have := d.size
  exact length_entriesOf (by omega)

theorem called_iff (hd : v.node p = some d) (ht : d.fileType = 1) {e : DirectoryEntry}
    (he : (entriesOf d.content)[i]? = some e) :
    e.called v.names c = true ↔ v.child p c = some i := by
  have h := v.entry p d hd ht i e he
  rw [child_eq_some, DirectoryEntry.called]
  cases hn : v.node (p ++ [i]) with
  | none =>
    rw [hn] at h
    simp [show e.inUse = false from h]
  | some n =>
    rw [hn] at h
    obtain ⟨hu, -, hne, hname⟩ := h
    have hne' : ¬ e.name = 0#32 := hne
    simp [hu, hne', hname]

theorem findIdx?_called (hd : v.node p = some d) (ht : d.fileType = 1) :
    (entriesOf d.content).findIdx? (·.called v.names c) = v.child p c := by
  cases hf : (entriesOf d.content).findIdx? (·.called v.names c) with
  | some i =>
    obtain ⟨hi, hcall, -⟩ := List.findIdx?_eq_some_iff_getElem.mp hf
    exact ((called_iff hd ht (List.getElem?_eq_getElem hi)).mp hcall).symm
  | none =>
    cases hc : v.child p c with
    | none => rfl
    | some i =>
      obtain ⟨⟨n, hn⟩, -⟩ := child_eq_some.mp hc
      have hi : i < (entriesOf d.content).length := by
        rw [length_entries hd ht]
        exact (v.parent p i n hn).1
      have := List.findIdx?_eq_none_iff.mp hf _ (List.getElem_mem hi)
      rw [(called_iff hd ht (List.getElem?_eq_getElem hi)).mpr hc] at this
      cases this

theorem readable (hd : v.node p = some d) (ht : d.fileType = 1) :
    Readable v.names (entriesOf d.content) := by
  intro e he hu _
  obtain ⟨i, hi⟩ := List.mem_iff_getElem?.mp he
  have h := v.entry p d hd ht i e hi
  cases hn : v.node (p ++ [i]) with
  | none =>
    rw [hn] at h
    rw [show e.inUse = false from h] at hu
    cases hu
  | some n =>
    rw [hn] at h
    exact ⟨_, h.2.2.2⟩

def walk (v : Volume) (p : Place) : List CString → Option Place
  | [] => some p
  | c :: cs => (v.child p c).bind fun i => v.walk (p ++ [i]) cs

/-- Every place on the way, as far as it goes, is a directory. -/
def ThroughDirs (v : Volume) (p : Place) : List CString → Prop
  | [] => True
  | c :: cs => ∀ i, v.child p c = some i →
    (∃ d, v.node (p ++ [i]) = some d ∧ d.fileType = 1) ∧ v.ThroughDirs (p ++ [i]) cs

theorem dir_of_below {q : Place} {n : FileNode} (hp : p <+: q) (hne : q ≠ p)
    (hn : v.node q = some n) :
    ∃ d, v.node p = some d ∧ d.fileType = 1 := by
  obtain ⟨t, rfl⟩ := hp
  induction t using List.reverseRecOn generalizing n with
  | nil => simp at hne
  | append_singleton t i ih =>
    rw [← List.append_assoc] at hn
    obtain ⟨-, d, hd, ht⟩ := v.parent _ i n hn
    by_cases hte : t = []
    · subst hte
      rw [List.append_nil] at hd
      exact ⟨d, hd, ht⟩
    · exact ih (by simpa using hte) hd

theorem node_below_none {q : Place} (hp : v.node p = none) (h : p <+: q) : v.node q = none := by
  by_cases hq : q = p
  · rw [hq, hp]
  · cases hn : v.node q with
    | none => rfl
    | some m =>
      obtain ⟨d, hd, -⟩ := dir_of_below h hq hn
      rw [hp] at hd
      cases hd

section walk
variable {v' : Volume} {q : Place} {cs cs' : List CString}

theorem walk_append : v.walk p (cs ++ cs') = (v.walk p cs).bind fun q => v.walk q cs' := by
  induction cs generalizing p with
  | nil => rfl
  | cons c cs ih =>
    rw [List.cons_append, walk, walk]
    cases v.child p c with
    | none => rfl
    | some i => exact ih

theorem walk_cons (h : v.walk p (c :: cs) = some q) :
    ∃ i, v.child p c = some i ∧ v.walk (p ++ [i]) cs = some q := by
  rw [walk] at h
  exact Option.bind_eq_some_iff.mp h

theorem prefix_of_walk (h : v.walk p cs = some q) : p <+: q := by
  induction cs generalizing p with
  | nil =>
    cases h
    exact List.prefix_rfl
  | cons c cs ih =>
    obtain ⟨i, -, hw⟩ := walk_cons h
    exact (List.prefix_append ..).trans (ih hw)

theorem walk_congr (h : v.walk p cs = some q)
    (hl : ∀ t n, v.node t = some n → v'.label t = v.label t)
    (hn : ∀ t n, t <+: q → v.node t = some n → ∃ n', v'.node t = some n') :
    v'.walk p cs = some q := by
  induction cs generalizing p with
  | nil => exact h
  | cons c cs ih =>
    obtain ⟨i, hc, hw⟩ := walk_cons h
    obtain ⟨⟨n, hi⟩, hlab⟩ := child_eq_some.mp hc
    have hc' : v'.child p c = some i :=
      child_eq_some.mpr ⟨hn _ n (prefix_of_walk hw) hi, (hl _ n hi).trans hlab⟩
    rw [walk, hc']
    exact ih hw

theorem throughDirs_of_walk {d : FileNode} (h : v.walk p cs = some q) (hd : v.node q = some d)
    (ht : d.fileType = 1) : v.ThroughDirs p cs := by
  induction cs generalizing p with
  | nil => trivial
  | cons c cs ih =>
    obtain ⟨i, hc, hw⟩ := walk_cons h
    intro j hj
    obtain rfl : i = j := Option.some.inj (hc.symm.trans hj)
    refine ⟨?_, ih hw⟩
    cases cs with
    | nil =>
      cases hw
      exact ⟨d, hd, ht⟩
    | cons c' cs =>
      obtain ⟨k, hk, -⟩ := walk_cons hw
      obtain ⟨⟨n, hn⟩, -⟩ := child_eq_some.mp hk
      exact (v.parent _ k n hn).2

end walk
end Volume
end Nachos
