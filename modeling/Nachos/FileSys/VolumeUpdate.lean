import Nachos.FileSys.Resolve

/-! The changes that the file system makes to the tree: a file's contents or header fields, the
free map, a new file, and the removal of what is under a place. -/

namespace Nachos
open Lib Program

namespace Volume
variable {v : Volume} {p q : Place} {n n' : FileNode}

/-! ## One file -/

/-- `n'` may stand at `p` in the place of `n`. -/
structure Replaces (v : Volume) (p : Place) (n n' : FileNode) : Prop where
  node : v.node p = some n
  hdr : n'.hdr = n.hdr
  kind : n'.fileType = n.fileType
  long : n.fileType = 1 → 120 ≤ n'.length
  entries : n.fileType = 1 → entriesOf n'.content = entriesOf n.content
  apart : ∀ q n₂, q ≠ p → v.node q = some n₂ → ∀ x ∈ n'.sectors, x ∉ n₂.sectors
  map : ∀ x ∈ v.mapFile.sectors, x ∉ n'.sectors

theorem Replaces.of_sectors (hn : v.node p = some n) (hs : n'.sectors = n.sectors)
    (hk : n'.fileType = n.fileType) (hlong : n.fileType = 1 → 120 ≤ n'.length)
    (he : n.fileType = 1 → entriesOf n'.content = entriesOf n.content) : v.Replaces p n n' where
  node := hn
  hdr := (List.cons.inj hs).1
  kind := hk
  long := hlong
  entries := he
  apart q n₂ hq hn₂ x hx := v.apart p q n n₂ hn hn₂ hq.symm x (hs ▸ hx)
  map x hx := by rw [hs]; exact v.mapApart p n hn x hx

theorem replace_cases {m' : FileNode}
    (hm : Function.update v.node p (some n') q = some m') :
    (q = p ∧ m' = n') ∨ (q ≠ p ∧ v.node q = some m') := by
  by_cases hq : q = p
  · rw [hq, Function.update_self, Option.some.injEq] at hm
    exact .inl ⟨hq, hm.symm⟩
  · rw [Function.update_of_ne hq] at hm
    exact .inr ⟨hq, hm⟩

theorem replace_old (h : v.Replaces p n n') {m' : FileNode}
    (hm : Function.update v.node p (some n') q = some m') :
    ∃ m, v.node q = some m ∧ m'.hdr = m.hdr ∧ m'.fileType = m.fileType := by
  rcases replace_cases hm with ⟨rfl, rfl⟩ | ⟨-, hm⟩
  · exact ⟨n, h.node, h.hdr, h.kind⟩
  · exact ⟨m', hm, rfl, rfl⟩

theorem replace_new (h : v.Replaces p n n') {m : FileNode} (hm : v.node q = some m) :
    ∃ m', Function.update v.node p (some n') q = some m' ∧ m'.hdr = m.hdr ∧
      m'.fileType = m.fileType := by
  by_cases hq : q = p
  · subst hq
    rw [h.node, Option.some.injEq] at hm
    exact ⟨n', Function.update_self .., hm ▸ h.hdr, hm ▸ h.kind⟩
  · exact ⟨m, by rw [Function.update_of_ne hq, hm], rfl, rfl⟩

theorem replace_describes (h : v.Replaces p n n') {e : DirectoryEntry} {c : CString}
    (he : Describes v.names (v.node q) c e) :
    Describes v.names (Function.update v.node p (some n') q) c e := by
  by_cases hq : q = p
  · subst hq
    rw [h.node] at he
    rw [Function.update_self]
    exact ⟨he.1, by rw [h.hdr]; exact he.2.1, he.2.2⟩
  · rwa [Function.update_of_ne hq]

def replace (v : Volume) (p : Place) (n n' : FileNode) (h : v.Replaces p n n') : Volume where
  names := v.names
  map := v.map
  mapFile := v.mapFile
  node := Function.update v.node p (some n')
  label := v.label
  isMap := v.isMap
  root := by
    obtain ⟨r, hr, hr1, hrt⟩ := v.root
    obtain ⟨r', hr', hh, hk⟩ := replace_new h hr
    exact ⟨r', hr', hh.trans hr1, hk.trans hrt⟩
  kind q m' hm := by
    obtain ⟨m, hm, -, hk⟩ := replace_old h hm
    rw [hk]
    exact v.kind q m hm
  parent q i m' hm := by
    obtain ⟨m, hm, -, -⟩ := replace_old h hm
    obtain ⟨hi, d, hd, hdt⟩ := v.parent q i m hm
    obtain ⟨d', hd', -, hk⟩ := replace_new h hd
    exact ⟨hi, d', hd', hk.trans hdt⟩
  long q d hd ht := by
    rcases replace_cases hd with ⟨rfl, rfl⟩ | ⟨-, hd⟩
    · exact h.long (h.kind.symm.trans ht)
    · exact v.long q d hd ht
  entry q d hd ht i e he := by
    refine replace_describes h ?_
    rcases replace_cases hd with ⟨rfl, rfl⟩ | ⟨-, hd⟩
    · have hk := h.kind.symm.trans ht
      exact v.entry q n h.node hk i e (h.entries hk ▸ he)
    · exact v.entry q d hd ht i e he
  plain q i m' hm := by
    obtain ⟨m, hm, -⟩ := replace_old h hm
    exact v.plain q i m hm
  distinct q i j m m' hm hm' := by
    obtain ⟨m, hm, -⟩ := replace_old h hm
    obtain ⟨m', hm', -⟩ := replace_old h hm'
    exact v.distinct q i j m m' hm hm'
  apart q r m m' hm hm' hqr x hx := by
    rcases replace_cases hm with ⟨rfl, rfl⟩ | ⟨hqp, hq⟩
    · rcases replace_cases hm' with ⟨rfl, -⟩ | ⟨hrp, hr⟩
      · exact absurd rfl hqr
      · exact h.apart r m' hrp hr x hx
    · rcases replace_cases hm' with ⟨rfl, rfl⟩ | ⟨-, hr⟩
      · exact fun hx' => h.apart q m hqp hq x hx' hx
      · exact v.apart q r m m' hq hr hqr x hx
  mapApart q m' hm x hx := by
    rcases replace_cases hm with ⟨rfl, rfl⟩ | ⟨-, hm⟩
    · exact h.map x hx
    · exact v.mapApart q m' hm x hx

/-! ## The free map -/

def withMap (v : Volume) (m : BitMap) (mf : FileNode) (hm : MapFile mf m)
    (hs : mf.sectors = v.mapFile.sectors) : Volume :=
  { v with
    map := m
    mapFile := mf
    isMap := hm
    mapApart := fun p n hn x hx => v.mapApart p n hn x (hs ▸ hx) }

/-! ## The heap -/

theorem describes_names {names : List CString} {file : Option FileNode} {c : CString}
    {e : DirectoryEntry}
    (h : Describes names file c e) (c' : CString) : Describes (names ++ [c']) file c e := by
  cases file with
  | none => exact h
  | some n =>
    refine ⟨h.1, h.2.1, h.2.2.1, ?_⟩
    have hlt := (List.getElem?_eq_some_iff.mp h.2.2.2).1
    rw [List.getElem?_append_left hlt]
    exact h.2.2.2

def withName (v : Volume) (c : CString) : Volume :=
  { v with
    names := v.names ++ [c]
    entry := fun p d hd ht i e he => describes_names (v.entry p d hd ht i e he) c }

/-! ## A new file -/

/-- `nf` may be added under the name `c` in slot `i` of the directory `d` at `p`, which then
is `d'`; the name is at heap address `a`. -/
structure Inserts (v : Volume) (p : Place) (i : Nat) (c : CString) (a : Nat) (d d' nf : FileNode) :
    Prop where
  dir : v.node p = some d
  isDir : d.fileType = 1
  slot : i < 10
  free : v.node (p ++ [i]) = none
  unbound : v.child p c = none
  plain : '/' ∉ c
  address : 0 < a ∧ a < 2 ^ 32
  name : v.names[a - 1]? = some c
  sectors : d'.sectors = d.sectors
  isDir' : d'.fileType = 1
  long : 120 ≤ d'.length
  entries : ∃ e, (entriesOf d.content)[i]? = some e ∧
    entriesOf d'.content = (entriesOf d.content).set i (addedEntry e nf.hdr a)
  kind : nf.fileType = 0 ∨ nf.fileType = 1
  empty : nf.fileType = 1 → 120 ≤ nf.length ∧ ∀ e ∈ entriesOf nf.content, e.inUse = false
  apart : ∀ q n, v.node q = some n → ∀ x ∈ nf.sectors, x ∉ n.sectors
  map : ∀ x ∈ v.mapFile.sectors, x ∉ nf.sectors

section insert
variable {i a : Nat} {c : CString} {d d' nf : FileNode}

theorem concat_ne (p : Place) (i : Nat) : p ++ [i] ≠ p := by simp

theorem concat_inj {p q : Place} {i j : Nat} (h : p ++ [i] = q ++ [j]) : p = q ∧ i = j := by
  simpa using List.append_inj' h rfl

def insertNode (v : Volume) (p : Place) (i : Nat) (d' nf : FileNode) : Place → Option FileNode :=
  Function.update (Function.update v.node p (some d')) (p ++ [i]) (some nf)

theorem insertNode_new : v.insertNode p i d' nf (p ++ [i]) = some nf := Function.update_self ..

theorem insertNode_dir : v.insertNode p i d' nf p = some d' := by
  rw [insertNode, Function.update_of_ne (concat_ne p i).symm, Function.update_self]

theorem insertNode_other (h₁ : q ≠ p ++ [i]) (h₂ : q ≠ p) :
    v.insertNode p i d' nf q = v.node q := by
  rw [insertNode, Function.update_of_ne h₁, Function.update_of_ne h₂]

theorem insertNode_cases {m : FileNode} (h : v.insertNode p i d' nf q = some m) :
    (q = p ++ [i] ∧ m = nf) ∨ (q = p ∧ m = d') ∨ (q ≠ p ++ [i] ∧ q ≠ p ∧ v.node q = some m) := by
  by_cases h₁ : q = p ++ [i]
  · subst h₁
    rw [insertNode_new, Option.some.injEq] at h
    exact .inl ⟨rfl, h.symm⟩
  · by_cases h₂ : q = p
    · subst h₂
      rw [insertNode_dir, Option.some.injEq] at h
      exact .inr (.inl ⟨rfl, h.symm⟩)
    · rw [insertNode_other h₁ h₂] at h
      exact .inr (.inr ⟨h₁, h₂, h⟩)

theorem Inserts.below (h : v.Inserts p i c a d d' nf) (j : Nat) :
    v.node (p ++ [i] ++ [j]) = none := by
  cases hn : v.node (p ++ [i] ++ [j]) with
  | none => rfl
  | some m =>
    obtain ⟨-, d₂, hd₂, -⟩ := v.parent (p ++ [i]) j m hn
    rw [h.free] at hd₂
    cases hd₂

theorem Inserts.hdr (h : v.Inserts p i c a d d' nf) : d'.hdr = d.hdr := (List.cons.inj h.sectors).1

theorem Inserts.old (h : v.Inserts p i c a d d' nf) {m' : FileNode} (hq : q ≠ p ++ [i])
    (hm : v.insertNode p i d' nf q = some m') :
    ∃ m, v.node q = some m ∧ m'.hdr = m.hdr ∧ m'.fileType = m.fileType ∧
      m'.sectors = m.sectors := by
  rcases insertNode_cases hm with ⟨rfl, -⟩ | ⟨rfl, rfl⟩ | ⟨-, -, hm⟩
  · exact absurd rfl hq
  · exact ⟨d, h.dir, h.hdr, h.isDir'.trans h.isDir.symm, h.sectors⟩
  · exact ⟨m', hm, rfl, rfl, rfl⟩

theorem Inserts.new (h : v.Inserts p i c a d d' nf) {m : FileNode} (hm : v.node q = some m) :
    ∃ m', v.insertNode p i d' nf q = some m' ∧ m'.fileType = m.fileType := by
  by_cases hq : q = p
  · subst hq
    rw [h.dir, Option.some.injEq] at hm
    exact ⟨d', insertNode_dir, h.isDir'.trans (hm ▸ h.isDir).symm⟩
  · have hne : q ≠ p ++ [i] := fun e => by
      rw [e, h.free] at hm
      cases hm
    exact ⟨m, by rw [insertNode_other hne hq, hm], rfl⟩

theorem Inserts.not_child (h : v.Inserts p i c a d d' nf) (j : Nat) :
    ¬ ((∃ n, v.node (p ++ [j]) = some n) ∧ v.label (p ++ [j]) = c) := fun hc => by
  have := child_eq_some.mpr hc
  rw [h.unbound] at this
  cases this

theorem Inserts.describes (h : v.Inserts p i c a d d' nf) (hq : q ≠ p ++ [i]) {names : List CString}
    {l : CString} {e : DirectoryEntry} (he : Describes names (v.node q) l e) :
    Describes names (v.insertNode p i d' nf q) l e := by
  by_cases hqp : q = p
  · subst hqp
    rw [h.dir] at he
    rw [insertNode_dir]
    exact ⟨he.1, by rw [h.hdr]; exact he.2.1, he.2.2⟩
  · rwa [insertNode_other hq hqp]

theorem describes_added {names : List CString} (ha : 0 < a ∧ a < 2 ^ 32)
    (hn : names[a - 1]? = some c)
    (e : DirectoryEntry) (nf : FileNode) : Describes names (some nf) c (addedEntry e nf.hdr a) := by
  have ht : (BitVec.ofNat 32 a).toNat = a := by rw [BitVec.toNat_ofNat, Nat.mod_eq_of_lt ha.2]
  refine ⟨e.inUse_setInUse true, rfl, fun h0 => ?_, by rw [addedEntry, ht]; exact hn⟩
  have h := congrArg BitVec.toNat h0
  rw [addedEntry, ht] at h
  exact ha.1.ne' h

def insert (v : Volume) (p : Place) (i : Nat) (c : CString) (a : Nat) (d d' nf : FileNode)
    (h : v.Inserts p i c a d d' nf) : Volume where
  names := v.names
  map := v.map
  mapFile := v.mapFile
  node := v.insertNode p i d' nf
  label := Function.update v.label (p ++ [i]) c
  isMap := v.isMap
  root := by
    obtain ⟨r, hr, hr1, hrt⟩ := v.root
    by_cases hp : p = []
    · subst hp
      rw [h.dir, Option.some.injEq] at hr
      exact ⟨d', insertNode_dir, h.hdr.trans (hr ▸ hr1), h.isDir'⟩
    · exact ⟨r, by rw [insertNode_other (by simp) (Ne.symm hp), hr], hr1, hrt⟩
  kind q m hm := by
    by_cases hq : q = p ++ [i]
    · subst hq
      rw [insertNode_new, Option.some.injEq] at hm
      exact hm ▸ h.kind
    · obtain ⟨m', hm', -, hk, -⟩ := h.old hq hm
      rw [hk]
      exact v.kind q m' hm'
  parent q j m hm := by
    by_cases hq : q ++ [j] = p ++ [i]
    · obtain ⟨rfl, rfl⟩ := concat_inj hq
      exact ⟨h.slot, d', insertNode_dir, h.isDir'⟩
    · obtain ⟨m', hm', -⟩ := h.old hq hm
      obtain ⟨hj, d₂, hd₂, ht₂⟩ := v.parent q j m' hm'
      obtain ⟨d₃, hd₃, ht₃⟩ := h.new hd₂
      exact ⟨hj, d₃, hd₃, ht₃.trans ht₂⟩
  long q m hm ht := by
    rcases insertNode_cases hm with ⟨rfl, rfl⟩ | ⟨rfl, rfl⟩ | ⟨-, -, hm⟩
    · exact (h.empty ht).1
    · exact h.long
    · exact v.long q m hm ht
  entry q m hm ht j e he := by
    rcases insertNode_cases hm with ⟨rfl, rfl⟩ | ⟨rfl, rfl⟩ | ⟨-, hqp, hm⟩
    · rw [insertNode_other (q := p ++ [i] ++ [j]) (concat_ne _ _) (by simp), h.below j]
      exact (h.empty ht).2 e (List.mem_of_getElem? he)
    · obtain ⟨e₀, he₀, hes⟩ := h.entries
      rw [hes] at he
      by_cases hj : j = i
      · subst hj
        rw [List.getElem?_set_self (List.getElem?_eq_some_iff.mp he₀).1, Option.some.injEq] at he
        rw [insertNode_new, Function.update_self, ← he]
        exact describes_added h.address h.name e₀ nf
      · have hne : q ++ [j] ≠ q ++ [i] := fun e => hj (concat_inj e).2
        rw [List.getElem?_set_ne (Ne.symm hj)] at he
        rw [insertNode_other hne (concat_ne _ _), Function.update_of_ne hne]
        exact v.entry q d h.dir h.isDir j e he
    · have hne : q ++ [j] ≠ p ++ [i] := fun e => hqp (concat_inj e).1
      rw [Function.update_of_ne hne]
      exact h.describes hne (v.entry q m hm ht j e he)
  plain q j m hm := by
    by_cases hq : q ++ [j] = p ++ [i]
    · rw [hq, Function.update_self]
      exact h.plain
    · obtain ⟨m', hm', -⟩ := h.old hq hm
      rw [Function.update_of_ne hq]
      exact v.plain q j m' hm'
  distinct q j k m m' hm hm' hl := by
    by_cases hj : q ++ [j] = p ++ [i]
    · by_cases hk : q ++ [k] = p ++ [i]
      · exact (concat_inj (hj.trans hk.symm)).2
      · obtain ⟨rfl, rfl⟩ := concat_inj hj
        obtain ⟨m₂, hm₂, -⟩ := h.old hk hm'
        rw [Function.update_self, Function.update_of_ne hk] at hl
        exact absurd ⟨⟨m₂, hm₂⟩, hl.symm⟩ (h.not_child k)
    · obtain ⟨m₁, hm₁, -⟩ := h.old hj hm
      by_cases hk : q ++ [k] = p ++ [i]
      · obtain ⟨rfl, rfl⟩ := concat_inj hk
        rw [Function.update_self, Function.update_of_ne hj] at hl
        exact absurd ⟨⟨m₁, hm₁⟩, hl⟩ (h.not_child j)
      · obtain ⟨m₂, hm₂, -⟩ := h.old hk hm'
        rw [Function.update_of_ne hj, Function.update_of_ne hk] at hl
        exact v.distinct q j k m₁ m₂ hm₁ hm₂ hl
  apart q r m m' hm hm' hqr x hx := by
    by_cases hq : q = p ++ [i]
    · obtain ⟨m₂, hm₂, -, -, hs⟩ := h.old (fun e => hqr (hq.trans e.symm)) hm'
      rw [hq, insertNode_new, Option.some.injEq] at hm
      rw [hs]
      exact h.apart r m₂ hm₂ x (hm ▸ hx)
    · obtain ⟨m₁, hm₁, -, -, hs₁⟩ := h.old hq hm
      by_cases hr : r = p ++ [i]
      · rw [hr, insertNode_new, Option.some.injEq] at hm'
        exact fun hx' => h.apart q m₁ hm₁ x (hm' ▸ hx') (hs₁ ▸ hx)
      · obtain ⟨m₂, hm₂, -, -, hs₂⟩ := h.old hr hm'
        rw [hs₂]
        exact v.apart q r m₁ m₂ hm₁ hm₂ hqr x (hs₁ ▸ hx)
  mapApart q m hm x hx := by
    by_cases hq : q = p ++ [i]
    · subst hq
      rw [insertNode_new, Option.some.injEq] at hm
      exact hm ▸ h.map x hx
    · obtain ⟨m', hm', -, -, hs⟩ := h.old hq hm
      rw [hs]
      exact v.mapApart q m' hm' x hx

end insert
/-! ## Removal -/

/-- What is under slot `i` of the directory `d` at `p` may be removed, after which the directory
is `d'`. -/
structure Erases (v : Volume) (p : Place) (i : Nat) (d d' : FileNode) : Prop where
  dir : v.node p = some d
  isDir : d.fileType = 1
  sectors : d'.sectors = d.sectors
  isDir' : d'.fileType = 1
  long : 120 ≤ d'.length
  entries : entriesOf d'.content = (entriesOf d.content).modify i removedEntry

section erase
variable {i : Nat} {d d' : FileNode}

def eraseNode (v : Volume) (p : Place) (i : Nat) (d' : FileNode) (q : Place) : Option FileNode :=
  if p ++ [i] <+: q then none else if q = p then some d' else v.node q

theorem not_isPrefix_concat (p : Place) (i : Nat) : ¬ p ++ [i] <+: p := fun h => by
  have := h.length_le
  simp at this

theorem eraseNode_dir : v.eraseNode p i d' p = some d' := by
  rw [eraseNode, if_neg (not_isPrefix_concat p i), if_pos rfl]

theorem eraseNode_below (h : p ++ [i] <+: q) : v.eraseNode p i d' q = none := if_pos h

theorem eraseNode_other (h : ¬ p ++ [i] <+: q) (hq : q ≠ p) : v.eraseNode p i d' q = v.node q := by
  rw [eraseNode, if_neg h, if_neg hq]

theorem eraseNode_cases {m : FileNode} (h : v.eraseNode p i d' q = some m) :
    ¬ p ++ [i] <+: q ∧ ((q = p ∧ m = d') ∨ (q ≠ p ∧ v.node q = some m)) := by
  rw [eraseNode] at h
  split at h
  · cases h
  · next hq =>
    refine ⟨hq, ?_⟩
    split at h
    · exact .inl ⟨‹_›, (Option.some.inj h).symm⟩
    · exact .inr ⟨‹_›, h⟩

theorem Erases.hdr (h : v.Erases p i d d') : d'.hdr = d.hdr := (List.cons.inj h.sectors).1

theorem Erases.old (h : v.Erases p i d d') {m' : FileNode} (hm : v.eraseNode p i d' q = some m') :
    ∃ m, v.node q = some m ∧ m'.hdr = m.hdr ∧ m'.fileType = m.fileType ∧
      m'.sectors = m.sectors := by
  rcases eraseNode_cases hm with ⟨-, ⟨rfl, rfl⟩ | ⟨-, hm⟩⟩
  · exact ⟨d, h.dir, h.hdr, h.isDir'.trans h.isDir.symm, h.sectors⟩
  · exact ⟨m', hm, rfl, rfl, rfl⟩

theorem Erases.new (h : v.Erases p i d d') (hq : ¬ p ++ [i] <+: q) {m : FileNode}
    (hm : v.node q = some m) :
    ∃ m', v.eraseNode p i d' q = some m' ∧ m'.hdr = m.hdr ∧ m'.fileType = m.fileType := by
  by_cases hqp : q = p
  · subst hqp
    rw [h.dir, Option.some.injEq] at hm
    exact ⟨d', eraseNode_dir, hm ▸ h.hdr, h.isDir'.trans (hm ▸ h.isDir).symm⟩
  · exact ⟨m, by rw [eraseNode_other hq hqp, hm], rfl, rfl⟩

theorem prefix_concat {r q : Place} {j : Nat} (h : r <+: q ++ [j]) : r <+: q ∨ r = q ++ [j] := by
  rcases List.prefix_concat_iff.mp h with h | h
  · exact .inr h
  · exact .inl h

def erase (v : Volume) (p : Place) (i : Nat) (d d' : FileNode) (h : v.Erases p i d d') :
    Volume where
  names := v.names
  map := v.map
  mapFile := v.mapFile
  node := v.eraseNode p i d'
  label := v.label
  isMap := v.isMap
  root := by
    obtain ⟨r, hr, hr1, hrt⟩ := v.root
    obtain ⟨r', hr', hh, hk⟩ := h.new (fun hp => by simpa using hp.length_le) hr
    exact ⟨r', hr', hh.trans hr1, hk.trans hrt⟩
  kind q m hm := by
    obtain ⟨m', hm', -, hk, -⟩ := h.old hm
    rw [hk]
    exact v.kind q m' hm'
  parent q j m hm := by
    obtain ⟨m', hm', -⟩ := h.old hm
    obtain ⟨hj, d₂, hd₂, ht₂⟩ := v.parent q j m' hm'
    have hq : ¬ p ++ [i] <+: q := fun hp =>
      (eraseNode_cases hm).1 (hp.trans (List.prefix_append ..))
    obtain ⟨d₃, hd₃, -, ht₃⟩ := h.new hq hd₂
    exact ⟨hj, d₃, hd₃, ht₃.trans ht₂⟩
  long q m hm ht := by
    rcases eraseNode_cases hm with ⟨-, ⟨rfl, rfl⟩ | ⟨-, hm⟩⟩
    · exact h.long
    · exact v.long q m hm ht
  entry q m hm ht j e he := by
    obtain ⟨hpre, hcase⟩ := eraseNode_cases hm
    rcases hcase with ⟨rfl, rfl⟩ | ⟨hqp, hm⟩
    · rw [h.entries, List.getElem?_modify] at he
      obtain ⟨e₀, he₀, hes⟩ := Option.map_eq_some_iff.mp he
      by_cases hj : j = i
      · subst hj
        rw [if_pos rfl] at hes
        rw [eraseNode_below List.prefix_rfl, ← hes]
        exact e₀.inUse_setInUse false
      · have hne : ¬ q ++ [i] <+: q ++ [j] := fun hp => by
          rcases prefix_concat hp with hp | hp
          · exact not_isPrefix_concat q i hp
          · exact hj (concat_inj hp).2.symm
        rw [if_neg (Ne.symm hj)] at hes
        rw [eraseNode_other hne (concat_ne _ _), ← hes]
        exact v.entry q d h.dir h.isDir j e₀ he₀
    · have hne : ¬ p ++ [i] <+: q ++ [j] := fun hp => by
        rcases prefix_concat hp with hp | hp
        · exact hpre hp
        · exact hqp (concat_inj hp).1.symm
      have hd := v.entry q m hm ht j e he
      by_cases hqj : q ++ [j] = p
      · rw [hqj] at hd ⊢
        rw [h.dir] at hd
        rw [eraseNode_dir]
        exact ⟨hd.1, by rw [h.hdr]; exact hd.2.1, hd.2.2⟩
      · rw [eraseNode_other hne hqj]
        exact hd
  plain q j m hm := by
    obtain ⟨m', hm', -⟩ := h.old hm
    exact v.plain q j m' hm'
  distinct q j k m m' hm hm' := by
    obtain ⟨m₁, hm₁, -⟩ := h.old hm
    obtain ⟨m₂, hm₂, -⟩ := h.old hm'
    exact v.distinct q j k m₁ m₂ hm₁ hm₂
  apart q r m m' hm hm' hqr x hx := by
    obtain ⟨m₁, hm₁, -, -, hs₁⟩ := h.old hm
    obtain ⟨m₂, hm₂, -, -, hs₂⟩ := h.old hm'
    rw [hs₂]
    exact v.apart q r m₁ m₂ hm₁ hm₂ hqr x (hs₁ ▸ hx)
  mapApart q m hm x hx := by
    obtain ⟨m', hm', -, -, hs⟩ := h.old hm
    rw [hs]
    exact v.mapApart q m' hm' x hx

end erase
end Volume
end Nachos
