import Nachos.FileSys.RemoveSpec

/-! `FileSystem::Remove` for a directory: the nested calls, each of which looks its path up from
the root again, and the directory itself once they are done. -/

namespace Nachos
open Lib Program FileSystem

variable {s s' : Kernel} {v : Volume} {p : Place} {d n : FileNode} {f : Handle} {i : Nat}
  {c : CString}
  {lost : Set Nat}

/-! ## What the nested calls leave -/

/-- The path by which the nested calls name what is `js` slots below `r`, where `r` itself is
named `name`. -/
def Volume.text (v : Volume) (name : CString) (r : Place) : List Nat → CString
  | [] => name
  | j :: js => v.text (name ++ '/' :: v.label (r ++ [j])) (r ++ [j]) js

/-- The paths of all that is below `r` fit into the buffers of the nested calls. -/
def Volume.Short (v : Volume) (name : CString) (r : Place) : Prop :=
  ∀ js m, js ≠ [] → v.node (r ++ js) = some m → (v.text name r js).length < 100

theorem Volume.text_congr {v' : Volume} {name : CString} {r : Place} (h : v'.label = v.label)
    (js : List Nat) :
    v'.text name r js = v.text name r js := by
  induction js generalizing name r with
  | nil => rfl
  | cons j js ih => rw [Volume.text, Volume.text, h, ih]

theorem Volume.Short.child {name : CString} {r : Place} (h : v.Short name r) (j : Nat) :
    v.Short (name ++ '/' :: v.label (r ++ [j])) (r ++ [j]) := fun js m _ hm =>
  h (j :: js) m (by simp) (by simpa using hm)

theorem Volume.Short.childName {name : CString} {r : Place} {j : Nat} (h : v.Short name r)
    (hn : v.node (r ++ [j]) = some n) :
    childName name (v.label (r ++ [j])) = some (name ++ '/' :: v.label (r ++ [j])) :=
  if_pos (h [j] n (by simp) hn)

structure Volume.Cleaned (v w : Volume) (r : Place) (n : FileNode) (j : Nat)
    (lost lost' : Set Nat) : Prop where
  names : w.names = v.names
  label : w.label = v.label
  mapFile : w.mapFile.sectors = v.mapFile.sectors
  kept : ∀ q, ¬ r <+: q → w.node q = v.node q
  dir : ∃ n', w.node r = some n' ∧ n'.SameShape n
  rest : ∀ k, j ≤ k → ∀ q, r ++ [k] <+: q → w.node q = v.node q
  marks : w.Marks lost'
  lost : lost' ∪ { x | ∃ k < j, x ∈ w.under (r ++ [k]) } = lost ∪ { x | ∃ k < j,
    x ∈ v.stays (r ++ [k]) }

namespace Volume
variable {w w' : Volume} {r : Place} {j : Nat} {lost' lost'' : Set Nat}

theorem concat_prefix_iff {q : Place} {k : Nat} (h : r ++ [j] <+: q) : r ++ [k] <+: q ↔ k = j := by
  constructor
  · intro hk
    have := List.prefix_of_prefix_length_le hk h (by simp)
    exact (concat_inj (this.eq_of_length (by simp))).2
  · rintro rfl
    exact h

theorem under_congr (h : ∀ q, r <+: q → w.node q = v.node q) : w.under r = v.under r := by
  ext x
  exact exists_congr fun q => exists_congr fun m => and_congr_right fun hq => by rw [h q hq]

theorem stays_congr (h : ∀ q, r <+: q → w.node q = v.node q) : w.stays r = v.stays r := by
  ext x
  exact exists_congr fun q => exists_congr fun m => and_congr_right fun hq => by rw [h q hq]

theorem cleaned_zero (hmk : v.Marks lost) (hn : v.node r = some n) : v.Cleaned v r n 0 lost lost :=
  ⟨rfl, rfl, rfl, fun _ _ => rfl, ⟨n, hn, .refl n⟩, fun _ _ _ _ => rfl, hmk, by simp⟩

theorem Cleaned.skip (h : v.Cleaned w r n j lost lost') (hj : v.node (r ++ [j]) = none) :
    v.Cleaned w r n (j + 1) lost lost' := by
  have hv : v.stays (r ++ [j]) = ∅ := by
    refine Set.eq_empty_iff_forall_notMem.mpr fun x hx => ?_
    obtain ⟨q, m, hq, hm, -⟩ := hx
    rw [node_below_none hj hq] at hm
    cases hm
  have hw : w.under (r ++ [j]) = ∅ := by
    refine Set.eq_empty_iff_forall_notMem.mpr fun x hx => ?_
    obtain ⟨q, m, hq, hm, -⟩ := hx
    rw [h.rest j le_rfl q hq, node_below_none hj hq] at hm
    cases hm
  refine ⟨h.names, h.label, h.mapFile, h.kept, h.dir, fun k hk => h.rest k (by omega), h.marks, ?_⟩
  have hlt : ∀ S : Nat → Set Nat, S j = ∅ → { x | ∃ k < j + 1, x ∈ S k } = { x | ∃ k < j,
    x ∈ S k } := by
    intro S hS
    ext x
    constructor
    · rintro ⟨k, hk, hx⟩
      refine ⟨k, Nat.lt_of_le_of_ne (by omega) (fun e => ?_), hx⟩
      rw [e, hS] at hx
      exact hx
    · rintro ⟨k, hk, hx⟩
      exact ⟨k, by omega, hx⟩
  rw [hlt _ hw, hlt _ hv]
  exact h.lost

theorem Cleaned.step (h : v.Cleaned w r n j lost lost') (hs : w.Removed w' r j lost' lost'') :
    v.Cleaned w' r n (j + 1) lost lost'' := by
  have hne : ∀ k, k ≠ j → ∀ q, r ++ [k] <+: q → w'.node q = w.node q := fun k hk q hq =>
    hs.kept q (fun hq' => hk (concat_prefix_iff hq' |>.mp hq)) fun e =>
      not_isPrefix_concat r k (e ▸ hq)
  obtain ⟨n', hn', hsh⟩ := h.dir
  obtain ⟨d, d', hd, hd', hsh'⟩ := hs.dir
  obtain rfl : n' = d := Option.some.inj (hn'.symm.trans hd)
  refine ⟨hs.names.trans h.names, hs.label.trans h.label, hs.mapFile.trans h.mapFile,
    fun q hq => ?_,
    ⟨d', hd', hsh'.trans hsh⟩, fun k hk q hq => ?_, hs.marks, ?_⟩
  · rw [hs.kept q (fun hq' => hq ((List.prefix_append ..).trans hq'))
      (fun e => hq (e ▸ List.prefix_rfl)),
      h.kept q hq]
  · rw [hne k (by omega) q hq, h.rest k (by omega) q hq]
  · have hsplit : ∀ S : Nat → Set Nat, { x | ∃ k < j + 1, x ∈ S k } = { x | ∃ k < j, x ∈ S k }
      ∪ S j := by
      intro S
      ext x
      constructor
      · rintro ⟨k, hk, hx⟩
        rcases Nat.lt_succ_iff_lt_or_eq.mp hk with hk | rfl
        · exact .inl ⟨k, hk, hx⟩
        · exact .inr hx
      · rintro (⟨k, hk, hx⟩ | hx)
        · exact ⟨k, by omega, hx⟩
        · exact ⟨j, by omega, hx⟩
    have hsame : { x | ∃ k < j, x ∈ w'.under (r ++ [k]) } = { x | ∃ k < j,
      x ∈ w.under (r ++ [k]) } := by
      ext x
      exact exists_congr fun k => and_congr_right fun hk => by
        rw [under_congr (hne k (by omega))]
    rw [hsplit, hsplit, hsame, Set.union_comm { x | ∃ k < j, x ∈ w.under (r ++ [k]) },
      ← Set.union_assoc,
      hs.lost, stays_congr (h.rest j le_rfl), Set.union_right_comm, h.lost, Set.union_assoc]

theorem Cleaned.emptied (h : v.Cleaned w (p ++ [i]) n 10 lost lost')
    (hn : v.node (p ++ [i]) = some n)
    (ht : n.fileType = 1) : v.Emptied w p i lost lost' := by
  have hslot : ∀ {u : Volume} {q : Place} {m : FileNode}, p ++ [i] <+: q → q ≠ p ++ [i] →
      u.node q = some m → ∃ k < 10, p ++ [i] ++ [k] <+: q := by
    rintro u q m ⟨t, rfl⟩ hne hm
    cases t with
    | nil => simp at hne
    | cons k t =>
      have hpre : p ++ [i] ++ [k] <+: p ++ [i] ++ k :: t := ⟨t, by simp⟩
      refine ⟨k, ?_, hpre⟩
      cases hk : u.node (p ++ [i] ++ [k]) with
      | none =>
        rw [node_below_none hk hpre] at hm
        cases hm
      | some m' => exact (u.parent _ k m' hk).1
  refine ⟨h.names, h.label, h.mapFile, h.kept, h.marks, ?_⟩
  have h₁ : w.below (p ++ [i]) = { x | ∃ k < 10, x ∈ w.under (p ++ [i] ++ [k]) } := by
    ext x
    constructor
    · rintro ⟨q, m, hq, hne, hm, hx⟩
      obtain ⟨k, hk, hpre⟩ := hslot hq hne hm
      exact ⟨k, hk, q, m, hpre, hm, hx⟩
    · rintro ⟨k, -, q, m, hq, hm, hx⟩
      exact ⟨q, m, (List.prefix_append ..).trans hq, fun e => not_isPrefix_concat _ k (e ▸ hq), hm,
        hx⟩
  have h₂ : v.stays (p ++ [i]) = { x | ∃ k < 10, x ∈ v.stays (p ++ [i] ++ [k]) } := by
    ext x
    constructor
    · rintro ⟨q, m, hq, hm, hrf, hx⟩
      have hne : q ≠ p ++ [i] := by
        rintro rfl
        rw [hn, Option.some.injEq] at hm
        have h0 := hrf.1
        rw [← hm, ht] at h0
        cases h0
      obtain ⟨k, hk, hpre⟩ := hslot hq hne hm
      exact ⟨k, hk, q, m, hpre, hm, hrf, hx⟩
    · rintro ⟨k, -, q, m, hq, hm, hrf, hx⟩
      exact ⟨q, m, (List.prefix_append ..).trans hq, hm, hrf, hx⟩
  rw [h₁, h₂]
  exact h.lost

theorem Binds.child_path {name : CString} (h : v.Binds name p i n)
    (hw : v.Cleaned w (p ++ [i]) n j lost lost')
    (hslash : 2 ≤ (components name).length) {m : FileNode}
    (hm : w.node (p ++ [i] ++ [j]) = some m) :
    w.Binds (name ++ '/' :: v.label (p ++ [i] ++ [j])) (p ++ [i]) j m := by
  have hpl : '/' ∉ v.label (p ++ [i] ++ [j]) := by
    rw [← hw.label]
    exact w.plain _ j m hm
  have hcomp := components_child name hpl
  match hws : components name, hslash with
  | u :: us, hslash =>
    have hus : us ≠ [] := by
      rintro rfl
      simp at hslash
    rw [hws] at hcomp
    have hwalk : v.walk [] (dirComps (u :: us) ++ [lastComp (u :: us)]) = some (p ++ [i]) := by
      have h₁ := h.walk
      have h₂ := h.child
      rw [hws] at h₁ h₂
      rw [walk_append, h₁]
      change v.walk p [lastComp (u :: us)] = _
      rw [Volume.walk, h₂]
      rfl
    refine ⟨?_, ?_, hm⟩
    · rw [hcomp, dirComps_append hus]
      refine walk_congr hwalk (fun t _ _ => congrFun hw.label t) fun t nt ht hnt => ?_
      by_cases he : t = p ++ [i]
      · obtain ⟨n', hn', -⟩ := hw.dir
        exact ⟨n', he ▸ hn'⟩
      · refine ⟨nt, (hw.kept t fun hp => he ?_).trans hnt⟩
        exact ht.eq_of_length_le hp.length_le
    · rw [hcomp, lastComp_append (by simp)]
      exact child_eq_some.mpr ⟨⟨m, hm⟩, by rw [hw.label]⟩

end Volume

/-! ## The loop over the entries -/

section loop
variable {w w' : Volume} {r : Place} {j : Nat} {lost' : Set Nat} {name : CString}
  {e : DirectoryEntry}
  {remove : CString → Prog Bool}

theorem wp_removeChild_unused (h : e.inUse = false) {Q : Unit → Kernel → Prop} :
    Wp (removeChild remove name e) Q s ↔ Q () s := by
  rw [removeChild, h, if_neg Bool.false_ne_true, wp_pure]

theorem wp_removeChild (hr : Rep s v) (hd : Describes v.names (some n) c e)
    {Q : Unit → Kernel → Prop} :
    Wp (removeChild remove name e) Q s ↔
      (name ++ '/' :: c).length < 100 ∧ Wp (remove (name ++ '/' :: c)) (fun _ => Q ()) s := by
  obtain ⟨hu, -, hne, hname⟩ := hd
  rw [← hr.names] at hname
  rw [removeChild, if_pos hu]
  simp only [wp_then, wp_pure]
  rw [wp_getName hne hname, childName]
  by_cases hc : (name ++ '/' :: c).length < 100
  · rw [if_pos hc, wp_orFault_some, and_iff_right hc]
  · rw [if_neg hc, iff_false_right fun h => hc h.1]
    exact not_wp_fault

theorem wp_removeChildren {s₀ : Kernel} {l : List DirectoryEntry} (hn : v.node r = some n)
    (ht : n.fileType = 1) (hl : ∀ a e, l[a]? = some e → (entriesOf n.content)[j + a]? = some e)
    (hcall : ∀ s w lost' k m, j ≤ k → k < j + l.length → Rep s w → Steady s₀ s →
      v.Cleaned w r n k lost lost' → w.node (r ++ [k]) = some m →
      (name ++ '/' :: v.label (r ++ [k])).length < 100 ∧ ∀ Q : Bool → Kernel → Prop,
        (∀ b s' w' lost'', Rep s' w' → Steady s s' → w.Removed w' r k lost' lost'' → Q b s') →
        Wp (remove (name ++ '/' :: v.label (r ++ [k]))) Q s)
    (hr : Rep s w) (hst : Steady s₀ s) (hw : v.Cleaned w r n j lost lost')
    {Q : Unit → Kernel → Prop}
    (hQ : ∀ s' w' lost'', Rep s' w' → Steady s₀ s' → v.Cleaned w' r n (j + l.length) lost lost'' → Q
      () s') :
    Wp (forM l (removeChild remove name)) Q s := by
  induction l generalizing s w j lost' with
  | nil =>
    rw [List.forM_nil, wp_pure]
    exact hQ s w lost' hr hst hw
  | cons e l ih =>
    have he := v.entry r n hn ht j e (hl 0 e rfl)
    have hlen : j + (e :: l).length = j + 1 + l.length := by rw [List.length_cons]; omega
    have hl' : ∀ a e, l[a]? = some e → (entriesOf n.content)[j + 1 + a]? = some e :=
      fun a e ha => by
      rw [Nat.add_assoc, Nat.add_comm 1 a]
      exact hl (a + 1) e ha
    rw [hlen] at hQ hcall
    rw [List.forM_cons, wp_then]
    have next : ∀ s' w' lost'', Rep s' w' → Steady s₀ s' → v.Cleaned w' r n (j + 1) lost lost'' →
        Wp (forM l (removeChild remove name)) Q s' := fun s' w' lost'' hr' hst' hw' =>
      ih hl' (fun s w lost' k m hk => hcall s w lost' k m (by omega)) hr' hst' hw' hQ
    cases hm : v.node (r ++ [j]) with
    | none =>
      rw [hm] at he
      rw [wp_removeChild_unused he]
      exact next s w lost' hr hst (hw.skip hm)
    | some m =>
      rw [hm, ← hw.names] at he
      have hm' := (hw.rest j le_rfl _ List.prefix_rfl).trans hm
      obtain ⟨hshort, hcall'⟩ := hcall s w lost' j m le_rfl (by omega) hr hst hw hm'
      rw [wp_removeChild hr he, and_iff_right hshort]
      refine hcall' _ fun b s' w' lost'' hr' hst' hrm => ?_
      exact next s' w' lost'' hr' (hst.trans hst') (hw.step hrm)

theorem removeFuel_dir (hr : Rep s v) (h : v.Binds name p i n) (ht : n.fileType = 1)
    (fs : FileSystem)
    (fuel : Nat) : ∃ s₁ d f hdr, Rep s₁ v ∧ Steady s s₁ ∧ OpenDir s₁ v p d f ∧ n.Lists hdr ∧
      hdr.numSectors.toInt = n.numSectors ∧ ∀ Q : Bool → Kernel → Prop,
        Wp (removeFuel fs (fuel + 1) name) Q s ↔
        Wp (forM (entriesOf n.content) (removeChild (removeFuel fs fuel) name)) (fun _ =>
          Wp (release fs hdr n.hdr (some (lastComp (components name))) ⟨entriesOf d.content⟩ f)
            fun _ => Q true) s₁ := by
  obtain ⟨a, s₁, ⟨d, f, rfl, hr₁, hst₁, ho₁⟩, hwp₁⟩ := Wp.exists_iff <| wp_getFileName_bound hr h
    (Q := fun a s₁ => ∃ d f, a = (some (lastComp (components name)), ⟨entriesOf d.content⟩, f) ∧
      Rep s₁ v ∧ Steady s s₁ ∧ OpenDir s₁ v p d f)
    fun s₁ d f hr₁ hst₁ ho₁ => ⟨d, f, rfl, hr₁, hst₁, ho₁⟩
  obtain ⟨g, s₂, ⟨hr₂, hst₂, ho₂⟩, hwp₂⟩ := Wp.exists_iff <| hr₁.wp_open h.node
    (Q := fun g s₂ => Rep s₂ v ∧ Steady s₁ s₂ ∧ s₂.OpenOn g n.hdr)
    fun s₂ hr₂ hst₂ ho₂ _ _ => ⟨hr₂, hst₂, ho₂⟩
  obtain ⟨e, s₃, ⟨hsize, hr₃, hst₃⟩, hwp₃⟩ := Wp.exists_iff <| wp_newDirectory (s := s₂)
    (Q := fun e s₃ => e.tableSize = 10 ∧ Rep s₃ v ∧ Steady s₂ s₃)
    fun e s₃ he _ hst₃ htc _ => by
      obtain ⟨r, hroot, hr1, -⟩ := v.root
      exact ⟨he, hr₂.touched hst₃ htc (.inr ⟨[], r, hroot, hr1⟩), hst₃⟩
  obtain ⟨e', s₄, ⟨rfl, hr₄, hst₄⟩, hwp₄⟩ := Wp.exists_iff <|
    hr₃.wp_fetch (f := g) ⟨h.node, ht, hst₃.openOn ho₂⟩ hsize
      (Q := fun e' s₄ => e' = ⟨entriesOf n.content⟩ ∧ Rep s₄ v ∧ Steady s₃ s₄)
      fun s₄ hr₄ hst₄ => ⟨rfl, hr₄, hst₄⟩
  have hst := (hst₂.trans hst₃).trans hst₄
  have hon₁ := hr₁.on _ n h.node
  have hpos : ¬ (n.hdr : Int) = -1 := by omega
  have htype : ¬ (FileHeader.ofSector (s₁.disk n.hdr)).fileType = 0 := by
    rw [show (FileHeader.ofSector (s₁.disk n.hdr)).fileType = n.fileType from hon₁.fileType, ht]
    decide
  refine ⟨s₄, d, f, hdrAt s₁.disk n.hdr, hr₄, hst₁.trans hst, ho₁.steady hst, hon₁.lists,
    hon₁.numSectors,
    fun Q => ?_⟩
  rw [removeFuel, wp_then, hwp₁]
  simp only [wp_then]
  rw [wp_lookup_found hr₁ ho₁.node ho₁.isDir h.child h.node, if_neg hpos]
  simp only [FileHeader.fetchFrom, wp_then, wp_readSector n.hdr_lt, wp_pure, if_neg htype]
  rw [hwp₂, hwp₃, hwp₄]
  rfl

theorem wp_release_cleaned {fs : FileSystem} {hdr : FileHeader} (hr : Rep s w)
    (hw : v.Cleaned w (p ++ [i]) n 10 lost lost') (ho : OpenDir s v p d f)
    (hc : v.child p c = some i)
    (hn : v.node (p ++ [i]) = some n) (ht : n.fileType = 1) (hl : n.Lists hdr)
    (hnum : hdr.numSectors.toInt = n.numSectors) (hfs : s.OpenOn fs.freeMapFile 0)
    {Q : Unit → Kernel → Prop}
    (hQ : ∀ s' v' lost'', Rep s' v' → Steady s s' → v.Removed v' p i lost lost'' → Q () s') :
    Wp (release fs hdr n.hdr (some c) ⟨entriesOf d.content⟩ f) Q s := by
  obtain ⟨n', hn', hsh⟩ := hw.dir
  have ho' : OpenDir s w p d f :=
    ⟨(hw.kept p (Volume.not_isPrefix_concat p i)).trans ho.node, ho.isDir, ho.openOn⟩
  have hc' : w.child p c = some i :=
    Volume.child_eq_some.mpr ⟨⟨n', hn'⟩, by rw [hw.label]; exact (Volume.child_eq_some.mp hc).2⟩
  have hnum' : hdr.numSectors.toInt = n'.numSectors := hnum.trans (by rw [hsh.numSectors])
  rw [← hsh.hdr]
  exact wp_release hr hw.marks ho' hc' hn' (hsh.lists hl) hnum' hfs fun s' m' hm hcl hr' hst' =>
    hQ s' _ _ hr' hst' ((hw.emptied hn ht).released hn' ho'.node ho'.isDir hcl hm)

/-- The fuel that `Remove` still has when it is called on a path. -/
def Enough (fuel : Nat) (name : CString) : Prop := 1 ≤ fuel ∧ 101 ≤ fuel + name.length

theorem Enough.child {fuel : Nat} (h : Enough (fuel + 1) name)
    (hs : (name ++ '/' :: c).length < 100) :
    Enough fuel (name ++ '/' :: c) := by
  simp only [Enough, List.length_append, List.length_cons] at h hs ⊢
  omega

theorem Volume.Cleaned.short (hw : v.Cleaned w r n j lost lost') :
    w.Short name (r ++ [j]) ↔ v.Short name (r ++ [j]) := by
  refine forall_congr' fun js => forall_congr' fun m => imp_congr_right fun _ => ?_
  rw [hw.rest j le_rfl (r ++ [j] ++ js) (List.prefix_append ..), Volume.text_congr hw.label]

theorem two_le_components_child (hc : '/' ∉ c) : 2 ≤ (components (name ++ '/' :: c)).length := by
  have := List.length_pos_iff.mpr (components_ne_nil name)
  rw [components_child name hc, List.length_append, List.length_singleton]
  omega

theorem wp_removeFuel {fs : FileSystem} {fuel : Nat} (hr : Rep s v) (hmk : v.Marks lost)
    (hfs : s.OpenOn fs.freeMapFile 0) (h : v.Binds name p i n) (hshort : v.Short name (p ++ [i]))
    (hsl : 2 ≤ (components name).length ∨ ∀ j, v.node (p ++ [i] ++ [j]) = none)
    (hfuel : Enough fuel name)
    {Q : Bool → Kernel → Prop} (hQ : ∀ s' v' lost', Rep s' v' → Steady s s' →
      v.Removed v' p i lost lost' →
      Q (decide (¬ n.Refuses)) s') : Wp (removeFuel fs fuel name) Q s := by
  induction fuel generalizing s v lost name p i n Q with
  | zero => exact absurd hfuel.1 (by omega)
  | succ fuel ih =>
    rcases v.kind _ n h.node with ht | ht
    · refine wp_remove_plain hr hmk hfs h ht fun s' v' hr' hst' hrm => ?_
      have hd : decide (n.numVisits = 1) = decide (¬ n.Refuses) := by
        simp [FileNode.Refuses, ht]
      rw [hd]
      exact hQ s' v' lost hr' hst' hrm
    · obtain ⟨s₁, d, f, hdr, hr₁, hst₁, ho₁, hl, hnum, hwp⟩ := removeFuel_dir hr h ht fs fuel
      rw [hwp]
      have hlen := Volume.length_entries h.node ht
      refine wp_removeChildren (j := 0) h.node ht (fun a e ha => by rwa [Nat.zero_add]) ?_
        hr₁ (.refl s₁)
        (Volume.cleaned_zero hmk h.node) fun s₂ w lost₂ hr₂ hst₂ hw => ?_
      · intro s₂ w lost₂ k m _ _ hr₂ hst₂ hw hm
        have hmv := (hw.rest k le_rfl _ List.prefix_rfl).symm.trans hm
        have hslash : 2 ≤ (components name).length := by
          refine hsl.resolve_right fun hnone => ?_
          rw [hnone k] at hmv
          cases hmv
        have hlt : (name ++ '/' :: v.label (p ++ [i] ++ [k])).length < 100 :=
          hshort [k] m (by simp) hmv
        have hpl : '/' ∉ v.label (p ++ [i] ++ [k]) := v.plain _ k m hmv
        refine ⟨hlt, fun R hR => ih hr₂ hw.marks ((hst₁.trans hst₂).openOn hfs)
          (h.child_path hw hslash hm)
          (hw.short.mpr (hshort.child k)) (.inl (two_le_components_child hpl)) (hfuel.child hlt)
          fun s₃ w₃ lost₃ hr₃ hst₃ hrm => hR _ s₃ w₃ lost₃ hr₃ hst₃ hrm⟩
      · rw [hlen, Nat.zero_add] at hw
        refine wp_release_cleaned hr₂ hw (ho₁.steady hst₂) h.child h.node ht hl hnum
          ((hst₁.trans hst₂).openOn hfs)
          fun s₃ v' lost₃ hr₃ hst₃ hrm => ?_
        have hd : decide (¬ n.Refuses) = true := by simp [FileNode.Refuses, ht]
        rw [← hd]
        exact hQ s₃ v' lost₃ hr₃ ((hst₁.trans hst₂).trans hst₃) hrm

end loop
end Nachos
