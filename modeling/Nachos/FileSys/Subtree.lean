import Nachos.FileSys.Removal
import Nachos.FileSys.Ownership
import Nachos.FileSys.NewDirectory

/-! When `Remove` of a directory deletes the subtree and nothing else. The path has to have a slash
if there is anything in the directory: the nested calls append to it, and the first component of a
path is not looked up. A file below that refuses is cut off from the tree with its sectors marked,
and a path that is too long for its buffer ends the call with a fault. -/

namespace Nachos
open Lib Program FileSystem

variable {s s' s₀ : Kernel} {v w w' : Volume} {p r : Place} {n m : FileNode} {i j : Nat}
  {lost lost' lost'' : Set Nat} {name c : CString} {fs : FileSystem} {fuel : Nat}

/-! ## Calls with a slash -/

theorem Volume.short_of_children
    (h : ∀ k m, v.node (r ++ [k]) = some m → (name ++ '/' :: v.label (r ++ [k])).length < 100 ∧
      v.Short (name ++ '/' :: v.label (r ++ [k])) (r ++ [k])) : v.Short name r := by
  intro js m hjs hm
  cases js with
  | nil => exact absurd rfl hjs
  | cons k js =>
    rw [List.append_cons] at hm
    cases hk : v.node (r ++ [k]) with
    | none =>
      rw [Volume.node_below_none hk (List.prefix_append ..)] at hm
      cases hm
    | some m' =>
      obtain ⟨hlt, hshort⟩ := h k m' hk
      by_cases he : js = []
      · rw [he]
        exact hlt
      · exact hshort js m he hm

theorem wp_removeFuel_removed (hr : Rep s v) (hmk : v.Marks lost) (hfs : s.OpenOn fs.freeMapFile 0)
    (h : v.Binds name p i n) (hshort : v.Short name (p ++ [i]))
    (hsl : 2 ≤ (components name).length) (hfuel : Enough fuel name) :
    Wp (removeFuel fs fuel name) (fun _ s' => ∃ v' lost', Rep s' v' ∧ Steady s s' ∧
      v.Removed v' p i lost lost') s :=
  wp_removeFuel hr hmk hfs h hshort (.inl hsl) hfuel fun _ v' lost' hr' hst' hrm =>
    ⟨v', lost', hr', hst', hrm⟩

theorem short_of_wp_children {remove : CString → Prog Bool} {l : List DirectoryEntry}
    (hn : v.node r = some n) (ht : n.fileType = 1)
    (hl : ∀ a e, l[a]? = some e → (entriesOf n.content)[j + a]? = some e)
    (hcall : ∀ s w lost' k m (Q : Bool → Kernel → Prop), Rep s w → Steady s₀ s →
      v.Cleaned w r n k lost lost' → w.node (r ++ [k]) = some m →
      (name ++ '/' :: v.label (r ++ [k])).length < 100 →
      Wp (remove (name ++ '/' :: v.label (r ++ [k]))) Q s →
      v.Short (name ++ '/' :: v.label (r ++ [k])) (r ++ [k]) ∧
      Wp (remove (name ++ '/' :: v.label (r ++ [k]))) (fun _ s' => ∃ w' lost'', Rep s' w' ∧
        Steady s s' ∧ w.Removed w' r k lost' lost'') s)
    (hr : Rep s w) (hst : Steady s₀ s) (hw : v.Cleaned w r n j lost lost')
    {Q : Unit → Kernel → Prop} (h : Wp (forM l (removeChild remove name)) Q s) :
    ∀ k m, j ≤ k → k < j + l.length → v.node (r ++ [k]) = some m →
      (name ++ '/' :: v.label (r ++ [k])).length < 100 ∧
      v.Short (name ++ '/' :: v.label (r ++ [k])) (r ++ [k]) := by
  induction l generalizing s w j lost' with
  | nil =>
    intro k m hjk hk
    rw [List.length_nil] at hk
    omega
  | cons e l ih =>
    intro k m hjk hk hm
    have he := v.entry r n hn ht j e (hl 0 e rfl)
    have hl' : ∀ a e, l[a]? = some e → (entriesOf n.content)[j + 1 + a]? = some e :=
      fun a e ha => by
        rw [Nat.add_assoc, Nat.add_comm 1 a]
        exact hl (a + 1) e ha
    rw [List.length_cons] at hk
    rw [List.forM_cons, wp_then] at h
    cases hj : v.node (r ++ [j]) with
    | none =>
      rw [hj] at he
      rw [wp_removeChild_unused he] at h
      have hne : j ≠ k := by
        rintro rfl
        rw [hj] at hm
        cases hm
      exact ih hl' hr hst (hw.skip hj) h k m (by omega) (by omega) hm
    | some m' =>
      rw [hj, ← hw.names] at he
      rw [wp_removeChild hr he] at h
      have hm' := (hw.rest j le_rfl _ List.prefix_rfl).trans hj
      obtain ⟨hshort, hspec⟩ := hcall s w lost' j m' _ hr hst hw hm' h.1 h.2
      by_cases hjk' : j = k
      · subst hjk'
        exact ⟨h.1, hshort⟩
      · obtain ⟨-, s₁, ⟨⟨w₁, lost₁, hr₁, hst₁, hrm⟩, hrest⟩, -⟩ := (hspec.and h.2).exists_iff
        exact ih hl' hr₁ (hst.trans hst₁) (hw.step hrm) hrest k m (by omega) (by omega) hm

theorem short_of_wp_removeFuel (hr : Rep s v) (hmk : v.Marks lost)
    (hfs : s.OpenOn fs.freeMapFile 0) (h : v.Binds name p i n) (hsl : 2 ≤ (components name).length)
    (hfuel : Enough fuel name) {Q : Bool → Kernel → Prop} (hwp : Wp (removeFuel fs fuel name) Q s) :
    v.Short name (p ++ [i]) := by
  induction fuel generalizing s v lost name p i n Q with
  | zero => exact absurd hfuel.1 (by omega)
  | succ fuel ih =>
    rcases v.kind _ n h.node with ht | ht
    · intro js m hjs hm
      have := (Volume.plain_below h.node ht (List.prefix_append ..) hm).1
      exact absurd (List.append_right_eq_self.mp this) hjs
    · obtain ⟨s₁, d, f, hdr, hr₁, hst₁, -, -, -, hdir⟩ := removeFuel_dir hr h ht fs fuel
      rw [hdir] at hwp
      have hchildren := short_of_wp_children (j := 0) h.node ht
        (fun a e ha => by rwa [Nat.zero_add]) ?_ hr₁ (Steady.refl s₁)
        (Volume.cleaned_zero hmk h.node) hwp
      · refine Volume.short_of_children fun k m hm => hchildren k m (Nat.zero_le k) ?_ hm
        rw [Volume.length_entries h.node ht, Nat.zero_add]
        exact (v.parent _ k m hm).1
      · intro s₂ w lost₂ k m R hr₂ hst₂ hw hm hlt hR
        have hmv := (hw.rest k le_rfl _ List.prefix_rfl).symm.trans hm
        have hb := h.child_path hw hsl hm
        have hsl' : 2 ≤ (components (name ++ '/' :: v.label (p ++ [i] ++ [k]))).length :=
          two_le_components_child (v.plain _ k m hmv)
        have hfs' := (hst₁.trans hst₂).openOn hfs
        have hshort := ih hr₂ hw.marks hfs' hb hsl' (hfuel.child hlt) hR
        exact ⟨hw.short.mp hshort,
          wp_removeFuel_removed hr₂ hw.marks hfs' hb hshort hsl' (hfuel.child hlt)⟩

/-! ## Calls without a slash -/

namespace Volume.Removed

theorem marked_mono (h : w.Removed w' p j lost lost') (hmk : w.Marks lost) {x : Nat}
    (hx : x < 1024 ∧ w'.map.testBit x = true) : w.map.testBit x = true := by
  obtain ⟨d, d', hd, hd', hsh⟩ := h.dir
  have howned : w'.Owned x → w.Owned x := by
    rintro (hx | ⟨q, m, hm, hx⟩)
    · exact .inl (h.mapFile ▸ hx)
    · by_cases hq : p ++ [j] <+: q
      · obtain ⟨-, m₀, hm₀, -, rfl⟩ := h.left q m hq hm
        exact .inr ⟨q, m₀, hm₀, hx⟩
      · by_cases hqp : q = p
        · rw [hqp, hd', Option.some.injEq] at hm
          rw [← hm, hsh.sectors] at hx
          exact .inr ⟨p, d, hd, hx⟩
        · rw [h.kept q hq hqp] at hm
          exact .inr ⟨q, m, hm, hx⟩
  refine ((hmk.used x).mpr ?_).2
  rcases (h.marks.used x).mp hx with hx | hx
  · exact .inl (howned hx)
  · have hin : x ∈ lost ∪ w.stays (p ++ [j]) := h.lost ▸ Set.mem_union_left _ hx
    rcases hin with hx | ⟨q, m, -, hm, -, hx⟩
    · exact .inr hx
    · exact .inl (.inr ⟨q, m, hm, hx⟩)

theorem unmarked (h : w.Removed w' p j lost lost') (hmk : w.Marks lost)
    (hn : w.node (p ++ [j]) = some n) (hrf : ¬ n.Refuses) {x : Nat} (hx : x ∈ n.sectors) :
    w'.map.testBit x = false := by
  have hgone := fun q => h.gone (q := q) hn hrf
  have hlt : x < 1024 := ((hmk.used x).mpr (.inl (.inr ⟨_, n, hn, hx⟩))).1
  rw [← Bool.not_eq_true]
  intro hb
  rcases (h.marks.used x).mp ⟨hlt, hb⟩ with ho | hl
  · exact ((h.owned hgone x).mp ho).2 ⟨_, n, List.prefix_rfl, hn, hx⟩
  · rw [h.lost_eq hgone] at hl
    rcases hl with hl | ⟨q, m, -, hm, hrf', hxm⟩
    · exact hmk.lost x hl (.inr ⟨_, n, hn, hx⟩)
    · by_cases hq : q = p ++ [j]
      · rw [hq, hn, Option.some.injEq] at hm
        exact hrf (hm ▸ hrf')
      · exact w.apart q _ m n hm hn hq x hxm hx

end Volume.Removed

/-- `w` is what nested calls that look their names up in the root have made of `v`. The directory
in slot `i` of the root is as it was, or it is one of the things that they removed. -/
structure Volume.Misled (v w : Volume) (i : Nat) (n : FileNode) : Prop where
  names : w.names = v.names
  marks : ∃ lost, w.Marks lost
  tree : (∀ q, [i] <+: q → w.node q = v.node q) ∨
    ∃ t, n.index[0]? = some t ∧ w.map.testBit t = false

theorem Volume.index_of_dir (hn : v.node p = some n) (ht : n.fileType = 1) :
    ∃ t, n.index[0]? = some t := by
  have hlong := v.long p n hn ht
  have hroom := n.room
  have htables := n.tables
  exact ⟨_, List.getElem?_eq_getElem (i := 0) (by omega)⟩

theorem Volume.Misled.step (h : v.Misled w i n) (hn : v.node [i] = some n) (ht : n.fileType = 1)
    (hmk : w.Marks lost) (hs : w.Removed w' [] j lost lost') : v.Misled w' i n := by
  refine ⟨hs.names.trans h.names, ⟨lost', hs.marks⟩, ?_⟩
  rcases h.tree with htree | ⟨t, hidx, hb⟩
  · by_cases hj : j = i
    · -- the child has the name of the directory itself
      subst hj
      obtain ⟨t, hidx⟩ := Volume.index_of_dir hn ht
      have hw : w.node ([] ++ [j]) = some n := (htree _ List.prefix_rfl).trans hn
      refine .inr ⟨t, hidx, hs.unmarked hmk hw (FileNode.not_refuses_of_dir ht) ?_⟩
      exact List.mem_cons_of_mem _ (List.mem_append_left _ (List.mem_of_getElem? hidx))
    · refine .inl fun q hq => ?_
      rw [hs.kept q (fun hq' => hj ?_) (fun e => ?_), htree q hq]
      · exact (Volume.concat_prefix_iff (r := []) hq).mp hq'
      · rw [e] at hq
        exact absurd hq.length_le (by simp)
  · refine .inr ⟨t, hidx, ?_⟩
    rw [← Bool.not_eq_true] at hb ⊢
    exact fun hb' => hb (hs.marked_mono hmk ⟨n.index_lt (List.mem_of_getElem? hidx), hb'⟩)

section release
variable {hdr : FileHeader} {t : Directory} {f : Handle} {x k : Nat}

theorem not_wp_deallocate {m : BitMap} (hm : m.numBits = 1024) (hl : n.Lists hdr)
    (hnum : hdr.numSectors.toInt = n.numSectors) (hidx : n.index[0]? = some x)
    (hb : m.testBit x = false) {Q : BitMap → Kernel → Prop} : ¬ Wp (hdr.deallocate m) Q s := by
  have hmem := List.mem_of_getElem? hidx
  obtain ⟨k, hk⟩ := Nat.exists_eq_succ_of_ne_zero (List.length_pos_of_mem hmem).ne'
  have hcount : (divRoundUp hdr.numSectors.toInt 32).toNat = k + 1 := by
    rw [divRoundUp_toNat_32, hnum, ← n.count, tablesFor, ← n.tables, hk]
  have hbit : m.test x = some false := by rw [BitMap.test_sector (hm ▸ n.index_lt hmem), hb]
  rw [FileHeader.deallocate, hcount]
  simp only [FileHeader.deallocateTables, wp_then, hl 0 x hidx, wp_orFault_some,
    toInt_ofNat_sector (n.index_lt hmem), hbit]
  exact not_wp_assert rfl

theorem not_wp_release (hr : Rep s w) (hfs : s.OpenOn fs.freeMapFile 0) (hl : n.Lists hdr)
    (hnum : hdr.numSectors.toInt = n.numSectors) (hidx : n.index[0]? = some x)
    (hb : w.map.testBit x = false) {a : Int} {o : Option CString} {Q : Unit → Kernel → Prop} :
    ¬ Wp (release fs hdr a o t f) Q s := by
  have hst₁ := Steady.tick s (s.tick + 1)
  have hr₁ := hr.steady hst₁ rfl
  have hfetch := wp_fetchMap hr₁.quiet w.isMap hr₁.map (hst₁.openOn hfs)
    (BitMap.numBits_new (s.host s.tick) 1024) (Q := fun m _ => m = w.map) fun _ _ => rfl
  obtain ⟨_, s₂, rfl, hwp⟩ := hfetch.exists_iff
  rw [release, wp_then, wp_freshMemory, wp_then, hwp, wp_then]
  exact not_wp_deallocate w.isMap.numBits hl hnum hidx hb

theorem wp_release_root (hr : Rep s w) (hmk : w.Marks lost) (hn : w.node p = some n)
    (hl : n.Lists hdr) (hnum : hdr.numSectors.toInt = n.numSectors)
    (hfs : s.OpenOn fs.freeMapFile 0) (ho : s.OpenOn f 1) (hsize : t.tableSize = 10)
    (hrd : Readable w.names t.table) (hcall : t.table.findIdx? (·.called w.names c) = some k) :
    Wp (release fs hdr n.hdr (some c) t f)
      (fun _ s' => w.map.Cleared n.sectors (freeMapOn s'.disk)) s := by
  obtain ⟨d, hroot, hd1, hdt⟩ := w.root
  refine wp_release_map hr hn (fun x hx => ?_) hl hnum hfs hrd hcall fun s₁ m' hm hc hr₁ hst => ?_
  · exact ((hmk.used x).mpr
      (.inl (.inr ⟨_, n, hn, List.mem_cons_of_mem _ (List.mem_append_left _ hx)⟩))).2
  · have hlen : Directory.tableSize ⟨t.table.modify k removedEntry⟩ = 10 := by
      rw [Directory.tableSize, List.length_modify]
      exact hsize
    have hlong := w.long [] d hroot hdt
    refine wp_writeDirectory hr₁.quiet (hr₁.on [] d hroot) (hd1 ▸ hst.openOn ho)
      (by rw [Directory.length_toBytes, hlen]; omega) hlen fun s₂ _ _ hd₂ => ?_
    have hon := hr₁.map.frame fun y hy => hd₂ y fun hyd =>
      w.mapApart [] d hroot y hy (List.mem_cons_of_mem _ (List.mem_append_right _ hyd))
    rw [(w.storeMap m' hm).isMap.freeMapOn hon]
    exact hc

end release

theorem wp_children_misled {remove : CString → Prog Bool} {l : List DirectoryEntry}
    (hl : ∀ e ∈ l, ∃ k, Describes v.names (v.node ([i] ++ [k])) (v.label ([i] ++ [k])) e)
    (hcall : ∀ s w c (Q : Bool → Kernel → Prop), Rep s w → Steady s₀ s → v.Misled w i n →
      '/' ∉ c → (name ++ '/' :: c).length < 100 → Wp (remove (name ++ '/' :: c)) Q s →
      Wp (remove (name ++ '/' :: c)) (fun _ s' => Steady s s' ∧ ∃ w', Rep s' w' ∧
        v.Misled w' i n) s)
    (hr : Rep s w) (hst : Steady s₀ s) (hw : v.Misled w i n)
    {Q : Unit → Kernel → Prop} (h : Wp (forM l (removeChild remove name)) Q s) :
    Wp (forM l (removeChild remove name)) (fun _ s' => Q () s' ∧ Steady s₀ s' ∧
      ∃ w', Rep s' w' ∧ v.Misled w' i n) s := by
  induction l generalizing s w with
  | nil =>
    rw [List.forM_nil, wp_pure] at h ⊢
    exact ⟨h, hst, w, hr, hw⟩
  | cons e l ih =>
    obtain ⟨k, he⟩ := hl e (List.mem_cons_self ..)
    have hl' := fun e he => hl e (List.mem_cons_of_mem _ he)
    rw [List.forM_cons, wp_then] at h ⊢
    cases hm : v.node ([i] ++ [k]) with
    | none =>
      rw [hm] at he
      rw [wp_removeChild_unused he] at h ⊢
      exact ih hl' hr hst hw h
    | some m =>
      rw [hm, ← hw.names] at he
      rw [wp_removeChild hr he] at h ⊢
      have hspec := hcall s w _ _ hr hst hw (v.plain _ k m hm) h.1 h.2
      refine ⟨h.1, (hspec.and h.2).mono fun _ s₁ hs₁ => ?_⟩
      obtain ⟨⟨hst₁, w₁, hr₁, hw₁⟩, hrest⟩ := hs₁
      exact ih hl' hr₁ (hst.trans hst₁) hw₁ hrest

theorem wp_removeFuel_misled (hn : v.node [i] = some n) (ht : n.fileType = 1)
    (hfs : s.OpenOn fs.freeMapFile 0) (hone : '/' ∉ name) (hfuel : Enough (fuel + 1) name)
    (hr : Rep s w) (hw : v.Misled w i n) (hc : '/' ∉ c) (hlt : (name ++ '/' :: c).length < 100)
    {Q : Bool → Kernel → Prop} (h : Wp (removeFuel fs fuel (name ++ '/' :: c)) Q s) :
    Wp (removeFuel fs fuel (name ++ '/' :: c)) (fun _ s' => Steady s s' ∧ ∃ w', Rep s' w' ∧
      v.Misled w' i n) s := by
  have hcomp : components (name ++ '/' :: c) = [name, c] := by
    rw [components_child name hc, components_plain hone]
    rfl
  have hfuel' := hfuel.child hlt
  cases hchild : w.child [] c with
  | none =>
    obtain ⟨fuel, rfl⟩ := Nat.exists_eq_succ_of_ne_zero (Nat.one_le_iff_ne_zero.mp hfuel'.1)
    refine wp_remove_unbound hr (by rw [hcomp]; trivial) (fun q hq => ?_)
      fun s' hr' hst' => ⟨hst', w, hr', hw⟩
    rw [hcomp] at hq ⊢
    cases hq
    exact hchild
  | some j =>
    obtain ⟨⟨m, hm⟩, -⟩ := Volume.child_eq_some.mp hchild
    have hb : w.Binds (name ++ '/' :: c) [] j m := by
      refine ⟨?_, ?_, hm⟩
      · rw [hcomp]
        rfl
      · rw [hcomp]
        exact hchild
    obtain ⟨lost, hmk⟩ := hw.marks
    have hsl : 2 ≤ (components (name ++ '/' :: c)).length := two_le_components_child hc
    have hshort := short_of_wp_removeFuel hr hmk hfs hb hsl hfuel' h
    refine (wp_removeFuel_removed hr hmk hfs hb hshort hsl hfuel').mono fun _ s' hs' => ?_
    obtain ⟨w', lost', hr', hst', hrm⟩ := hs'
    exact ⟨hst', w', hr', hw.step hn ht hmk hrm⟩

/-- A call without a slash, on a directory that has something in it, gives the directory back and
leaves what is in it marked. -/
theorem leaked_of_wp_removeFuel {k : Nat} (hr : Rep s v) (hmk : v.Marks lost)
    (hfs : s.OpenOn fs.freeMapFile 0) (h : v.Binds name p i n) (ht : n.fileType = 1)
    (hone : '/' ∉ name) (hm : v.node (p ++ [i] ++ [k]) = some m) (hfuel : Enough fuel name)
    {Q : Bool → Kernel → Prop} (hwp : Wp (removeFuel fs fuel name) Q s) :
    ∃ b s', Q b s' ∧ (freeMapOn s'.disk).testBit n.hdr = false ∧
      (freeMapOn s'.disk).testBit m.hdr = true := by
  obtain ⟨fuel, rfl⟩ := Nat.exists_eq_succ_of_ne_zero (Nat.one_le_iff_ne_zero.mp hfuel.1)
  obtain rfl : p = [] := by
    have hwalk := h.walk
    rw [components_plain hone] at hwalk
    cases hwalk
    rfl
  rw [List.nil_append] at hm
  have hn : v.node [i] = some n := h.node
  obtain ⟨s₁, d, f, hdr, hr₁, hst₁, ho₁, hl, hnum, hdir⟩ := removeFuel_dir hr h ht fs fuel
  rw [hdir] at hwp
  have hstart : v.Misled v i n := ⟨rfl, ⟨lost, hmk⟩, .inl fun _ _ => rfl⟩
  have hloop := wp_children_misled (fun e he => ?_) ?_ hr₁ (Steady.refl s₁) hstart hwp
  · obtain ⟨-, s₂, ⟨hrel, hst₂, w, hr₂, hw⟩, -⟩ := hloop.exists_iff
    have hfs₂ := (hst₁.trans hst₂).openOn hfs
    rcases hw.tree with htree | ⟨x, hidx, hb⟩
    · obtain ⟨lost', hmk'⟩ := hw.marks
      obtain ⟨r, hroot, hr1, -⟩ := v.root
      obtain rfl := Option.some.inj (hroot.symm.trans ho₁.node)
      have hnw := (htree _ List.prefix_rfl).trans hn
      have hmw := (htree _ (List.prefix_append ..)).trans hm
      have hspec := wp_release_root (c := lastComp (components name))
        (t := ⟨entriesOf r.content⟩) hr₂ hmk' hnw hl hnum hfs₂
        (hr1 ▸ hst₂.openOn ho₁.openOn) (Volume.length_entries hroot ho₁.isDir)
        (hw.names ▸ Volume.readable hroot ho₁.isDir)
        (hw.names ▸ (Volume.findIdx?_called hroot ho₁.isDir).trans h.child)
      obtain ⟨-, s₃, ⟨hclear, hQ⟩, -⟩ := (hspec.and hrel).exists_iff
      refine ⟨true, s₃, hQ, ?_, ?_⟩
      · have hin : n.hdr ∈ n.sectors := List.mem_cons_self ..
        rw [hclear.testBit, decide_eq_true hin, Bool.not_true, Bool.and_false]
      · have hset := ((hmk'.used m.hdr).mpr
          (.inl (.inr ⟨_, m, hmw, List.mem_cons_self ..⟩))).2
        have hnot : m.hdr ∉ n.sectors := fun hx =>
          w.apart _ _ n m hnw hmw (by simp) _ hx (List.mem_cons_self ..)
        rw [hclear.testBit, hset, decide_eq_false hnot]
        rfl
    · exact absurd hrel (not_wp_release hr₂ hfs₂ hl hnum hidx hb)
  · obtain ⟨a, ha⟩ := List.mem_iff_getElem?.mp he
    exact ⟨a, v.entry [i] n hn ht a e ha⟩
  · intro s₂ w c R hr₂ hst₂ hw hc hlt hR
    exact wp_removeFuel_misled hn ht ((hst₁.trans hst₂).openOn hfs) hone hfuel hr₂ hw hc hlt hR

/-! ## The whole call -/

structure SubtreeRemoved (s s' : Kernel) (r : Place) : Prop extends SubtreeDeleted s s' r where
  names : ∀ name q h, DirsOnly s 1 (dirComps (components name)) → r <+: q →
    headerAt s.disk q = some h → boundTo s name = some h → boundTo s' name = none

/-- `Remove` of the directory with header `h` deletes it with all that is below, or refuses and
leaves all of it; and what is outside is as it was. -/
def RemovesSubtree (fs : FileSystem) (name : CString) (h : Nat) (s : Kernel) : Prop :=
  Wp (remove fs name) (fun b s' => ∃ r, headerAt s.disk r = some h ∧
    (b = true ∧ SubtreeRemoved s s' r ∨ b = false ∧ SubtreeKept s s' r) ∧
    OutsideUnchanged s s' r) s

theorem Volume.ThroughDirs.part {cs : List CString} (h : v.ThroughDirs p cs)
    (hl : w.label = v.label)
    (hn : ∀ q m', w.node q = some m' → ∃ m, v.node q = some m ∧ m'.fileType = m.fileType) :
    w.ThroughDirs p cs := by
  induction cs generalizing p with
  | nil => trivial
  | cons c cs ih =>
    intro j hj
    obtain ⟨⟨m', hm'⟩, hlab⟩ := Volume.child_eq_some.mp hj
    obtain ⟨m, hm, htype⟩ := hn _ m' hm'
    rw [hl] at hlab
    obtain ⟨⟨d, hd, ht⟩, hrest⟩ := h j (Volume.child_eq_some.mpr ⟨⟨m, hm⟩, hlab⟩)
    obtain rfl := Option.some.inj (hd.symm.trans hm)
    exact ⟨⟨m', hm', htype.trans ht⟩, ih hrest⟩

theorem Volume.Removed.part {v' : Volume} (h : v.Removed v' p i lost lost') {q : Place}
    {m' : FileNode} (hm : v'.node q = some m') :
    ∃ m, v.node q = some m ∧ m'.fileType = m.fileType := by
  obtain ⟨d, d', hd, hd', hsh⟩ := h.dir
  by_cases hq : p ++ [i] <+: q
  · obtain ⟨-, m, hm₀, -, rfl⟩ := h.left q m' hq hm
    exact ⟨m, hm₀, rfl⟩
  · by_cases hqp : q = p
    · rw [hqp, hd', Option.some.injEq] at hm
      exact ⟨d, hqp ▸ hd, hm ▸ hsh.fileType⟩
    · rw [h.kept q hq hqp] at hm
      exact ⟨m', hm, rfl⟩

theorem Rep.eq_of_headerAt {q : Place} (hr : Rep s v) (hn : v.node p = some n)
    (hq : Nachos.headerAt s.disk q = some n.hdr) : q = p := by
  obtain ⟨m, hm, hhdr, -⟩ := hr.node_of_headerAt hq
  by_contra hne
  refine v.apart q p m n hm hn hne n.hdr ?_ (List.mem_cons_self ..)
  rw [← hhdr]
  exact List.mem_cons_self ..

theorem Rep.subtreeRemoved {v' : Volume} (hr : Rep s v) (hr' : Rep s' v') (hmk : v.Marks ∅)
    (h : v.Removed v' p i ∅ lost') (hgone : ∀ q, p ++ [i] <+: q → v'.node q = none)
    (hstays : v.stays (p ++ [i]) = ∅) : SubtreeRemoved s s' (p ++ [i]) := by
  refine ⟨hr.subtreeDeleted hr' hmk h hgone hstays, fun name' q k hdirs hq hk hb => ?_⟩
  obtain ⟨p', j, m, hbind, rfl⟩ := hr.binds_of_boundTo hdirs hb
  have hplace := hr.eq_of_headerAt hbind.node hk
  refine hr'.boundTo_eq_none (hbind.thru.part h.label fun q m' => h.part) fun t ht => ?_
  -- the walk ends where it did, and the slot that it finds there was the one that is gone
  have hwalk : v.walk [] (dirComps (components name')) = some t := by
    refine Volume.walk_congr ht (fun _ _ _ => (congrFun h.label _).symm) fun a b _ hab => ?_
    obtain ⟨b', hb', -⟩ := h.part hab
    exact ⟨b', hb'⟩
  obtain rfl := Option.some.inj (hbind.walk.symm.trans hwalk)
  cases hc : v'.child p' (lastComp (components name')) with
  | none => rfl
  | some a =>
    obtain ⟨⟨b, hnode⟩, hlab⟩ := Volume.child_eq_some.mp hc
    obtain ⟨b', hb', -⟩ := h.part hnode
    rw [h.label] at hlab
    have ha : a = j := Option.some.inj
      ((Volume.child_eq_some.mpr ⟨⟨b', hb'⟩, hlab⟩).symm.trans hbind.child)
    rw [ha, hgone _ (hplace ▸ hq)] at hnode
    cases hnode

section call
variable (hr : Rep s v) (hmk : v.Marks ∅) (hfs : s.OpenOn fs.freeMapFile 0)
  (hb : v.Binds name p i n) (ht : n.fileType = 1)
include hr hmk hfs hb ht

theorem Rep.removesSubtree (h : RemoveMeets s name n.hdr) : RemovesSubtree fs name n.hdr s := by
  obtain ⟨hsl, hstays, hshort⟩ := (hr.removeMeets_iff hb.node).mp h
  have hrf := FileNode.not_refuses_of_dir ht
  refine wp_removeFuel hr hmk hfs hb hshort hsl ⟨by omega, by omega⟩ fun s' v' lost' hr' _ hrm => ?_
  refine ⟨p ++ [i], ?_, .inl ⟨decide_eq_true hrf, ?_⟩, hr.outsideUnchanged hr' hrm⟩
  · rw [hr.headerAt, hb.node, Option.map_some]
  · exact hr.subtreeRemoved hr' hmk hrm (fun q => hrm.gone hb.node hrf) hstays

theorem Rep.stays_of_removesSubtree (hsl : 2 ≤ (components name).length)
    (hshort : v.Short name (p ++ [i])) (h : RemovesSubtree fs name n.hdr s) :
    v.stays (p ++ [i]) = ∅ := by
  have hrf := FileNode.not_refuses_of_dir ht
  have hfuel : Enough 101 name := ⟨by omega, by omega⟩
  have hspec := wp_removeFuel_removed hr hmk hfs hb hshort hsl hfuel
  obtain ⟨_, s', ⟨⟨v', lost', hr', -, hrm⟩, r, hhdr, hcase, -⟩, -⟩ := (hspec.and h).exists_iff
  have hgone := fun q => hrm.gone (q := q) hb.node hrf
  obtain rfl := hr.eq_of_headerAt hb.node hhdr
  rcases hcase with ⟨-, hdel⟩ | ⟨-, hkept⟩
  · refine Set.eq_empty_iff_forall_notMem.mpr fun x hx => ?_
    have hlost : x ∈ lost' := by
      rw [hrm.lost_eq hgone]
      exact .inr hx
    obtain ⟨hlt, hset⟩ := (hrm.marks.used x).mpr (.inr hlost)
    obtain ⟨q, m, hq, hm, -, hxm⟩ := hx
    rw [← hr'.freeMapOn] at hset
    exact ((hdel.map x hlt).mp hset).2 (hr.mem_subtreeSectors.mpr ⟨q, m, hq, hm, hxm⟩)
  · have := hkept.tree _ List.prefix_rfl
    rw [hr'.headerAt, hgone _ List.prefix_rfl, hr.headerAt, hb.node] at this
    cases this

theorem Rep.empty_of_removesSubtree (hone : '/' ∉ name) (h : RemovesSubtree fs name n.hdr s)
    (k : Nat) : v.node (p ++ [i] ++ [k]) = none := by
  cases hm : v.node (p ++ [i] ++ [k]) with
  | none => rfl
  | some m =>
    obtain ⟨_, s', ⟨r, hhdr, hcase, -⟩, hn, hset⟩ :=
      leaked_of_wp_removeFuel hr hmk hfs hb ht hone hm ⟨by omega, by omega⟩ h
    obtain rfl := hr.eq_of_headerAt hb.node hhdr
    rcases hcase with ⟨-, hdel⟩ | ⟨-, hkept⟩
    · have hin : m.hdr ∈ subtreeSectors s.disk (p ++ [i]) := hr.mem_subtreeSectors.mpr
        ⟨_, m, List.prefix_append .., hm, List.mem_cons_self ..⟩
      exact absurd hin ((hdel.map m.hdr m.hdr_lt).mp hset).2
    · have hnset := ((hmk.used n.hdr).mpr
        (.inl (.inr ⟨_, n, hb.node, List.mem_cons_self ..⟩))).2
      rw [hkept.map, hr.freeMapOn, hnset] at hn
      cases hn

theorem Rep.removeMeets_of_removesSubtree (h : RemovesSubtree fs name n.hdr s) :
    RemoveMeets s name n.hdr := by
  rw [hr.removeMeets_iff hb.node]
  by_cases hslash : '/' ∈ name
  · obtain ⟨u, us, hcomp, hus⟩ := components_of_slash hslash
    have hsl : 2 ≤ (components name).length := by
      have := List.length_pos_iff.mpr hus
      rw [hcomp, List.length_cons]
      omega
    have hshort := short_of_wp_removeFuel hr hmk hfs hb hsl ⟨by omega, by omega⟩ h
    exact ⟨.inl hsl, hr.stays_of_removesSubtree hmk hfs hb ht hsl hshort h, hshort⟩
  · have hnone := hr.empty_of_removesSubtree hmk hfs hb ht hslash h
    -- there is nothing below
    have halone : ∀ js m, v.node (p ++ [i] ++ js) = some m → js = [] := by
      intro js m hm
      cases js with
      | nil => rfl
      | cons k js =>
        rw [List.append_cons, Volume.node_below_none (hnone k) (List.prefix_append ..)] at hm
        cases hm
    refine ⟨.inr hnone, Set.eq_empty_iff_forall_notMem.mpr fun x hx => ?_,
      fun js m hjs hm => absurd (halone js m hm) hjs⟩
    obtain ⟨_, m, ⟨js, rfl⟩, hm, hrf, -⟩ := hx
    rw [halone js m hm, List.append_nil, hb.node, Option.some.injEq] at hm
    exact FileNode.not_refuses_of_dir ht (hm ▸ hrf)

end call

/-! ## One directory, by two names -/

namespace Nested

theorem sound (h : Nested fs s v i j n m) : Sound fs s := ⟨v, h.rep, h.marks, h.openOn⟩

theorem binds (h : Nested fs s v i j n m) : v.Binds ['A'] [] i n := ⟨rfl, h.child, h.dir⟩

theorem binds_slash (h : Nested fs s v i j n m) : v.Binds ['r', '/', 'A'] [] i n :=
  ⟨rfl, h.child, h.dir⟩

theorem removeMeets (h : Nested fs s v i j n m) : RemoveMeets s ['r', '/', 'A'] n.hdr := by
  refine (h.rep.removeMeets_iff h.dir).mpr ⟨.inl (by decide), ?_, fun js m' hjs hm => ?_⟩
  · refine Set.eq_empty_iff_forall_notMem.mpr fun x hx => ?_
    obtain ⟨q, m', hq, hm, hrf, -⟩ := hx
    rcases h.only q m' hq hm with rfl | rfl
    · obtain rfl := Option.some.inj (h.dir.symm.trans hm)
      exact FileNode.not_refuses_of_dir h.isDir hrf
    · obtain rfl := Option.some.inj (h.file.symm.trans hm)
      exact hrf.2 h.numVisits
  · rcases h.only _ m' (List.prefix_append ..) hm with he | he
    · exact absurd (List.append_right_eq_self.mp he) hjs
    · rw [List.append_cancel_left he, Volume.text, Volume.text, h.label]
      decide

end Nested

/-- On a disk with sector ownership, `Remove` of a directory deletes the subtree and nothing else,
or leaves it all, just if the directory has nothing in it or is named with a slash, no file in it
refuses and no path is too long. -/
theorem removesSubtree_iff {h : Nat} (hs : Sound fs s)
    (hdirs : DirsOnly s 1 (dirComps (components name))) (hb : boundTo s name = some h)
    (ht : (hdrAt s.disk h).fileType = 1) : RemovesSubtree fs name h s ↔ RemoveMeets s name h := by
  obtain ⟨v, hr, hmk, hfs⟩ := hs
  obtain ⟨p, i, n, hbind, rfl⟩ := hr.binds_of_boundTo hdirs hb
  rw [(hr.on _ n hbind.node).fileType] at ht
  constructor
  · exact hr.removeMeets_of_removesSubtree hmk hfs hbind ht
  · exact hr.removesSubtree hmk hfs hbind ht

/-- By the name `r/A`, the directory goes with its file. -/
theorem removesSubtree_slash : Wp nested (fun fs s => ∃ h, boundTo s ['r', '/', 'A'] = some h ∧
    (hdrAt s.disk h).fileType = 1 ∧ RemovesSubtree fs ['r', '/', 'A'] h s) Kernel.zeroed := by
  refine wp_nested.mono fun fs s hs => ?_
  obtain ⟨v, i, j, n, m, h⟩ := hs
  have hb := h.rep.boundTo_of_binds h.binds_slash
  have ht := (h.rep.on _ n h.dir).fileType.trans h.isDir
  have hdirs : DirsOnly s 1 (dirComps (components ['r', '/', 'A'])) := trivial
  exact ⟨n.hdr, hb, ht, (removesSubtree_iff h.sound hdirs hb ht).mpr h.removeMeets⟩

/-- By the name `A`, it goes and leaves the sectors of the file marked. -/
theorem not_removesSubtree_plain : Wp nested (fun fs s => ∃ h, Sound fs s ∧
    boundTo s ['A'] = some h ∧ (hdrAt s.disk h).fileType = 1 ∧
    ¬ RemovesSubtree fs ['A'] h s) Kernel.zeroed := by
  refine wp_nested.mono fun fs s hs => ?_
  obtain ⟨v, i, j, n, m, h⟩ := hs
  refine ⟨n.hdr, h.sound, h.rep.boundTo_of_binds h.binds,
    (h.rep.on _ n h.dir).fileType.trans h.isDir, fun hsub => ?_⟩
  have hnone := h.rep.empty_of_removesSubtree h.marks h.openOn h.binds h.isDir (by decide) hsub j
  exact absurd (hnone.symm.trans h.file) (by simp)

end Nachos
