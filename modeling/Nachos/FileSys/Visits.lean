import Nachos.FileSys.Ownership
import Nachos.FileSys.Removal

/-! The visit count of a file over histories of `Open` and `Remove`. `Create` takes the header from
`new FileHeader` and never sets its `numVisits`, so the first value is whatever the memory held. -/

namespace Nachos
open Lib Program FileSystem

/-! ## Histories -/

inductive Visit where
  | open
  | remove
  deriving DecidableEq

def opens (h : List Visit) : Nat := h.count .open

def removes (h : List Visit) : Nat := h.count .remove

section count
variable {h : List Visit}

theorem opens_open : opens (.open :: h) = opens h + 1 := List.count_cons_self

theorem opens_remove : opens (.remove :: h) = opens h := List.count_cons_of_ne (by decide)

theorem removes_open : removes (.open :: h) = removes h := List.count_cons_of_ne (by decide)

theorem removes_remove : removes (.remove :: h) = removes h + 1 := List.count_cons_self

end count

/-- The directories, the free map and the bytes of every file are as they were. -/
structure SameFiles (s s' : Kernel) : Prop where
  tree : ∀ q, headerAt s'.disk q = headerAt s.disk q
  map : freeMapOn s'.disk = freeMapOn s.disk
  sectors : ∀ q h, headerAt s.disk q = some h → fileSectors s'.disk h = fileSectors s.disk h
  bytes : ∀ q h, headerAt s.disk q = some h → fileBytes s'.disk h = fileBytes s.disk h
  names : s'.names = s.names

/-- The path is free, and so are the sectors of the file with header `k`; all else is as it was. -/
structure FileDeleted (name : CString) (k : Nat) (s s' : Kernel) : Prop where
  unbound : boundTo s' name = none
  map : ∀ x < 1024, (freeMapOn s'.disk).testBit x = true ↔
    (freeMapOn s.disk).testBit x = true ∧ x ∉ fileSectors s.disk k

/-- From `s` on, where the file is gone, every `Remove` of the history answers FALSE. -/
def StaysDeleted (fs : FileSystem) (name : CString) : List Visit → Kernel → Prop
  | [], _ => True
  | .open :: h, s => Wp («open» name) (fun _ s' => StaysDeleted fs name h s') s
  | .remove :: h, s => Wp (remove fs name) (fun b s' => b = false ∧ StaysDeleted fs name h s') s

/-- The history from `s` on, after `o` calls of `Open` and `r` calls of `Remove`: a `Remove` deletes
the file, and answers TRUE, when it is the `max 1 o`-th one, and changes nothing before that. -/
def Obeys (fs : FileSystem) (name : CString) (k : Nat) :
    (o r : Nat) → List Visit → Kernel → Prop
  | _, _, [], _ => True
  | o, r, .open :: h, s => Wp («open» name) (fun _ s' => Obeys fs name k (o + 1) r h s') s
  | o, r, .remove :: h, s => Wp (remove fs name) (fun b s' =>
      if r + 1 = max 1 o then b = true ∧ FileDeleted name k s s' ∧ StaysDeleted fs name h s'
      else b = false ∧ SameFiles s s' ∧ Obeys fs name k o (r + 1) h s') s

/-! ## The count -/

def Agrees (w : Word) : (o r : Nat) → List Visit → Prop
  | _, _, [] => True
  | o, r, .open :: h => Agrees (w + 1) (o + 1) r h
  | o, r, .remove :: h => (w = 1 ↔ r + 1 = max 1 o) ∧ (r + 1 ≠ max 1 o → Agrees (w - 1) o (r + 1) h)

/-- The first value of the count with which the history goes as it should. -/
def wantedVisits : List Visit → Word
  | .remove :: _ => 1
  | _ => 0

/-- The history ends before any `Remove` that should delete the file, or that would. -/
def Undecided (w : Word) (o r : Nat) (h : List Visit) : Prop :=
  ∀ pre post, h = pre ++ .remove :: post →
    r + removes pre + 1 ≠ max 1 (o + opens pre) ∧
      w + BitVec.ofNat 32 (o + opens pre) ≠ BitVec.ofNat 32 (r + removes pre + 1)

section agrees
variable {w : Word} {o r : Nat} {h : List Visit}

theorem undecided_open : Undecided w o r (.open :: h) ↔ Undecided w (o + 1) r h := by
  constructor
  · rintro hu pre post rfl
    have := hu (.open :: pre) post rfl
    rwa [removes_open, opens_open, ← Nat.add_assoc, Nat.add_right_comm o] at this
  · rintro hu pre post hh
    cases pre with
    | nil => cases hh
    | cons a pre =>
      obtain ⟨rfl, rfl⟩ := List.cons.inj hh
      have := hu pre post rfl
      rwa [removes_open, opens_open, ← Nat.add_assoc, Nat.add_right_comm o]

theorem undecided_remove : Undecided w o r (.remove :: h) ↔
    (r + 1 ≠ max 1 o ∧ w + BitVec.ofNat 32 o ≠ BitVec.ofNat 32 (r + 1)) ∧
      Undecided w o (r + 1) h := by
  constructor
  · refine fun hu => ⟨hu [] h rfl, ?_⟩
    rintro pre post rfl
    have := hu (.remove :: pre) post rfl
    rwa [removes_remove, opens_remove, ← Nat.add_assoc, Nat.add_right_comm r] at this
  · rintro ⟨h₀, hu⟩ pre post hh
    cases pre with
    | nil => exact h₀
    | cons a pre =>
      obtain ⟨rfl, rfl⟩ := List.cons.inj hh
      have := hu pre post rfl
      rwa [removes_remove, opens_remove, ← Nat.add_assoc, Nat.add_right_comm r]

def visitsAfter (w : Word) (o r : Nat) : Word := w + BitVec.ofNat 32 o - BitVec.ofNat 32 r

theorem visitsAfter_open : visitsAfter w o r + 1 = visitsAfter w (o + 1) r := by
  simp only [visitsAfter, BitVec.ofNat_add]
  bv_omega

theorem visitsAfter_remove : visitsAfter w o r - 1 = visitsAfter w o (r + 1) := by
  simp only [visitsAfter, BitVec.ofNat_add]
  bv_omega

theorem visitsAfter_eq_one :
    visitsAfter w o r = 1 ↔ w + BitVec.ofNat 32 o = BitVec.ofNat 32 (r + 1) := by
  simp only [visitsAfter, BitVec.ofNat_add]
  constructor
  · intro h
    bv_omega
  · intro h
    bv_omega

theorem agrees_opened (hr : r < o) (ho : o + opens h < 2 ^ 32) :
    Agrees (visitsAfter w o r) o r h ↔ w = 0 ∨ Undecided w o r h := by
  induction h generalizing o r with
  | nil =>
    refine iff_of_true trivial (.inr fun pre post hh => ?_)
    cases pre <;> cases hh
  | cons a h ih =>
    cases a with
    | «open» =>
      rw [opens_open] at ho
      rw [Agrees, visitsAfter_open, ih (by omega) (by omega), undecided_open]
    | remove =>
      rw [opens_remove] at ho
      rw [Agrees, visitsAfter_eq_one, visitsAfter_remove, undecided_remove, max_eq_right (by omega)]
      by_cases hlast : r + 1 = o
      · have hw : w + BitVec.ofNat 32 o = BitVec.ofNat 32 o ↔ w = 0 := BitVec.add_left_eq_self
        simp [hlast, hw]
      · rw [ih (by omega) ho]
        have hw : w = 0 → w + BitVec.ofNat 32 o ≠ BitVec.ofNat 32 (r + 1) := by
          rintro rfl h0
          have := congrArg BitVec.toNat ((BitVec.zero_add _).symm.trans h0)
          rw [BitVec.toNat_ofNat, BitVec.toNat_ofNat] at this
          omega
        simp only [hlast, iff_false, ne_eq, not_false_eq_true, true_implies, true_and]
        constructor
        · rintro ⟨hne, hz | hu⟩
          · exact .inl hz
          · exact .inr ⟨hne, hu⟩
        · rintro (hz | ⟨hne, hu⟩)
          · exact ⟨hw hz, .inl hz⟩
          · exact ⟨hne, .inr hu⟩

theorem agrees_iff (ho : opens h < 2 ^ 32) :
    Agrees w 0 0 h ↔ w = wantedVisits h ∨ Undecided w 0 0 h := by
  cases h with
  | nil =>
    refine iff_of_true trivial (.inr fun pre post hh => ?_)
    cases pre <;> cases hh
  | cons a h =>
    cases a with
    | «open» =>
      rw [opens_open] at ho
      have hw : w + 1 = visitsAfter w (0 + 1) 0 := by simp [visitsAfter]
      rw [Agrees, hw, agrees_opened (by omega) (by omega), undecided_open]
      rfl
    | remove =>
      rw [undecided_remove, Agrees]
      simp [wantedVisits]

end agrees

/-! ## The calls -/

section calls
variable {s s' : Kernel} {v v' : Volume} {fs : FileSystem} {name : CString} {p : Place} {i k : Nat}
  {n : FileNode}

theorem Rep.sameFiles (hr : Rep s v) (hn : v.node p = some n) {w : Word}
    (hr' : Rep s' (v.setVisits p n hn w)) : SameFiles s s' := by
  -- every file has the same header sector, sectors and bytes as before
  have hfile : ∀ q m, v.node q = some m → ∃ m', (v.setVisits p n hn w).node q = some m' ∧
      m'.hdr = m.hdr ∧ m'.sectors = m.sectors ∧ m'.content = m.content := by
    intro q m hm
    by_cases hq : q = p
    · subst hq
      obtain rfl := Option.some.inj (hn.symm.trans hm)
      exact ⟨n.withVisits w, Function.update_self .., rfl, rfl, rfl⟩
    · exact ⟨m, (Function.update_of_ne hq ..).trans hm, rfl, rfl, rfl⟩
  refine ⟨fun q => ?_, ?_, fun q h hh => ?_, fun q h hh => ?_, hr'.names.trans hr.names.symm⟩
  · rw [hr.headerAt, hr'.headerAt]
    cases hm : v.node q with
    | none =>
      have hq : q ≠ p := by
        rintro rfl
        rw [hn] at hm
        cases hm
      rw [show (v.setVisits p n hn w).node q = none from (Function.update_of_ne hq ..).trans hm]
    | some m =>
      obtain ⟨m', hm', hhdr, -⟩ := hfile q m hm
      rw [hm', Option.map_some, Option.map_some, hhdr]
  · rw [hr.freeMapOn, hr'.freeMapOn]
    rfl
  · rw [hr.headerAt] at hh
    obtain ⟨m, hm, rfl⟩ := Option.map_eq_some_iff.mp hh
    obtain ⟨m', hm', hhdr, hs, -⟩ := hfile q m hm
    rw [(hr.on q m hm).fileSectors, ← hhdr, (hr'.on q m' hm').fileSectors, hs]
  · rw [hr.headerAt] at hh
    obtain ⟨m, hm, rfl⟩ := Option.map_eq_some_iff.mp hh
    obtain ⟨m', hm', hhdr, -, hc⟩ := hfile q m hm
    rw [(hr.on q m hm).fileBytes, ← hhdr, (hr'.on q m' hm').fileBytes, hc]

structure Volume.Unbound (v : Volume) (name : CString) : Prop where
  thru : v.ThroughDirs [] (dirComps (components name))
  child : ∀ p, v.walk [] (dirComps (components name)) = some p →
    v.child p (lastComp (components name)) = none

theorem Volume.Removed.pathUnbound (h : v.Removed v' p i ∅ ∅) (hb : v.Binds name p i n)
    (hrf : ¬ n.Refuses) : v'.Unbound name := by
  obtain ⟨-, d, hd, ht⟩ := v.parent p i n hb.node
  obtain ⟨d₁, d', hd₁, hd', hsh⟩ := h.dir
  obtain rfl := Option.some.inj (hd.symm.trans hd₁)
  have hw := h.walk hb.walk
  refine ⟨Volume.throughDirs_of_walk hw hd' (hsh.fileType.trans ht), fun q hq => ?_⟩
  obtain rfl := Option.some.inj (hw.symm.trans hq)
  exact h.unbound hb.child fun q => h.gone hb.node hrf

theorem Rep.fileDeleted (hr : Rep s v) (hr' : Rep s' v') (hmk : v.Marks ∅)
    (h : v.Removed v' p i ∅ ∅) (hb : v.Binds name p i n) (ht : n.fileType = 0)
    (hv : n.numVisits = 1) : FileDeleted name n.hdr s s' := by
  have hrf : ¬ n.Refuses := fun hrf => hrf.2 hv
  have hub := h.pathUnbound hb hrf
  have hstays : v.stays (p ++ [i]) = ∅ := by
    refine Set.eq_empty_iff_forall_notMem.mpr fun x hx => ?_
    obtain ⟨q, m, hq, hm, hrf', -⟩ := hx
    rw [(Volume.plain_below hb.node ht hq hm).2] at hrf'
    exact hrf hrf'
  have hdel := hr.subtreeDeleted hr' hmk h (fun q => h.gone hb.node hrf) hstays
  refine ⟨hr'.boundTo_eq_none hub.thru hub.child, fun x hx => ?_⟩
  rw [hdel.map x hx, hr.mem_subtreeSectors, (hr.on _ n hb.node).fileSectors]
  refine and_congr_right fun _ => not_congr ⟨?_, fun hx => ⟨_, n, List.prefix_rfl, hb.node, hx⟩⟩
  rintro ⟨q, m, hq, hm, hx⟩
  rwa [(Volume.plain_below hb.node ht hq hm).2] at hx

theorem staysDeleted (hr : Rep s v) (hub : v.Unbound name) (h : List Visit) :
    StaysDeleted fs name h s := by
  induction h generalizing s with
  | nil => trivial
  | cons a h ih =>
    cases a with
    | «open» => exact wp_open_unbound hr hub.thru hub.child fun s' q d f hr' _ _ => ih hr'
    | remove => exact wp_remove_unbound hr hub.thru hub.child fun s' hr' _ => ⟨rfl, ih hr'⟩

theorem obeys_iff (hr : Rep s v) (hmk : v.Marks ∅) (hfs : s.OpenOn fs.freeMapFile 0)
    (hb : v.Binds name p i n) (ht : n.fileType = 0) {o r : Nat} {h : List Visit} :
    Obeys fs name n.hdr o r h s ↔ Agrees n.numVisits o r h := by
  induction h generalizing s v n o r with
  | nil => exact Iff.rfl
  | cons a h ih =>
    cases a with
    | «open» =>
      obtain ⟨f, s₁, ⟨hr₁, hst₁⟩, hwp⟩ := Wp.exists_iff <| wp_open_bound hr hb
        (Q := fun _ s₁ => Rep s₁ (v.setVisits (p ++ [i]) n hb.node (n.numVisits + 1)) ∧ Steady s s₁)
        fun s₁ f hr₁ hst₁ _ _ _ _ => ⟨hr₁, hst₁⟩
      rw [Obeys, hwp, Agrees]
      exact ih hr₁ (hmk.replace _ rfl) (hst₁.openOn hfs) (hb.replace _) ht
    | remove =>
      by_cases hv : n.numVisits = 1
      · have hgone : Wp (fs.remove name)
            (fun b s₁ => b = true ∧ ∃ v₁, Rep s₁ v₁ ∧ v.Removed v₁ p i ∅ ∅) s :=
          wp_remove_last hr hmk hfs hb ht hv fun s₁ v₁ hr₁ _ hrm => ⟨rfl, v₁, hr₁, hrm⟩
        obtain ⟨b, s₁, ⟨rfl, v₁, hr₁, hrm⟩, hwp⟩ := Wp.exists_iff hgone
        have hub := hrm.pathUnbound hb fun hrf => hrf.2 hv
        rw [Obeys, hwp, Agrees]
        by_cases hlast : r + 1 = max 1 o
        · rw [if_pos hlast]
          refine iff_of_true ⟨rfl, hr.fileDeleted hr₁ hmk hrm hb ht hv, staysDeleted hr₁ hub h⟩ ?_
          exact ⟨iff_of_true hv hlast, fun hne => absurd hlast hne⟩
        · rw [if_neg hlast]
          exact iff_of_false (fun hx => Bool.noConfusion hx.1) fun hx => hlast (hx.1.mp hv)
      · have hrefused : Wp (fs.remove name) (fun b s₁ => b = false ∧
            Rep s₁ (v.setVisits (p ++ [i]) n hb.node (n.numVisits - 1)) ∧ Steady s s₁) s :=
          wp_remove_refused hr hb ht hv fun s₁ hr₁ hst₁ => ⟨rfl, hr₁, hst₁⟩
        obtain ⟨b, s₁, ⟨rfl, hr₁, hst₁⟩, hwp⟩ := Wp.exists_iff hrefused
        rw [Obeys, hwp, Agrees]
        by_cases hlast : r + 1 = max 1 o
        · rw [if_pos hlast]
          exact iff_of_false (fun hx => Bool.noConfusion hx.1) fun hx => hv (hx.1.mpr hlast)
        · rw [if_neg hlast, and_iff_right rfl, and_iff_right (hr.sameFiles hb.node hr₁),
            and_iff_right (iff_of_false hv hlast), imp_iff_right hlast]
          exact ih hr₁ (hmk.replace _ rfl) (hst₁.openOn hfs) (hb.replace _) ht

structure NewFile (fs : FileSystem) (name : CString) (s₀ s : Kernel) (v : Volume) (p : Place)
    (i : Nat) (n : FileNode) : Prop where
  rep : Rep s v
  marks : v.Marks ∅
  mapFile : s.OpenOn fs.freeMapFile 0
  binds : v.Binds name p i n
  plain : n.fileType = 0
  visits : ∃ t, n.numVisits = s₀.host t 29

theorem newFile_of_create {size : Int} (hs : Sound fs s) (hc : CreateMeets s name size 0)
    (hrun : (fs.create name size 0).run Kernel.exec s = .done true s') :
    ∃ v p i n, NewFile fs name s s' v p i n := by
  obtain ⟨v, hr, hmk, hfs⟩ := hs
  obtain ⟨p, hcan⟩ := canCreate_of_meets hr hc
  have hnew : Wp (fs.create name size 0)
      (fun b s' => b = true → ∃ v p i n, NewFile fs name s s' v p i n) s := by
    refine wp_create hr hmk hfs hcan (fun s' v' _ _ _ _ hb => by cases hb) ?_
    intro s' v' i n hr' hk hcr hmk' ht hv _ _ _
    exact ⟨v', p, i, n, hr', hmk', hk.openOn hfs, hcr.binds hcan.parent, ht, hv⟩
  exact wp_run hnew hrun rfl

/-- The visit count of a new file is the word that the memory of its header held. A history goes
as it should just if this is the value that its first call needs, or if it ends too early to show
the difference. -/
theorem visits_obeyed_iff {s₀ : Kernel} {size : Int} (hs : Sound fs s₀)
    (hc : CreateMeets s₀ name size 0)
    (hrun : (fs.create name size 0).run Kernel.exec s₀ = .done true s) :
    ∃ k t, boundTo s name = some k ∧ (hdrAt s.disk k).numVisits = s₀.host t 29 ∧
      ∀ h : List Visit, opens h < 2 ^ 32 →
        (Obeys fs name k 0 0 h s ↔
          s₀.host t 29 = wantedVisits h ∨ Undecided (s₀.host t 29) 0 0 h) := by
  obtain ⟨v, p, i, n, hn⟩ := newFile_of_create hs hc hrun
  obtain ⟨t, ht⟩ := hn.visits
  have hon := hn.rep.on _ n hn.binds.node
  refine ⟨n.hdr, t, hn.rep.boundTo_of_binds hn.binds, ?_, fun h ho => ?_⟩
  · rw [hon.numVisits, ht]
  · rw [obeys_iff hn.rep hn.marks hn.mapFile hn.binds hn.plain, ← ht]
    exact agrees_iff ho

theorem exists_newFile : ∃ fs s₀ s, NewDisk fs s₀ ∧
    (fs.create ['a'] 0 0).run Kernel.exec s₀ = .done true s := by
  have h := wp_formatCreate ['a'] 0 Kernel.quiet_zeroed (by decide) (by decide) (by decide)
    (by decide) (Q := fun r _ => r.2 = true) fun _ _ _ _ _ _ => rfl
  simp only [wp_then, wp_pure] at h
  obtain ⟨fs, s₀, -, ⟨b, s, hrun, rfl⟩, hn⟩ := wp_and h wp_format_newDisk
  exact ⟨fs, s₀, s, hn, hrun⟩

/-- Where the memory held zeros, two visitors of a new file have to leave before it is deleted. -/
theorem visits_obeyed_iff_twoVisitors : ∃ fs s₀ s k, Sound fs s₀ ∧ CreateMeets s₀ ['a'] 0 0 ∧
    (fs.create ['a'] 0 0).run Kernel.exec s₀ = .done true s ∧ boundTo s ['a'] = some k ∧
    Obeys fs ['a'] k 0 0 [.open, .open, .remove, .remove, .remove] s := by
  obtain ⟨fs, s₀, s, hn, hrun⟩ := exists_newFile
  have hc : CreateMeets s₀ ['a'] 0 0 := hn.createMeets (by decide)
  obtain ⟨k, t, hk, -, h⟩ := visits_obeyed_iff hn.sound hc hrun
  refine ⟨fs, s₀, s, k, hn.sound, hc, hrun, hk, (h _ (by decide)).mpr (.inl ?_)⟩
  rw [hn.host]
  rfl

/-- A new file that nobody has opened is not removed. -/
theorem remove_unopened_refused :
    Wp (do
      let fs ← format
      let created ← create fs ['a'] 0 0
      let removed ← remove fs ['a']
      return (created, removed))
      (fun r s => r = (true, false) ∧ (boundTo s ['a']).isSome) Kernel.zeroed := by
  have h := wp_formatCreate ['a'] 0 Kernel.quiet_zeroed (by decide) (by decide) (by decide)
    (by decide) (Q := fun r s => r.2 = true ∧
      Wp (remove r.1 ['a']) (fun b s => b = false ∧ (boundTo s ['a']).isSome) s) ?_
  · simp only [wp_then, wp_pure] at h ⊢
    refine wp_mono h fun fs s₀ h => wp_mono h fun b s h => ?_
    obtain ⟨rfl, h⟩ := h
    exact wp_mono h fun b s h => ⟨by rw [h.1], h.2⟩
  · intro s' fs v i n hf
    obtain ⟨t, ht⟩ := hf.numVisits
    have hv : n.numVisits ≠ 1 := by
      rw [ht]
      change (0 : Word) ≠ 1
      decide
    refine ⟨rfl, wp_remove_refused hf.rep hf.binds hf.fileType hv fun s₁ hr₁ _ => ⟨rfl, ?_⟩⟩
    rw [hr₁.boundTo_of_binds (hf.binds.replace _), Option.isSome_some]

end calls
end Nachos
