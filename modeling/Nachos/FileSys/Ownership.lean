import Nachos.FileSys.Layout
import Nachos.FileSys.FormatSpec
import Nachos.FileSys.WriteSpec
import Nachos.FileSys.RemoveTree

/-! Sector ownership over whole histories of calls: the free map on the disk marks the sectors
in use, and no sector is in use twice. -/

namespace Nachos
open Lib Program FileSystem

/-! ## Ownership as the disk describes it -/

def Used (d : Nat → Sector) (x : Nat) : Prop :=
  x ∈ fileSectors d 0 ∨ ∃ p h, headerAt d p = some h ∧ x ∈ fileSectors d h

structure Ownership (d : Nat → Sector) : Prop where
  marked : ∀ x, x < 1024 ∧ (freeMapOn d).testBit x = true ↔ Used d x
  onceMap : (fileSectors d 0).Nodup
  once : ∀ p h, headerAt d p = some h → (fileSectors d h).Nodup
  apartMap : ∀ p h, headerAt d p = some h → ∀ x ∈ fileSectors d 0, x ∉ fileSectors d h
  apart : ∀ p q h k, p ≠ q → headerAt d p = some h → headerAt d q = some k →
    ∀ x ∈ fileSectors d h, x ∉ fileSectors d k

namespace Rep
variable {s : Kernel} {v : Volume}

theorem fileSectors_map (hr : Rep s v) : fileSectors s.disk 0 = v.mapFile.sectors := by
  rw [← hr.map.fileSectors, v.isMap.hdr]

theorem node_of_headerAt (hr : Rep s v) {p : Place} {h : Nat}
    (hp : Nachos.headerAt s.disk p = some h) :
    ∃ n, v.node p = some n ∧ n.hdr = h ∧ fileSectors s.disk h = n.sectors := by
  rw [hr.headerAt] at hp
  obtain ⟨n, hn, rfl⟩ := Option.map_eq_some_iff.mp hp
  exact ⟨n, hn, rfl, (hr.on p n hn).fileSectors⟩

theorem used_iff (hr : Rep s v) (x : Nat) : Used s.disk x ↔ v.Owned x := by
  rw [Used, hr.fileSectors_map]
  refine or_congr Iff.rfl ⟨?_, ?_⟩
  · rintro ⟨p, h, hp, hx⟩
    obtain ⟨n, hn, -, hs⟩ := hr.node_of_headerAt hp
    exact ⟨p, n, hn, hs ▸ hx⟩
  · rintro ⟨p, n, hn, hx⟩
    refine ⟨p, n.hdr, ?_, ?_⟩
    · rw [hr.headerAt, hn, Option.map_some]
    · rwa [(hr.on p n hn).fileSectors]

theorem ownership_iff (hr : Rep s v) : Ownership s.disk ↔ v.Marks ∅ := by
  have hused : (∀ x, x < 1024 ∧ (Nachos.freeMapOn s.disk).testBit x = true ↔ Used s.disk x) ↔
      ∀ x, x < 1024 ∧ v.map.testBit x = true ↔ v.Owned x ∨ x ∈ (∅ : Set Nat) :=
    forall_congr' fun x => by
      rw [hr.freeMapOn, hr.used_iff, or_iff_left (Set.notMem_empty x)]
  constructor
  · intro h
    exact ⟨hused.mp h.marked, fun x hx => absurd hx (Set.notMem_empty x)⟩
  · intro h
    refine ⟨hused.mpr h.used, ?_, fun p k hp => ?_, fun p k hp x hx => ?_,
      fun p q k k' hpq hp hq x hx => ?_⟩
    · rw [hr.fileSectors_map]
      exact v.mapFile.nodup
    · obtain ⟨n, -, -, hs⟩ := hr.node_of_headerAt hp
      exact hs ▸ n.nodup
    · obtain ⟨n, hn, -, hs⟩ := hr.node_of_headerAt hp
      rw [hr.fileSectors_map] at hx
      exact hs ▸ v.mapApart p n hn x hx
    · obtain ⟨n, hn, -, hs⟩ := hr.node_of_headerAt hp
      obtain ⟨n', hn', -, hs'⟩ := hr.node_of_headerAt hq
      rw [hs] at hx
      exact hs' ▸ v.apart p q n n' hn hn' hpq x hx

end Rep

/-! ## Histories of calls -/

inductive Call where
  | create (name : CString) (initialSize fileType : Int)
  | open (name : CString)
  | remove (name : CString)
  | writeAt (f : Handle) (src : List Byte) (position : Int)
  | write (f : Handle) (src : List Byte)

def Call.prog (fs : FileSystem) : Call → Prog Unit
  | create name initialSize fileType => do let _ ← fs.create name initialSize fileType
  | «open» name => do let _ ← FileSystem.open name
  | remove name => do let _ ← fs.remove name
  | writeAt f src position => do let _ ← OpenFile.writeAt f src position
  | write f src => do let _ ← OpenFile.write f src

/-- The text by which the nested calls of `Remove` name what is at the place `q` below `h`. -/
def pathBelow (s : Kernel) (name : CString) (h : Nat) : Place → CString
  | [] => name
  | i :: q =>
    match (entriesOf (fileBytes s.disk h))[i]? with
    | some e => pathBelow s (name ++ '/' :: s.names.getD (e.name.toNat - 1) []) e.sector.toNat q
    | none => name

/-- A `Create` whose directory exists, which asks for a file or for a directory of at least one
sector, and for which the sectors suffice, index tables included, if the data sectors do. -/
def CreateMeets (s : Kernel) (name : CString) (size type : Int) : Prop :=
  DirsOnly s 1 (dirComps (components name)) ∧ (walkDirs s 1 (dirComps (components name))).isSome ∧
  (type = 0 ∨ type = 1 ∧ 1 ≤ size) ∧ (-2147483648 ≤ size ∧ size < 2147483648) ∧
  s.names.length + 1 < 2 ^ 32 ∧
  (divRoundUp size 128 < (freeMapOn s.disk).numClear →
    (divRoundUp size 128).toNat + tablesFor (divRoundUp size 128).toNat <
      (freeMapOn s.disk).numClear ∧
      tablesFor (divRoundUp size 128).toNat ≤ 25)

/-- A `Remove` of a directory that has nothing in it or is named with a slash, in which no file
refuses deletion and no path is too long. -/
def RemoveMeets (s : Kernel) (name : CString) (h : Nat) : Prop :=
  (2 ≤ (components name).length ∨ ∀ i, headerBelow s.disk h [i] = none) ∧
  (∀ q k, headerBelow s.disk h q = some k → (hdrAt s.disk k).fileType = 0 →
    (hdrAt s.disk k).numVisits = 1) ∧
  ∀ q k, q ≠ [] → headerBelow s.disk h q = some k → (pathBelow s name h q).length < 100

/-- A write to a plain file that takes no new sector: it ends inside the file's last sector, or
too few sectors are free. -/
def WriteMeets (s : Kernel) (f : Handle) (src : List Byte) (position : Int) : Prop :=
  ∃ p h, headerAt s.disk p = some h ∧ (hdrAt s.disk h).fileType = 0 ∧ s.OpenOn f h ∧ 0 ≤ position ∧
    (src.length = 0 ∨ position + src.length ≤ 128 * (hdrAt s.disk h).numSectors.toInt ∨
      position + src.length < 2147483648 ∧ 0 ≤ (hdrAt s.disk h).fileLength ∧
        (freeMapOn s.disk).numClear < divRoundUp
          (position + src.length - (hdrAt s.disk h).fileLength) 128)

def Call.Meets (s : Kernel) : Call → Prop
  | create name initialSize fileType => CreateMeets s name initialSize fileType
  | «open» name => DirsOnly s 1 (dirComps (components name))
  | remove name => DirsOnly s 1 (dirComps (components name)) ∧
      ∀ h, boundTo s name = some h → (hdrAt s.disk h).fileType = 1 → RemoveMeets s name h
  | writeAt f src position => WriteMeets s f src position
  | write f src => WriteMeets s f src (s.files f).seekPosition

/-- The states that a history of calls reaches, each of which meets its condition, after
`FileSystem(TRUE)` in `s₀`. -/
inductive Reaches (s₀ : Kernel) (fs : FileSystem) : Kernel → Prop
  | format {s : Kernel} (h : FileSystem.format.run Kernel.exec s₀ = .done fs s) : Reaches s₀ fs s
  | call {s s' : Kernel} (h : Reaches s₀ fs s) (c : Call) (hc : c.Meets s)
      (hrun : (c.prog fs).run Kernel.exec s = .done () s') : Reaches s₀ fs s'

/-! ## One call -/

/-- The state is one between calls, with a tree whose sectors the map marks. -/
def Sound (fs : FileSystem) (s : Kernel) : Prop :=
    ∃ v, Rep s v ∧ v.Marks ∅ ∧ s.OpenOn fs.freeMapFile 0

section step
variable {s : Kernel} {fs : FileSystem} {v : Volume}

theorem canCreate_of_meets {name : CString} {size type : Int} (hr : Rep s v)
    (h : CreateMeets s name size type) : ∃ p, v.CanCreate p name size type := by
  obtain ⟨hdirs, hwalk, hkind, hrange, hheap, hspace⟩ := h
  obtain ⟨r, hroot, hr1, hrt⟩ := v.root
  have hthru := (hr.boundTo hdirs).1
  rw [← hr1, hr.walkDirs hroot hrt hthru, Option.isSome_iff_exists] at hwalk
  obtain ⟨_, hwalk⟩ := hwalk
  obtain ⟨p, hp, -⟩ := Option.bind_eq_some_iff.mp hwalk
  rw [hr.freeMapOn] at hspace
  rw [hr.names] at hheap
  exact ⟨p, hthru, hp, hkind, hrange, hheap, hspace⟩

theorem sound_create {name : CString} {size type : Int} (hr : Rep s v) (hmk : v.Marks ∅)
    (hfs : s.OpenOn fs.freeMapFile 0) (h : CreateMeets s name size type) :
    Wp (create fs name size type) (fun _ => Sound fs) s := by
  obtain ⟨p, hcan⟩ := canCreate_of_meets hr h
  refine wp_create hr hmk hfs hcan (fun s' v' hr' hk hv' _ => ⟨v', hr', ?_, hk.openOn hfs⟩)
    fun s' v' i nf hr' hk _ hmk' _ _ _ _ => ⟨v', hr', hmk', hk.openOn hfs⟩
  rcases hv' with rfl | rfl
  · exact hmk
  · exact ⟨hmk.used, hmk.lost⟩

theorem sound_open {name : CString} (hr : Rep s v) (hmk : v.Marks ∅)
    (hfs : s.OpenOn fs.freeMapFile 0)
    (hdirs : DirsOnly s 1 (dirComps (components name))) :
    Wp («open» name) (fun _ => Sound fs) s := by
  cases hb : boundTo s name with
  | none =>
    exact wp_open_unbound hr (hr.boundTo hdirs).1 (fun p hp => hr.unbound_of_boundTo hdirs hb hp)
      fun s' q d f hr' hst _ => ⟨v, hr', hmk, hst.openOn hfs⟩
  | some h =>
    obtain ⟨p, i, n, hbind, -⟩ := hr.binds_of_boundTo hdirs hb
    exact wp_open_bound hr hbind fun s' f hr' hst _ _ _ _ =>
      ⟨_, hr', hmk.replace _ rfl, hst.openOn hfs⟩

theorem sound_writeAt {f : Handle} {src : List Byte} {position : Int} (hr : Rep s v)
    (hmk : v.Marks ∅)
    (hfs : s.OpenOn fs.freeMapFile 0) (h : WriteMeets s f src position) :
    Wp (OpenFile.writeAt f src position) (fun _ => Sound fs) s := by
  obtain ⟨p, k, hp, htype, ho, hpos, hfit⟩ := h
  obtain ⟨n, hn, rfl, -⟩ := hr.node_of_headerAt hp
  have hon := hr.on p n hn
  rw [hon.fileType] at htype
  rw [FileHeader.fileLength, hon.length, hon.numSectors, hr.freeMapOn] at hfit
  obtain ⟨pos, rfl⟩ := Int.eq_ofNat_of_zero_le hpos
  refine hr.wp_writeAt_fits hmk hn htype ho ?_ fun r s' v' hr' hmk' hst =>
    ⟨v', hr', hmk', hst.openOn hfs⟩
  rcases hfit with h | h | ⟨h₁, h₂, h₃⟩
  · exact .inl h
  · exact .inr (.inl (by push_cast; exact h))
  · exact .inr (.inr ⟨by omega, h₂, by push_cast; exact h₃⟩)

theorem Rep.pathBelow {name : CString} {p q : Place} {n m : FileNode} (hr : Rep s v)
    (hn : v.node p = some n)
    (hm : v.node (p ++ q) = some m) : pathBelow s name n.hdr q = v.text name p q := by
  induction q generalizing name p n with
  | nil => rfl
  | cons i q ih =>
    have hassoc : p ++ i :: q = p ++ [i] ++ q := by simp
    rw [hassoc] at hm
    obtain ⟨k, hk⟩ : ∃ k, v.node (p ++ [i]) = some k := by
      cases hk : v.node (p ++ [i]) with
      | none =>
        rw [Volume.node_below_none hk (List.prefix_append ..)] at hm
        cases hm
      | some k => exact ⟨k, rfl⟩
    obtain ⟨hlt, d, hd, ht⟩ := v.parent p i k hk
    obtain rfl : n = d := Option.some.inj (hn.symm.trans hd)
    rw [← Volume.length_entries hn ht] at hlt
    have he := List.getElem?_eq_getElem hlt
    have hdesc := v.entry p n hn ht i _ he
    rw [hk] at hdesc
    obtain ⟨-, hsec, -, hname⟩ := hdesc
    rw [Nachos.pathBelow, (hr.on p n hn).fileBytes, he]
    simp only [hsec, hr.names, List.getD, hname, Option.getD_some, toNat_ofNat_sector k.hdr_lt]
    rw [Volume.text]
    exact ih hk hm

theorem Rep.removeMeets_iff {name : CString} {r : Place} {n : FileNode} (hr : Rep s v)
    (hn : v.node r = some n) : RemoveMeets s name n.hdr ↔
      (2 ≤ (components name).length ∨ ∀ j, v.node (r ++ [j]) = none) ∧ v.stays r = ∅ ∧
        v.Short name r := by
  have hbelow := hr.headerBelow hn
  refine and_congr (or_congr Iff.rfl (forall_congr' fun j => ?_)) (and_congr ⟨?_, ?_⟩ ⟨?_, ?_⟩)
  · rw [hbelow, Option.map_eq_none_iff]
  · intro hvisits
    refine Set.eq_empty_iff_forall_notMem.mpr fun x hx => ?_
    obtain ⟨_, m, ⟨q, rfl⟩, hm, hrf, -⟩ := hx
    have hmon := hr.on _ m hm
    have hm' := hvisits q m.hdr (by rw [hbelow, hm, Option.map_some])
      (hmon.fileType.trans hrf.1)
    exact hrf.2 (hmon.numVisits.symm.trans hm')
  · intro hstays q k hk htype
    rw [hbelow] at hk
    obtain ⟨m, hm, rfl⟩ := Option.map_eq_some_iff.mp hk
    have hmon := hr.on _ m hm
    rw [hmon.fileType] at htype
    rw [hmon.numVisits]
    by_contra hv
    have hx : m.hdr ∈ v.stays r :=
      ⟨_, m, List.prefix_append .., hm, ⟨htype, hv⟩, List.mem_cons_self ..⟩
    rw [hstays] at hx
    exact hx
  · intro hshort js m hjs hm
    rw [← hr.pathBelow hn hm]
    exact hshort js m.hdr hjs (by rw [hbelow, hm, Option.map_some])
  · intro hshort q k hq hk
    rw [hbelow] at hk
    obtain ⟨m, hm, rfl⟩ := Option.map_eq_some_iff.mp hk
    rw [hr.pathBelow hn hm]
    exact hshort q m hq hm

theorem sound_remove {name : CString} (hr : Rep s v) (hmk : v.Marks ∅)
    (hfs : s.OpenOn fs.freeMapFile 0)
    (hdirs : DirsOnly s 1 (dirComps (components name)))
    (h : ∀ h, boundTo s name = some h → (hdrAt s.disk h).fileType = 1 → RemoveMeets s name h) :
    Wp (remove fs name) (fun _ => Sound fs) s := by
  cases hb : boundTo s name with
  | none =>
    exact wp_remove_unbound hr (hr.boundTo hdirs).1 (fun p hp => hr.unbound_of_boundTo hdirs hb hp)
      fun s' hr' hst => ⟨v, hr', hmk, hst.openOn hfs⟩
  | some k =>
    obtain ⟨p, i, n, hbind, rfl⟩ := hr.binds_of_boundTo hdirs hb
    have hon := hr.on _ n hbind.node
    rcases v.kind _ n hbind.node with ht | ht
    · exact wp_remove_plain hr hmk hfs hbind ht fun s' v' hr' hst hrm =>
        ⟨v', hr', hrm.marks, hst.openOn hfs⟩
    · obtain ⟨hslash, hstays, hshort⟩ :=
        (hr.removeMeets_iff hbind.node).mp (h n.hdr hb (hon.fileType.trans ht))
      refine wp_removeFuel hr hmk hfs hbind hshort hslash ⟨by omega, by omega⟩
        fun s' v' lost' hr' hst hrm => ?_
      have hlost := hrm.lost
      rw [hstays, Set.union_empty, Set.union_empty_iff] at hlost
      exact ⟨v', hr', hlost.1 ▸ hrm.marks, hst.openOn hfs⟩

/-- A call that meets its condition completes, and keeps the map in step with the tree. -/
theorem sound_call (h : Sound fs s) (c : Call) (hc : c.Meets s) : Wp (c.prog fs)
    (fun _ => Sound fs) s := by
  obtain ⟨v, hr, hmk, hfs⟩ := h
  cases c with
  | create name size type =>
    rw [Call.prog, wp_then]
    exact (sound_create hr hmk hfs hc).mono fun _ _ h => wp_pure.mpr h
  | «open» name =>
    rw [Call.prog, wp_then]
    exact (sound_open hr hmk hfs hc).mono fun _ _ h => wp_pure.mpr h
  | remove name =>
    rw [Call.prog, wp_then]
    exact (sound_remove hr hmk hfs hc.1 hc.2).mono fun _ _ h => wp_pure.mpr h
  | writeAt f src position =>
    rw [Call.prog, wp_then]
    exact (sound_writeAt hr hmk hfs hc).mono fun _ _ h => wp_pure.mpr h
  | write f src =>
    simp only [Call.prog, OpenFile.write, OpenFile.advance, wp_then, wp_getFile,
      wp_setFile, wp_pure]
    refine (sound_writeAt hr hmk hfs hc).mono fun r s' hs => ?_
    obtain ⟨v', hr', hmk', hfs'⟩ := hs
    refine ⟨v', hr'.setFile .., hmk', hfs'.1, ?_⟩
    by_cases hf : fs.freeMapFile = f
    · subst hf
      simpa using hfs'.2
    · simpa [Function.update_of_ne hf] using hfs'.2

end step

theorem sound_of_reaches {s₀ s : Kernel} {fs : FileSystem} (hq : s₀.Quiet) (h : Reaches s₀ fs s) :
    Sound fs s := by
  induction h with
  | format h =>
    exact wp_run (wp_format hq (Q := Sound) fun fs s' v hr _ hmk _ _ ho _ => ⟨v, hr, hmk, ho⟩) h
  | call h c hc hrun ih => exact wp_run (Q := fun _ => Sound fs) (sound_call ih c hc) hrun

structure NewDisk (fs : FileSystem) (s : Kernel) : Prop where
  sound : Sound fs s
  numClear : (freeMapOn s.disk).numClear = 1018
  names : s.names = []
  host : s.host = Kernel.zeroed.host

theorem wp_format_newDisk : Wp format NewDisk Kernel.zeroed := by
  refine wp_format Kernel.quiet_zeroed fun fs s v hr hst hmk _ hfree ho _ => ?_
  refine ⟨⟨v, hr, hmk, ho⟩, ?_, hst.names, hst.host⟩
  rw [hr.freeMapOn, BitMap.numClear_eq, hfree, List.length_drop, List.length_range]

theorem NewDisk.createMeets {fs : FileSystem} {s : Kernel} (h : NewDisk fs s) {size : Int}
    (hsize : 0 ≤ size ∧ size ≤ 102400) : CreateMeets s ['a'] size 0 := by
  have hsec : 0 ≤ divRoundUp size 128 ∧ divRoundUp size 128 ≤ 800 := by
    rw [divRoundUp_of_nonneg hsize.1]
    split <;> omega
  refine ⟨trivial, rfl, .inl rfl, by omega, by rw [h.names]; decide, fun _ => ?_⟩
  rw [h.numClear, tablesFor]
  omega

/-- In every history of calls that meet their conditions the disk keeps sector ownership, and
the next such call completes. -/
theorem reaches_ownership {s₀ s : Kernel} {fs : FileSystem} (hq : s₀.Quiet) (h : Reaches s₀ fs s) :
    Ownership s.disk ∧
      ∀ c : Call, c.Meets s → ∃ s', (c.prog fs).run Kernel.exec s = .done () s' := by
  have hs := sound_of_reaches hq h
  refine ⟨?_, fun c hc => ?_⟩
  · obtain ⟨v, hr, hmk, -⟩ := hs
    exact hr.ownership_iff.mpr hmk
  · obtain ⟨_, s', hrun, -⟩ := sound_call hs c hc
    exact ⟨s', hrun⟩

/-- A new disk, and a file that is created on it. -/
theorem reaches_ownership_create : ∃ fs s s', Reaches Kernel.zeroed fs s ∧
    (Call.create ['a'] 300 0).Meets s ∧
    ((Call.create ['a'] 300 0).prog fs).run Kernel.exec s = .done () s' ∧ Ownership s'.disk := by
  obtain ⟨fs, s, hrun, hn⟩ := wp_format_newDisk
  have hreach : Reaches Kernel.zeroed fs s := .format hrun
  have hmeets : (Call.create ['a'] 300 0).Meets s := hn.createMeets (by decide)
  obtain ⟨s', hrun'⟩ := (reaches_ownership Kernel.quiet_zeroed hreach).2 _ hmeets
  exact ⟨fs, s, s', hreach, hmeets, hrun',
    (reaches_ownership Kernel.quiet_zeroed (.call hreach _ hmeets hrun')).1⟩

theorem not_ownership_of_grown {s : Kernel} {v : Volume} {p : Place} {n n' : FileNode}
    {L rest : List Nat}
    (h : v.Replaces p n n') (hr : Rep s (v.replace p n n' h))
    (hs : n'.sectors.Perm (n.sectors ++ L))
    (hf : v.map.free = L ++ rest) (hL : L ≠ []) : ¬ Ownership s.disk := by
  rw [hr.ownership_iff]
  intro hmk
  obtain ⟨x, hx⟩ := List.exists_mem_of_ne_nil L hL
  have hown : (v.replace p n n' h).Owned x :=
    .inr ⟨p, n', Function.update_self .., hs.symm.subset (List.mem_append_right _ hx)⟩
  have hset := ((hmk.used x).mpr (.inl hown)).2
  have hfree : x ∈ v.map.free := hf ▸ List.mem_append_left _ hx
  rw [show (v.replace p n n' h).map = v.map from rfl, (BitMap.mem_free.mp hfree).2] at hset
  cases hset

/-- One byte written to an empty file. -/
theorem not_ownership_write : Wp (do
    let fs ← FileSystem.format
    let ok ← fs.create ['a'] 0 0
    let f ← FileSystem.open ['a']
    let written ← OpenFile.write f [7]
    return (ok, written)) (fun r s => r = (true, 1) ∧ ¬ Ownership s.disk) Kernel.zeroed := by
  have h := wp_formatCreate ['a'] 0 Kernel.quiet_zeroed (by decide) (by decide) (by decide)
    (by decide) (Q := fun r => Wp (do
      let f ← FileSystem.open ['a']
      let written ← OpenFile.write f [7]
      return (r.2, written)) fun r s => r = (true, 1) ∧ ¬ Ownership s.disk)
        fun s₁ fs v i n hfile => ?_
  · simp only [wp_then, wp_pure] at h ⊢
    exact h
  · rw [wp_then]
    refine wp_open_bound hfile.rep hfile.binds fun s₂ f hr₂ hst₂ ho _ hseek _ => ?_
    simp only [OpenFile.write, OpenFile.advance, wp_then, wp_getFile, wp_setFile, wp_pure, hseek]
    have hnum : n.numSectors = 0 := hfile.numSectors
    have hdata : n.data = [] := List.length_eq_zero_iff.mp (by rw [n.count, hnum]; rfl)
    have hindex : n.index = [] := List.length_eq_zero_iff.mp (by rw [n.tables, hdata]; rfl)
    have hsec : n.sectors = [n.hdr] := by rw [FileNode.sectors, hdata, hindex]; rfl
    have hfree := hfile.free
    rw [hsec, List.length_singleton] at hfree
    have hL : (v.map.free.take 2).length = 1 + (tablesFor (n.data.length + 1) -
      n.index.length) := by
      rw [List.length_take, hdata, hindex, tablesFor]
      simp only [List.length_nil]
      omega
    have hne : v.map.free.take 2 ≠ [] := fun h0 => by
      rw [h0, List.length_nil] at hL
      omega
    have hnum' : n.numSectors = n.data.length := by rw [hnum, hdata]; rfl
    have hlen : 128 * n.data.length < 0 + [(7 : Byte)].length := by rw [hdata]; decide
    have h25 : tablesFor (n.data.length + 1) ≤ 25 := by rw [hdata]; decide
    have hextra : ((1 : Nat) : Int) = divRoundUp ((0 + [7].length : Nat) - n.length) 128 := by
      rw [hfile.length]
      rfl
    refine hr₂.wp_writeAt_alloc (p := [] ++ [i]) (n := n.withVisits (n.numVisits + 1))
      (hfile.marks.replace _ rfl) (Function.update_self ..) hfile.fileType ho hfile.length.ge
      hnum' hlen (by decide) (by decide) hextra h25 (List.take_append_drop 2 _).symm hL
      fun s₃ n' hrep hr₃ hst₃ htook _ _ _ _ => ⟨rfl, ?_⟩
    exact not_ownership_of_grown hrep (hr₃.setFile f _) htook.sectors
      (List.take_append_drop 2 _).symm hne

end Nachos
