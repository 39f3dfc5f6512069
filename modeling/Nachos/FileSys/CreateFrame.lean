import Nachos.FileSys.Layout
import Nachos.FileSys.Refusal

/-! What `Create` of a plain file leaves unchanged. The free map may run out while the index tables
are filled, so that the new file is not well formed. The tree is then followed on the disk with an
empty file in place of the new one. -/

namespace Nachos
open Lib Program FileSystem FileHeader

variable {s s' : Kernel} {v : Volume} {p : Place} {n nf : FileNode} {f : Handle} {m m' : BitMap}

theorem allocateTables_frame {count i : Nat} {temp : Int} {hdr : FileHeader}
    {Q : FileHeader × BitMap → Kernel → Prop} (hm : m.numBits = 1024)
    (h : Wp (allocateTables hdr m temp i count) Q s) :
    Wp (allocateTables hdr m temp i count) (fun r s' => Q r s' ∧ r.2.numBits = 1024 ∧
      Steady s s' ∧ ∀ x ∉ m.free, s'.disk x = s.disk x) s := by
  induction count generalizing s m i temp hdr Q with
  | zero => exact wp_pure.mpr ⟨wp_pure.mp h, hm, .refl s, fun _ _ => rfl⟩
  | succ count ih =>
    rw [allocateTables] at h ⊢
    cases hf : m.free with
    | nil =>
      -- no sector for the table
      simp only [BitMap.find_of_free_nil hf, wp_then, wp_freshMemory] at h
      obtain ⟨_, _, -, h⟩ := h
      exact absurd h (not_wp_writeSector (by decide))
    | cons t rest =>
      have htl : t < 1024 := hm ▸ (BitMap.mem_free.mp (hf ▸ List.mem_cons_self ..)).1
      simp only [BitMap.find_of_free_cons hf, wp_then] at h ⊢
      by_cases hi : i < 25
      · obtain ⟨hfree, hbits⟩ := free_fillTable (s.host s.tick) (m.markBit t) 0
          (min temp 32).toNat
        rw [BitMap.free_markBit hf] at hfree
        simp only [wp_assert (decide_eq_true hi), wp_freshMemory, wp_writeSector htl] at h ⊢
        refine (ih (hbits.trans hm) h).mono ?_
        rintro r s' ⟨hQ, hb, hst, hd⟩
        refine ⟨hQ, hb, ((Steady.tick s _).trans (.setDisk ..)).trans hst, fun x hx => ?_⟩
        obtain ⟨hxt, hxr⟩ := List.ne_and_not_mem_of_not_mem_cons hx
        rw [hd x (hfree ▸ fun hm => hxr (List.mem_of_mem_drop hm))]
        exact Function.update_of_ne hxt _ _
      · exact absurd h (not_wp_assert (decide_eq_false hi))

/-! ## The tree with an empty file in place of the new one -/

theorem Steady.setDisk_both (h : Steady s s') (x : Nat) (b : Sector) :
    Steady (s.setDisk x b) (s'.setDisk x b) :=
  ⟨⟨h.mutex, h.arrayMutex, h.host, h.nextFile, h.sector, h.seek⟩, h.names⟩

theorem FileNode.On.setDisk {x : Nat} (h : n.On s.disk) (hx : x ∉ n.sectors) (b : Sector) :
    n.On (s.setDisk x b).disk := by
  refine h.frame fun y hy => ?_
  have hyx : y ≠ x := by
    rintro rfl
    exact hx hy
  exact Function.update_of_ne hyx _ _

theorem setDisk_congr {x : Nat} {b : Sector} {xs : List Nat}
    (h : ∀ y ∉ xs, s'.disk y = s.disk y) :
    ∀ y ∉ xs, (s'.setDisk x b).disk y = (s.setDisk x b).disk y := by
  intro y hy
  by_cases hyx : y = x
  · rw [hyx, Kernel.setDisk_disk, Kernel.setDisk_disk, Function.update_self, Function.update_self]
  · rw [Kernel.setDisk_disk, Kernel.setDisk_disk, Function.update_of_ne hyx,
      Function.update_of_ne hyx]
    exact h y hy

section install
variable {i a : Nat} {c : CString} {d : FileNode} {e : DirectoryEntry} {fs : FileSystem}
  {b : Sector}

theorem wp_installPlain (hdr : FileHeader) (hr : Rep s v) (h : v.Slot p i c a d e)
    (hap : v.Apart nf) (hft : nf.fileType = 0) (hnf : nf.On (s.setDisk nf.hdr b).disk)
    (ho : s.OpenOn f d.hdr)
    (hfs : s.OpenOn fs.freeMapFile 0) (hm : m'.numBits = 1024) :
    Wp (install fs hdr nf.hdr 0 (addedTable d i a e nf.hdr) f m') (fun _ s' =>
      ∃ hi : v.Inserts p i c a d (h.dir' nf.hdr) nf, Steady s s' ∧
        Rep (s'.setDisk nf.hdr b)
          ((v.insert p i c a d (h.dir' nf.hdr) nf hi).storeMap m' hm)) s := by
  have hi : v.Inserts p i c a d (h.dir' nf.hdr) nf :=
    h.inserts hap (.inl hft) fun h1 => by rw [hft] at h1; cases h1
  have hxd : nf.hdr ∉ d.sectors := hap.node p d h.dir _ (List.mem_cons_self ..)
  have hxm : nf.hdr ∉ v.mapFile.sectors := fun hx => hap.map _ hx (List.mem_cons_self ..)
  have houtside : ∀ y, y ∉ nf.sectors → y ≠ nf.hdr := fun y hy e => hy (e ▸ List.mem_cons_self ..)
  rw [install, wp_then, FileHeader.writeBack, wp_writeSector nf.hdr_lt, wp_then, initDirectory,
    if_neg (by decide), wp_pure, wp_then]
  -- the header is on the disk
  have hst₁ : Steady s (s.setDisk nf.hdr hdr.toSector) := .setDisk ..
  have hr₁ : Rep (s.setDisk nf.hdr hdr.toSector) v := hr.frame hst₁ hap fun y hy =>
    Function.update_of_ne (houtside y hy) _ _
  have hsame : (s.setDisk nf.hdr hdr.toSector).setDisk nf.hdr b = s.setDisk nf.hdr b := by
    simp only [Kernel.setDisk, Function.update_idem]
  -- the table of the parent is written
  refine wp_writeDirectory hr₁.quiet (hr₁.on p d h.dir) (hst₁.openOn ho) h.room h.tableSize
    fun s₂ hst₂ hon₂ hd₂ => ?_
  have hr₁' : Rep (s.setDisk nf.hdr b) v := hr.frame (.setDisk ..) hap fun y hy =>
    Function.update_of_ne (houtside y hy) _ _
  have hr₂ : Rep (s₂.setDisk nf.hdr b) (v.insert p i c a d (h.dir' nf.hdr) nf hi) :=
    hr₁'.insert h (hsame ▸ hst₂.setDisk_both nf.hdr b) hi hnf (hon₂.setDisk hxd b)
      (hsame ▸ setDisk_congr hd₂)
  have hnode : (v.insert p i c a d (h.dir' nf.hdr) nf hi).node p = some (h.dir' nf.hdr) :=
    Volume.insertNode_dir
  rw [wp_then]
  refine wp_fetchDirectory (hst₂.quiet hr₁.quiet) hon₂ ((hst₁.trans hst₂).openOn ho)
    (v.long p d h.dir h.isDir) h.tableSize fun s₃ hs₃ => ?_
  have hst₃ := (hst₁.trans hst₂).trans hs₃.toSteady
  have hrd := Volume.readable hnode h.isDir
  rw [show (v.insert p i c a d (h.dir' nf.hdr) nf hi).names = s₃.names from
    (hst₃.names.trans hr.names).symm] at hrd
  rw [wp_then]
  refine (wp_list hrd).mpr ?_
  have hmap : v.mapFile.On s₃.disk := by
    rw [hs₃.disk]
    exact hr₁.map.frame fun x hx => hd₂ x fun hxd' =>
      v.mapApart p d h.dir x hx (List.mem_cons_of_mem _ (List.mem_append_right _ hxd'))
  have hl : m'.toBytes.length = 128 := by rw [BitMap.length_toBytes, BitMap.numWords, m'.size, hm]
  simp only [BitMap.writeBack, wp_then, wp_pure]
  -- and the free map
  refine wp_writeAt_inPlace (p := 0) (hst₃.quiet hr.quiet) hmap
    (v.isMap.hdr ▸ hst₃.openOn hfs) (by omega) (v.isMap.room hm) fun s₄ hst₄ hon₄ hd₄ => ?_
  have hr₃ : Rep (s₃.setDisk nf.hdr b) (v.insert p i c a d (h.dir' nf.hdr) nf hi) :=
    hr₂.steady (hs₃.toSteady.setDisk_both nf.hdr b) (by
      rw [Kernel.setDisk_disk, Kernel.setDisk_disk, hs₃.disk])
  exact ⟨hi, hst₃.trans hst₄, hr₃.storeMap (hst₄.setDisk_both nf.hdr b) hm
    (hon₄.setDisk hxm b) (setDisk_congr hd₄)⟩

end install

/-! ## Names after an insertion -/

/-- `v'` is `v` with the plain file `nf` under the name `c` in slot `i` of the directory at `p`, as
far as places and names go. -/
structure Volume.Gains (v v' : Volume) (p : Place) (i : Nat) (c : CString) (nf : FileNode) :
    Prop where
  free : v.node (p ++ [i]) = none
  unbound : v.child p c = none
  plain : nf.fileType = 0
  label : v'.label = Function.update v.label (p ++ [i]) c
  node : ∃ d d', v.node p = some d ∧ d'.hdr = d.hdr ∧ d'.fileType = d.fileType ∧
    v'.node = v.insertNode p i d' nf

namespace Volume.Gains
variable {v' : Volume} {i : Nat} {c c' : CString} {q : Place}

theorem ne (h : v.Gains v' p i c nf) (hn : v.node q = some n) : q ≠ p ++ [i] := by
  rintro rfl
  rw [h.free] at hn
  cases hn

theorem old (h : v.Gains v' p i c nf) (hn : v.node q = some n) :
    ∃ n', v'.node q = some n' ∧ n'.hdr = n.hdr ∧ n'.fileType = n.fileType := by
  obtain ⟨d, d', hd, hh, ht, hnode⟩ := h.node
  rw [hnode]
  by_cases hq : q = p
  · subst hq
    obtain rfl := Option.some.inj (hd.symm.trans hn)
    exact ⟨d', Volume.insertNode_dir, hh, ht⟩
  · exact ⟨n, (Volume.insertNode_other (h.ne hn) hq).trans hn, rfl, rfl⟩

theorem same (h : v.Gains v' p i c nf) (hn : v.node q = some n) (hq : q ≠ p) :
    v'.node q = some n := by
  obtain ⟨d, d', -, -, -, hnode⟩ := h.node
  rw [hnode, Volume.insertNode_other (h.ne hn) hq, hn]

theorem new (h : v.Gains v' p i c nf) : v'.node (p ++ [i]) = some nf := by
  obtain ⟨d, d', -, -, -, hnode⟩ := h.node
  rw [hnode, Volume.insertNode_new]

theorem isSome_iff (h : v.Gains v' p i c nf) (hq : q ≠ p ++ [i]) :
    (∃ n, v'.node q = some n) ↔ ∃ n, v.node q = some n := by
  obtain ⟨d, d', hd, -, -, hnode⟩ := h.node
  rw [hnode]
  by_cases hqp : q = p
  · subst hqp
    exact iff_of_true ⟨d', Volume.insertNode_dir⟩ ⟨d, hd⟩
  · rw [Volume.insertNode_other hq hqp]

theorem child (h : v.Gains v' p i c nf) (hne : ¬ (q = p ∧ c' = c)) :
    v'.child q c' = v.child q c' := by
  refine Option.ext fun j => ?_
  rw [Volume.child_eq_some, Volume.child_eq_some, h.label]
  by_cases hj : q ++ [j] = p ++ [i]
  · -- the new slot has another name, and was free before
    obtain ⟨rfl, rfl⟩ := Volume.concat_inj hj
    rw [Function.update_self, h.free]
    refine iff_of_false (fun hc => hne ⟨rfl, hc.2.symm⟩) ?_
    rintro ⟨⟨n, hn⟩, -⟩
    cases hn
  · rw [Function.update_of_ne hj, h.isSome_iff hj]

end Volume.Gains

/-! ## Create -/

/-- Any two entries in use with the same name are the same entry. -/
def NamesDistinct (names : List CString) (es : List DirectoryEntry) : Prop :=
  ∀ (i j : Nat) e e' c, es[i]? = some e → es[j]? = some e' → e.inUse = true → e'.inUse = true →
    names[e.name.toNat - 1]? = some c → names[e'.name.toNat - 1]? = some c → i = j

theorem Volume.namesDistinct (hn : v.node p = some n) (ht : n.fileType = 1) :
    NamesDistinct v.names (entriesOf n.content) := by
  have hlabel : ∀ (i : Nat) e c, (entriesOf n.content)[i]? = some e → e.inUse = true →
      v.names[e.name.toNat - 1]? = some c → ∃ m, v.node (p ++ [i]) = some m ∧
        v.label (p ++ [i]) = c := by
    intro i e c he hu hc
    have hdesc := v.entry p n hn ht i e he
    cases hm : v.node (p ++ [i]) with
    | none =>
      rw [hm] at hdesc
      rw [show e.inUse = false from hdesc] at hu
      cases hu
    | some m =>
      rw [hm] at hdesc
      exact ⟨m, rfl, Option.some.inj (hdesc.2.2.2.symm.trans hc)⟩
  intro i j e e' c he he' hu hu' hc hc'
  obtain ⟨m, hm, hl⟩ := hlabel i e c he hu hc
  obtain ⟨m', hm', hl'⟩ := hlabel j e' c he' hu' hc'
  exact v.distinct p i j m m' hm hm' (hl.trans hl'.symm)

/-- What `Create` of the path `name` has done from `s` to `s'`: the last component is bound in the
directory at `p` to a header whose bit was clear, and nothing else is different. -/
structure BindsOne (v : Volume) (name : CString) (p : Place) (s s' : Kernel) : Prop where
  bound : ∃ x, x ∈ v.map.free ∧ boundTo s' name = some x ∧
    Wp (getFileName name >>= fun r => r.2.1.find r.1) (fun y _ => y = x) s'
  others : ∀ q d c, v.node q = some d → d.fileType = 1 →
    ¬ (q = p ∧ c = lastComp (components name)) → lookup s' d.hdr c = lookup s d.hdr c
  distinct : ∀ q d, v.node q = some d → d.fileType = 1 →
    NamesDistinct s'.names (entriesOf (fileBytes s'.disk d.hdr))
  bytes : ∀ q n, v.node q = some n → q ≠ p → fileBytes s'.disk n.hdr = fileBytes s.disk n.hdr

theorem Volume.wp_find_of_held (h : v.dirs.Held s) {name : CString} {i : Nat}
    (hb : v.Binds name p i n) :
    Wp (getFileName name >>= fun r => r.2.1.find r.1) (fun y _ => y = n.hdr) s := by
  obtain ⟨r, hroot, hr1, hrt⟩ := v.root
  obtain ⟨-, d, hd, ht⟩ := v.parent p i n hb.node
  have hreach := Volume.reaches_of_walk hroot hb.walk hd ht
  obtain ⟨s₁, T, f, h₁, hwp₁⟩ := h.getFileName ⟨[], hroot, hrt⟩ hr1 hreach
    (List.append_nil _).symm
  obtain ⟨s₂, h₂, hwp₂⟩ := h₁.ends (lastComp (components name))
  rw [wp_then, hwp₁, hwp₂, h₂.held.wp_find h₂.isDir]
  exact Volume.sectorOf_found hd ht hb.child hb.node

theorem Volume.Gains.bindsOne {v' : Volume} {i : Nat} {name : CString} {b : Sector}
    (h : v.Gains v' p i (lastComp (components name)) nf) (hr : Rep s v)
    (hr' : Rep (s'.setDisk nf.hdr b) v') (hfree : nf.hdr ∈ v.map.free)
    (hw : v.walk [] (dirComps (components name)) = some p) : BindsOne v name p s s' := by
  have hon : ∀ q m, v'.node q = some m → q ≠ p ++ [i] → m.On s'.disk := by
    intro q m hm hq
    have hx : nf.hdr ∉ m.sectors := fun hx =>
      v'.apart _ q nf m h.new hm (Ne.symm hq) _ (List.mem_cons_self ..) hx
    have hback : (s'.setDisk nf.hdr b).setDisk nf.hdr (s'.disk nf.hdr) = s' := by
      simp only [Kernel.setDisk, Function.update_idem, Function.update_eq_self]
    have hset := (hr'.on q m hm).setDisk hx (s'.disk nf.hdr)
    rwa [hback] at hset
  have hheld : v'.dirs.Held s' := by
    refine ⟨⟨hr'.quiet.mutex, hr'.quiet.arrayMutex⟩, hr'.names, ?_⟩
    rintro m ⟨q, hm, hmt⟩
    refine hon q m hm ?_
    rintro rfl
    obtain rfl := Option.some.inj (h.new.symm.trans hm)
    rw [h.plain] at hmt
    cases hmt
  obtain ⟨d₀, d', hd₀, -, -, hnode⟩ := h.node
  have hbinds : v'.Binds name p i nf := Volume.binds_of_insertNode h.free h.label hnode hw
  refine ⟨⟨nf.hdr, hfree, Volume.boundTo_of_held hheld hbinds,
    Volume.wp_find_of_held hheld hbinds⟩, fun q d c hd ht hne => ?_, fun q d hd ht => ?_,
    fun q n hn hq => ?_⟩
  · obtain ⟨e, he, hhdr, htype⟩ := h.old hd
    rw [← hhdr, Volume.lookup_of_held hheld he (htype.trans ht), hhdr, hr.lookup hd ht,
      h.child hne]
    cases hc : v.child q c with
    | none => rfl
    | some j =>
      obtain ⟨⟨m, hm⟩, -⟩ := Volume.child_eq_some.mp hc
      obtain ⟨m', hm', hmh, -⟩ := h.old hm
      rw [Option.bind_some, Option.bind_some, hm, hm', Option.map_some, Option.map_some, hmh]
  · obtain ⟨e, he, hhdr, htype⟩ := h.old hd
    have hnames : s'.names = v'.names := hr'.names
    rw [← hhdr, (hon q e he (h.ne hd)).fileBytes, hnames]
    exact Volume.namesDistinct he (htype.trans ht)
  · rw [(hon q n (h.same hn hq) (h.ne hn)).fileBytes, (hr.on q n hn).fileBytes]

theorem FileNode.exists_empty (hdr : FileHeader) {x : Nat} (hx : x < 1024)
    (hnum : hdr.numSectors.toInt = 0) (hlen : hdr.numBytes.toInt = 0) (d : Nat → Sector) :
    ∃ nf : FileNode, nf.hdr = x ∧ nf.sectors = [x] ∧ nf.fileType = hdr.fileType ∧ nf.length = 0 ∧
      nf.numSectors = 0 ∧ nf.On (Function.update d x hdr.toSector) := by
  have hlt : ∀ y ∈ x :: ([] ++ [] : List Nat), y < 1024 := by
    intro y hy
    rw [List.mem_singleton.mp hy]
    exact hx
  have hcount : ([] : List Nat).length = hdr.numSectors.toInt.toNat := by
    rw [hnum]
    rfl
  have hroom : hdr.numBytes.toInt ≤ 128 * ([] : List Nat).length := by
    rw [hlen]
    decide
  obtain ⟨nf, hhdr, hsec, hty, -, hnlen, hnnum, hon⟩ := FileNode.exists_allocated (d := d) hdr
    (List.nodup_singleton x) hlt rfl (Nat.zero_le _) hcount hroom (fun j t hj => by cases hj)
    fun j t hj => by cases hj
  exact ⟨nf, hhdr, hsec, hty, hnlen.trans hlen, hnnum.trans hnum, hon⟩

theorem Volume.Marks.apart_of_free {lost : Set Nat} (hmk : v.Marks lost) {x : Nat}
    (hx : x ∈ v.map.free) (hsec : nf.sectors = [x]) : v.Apart nf := by
  have hnot := hmk.free_not_owned hx
  refine ⟨fun q n hn y hy hyn => ?_, fun y hy hyn => ?_⟩
  · rw [hsec, List.mem_singleton] at hy
    exact hnot (.inr ⟨q, n, hn, hy ▸ hyn⟩)
  · rw [hsec, List.mem_singleton] at hyn
    exact hnot (.inl (hyn ▸ hy))

theorem Rep.congr_owned (hr : Rep s v) (hst : Steady s s')
    (hd : ∀ x, v.Owned x → s'.disk x = s.disk x) : Rep s' v where
  quiet := hst.quiet hr.quiet
  names := hst.names.trans hr.names
  map := hr.map.frame fun x hx => hd x (.inl hx)
  on q n hn := (hr.on q n hn).frame fun x hx => hd x (.inr ⟨q, n, hn, hx⟩)

section create
variable {fs : FileSystem} {lost : Set Nat} {size ty : Int} {i a x : Nat} {c : CString}
  {d : FileNode} {e : DirectoryEntry} {rest : List Nat}

/-- `Create` from `Allocate` on. -/
def FileSystem.createAdded (fs : FileSystem) (hdr : FileHeader) (sector : Int)
    (directory : Directory) (currDirectoryFile : Handle) (initialSize fileType : Int)
    (freeMap : BitMap) : Prog Bool := do
  let (ok, hdr, freeMap) ← hdr.allocate freeMap initialSize fileType
  if ok then
    install fs hdr sector fileType directory currDirectoryFile freeMap
    return true
  else return false

/-- A `Create` that has come to `Allocate`: the first free sector `x` is taken for the header, and
the name `c` is in slot `i` of the table of `d`. -/
structure Volume.Adding (v : Volume) (s s' : Kernel) (p : Place) (c : CString) (d : FileNode)
    (f : Handle) (i x : Nat) (e : DirectoryEntry) : Prop where
  free : ∃ rest, v.map.free = x :: rest
  slot : (v.withName c).Slot p i c (v.names.length + 1) d e
  rep : Rep s' (v.withName c)
  kept : Kept s s'
  openOn : s'.OpenOn f d.hdr

theorem adding_of_createWith {P : Kernel → Prop} (hr : Rep s v) (hd : v.node p = some d)
    (ht : d.fileType = 1) (hc : '/' ∉ c) (ho : s.OpenOn f d.hdr)
    (h : Wp (createWith fs (some c) ⟨entriesOf d.content⟩ f size ty v.map)
      (fun b t => b = true ∧ P t) s) :
    ∃ i x e hdr s', v.Adding s s' p c d f i x e ∧
      Wp (createAdded fs hdr x (addedTable d i (v.names.length + 1) e x) f size ty
        (v.map.markBit x)) (fun b t => b = true ∧ P t) s' := by
  have hrd := Volume.readable hd ht
  have hcall := Volume.findIdx?_called (c := c) hd ht
  have hsearch : searchFor s.names (some c) (entriesOf d.content) = some (v.child p c) := by
    rw [hr.names]
    exact (search_of_readable hrd).trans (congrArg some hcall)
  unfold createWith at h
  cases hfree : v.map.free with
  | nil =>
    simp only [BitMap.find_of_free_nil hfree, if_true, wp_pure, Bool.false_eq_true, false_and] at h
  | cons x rest =>
    have hx : ¬ (x : Int) = -1 := by omega
    simp only [BitMap.find_of_free_cons hfree, hx, if_false, wp_then] at h
    by_cases hadd : v.child p c ≠ none ∨ ∀ e ∈ entriesOf d.content, e.inUse = true
    · rw [wp_add_refused (T := ⟨entriesOf d.content⟩) hsearch hadd] at h
      simp only [Bool.false_eq_true, if_false, wp_pure, false_and] at h
    · -- the name is added in the first free slot
      rw [not_or, not_not] at hadd
      obtain ⟨hnone, hslot⟩ := hadd
      rw [hnone] at hsearch hcall
      obtain ⟨T', hwp⟩ := wp_add_free (T := ⟨entriesOf d.content⟩) (x : Int) hsearch hslot
      obtain ⟨-, -, hheap, -⟩ := (hwp _).mp h
      rw [← hr.names] at hrd hcall
      cases hi : (entriesOf d.content).findIdx? (fun e => !e.inUse) with
      | none =>
        rw [List.findIdx?_eq_none_iff] at hi
        exact absurd (fun e he => by simpa using hi e he) hslot
      | some i =>
        obtain ⟨e, he, hs⟩ := Volume.slot_of_free hd ht hnone hc (hr.names ▸ hheap) hi
        rw [wp_add (d := ⟨entriesOf d.content⟩) hrd hcall hi he hheap,
          show s.names.length = v.names.length by rw [hr.names]] at h
        simp only [if_true, wp_then, FileHeader.new, wp_freshMemory, wp_pure] at h
        simp only [← wp_then] at h
        have hr₁ := (hr.withName c).steady (Steady.tick _ (s.tick + 1)) rfl
        have hk : Kept s { s with names := s.names ++ [c], tick := s.tick + 1 } :=
          ⟨rfl, rfl, rfl, le_rfl, fun _ _ => rfl, fun _ _ => rfl⟩
        exact ⟨i, x, e, _, _, ⟨⟨rest, hfree⟩, hs, hr₁, hk, hk.openOn ho⟩, h⟩

theorem adding_of_create {name : CString} {P : Kernel → Prop} (hr : Rep s v)
    (hfs : s.OpenOn fs.freeMapFile 0)
    (hw : v.walk [] (dirComps (components name)) = some p) (hd : v.node p = some d)
    (ht : d.fileType = 1)
    (h : Wp (create fs name size ty) (fun b t => b = true ∧ P t) s) :
    ∃ f i x e hdr s', v.Adding s s' p (lastComp (components name)) d f i x e ∧
      Wp (createAdded fs hdr x (addedTable d i (v.names.length + 1) e x) f size ty
        (v.map.markBit x)) (fun b t => b = true ∧ P t) s' := by
  obtain ⟨s₁, f, hr₁, harr, hwp⟩ := hr.getFileName_found hw hd ht
  have hc : '/' ∉ lastComp (components name) :=
    not_mem_of_mem_components (lastComp_mem (components_ne_nil name))
  have hsearch : searchFor v.names (some (lastComp (components name))) (entriesOf d.content) =
      some (v.child p (lastComp (components name))) :=
    (search_of_readable (Volume.readable hd ht)).trans
      (congrArg some (Volume.findIdx?_called hd ht))
  rw [create_eq, wp_then, hwp] at h
  by_cases hsec : slotSector (entriesOf d.content) (v.child p (lastComp (components name))) = -1
  · obtain ⟨s₂, hr₂, hst₂, -, hwp₂⟩ := hr₁.createIn_reads (T := ⟨entriesOf d.content⟩)
      (harr.steady.openOn hfs) hsearch hsec
    rw [hwp₂] at h
    obtain ⟨i, x, e, hdr, s', ha, h'⟩ := adding_of_createWith hr₂ hd ht hc
      (hst₂.openOn harr.openOn) h
    exact ⟨f, i, x, e, hdr, s', ⟨ha.free, ha.slot, ha.rep,
      (harr.steady.toKept.trans hst₂.toKept).trans ha.kept, ha.openOn⟩, h'⟩
  · -- the name is bound, and the answer is FALSE
    rw [createIn, wp_then, wp_find_any, hr₁.names, hsearch] at h
    simp only [Option.some.injEq, exists_eq_left', ne_eq, hsec, not_false_eq_true, if_true,
      wp_pure, Bool.false_eq_true, false_and] at h

theorem gains_of_allocate {hdr₀ : FileHeader} (hr : Rep s v) (hmk : v.Marks lost)
    (hfs : s.OpenOn fs.freeMapFile 0) (hslot : v.Slot p i c a d e) (ho : s.OpenOn f d.hdr)
    (hfree : v.map.free = x :: rest)
    (h : Wp (createAdded fs hdr₀ x (addedTable d i a e x) f size 0 (v.map.markBit x))
      (fun b t => b = true ∧ t = s') s) :
    ∃ nf v' b, nf.hdr = x ∧ v.Gains v' p i c nf ∧ Rep (s'.setDisk nf.hdr b) v' := by
  have hsub : ∀ y ∈ (v.map.markBit x).free, y ∈ v.map.free := fun y hy => by
    rw [BitMap.free_markBit hfree] at hy
    exact hfree ▸ List.mem_cons_of_mem _ hy
  have hxfree : x ∈ v.map.free := hfree ▸ List.mem_cons_self ..
  have hx : x < 1024 := v.isMap.numBits ▸ (BitMap.mem_free.mp hxfree).1
  have hbits : (v.map.markBit x).numBits = 1024 := by simpa using v.isMap.numBits
  rw [createAdded, wp_then] at h
  by_cases hfew : ((v.map.markBit x).numClear : Int) < divRoundUp size 128
  · -- `Allocate` refuses, and the answer is FALSE
    simp only [FileHeader.allocate, wp_then, wp_time, if_pos hfew, wp_pure, Bool.false_eq_true,
      if_false, false_and] at h
  rw [wp_allocate_iff hfew] at h
  obtain ⟨r, s₁, ⟨h₁, hm, hst₁, hd₁⟩, -⟩ := (allocateTables_frame hbits h).exists_iff
  have hst := (Steady.tick s (s.tick + 1)).trans hst₁
  have hr₁ : Rep s₁ v := hr.congr_owned hst fun y hy =>
    hd₁ y fun hyf => hmk.free_not_owned (hsub y hyf) hy
  -- an empty file takes the place of the new one
  obtain ⟨nf, rfl, hsec, hty, -, -, hnf⟩ :=
    FileNode.exists_empty blankHdr hx (by decide) (by decide) s₁.disk
  have hft : nf.fileType = 0 := hty.trans (by decide)
  have hap := hmk.apart_of_free hxfree hsec
  have hinst := wp_installPlain r.1 hr₁ hslot hap hft hnf (hst.openOn ho) (hst.openOn hfs) hm
  simp only [if_true, wp_then, wp_pure] at h₁
  obtain ⟨_, _, ⟨⟨hi, -, hr₂⟩, -, rfl⟩, -⟩ := (hinst.and h₁).exists_iff
  exact ⟨nf, _, _, rfl, ⟨hslot.free, hslot.unbound, hft, rfl, d, hslot.dir' nf.hdr, hslot.dir,
    rfl, rfl, rfl⟩, hr₂⟩

/-- Every successful `Create` of a plain file binds one name and disturbs nothing else. -/
theorem create_bindsOne {name : CString} (hr : Rep s v) (hmk : v.Marks lost)
    (hfs : s.OpenOn fs.freeMapFile 0)
    (hw : v.walk [] (dirComps (components name)) = some p) (hd : v.node p = some d)
    (ht : d.fileType = 1)
    (h : Wp (create fs name size 0) (fun b t => b = true ∧ t = s') s) :
    BindsOne v name p s s' := by
  obtain ⟨f, i, x, e, hdr, s₁, ha, h₁⟩ := adding_of_create hr hfs hw hd ht h
  obtain ⟨rest, hfree⟩ := ha.free
  obtain ⟨nf, v', b, rfl, hg, hr'⟩ := gains_of_allocate ha.rep ⟨hmk.used, hmk.lost⟩
    (ha.kept.openOn hfs) ha.slot ha.openOn hfree h₁
  have hgains : v.Gains v' p i (lastComp (components name)) nf :=
    ⟨hg.free, hg.unbound, hg.plain, hg.label, hg.node⟩
  exact hgains.bindsOne hr hr' (hfree ▸ List.mem_cons_self ..) hw

end create

/-- The first file of a new disk. -/
theorem create_bindsOne_first : ∃ s v s', Rep s v ∧ BindsOne v ['a'] [] s s' := by
  have hfirst := wp_formatCreate ['a'] 0 Kernel.quiet_zeroed (by decide) (by decide) (by decide)
    (by decide) (Q := fun r _ => r.2 = true) fun _ _ _ _ _ _ => rfl
  simp only [wp_then, wp_pure] at hfirst
  have hformat := wp_format Kernel.quiet_zeroed
    (Q := fun fs s => ∃ v, Rep s v ∧ v.Marks ∅ ∧ s.OpenOn fs.freeMapFile 0)
    fun fs s v hr _ hmk _ _ ho _ => ⟨v, hr, hmk, ho⟩
  obtain ⟨fs, s, ⟨⟨v, hr, hmk, ho⟩, hcreate⟩, -⟩ := (hformat.and hfirst).exists_iff
  obtain ⟨b, s', rfl, hwp⟩ := hcreate.exists_iff
  obtain ⟨d, hd, -, ht⟩ := v.root
  exact ⟨s, v, s', hr, create_bindsOne hr hmk ho rfl hd ht ((hwp _).mpr ⟨rfl, rfl⟩)⟩
end Nachos
