import Nachos.FileSys.OpenSpec

/-! The disk that `FileSystem(TRUE)` writes. -/

namespace Nachos
open Lib Program FileSystem

variable {s s' : Kernel} {m : BitMap} {mf r : FileNode}

def Volume.formatted (names : List CString) (hm : MapFile mf m) (h1 : r.hdr = 1)
    (ht : r.fileType = 1)
    (hlong : 120 ≤ r.length) (hempty : ∀ e ∈ entriesOf r.content, e.inUse = false)
    (hap : ∀ x ∈ mf.sectors, x ∉ r.sectors) : Volume where
  names := names
  map := m
  mapFile := mf
  node p := if p = [] then some r else none
  label _ := []
  isMap := hm
  root := ⟨r, rfl, h1, ht⟩
  kind p n hn := by
    split at hn
    · cases hn
      exact .inr ht
    · cases hn
  parent p i n hn := by simp at hn
  long p d hd _ := by
    split at hd
    · cases hd
      exact hlong
    · cases hd
  entry p d hd _ i e he := by
    split at hd
    · cases hd
      simpa [Describes] using hempty e (List.mem_of_getElem? he)
    · cases hd
  plain p i n hn := by simp at hn
  distinct p i j n n' hn := by simp at hn
  apart p q n n' hn hn' hpq := by
    split at hn <;> split at hn'
    · next hp hq => exact absurd (hp.trans hq.symm) hpq
    · cases hn'
    · cases hn
    · cases hn
  mapApart p n hn := by
    split at hn
    · cases hn
      exact hap
    · cases hn

theorem range_split :
    List.range 1024 = 0 :: 1 :: ([2, 3] ++ ([4, 5] ++ (List.range 1024).drop 6)) := by
  have h := (List.take_append_drop 6 (List.range 1024)).symm
  rw [List.take_range] at h
  generalize (List.range 1024).drop 6 = rest at h ⊢
  exact h

theorem mem_rest {rest : List Nat} (h : List.range 1024 = 0 :: 1 :: ([2, 3] ++ ([4, 5] ++ rest)))
    (x : Nat) :
    x ∈ rest ↔ 6 ≤ x ∧ x < 1024 := by
  have hmem : x < 1024 ↔ x ∈ 0 :: 1 :: ([2, 3] ++ ([4, 5] ++ rest)) := by rw [← h, List.mem_range]
  have hnd : (0 :: 1 :: ([2, 3] ++ ([4, 5] ++ rest))).Nodup := h ▸ List.nodup_range
  simp only [List.cons_append, List.nil_append, List.nodup_cons, List.mem_cons, not_or] at hmem hnd
  constructor
  · intro hx
    refine ⟨?_, hmem.mpr (by simp [hx])⟩
    by_contra hlt
    have : x = 0 ∨ x = 1 ∨ x = 2 ∨ x = 3 ∨ x = 4 ∨ x = 5 := by omega
    rcases this with rfl | rfl | rfl | rfl | rfl | rfl <;> simp_all
  · rintro ⟨h6, hx⟩
    rcases hmem.mp hx with h | h | h | h | h | h | h
    all_goals first | exact h | omega

theorem exists_smallFile {x : Nat} {index data L : List Nat} {hdr : FileHeader}
    {d : Nat → Sector} {k : Int}
    (hp : (index ++ data).Perm L) (hi : index.length = 1) (hd : data.length = 1)
    (hL : (x :: L).Nodup)
    (hlt : ∀ y ∈ x :: L, y < 1024) (hl : ∀ (j : Nat) t, index[j]? = some t →
      hdr.entry j = some (.ofNat 32 t))
    (hnb : hdr.numBytes.toInt = k) (hk : k ≤ 128) (hns : hdr.numSectors.toInt = 1)
    (hlead : Leads d index data)
    (visit write : Word) :
    ∃ nf : FileNode, nf.hdr = x ∧ nf.sectors.Perm (x :: L) ∧ nf.fileType = hdr.fileType ∧
      nf.length = k ∧
      nf.On (Function.update d x { hdr with lastVisitTime := visit, lastWriteTime :=
        write }.toSector) := by
  obtain ⟨nf, hx, hs, ht, -, hlen, -, hon⟩ := FileNode.exists_allocated
    { hdr with lastVisitTime := visit, lastWriteTime := write }
    ((hp.cons x).nodup_iff.mpr hL) (fun y hy => hlt y ((hp.cons x).subset hy)) (by rw [hi, hd]; rfl)
    (by omega) (by rw [hd]; exact congrArg Int.toNat hns.symm)
      (by rw [hd]; exact hnb.trans_le hk) hl hlead
  exact ⟨nf, hx, hs ▸ hp.cons x, ht, hlen.trans hnb, hon⟩

theorem wp_formatFiles {dir : Directory} (hq : s.Quiet) (hmf : mf.On s.disk) (hr : r.On s.disk)
    (h0 : mf.hdr = 0) (h1 : r.hdr = 1) (hml : mf.length = 128) (hrl : r.length = 120)
    (ht : r.fileType = 1)
    (hap : ∀ x ∈ mf.sectors, x ∉ r.sectors) (hm : m.numBits = 1024) (hdir : dir.tableSize = 10)
    (hempty : ∀ e ∈ dir.table, e.inUse = false) {Q : FileSystem → Kernel → Prop}
    (hQ : ∀ fs s' v, Rep s' v → Steady s s' → v.map = m → (∀ p, p ≠ [] → v.node p = none) →
      (∀ x, v.Owned x ↔ x ∈ mf.sectors ∨ x ∈ r.sectors) → s'.OpenOn fs.freeMapFile 0 →
      s'.OpenOn fs.directoryFile 1 → Q fs s') :
    Wp (do
      let freeMapFile ← OpenFile.new 0
      let directoryFile ← OpenFile.new 1
      m.writeBack freeMapFile
      dir.writeBack directoryFile
      return { freeMapFile, directoryFile }) Q s := by
  have hmb : m.toBytes.length = 128 := by rw [BitMap.length_toBytes, BitMap.numWords, m.size, hm]
  have hdb : dir.toBytes.length = 120 := by rw [Directory.length_toBytes, hdir]
  have hmroom : ((0 : Nat) : Int) + m.toBytes.length ≤ mf.length := by omega
  have hdroom : ((0 : Nat) : Int) + dir.toBytes.length ≤ r.length := by omega
  have hmap : MapFile (mf.overwrite 0 m.toBytes hmroom) m := by
    refine ⟨h0, hm, hml, ?_⟩
    have hc : mf.content.length = 128 := by rw [mf.size, hml]; rfl
    change splice mf.content 0 m.toBytes = m.toBytes
    rw [splice, List.take_zero, List.nil_append, Nat.zero_add, List.drop_of_length_le (by omega),
      List.append_nil]
  have hent : ∀ e ∈ entriesOf (r.overwrite 0 dir.toBytes hdroom).content, e.inUse = false :=
    fun e he =>
    hempty e (Directory.entriesOf_splice hdir ▸ he)
  have hm0 : mf.hdr ∈ mf.sectors := List.mem_cons_self ..
  have hr1 : r.hdr ∈ r.sectors := List.mem_cons_self ..
  simp only [wp_then]
  rw [show (0 : Int) = (mf.hdr : Int) by rw [h0]; rfl,
    show (1 : Int) = (r.hdr : Int) by rw [h1]; rfl]
  refine wp_openFile hq mf.hdr_lt fun s₁ hst₁ htc₁ ho₁ _ _ => ?_
  have hmf₁ := hmf.touched htc₁ mf.hdr_not_mem
  have hr₁ := hr.touched htc₁ fun hx => hap _ hm0 (List.mem_cons_of_mem _ hx)
  refine wp_openFile (hst₁.quiet hq) r.hdr_lt fun s₂ hst₂ htc₂ ho₂ _ _ => ?_
  have hmf₂ := hmf₁.touched htc₂ fun hx => hap _ (List.mem_cons_of_mem _ hx) hr1
  have hr₂ := hr₁.touched htc₂ r.hdr_not_mem
  have hst₂' := hst₁.trans hst₂
  simp only [BitMap.writeBack, wp_then, wp_pure]
  refine wp_writeAt_inPlace (p := 0) (hst₂'.quiet hq) hmf₂ (hst₂.openOn ho₁) (by omega) hmroom
    fun s₃ hst₃ hmf₃ hd₃ => ?_
  have hr₃ := hr₂.frame fun x hx => hd₃ x fun hxd =>
    hap x (List.mem_cons_of_mem _ (List.mem_append_right _ hxd)) hx
  have hst₃' := hst₂'.trans hst₃
  refine wp_writeDirectory (hst₃'.quiet hq) hr₃ (hst₃.openOn ho₂) hdroom hdir
    fun s₄ hst₄ hr₄ hd₄ => ?_
  have hmf₄ := hmf₃.frame fun x hx => hd₄ x fun hxd =>
    hap x hx (List.mem_cons_of_mem _ (List.mem_append_right _ hxd))
  have hst₄' := hst₃'.trans hst₄
  refine hQ _ s₄ (.formatted (r := r.overwrite 0 dir.toBytes hdroom) s.names hmap h1 ht
    hrl.ge hent hap)
    ⟨hst₄'.quiet hq, hst₄'.names, hmf₄, fun p n hn => ?_⟩ hst₄' rfl (fun p hp => if_neg hp)
      (fun x => ?_)
    (h0 ▸ ((hst₂.trans hst₃).trans hst₄).openOn ho₁) (h1 ▸ (hst₃.trans hst₄).openOn ho₂)
  · change (if p = [] then _ else _) = _ at hn
    split at hn
    · cases hn
      exact hr₄
    · cases hn
  · refine or_congr Iff.rfl ⟨?_, fun hx => ⟨[], _, rfl, hx⟩⟩
    rintro ⟨p, n, hn, hx⟩
    change (if p = [] then _ else _) = _ at hn
    split at hn
    · cases hn
      exact hx
    · cases hn

theorem wp_format (hq : s.Quiet) {Q : FileSystem → Kernel → Prop}
    (hQ : ∀ fs s' v, Rep s' v → Steady s s' → v.Marks ∅ → (∀ p, p ≠ [] → v.node p = none) →
      v.map.free = (List.range 1024).drop 6 → s'.OpenOn fs.freeMapFile 0 →
        s'.OpenOn fs.directoryFile 1 →
      Q fs s') : Wp format Q s := by
  simp only [format, wp_then, wp_freshMemory]
  refine wp_newDirectory fun dir s₁ hdir hempty hst₁ htc₁ _ => ?_
  simp only [FileHeader.new, wp_then, wp_freshMemory, wp_pure]
  have h0 : (0 : Int) = ((0 : Nat) : Int) := rfl
  have h1 : (1 : Int) = ((1 : Nat) : Int) := rfl
  have hnew := BitMap.free_new (s.host s.tick) 1024
  have hbits := BitMap.numBits_new (s.host s.tick) 1024
  generalize BitMap.new (s.host s.tick) 1024 = m₀ at hnew hbits ⊢
  have hmark₀ : m₀.mark 0 = some (m₀.markBit 0) := BitMap.mark_sector (x := 0)
    (by rw [hbits]; decide)
  have hmark₁ : (m₀.markBit 0).mark 1 = some ((m₀.markBit 0).markBit 1) :=
    BitMap.mark_sector (x := 1) (by rw [BitMap.numBits_markBit, hbits]; decide)
  rw [hmark₀, wp_orFault_some, hmark₁, wp_orFault_some]
  have hrange := range_split
  generalize (List.range 1024).drop 6 = rest at hrange hQ
  have hfree₂ : ((m₀.markBit 0).markBit 1).free = [2, 3] ++ ([4, 5] ++ rest) :=
    BitMap.free_markBit (BitMap.free_markBit (hnew.trans hrange))
  have hbits₂ : ((m₀.markBit 0).markBit 1).numBits = 1024 := by
    rw [BitMap.numBits_markBit, BitMap.numBits_markBit]
    exact hbits
  generalize (m₀.markBit 0).markBit 1 = m₂ at hfree₂ hbits₂ ⊢
  refine wp_allocate (k := 1) (by omega) (by omega) (by decide) hbits₂ (by decide) hfree₂
    (by decide)
    fun mapHdr s₂ index data hp _ hi hd hl ht hv hnb hns htb hst₂ => ?_
  rw [wp_assert rfl]
  have hfree₄ := BitMap.free_markAll hfree₂
  have hbits₄ : (m₂.markAll [2, 3]).numBits = 1024 :=
    (BitMap.numBits_markAll _).trans hbits₂
  refine wp_allocate (k := 1) (by omega) (by omega) (by decide) hbits₄ (by decide) hfree₄
    (by decide)
    fun dirHdr s₃ index' data' hp' _ hi' hd' hl' ht' hv' hnb' hns' htb' hst₃ => ?_
  rw [wp_assert rfl]
  simp only [wp_time, FileHeader.writeBack]
  have hmem : ∀ x ∈ index ++ data, x = 2 ∨ x = 3 := fun x hx => by simpa using hp.subset hx
  have hmem' : ∀ x ∈ index' ++ data', x = 4 ∨ x = 5 := fun x hx => by simpa using hp'.subset hx
  have hlead : Leads s₃.disk index data := htb.leads.congr fun x hx => htb'.other x fun hx' => by
    have := hmem x (List.mem_append_left _ hx)
    have := hmem' x (List.mem_append_left _ hx')
    omega
  rw [h0, wp_writeSector (by omega), h1, wp_writeSector (by omega)]
  obtain ⟨mf, hmf0, hms, -, hml, hmon⟩ := exists_smallFile (x := 0) hp hi hd (by decide)
    (by decide) hl hnb
    (by omega) hns hlead (s₃.host s₃.tick 0) (s₃.host (s₃.tick + 1 + 1) 0)
  have hm0 : ∀ x, x ∈ mf.sectors ↔ x = 0 ∨ x = 2 ∨ x = 3 :=
    fun x => by simpa using hms.mem_iff (a := x)
  generalize ({ mapHdr with lastVisitTime := _, lastWriteTime := _ } :
    FileHeader).toSector = d₀ at hmon ⊢
  have hlead' : Leads (Function.update s₃.disk 0 d₀) index' data' := htb'.leads.congr fun x hx =>
    Function.update_of_ne (fun e => by have := hmem' x (List.mem_append_left _ hx); omega) _ _
  obtain ⟨r, hr1, hrs, hrt, hrl, hron⟩ := exists_smallFile (x := 1) hp' hi' hd' (by decide)
    (by decide) hl' hnb'
    (by omega) hns' hlead' (s₃.host (s₃.tick + 1) 0) (s₃.host (s₃.tick + 1 + 1 + 1) 0)
  have hr0 : ∀ x, x ∈ r.sectors ↔ x = 1 ∨ x = 4 ∨ x = 5 :=
    fun x => by simpa using hrs.mem_iff (a := x)
  generalize ({ dirHdr with lastVisitTime := _, lastWriteTime := _ } :
    FileHeader).toSector = d₁ at hron ⊢
  have hmon' : mf.On (Function.update (Function.update s₃.disk 0 d₀) 1 d₁) := hmon.frame fun x hx =>
    Function.update_of_ne (fun e => by have := (hm0 x).mp hx; omega) _ _
  have hst : Steady s s₃ := ((Steady.tick s (s.tick + 1)).trans hst₁).trans
    (((Steady.tick s₁ (s₁.tick + 1 + 1)).trans hst₂).trans hst₃)
  have hfin := wp_formatFiles (Q := Q) (m := (m₂.markAll [2, 3]).markAll [4, 5])
    (s := ({ s₃ with tick := s₃.tick + 1 + 1 + 1 + 1 }.setDisk 0 d₀).setDisk 1 d₁)
    ⟨(hst.quiet hq).1, (hst.quiet hq).2⟩
    hmon' hron hmf0 hr1 hml hrl (hrt.trans ht') (fun x hx hx' => ?_) ?_ hdir hempty
    fun fs s' v hr hst' hmap hnode hown ho ho' => ?_
  · simp only [wp_then, wp_pure] at hfin
    exact hfin
  · have := (hm0 x).mp hx
    have := (hr0 x).mp hx'
    omega
  · rw [BitMap.numBits_markAll, BitMap.numBits_markAll]
    exact hbits₂
  · have hfree : v.map.free = rest := by
      rw [hmap]
      exact BitMap.free_markAll hfree₄
    have hst₄ : Steady s s' := hst.trans (((Steady.tick s₃ _).trans (.setDisk _ 0 d₀)).trans
      ((Steady.setDisk _ 1 d₁).trans hst'))
    refine hQ fs s' v hr hst₄ ⟨fun x => ?_, fun x hx => absurd hx (Set.notMem_empty x)⟩ hnode
      hfree ho ho'
    have hx := mem_rest hrange x
    rw [← hfree, BitMap.mem_free, v.isMap.numBits] at hx
    rw [hown, hm0, hr0, or_iff_left (Set.notMem_empty x)]
    cases hb : v.map.testBit x
    · simp only [hb, and_true] at hx
      simp only [Bool.false_eq_true, and_false, false_iff]
      omega
    · simp only [hb, Bool.true_eq_false, and_false, false_iff] at hx
      simp only [and_true]
      omega

/-! ## A first file -/

structure FirstFile (s s' : Kernel) (fs : FileSystem) (v : Volume) (name : CString)
    (size : Int) (i : Nat)
    (n : FileNode) : Prop where
  rep : Rep s' v
  marks : v.Marks ∅
  openOn : s'.OpenOn fs.freeMapFile 0
  binds : v.Binds name [] i n
  fileType : n.fileType = 0
  length : n.length = size
  numSectors : n.numSectors = divRoundUp size 128
  numVisits : ∃ t, n.numVisits = s.host t 29
  free : v.map.free.length + n.sectors.length = 1018

theorem components_plain {name : CString} (h : '/' ∉ name) : components name = [name] :=
  List.splitOn_eq_singleton h

theorem wp_formatCreate (name : CString) (size : Int) (hq : s.Quiet) (hname : '/' ∉ name)
    (hsize : 0 ≤ size)
    (hmax : size ≤ 102400) (hheap : s.names.length + 1 < 2 ^ 32)
    {Q : FileSystem × Bool → Kernel → Prop}
    (hQ : ∀ s' fs v i n, FirstFile s s' fs v name size i n → Q (fs, true) s') :
    Wp (do
      let fs ← format
      let ok ← create fs name size 0
      return (fs, ok)) Q s := by
  simp only [wp_then, wp_pure]
  refine wp_format hq fun fs s₁ v hr hst hmk hnode hfree hofs _ => ?_
  have hc := components_plain hname
  have hclear : v.map.numClear = 1018 := by
    rw [BitMap.numClear_eq, hfree, List.length_drop, List.length_range]
  have hsec : 0 ≤ divRoundUp size 128 ∧ divRoundUp size 128 ≤ 800 := by
    rw [divRoundUp_of_nonneg hsize]
    split <;> omega
  have hcan : v.CanCreate [] name size 0 := by
    refine ⟨?_, ?_, .inl rfl, by omega, by rw [← hr.names, hst.names]; exact hheap, fun _ => ?_⟩
    · rw [hc]
      trivial
    · rw [hc]
      rfl
    · rw [hclear, tablesFor]
      omega
  refine wp_create hr hmk hofs hcan (fun s' v' _ _ _ hno => ?_)
    fun s' v' i nf hr' hk hcr hmk' hty hvis h0 _ => hQ s' fs v' i nf ?_
  · exfalso
    rcases hno with ⟨i, hi⟩ | hfull | h0 | hfew
    · obtain ⟨⟨m, hm⟩, -⟩ := Volume.child_eq_some.mp hi
      rw [hnode _ (by simp)] at hm
      cases hm
    · exact hfull 0 (by omega) (hnode _ (by simp))
    · omega
    · omega
  · obtain ⟨L, hL, hfree'⟩ := hcr.taken
    refine ⟨hr', hmk', hk.openOn hofs, hcr.binds hcan.parent, hty, (h0 rfl).1, (h0 rfl).2,
      hst.host ▸ hvis, ?_⟩
    rw [← hclear, BitMap.numClear_eq, hfree', List.length_append, hL.length_eq, Nat.add_comm]

/-! ## A first directory, and a file in it -/

/-- What is known after a directory was created on a new disk. -/
structure FirstDirectory (fs : FileSystem) (s : Kernel) (v : Volume) (name : CString) (i : Nat)
    (n : FileNode) : Prop where
  rep : Rep s v
  marks : v.Marks ∅
  openOn : s.OpenOn fs.freeMapFile 0
  binds : v.Binds name [] i n
  isDir : n.fileType = 1
  only : ∀ q, q ≠ [] → q ≠ [i] → v.node q = none
  names : v.names = [name]
  free : 1000 ≤ v.map.numClear
  host : s.host = Kernel.zeroed.host

theorem wp_formatDirectory {name : CString} (hname : '/' ∉ name)
    {Q : FileSystem × Bool → Kernel → Prop}
    (hQ : ∀ fs s v i n, FirstDirectory fs s v name i n → Q (fs, true) s) :
    Wp (do
      let fs ← format
      let made ← create fs name 1 1
      return (fs, made)) Q Kernel.zeroed := by
  simp only [wp_then, wp_pure]
  refine wp_format Kernel.quiet_zeroed fun fs s₁ v₁ hr₁ hst₁ hmk₁ hnode hfree ho₁ _ => ?_
  have hclear : v₁.map.numClear = 1018 := by
    rw [BitMap.numClear_eq, hfree, List.length_drop, List.length_range]
  have hnames : v₁.names = [] := hr₁.names.symm.trans hst₁.names
  have hc := components_plain hname
  have hw : v₁.walk [] (dirComps (components name)) = some [] := by
    rw [hc]
    rfl
  obtain ⟨d, hroot, -, hrt⟩ := v₁.root
  refine hr₁.wp_createNew hmk₁ ho₁ hw hroot hrt (by rw [hnames]; decide)
    (by rw [hclear]; decide) (Volume.child_of_empty fun j => hnode _ (by simp))
    ⟨0, by decide, hnode _ (by simp)⟩ (.inr ⟨rfl, by decide⟩) (by decide) (by decide)
    fun s v i n hr hmk hk hcr ht _ hlen => ?_
  refine hQ fs s v i n ⟨hr, hmk, hk.openOn ho₁, hcr.binds hw, ht, fun q hq hqi => ?_, ?_, ?_,
    hk.host.trans hst₁.host⟩
  · obtain ⟨_, d', -, -, -, -, hins⟩ := hcr.node
    rw [hins, Volume.insertNode_other hqi hq]
    exact hnode q hq
  · rw [hcr.names, hnames, hc]
    rfl
  · obtain ⟨L, hL, hsplit⟩ := hcr.taken
    have hlen' := hL.length_eq.trans hlen
    rw [BitMap.numClear_eq, hsplit, List.length_append, hlen', ← BitMap.numClear_eq,
      show sectorsFor (divRoundUp 1 128).toNat = 2 by decide] at hclear
    omega

/-- A new disk with a directory `A` and in it a file `f`, which is opened once. -/
def nested : Prog FileSystem := do
  let fs ← format
  let _ ← create fs ['A'] 1 1
  let _ ← create fs ['r', '/', 'A', '/', 'f'] 0 0
  let _ ← FileSystem.open ['r', '/', 'A', '/', 'f']
  return fs

/-- The tree of that disk: the directory is in slot `i` of the root, the file in its slot `j`. -/
structure Nested (fs : FileSystem) (s : Kernel) (v : Volume) (i j : Nat) (n m : FileNode) :
    Prop where
  rep : Rep s v
  marks : v.Marks ∅
  openOn : s.OpenOn fs.freeMapFile 0
  child : v.child [] ['A'] = some i
  dir : v.node [i] = some n
  isDir : n.fileType = 1
  file : v.node ([i] ++ [j]) = some m
  label : v.label ([i] ++ [j]) = ['f']
  only : ∀ q m', [i] <+: q → v.node q = some m' → q = [i] ∨ q = [i] ++ [j]
  numVisits : m.numVisits = 1

theorem wp_nested : Wp nested (fun fs s => ∃ v i j n m, Nested fs s v i j n m) Kernel.zeroed := by
  have hfirst := wp_formatDirectory (show '/' ∉ ['A'] by decide)
    (Q := fun r => Wp (do
      let _ ← create r.1 ['r', '/', 'A', '/', 'f'] 0 0
      let _ ← FileSystem.open ['r', '/', 'A', '/', 'f']
      return r.1) fun fs s => ∃ v i j n m, Nested fs s v i j n m) fun fs s v i n h => ?_
  · simpa only [nested, wp_then, wp_pure] using hfirst
  simp only [wp_then, wp_pure]
  have hbelow : ∀ j, v.node ([i] ++ [j]) = none := fun j => h.only _ (by simp) (by simp)
  have hcomps : components ['r', '/', 'A', '/', 'f'] = [['r'], ['A'], ['f']] := by decide
  have hw₂ : v.walk [] (dirComps (components ['r', '/', 'A', '/', 'f'])) = some [i] := by
    rw [hcomps]
    exact (congrArg (Option.bind · _) h.binds.child).trans rfl
  refine h.rep.wp_createNew h.marks h.openOn hw₂ h.binds.node h.isDir
    (by rw [h.names]; decide) (le_trans (by decide) h.free)
    (Volume.child_of_empty hbelow) ⟨0, by decide, hbelow 0⟩ (.inl rfl) le_rfl (by decide)
    fun s₃ v₃ j m hr₃ hmk₃ hk₃ hcr₃ _ hvis _ => ?_
  have hb₃ := hcr₃.binds hw₂
  refine wp_open_bound hr₃ hb₃ fun s₄ f hr₄ hst₄ _ _ _ _ => ?_
  obtain ⟨d, d', -, -, -, -, hnode₃⟩ := hcr₃.node
  have hdir : v₃.node [i] = some d' := by rw [hnode₃, Volume.insertNode_dir]
  have hne : [i] ≠ [i] ++ [j] := (Volume.concat_ne [i] j).symm
  have hlabel : v₃.label [i] = ['A'] := by
    rw [hcr₃.label, Function.update_of_ne hne]
    exact (Volume.child_eq_some.mp h.binds.child).2
  obtain ⟨-, d'', hd'', htype⟩ := v₃.parent [i] j m hb₃.node
  obtain rfl := Option.some.inj (hdir.symm.trans hd'')
  have hdir₄ := (Function.update_of_ne hne
    (some (m.withVisits (m.numVisits + 1))) v₃.node).trans hdir
  refine ⟨_, i, j, d', m.withVisits (m.numVisits + 1), hr₄, hmk₃.replace _ rfl,
    hst₄.openOn (hk₃.openOn h.openOn), ?_, hdir₄, htype, Function.update_self .., ?_,
    fun q m' hq hm => ?_, ?_⟩
  · exact Volume.child_eq_some.mpr ⟨⟨d', hdir₄⟩, hlabel⟩
  · rw [show (v₃.setVisits _ m _ _).label = v₃.label from rfl, hcr₃.label, Function.update_self,
      hcomps]
    rfl
  · by_cases hqj : q = [i] ++ [j]
    · exact .inr hqj
    · have hm₃ := (Function.update_of_ne hqj _ v₃.node).symm.trans hm
      rw [hnode₃] at hm₃
      rcases Volume.insertNode_cases hm₃ with ⟨hqj, -⟩ | ⟨hqi, -⟩ | ⟨-, -, hm₂⟩
      · exact .inr hqj
      · exact .inl hqi
      · obtain ⟨t, rfl⟩ := hq
        cases t with
        | nil => exact .inl (List.append_nil _)
        | cons k t =>
          rw [List.append_cons, Volume.node_below_none (hbelow k) (List.prefix_append ..)] at hm₂
          cases hm₂
  · obtain ⟨t, hvis⟩ := hvis
    rw [h.host] at hvis
    rw [FileNode.withVisits, hvis]
    rfl

end Nachos
