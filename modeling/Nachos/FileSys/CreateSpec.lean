import Nachos.FileSys.VolumeUpdate

/-! `FileSystem::Create` on a tree. -/

namespace Nachos
open Lib Program FileSystem

variable {s s' : Kernel} {v : Volume} {p : Place} {n nf : FileNode} {f : Handle} {m m' : BitMap}

theorem FileNode.On.frame {d d' : Nat → Sector} (h : n.On d) (he : ∀ x ∈ n.sectors, d' x = d x) :
    n.On d' := by
  refine h.congr ?_ fun x hx => he x (List.mem_cons_of_mem _ hx)
  rw [hdrAt, he _ (List.mem_cons_self ..), hdrAt]
  exact .refl _

structure Volume.Apart (v : Volume) (nf : FileNode) : Prop where
  node : ∀ q n, v.node q = some n → ∀ x ∈ nf.sectors, x ∉ n.sectors
  map : ∀ x ∈ v.mapFile.sectors, x ∉ nf.sectors

theorem Rep.frame (hr : Rep s v) (hst : Steady s s') (hap : v.Apart nf)
    (hd : ∀ x ∉ nf.sectors, s'.disk x = s.disk x) : Rep s' v where
  quiet := hst.quiet hr.quiet
  names := hst.names.trans hr.names
  map := hr.map.frame fun x hx => hd x (hap.map x hx)
  on q n hn := (hr.on q n hn).frame fun x hx => hd x fun hxn => hap.node q n hn x hxn hx

/-! ## Writing the free map -/

theorem MapFile.room (h : MapFile n m) (hm : m'.numBits = 1024) :
    ((0 : Nat) : Int) + m'.toBytes.length ≤ n.length := by
  rw [BitMap.length_toBytes, BitMap.numWords, m'.size, hm, h.length]
  omega

theorem MapFile.overwrite (h : MapFile n m) (hm : m'.numBits = 1024) :
    MapFile (n.overwrite 0 m'.toBytes (h.room hm)) m' where
  hdr := h.hdr
  numBits := hm
  length := h.length
  content := by
    have hl : m'.toBytes.length = 128 := by rw [BitMap.length_toBytes, BitMap.numWords, m'.size, hm]
    have hc : n.content.length = 128 := by rw [n.size, h.length]; rfl
    change splice n.content 0 m'.toBytes = m'.toBytes
    rw [splice, List.take_zero, List.nil_append, Nat.zero_add,
      List.drop_of_length_le (by omega), List.append_nil]

def Volume.storeMap (v : Volume) (m' : BitMap) (hm : m'.numBits = 1024) : Volume :=
  v.withMap m' (v.mapFile.overwrite 0 m'.toBytes (v.isMap.room hm)) (v.isMap.overwrite hm) rfl

theorem Rep.storeMap (hr : Rep s v) (hst : Steady s s') (hm : m'.numBits = 1024)
    (hon : (v.mapFile.overwrite 0 m'.toBytes (v.isMap.room hm)).On s'.disk)
    (hd : ∀ x ∉ v.mapFile.data, s'.disk x = s.disk x) : Rep s' (v.storeMap m' hm) where
  quiet := hst.quiet hr.quiet
  names := hst.names.trans hr.names
  map := hon
  on q n hn := (hr.on q n hn).frame fun x hx => hd x fun hxd =>
    v.mapApart q n hn x (List.mem_cons_of_mem _ (List.mem_append_right _ hxd)) hx

theorem Rep.wp_writeMap (hr : Rep s v) (ho : s.OpenOn f 0) (hm : m'.numBits = 1024)
    {Q : Unit → Kernel → Prop} (hQ : ∀ s', Rep s' (v.storeMap m' hm) → Steady s s' → Q () s') :
    Wp (m'.writeBack f) Q s := by
  have hl : m'.toBytes.length = 128 := by rw [BitMap.length_toBytes, BitMap.numWords, m'.size, hm]
  simp only [BitMap.writeBack, wp_then, wp_pure]
  exact wp_writeAt_inPlace (p := 0) hr.quiet hr.map (v.isMap.hdr ▸ ho) (by omega) (v.isMap.room hm)
    fun s' hst hon hd => hQ s' (hr.storeMap hst hm hon hd) hst

/-! ## A new directory -/

theorem wp_initDirectory (hr : Rep s v) (hon : nf.On s.disk) (hap : v.Apart nf)
    (ht : nf.fileType = 1)
    (hsec : 1 ≤ nf.numSectors) {Q : Unit → Kernel → Prop}
    (hQ : ∀ s' (nf' : FileNode), Rep s' v → Steady s s' → nf'.On s'.disk →
      nf'.sectors = nf.sectors →
      nf'.fileType = 1 → nf'.numVisits = nf.numVisits → 120 ≤ nf'.length →
      (∀ e ∈ entriesOf nf'.content, e.inUse = false) → Q () s') :
    Wp (initDirectory nf.hdr 1) Q s := by
  rw [initDirectory, if_pos rfl, wp_then]
  refine wp_openFile hr.quiet nf.hdr_lt fun s₁ hst₁ htc₁ ho₁ _ _ => ?_
  have hr₁ : Rep s₁ v := hr.frame hst₁ hap fun x hx => htc₁.other x fun e =>
    hx (e ▸ List.mem_cons_self ..)
  have hon₁ := hon.touched htc₁ nf.hdr_not_mem
  rw [wp_then]
  refine wp_newDirectory fun d s₂ hd hempty hst₂ htc₂ _ => ?_
  obtain ⟨r, hroot, hr1, hrt⟩ := v.root
  have hr₂ := hr₁.touched hst₂ htc₂ (.inr ⟨[], r, hroot, hr1⟩)
  have h1 : 1 ∉ nf.sectors := fun hx => hap.node [] r hroot 1 hx (hr1 ▸ List.mem_cons_self ..)
  have hon₂ := hon₁.touched htc₂ fun hx => h1 (List.mem_cons_of_mem _ hx)
  have hl : d.toBytes.length = 120 := by rw [Directory.length_toBytes, hd]
  have ho₂ := hst₂.openOn ho₁
  have hst := hst₁.trans hst₂
  have hent : ∀ content, ∀ e ∈ entriesOf (splice content 0 d.toBytes), e.inUse = false :=
    fun content e he => hempty e (Directory.entriesOf_splice hd ▸ he)
  by_cases hlong : 120 ≤ nf.length
  · have hlen : ((0 : Nat) : Int) + d.toBytes.length ≤ nf.length := by omega
    refine wp_writeDirectory hr₂.quiet hon₂ ho₂ hlen hd fun s₃ hst₃ hon₃ hd₃ => ?_
    exact hQ s₃ _ (hr₂.frame hst₃ hap fun x hx => hd₃ x fun hxd =>
      hx (List.mem_cons_of_mem _ (List.mem_append_right _ hxd))) (hst.trans hst₃) hon₃ rfl
        ht rfl hlong
      (hent _)
  · simp only [Directory.writeBack, wp_then, wp_pure]
    have hroom : ((0 + d.toBytes.length : Nat) : Int) ≤ 128 * nf.numSectors := by omega
    refine wp_writeAt_within (p := 0) ⟨hr₂.quiet, hon₂, ho₂, v.isMap, hr₂.map, hap.map⟩ (by omega)
      (by omega) hroom fun s₃ hst₃ hon₃ hmap₃ hd₃ => ?_
    have hr₃ : Rep s₃ v := by
      refine ⟨hst₃.quiet hr₂.quiet, hst₃.names.trans hr₂.names, hmap₃, fun q n hn => ?_⟩
      refine (hr₂.on q n hn).frame fun x hx => hd₃ x ?_ fun hxn => hap.node q n hn x hxn hx
      rintro rfl
      exact v.mapApart q n hn 0 (v.isMap.hdr ▸ List.mem_cons_self ..) hx
    refine hQ s₃ _ hr₃ (hst.trans hst₃) hon₃ ?_ ht rfl ?_ (hent _)
    · simp [FileNode.sectors, FileNode.overwrite, FileNode.grow]
    · simp [FileNode.overwrite, FileNode.grow, hl]

/-! ## Storing the new file -/

/-- What is known about the place for a new file once `Directory::Add` has been run: the slot
`i` of `d` is free, and the name is at heap address `a`. -/
structure Volume.Slot (v : Volume) (p : Place) (i : Nat) (c : CString) (a : Nat) (d : FileNode)
    (e : DirectoryEntry) : Prop where
  dir : v.node p = some d
  isDir : d.fileType = 1
  entry : (entriesOf d.content)[i]? = some e
  free : v.node (p ++ [i]) = none
  unbound : v.child p c = none
  plain : '/' ∉ c
  address : 0 < a ∧ a < 2 ^ 32
  name : v.names[a - 1]? = some c

section install
variable {i a x : Nat} {c : CString} {d : FileNode} {e : DirectoryEntry}

theorem Volume.Slot.lt (h : v.Slot p i c a d e) : i < 10 := by
  rw [← Volume.length_entries h.dir h.isDir]
  exact (List.getElem?_eq_some_iff.mp h.entry).1

def addedTable (d : FileNode) (i a : Nat) (e : DirectoryEntry) (x : Nat) : Directory :=
  ⟨(entriesOf d.content).set i (addedEntry e x a)⟩

theorem Volume.Slot.tableSize (h : v.Slot p i c a d e) : (addedTable d i a e x).tableSize = 10 := by
  rw [addedTable, Directory.tableSize, List.length_set]
  exact Volume.length_entries h.dir h.isDir

theorem Volume.Slot.room (h : v.Slot p i c a d e) :
    ((0 : Nat) : Int) + (addedTable d i a e x).toBytes.length ≤ d.length := by
  have := v.long p d h.dir h.isDir
  rw [Directory.length_toBytes, h.tableSize]
  omega

def Volume.Slot.dir' (h : v.Slot p i c a d e) (x : Nat) : FileNode :=
  d.overwrite 0 (addedTable d i a e x).toBytes h.room

theorem Volume.Slot.inserts (h : v.Slot p i c a d e) (hap : v.Apart nf)
    (hk : nf.fileType = 0 ∨ nf.fileType = 1)
    (hempty : nf.fileType = 1 → 120 ≤ nf.length ∧ ∀ e ∈ entriesOf nf.content, e.inUse = false) :
    v.Inserts p i c a d (h.dir' nf.hdr) nf where
  dir := h.dir
  isDir := h.isDir
  slot := h.lt
  free := h.free
  unbound := h.unbound
  plain := h.plain
  address := h.address
  name := h.name
  sectors := rfl
  isDir' := h.isDir
  long := v.long p d h.dir h.isDir
  entries := ⟨e, h.entry, Directory.entriesOf_splice h.tableSize⟩
  kind := hk
  empty := hempty
  apart := hap.node
  map := hap.map

theorem Rep.insert (hr : Rep s v) (h : v.Slot p i c a d e) (hst : Steady s s')
    (hi : v.Inserts p i c a d (h.dir' nf.hdr) nf) (hnf : nf.On s.disk)
    (hd : (h.dir' nf.hdr).On s'.disk) (hf : ∀ x ∉ d.data, s'.disk x = s.disk x) :
    Rep s' (v.insert p i c a d (h.dir' nf.hdr) nf hi) where
  quiet := hst.quiet hr.quiet
  names := hst.names.trans hr.names
  map := hr.map.frame fun x hx => hf x fun hxd =>
    v.mapApart p d h.dir x hx (List.mem_cons_of_mem _ (List.mem_append_right _ hxd))
  on q n hn := by
    have hdata : ∀ x ∈ d.data, x ∈ d.sectors := fun x hx =>
      List.mem_cons_of_mem _ (List.mem_append_right _ hx)
    rcases Volume.insertNode_cases hn with ⟨-, rfl⟩ | ⟨-, rfl⟩ | ⟨-, hqp, hn⟩
    · exact hnf.frame fun x hx => hf x fun hxd => hi.apart p d h.dir x hx (hdata x hxd)
    · exact hd
    · exact (hr.on q n hn).frame fun x hx => hf x fun hxd =>
        v.apart q p n d hn h.dir hqp x hx (hdata x hxd)

theorem wp_install {fs : FileSystem} {hdr : FileHeader} {ty : Int} (hr : Rep s v)
    (h : v.Slot p i c a d e)
    (hap : v.Apart nf) (hnf : nf.On (s.setDisk nf.hdr hdr.toSector).disk) (hty : ty = 0 ∨ ty = 1)
    (hft : nf.fileType = .ofInt 32 ty) (hsec : ty = 1 → 1 ≤ nf.numSectors) (ho : s.OpenOn f d.hdr)
    (hfs : s.OpenOn fs.freeMapFile 0) (hm : m'.numBits = 1024) {Q : Unit → Kernel → Prop}
    (hQ : ∀ s' (nf' : FileNode) (hi : v.Inserts p i c a d (h.dir' nf'.hdr) nf'),
      nf'.sectors = nf.sectors → nf'.fileType = nf.fileType → nf'.numVisits = nf.numVisits →
      (ty = 0 → nf' = nf) →
      Rep s' ((v.insert p i c a d (h.dir' nf'.hdr) nf' hi).storeMap m' hm) →
        Steady s s' → Q () s') :
    Wp (install fs hdr nf.hdr ty (addedTable d i a e nf.hdr) f m') Q s := by
  rw [install, wp_then, FileHeader.writeBack, wp_writeSector nf.hdr_lt, wp_then]
  have hst₁ : Steady s (s.setDisk nf.hdr hdr.toSector) := .setDisk ..
  have hr₁ : Rep (s.setDisk nf.hdr hdr.toSector) v := hr.frame hst₁ hap fun x hx =>
    Function.update_of_ne (fun e : x = nf.hdr => hx (e ▸ List.mem_cons_self ..)) _ _
  -- the rest of `install`, once the new file is on the disk as `nf'`
  have hrest : ∀ s₂ (nf' : FileNode), Rep s₂ v → Steady s s₂ → nf'.On s₂.disk →
    nf'.sectors = nf.sectors →
      nf'.fileType = nf.fileType → nf'.numVisits = nf.numVisits → (ty = 0 → nf' = nf) →
      (nf'.fileType = 1 → 120 ≤ nf'.length ∧ ∀ e ∈ entriesOf nf'.content, e.inUse = false) →
      Wp (do
        (addedTable d i a e nf.hdr).writeBack f
        let directory ← (addedTable d i a e nf.hdr).fetchFrom f
        directory.list
        m'.writeBack fs.freeMapFile) Q s₂ := by
    intro s₂ nf' hr₂ hst₂ hon₂ hs ht hv h0 hempty
    have hhdr : nf'.hdr = nf.hdr := (List.cons.inj hs).1
    have hap' : v.Apart nf' := ⟨fun q n hn x hx => hap.node q n hn x (hs ▸ hx),
      fun x hx => by rw [hs]; exact hap.map x hx⟩
    have hi : v.Inserts p i c a d (h.dir' nf'.hdr) nf' := h.inserts hap' (by
      rw [ht, hft]
      rcases hty with rfl | rfl
      · exact .inl rfl
      · exact .inr rfl) hempty
    rw [← hhdr, wp_then]
    refine wp_writeDirectory hr₂.quiet (hr₂.on p d h.dir) (hst₂.openOn ho) h.room h.tableSize
      fun s₃ hst₃ hon₃ hd₃ => ?_
    have hr₃ := hr₂.insert h hst₃ hi hon₂ hon₃ hd₃
    have ho₃ : OpenDir s₃ (v.insert p i c a d (h.dir' nf'.hdr) nf' hi) p (h.dir' nf'.hdr) f :=
      ⟨Volume.insertNode_dir, h.isDir, (hst₂.trans hst₃).openOn ho⟩
    rw [wp_then]
    refine hr₃.wp_fetch ho₃ h.tableSize fun s₄ hr₄ hst₄ => ?_
    have hrd := Volume.readable ho₃.node ho₃.isDir
    rw [← hr₄.names] at hrd
    rw [wp_then, wp_list (d := ⟨entriesOf (h.dir' nf'.hdr).content⟩) hrd]
    exact hr₄.wp_writeMap ((hst₂.trans (hst₃.trans hst₄)).openOn hfs) hm fun s₅ hr₅ hst₅ =>
      hQ s₅ nf' hi hs ht hv h0 hr₅ (hst₂.trans (hst₃.trans (hst₄.trans hst₅)))
  rcases hty with rfl | rfl
  · rw [initDirectory, if_neg (by decide), wp_pure]
    exact hrest _ nf hr₁ hst₁ hnf rfl rfl rfl (fun _ => rfl) fun h1 => by rw [hft] at h1; cases h1
  · refine wp_initDirectory hr₁ hnf hap hft (hsec rfl)
      fun s₂ nf' hr₂ hst₂ hon₂ hs ht hv hlong hempty => ?_
    exact hrest s₂ nf' hr₂ (hst₁.trans hst₂) hon₂ hs (ht.trans hft.symm) hv
      (fun h0 => absurd h0 (by decide))
      fun _ => ⟨hlong, hempty⟩

end install

/-! ## `Create` -/

theorem FileNode.exists_allocated (hdr : FileHeader) {x : Nat} {index data : List Nat}
    {d : Nat → Sector}
    (hnd : (x :: (index ++ data)).Nodup) (hlt : ∀ y ∈ x :: (index ++ data), y < 1024)
    (hi : index.length = tablesFor data.length) (h25 : index.length ≤ 25)
    (hk : data.length = hdr.numSectors.toInt.toNat) (hroom : hdr.numBytes.toInt ≤ 128 * data.length)
    (hl : ∀ (j : Nat) t, index[j]? = some t → hdr.entry j = some (.ofNat 32 t))
    (hlead : Leads d index data) :
    ∃ nf : FileNode, nf.hdr = x ∧ nf.sectors = x :: (index ++ data) ∧ nf.fileType = hdr.fileType ∧
      nf.numVisits = hdr.numVisits ∧ nf.length = hdr.numBytes.toInt ∧
      nf.numSectors = hdr.numSectors.toInt ∧ nf.On (Function.update d x hdr.toSector) := by
  have hx : ∀ y ∈ index ++ data, Function.update d x hdr.toSector y = d y := fun y hy =>
    Function.update_of_ne (fun e : y = x => (List.nodup_cons.mp hnd).1 (e ▸ hy)) _ _
  have hh : hdrAt (Function.update d x hdr.toSector) x = hdr := by
    rw [hdrAt, Function.update_self, FileHeader.ofSector_toSector]
  refine ⟨{
    hdr := x
    index := index
    data := data
    fileType := hdr.fileType
    numVisits := hdr.numVisits
    length := hdr.numBytes.toInt
    numSectors := hdr.numSectors.toInt
    content := (blocks d data).take hdr.numBytes.toInt.toNat
    nodup := hnd
    lt := hlt
    tables := hi
    direct := h25
    count := hk
    room := hroom
    size := by
      rw [List.length_take, length_blocks]
      omega }, rfl, rfl, rfl, rfl, rfl, rfl, ?_, ?_, ?_, ?_, ?_, ?_, ?_⟩
  · exact congrArg FileHeader.fileType hh
  · exact congrArg FileHeader.numVisits hh
  · exact congrArg (fun h : FileHeader => h.numBytes.toInt) hh
  · exact congrArg (fun h : FileHeader => h.numSectors.toInt) hh
  · intro j t hj
    change (hdrAt (Function.update d x hdr.toSector) x).entry j = _
    rw [hh]
    exact hl j t hj
  · exact hlead.congr fun y hy => hx y (List.mem_append_left _ hy)
  · exact congrArg (·.take hdr.numBytes.toInt.toNat)
      (blocks_congr fun y hy => hx y (List.mem_append_right _ hy))

/-- When a `Create` that does not refuse has what it needs. -/
structure Volume.CanCreate (v : Volume) (p : Place) (name : CString) (n ty : Int) : Prop where
  thru : v.ThroughDirs [] (dirComps (components name))
  parent : v.walk [] (dirComps (components name)) = some p
  kind : ty = 0 ∨ ty = 1 ∧ 1 ≤ n
  range : -2147483648 ≤ n ∧ n < 2147483648
  heap : v.names.length + 1 < 2 ^ 32
  space : divRoundUp n 128 < v.map.numClear →
    (divRoundUp n 128).toNat + tablesFor (divRoundUp n 128).toNat < v.map.numClear ∧
      tablesFor (divRoundUp n 128).toNat ≤ 25

/-- `v'` is `v` with the new file `nf` under the name `c` in slot `i` of the directory at `p`. -/
structure Volume.Created (v v' : Volume) (p : Place) (i : Nat) (c : CString)
    (nf : FileNode) : Prop where
  unbound : v.child p c = none
  free : v.node (p ++ [i]) = none
  slot : i < 10
  names : v'.names = v.names ++ [c]
  label : v'.label = Function.update v.label (p ++ [i]) c
  mapFile : v'.mapFile.sectors = v.mapFile.sectors
  apart : v.Apart nf
  taken : ∃ L, L.Perm nf.sectors ∧ v.map.free = L ++ v'.map.free
  node : ∃ d d', v.node p = some d ∧ d.fileType = 1 ∧ d'.sectors = d.sectors ∧
    d'.numVisits = d.numVisits ∧
    v'.node = v.insertNode p i d' nf

theorem Volume.owned_insert {i a : Nat} {c : CString} {d d' : FileNode}
    (h : v.Inserts p i c a d d' nf)
    (x : Nat) : (v.insert p i c a d d' nf h).Owned x ↔ v.Owned x ∨ x ∈ nf.sectors := by
  constructor
  · rintro (hx | ⟨q, m, hm, hx⟩)
    · exact .inl (.inl hx)
    · by_cases hq : q = p ++ [i]
      · subst hq
        rw [show (v.insert p i c a d d' nf h).node _ = _ from Volume.insertNode_new,
          Option.some.injEq] at hm
        exact .inr (hm ▸ hx)
      · obtain ⟨m', hm', -, -, hs⟩ := h.old hq hm
        exact .inl (.inr ⟨q, m', hm', hs ▸ hx⟩)
  · rintro ((hx | ⟨q, m, hm, hx⟩) | hx)
    · exact .inl hx
    · by_cases hq : q = p
      · subst hq
        rw [h.dir, Option.some.injEq] at hm
        exact .inr ⟨q, d', Volume.insertNode_dir, by rw [h.sectors, hm]; exact hx⟩
      · have hne : q ≠ p ++ [i] := fun e => by
          rw [e, h.free] at hm
          cases hm
        exact .inr ⟨q, m, (Volume.insertNode_other hne hq).trans hm, hx⟩
    · exact .inr ⟨p ++ [i], nf, Volume.insertNode_new, hx⟩

theorem Volume.Marks.free_not_owned {lost : Set Nat} (h : v.Marks lost) {x : Nat}
    (hx : x ∈ v.map.free) :
    ¬ v.Owned x := fun ho => by
  have hb := ((h.used x).mpr (.inl ho)).2
  rw [(BitMap.mem_free.mp hx).2] at hb
  cases hb

theorem Volume.Marks.insert {lost : Set Nat} (h : v.Marks lost) {i a : Nat} {c : CString}
    {d d' : FileNode}
    (hi : v.Inserts p i c a d d' nf) {L : List Nat} (hxs : ∀ x, x ∈ L ↔ x ∈ nf.sectors)
    (hfree : ∀ x ∈ L, x ∈ v.map.free) (hm : (v.map.markAll L).numBits = 1024) :
    ((v.insert p i c a d d' nf hi).storeMap (v.map.markAll L) hm).Marks lost := by
  have hlt : ∀ x ∈ L, x < v.map.numBits := fun x hx => (BitMap.mem_free.mp (hfree x hx)).1
  have hown : ∀ x, ((v.insert p i c a d d' nf hi).storeMap (v.map.markAll L) hm).Owned x ↔
      v.Owned x ∨ x ∈ nf.sectors := Volume.owned_insert hi
  refine ⟨fun x => ?_, fun x hx => ?_⟩
  · rw [hown x, ← hxs x, show ((v.insert p i c a d d' nf hi).storeMap _ hm).map = v.map.markAll
      L from rfl,
      BitMap.testBit_markAll hlt]
    have hu := h.used x
    have hb := v.isMap.numBits
    have hx := hlt x
    by_cases hxx : x ∈ L
    · simp [hxx, hb ▸ hx hxx]
    · simpa [hxx] using hu
  · rw [hown x, not_or, ← hxs x]
    refine ⟨h.lost x hx, fun hxx => ?_⟩
    have hb := ((h.used x).mpr (.inr hx)).2
    rw [(BitMap.mem_free.mp (hfree x hxx)).2] at hb
    cases hb

theorem Rep.withName (hr : Rep s v) (c : CString) :
    Rep { s with names := s.names ++ [c] } (v.withName c) :=
  ⟨⟨hr.quiet.mutex, hr.quiet.arrayMutex⟩, congrArg (· ++ [c]) hr.names, hr.map, hr.on⟩

theorem Volume.slot_of_free {c : CString} {d : FileNode} {i : Nat} (hd : v.node p = some d)
    (ht : d.fileType = 1) (hc : v.child p c = none) (hpl : '/' ∉ c)
    (hh : v.names.length + 1 < 2 ^ 32)
    (hi : (entriesOf d.content).findIdx? (fun e => !e.inUse) = some i) :
    ∃ e, (entriesOf d.content)[i]? = some e ∧ (v.withName c).Slot p i c
      (v.names.length + 1) d e := by
  obtain ⟨hlt, hfree, -⟩ := List.findIdx?_eq_some_iff_getElem.mp hi
  have he := List.getElem?_eq_getElem hlt
  refine ⟨_, he, hd, ht, he, ?_, hc, hpl, ⟨by omega, hh⟩, ?_⟩
  · have hdesc := v.entry p d hd ht i _ he
    cases hn : v.node (p ++ [i]) with
    | none => exact hn
    | some m =>
      rw [hn] at hdesc
      simp [hdesc.1] at hfree
  · simp [Volume.withName]

theorem Volume.used_of_full {d : FileNode} (hd : v.node p = some d) (ht : d.fileType = 1)
    (hi : (entriesOf d.content).findIdx? (fun e => !e.inUse) = none) {i : Nat} (hlt : i < 10) :
    v.node (p ++ [i]) ≠ none := fun hn => by
  rw [← Volume.length_entries hd ht] at hlt
  have hdesc := v.entry p d hd ht i _ (List.getElem?_eq_getElem hlt)
  rw [hn] at hdesc
  have := List.findIdx?_eq_none_iff.mp hi _ (List.getElem_mem hlt)
  simp [show (entriesOf d.content)[i].inUse = false from hdesc] at this

theorem wp_createAdded {fs : FileSystem} {size ty : Int} {lost : Set Nat} {i a x : Nat}
    {c : CString}
    {d : FileNode} {e : DirectoryEntry} {rest : List Nat} {hdr₀ : FileHeader} (hr : Rep s v)
    (hmk : v.Marks lost) (hfs : s.OpenOn fs.freeMapFile 0) (hslot : v.Slot p i c a d e)
    (ho : s.OpenOn f d.hdr) (hfree : v.map.free = x :: rest) (hkind : ty = 0 ∨ ty = 1 ∧ 1 ≤ size)
    (hrange : -2147483648 ≤ size ∧ size < 2147483648)
    (hspace : divRoundUp size 128 < v.map.numClear →
      (divRoundUp size 128).toNat + tablesFor (divRoundUp size 128).toNat < v.map.numClear ∧
        tablesFor (divRoundUp size 128).toNat ≤ 25) {Q : Bool → Kernel → Prop}
    (hfalse : ∀ s', Rep s' v → Steady s s' → v.map.numClear ≤ divRoundUp size 128 → Q false s')
    (htrue : ∀ s' (nf : FileNode) (hi : v.Inserts p i c a d (hslot.dir' nf.hdr) nf) m' hm,
      Rep s' ((v.insert p i c a d (hslot.dir' nf.hdr) nf hi).storeMap m' hm) →
      ((v.insert p i c a d (hslot.dir' nf.hdr) nf hi).storeMap m' hm).Marks lost → Steady s s' →
      (∃ L, L.Perm nf.sectors ∧ v.map.free = L ++ m'.free) → nf.fileType = .ofInt 32 ty →
      nf.numVisits = hdr₀.numVisits →
      (ty = 0 → nf.length = size ∧ nf.numSectors = divRoundUp size 128) →
      nf.sectors.length = (divRoundUp size 128).toNat + tablesFor (divRoundUp size 128).toNat + 1 →
      Q true s') :
    Wp (hdr₀.allocate (v.map.markBit x) size ty) (fun r => Wp (if r.1 = true then do
        install fs r.2.1 x ty (addedTable d i a e x) f r.2.2
        return true
      else return false) Q) s := by
  have hclear : v.map.numClear = rest.length + 1 := by rw [BitMap.numClear_eq, hfree]; rfl
  have hfree' := BitMap.free_markBit hfree
  have hclear' : (v.map.markBit x).numClear = rest.length := by rw [BitMap.numClear_eq, hfree']
  by_cases hfew : ((v.map.markBit x).numClear : Int) < divRoundUp size 128
  · refine wp_allocate_refused hfew fun hdr s₁ hd hst => ?_
    simp only [Bool.false_eq_true, if_false, wp_pure]
    exact hfalse s₁ (hr.steady hst hd) hst (by omega)
  · obtain ⟨hsp, h25⟩ := hspace (by omega)
    set k := (divRoundUp size 128).toNat with hk
    have hL : rest.take (k + tablesFor k) ++ rest.drop (k + tablesFor k) = rest :=
      List.take_append_drop ..
    have hlen : (rest.take (k + tablesFor k)).length = k + tablesFor k := by
      rw [List.length_take]
      omega
    refine wp_allocate hrange.1 hrange.2 hk (by simpa using v.isMap.numBits) h25
      (hfree'.trans hL.symm) hlen
      fun hdr s₁ index data hp _ hidx hdl hent hty hvis hnb hns htb hst => ?_
    have hnd : (x :: (index ++ data)).Nodup := by
      have hnd := v.map.free_nodup
      rw [hfree, ← hL, ← List.cons_append] at hnd
      exact (hp.cons x).nodup_iff.mpr (List.nodup_append'.mp hnd).1
    have hsub : ∀ y ∈ x :: (index ++ data), y ∈ v.map.free := fun y hy => by
      rw [hfree]
      rcases List.mem_cons.mp hy with rfl | hy
      · exact List.mem_cons_self ..
      · exact List.mem_cons_of_mem _ (List.mem_of_mem_take (hp.subset hy))
    have hfits := (divRoundUp_range hrange.1 hrange.2).2.2
    have hlt : ∀ y ∈ x :: (index ++ data), y < 1024 := fun y hy =>
      v.isMap.numBits ▸ (BitMap.mem_free.mp (hsub y hy)).1
    obtain ⟨nf, rfl, hs, hnty, hnvis, hnlen, hnnum, hon⟩ := FileNode.exists_allocated hdr hnd hlt
      (by rw [hidx, hdl]) (by omega) (by rw [hns, hdl]) (by rw [hnb, hdl]; omega) hent htb.leads
    rw [← hs] at hsub
    have hap : v.Apart nf := by
      refine ⟨fun q n hn y hy hyn => ?_, fun y hy hyn => ?_⟩
      · exact hmk.free_not_owned (hsub y hy) (.inr ⟨q, n, hn, hyn⟩)
      · exact hmk.free_not_owned (hsub y hyn) (.inl hy)
    have hr₁ : Rep s₁ v := hr.frame hst hap fun y hy => htb.other y fun hyi => by
      rw [hs] at hy
      exact hy (List.mem_cons_of_mem _ (List.mem_append_left _ hyi))
    have hm : ((v.map.markBit nf.hdr).markAll (rest.take (k + tablesFor k))).numBits = 1024 := by
      simpa using v.isMap.numBits
    have hxs : ∀ y, y ∈ nf.hdr :: rest.take (k + tablesFor k) ↔ y ∈ nf.sectors := fun y => by
      rw [hs]
      exact ((hp.cons nf.hdr).mem_iff (a := y)).symm
    simp only [if_true, wp_then, wp_pure]
    refine wp_install hr₁ hslot hap hon (by omega) (hnty.trans hty)
      (fun h1 => by omega) (hst.openOn ho)
      (hst.openOn hfs) hm fun s₂ nf' hi hs' ht hv h0 hr₂ hst₂ => ?_
    refine htrue s₂ nf' hi _ hm hr₂ (hmk.insert hi (L := nf.hdr :: rest.take (k + tablesFor k))
      (fun y => ?_) (fun y hy => hsub y ((hxs y).mp hy)) hm) (hst.trans hst₂)
      ⟨nf.hdr :: rest.take (k + tablesFor k), ?_, ?_⟩
      (ht.trans (hnty.trans hty)) (hv.trans (hnvis.trans hvis)) (fun h0' => ?_) ?_
    · rw [hs', hxs]
    · rw [hs', hs]
      exact (hp.cons nf.hdr).symm
    · rw [BitMap.free_markAll (hfree'.trans hL.symm), List.cons_append, hL, hfree]
    · rw [h0 h0', hnlen, hnnum]
      exact ⟨hnb, hns⟩
    · rw [hs', hs, List.length_cons, hp.length_eq, hlen]

/-- Why `Create` may refuse: the name is bound, the directory is full, or too few sectors are
free. -/
def Volume.NoRoom (v : Volume) (p : Place) (c : CString) (size : Int) : Prop :=
  (∃ i, v.child p c = some i) ∨ (∀ i < 10, v.node (p ++ [i]) ≠ none) ∨ v.map.numClear = 0 ∨
    v.map.numClear ≤ divRoundUp size 128

theorem wp_create {fs : FileSystem} {name : CString} {size ty : Int} {lost : Set Nat} (hr : Rep s v)
    (hmk : v.Marks lost) (hfs : s.OpenOn fs.freeMapFile 0) (h : v.CanCreate p name size ty)
    {Q : Bool → Kernel → Prop}
    (hfalse : ∀ s' v', Rep s' v' → Kept s s' → v' = v ∨
      v' = v.withName (lastComp (components name)) →
      v.NoRoom p (lastComp (components name)) size → Q false s')
    (htrue : ∀ s' v' i nf, Rep s' v' → Kept s s' →
      v.Created v' p i (lastComp (components name)) nf →
      v'.Marks lost → nf.fileType = .ofInt 32 ty → (∃ t, nf.numVisits = s.host t 29) →
      (ty = 0 → nf.length = size ∧ nf.numSectors = divRoundUp size 128) →
      nf.sectors.length = (divRoundUp size 128).toNat + tablesFor (divRoundUp size 128).toNat + 1 →
      Q true s') :
    Wp (create fs name size ty) Q s := by
  rw [create, wp_then]
  refine wp_getFileName hr h.thru ?_ fun s₁ q d f hw => absurd hw (by rw [h.parent]; simp)
  intro s₁ q d f hw hr₁ hst₁ ho₁
  obtain rfl : p = q := Option.some.inj (h.parent.symm.trans hw)
  have hpl : '/' ∉ lastComp (components name) :=
    not_mem_of_mem_components (lastComp_mem (components_ne_nil name))
  generalize lastComp (components name) = c at hfalse htrue hpl ⊢
  simp only [wp_then]
  cases hc : v.child p c with
  | some i =>
    obtain ⟨⟨m, hm⟩, -⟩ := Volume.child_eq_some.mp hc
    have hpos : (m.hdr : Int) ≠ -1 := by omega
    rw [wp_lookup_found hr₁ ho₁.node ho₁.isDir hc hm, if_pos hpos, wp_pure]
    exact hfalse s₁ v hr₁ hst₁.toKept (.inl rfl) (.inl ⟨i, hc⟩)
  | none =>
    rw [wp_lookup_missing hr₁ ho₁.node ho₁.isDir hc, if_neg (by simp), wp_then,
      wp_freshMemory, wp_then]
    have hst₂ := Steady.tick s₁ (s₁.tick + 1)
    have hr₂ := hr₁.steady hst₂ rfl
    refine wp_fetchMap hr₂.quiet v.isMap hr₂.map ((hst₁.trans hst₂).openOn hfs)
      (BitMap.numBits_new _ _)
      fun s₃ hs₃ => ?_
    have hr₃ := hr₂.steady hs₃.toSteady hs₃.disk
    have hst₃ := (hst₁.trans hst₂).trans hs₃.toSteady
    have ho₃ := ho₁.steady (hst₂.trans hs₃.toSteady)
    match hfree : v.map.free with
    | [] =>
      simp only [BitMap.find_of_free_nil hfree, if_true, wp_pure]
      exact hfalse s₃ v hr₃ hst₃.toKept (.inl rfl)
        (.inr (.inr (.inl (by rw [BitMap.numClear_eq, hfree]; rfl))))
    | x :: rest =>
      have hx : ¬ (x : Int) = -1 := by omega
      simp only [BitMap.find_of_free_cons hfree, hx, if_false, wp_then]
      have hrd := Volume.readable ho₃.node ho₃.isDir
      have hcall := Volume.findIdx?_called (c := c) ho₃.node ho₃.isDir
      rw [hc] at hcall
      rw [← hr₃.names] at hrd hcall
      cases hi : (entriesOf d.content).findIdx? (fun e => !e.inUse) with
      | none =>
        rw [wp_add_full (d := ⟨entriesOf d.content⟩) hrd hcall hi]
        simp only [Bool.false_eq_true, if_false, wp_pure]
        exact hfalse s₃ v hr₃ hst₃.toKept (.inl rfl)
          (.inr (.inl fun i hlt => Volume.used_of_full ho₃.node ho₃.isDir hi hlt))
      | some i =>
        obtain ⟨e, he, hslot⟩ := Volume.slot_of_free ho₃.node ho₃.isDir hc hpl h.heap hi
        rw [wp_add (d := ⟨entriesOf d.content⟩) hrd hcall hi he (by rw [hr₃.names]; exact h.heap),
          show s₃.names.length = v.names.length by rw [hr₃.names]]
        simp only [if_true, wp_then, FileHeader.new, wp_freshMemory, wp_pure]
        have hr₄ := (hr₃.withName c).steady (Steady.tick _ (s₃.tick + 1)) rfl
        have hk₄ : Kept s₃ { s₃ with names := s₃.names ++ [c], tick := s₃.tick + 1 } :=
          ⟨rfl, rfl, rfl, le_rfl, fun _ _ => rfl, fun _ _ => rfl⟩
        have hk : Kept s { s₃ with names := s₃.names ++ [c], tick := s₃.tick + 1 } :=
          hst₃.toKept.trans hk₄
        refine wp_createAdded hr₄ ⟨hmk.used, hmk.lost⟩ (hk.openOn hfs) hslot
          (hk₄.openOn ho₃.openOn) hfree h.kind h.range h.space
          (fun s' hr' hst' hfew => hfalse s' _ hr' (hk.trans hst'.toKept) (.inr rfl)
            (.inr (.inr (.inr hfew))))
          fun s' nf hins m' hm hr' hmk' hst' htk hty hvis h0 hlen =>
            htrue s' _ i nf hr' (hk.trans hst'.toKept) ?_ hmk' hty ⟨s₃.tick, ?_⟩ h0 hlen
        · exact ⟨hc, hslot.free, hslot.lt, rfl, rfl, rfl, ⟨hins.apart, hins.map⟩, htk, d,
            hslot.dir' nf.hdr,
            ho₃.node, ho₃.isDir, rfl, rfl, rfl⟩
        · rw [hvis, ← hst₃.host]
          exact Sector.word_ofWords (i := 29) (by omega)

theorem Volume.binds_of_insertNode {v' : Volume} {name : CString} {i : Nat} {d' : FileNode}
    (hfree : v.node (p ++ [i]) = none)
    (hlabel : v'.label = Function.update v.label (p ++ [i]) (lastComp (components name)))
    (hnode : v'.node = v.insertNode p i d' nf)
    (hw : v.walk [] (dirComps (components name)) = some p) : v'.Binds name p i nf := by
  have hself : v'.node (p ++ [i]) = some nf := by rw [hnode, Volume.insertNode_new]
  have hother : ∀ t n, v.node t = some n → t ≠ p ++ [i] := by
    rintro t n hn rfl
    rw [hfree] at hn
    cases hn
  refine ⟨Volume.walk_congr hw (fun t n hn => ?_) fun t n _ hn => ?_,
    Volume.child_eq_some.mpr ⟨⟨nf, hself⟩, ?_⟩, hself⟩
  · rw [hlabel, Function.update_of_ne (hother t n hn)]
  · rw [hnode]
    by_cases ht : t = p
    · exact ⟨d', ht ▸ Volume.insertNode_dir⟩
    · exact ⟨n, (Volume.insertNode_other (hother t n hn) ht).trans hn⟩
  · rw [hlabel, Function.update_self]

theorem Volume.Created.binds {v' : Volume} {name : CString} {i : Nat}
    (h : v.Created v' p i (lastComp (components name)) nf)
    (hw : v.walk [] (dirComps (components name)) = some p) : v'.Binds name p i nf := by
  obtain ⟨d, d', -, -, -, -, hnode⟩ := h.node
  exact Volume.binds_of_insertNode h.free h.label hnode hw

theorem Volume.Created.below {v' : Volume} {c : CString} {i : Nat} (h : v.Created v' p i c nf)
    (j : Nat) : v'.node (p ++ [i] ++ [j]) = none := by
  obtain ⟨d, d', -, -, -, -, hnode⟩ := h.node
  have hne : p ++ [i] ++ [j] ≠ p := by
    intro he
    have := congrArg List.length he
    simp at this
  rw [hnode, Volume.insertNode_other (Volume.concat_ne (p ++ [i]) j) hne]
  exact Volume.node_below_none h.free (List.prefix_append ..)

theorem Volume.Created.new {v' : Volume} {c : CString} {i : Nat} (h : v.Created v' p i c nf) :
    v'.node (p ++ [i]) = some nf := by
  obtain ⟨d, d', -, -, -, -, hnode⟩ := h.node
  rw [hnode, Volume.insertNode_new]

theorem Rep.wp_createNew {fs : FileSystem} {lost : Set Nat} {name : CString} {size ty : Int}
    {d : FileNode} (hr : Rep s v) (hmk : v.Marks lost)
    (hfs : s.OpenOn fs.freeMapFile 0)
    (hw : v.walk [] (dirComps (components name)) = some p) (hd : v.node p = some d)
    (ht : d.fileType = 1) (hheap : v.names.length + 1 < 2 ^ 32)
    (hspace : sectorsFor (divRoundUp size 128).toNat + 1 ≤ v.map.numClear)
    (hnone : v.child p (lastComp (components name)) = none)
    (hslot : ∃ i < 10, v.node (p ++ [i]) = none) (hkind : ty = 0 ∨ ty = 1 ∧ 1 ≤ size)
    (h0 : 0 ≤ size) (hmax : size ≤ 102400) {Q : Bool → Kernel → Prop}
    (hQ : ∀ s' v' i nf, Rep s' v' → v'.Marks lost → Kept s s' →
      v.Created v' p i (lastComp (components name)) nf → nf.fileType = .ofInt 32 ty →
      (∃ t, nf.numVisits = s.host t 29) →
      nf.sectors.length = sectorsFor (divRoundUp size 128).toNat + 1 → Q true s') :
    Wp (create fs name size ty) Q s := by
  rw [sectorsFor, divRoundUp_128 h0] at hspace
  have hcan : v.CanCreate p name size ty := by
    refine ⟨Volume.throughDirs_of_walk hw hd ht, hw, hkind, by omega, hheap, fun _ => ?_⟩
    rw [divRoundUp_128 h0]
    refine ⟨by omega, ?_⟩
    rw [tablesFor]
    omega
  refine wp_create hr hmk hfs hcan (fun s' v' _ _ _ hno => ?_)
    fun s' v' i nf hr' hk hcr hmk' hty hvis _ hlen => ?_
  · -- there is no reason to refuse
    exfalso
    rcases hno with ⟨i, hi⟩ | hfull | hzero | hfew
    · rw [hnone] at hi
      cases hi
    · obtain ⟨i, hi, hfree⟩ := hslot
      exact hfull i hi hfree
    · omega
    · rw [divRoundUp_128 h0] at hfew
      omega
  · exact hQ s' v' i nf hr' hmk' hk hcr hty hvis hlen

theorem Volume.child_of_empty {c : CString} (h : ∀ j, v.node (p ++ [j]) = none) :
    v.child p c = none := by
  cases hc : v.child p c with
  | none => rfl
  | some j =>
    obtain ⟨⟨n, hn⟩, -⟩ := Volume.child_eq_some.mp hc
    rw [h] at hn
    cases hn

end Nachos
