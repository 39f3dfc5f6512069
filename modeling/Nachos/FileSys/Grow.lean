import Nachos.FileSys.Extend

/-! `WriteAt` behind the end of a file: what the write finds after `FileHeader::ExtendAllocate`. -/

namespace Nachos
open Lib Program FileHeader

variable {s : Kernel} {m : BitMap} {n mf : FileNode} {f : Handle}

/-! ## The free map's file -/

structure MapFile (mf : FileNode) (m : BitMap) : Prop where
  hdr : mf.hdr = 0
  numBits : m.numBits = 1024
  length : mf.length = 128
  content : mf.content = m.toBytes

theorem wp_fetchMap (hq : s.Quiet) (hmf : MapFile mf m) (hn : mf.On s.disk) (ho : s.OpenOn f 0)
    {m₀ : BitMap} (h₀ : m₀.numBits = 1024) {Q : BitMap → Kernel → Prop}
    (hQ : ∀ s', Fetched s s' f 0 → Q m s') :
    Wp (m₀.fetchFrom f) Q s := by
  have hw : m₀.numWords = 32 := by rw [BitMap.numWords, m₀.size, h₀]
  have hlen : mf.content.length = 128 := by rw [mf.size, hmf.length]; rfl
  simp only [BitMap.fetchFrom, wp_then, wp_pure, hw]
  rw [← hmf.hdr] at ho
  refine wp_readAt (p := 0) hq hn.holds ho (by omega) fun s' hs => ?_
  rw [List.drop_zero, List.take_of_length_le (by rw [hlen]; decide), hmf.content,
    BitMap.load_toBytes (h₀.trans hmf.numBits.symm)]
  exact hQ s' (hmf.hdr ▸ hs)

/-! ## The grown file -/

/-- The file may grow to `len` bytes by the index tables `index` and the data sectors `data`. -/
structure FileNode.Grows (n : FileNode) (index data : List Nat) (len : Nat) : Prop where
  nonneg : 0 ≤ n.numSectors
  nodup : (n.hdr :: ((n.index ++ index) ++ (n.data ++ data))).Nodup
  lt : ∀ x ∈ index ++ data, x < 1024
  tables : (n.index ++ index).length = tablesFor (n.data ++ data).length
  direct : (n.index ++ index).length ≤ 25
  room : len ≤ 128 * (n.data ++ data).length

/-- The grown file: behind its old end it has what the disk `d` has there. -/
def FileNode.grow {index data : List Nat} {len : Nat} (h : n.Grows index data len)
    (d : Nat → Sector) :
    FileNode where
  hdr := n.hdr
  index := n.index ++ index
  data := n.data ++ data
  fileType := n.fileType
  numVisits := n.numVisits
  length := len
  numSectors := n.numSectors + data.length
  content := (blocks d (n.data ++ data)).take len
  nodup := h.nodup
  lt x hx := by
    have hold := n.lt x
    have hnew := h.lt x
    simp only [List.mem_cons, List.mem_append] at hx hold hnew
    tauto
  tables := h.tables
  direct := h.direct
  count := by
    have h₁ := n.count
    have h₂ := h.nonneg
    rw [List.length_append]
    omega
  room := by exact_mod_cast h.room
  size := by
    have hr := h.room
    rw [List.length_take, length_blocks, Int.toNat_natCast]
    omega

theorem FileNode.on_grow {index data : List Nat} {len : Nat} (h : n.Grows index data len)
    {d d₀ : Nat → Sector} {hdr : FileHeader} (hd : d n.hdr = hdr.toSector)
    (htype : hdr.fileType = n.fileType) (hvis : hdr.numVisits = n.numVisits)
    (hlen : hdr.numBytes.toInt = len) (hnum : hdr.numSectors.toInt = n.numSectors + data.length)
    (hl : ∀ (j : Nat) t, (n.index ++ index)[j]? = some t → hdr.entry j = some (.ofNat 32 t))
    (ht : Leads d (n.index ++ index) (n.data ++ data)) (hb : ∀ x ∈ n.data ++ data, d x = d₀ x) :
    (FileNode.grow h d₀).On d := by
  have hh : hdrAt d n.hdr = hdr := by rw [hdrAt, hd, FileHeader.ofSector_toSector]
  refine ⟨?_, ?_, ?_, ?_, ?_, ht, ?_⟩
  · exact (congrArg FileHeader.fileType hh).trans htype
  · exact (congrArg FileHeader.numVisits hh).trans hvis
  · exact (congrArg (fun h : FileHeader => h.numBytes.toInt) hh).trans hlen
  · exact (congrArg (fun h : FileHeader => h.numSectors.toInt) hh).trans hnum
  · intro j t hj
    rw [show (FileNode.grow h d₀).hdr = n.hdr from rfl, hh]
    exact hl j t hj
  · exact congrArg (·.take len) (blocks_congr hb)

/-! ## `WriteAt` behind the end -/

/-- A file and the file of the free map, both on the disk of `s` and apart from each other, and
an object open on the former. -/
structure Sited (s : Kernel) (f : Handle) (n mf : FileNode) (m : BitMap) : Prop where
  quiet : s.Quiet
  on : n.On s.disk
  openOn : s.OpenOn f n.hdr
  mapFile : MapFile mf m
  map : mf.On s.disk
  apart : ∀ x ∈ mf.sectors, x ∉ n.sectors

/-- The object's header copy is fresh, too. -/
structure Growable (s : Kernel) (f : Handle) (n mf : FileNode) (m : BitMap) : Prop
    extends Sited s f n mf m where
  header : (s.files f).hdr.SameFile (hdrAt s.disk n.hdr)

theorem Sited.fetched {s' : Kernel} (h : Sited s f n mf m) (hs : Fetched s s' f n.hdr) :
    Growable s' f n mf m :=
  ⟨⟨hs.quiet h.quiet, hs.disk ▸ h.on, hs.openOn h.openOn, h.mapFile, hs.disk ▸ h.map, h.apart⟩,
    hs.disk ▸ hs.header⟩

theorem FileNode.hdr_not_mem (n : FileNode) :
    n.hdr ∉ n.index ++ n.data := (List.nodup_cons.mp n.nodup).1

/-- As `Sited`, but the file may be that of the free map. -/
structure Placed (s : Kernel) (f : Handle) (n mf : FileNode) (m : BitMap) : Prop where
  quiet : s.Quiet
  on : n.On s.disk
  openOn : s.OpenOn f n.hdr
  mapFile : MapFile mf m
  map : mf.On s.disk
  away : 0 ∉ n.index ++ n.data

theorem Sited.placed (h : Sited s f n mf m) : Placed s f n mf m where
  quiet := h.quiet
  on := h.on
  openOn := h.openOn
  mapFile := h.mapFile
  map := h.map
  away hm := h.apart 0 (h.mapFile.hdr ▸ List.mem_cons_self ..) (List.mem_cons_of_mem _ hm)

theorem extend_fetched (h : Placed s f n mf m) (hh : (s.files f).hdr.SameFile (hdrAt s.disk n.hdr))
    (e : Int) : ∃ s', Steady s s' ∧ s'.disk = visited s.disk 0 (s.host (s.tick + 1) 0) ∧
      (s'.files f).hdr.SameFile (hdrAt s'.disk n.hdr) ∧ s'.files f = s.files f ∧
      n.On s'.disk ∧ mf.On s'.disk ∧
      ∀ Q : Bool → Kernel → Prop, Wp (OpenFile.extend f e) Q s ↔
        Wp (extendAllocate f m e) (fun r => Wp (if r.1 = true then do
          let file ← getFile f
          file.hdr.writeBack file.hdrSectorNumber
          return true
        else return false) Q) s' := by
  have hm0 : (0 : Nat) ∉ mf.index ++ mf.data := by
    have := mf.hdr_not_mem
    rwa [h.mapFile.hdr] at this
  have hst₀ := Steady.tick s (s.tick + 1)
  obtain ⟨_, s₁, ⟨rfl, ho₁⟩, hwp₁⟩ :=
    (wp_openFile_visited (h := 0) (hst₀.quiet h.quiet) (by decide)).exists_iff
  have hst₁ := hst₀.trans ho₁.steady
  have hd₁ : s₁.disk = visited s.disk 0 (s.host (s.tick + 1) 0) := ho₁.disk
  have htc := touched_visited s.disk 0 (s.host (s.tick + 1) 0)
  rw [← hd₁] at htc
  obtain ⟨_, s₂, ⟨rfl, hs₂⟩, hwp₂⟩ := (wp_fetchMap (hst₁.quiet h.quiet) h.mapFile
    (h.map.touched htc hm0) ho₁.openOn (BitMap.numBits_new (s.host s.tick) 1024)
    (Q := fun r s' => r = m ∧ Fetched s₁ s' _ 0) fun s' hs' => ⟨rfl, hs'⟩).exists_iff
  have hst₂ := hst₁.trans hs₂.toSteady
  have hfile : s₂.files f = s.files f := by
    rw [hs₂.others f (Nat.ne_of_lt h.openOn.1), ho₁.others f h.openOn.1]
  rw [← hs₂.disk] at htc
  refine ⟨s₂, hst₂, hs₂.disk.trans hd₁, ?_, hfile, h.on.touched htc h.away,
    h.map.touched htc hm0, fun Q => ?_⟩
  · rw [hfile]
    refine hh.trans ?_
    by_cases hz : n.hdr = 0
    · rw [hz]
      exact htc.header.symm
    · rw [hdrAt, hdrAt, htc.other _ hz]
      exact .refl _
  · simp only [OpenFile.extend, wp_then, wp_freshMemory]
    exact (hwp₁ _).trans (hwp₂ _)

theorem wp_extend_fetched (h : Growable s f n mf m) {e : Int} {Q : Bool → Kernel → Prop}
    (hQ : ∀ s', Growable s' f n mf m → Steady s s' → Touched 0 s.disk s'.disk →
      Wp (extendAllocate f m e) (fun r => Wp (if r.1 = true then do
        let file ← getFile f
        file.hdr.writeBack file.hdrSectorNumber
        return true
      else return false) Q) s') :
    Wp (OpenFile.extend f e) Q s := by
  obtain ⟨s', hst, hd, hh, -, hon, hmap, hwp⟩ := extend_fetched h.placed h.header e
  refine (hwp Q).mpr (hQ s' ⟨⟨hst.quiet h.quiet, hon, hst.openOn h.openOn, h.mapFile, hmap, h.apart⟩,
    hh⟩ hst ?_)
  rw [hd]
  exact touched_visited ..

theorem wp_extend_refused (h : Growable s f n mf m) {e : Int}
    (hgt : ¬ divRoundUp (int32 (n.length + e)) 128 ≤ n.numSectors)
    (hfew : (m.numClear : Int) < divRoundUp e 128) {Q : Bool → Kernel → Prop}
    (hQ : ∀ s', Steady s s' → Touched 0 s.disk s'.disk → Q false s') :
    Wp (OpenFile.extend f e) Q s := by
  refine wp_extend_fetched h fun s₁ h₁ hst htc => ?_
  have hb : (s₁.files f).hdr.numBytes.toInt = n.length := by rw [h₁.header.numBytes, h₁.on.length]
  have hs : (s₁.files f).hdr.numSectors.toInt = n.numSectors := by
    rw [h₁.header.numSectors, h₁.on.numSectors]
  simp only [extendAllocate, getHdr, modifyHdr, wp_then, wp_getFile, wp_pure, hb, hs, if_neg hgt,
    wp_setFile, if_pos hfew, Bool.false_eq_true, if_false]
  exact hQ _ (hst.trans (.setHdr ..)) htc

theorem ofInt_add_int32 (w : Word) (e : Int) :
    BitVec.ofInt 32 (w.toInt + int32 e) = BitVec.ofInt 32 (w.toInt + e) := by
  simp only [int32, BitVec.ofInt_add, BitVec.ofInt_toInt]

structure Grown (s s' : Kernel) (f : Handle) (n n' mf : FileNode) (m : BitMap) : Prop where
  steady : Steady s s'
  growable : Growable s' f n' mf m
  other : ∀ x, x ≠ 0 → x ∉ n.hdr :: n'.index → s'.disk x = s.disk x

/-- The index tables of the grown file are on the disk, and the object has its header. -/
structure Taken (s s' : Kernel) (f : Handle) (n : FileNode) (index data : List Nat) (len : Nat) :
    Prop where
  steady : Steady s s'
  fileType : (s'.files f).hdr.fileType = n.fileType
  numVisits : (s'.files f).hdr.numVisits = n.numVisits
  numBytes : (s'.files f).hdr.numBytes.toInt = len
  numSectors : (s'.files f).hdr.numSectors.toInt = n.numSectors + data.length
  lists : ∀ (j : Nat) t, (n.index ++ index)[j]? = some t → (s'.files f).hdr.entry j = some
    (.ofNat 32 t)
  leads : Leads s'.disk (n.index ++ index) (n.data ++ data)
  mapHeader : (hdrAt s'.disk 0).SameFile (hdrAt s.disk 0)
  other : ∀ x, x ≠ 0 → x ∉ n.index ++ index → s'.disk x = s.disk x

theorem Taken.grown {s' : Kernel} (h : Growable s f n mf m) {index data : List Nat} {len : Nat}
    (ht : Taken s s' f n index data len) (hg : n.Grows index data len)
    (hnew : ∀ x ∈ mf.sectors, x ∉ index ++ data) :
    Grown s (s'.setDisk n.hdr (s'.files f).hdr.toSector) f n (FileNode.grow hg s.disk) mf m := by
  have hst := ht.steady
  have hnd := List.nodup_cons.mp hg.nodup
  have hid : ∀ x ∈ n.data ++ data, x ∉ n.index ++ index := fun x hx hi =>
    (List.nodup_append'.mp hnd.2).2.2 hi hx
  have hh : ∀ x ∈ (n.index ++ index) ++ (n.data ++ data), x ≠ n.hdr := fun x hx e => hnd.1 (e ▸ hx)
  have hmz : mf.hdr = 0 := h.mapFile.hdr
  have h0s : (0 : Nat) ∈ mf.sectors := hmz ▸ List.mem_cons_self ..
  have hmap : ∀ x ∈ mf.sectors, x ≠ n.hdr ∧ x ∉ n.index ++ index ∧ x ∉ n.data ++ data := by
    intro x hx
    have h₁ := h.apart x hx
    have h₂ := hnew x hx
    simp only [FileNode.sectors, List.mem_cons, List.mem_append, not_or] at h₁ h₂ ⊢
    exact ⟨h₁.1, ⟨h₁.2.1, h₂.1⟩, h₁.2.2, h₂.2⟩
  have hwrite : ∀ x, x ≠ n.hdr → (s'.setDisk n.hdr (s'.files f).hdr.toSector).disk x = s'.disk x :=
    fun x hx => Function.update_of_ne hx _ _
  have hother' : ∀ x, x ≠ 0 → x ∉ n.hdr :: (n.index ++ index) →
      (s'.setDisk n.hdr (s'.files f).hdr.toSector).disk x = s.disk x := by
    intro x hx hxi
    obtain ⟨hxh, hxi⟩ := List.ne_and_not_mem_of_not_mem_cons hxi
    rw [hwrite x hxh, ht.other x hx hxi]
  refine ⟨hst.trans (.setDisk ..), ⟨⟨?_, ?_, ?_, h.mapFile, ?_, ?_⟩, ?_⟩, hother'⟩
  · exact (hst.trans (.setDisk ..)).quiet h.quiet
  · refine FileNode.on_grow hg (Function.update_self ..) ht.fileType ht.numVisits ht.numBytes
      ht.numSectors
      ht.lists ?_ fun x hx => ?_
    · exact ht.leads.congr fun x hx => hwrite x (hh x (List.mem_append_left _ hx))
    · have hx0 : x ≠ 0 := fun e => (hmap 0 h0s).2.2 (e ▸ hx)
      refine hother' x hx0 fun hm => ?_
      rcases List.mem_cons.mp hm with hm | hm
      · exact hh x (List.mem_append_right _ hx) hm
      · exact hid x hx hm
  · exact (hst.trans (.setDisk ..)).openOn h.openOn
  · refine h.map.congr ?_ fun x hx => ?_
    · rw [hmz, hdrAt, hwrite 0 (hmap 0 h0s).1]
      exact ht.mapHeader
    · have hxm := hmap x (List.mem_cons_of_mem _ hx)
      have hx0 : x ≠ 0 := fun e => mf.hdr_not_mem (by rw [hmz, ← e]; exact hx)
      refine hother' x hx0 fun hm => ?_
      rcases List.mem_cons.mp hm with hm | hm
      · exact hxm.1 hm
      · exact hxm.2.1 hm
  · intro x hx
    have hxm := hmap x hx
    simp only [FileNode.sectors, FileNode.grow, List.mem_cons, List.mem_append] at hxm ⊢
    tauto
  · rw [show (FileNode.grow hg s.disk).hdr = n.hdr from rfl, hdrAt, Kernel.setDisk_disk,
      Function.update_self, FileHeader.ofSector_toSector]
    exact .refl _

theorem FileNode.grows_within {len : Nat} (h : (len : Int) ≤ 128 * n.numSectors) :
    n.Grows [] [] len where
  nonneg := by omega
  nodup := by simpa using n.nodup
  lt := by simp
  tables := by simpa [tablesFor] using n.tables
  direct := by simpa using n.direct
  room := by
    have := n.count
    rw [List.append_nil]
    omega

theorem wp_extend_within (h : Growable s f n mf m) {len : Nat}
    (hroom : (len : Int) ≤ 128 * n.numSectors) {Q : Bool → Kernel → Prop}
    (hQ : ∀ s', Grown s s' f n (FileNode.grow (FileNode.grows_within hroom) s.disk) mf m →
      Q true s') :
    Wp (OpenFile.extend f (int32 (len - n.length))) Q s := by
  refine wp_extend_fetched h fun s₁ h₁ hst htc => ?_
  have hb : (s₁.files f).hdr.numBytes.toInt = n.length := by rw [h₁.header.numBytes, h₁.on.length]
  have hs : (s₁.files f).hdr.numSectors.toInt = n.numSectors := by
    rw [h₁.header.numSectors, h₁.on.numSectors]
  have hcount := n.count
  have hle := n.data_length_le
  have hsum : BitVec.ofInt 32 (n.length + int32 (len - n.length)) = BitVec.ofInt 32 len := by
    rw [← hb, ofInt_add_int32]
    congr 1
    omega
  have hnew : int32 (n.length + int32 (len - n.length)) = len := by
    rw [int32, hsum]
    exact toInt_ofInt_of_range (by omega) (by omega)
  have hfits : divRoundUp (len : Int) 128 ≤ n.numSectors := by
    rw [divRoundUp_of_nonneg (by omega)]
    split <;> omega
  simp only [extendAllocate, getHdr, modifyHdr, wp_then, wp_getFile, wp_pure, hb, hs, hnew,
    if_pos hfits,
    hsum, wp_setFile, if_true]
  generalize hs₂ : Kernel.setFile s₁ f _ = s₂
  have hst₂ : Steady s s₂ := by
    rw [← hs₂]
    exact hst.trans (.setHdr ..)
  have hd₂ : s₂.disk = s₁.disk := by rw [← hs₂]; rfl
  have hh₂ : (s₂.files f).hdr = { (s₁.files f).hdr with numBytes := .ofInt 32 len } := by
    rw [← hs₂]
    simp only [Kernel.setFile_files, Function.update_self]
  rw [(hst₂.openOn h.openOn).2, writeBack, wp_writeSector n.hdr_lt]
  refine hQ _ (Taken.grown h ⟨hst₂, ?_, ?_, ?_, ?_, ?_, ?_, ?_, fun x hx _ => ?_⟩ _ (by simp))
  · rw [hh₂]
    exact h₁.header.fileType.trans h₁.on.fileType
  · rw [hh₂]
    exact h₁.header.numVisits.trans h₁.on.numVisits
  · rw [hh₂]
    exact toInt_ofInt_of_range (by omega) (by omega)
  · rw [hh₂]
    simpa using hs
  · intro j t hj
    rw [hh₂]
    exact (h₁.on.lists.congr h₁.header) j t (by simpa using hj)
  · rw [hd₂, List.append_nil, List.append_nil]
    exact h₁.on.tables
  · rw [hd₂]
    exact htc.header
  · rw [hd₂, htc.other x hx]

theorem FileNode.nodup_extend {index data : List Nat} (hnd : (index ++ data).Nodup)
    (hd : ∀ x ∈ index ++ data, x ∉ n.sectors) :
    (n.hdr :: ((n.index ++ index) ++ (n.data ++ data))).Nodup := by
  have hp : ((n.index ++ index) ++ (n.data ++ data)).Perm
    ((n.index ++ n.data) ++ (index ++ data)) := by
    rw [List.append_assoc, List.append_assoc]
    exact (List.perm_append_comm_assoc index n.data data).append_left _
  rw [(hp.cons n.hdr).nodup_iff, ← List.cons_append, List.nodup_append']
  exact ⟨n.nodup, hnd, fun x hx hx' => hd x hx' hx⟩

theorem wp_extend_taken (h : Growable s f n mf m) {len extra : Nat} {L rest : List Nat}
    (hpos : 0 ≤ n.length) (hnum : n.numSectors = n.data.length)
    (hlen : 128 * n.data.length < len) (hlen' : len < 2147483648)
    (hextra : (extra : Int) = divRoundUp (len - n.length) 128)
    (h25 : tablesFor (n.data.length + extra) ≤ 25) (hf : m.free = L ++ rest)
    (hL : L.length = extra + (tablesFor (n.data.length + extra) - n.index.length))
    (hnew : ∀ x ∈ n.index, x ∉ L) (hL0 : 0 ∉ L) {Q : Bool → Kernel → Prop}
    (hQ : ∀ s' index data, (index ++ data).Perm L → data.length = extra →
      (n.index ++ index).length = tablesFor (n.data.length + extra) →
      (extra ≤ lastRoom n.data.length → data = L) → Taken s s' f n index data len →
      Q true (s'.setDisk n.hdr (s'.files f).hdr.toSector)) :
    Wp (OpenFile.extend f (int32 (len - n.length))) Q s := by
  refine wp_extend_fetched h fun s₁ h₁ hst htc => ?_
  have hb : (s₁.files f).hdr.numBytes.toInt = n.length := by rw [h₁.header.numBytes, h₁.on.length]
  have hs : (s₁.files f).hdr.numSectors.toInt = n.numSectors := by
    rw [h₁.header.numSectors, h₁.on.numSectors]
  have hroom := n.room
  have hle := n.data_length_le
  have hi : int32 (len - n.length) = len - n.length := int32_of_range (by omega) (by omega)
  have hsum : n.length + (len - n.length) = len := by omega
  have hgt : ¬ divRoundUp (int32 (len : Int)) 128 ≤ n.numSectors := by
    rw [int32_of_range (by omega) (by omega), divRoundUp_of_nonneg (by omega)]
    split <;> omega
  have hclear : ¬ (m.numClear : Int) < extra := by
    rw [BitMap.numClear_eq, hf, List.length_append]
    omega
  simp only [extendAllocate, getHdr, modifyHdr, wp_then, wp_getFile, wp_pure, hb, hs, hi, hsum,
    if_neg hgt,
    wp_setFile, ← hextra, if_neg hclear, if_true]
  generalize hs₂ : Kernel.setFile s₁ f _ = s₂
  have hst₂ : Steady s s₂ := by
    rw [← hs₂]
    exact hst.trans (.setHdr ..)
  have hd₂ : s₂.disk = s₁.disk := by rw [← hs₂]; rfl
  have hh₂ : (s₂.files f).hdr = { (s₁.files f).hdr with numBytes := .ofInt 32 len } := by
    rw [← hs₂]
    simp only [Kernel.setFile_files, Function.update_self]
  have hl₂ : n.Lists (s₂.files f).hdr := by
    rw [hh₂]
    exact fun j t hj => h₁.on.lists.congr h₁.header j t hj
  have hnum₂ : (s₂.files f).hdr.numSectors.toInt = n.data.length := by
    rw [hh₂, ← hnum]
    exact hs
  refine wp_takeSectors (X := n.extent) hl₂ (hd₂ ▸ h₁.on.tables) hnum₂ h.mapFile.numBits h25 hf hL
    hnew fun s₃ index data hp _ hdl hidx hin hl₃ hh₃ hst₃ hd₃ hlead => ?_
  rw [hh₂, show n.extent.data = n.data from rfl] at hh₃
  rw [((hst₂.trans hst₃).openOn h.openOn).2, writeBack, wp_writeSector n.hdr_lt]
  have hcap : n.data.length + extra ≤ 800 := by
    rw [tablesFor] at h25
    omega
  have h0 : (0 : Nat) ∉ n.index ++ index := by
    have h0m : (0 : Nat) ∈ mf.sectors := h.mapFile.hdr ▸ List.mem_cons_self ..
    rw [List.mem_append, not_or]
    exact ⟨fun hi => h.apart 0 h0m (List.mem_cons_of_mem _ (List.mem_append_left _ hi)),
      fun hi => hL0 (hp.subset (List.mem_append_left _ hi))⟩
  refine hQ _ index data hp hdl hidx hin
    ⟨hst₂.trans hst₃, ?_, ?_, ?_, ?_, hl₃, hlead, ?_, fun x hx hxi => ?_⟩
  · rw [hh₃]
    exact h₁.header.fileType.trans h₁.on.fileType
  · rw [hh₃]
    exact h₁.header.numVisits.trans h₁.on.numVisits
  · rw [hh₃]
    exact toInt_ofInt_of_range (by omega) (by omega)
  · rw [hh₃, hnum, hdl]
    exact toInt_ofInt_of_range (by omega) (by omega)
  · rw [hdrAt, hd₃ 0 h0, hd₂]
    exact htc.header
  · rw [hd₃ x hxi, hd₂, htc.other x hx]

theorem wp_extend_alloc (h : Growable s f n mf m) {len extra : Nat} {L rest : List Nat}
    (hpos : 0 ≤ n.length) (hnum : n.numSectors = n.data.length)
    (hlen : 128 * n.data.length < len) (hlen' : len < 2147483648)
    (hextra : (extra : Int) = divRoundUp (len - n.length) 128)
    (h25 : tablesFor (n.data.length + extra) ≤ 25) (hf : m.free = L ++ rest)
    (hL : L.length = extra + (tablesFor (n.data.length + extra) - n.index.length))
    (hused : ∀ x ∈ n.sectors ++ mf.sectors, m.testBit x = true) {Q : Bool → Kernel → Prop}
    (hQ : ∀ s' index data, (index ++ data).Perm L → data.length = extra →
      (extra ≤ lastRoom n.data.length → data = L) →
      ∀ hg : n.Grows index data len, Grown s s' f n (FileNode.grow hg s.disk) mf m → Q true s') :
    Wp (OpenFile.extend f (int32 (len - n.length))) Q s := by
  have hfree : ∀ x ∈ L, x ∉ n.sectors ∧ x ∉ mf.sectors := by
    intro x hx
    rw [← not_or, ← List.mem_append]
    intro hu
    have hxf := (BitMap.mem_free.mp (hf ▸ List.mem_append_left _ hx)).2
    rw [hused x hu] at hxf
    cases hxf
  have h0m : (0 : Nat) ∈ mf.sectors := h.mapFile.hdr ▸ List.mem_cons_self ..
  refine wp_extend_taken h hpos hnum hlen hlen' hextra h25 hf hL
    (fun x hx hxL => (hfree x hxL).1 (List.mem_cons_of_mem _ (List.mem_append_left _ hx)))
    (fun h0 => (hfree 0 h0).2 h0m) fun s' index data hp hdl hidx hin ht => ?_
  have hsub : ∀ x ∈ index ++ data, x ∉ n.sectors ∧ x ∉ mf.sectors := fun x hx =>
    hfree x (hp.subset hx)
  have hLnd : (index ++ data).Nodup := hp.nodup_iff.mpr
    (List.nodup_append'.mp (hf ▸ m.free_nodup)).1
  have hg : n.Grows index data len := by
    refine ⟨by omega, FileNode.nodup_extend hLnd fun x hx => (hsub x hx).1,
      fun x hx => ?_, ?_, ?_, ?_⟩
    · exact h.mapFile.numBits ▸ (BitMap.mem_free.mp (hf ▸ List.mem_append_left _ (hp.subset hx))).1
    · rw [show (n.data ++ data).length = n.data.length + extra by rw [List.length_append, hdl]]
      exact hidx
    · rw [hidx]
      exact h25
    · have hroom := n.room
      have := (divRoundUp_range (x := len - n.length) (by omega) (by omega)).2.2
      rw [List.length_append]
      omega
  exact hQ _ index data hp hdl hin hg (ht.grown h hg fun x hx hxi => (hsub x hxi).2 hx)

theorem wp_writeAt_grown (h : Sited s f n mf m) {src : List Byte} {p : Nat} (hk : 0 < src.length)
    (hgt : n.length < p + src.length) (hlen : p + src.length < 2147483648) {R : FileNode → Prop}
    (hR : ∀ n', R n' → n'.length = (p + src.length : Nat)) {Q : Int → Kernel → Prop}
    (hext : ∀ s₁, Growable s₁ f n mf m → Steady s s₁ → s₁.disk = s.disk →
      Wp (OpenFile.extend f (int32 ((p + src.length : Nat) - n.length)))
        (fun ok s₂ => ok = true ∧ ∃ n', R n' ∧ Grown s₁ s₂ f n n' mf m) s₁)
    (hQ : ∀ s' n' (hn' : R n'), Steady s s' →
      (n'.overwrite p src (by rw [hR n' hn']; omega)).On s'.disk → mf.On s'.disk →
      (∀ x, x ≠ 0 → x ∉ n.hdr :: (n'.index ++ n'.data) → s'.disk x = s.disk x) → Q src.length s') :
    Wp (OpenFile.writeAt f src p) Q s := by
  refine wp_writeAt_fetched h.quiet h.on.holds h.openOn fun s₁ hs => ?_
  have hgt' : int32 ((src.length : Int) + p - n.length) = int32
    ((p + src.length : Nat) - n.length) := by
    congr 1
    omega
  rw [if_neg (by omega), wp_then, OpenFile.makeRoom,
    if_pos (by rw [int32_of_range (by omega) (by omega)]; omega), hgt']
  refine (hext s₁ (h.fetched hs) hs.toSteady hs.disk).mono fun ok s₂ hok => ?_
  obtain ⟨rfl, n', hn', hg⟩ := hok
  have hle : (p + src.length : Int) ≤ n'.length := by rw [hR n' hn']; omega
  rw [if_pos rfl]
  refine wp_writeRange hg.growable.quiet hg.growable.on hg.growable.openOn hg.growable.header hk hle
    fun s₃ hst hon hd => ?_
  have hmd : ∀ x ∈ mf.sectors, x ∉ n'.data := fun x hx hxd =>
    hg.growable.apart x hx (List.mem_cons_of_mem _ (List.mem_append_right _ hxd))
  refine hQ s₃ n' hn' (hs.toSteady.trans (hg.steady.trans hst)) hon ?_ fun x hx hxn => ?_
  · refine hg.growable.map.congr ?_ fun x hx => hd x (hmd x (List.mem_cons_of_mem _ hx))
    rw [hdrAt, hd _ (hmd _ (List.mem_cons_self ..))]
    exact .refl _
  · obtain ⟨hxh, hxn⟩ := List.ne_and_not_mem_of_not_mem_cons hxn
    rw [List.mem_append, not_or] at hxn
    rw [hd x hxn.2, hg.other x hx (by simp [hxh, hxn.1]), hs.disk]

theorem wp_writeAt_within (h : Sited s f n mf m) {src : List Byte} {p : Nat} (hk : 0 < src.length)
    (hgt : n.length < p + src.length) (hroom : ((p + src.length : Nat) : Int) ≤ 128 * n.numSectors)
    {Q : Int → Kernel → Prop}
    (hQ : ∀ s', Steady s s' → ((FileNode.grow (FileNode.grows_within hroom) s.disk).overwrite p src
        (Int.le_refl _)).On s'.disk → mf.On s'.disk →
      (∀ x, x ≠ 0 → x ∉ n.sectors → s'.disk x = s.disk x) → Q src.length s') :
    Wp (OpenFile.writeAt f src p) Q s := by
  have hcount := n.count
  have hle := n.data_length_le
  refine wp_writeAt_grown h hk hgt (by omega)
    (R := (· = FileNode.grow (FileNode.grows_within hroom) s.disk)) (by rintro _ rfl; rfl)
    (fun s₁ h₁ _ hd => wp_extend_within h₁ hroom fun s₂ hg => ⟨rfl, _, by rw [hd], hg⟩) ?_
  rintro s' _ rfl hst hon hmf hd
  refine hQ s' hst hon hmf fun x hx hxn => hd x hx ?_
  simpa [FileNode.sectors, FileNode.grow] using hxn

theorem wp_writeAt_alloc (h : Sited s f n mf m) {src : List Byte} {p extra : Nat}
    {L rest : List Nat}
    (hpos : 0 ≤ n.length) (hnum : n.numSectors = n.data.length)
    (hlen : 128 * n.data.length < p + src.length) (hlen' : p + src.length < 2147483648)
    (hk : 0 < src.length) (hextra : (extra : Int) = divRoundUp
      ((p + src.length : Nat) - n.length) 128)
    (h25 : tablesFor (n.data.length + extra) ≤ 25) (hf : m.free = L ++ rest)
    (hL : L.length = extra + (tablesFor (n.data.length + extra) - n.index.length))
    (hused : ∀ x ∈ n.sectors ++ mf.sectors, m.testBit x = true) {Q : Int → Kernel → Prop}
    (hQ : ∀ s' index data, (index ++ data).Perm L → data.length = extra →
      (extra ≤ lastRoom n.data.length → data = L) → ∀ hg :
        n.Grows index data (p + src.length), Steady s s' →
      ((FileNode.grow hg s.disk).overwrite p src (Int.le_refl _)).On s'.disk → mf.On s'.disk →
      (∀ x, x ≠ 0 → x ∉ n.sectors → x ∉ L → s'.disk x = s.disk x) → Q src.length s') :
    Wp (OpenFile.writeAt f src p) Q s := by
  have hroom := n.room
  refine wp_writeAt_grown h hk (by omega) (by omega)
    (R := fun n' => ∃ index data, (index ++ data).Perm L ∧ data.length = extra ∧
      (extra ≤ lastRoom n.data.length → data = L) ∧ ∃ hg :
        n.Grows index data (p + src.length), n' = FileNode.grow hg s.disk)
    (by rintro _ ⟨_, _, _, _, _, _, rfl⟩; rfl) (fun s₁ h₁ _ hd => ?_) ?_
  · refine wp_extend_alloc h₁ hpos hnum hlen hlen' hextra h25 hf hL hused
      fun s₂ index data hp hdl hin hg hgr => ⟨rfl, _, ⟨index, data, hp, hdl, hin, hg, ?_⟩, hgr⟩
    rw [hd]
  · rintro s' _ ⟨index, data, hp, hdl, hin, hg, rfl⟩ hst hon hmf hd
    refine hQ s' index data hp hdl hin hg hst hon hmf fun x hx hxn hxL => hd x hx ?_
    have hxi : x ∉ index ++ data := fun hm => hxL (hp.subset hm)
    simp only [FileNode.sectors, FileNode.grow, List.mem_cons, List.mem_append] at hxn hxi ⊢
    tauto

theorem wp_writeAt_refused (h : Sited s f n mf m) {src : List Byte} {p : Nat}
    (hlen : 128 * n.numSectors < p + src.length) (hlen' : p + src.length < 2147483648)
    (hpos : 0 ≤ n.length) (hgt : n.length < p + src.length) (hk : 0 < src.length)
    (hfew : (m.numClear : Int) < divRoundUp ((p + src.length : Nat) - n.length) 128)
    {Q : Int → Kernel → Prop}
    (hQ : ∀ s', Steady s s' → Touched 0 s.disk s'.disk → Q 0 s') :
    Wp (OpenFile.writeAt f src p) Q s := by
  refine wp_writeAt_fetched h.quiet h.on.holds h.openOn fun s₁ hs => ?_
  have hi : int32 ((src.length : Int) + p - n.length) = (p + src.length : Nat) - n.length := by
    rw [int32_of_range (by omega) (by omega)]
    omega
  rw [if_neg (by omega), wp_then, OpenFile.makeRoom,
    if_pos (by rw [int32_of_range (by omega) (by omega)]; omega), hi]
  refine wp_extend_refused (h.fetched hs) ?_ hfew fun s₂ hst htc => ?_
  · rw [int32_of_range (by omega) (by omega), divRoundUp_of_nonneg (by omega)]
    split <;> omega
  · rw [if_neg Bool.false_ne_true, wp_pure]
    exact hQ s₂ (hs.toSteady.trans hst) (hs.disk ▸ htc)

end Nachos
