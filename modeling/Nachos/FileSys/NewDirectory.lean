import Nachos.FileSys.CreateFrame

/-! Directories that `Create` makes. A new directory of size 0 has no sector for its table, so that
the table is written behind the end of the file. `WriteAt` reads the free map from the disk, where
the sector of the new header is still clear, and takes it for the index table of the same file. -/

namespace Nachos
open Lib Program FileSystem FileHeader

variable {s s' : Kernel} {v : Volume} {p : Place} {n mf : FileNode} {f : Handle} {m : BitMap}
  {x : Nat}

/-! ## A header that is its own index table -/

def NoSector (y : Int) : Prop := ¬ (0 ≤ y ∧ y < 1024)

theorem not_wp_rwP_of_noSector {y : Int} (h : NoSector y) {Q : Unit → Kernel → Prop} :
    ¬ Wp (rwP y) Q s :=
  not_wp_of_fault (by simp only [Kernel.exec, if_neg h])

theorem not_wp_lockSectors_first (ha : s.arrayMutex ≠ 0) (hx : x < 1024)
    (he : (s.files f).hdr.entry 0 = some (.ofNat 32 x)) (hw : NoSector ((s.disk x).word 0).toInt)
    {Q : Unit → Kernel → Prop} : ¬ Wp (OpenFile.lockSectors f [0]) Q s := by
  have h0 : ((0 : Int) * 128).tdiv 4096 = 0 := rfl
  have h1 : (((0 : Int) * 128).tmod 4096).tdiv 128 = 0 := rfl
  simp only [OpenFile.lockSectors, wp_then, wp_arrP ha, List.forM_cons, byteToSector, getHdr,
    wp_getFile, wp_pure, h0, h1, he, wp_orFault_some, toInt_ofNat_sector hx, wp_readSector hx,
    wp_assert (decide_eq_true (le_refl (0 : Int))), Int.toNat_zero]
  exact not_wp_rwP_of_noSector hw

/-- The header in sector `x` lists its own sector as the first index table, and shows 120 bytes. -/
structure SelfIndexed (d : Nat → Sector) (x : Nat) : Prop where
  entry : (hdrAt d x).entry 0 = some (.ofNat 32 x)
  numBytes : (hdrAt d x).numBytes.toInt = 120

theorem not_wp_readAt_selfIndexed (hq : s.Quiet) (ho : s.OpenOn f x) (hx : x < 1024)
    (hself : SelfIndexed s.disk x) (hclock : NoSector (hdrAt s.disk x).createTime.toInt)
    {Q : List Byte → Kernel → Prop} : ¬ Wp (OpenFile.readAt f 128 0) Q s := by
  have hm : s.mutex x ≠ 0 := by rw [hq.mutex _ hx]; omega
  have ha : s.arrayMutex ≠ 0 := by rw [hq.arrayMutex]; omega
  have hin : ¬ ((128 : Int) ≤ 0 ∨ (0 : Int) ≥ 120) := by decide
  have hcut : int32 (0 + 128) > 120 := by decide
  have hrest : int32 (120 - 0) = 120 := by decide
  have hrange : sectorRange (divRoundDown 0 128) (divRoundDown (int32 (0 + 120 - 1)) 128) = [0] :=
    by decide
  simp only [OpenFile.readAt, wp_then, wp_fetchHeader ho.2 hx hm, wp_time, modifyHdr, getHdr,
    wp_getFile, wp_setFile, wp_pure, Kernel.setFile_files, Function.update_self,
    FileHeader.fileLength, hself.numBytes, if_neg hin, if_pos hcut, hrest, OpenFile.readRange,
    hrange]
  apply not_wp_lockSectors_first (x := x)
  · exact ha
  · exact hx
  · simp only [Kernel.setFile_files, Function.update_self]
    exact hself.entry
  · exact hclock

theorem not_wp_writeRange_selfIndexed (hq : s.Quiet) (ho : s.OpenOn f x) (hx : x < 1024)
    (hself : SelfIndexed s.disk x) (hclock : NoSector (hdrAt s.disk x).createTime.toInt)
    {src : List Byte} (hsrc : src.length = 120) {Q : Int → Kernel → Prop} :
    ¬ Wp (OpenFile.writeRange f src 0) Q s := by
  have hlast : divRoundDown (int32 (0 + (120 : Nat) - 1)) 128 = 0 := by decide
  have hfirst : divRoundDown 0 128 = 0 := by decide
  have hbuf : int32 ((1 + 0 - 0) * 128) = (128 : Nat) := by decide
  have haligned : ((0 : Int) == 0 * 128) = true := by decide
  have hpart : (int32 (0 + (120 : Nat)) == int32 ((0 + 1) * 128)) = false := by decide
  simp only [OpenFile.writeRange, hsrc, hfirst, hlast, hbuf, haligned, hpart, wp_then, wp_newChars,
    OpenFile.readPartial, Bool.not_true, Bool.not_false, Bool.or_true, Bool.and_true,
    Bool.false_eq_true, if_false, if_true, wp_pure]
  have hst := Steady.tick s (s.tick + 1)
  exact not_wp_readAt_selfIndexed (hst.quiet hq) (hst.openOn ho) hx hself hclock

theorem extendTables_first (hx : x < 1024) {rest : List Nat} (hfree : m.free = x :: rest)
    (temp : Int) :
    ∃ s' m', Steady s s' ∧ (s'.files f).hdr = (s.files f).hdr.setEntry 0 (.ofNat 32 x) ∧
      ∀ Q : BitMap → Kernel → Prop, Wp (extendTables f m temp 0 1) Q s ↔ Q m' s' := by
  have hin : decide ((0 : Int) ≤ 0 ∧ (0 : Int) < 25) = true := by decide
  have hentry : ((s.files f).hdr.setEntry 0 (.ofNat 32 x)).entry 0 = some (.ofNat 32 x) :=
    entry_setEntry (i := 0) (by decide) _
  simp only [extendTables, BitMap.find_of_free_cons hfree, wp_then, wp_assert hin, modifyHdr,
    getHdr, wp_getFile, wp_setFile, wp_freshMemory, Kernel.setFile_files, Function.update_self,
    Int.toNat_zero, BitVec.ofInt_natCast, hentry, wp_orFault_some, toInt_ofNat_sector hx,
    wp_writeSector hx, wp_pure]
  refine ⟨_, _, ((Steady.setHdr s f _).trans (.tick ..)).trans (.setDisk ..), ?_, fun Q => Iff.rfl⟩
  simp only [Kernel.setDisk, Kernel.setFile_files, Function.update_self]

theorem extendAllocate_first (hx : x < 1024) (hb : (s.files f).hdr.numBytes.toInt = 0)
    (hn : (s.files f).hdr.numSectors.toInt = 0) {rest : List Nat} (hfree : m.free = x :: rest) :
    ∃ s' m', Steady s s' ∧ (s'.files f).hdr.entry 0 = some (.ofNat 32 x) ∧
      (s'.files f).hdr.numBytes.toInt = 120 ∧
      (s'.files f).hdr.createTime = (s.files f).hdr.createTime ∧
      ∀ Q : Bool × BitMap → Kernel → Prop, Wp (extendAllocate f m 120) Q s ↔ Q (true, m') s' := by
  have hmore : ¬ divRoundUp (int32 (0 + 120)) 128 ≤ 0 := by decide
  have hone : divRoundUp 120 128 = (1 : Nat) := by decide
  have hclear : ¬ (m.numClear : Int) < (1 : Nat) := by
    rw [BitMap.numClear_eq, hfree, List.length_cons]
    omega
  have hhdr := Kernel.lengthen_hdr s f 120
  rw [hb] at hhdr
  have hnum : ((s.lengthen f 120).files f).hdr.numSectors.toInt = (0 : Nat) := by
    rw [hhdr]
    exact hn
  have hentry : (((s.lengthen f 120).files f).hdr.setEntry 0 (.ofNat 32 x)).entry 0 =
      some (.ofNat 32 x) := entry_setEntry (i := 0) (by decide) _
  have hcount : tablesFor (0 + 1) - tablesFor 0 = 1 := by decide
  have hfirst : ((tablesFor 0 : Nat) : Int) = 0 := by decide
  obtain ⟨s₁, m₁, hst, hh, hwp⟩ := extendTables_first (s := s.lengthen f 120) (f := f) hx hfree 1
  refine ⟨s₁.withHdr f { (s₁.files f).hdr with
      numSectors := .ofInt 32 ((s₁.files f).hdr.numSectors.toInt + (1 : Nat)) }, m₁,
    ((Steady.setHdr s f _).trans hst).trans (.setHdr s₁ f _), ?_, ?_, ?_, fun Q => ?_⟩
  · rw [Kernel.setFile_files, Function.update_self, hh]
    exact hentry
  · rw [Kernel.setFile_files, Function.update_self, hh, setEntry_rest, hhdr]
    exact show (BitVec.ofInt 32 (0 + 120)).toInt = 120 by decide
  · rw [Kernel.setFile_files, Function.update_self, hh, setEntry_rest, hhdr]
  · rw [wp_extendAllocate_iff, hb, hn, if_neg hmore, hone, if_neg hclear, wp_takeSectors_iff hnum,
      extendLastTable_full (k := 0) rfl, wp_pure, hcount, hfirst]
    exact hwp _

/-- An empty file takes the sector of its own header, if that is the first one clear in the map. -/
theorem writeAt_selfIndexed (h : Sited s f n mf m) (hlen : n.length = 0) (hnum : n.numSectors = 0)
    {rest : List Nat} (hfree : m.free = n.hdr :: rest) {src : List Byte}
    (hsrc : src.length = 120) :
    ∃ s', Steady s s' ∧ SelfIndexed s'.disk n.hdr ∧
      (hdrAt s'.disk n.hdr).createTime = (hdrAt s.disk n.hdr).createTime ∧
      ∀ Q : Int → Kernel → Prop, Wp (OpenFile.writeAt f src 0) Q s ↔
        Wp (OpenFile.writeRange f src 0) Q s' := by
  obtain ⟨s₁, hs₁, -, hc₁, hwp₁⟩ := writeAt_fetched h.quiet h.on.holds h.openOn src 0
  have h₁ := h.fetched hs₁
  have hroom : OpenFile.makeRoom f (120 : Nat) 0 0 = OpenFile.extend f 120 := by
    rw [OpenFile.makeRoom, if_pos (by decide)]
    exact congrArg (OpenFile.extend f) (by decide)
  obtain ⟨s₂, hst₂, -, hh₂, hfile₂, hon₂, -, hwp₂⟩ := extend_fetched h₁.placed h₁.header 120
  have hb₂ : (s₂.files f).hdr.numBytes.toInt = 0 := by rw [hh₂.numBytes, hon₂.length, hlen]
  have hn₂ : (s₂.files f).hdr.numSectors.toInt = 0 := by rw [hh₂.numSectors, hon₂.numSectors, hnum]
  obtain ⟨s₃, m₃, hst₃, he₃, hb₃, hc₃, hwp₃⟩ := extendAllocate_first n.hdr_lt hb₂ hn₂ hfree
  have hst := (hs₁.toSteady.trans hst₂).trans hst₃
  -- the header overwrites the index table that was put into its sector
  have hback : hdrAt (s₃.setDisk n.hdr (s₃.files f).hdr.toSector).disk n.hdr =
      (s₃.files f).hdr := by
    rw [hdrAt, Kernel.setDisk_disk, Function.update_self, FileHeader.ofSector_toSector]
  refine ⟨s₃.setDisk n.hdr (s₃.files f).hdr.toSector, hst.trans (.setDisk ..), ⟨?_, ?_⟩, ?_,
    fun Q => ?_⟩
  · rw [hback, he₃]
  · rw [hback, hb₃]
  · rw [hback, hc₃, hfile₂, hc₁]
  · rw [hwp₁, hsrc, hlen, if_neg (by decide), wp_then, hroom, hwp₂, hwp₃, if_pos rfl]
    simp only [wp_then, wp_getFile, (hst.openOn h.openOn).2, writeBack, wp_writeSector n.hdr_lt,
      wp_pure, if_true]

/-- The sector of the new header is clear in the map on the disk, so that the table of a directory
without sectors cannot be written. -/
theorem not_wp_initDirectory_empty (hr : Rep s v) (hon : n.On s.disk) (hap : v.Apart n)
    (hlen : n.length = 0) (hnum : n.numSectors = 0) {rest : List Nat}
    (hfree : v.map.free = n.hdr :: rest)
    (hclock : NoSector (hdrAt s.disk n.hdr).createTime.toInt) {Q : Unit → Kernel → Prop} :
    ¬ Wp (initDirectory n.hdr 1) Q s := by
  rw [initDirectory, if_pos rfl, wp_then]
  obtain ⟨_, s₁, ⟨rfl, ho₁⟩, hwp₁⟩ := (wp_openFile_visited hr.quiet n.hdr_lt).exists_iff
  have hst₁ := ho₁.steady
  have htc₁ := touched_visited s.disk n.hdr (s.host s.tick 0)
  rw [← ho₁.disk] at htc₁
  have hr₁ : Rep s₁ v := hr.frame hst₁ hap fun y hy => htc₁.other y fun e =>
    hy (e ▸ List.mem_cons_self ..)
  have hon₁ := hon.touched htc₁ n.hdr_not_mem
  obtain ⟨d, s₂, h₂, hwp₂⟩ := (wp_newDirectory_visited (s := s₁)).exists_iff
  obtain ⟨now, hnow⟩ := h₂.disk
  have htc₂ := touched_visited s₁.disk 1 now
  rw [← hnow] at htc₂
  obtain ⟨r, hroot, hr1, hrt⟩ := v.root
  have hr₂ := hr₁.touched h₂.steady htc₂ (.inr ⟨[], r, hroot, hr1⟩)
  have h1 : 1 ∉ n.sectors := fun hx => hap.node [] r hroot 1 hx (hr1 ▸ List.mem_cons_self ..)
  have hon₂ := hon₁.touched htc₂ fun hx => h1 (List.mem_cons_of_mem _ hx)
  have hl : d.toBytes.length = 120 := by rw [Directory.length_toBytes, h₂.size]
  have hstamp : Restamped (fun _ => True) s.disk s₂.disk := by
    rw [hnow, ho₁.disk]
    exact (Restamped.visited trivial _).trans (Restamped.visited trivial _)
  obtain ⟨s₃, hst₃, hself, hc₃, hwp₃⟩ := writeAt_selfIndexed
    ⟨hr₂.quiet, hon₂, h₂.steady.openOn ho₁.openOn, v.isMap, hr₂.map, hap.map⟩ hlen hnum hfree hl
  rw [hwp₁, wp_then, hwp₂]
  simp only [Directory.writeBack, wp_then, wp_pure]
  rw [hwp₃]
  refine not_wp_writeRange_selfIndexed (hst₃.quiet hr₂.quiet)
    (hst₃.openOn (h₂.steady.openOn ho₁.openOn)) n.hdr_lt hself ?_ hl
  rw [hc₃, hstamp.createTime]
  exact hclock

/-! ## Create of a directory -/

section create
variable {fs : FileSystem} {lost : Set Nat} {size ty : Int} {name : CString} {d : FileNode}
  {T : Directory} {hdr₀ : FileHeader} {P : Kernel → Prop}

theorem not_wp_install_empty (hr : Rep s v) (hmk : v.Marks lost) {rest : List Nat}
    (hfree : v.map.free = x :: rest) {hdr : FileHeader} (hnum : hdr.numSectors.toInt = 0)
    (hlen : hdr.numBytes.toInt = 0) (hclock : NoSector hdr.createTime.toInt)
    {Q : Unit → Kernel → Prop} : ¬ Wp (install fs hdr x 1 T f m) Q s := by
  have hxfree : x ∈ v.map.free := hfree ▸ List.mem_cons_self ..
  have hx : x < 1024 := v.isMap.numBits ▸ (BitMap.mem_free.mp hxfree).1
  obtain ⟨nf, rfl, hsec, -, hnlen, hnnum, hon⟩ := FileNode.exists_empty hdr hx hnum hlen s.disk
  have hap := hmk.apart_of_free hxfree hsec
  have hr₁ : Rep (s.setDisk nf.hdr hdr.toSector) v := hr.frame (.setDisk ..) hap fun y hy =>
    Function.update_of_ne (fun e : y = nf.hdr => hy (e ▸ List.mem_cons_self ..)) _ _
  have hhdr : hdrAt (s.setDisk nf.hdr hdr.toSector).disk nf.hdr = hdr := by
    rw [hdrAt, Kernel.setDisk_disk, Function.update_self, FileHeader.ofSector_toSector]
  rw [install, wp_then, FileHeader.writeBack, wp_writeSector nf.hdr_lt, wp_then]
  refine not_wp_initDirectory_empty hr₁ hon hap hnlen hnnum hfree ?_
  rw [hhdr]
  exact hclock

theorem not_wp_createAdded_empty (hr : Rep s v) (hmk : v.Marks lost) {rest : List Nat}
    (hfree : v.map.free = x :: rest) (hclock : NoSector (s.host s.tick 0).toInt)
    {Q : Bool → Kernel → Prop} :
    ¬ Wp (createAdded fs hdr₀ x T f 0 1 (v.map.markBit x)) Q s := by
  have hzero : divRoundUp 0 128 = 0 := by decide
  have hfew : ¬ ((v.map.markBit x).numClear : Int) < divRoundUp 0 128 := by
    rw [hzero]
    omega
  have hnone : tablesFor (divRoundUp 0 128).toNat = 0 := by decide
  have hst := Steady.tick s (s.tick + 1)
  rw [createAdded, wp_then, wp_allocate_iff hfew, hnone, allocateTables, wp_pure]
  simp only [if_true, wp_then]
  refine not_wp_install_empty (hr.steady hst rfl) hmk hfree ?_ ?_ hclock
  · exact show (BitVec.ofInt 32 (divRoundUp 0 128)).toInt = 0 by decide
  · exact show (BitVec.ofInt 32 0).toInt = 0 by decide

theorem size_le_of_createAdded (h0 : 0 ≤ size) (hm : m.numBits = 1024)
    (h : Wp (createAdded fs hdr₀ x T f size ty m) (fun b t => b = true ∧ P t) s) :
    size ≤ 102400 := by
  rw [createAdded, wp_then] at h
  by_cases hfew : (m.numClear : Int) < divRoundUp size 128
  · simp only [FileHeader.allocate, wp_then, wp_time, if_pos hfew, wp_pure, Bool.false_eq_true,
      if_false, false_and] at h
  rw [wp_allocate_iff hfew] at h
  have hk : divRoundUp size 128 = ((divRoundUp size 128).toNat : Int) := by
    rw [divRoundUp_128 h0]
    omega
  obtain ⟨_, _, ⟨-, -, h25, -⟩, -⟩ :=
    (allocateTables_returns hm rfl (fun _ => hk) h).exists_iff
  rw [divRoundUp_128 h0] at h25
  omega

end create

/-! ## New directories -/

/-- On the disk of `s`, the path `name` is bound to a directory with header `x`, all of whose ten
entries are free, and whose sectors are distinct and marked in the map. -/
structure EmptyDirectory (s : Kernel) (name : CString) (x : Nat) : Prop where
  bound : boundTo s name = some x
  isDir : (hdrAt s.disk x).fileType = 1
  table : (entriesOf (fileBytes s.disk x)).length = 10
  empty : ∀ e ∈ entriesOf (fileBytes s.disk x), e.inUse = false
  nodup : (fileSectors s.disk x).Nodup
  marked : ∀ y ∈ fileSectors s.disk x, (freeMapOn s.disk).testBit y = true

/-- Any plain file for which there is room can be created in the directory `x` by the path of the
directory, and is found there. -/
def AcceptsFiles (fs : FileSystem) (s : Kernel) (name : CString) (x : Nat) : Prop :=
  ∀ c size, '/' ∉ c → 0 ≤ size → size ≤ 102400 →
    sectorsFor (divRoundUp size 128).toNat + 1 ≤ (freeMapOn s.disk).numClear →
    Wp (create fs (name ++ '/' :: c) size 0) (fun b s' => b = true ∧
      ∃ y, boundTo s' (name ++ '/' :: c) = some y ∧ lookup s' x c = some y ∧
        Wp (getFileName (name ++ '/' :: c) >>= fun r => r.2.1.find r.1) (fun z _ => z = y) s') s

/-- `Create` of the directory `name` makes one that is empty and can be used. -/
def MakesDirectory (fs : FileSystem) (name : CString) (size : Int) (s : Kernel) : Prop :=
  Wp (create fs name size 1) (fun b s' => b = true ∧
    ∃ x, EmptyDirectory s' name x ∧ AcceptsFiles fs s' name x) s

/-- When `Create` can make the directory: there is a slot for a new name, the path has a slash, and
the size is not 0 and within what the index of a header allows. -/
structure Volume.DirectoryMeets (v : Volume) (p : Place) (name : CString) (size : Int) :
    Prop where
  unbound : v.child p (lastComp (components name)) = none
  slot : ∃ i < 10, v.node (p ++ [i]) = none
  nonempty : 1 ≤ size
  small : size ≤ 102400
  slash : '/' ∈ name

section created
variable {v' : Volume} {fs : FileSystem} {lost : Set Nat} {name c : CString} {i : Nat}
  {nf : FileNode} {size : Int}

theorem Volume.Created.emptyDirectory (h : v.Created v' p i (lastComp (components name)) nf)
    (hw : v.walk [] (dirComps (components name)) = some p) (hr : Rep s v') (hmk : v'.Marks lost)
    (ht : nf.fileType = 1) : EmptyDirectory s name nf.hdr := by
  have hon := hr.on _ nf h.new
  refine ⟨hr.boundTo_of_binds (h.binds hw), ?_, ?_, fun e he => ?_, ?_, fun y hy => ?_⟩
  · rw [hon.fileType, ht]
  · rw [hon.fileBytes]
    exact Volume.length_entries h.new ht
  · rw [hon.fileBytes] at he
    obtain ⟨j, hj, hje⟩ := List.getElem_of_mem he
    have hdesc := v'.entry _ nf h.new ht j e (hje ▸ List.getElem?_eq_getElem hj)
    rw [h.below] at hdesc
    exact hdesc
  · rw [hon.fileSectors]
    exact nf.nodup
  · rw [hon.fileSectors] at hy
    rw [hr.freeMapOn]
    exact ((hmk.used y).mpr (.inl (.inr ⟨_, nf, h.new, hy⟩))).2

theorem Volume.Binds.walk_child {n : FileNode} (h : v.Binds name p i n) (hs : '/' ∈ name)
    (hc : '/' ∉ c) : v.walk [] (dirComps (components (name ++ '/' :: c))) = some (p ++ [i]) := by
  obtain ⟨w, ws, hcs, hne⟩ := components_of_slash hs
  rw [components_child name hc, hcs, dirComps_append hne, ← hcs, Volume.walk_append, h.walk,
    Option.bind_some, Volume.walk, h.child]
  rfl

theorem Volume.Created.acceptsFiles (h : v.Created v' p i (lastComp (components name)) nf)
    (hw : v.walk [] (dirComps (components name)) = some p) (hr : Rep s v') (hmk : v'.Marks lost)
    (hfs : s.OpenOn fs.freeMapFile 0) (ht : nf.fileType = 1) (hs : '/' ∈ name)
    (hheap : v'.names.length + 1 < 2 ^ 32) : AcceptsFiles fs s name nf.hdr := by
  intro c size hc h0 hmax hspace
  rw [hr.freeMapOn] at hspace
  have hwalk := (h.binds hw).walk_child hs hc
  have hlast : lastComp (components (name ++ '/' :: c)) = c := by
    rw [components_child name hc]
    exact lastComp_append (components_ne_nil name)
  refine hr.wp_createNew hmk hfs hwalk h.new ht hheap hspace (Volume.child_of_empty h.below)
    ⟨0, by decide, h.below 0⟩ (.inl rfl) h0 hmax fun s' v'' j n hr' _ _ hcr _ _ _ => ?_
  have hb := hcr.binds hwalk
  obtain ⟨-, d, hd, hdt⟩ := v''.parent _ j n hb.node
  have hhdr : d.hdr = nf.hdr := by
    obtain ⟨d₀, d', hd₀, -, hsec, -, hnode⟩ := hcr.node
    rw [hnode, Volume.insertNode_dir, Option.some.injEq] at hd
    rw [h.new, Option.some.injEq] at hd₀
    rw [← hd, hd₀]
    exact (List.cons.inj hsec).1
  have hchild := hb.child
  rw [hlast] at hchild
  refine ⟨rfl, n.hdr, hr'.boundTo_of_binds hb, ?_, Volume.wp_find_of_held hr'.held hb⟩
  rw [← hhdr, hr'.lookup hd hdt, hchild, Option.bind_some, hb.node, Option.map_some]

end created

section main
variable {fs : FileSystem} {lost : Set Nat} {name : CString} {size : Int} {d : FileNode}

theorem Volume.Binds.not_wp_createSame {v' : Volume} {s : Kernel} {i : Nat} {n : FileNode}
    (h : v'.Binds name p i n) (hr : Rep s v') (hfs : s.OpenOn fs.freeMapFile 0) (hs : '/' ∉ name)
    {P : Kernel → Prop} :
    ¬ Wp (create fs (name ++ '/' :: name) 0 0) (fun b s' => b = true ∧ P s') s := by
  have hcomps : components (name ++ '/' :: name) = [name, name] := by
    rw [components_child name hs, components_plain hs]
    rfl
  have hroot : p = [] := by
    have hw := h.walk
    rw [components_plain hs] at hw
    exact (Option.some.inj hw).symm
  have hchild := h.child
  rw [components_plain hs, hroot] at hchild
  obtain ⟨r, hr0, -, hrt⟩ := v'.root
  have hlead : v'.LeadsTo (dirComps (components (name ++ '/' :: name))) r := by
    rw [hcomps]
    exact ⟨[], rfl, hr0, hrt⟩
  have hfail := (hr.failsCleanly_iff hfs (.found hlead) (.create 0 0)).mpr (by
    rw [hcomps]
    refine ⟨some i, ?_, .inl (by simp)⟩
    exact (search_of_readable (Volume.readable hr0 hrt)).trans
      (congrArg some ((Volume.findIdx?_called hr0 hrt).trans hchild)))
  intro htrue
  obtain ⟨b, s', ⟨⟨hb, -⟩, hb', -⟩, -⟩ := (Wp.and hfail htrue).exists_iff
  rw [hb] at hb'
  cases hb'

/-- `Create` makes a usable directory if the conditions are met. If it makes one, they are met,
unless the size is 0 and the clock shows the number of a sector. -/
theorem create_makesDirectory (hr : Rep s v) (hmk : v.Marks lost) (hfs : s.OpenOn fs.freeMapFile 0)
    (hw : v.walk [] (dirComps (components name)) = some p) (hd : v.node p = some d)
    (ht : d.fileType = 1) (hheap : v.names.length + 2 < 2 ^ 32) (h0 : 0 ≤ size)
    (hspace : sectorsFor (divRoundUp size 128).toNat + 2 ≤ v.map.numClear) :
    (v.DirectoryMeets p name size → MakesDirectory fs name size s) ∧
    (MakesDirectory fs name size s → v.DirectoryMeets p name size ∨
      size = 0 ∧ ∃ t, ¬ NoSector (s.host t 0).toInt) := by
  constructor
  · intro h
    refine hr.wp_createNew hmk hfs hw hd ht (by omega) (by omega) h.unbound h.slot
      (.inr ⟨rfl, h.nonempty⟩) h0 h.small fun s' v' i nf hr' hmk' hk hcr hty _ _ => ?_
    have hnames : v'.names.length + 1 < 2 ^ 32 := by
      rw [hcr.names, List.length_append, List.length_singleton]
      exact hheap
    exact ⟨rfl, nf.hdr, hcr.emptyDirectory hw hr' hmk' hty,
      hcr.acceptsFiles hw hr' hmk' (hk.openOn hfs) hty h.slash hnames⟩
  · intro h
    obtain ⟨f, i, x, e, hdr, s₁, ha, h₁⟩ := adding_of_create hr hfs hw hd ht h
    obtain ⟨rest, hfree⟩ := ha.free
    have hbits : (v.map.markBit x).numBits = 1024 := by simpa using v.isMap.numBits
    have hmax := size_le_of_createAdded h0 hbits h₁
    have hunbound : v.child p (lastComp (components name)) = none := ha.slot.unbound
    have hslot : ∃ i < 10, v.node (p ++ [i]) = none := ⟨i, ha.slot.lt, ha.slot.free⟩
    by_cases h1 : 1 ≤ size
    · by_cases hs : '/' ∈ name
      · exact .inl ⟨hunbound, hslot, h1, hmax, hs⟩
      · -- the new directory is in the root, where its own name is bound
        exfalso
        have hmade := hr.wp_createNew hmk hfs hw hd ht (by omega) (by omega) hunbound hslot
          (.inr ⟨rfl, h1⟩) h0 hmax (Q := fun _ s' => ∃ v' i nf, Rep s' v' ∧
            s'.OpenOn fs.freeMapFile 0 ∧ v'.Binds name p i nf ∧ 1 ≤ v'.map.numClear)
          fun s' v' i nf hr' _ hk hcr _ _ hlen => by
            obtain ⟨L, hL, hsplit⟩ := hcr.taken
            refine ⟨v', i, nf, hr', hk.openOn hfs, hcr.binds hw, ?_⟩
            rw [BitMap.numClear_eq, hsplit, List.length_append, hL.length_eq, hlen,
              ← BitMap.numClear_eq] at hspace
            omega
        obtain ⟨b, s', ⟨⟨v', i, nf, hr', hfs', hb, hclear⟩, -, y, -, haccepts⟩, -⟩ :=
          (hmade.and h).exists_iff
        refine hb.not_wp_createSame hr' hfs' hs (haccepts name 0 hs le_rfl (by decide) ?_)
        rw [hr'.freeMapOn]
        exact hclear
    · -- a directory of size 0
      obtain rfl : size = 0 := by omega
      refine .inr ⟨rfl, s₁.tick, fun hclock => ?_⟩
      rw [← ha.kept.host] at hclock
      exact not_wp_createAdded_empty ha.rep ⟨hmk.used, hmk.lost⟩ hfree hclock h₁

end main

theorem exists_newDisk (w : Word) : ∃ (fs : FileSystem) (s : Kernel) (v : Volume), Rep s v ∧
    v.Marks ∅ ∧ s.OpenOn fs.freeMapFile 0 ∧ v.names = [] ∧ v.map.numClear = 1018 ∧
    (∀ p, p ≠ [] → v.node p = none) ∧ ∀ t i, s.host t i = w := by
  have hformat := wp_format (s := { Kernel.zeroed with host := fun _ _ => w })
    ⟨fun _ _ => rfl, rfl⟩ (Q := fun fs s => ∃ v, Rep s v ∧ v.Marks ∅ ∧ s.OpenOn fs.freeMapFile 0 ∧
      v.names = [] ∧ v.map.numClear = 1018 ∧ (∀ p, p ≠ [] → v.node p = none) ∧
      ∀ t i, s.host t i = w)
    fun fs s v hr hst hmk hnode hfree ho _ => by
      refine ⟨v, hr, hmk, ho, hr.names.symm.trans hst.names, ?_, hnode, fun t i => ?_⟩
      · rw [BitMap.numClear_eq, hfree, List.length_drop, List.length_range]
      · rw [hst.host]
  obtain ⟨fs, s, -, v, h⟩ := hformat
  exact ⟨fs, s, v, h⟩

/-- The first directory of a new disk, by a path with a slash. -/
theorem create_makesDirectory_first :
    ∃ fs s v, Rep s v ∧ MakesDirectory fs ['r', '/', 'd'] 1 s := by
  obtain ⟨fs, s, v, hr, hmk, ho, hnames, hclear, hnode, -⟩ := exists_newDisk 0
  obtain ⟨d, hd, -, ht⟩ := v.root
  have hcomps : components ['r', '/', 'd'] = [['r'], ['d']] := by decide
  have hw : v.walk [] (dirComps (components ['r', '/', 'd'])) = some [] := by
    rw [hcomps]
    rfl
  have hheap : v.names.length + 2 < 2 ^ 32 := by
    rw [hnames]
    decide
  have hspace : sectorsFor (divRoundUp 1 128).toNat + 2 ≤ v.map.numClear := by
    rw [hclear]
    decide
  refine ⟨fs, s, v, hr, (create_makesDirectory hr hmk ho hw hd ht hheap (by decide) hspace).1 ?_⟩
  refine ⟨?_, ⟨0, by decide, hnode _ (by simp)⟩, by decide, by decide, by decide⟩
  exact Volume.child_of_empty fun j => hnode _ (by simp)

/-- The same with size 0, at the time 2000. -/
theorem create_emptyDirectory_faults : ∃ fs s v d, Rep s v ∧ v.Marks ∅ ∧
    s.OpenOn fs.freeMapFile 0 ∧ v.node [] = some d ∧ d.fileType = 1 ∧ v.map.numClear = 1018 ∧
    v.walk [] (dirComps (components ['r', '/', 'd'])) = some [] ∧
    ∀ P : Kernel → Prop, ¬ Wp (create fs ['r', '/', 'd'] 0 1) (fun b s' => b = true ∧ P s') s := by
  obtain ⟨fs, s, v, hr, hmk, ho, -, hclear, -, hhost⟩ := exists_newDisk 2000
  obtain ⟨d, hd, -, ht⟩ := v.root
  have hcomps : components ['r', '/', 'd'] = [['r'], ['d']] := by decide
  have hw : v.walk [] (dirComps (components ['r', '/', 'd'])) = some [] := by
    rw [hcomps]
    rfl
  refine ⟨fs, s, v, d, hr, hmk, ho, hd, ht, hclear, hw, fun P h => ?_⟩
  obtain ⟨f, i, x, e, hdr, s₁, ha, h₁⟩ := adding_of_create hr ho hw hd ht h
  obtain ⟨rest, hfree⟩ := ha.free
  refine not_wp_createAdded_empty ha.rep ⟨hmk.used, hmk.lost⟩ hfree ?_ h₁
  rw [ha.kept.host, hhost]
  unfold NoSector
  decide

end Nachos
