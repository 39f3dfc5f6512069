import Nachos.FileSys.Refusal
import Nachos.FileSys.WriteSpec

/-! What a failed `Create` leaves on the disk. -/

namespace Nachos
open Lib Program FileSystem

variable {s s' : Kernel} {v : Volume} {n : FileNode}

/-- If `Create` returns FALSE, at most visit times of headers have changed on the disk. -/
def DiscardsFailure (fs : FileSystem) (v : Volume) (name : CString) (size ty : Int)
    (s : Kernel) : Prop :=
  ∀ s' : Kernel, Wp (create fs name size ty) (fun b t => b = false ∧ t = s') s →
    Restamped v.Header s.disk s'.disk

/-- A failed `Create` leaves no trace if the lookups of its path stay with headers of files. -/
theorem create_discards {fs : FileSystem} (hr : Rep s v) (ho : s.OpenOn fs.freeMapFile 0)
    (name : CString) (size ty : Int) (h : ¬ v.EscapesOn (dirComps (components name))) :
    DiscardsFailure fs v name size ty s := by
  intro s' hret
  have hfail : Wp (create fs name size ty) (fun b t => b = false ∧ t.disk = s'.disk) s :=
    hret.mono fun b t hb => ⟨hb.1, congrArg Kernel.disk hb.2⟩
  rw [create_eq, wp_then] at hfail
  obtain ⟨nm, T, hans⟩ := (hr.answers_or_escapes hfail).resolve_right h
  obtain ⟨s₁, f, hr₁, hst₁, hs₁, hwp⟩ := hr.getFileName_answers hans
  rw [hwp, createIn_false_iff (P := fun d => d = s'.disk) hr₁ (hst₁.openOn ho)] at hfail
  rw [← hfail.2]
  exact hs₁

/-- A file that is too large for a new disk. -/
theorem create_discards_large : ∃ fs s v, Rep s v ∧
    Wp (create fs ['a'] 2147483647 0) (fun b _ => b = false) s ∧
    DiscardsFailure fs v ['a'] 2147483647 0 s := by
  obtain ⟨fs, s, -, v, -, hr, ho, -, hnames, hclear, -⟩ := wp_format_empty
  have hdirs : dirComps (components ['a']) = [] := by decide
  refine ⟨fs, s, v, hr, ?_, create_discards hr ho ['a'] 2147483647 0 ?_⟩
  · obtain ⟨d, hd, -, ht⟩ := v.root
    have hlead : v.LeadsTo (dirComps (components ['a'])) d := by
      rw [hdirs]
      exact ⟨[], rfl, hd, ht⟩
    have hfail := (hr.failsCleanly_iff ho (.found hlead) (.create 2147483647 0)).mpr
      ⟨_, search_of_readable (Volume.readable hd ht), .inr (.inr (.inr ⟨by simp, ?_, ?_⟩))⟩
    · exact hfail.mono fun b s' h => h.1
    · rw [hnames]
      decide
    · rw [hclear]
      decide
  · rintro ⟨d, n, rest, ⟨cs₁, c, q, i, hcs, -⟩, -⟩
    rw [hdirs] at hcs
    exact List.cons_ne_nil c rest (List.append_eq_nil_iff.mp hcs.symm).2

/-! ## Plain files that look like directories -/

def FileNode.reread (n : FileNode) (d : Nat → Sector) : FileNode :=
  { n with
    content := (blocks d n.data).take n.length.toNat
    size := by
      have := n.room
      rw [List.length_take, length_blocks]
      omega }

theorem FileNode.On.reread {d d' : Nat → Sector} (h : n.On d) (hd : ∀ x ∉ n.data, d' x = d x) :
    (n.reread d').On d' := by
  have hhdr : hdrAt d' n.hdr = hdrAt d n.hdr := by
    rw [hdrAt, hd _ n.hdr_not_mem_data]
    rfl
  refine ⟨?_, ?_, ?_, ?_, ?_, ?_, rfl⟩
  · exact (congrArg FileHeader.fileType hhdr).trans h.fileType
  · exact (congrArg FileHeader.numVisits hhdr).trans h.numVisits
  · exact (congrArg (fun a => a.numBytes.toInt) hhdr).trans h.length
  · exact (congrArg (fun a => a.numSectors.toInt) hhdr).trans h.numSectors
  · intro i t ht
    exact (congrArg (fun a => a.entry i) hhdr).trans (h.lists i t ht)
  · exact h.tables.congr fun x hx => hd x (n.index_not_mem_data hx)

theorem Rep.reread {p : Place} (hr : Rep s v) (hn : v.node p = some n) (ht : n.fileType = 0)
    (hst : Steady s s') (hd : ∀ x ∉ n.data, s'.disk x = s.disk x) :
    ∃ h : v.Replaces p n (n.reread s'.disk), Rep s' (v.replace p n (n.reread s'.disk) h) := by
  have hrep : v.Replaces p n (n.reread s'.disk) := Volume.replaces_plain hn ht rfl rfl
  have hsec : ∀ x, x ∉ n.sectors → s'.disk x = s.disk x := fun x hx => hd x fun hxd =>
    hx (List.mem_cons_of_mem _ (List.mem_append_right _ hxd))
  refine ⟨hrep, hr.replace hst hrep ((hr.on p n hn).reread hd) ?_ fun x _ hx => hsec x hx⟩
  exact hr.map.frame fun x hx => hsec x (v.mapApart p n hn x hx)

/-- A table that binds the name of the entry `e` to the sector `y`, and nothing else. -/
def bait (e : DirectoryEntry) (y : Nat) : Directory where
  table := { e with sector := .ofNat 32 y } :: List.replicate 9 ⟨0, 0, 0⟩

section bait
variable {e : DirectoryEntry} {y : Nat} {names : List CString} {c : CString}

theorem search_bait (hu : e.inUse = true) (hne : e.name ≠ 0)
    (hc : names[e.name.toNat - 1]? = some c) :
    search names c (bait e y).table = some (some 0) := by
  have hne' : (e.name != 0) = true := by simpa using hne
  have hu' : DirectoryEntry.inUse { e with sector := .ofNat 32 y } = true := hu
  rw [bait, search, hu', Bool.true_and, if_pos hne']
  simp only [hc, if_true]

theorem slotSector_bait (hy : y < 1024) : slotSector (bait e y).table (some 0) = y :=
  toInt_ofNat_sector hy

theorem bait_load (T : Directory) (hT : T.tableSize = 10) :
    T.load ((bait e y).toBytes) = bait e y := by
  have hl : (bait e y).toBytes.length = 120 := by rw [Directory.length_toBytes]; rfl
  have htable := Directory.load_table hT hl
  rw [Directory.toBytes, wordsOfBytes_bytesOfWords, entriesOfWords_toWords] at htable
  exact congrArg Directory.mk htable

theorem bait_load_nil : (bait e y).load [] = bait e y := by
  rw [Directory.load, List.nil_append, List.length_nil, List.drop_zero, Directory.toBytes,
    wordsOfBytes_bytesOfWords, entriesOfWords_toWords]

end bait

def emptyHeader : FileHeader :=
  { FileHeader.ofSector (.ofWords fun _ => 0) with lastVisitTime := 1 }

/-- The plain file `a` holds a table that binds the name `a` to its own second data sector `y`, and
that sector looks like the header of an empty file. All clocks stand at 0. -/
structure Baited (fs : FileSystem) (s : Kernel) (v : Volume) (i y : Nat) (n : FileNode)
    (e : DirectoryEntry) : Prop where
  rep : Rep s v
  openOn : s.OpenOn fs.freeMapFile 0
  host : s.host = fun _ _ => 0
  child : v.child [] ['a'] = some i
  node : v.node [i] = some n
  plain : n.fileType = 0
  inUse : e.inUse = true
  name : e.name ≠ 0
  label : v.names[e.name.toNat - 1]? = some ['a']
  mem : y ∈ n.data
  sector : s.disk y = emptyHeader.toSector
  content : n.content.take 120 = (bait e y).toBytes

def Kernel.stopClock (s : Kernel) : Kernel := { s with host := fun _ _ => 0 }

theorem Rep.stopClock (hr : Rep s v) : Rep s.stopClock v :=
  ⟨⟨hr.quiet.mutex, hr.quiet.arrayMutex⟩, hr.names, hr.map, hr.on⟩

def Kernel.layBait (s : Kernel) (e : DirectoryEntry) (x y : Nat) : Kernel :=
  { s with disk := Function.update (Function.update s.disk x
      (.ofBytes ((bait e y).toBytes ++ List.replicate 8 0))) y emptyHeader.toSector }

theorem Kernel.steady_layBait (s : Kernel) (e : DirectoryEntry) (x y : Nat) :
    Steady s (s.layBait e x y) :=
  ⟨⟨rfl, rfl, rfl, le_rfl, fun _ _ => rfl, fun _ _ => rfl⟩, rfl⟩

theorem Kernel.take_layBait {e : DirectoryEntry} {x y : Nat} (hxy : x ≠ y) :
    ((s.layBait e x y).disk x).bytes.take 120 = (bait e y).toBytes := by
  have hlen : ((bait e y).toBytes ++ List.replicate 8 0).length = 128 := by
    rw [List.length_append, Directory.length_toBytes, List.length_replicate]
    rfl
  have hx : (s.layBait e x y).disk x = .ofBytes ((bait e y).toBytes ++ List.replicate 8 0) :=
    (Function.update_of_ne hxy _ _).trans (Function.update_self ..)
  rw [hx, Sector.bytes_ofBytes hlen]
  exact List.take_left' (by rw [Directory.length_toBytes]; rfl)

theorem exists_baited : ∃ fs s v i y n e, Baited fs s v i y n e := by
  have hfirst := wp_formatCreate ['a'] 256 Kernel.quiet_zeroed (by decide) (by decide) (by decide)
    (by decide) (Q := fun r s => ∃ v i n, FirstFile Kernel.zeroed s r.1 v ['a'] 256 i n)
    fun s fs v i n h => ⟨v, i, n, h⟩
  obtain ⟨⟨fs, b⟩, s, -, v, i, n, h⟩ := hfirst
  have htwo : n.data.length = 2 := by
    rw [n.count, h.numSectors]
    rfl
  obtain ⟨x, y, hdata⟩ := List.length_eq_two.mp htwo
  have hxy : x ≠ y := by
    have hnd := n.data_nodup
    rw [hdata] at hnd
    simpa using hnd
  have hnode : v.node [i] = some n := h.binds.node
  have hchild : v.child [] ['a'] = some i := h.binds.child
  -- the entry of the file in the root
  obtain ⟨d, hd, -, ht⟩ := v.root
  have hi : i < (entriesOf d.content).length := by
    rw [Volume.length_entries hd ht]
    exact (v.parent [] i n hnode).1
  obtain ⟨e, he⟩ : ∃ e, (entriesOf d.content)[i]? = some e := ⟨_, List.getElem?_eq_getElem hi⟩
  have hdesc := v.entry [] d hd ht i e he
  rw [List.nil_append, hnode] at hdesc
  obtain ⟨hu, -, hne, hname⟩ := hdesc
  have hlabel : v.label [i] = ['a'] := (Volume.child_eq_some.mp hchild).2
  rw [hlabel] at hname
  -- its two sectors are written
  obtain ⟨hrep, hr₁⟩ := h.rep.stopClock.reread hnode h.fileType
    (s.stopClock.steady_layBait e x y) fun z hz => by
      rw [hdata] at hz
      simp only [List.mem_cons, List.not_mem_nil, or_false, not_or] at hz
      exact (Function.update_of_ne hz.2 _ _).trans (Function.update_of_ne hz.1 _ _)
  refine ⟨fs, s.stopClock.layBait e x y, _, i, y, n.reread _, e, hr₁, h.openOn, rfl, ?_,
    Function.update_self .., h.fileType, hu, hne, hname, ?_, Function.update_self .., ?_⟩
  · exact Volume.child_eq_some.mpr ⟨⟨_, Function.update_self ..⟩, hlabel⟩
  · change y ∈ n.data
    rw [hdata]
    exact List.mem_cons_of_mem _ (List.mem_cons_self ..)
  · have hl : n.length.toNat = 256 := by
      rw [h.length]
      rfl
    change ((blocks (s.stopClock.layBait e x y).disk n.data).take n.length.toNat).take 120 = _
    rw [hl, List.take_take, hdata, blocks_cons,
      List.take_append_of_le_length (by rw [Sector.size]; decide)]
    exact Kernel.take_layBait hxy

theorem Volume.not_header_of_data {p : Place} {x : Nat} (hn : v.node p = some n)
    (hx : x ∈ n.data) : ¬ v.Header x := by
  have hmem : x ∈ n.sectors := List.mem_cons_of_mem _ (List.mem_append_right _ hx)
  rintro (rfl | ⟨q, m, hm, rfl⟩)
  · exact v.mapApart p n hn 0 (v.isMap.hdr ▸ List.mem_cons_self ..) hmem
  · by_cases hq : q = p
    · rw [hq, hn, Option.some.injEq] at hm
      exact n.hdr_not_mem_data (hm ▸ hx)
    · exact v.apart q p m n hm hn hq _ (List.mem_cons_self ..) hmem

theorem exists_blankFile {y : Nat} (hy : y < 1024) {d : Nat → Sector}
    (h : (hdrAt d y).numBytes = 0) :
    ∃ n : FileNode, n.hdr = y ∧ n.content = [] ∧ n.Holds d := by
  have hlt : ∀ x ∈ y :: ([] ++ [] : List Nat), x < 1024 := by
    intro x hx
    rw [List.mem_singleton.mp hx]
    exact hy
  refine ⟨⟨y, [], [], 0, 0, 0, 0, [], List.nodup_singleton y, hlt, rfl, Nat.zero_le _, rfl,
    Int.le_refl 0, rfl⟩, rfl, rfl, ?_, fun i t ht => ?_, fun i t ht => ?_, rfl⟩
  · rw [h]
    rfl
  · cases ht
  · cases ht

theorem Baited.getFileName {fs : FileSystem} {i y : Nat} {e : DirectoryEntry}
    (h : Baited fs s v i y n e) :
    ∃ s' v' f, Rep s' v' ∧ v'.names = v.names ∧ s'.OpenOn fs.freeMapFile 0 ∧
      s'.disk y ≠ s.disk y ∧ ∀ Q : Option CString × Directory × Handle → Kernel → Prop,
      Wp (FileSystem.getFileName ['r', '/', 'a', '/', 'a', '/', 'a']) Q s ↔
        Q (some ['a'], bait e y, f) s' := by
  have hcomps : components ['r', '/', 'a', '/', 'a', '/', 'a'] = [['r'], ['a'], ['a'], ['a']] := by
    decide
  obtain ⟨d, hd, -, -⟩ := v.root
  have hrun : v.RunsInto [] (dirComps (components ['r', '/', 'a', '/', 'a', '/', 'a'])) d n
      [['a']] := by
    rw [hcomps]
    exact ⟨[], ['a'], [], i, rfl, rfl, hd, h.child, h.node, by rw [h.plain]; decide⟩
  -- into the plain file, whose bytes are the table of the bait
  obtain ⟨s₁, f, p, hr₁, hst₁, hs₁, hn, ho, hlen, hwp₁⟩ := h.rep.getFileName_runsInto hrun
  obtain ⟨s₂, hr₂, hst₂, hd₂, hwp₂⟩ := hr₁.walkComps_cons (.inr ⟨p, hn⟩) ho hlen ['a'] ['a'] []
  have hover : (Directory.mk (entriesOf d.content)).over n = bait e y := by
    rw [Directory.over, h.content]
    exact bait_load _ hlen
  have hy : y < 1024 := n.data_lt h.mem
  have hpos : ¬ (y : Int) = -1 := by omega
  -- the data sector is opened as a header
  obtain ⟨_, s₃, ⟨rfl, ho₃⟩, hwp₃⟩ := (wp_openFile_visited hr₂.quiet hy).exists_iff
  have hold : s₂.disk y = emptyHeader.toSector := by
    rw [hd₂, ← h.sector]
    exact (hs₁ y).resolve_right fun hh => Volume.not_header_of_data h.node h.mem hh.1
  have hhost : s₂.host s₂.tick 0 = 0 := by rw [hst₂.host, hst₁.host, h.host]
  have hnew : s₃.disk y = { emptyHeader with lastVisitTime := 0 }.toSector := by
    rw [ho₃.disk, visited, Function.update_self, hhost, hdrAt, hold, FileHeader.ofSector_toSector]
  have hbytes : (hdrAt s₃.disk y).numBytes = 0 := by
    rw [hdrAt, hnew, FileHeader.ofSector_toSector]
    rfl
  obtain ⟨blank, hhdr, hcontent, hholds⟩ := exists_blankFile hy hbytes
  obtain ⟨s₄, hs₄, hwp₄⟩ := fetchFrom_over (T := bait e y) (ho₃.steady.quiet hr₂.quiet) hholds
    (hhdr ▸ ho₃.openOn) rfl
  have hsame : (bait e y).over blank = bait e y := by
    rw [Directory.over, hcontent, List.take_nil]
    exact bait_load_nil
  have hst₄ : Steady s₂ s₄ := ho₃.steady.trans hs₄.toSteady
  obtain ⟨hrep, hr₄⟩ := hr₂.reread h.node h.plain hst₄ fun x hx => by
    have hxy : x ≠ y := by
      rintro rfl
      exact hx h.mem
    rw [hs₄.disk, ho₃.disk]
    exact Function.update_of_ne hxy _ _
  have hofs := hst₄.openOn (hst₂.openOn (hst₁.openOn h.openOn))
  refine ⟨s₄, _, s₂.nextFile, hr₄, rfl, hofs, ?_, fun Q => ?_⟩
  · rw [hs₄.disk, hnew, h.sector]
    intro heq
    have htime := congrArg (fun a => (FileHeader.ofSector a).lastVisitTime) heq
    simp only [FileHeader.ofSector_toSector] at htime
    revert htime
    decide
  · have hlast : lastComp (components ['r', '/', 'a', '/', 'a', '/', 'a']) = ['a'] := by
      rw [hcomps]
      rfl
    rw [hwp₁, hlast, hwp₂, hover]
    simp only [search_bait h.inUse h.name h.label, Option.some.injEq, exists_eq_left',
      slotSector_bait hy, hpos, if_false, hwp₃, walkComps, wp_then, hwp₄, hsame, wp_pure]

/-- A failed `Create` that went through a plain file has written to a data sector. -/
theorem create_stamps_data : ∃ fs s v p n x, Rep s v ∧ s.OpenOn fs.freeMapFile 0 ∧
    v.node p = some n ∧ x ∈ n.data ∧
    Wp (create fs ['r', '/', 'a', '/', 'a', '/', 'a'] 0 0)
      (fun b s' => b = false ∧ s'.disk x ≠ s.disk x) s := by
  obtain ⟨fs, s, v, i, y, n, e, h⟩ := exists_baited
  refine ⟨fs, s, v, [i], n, y, h.rep, h.openOn, h.node, h.mem, ?_⟩
  obtain ⟨s₁, v₁, f, hr₁, hnames, ho₁, hne, hwp⟩ := h.getFileName
  rw [create_eq, wp_then, hwp, createIn_false_iff (P := fun d => d y ≠ s.disk y) hr₁ ho₁]
  -- the bait binds the last name too, so that `Create` answers FALSE
  refine ⟨⟨some 0, ?_, .inl (by simp)⟩, hne⟩
  rw [hnames]
  exact search_bait h.inUse h.name h.label

end Nachos
