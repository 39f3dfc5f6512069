import Nachos.FileSys.NewDirectory
import Nachos.FileSys.Removal

/-! What is left of the names when another process opens the disk. An entry of a directory is
stored with the address of its name, and nothing is at that address in the new process. -/

namespace Nachos
open Lib Program FileSystem

variable {s : Kernel} {v : Volume} {r : FileNode} {c : CString}

/-- The path leads to the header in sector `z`; to nothing, if `z` is -1. -/
def FindsSector (name : CString) (z : Int) (s : Kernel) : Prop :=
  Wp (getFileName name >>= fun r => r.2.1.find r.1) (fun y _ => y = z) s

/-- Another process, on the same disk: its semaphores are new, and there is nothing on its heap. -/
def Kernel.restarted (s : Kernel) (host : Nat → Nat → Word) : Kernel :=
  { Kernel.zeroed with disk := s.disk, host }

/-- After `FileSystem(FALSE)` in another process, each path leads to where it led before. -/
def NamesPersist (s : Kernel) : Prop :=
  ∀ host name z, FindsSector name z s → Wp mount (fun _ => FindsSector name z) (s.restarted host)

def RootEmpty (s : Kernel) : Prop := ∀ e ∈ entriesOf (fileBytes s.disk 1), e.inUse = false

/-! ## Lookups that begin in a root directory -/

theorem search_nil {es : List DirectoryEntry}
    (h : ∃ e ∈ es, e.inUse = true ∧ e.name ≠ 0) : search [] c es = none := by
  induction es with
  | nil =>
    obtain ⟨e, he, -⟩ := h
    cases he
  | cons e es ih =>
    rw [search]
    by_cases hu : (e.inUse && e.name != 0) = true
    · rw [if_pos hu]
      rfl
    · obtain ⟨e', he', hin, hne⟩ := h
      have hmem : e' ∈ es := by
        refine (List.mem_cons.mp he').resolve_left fun heq => hu ?_
        rw [← heq, hin, Bool.true_and, bne_iff_ne]
        exact hne
      rw [if_neg hu, ih ⟨e', hmem, hin, hne⟩]
      rfl

structure RootOn (s : Kernel) (r : FileNode) : Prop where
  quiet : s.Quiet
  on : r.On s.disk
  hdr : r.hdr = 1
  long : 120 ≤ r.length

namespace RootOn

theorem visited {s' : Kernel} (h : RootOn s r) (hst : Steady s s') {x : Nat} {now : Word}
    (hd : s'.disk = visited s.disk x now) (hx : x ∉ r.index ++ r.data) : RootOn s' r := by
  have hs : Restamped (fun y => y = x) s.disk s'.disk := hd ▸ .visited (H := fun y => y = x) rfl now
  refine ⟨hst.quiet h.quiet, h.on.restamped hs fun y hy hyx => hx ?_, h.hdr, h.long⟩
  rw [← hyx]
  exact hy

theorem exists_dirs (h : RootOn s r) (hempty : ∀ e ∈ entriesOf r.content, e.inUse = false) :
    ∃ D : Dirs, D.Held s ∧ D.IsDir r ∧ ∀ c, D.sectorOf r c = -1 := by
  refine ⟨⟨s.names, (· = r), ⟨r, rfl, h.hdr⟩, ?_, ?_, ?_⟩, ⟨h.quiet, rfl, ?_⟩, rfl, fun c => ?_⟩
  · intro n hn
    rw [hn]
    exact h.long
  · intro n hn e he hu
    rw [hempty e (hn ▸ he)] at hu
    cases hu
  · intro n n' hn hn'
    rw [hn, hn']
    exact r.hdr_not_mem
  · intro n hn
    rw [hn]
    exact h.on
  · have hnone : (entriesOf r.content).findIdx? (·.called s.names c) = none := by
      refine List.findIdx?_eq_none_iff.mpr fun e he => ?_
      rw [DirectoryEntry.called, hempty e he]
      rfl
    rw [Dirs.sectorOf, hnone]
    rfl

theorem findsSector_none (h : RootOn s r) (hempty : ∀ e ∈ entriesOf r.content, e.inUse = false)
    (name : CString) : FindsSector name (-1) s := by
  obtain ⟨D, hheld, hdir, hnone⟩ := h.exists_dirs hempty
  obtain ⟨s₁, d, f, h₁, hwp₁⟩ := hheld.getFileName hdir h.hdr (.here r)
    (List.nil_append (dirComps (components name))).symm
  rw [FindsSector, wp_then, hwp₁]
  cases dirComps (components name) with
  | nil =>
    obtain ⟨s₂, h₂, hwp₂⟩ := h₁.ends (lastComp (components name))
    rw [hwp₂, h₂.held.wp_find h₂.isDir]
    exact hnone _
  | cons c cs =>
    obtain ⟨s₂, -, hwp₂⟩ := h₁.round
    rw [hwp₂, if_pos (hnone c), wp_find_null]

theorem not_findsSector (h : RootOn s r) (hnames : s.names = [])
    (hused : ∃ e ∈ entriesOf r.content, e.inUse = true ∧ e.name ≠ 0) (hc : '/' ∉ c) (z : Int) :
    ¬ FindsSector c z s := by
  have h1 : (1 : Int) = (r.hdr : Int) := by rw [h.hdr]; rfl
  have hnot : 1 ∉ r.index ++ r.data := h.hdr ▸ r.hdr_not_mem
  obtain ⟨f, s₁, ⟨rfl, ho₁⟩, hwp₁⟩ := (wp_openFile_visited h.quiet r.hdr_lt).exists_iff
  have h₁ := h.visited ho₁.steady ho₁.disk r.hdr_not_mem
  obtain ⟨d, s₂, hnew, hwp₂⟩ := (wp_newDirectory_visited (s := s₁)).exists_iff
  obtain ⟨now, hnow⟩ := hnew.disk
  have h₂ := h₁.visited hnew.steady hnow hnot
  obtain ⟨_, s₃, ⟨rfl, hs₃⟩, hwp₃⟩ := Wp.exists_iff <|
    wp_fetchDirectory h₂.quiet h₂.on (hnew.steady.openOn ho₁.openOn) h₂.long hnew.size
      (Q := fun d s' => d = ⟨entriesOf r.content⟩ ∧ Steady s₂ s') fun s' hs => ⟨rfl, hs.toSteady⟩
  have hst := (ho₁.steady.trans hnew.steady).trans hs₃
  rw [FindsSector, wp_then, getFileName_eq, components_plain hc, wp_then, h1, hwp₁, wp_then, hwp₂]
  simp only [dirComps, lastComp, walkComps, wp_then]
  rw [hwp₃, wp_pure, wp_find_iff, hst.names, hnames]
  rintro ⟨a, ha, -⟩
  rw [search_nil hused] at ha
  cases ha

end RootOn

/-! ## The restart -/

theorem Rep.rootOn (hr : Rep s v) (hroot : v.node [] = some r) (h1 : r.hdr = 1)
    (ht : r.fileType = 1) : RootOn s r :=
  ⟨hr.quiet, hr.on [] r hroot, h1, v.long [] r hroot ht⟩

theorem Rep.wp_mount (hr : Rep s v) (hroot : v.node [] = some r) (h1 : r.hdr = 1)
    (ht : r.fileType = 1) (host : Nat → Nat → Word) :
    Wp mount (fun _ s' => RootOn s' r ∧ s'.names = []) (s.restarted host) := by
  have h₀ : RootOn (s.restarted host) r :=
    ⟨⟨fun _ _ => rfl, rfl⟩, hr.on [] r hroot, h1, v.long [] r hroot ht⟩
  have hnot₀ : 0 ∉ r.index ++ r.data := Volume.header_not_mem hroot (.inl rfl)
  have hnot₁ : 1 ∉ r.index ++ r.data := h1 ▸ r.hdr_not_mem
  simp only [mount, wp_then, wp_pure]
  refine (wp_openFile_visited (h := 0) h₀.quiet (by decide)).mono ?_
  rintro _ s₁ ⟨-, ho₁⟩
  have h₁ := h₀.visited ho₁.steady ho₁.disk hnot₀
  refine (wp_openFile_visited (h := 1) h₁.quiet (by decide)).mono ?_
  rintro _ s₂ ⟨-, ho₂⟩
  exact ⟨h₁.visited ho₂.steady ho₂.disk hnot₁, ho₂.steady.names.trans ho₁.steady.names⟩

theorem Rep.rootEmpty_iff (hr : Rep s v) : RootEmpty s ↔ ∀ j, v.node ([] ++ [j]) = none := by
  obtain ⟨r, hroot, h1, ht⟩ := v.root
  rw [RootEmpty, ← h1, (hr.on [] r hroot).fileBytes]
  constructor
  · intro h j
    cases hn : v.node ([] ++ [j]) with
    | none => rfl
    | some n =>
      obtain ⟨-, e, -, he, -⟩ :=
        Volume.entry_child hroot ht (Volume.child_eq_some.mpr ⟨⟨n, hn⟩, rfl⟩)
      have hdesc := v.entry [] r hroot ht j e he
      rw [hn] at hdesc
      exact absurd hdesc.1 (by rw [h e (List.mem_of_getElem? he)]; decide)
  · intro h e he
    obtain ⟨j, hj⟩ := List.mem_iff_getElem?.mp he
    have hdesc := v.entry [] r hroot ht j e hj
    rw [h j] at hdesc
    exact hdesc

theorem Rep.namesPersist (hr : Rep s v) (h : RootEmpty s) : NamesPersist s := by
  obtain ⟨r, hroot, h1, ht⟩ := v.root
  rw [RootEmpty, ← h1, (hr.on [] r hroot).fileBytes] at h
  intro host name z hz
  -- before the restart no path leads anywhere, either
  have hnone := (hr.rootOn hroot h1 ht).findsSector_none h name
  obtain ⟨_, _, ⟨rfl, rfl⟩, -⟩ := (hz.and hnone).exists_iff
  refine (hr.wp_mount hroot h1 ht host).mono fun _ s' hs' => ?_
  exact hs'.1.findsSector_none h name

theorem Rep.not_wp_mount {j : Nat} {n : FileNode} (hr : Rep s v) (hc : '/' ∉ c)
    (hb : v.Binds c [] j n) (host : Nat → Nat → Word) (z : Int) :
    ¬ Wp mount (fun _ => FindsSector c z) (s.restarted host) := by
  obtain ⟨r, hroot, h1, ht⟩ := v.root
  obtain ⟨n', e, hn', he, -⟩ := Volume.entry_child hroot ht hb.child
  have hdesc := v.entry [] r hroot ht j e he
  rw [hn'] at hdesc
  obtain ⟨hin, -, hname, -⟩ := hdesc
  intro hwp
  obtain ⟨_, s', ⟨⟨hon, hnames⟩, hfind⟩, -⟩ :=
    ((hr.wp_mount hroot h1 ht host).and hwp).exists_iff
  exact hon.not_findsSector hnames ⟨e, List.mem_of_getElem? he, hin, hname⟩ hc z hfind

theorem Rep.rootEmpty_of_namesPersist (hr : Rep s v) (h : NamesPersist s) : RootEmpty s := by
  refine hr.rootEmpty_iff.mpr fun j => ?_
  cases hn : v.node ([] ++ [j]) with
  | none => rfl
  | some n =>
    have hplain := v.plain [] j n hn
    have hb : v.Binds (v.label ([] ++ [j])) [] j n := by
      refine ⟨?_, ?_, hn⟩
      · rw [components_plain hplain]
        rfl
      · rw [components_plain hplain]
        exact Volume.child_eq_some.mpr ⟨⟨n, hn⟩, rfl⟩
    have hfound : FindsSector (v.label ([] ++ [j])) n.hdr s := Volume.wp_find_of_held hr.held hb
    exact absurd (h s.host _ _ hfound) (hr.not_wp_mount hplain hb s.host _)

/-! ## A directory that is made, and removed again -/

theorem FirstDirectory.wp_remove {fs : FileSystem} {i : Nat} {n : FileNode}
    (h : FirstDirectory fs s v ['d'] i n) {Q : Bool → Kernel → Prop}
    (hQ : ∀ s' v', Rep s' v' → (∀ j, v'.node ([] ++ [j]) = none) → Q true s') :
    Wp (fs.remove ['d']) Q s := by
  have hbelow : ∀ j, v.node ([] ++ [i] ++ [j]) = none := fun j =>
    h.only _ (by simp) (by simp)
  have hshort : v.Short ['d'] ([] ++ [i]) := by
    intro js m hjs hm
    rw [h.only _ (by simp) (by simpa using hjs)] at hm
    cases hm
  have hkeeps := FileNode.not_refuses_of_dir h.isDir
  refine wp_removeFuel h.rep h.marks h.openOn h.binds hshort (.inr hbelow) ⟨by omega, by decide⟩
    fun s' v' lost hr' _ hrm => ?_
  rw [decide_eq_true hkeeps]
  refine hQ s' v' hr' fun j => ?_
  by_cases hj : j = i
  · rw [hj]
    exact hrm.gone h.binds.node hkeeps List.prefix_rfl
  · have hpre : ¬ [] ++ [i] <+: [] ++ [j] := fun hp =>
      hj (Volume.concat_inj (hp.eq_of_length rfl)).2.symm
    rw [hrm.kept _ hpre (by simp)]
    exact h.only _ (by simp) (by simpa using hj)

/-- In every state with a tree, the paths lead after a restart to where they led before just if no
entry of the root directory is in use, so that there are none. -/
theorem namesPersist_iff (hr : Rep s v) : NamesPersist s ↔ RootEmpty s :=
  ⟨hr.rootEmpty_of_namesPersist, hr.namesPersist⟩

/-- The directory is removed again, and the root has no entry. -/
theorem namesPersist_remove : Wp (do
    let fs ← format
    let made ← fs.create ['d'] 1 1
    let removed ← fs.remove ['d']
    return (made, removed)) (fun r s => r = (true, true) ∧ NamesPersist s) Kernel.zeroed := by
  have h := wp_formatDirectory (by decide) (Q := fun r => Wp (r.1.remove ['d']) fun removed s =>
    (r.2, removed) = (true, true) ∧ NamesPersist s) fun fs s v i n h =>
      h.wp_remove fun s' v' hr' hnone =>
        ⟨rfl, (namesPersist_iff hr').mpr (hr'.rootEmpty_iff.mpr hnone)⟩
  simpa only [wp_then, wp_pure] using h

/-- The name of the directory is found, until the restart. -/
theorem not_namesPersist_create : Wp (do
    let fs ← format
    let made ← fs.create ['d'] 1 1
    return (fs, made)) (fun r s => r.2 = true ∧ ∃ z, FindsSector ['d'] z s ∧
      ∀ host, ¬ Wp mount (fun _ => FindsSector ['d'] z) (s.restarted host)) Kernel.zeroed := by
  refine wp_formatDirectory (by decide) fun fs s v i n h => ⟨rfl, n.hdr, ?_, fun host => ?_⟩
  · exact Volume.wp_find_of_held h.rep.held h.binds
  · exact h.rep.not_wp_mount (by decide) h.binds host n.hdr

end Nachos
