import Nachos.FileSys.FormatSpec

/-! Paths that run into a plain file. `getFileName` does not look at the type of what it opens: it
reads the first bytes of the file over the table of the directory before it, and goes on with
whatever table that gives. -/

namespace Nachos
open Lib Program FileSystem

variable {s s' : Kernel} {v : Volume} {name : CString} {d n : FileNode} {f : Handle}

/-- The table that `FetchFrom` leaves: the bytes of the file `n` over the table `T`. -/
def Directory.over (T : Directory) (n : FileNode) : Directory := T.load (n.content.take 120)

theorem Directory.tableSize_over {T : Directory} (h : T.tableSize = 10) (n : FileNode) :
    (T.over n).tableSize = 10 := by
  have hl : T.toBytes.length = 120 := by rw [Directory.length_toBytes, h]
  rw [Directory.over, Directory.tableSize, Directory.load]
  refine length_entriesOfWords ?_
  rw [length_wordsOfBytes, List.length_append, List.length_drop, List.length_take, hl]
  omega

def Volume.File (v : Volume) (n : FileNode) : Prop := n = v.mapFile ∨ ∃ p, v.node p = some n

theorem Volume.File.header (hn : v.File n) : v.Header n.hdr := by
  rcases hn with rfl | ⟨p, hn⟩
  · exact .inl v.isMap.hdr
  · exact .inr ⟨p, n, hn, rfl⟩

theorem Volume.Header.file {x : Nat} (h : v.Header x) : ∃ n, v.File n ∧ n.hdr = x := by
  rcases h with rfl | ⟨p, n, hn, rfl⟩
  · exact ⟨v.mapFile, .inl rfl, v.isMap.hdr⟩
  · exact ⟨n, .inr ⟨p, hn⟩, rfl⟩

theorem Rep.file (hr : Rep s v) (hn : v.File n) : n.On s.disk := by
  rcases hn with rfl | ⟨p, hn⟩
  · exact hr.map
  · exact hr.on p n hn

theorem fetchFrom_over (hq : s.Quiet) (hn : n.Holds s.disk) (ho : s.OpenOn f n.hdr)
    {T : Directory} (hT : T.tableSize = 10) :
    ∃ s', Fetched s s' f n.hdr ∧ ∀ Q : Directory → Kernel → Prop,
      Wp (T.fetchFrom f) Q s ↔ Q (T.over n) s' := by
  have hnum : (12 * (T.tableSize : Int)) = 120 := by
    rw [hT]
    rfl
  obtain ⟨_, s', ⟨rfl, hs⟩, hwp⟩ := Wp.exists_iff <|
    wp_readAt (p := 0) hq hn ho (show (120 : Int) + 0 < _ by decide)
      (Q := fun r s' => r = n.content.take 120 ∧ Fetched s s' f n.hdr) fun s' hs => ⟨rfl, hs⟩
  refine ⟨s', hs, fun Q => ?_⟩
  rw [Directory.fetchFrom, wp_then, hnum]
  exact (hwp _).trans wp_pure

theorem Rep.fetches (hr : Rep s v) (hn : v.File n) (ho : s.OpenOn f n.hdr)
    {T : Directory} (hT : T.tableSize = 10) :
    ∃ s', Rep s' v ∧ Steady s s' ∧ s'.disk = s.disk ∧ ∀ Q : Directory → Kernel → Prop,
      Wp (T.fetchFrom f) Q s ↔ Q (T.over n) s' := by
  obtain ⟨s', hs, hwp⟩ := fetchFrom_over hr.quiet (hr.file hn).holds ho hT
  exact ⟨s', hr.steady hs.toSteady hs.disk, hs.toSteady, hs.disk, hwp⟩

/-! ## Lookups that do not look at types -/

namespace Volume

/-- Lookups of the names `cs` that start at the file `n` with the table `T`, each in the bytes of
the last file over the last table. They end with the table `T'` at the file `m`, and `b` says
whether all names were found. -/
inductive Follows (v : Volume) :
    Directory → FileNode → List CString → Bool → Directory → FileNode → Prop
  | done (T : Directory) (n : FileNode) : Follows v T n [] true (T.over n) n
  | fails {T : Directory} {n : FileNode} {c : CString} {r : Option Nat} (cs : List CString) :
      search v.names c (T.over n).table = some r → slotSector (T.over n).table r = -1 →
      Follows v T n (c :: cs) false (T.over n) n
  | step {T : Directory} {n : FileNode} {c : CString} {r : Option Nat} {cs : List CString}
      {n' : FileNode} {b : Bool} {T' : Directory} {m : FileNode} :
      search v.names c (T.over n).table = some r → v.File n' →
      slotSector (T.over n).table r = n'.hdr → Follows v (T.over n) n' cs b T' m →
      Follows v T n (c :: cs) b T' m

/-- The lookups come to a sector of the disk that is not the header of a file. -/
inductive Escapes (v : Volume) : Directory → FileNode → List CString → Prop
  | here {T : Directory} {n : FileNode} {c : CString} {r : Option Nat} {x : Nat}
      (cs : List CString) :
      search v.names c (T.over n).table = some r → x < 1024 → slotSector (T.over n).table r = x →
      ¬ v.Header x → Escapes v T n (c :: cs)
  | step {T : Directory} {n : FileNode} {c : CString} {r : Option Nat} {cs : List CString}
      {n' : FileNode} :
      search v.names c (T.over n).table = some r → v.File n' →
      slotSector (T.over n).table r = n'.hdr → Escapes v (T.over n) n' cs →
      Escapes v T n (c :: cs)

end Volume

section walk
variable {last : CString} {cs : List CString} {T : Directory}

theorem Rep.walkComps_cons (hr : Rep s v) (hn : v.File n) (ho : s.OpenOn f n.hdr)
    (hT : T.tableSize = 10) (last c : CString) (cs : List CString) :
    ∃ s', Rep s' v ∧ Steady s s' ∧ s'.disk = s.disk ∧
      ∀ Q : Option CString × Directory × Handle → Kernel → Prop,
      Wp (walkComps last T f (c :: cs)) Q s ↔
        ∃ r, search v.names c (T.over n).table = some r ∧
          if slotSector (T.over n).table r = -1 then Q (none, T.over n, f) s'
          else Wp (OpenFile.new (slotSector (T.over n).table r)) (fun g =>
            Wp (walkComps last (T.over n) g cs) Q) s' := by
  obtain ⟨s₁, hr₁, hst₁, hd₁, hwp₁⟩ := hr.fetches hn ho hT
  refine ⟨s₁, hr₁, hst₁, hd₁, fun Q => ?_⟩
  rw [walkComps, wp_then, hwp₁, wp_then, wp_find_iff, hr₁.names]
  refine exists_congr fun r => and_congr_right fun hrr => ?_
  split
  · rw [wp_pure]
  · rw [wp_then, wp_find_iff, hr₁.names]
    simp only [hrr, Option.some.injEq, exists_eq_left', wp_then]

theorem Rep.opens (hr : Rep s v) (hn : v.File n) :
    ∃ s' g, Rep s' v ∧ Steady s s' ∧ s'.OpenOn g n.hdr ∧ Restamped v.Header s.disk s'.disk ∧
      ∀ Q : Handle → Kernel → Prop, Wp (OpenFile.new n.hdr) Q s ↔ Q g s' := by
  obtain ⟨g, s', ⟨rfl, ho⟩, hwp⟩ := (wp_openFile_visited hr.quiet n.hdr_lt).exists_iff
  have hs : Restamped v.Header s.disk s'.disk := ho.disk ▸ .visited hn.header _
  exact ⟨s', s.nextFile, hr.restamped ho.steady hs, ho.steady, ho.openOn, hs, hwp⟩

theorem Rep.walkComps_follows {b : Bool} {T' : Directory} {m : FileNode}
    (h : v.Follows T n cs b T' m) (hr : Rep s v) (hn : v.File n)
    (ho : s.OpenOn f n.hdr) (hT : T.tableSize = 10) :
    ∃ s' f', Rep s' v ∧ Steady s s' ∧ Restamped v.Header s.disk s'.disk ∧ s'.OpenOn f' m.hdr ∧
      T'.tableSize = 10 ∧ ∀ Q : Option CString × Directory × Handle → Kernel → Prop,
      Wp (walkComps last T f cs) Q s ↔ Q (if b then some last else none, T', f') s' := by
  induction h generalizing s f with
  | done T n =>
    obtain ⟨s₁, hr₁, hst₁, hd₁, hwp₁⟩ := hr.fetches hn ho hT
    refine ⟨s₁, f, hr₁, hst₁, hd₁ ▸ .refl _, hst₁.openOn ho, T.tableSize_over hT n, fun Q => ?_⟩
    rw [walkComps, wp_then, hwp₁, wp_pure]
    rfl
  | @fails T n c r cs hsearch hnone =>
    obtain ⟨s₁, hr₁, hst₁, hd₁, hwp₁⟩ := hr.walkComps_cons hn ho hT last c cs
    refine ⟨s₁, f, hr₁, hst₁, hd₁ ▸ .refl _, hst₁.openOn ho, T.tableSize_over hT n, fun Q => ?_⟩
    rw [hwp₁]
    simp only [hsearch, Option.some.injEq, exists_eq_left', hnone, if_true]
    rfl
  | @step T n c r cs n' b T' m hsearch hn' hsec _ ih =>
    obtain ⟨s₁, hr₁, hst₁, hd₁, hwp₁⟩ := hr.walkComps_cons hn ho hT last c cs
    obtain ⟨s₂, g, hr₂, hst₂, ho₂, hs₂, hwp₂⟩ := hr₁.opens hn'
    obtain ⟨s₃, f', hr₃, hst₃, hs₃, ho₃, hT', hwp₃⟩ := ih hr₂ hn' ho₂ (T.tableSize_over hT n)
    have hpos : ¬ (n'.hdr : Int) = -1 := by omega
    refine ⟨s₃, f', hr₃, (hst₁.trans hst₂).trans hst₃, (hd₁ ▸ hs₂).trans hs₃, ho₃, hT',
      fun Q => ?_⟩
    rw [hwp₁]
    simp only [hsearch, Option.some.injEq, exists_eq_left', hsec, hpos, if_false, hwp₂, hwp₃]

theorem exists_of_wp_new {y : Int} {Q : Handle → Kernel → Prop} (h : Wp (OpenFile.new y) Q s) :
    ∃ x < 1024, y = (x : Nat) := by
  rw [OpenFile.new, wp_then, wp_newFile, wp_then] at h
  by_cases hy : 0 ≤ y ∧ y < 1024
  · obtain ⟨x, rfl⟩ := Int.eq_ofNat_of_zero_le hy.1
    exact ⟨x, by omega, rfl⟩
  · exact absurd h (not_wp_of_fault (by simp only [Kernel.exec, if_neg hy]))

/-- If they return at all, the lookups stay with the files or escape. -/
theorem Rep.follows_or_escapes {Q : Option CString × Directory × Handle → Kernel → Prop}
    (hr : Rep s v) (hn : v.File n) (ho : s.OpenOn f n.hdr) (hT : T.tableSize = 10)
    (h : Wp (walkComps last T f cs) Q s) :
    (∃ b T' m, v.Follows T n cs b T' m) ∨ v.Escapes T n cs := by
  induction cs generalizing s T n f with
  | nil => exact .inl ⟨true, T.over n, n, .done T n⟩
  | cons c cs ih =>
    obtain ⟨s₁, hr₁, -, -, hwp₁⟩ := hr.walkComps_cons hn ho hT last c cs
    obtain ⟨r, hsearch, h₁⟩ := (hwp₁ _).mp h
    by_cases hnone : slotSector (T.over n).table r = -1
    · exact .inl ⟨false, T.over n, n, .fails cs hsearch hnone⟩
    rw [if_neg hnone] at h₁
    obtain ⟨x, hx, hsec⟩ := exists_of_wp_new h₁
    by_cases hhdr : v.Header x
    · obtain ⟨n', hn', rfl⟩ := hhdr.file
      obtain ⟨s₂, g, hr₂, -, ho₂, -, hwp₂⟩ := hr₁.opens hn'
      rw [hsec, hwp₂] at h₁
      rcases ih hr₂ hn' ho₂ (T.tableSize_over hT n) h₁ with ⟨b, T', m, hf⟩ | he
      · exact .inl ⟨b, T', m, .step hsearch hn' hsec hf⟩
      · exact .inr (.step hsearch hn' hsec he)
    · exact .inr (.here cs hsearch hx hsec hhdr)

end walk

theorem Rep.getFileName_runsInto (hr : Rep s v) {rest : List CString}
    (h : v.RunsInto [] (dirComps (components name)) d n rest) :
    ∃ s' f p, Rep s' v ∧ Steady s s' ∧ Restamped v.Header s.disk s'.disk ∧
      v.node p = some n ∧ s'.OpenOn f n.hdr ∧
      (Directory.mk (entriesOf d.content)).tableSize = 10 ∧
      ∀ Q : Option CString × Directory × Handle → Kernel → Prop, Wp (getFileName name) Q s ↔
        Wp (walkComps (lastComp (components name)) ⟨entriesOf d.content⟩ f rest) Q s' := by
  obtain ⟨cs₁, c₁, q, i, hcs, hw, hd, hc, hn, -⟩ := h
  obtain ⟨-, d', hd', ht⟩ := v.parent q i n hn
  obtain rfl := Option.some.inj (hd.symm.trans hd')
  -- through the directories up to `d`, and into the plain file
  obtain ⟨s₁, d₁, f₁, -, h₁, hwp₁⟩ := hr.getFileName_walk hcs hw hd ht
  obtain ⟨s₂, h₂, hwp₂⟩ := h₁.round
  have hr₂ := hr.arrived h₂
  have hsec := Volume.sectorOf_found hd ht hc hn
  have hpos : ¬ (n.hdr : Int) = -1 := by omega
  obtain ⟨g, s₃, ⟨hr₃, hst₃, ho₃, hs₃⟩, hwp₃⟩ := Wp.exists_iff <| hr₂.wp_open hn
    (Q := fun g s₃ => Rep s₃ v ∧ Steady s₂ s₃ ∧ s₃.OpenOn g n.hdr ∧
      Restamped v.Header s₂.disk s₃.disk)
    fun s₃ hr₃ hst₃ ho₃ _ hs₃ => ⟨hr₃, hst₃, ho₃, hs₃⟩
  have hstamps := (h₂.stamps.mono fun _ => Volume.header_of_dirs).trans hs₃
  refine ⟨s₃, g, q ++ [i], hr₃, h₂.steady.trans hst₃, hstamps, hn, ho₃,
    Volume.length_entries hd ht, fun Q => ?_⟩
  rw [hwp₁, hwp₂, hsec, if_neg hpos, hwp₃]

namespace Volume

def LeadsTo (v : Volume) (cs : List CString) (d : FileNode) : Prop :=
  ∃ q, v.walk [] cs = some q ∧ v.node q = some d ∧ d.fileType = 1

theorem LeadsTo.unique {cs : List CString} {d d' : FileNode} (h : v.LeadsTo cs d)
    (h' : v.LeadsTo cs d') : d = d' := by
  obtain ⟨q, hw, hd, -⟩ := h
  obtain ⟨q', hw', hd', -⟩ := h'
  obtain rfl := Option.some.inj (hw.symm.trans hw')
  exact Option.some.inj (hd.symm.trans hd')

theorem LeadsTo.throughDirs {cs : List CString} (h : v.LeadsTo cs d) : v.ThroughDirs [] cs := by
  obtain ⟨q, hw, hd, ht⟩ := h
  exact throughDirs_of_walk hw hd ht

theorem throughDirs_append {p : Place} {cs cs' : List CString} (h : v.ThroughDirs p cs)
    (h' : ∀ q, v.walk p cs = some q → v.ThroughDirs q cs') : v.ThroughDirs p (cs ++ cs') := by
  induction cs generalizing p with
  | nil => exact h' p rfl
  | cons c cs ih =>
    intro i hi
    obtain ⟨hdir, hrest⟩ := h i hi
    exact ⟨hdir, ih hrest fun q hq => h' q ((walk_cons_of_child hi).trans hq)⟩

theorem MissesAt.throughDirs {p q : Place} {cs : List CString} (h : v.MissesAt p cs q d) :
    v.ThroughDirs p cs := by
  obtain ⟨cs₁, c, cs₂, rfl, hw, hd, ht, hc⟩ := h
  refine throughDirs_append (throughDirs_of_walk hw hd ht) fun q' hq' i hi => ?_
  obtain rfl := Option.some.inj (hw.symm.trans hq')
  rw [hc] at hi
  cases hi

theorem MissesAt.not_leadsTo {q : Place} {cs : List CString} {d' : FileNode}
    (h : v.MissesAt [] cs q d) : ¬ v.LeadsTo cs d' := by
  rintro ⟨q', hw, -⟩
  rw [h.walk] at hw
  cases hw

theorem RunsInto.not_leadsTo {cs rest : List CString} {d' : FileNode}
    (h : v.RunsInto [] cs d n rest) : ¬ v.LeadsTo cs d' := fun hl =>
  h.not_throughDirs hl.throughDirs

/-- What `getFileName` answers on the path: the name, null if a lookup fails, and the table. -/
inductive Answers (v : Volume) (name : CString) : Option CString → Directory → Prop
  | found {d : FileNode} (h : v.LeadsTo (dirComps (components name)) d) :
      Answers v name (some (lastComp (components name))) ⟨entriesOf d.content⟩
  | missing {q : Place} {d : FileNode} (h : v.MissesAt [] (dirComps (components name)) q d) :
      Answers v name none ⟨entriesOf d.content⟩
  | through {d n m : FileNode} {rest : List CString} {b : Bool} {T : Directory}
      (h : v.RunsInto [] (dirComps (components name)) d n rest)
      (hf : v.Follows ⟨entriesOf d.content⟩ n rest b T m) :
      Answers v name (if b then some (lastComp (components name)) else none) T

/-- The path runs into a plain file, and a lookup behind it fails. -/
def FailsBehind (v : Volume) (cs : List CString) : Prop :=
  ∃ d n rest T m, v.RunsInto [] cs d n rest ∧ v.Follows ⟨entriesOf d.content⟩ n rest false T m

/-- The path runs into a plain file, and the lookups behind it come to a sector that is not a
header. -/
def EscapesOn (v : Volume) (cs : List CString) : Prop :=
  ∃ d n rest, v.RunsInto [] cs d n rest ∧ v.Escapes ⟨entriesOf d.content⟩ n rest

end Volume

theorem Rep.getFileName_answers (hr : Rep s v) {nm : Option CString} {T : Directory}
    (h : v.Answers name nm T) :
    ∃ s' f, Rep s' v ∧ Steady s s' ∧ Restamped v.Header s.disk s'.disk ∧
      ∀ Q : Option CString × Directory × Handle → Kernel → Prop,
      Wp (getFileName name) Q s ↔ Q (nm, T, f) s' := by
  rcases h with ⟨q, hw, hd, ht⟩ | hmiss | ⟨hrun, hf⟩
  · obtain ⟨s', f, hr', h', hwp⟩ := hr.getFileName_found hw hd ht
    exact ⟨s', f, hr', h'.steady, h'.stamps.mono fun _ => Volume.header_of_dirs, hwp⟩
  · obtain ⟨s', f, hr', h', hwp⟩ := hr.getFileName_missing hmiss
    exact ⟨s', f, hr', h'.steady, h'.stamps.mono fun _ => Volume.header_of_dirs, hwp⟩
  · obtain ⟨s₁, f₁, p, hr₁, hst₁, hs₁, hn, ho, hlen, hwp₁⟩ := hr.getFileName_runsInto hrun
    obtain ⟨s₂, f₂, hr₂, hst₂, hs₂, -, -, hwp₂⟩ := hr₁.walkComps_follows hf (.inr ⟨p, hn⟩) ho hlen
    exact ⟨s₂, f₂, hr₂, hst₁.trans hst₂, hs₁.trans hs₂, fun Q => (hwp₁ Q).trans (hwp₂ Q)⟩

theorem Rep.answers_or_escapes {Q : Option CString × Directory × Handle → Kernel → Prop}
    (hr : Rep s v) (h : Wp (getFileName name) Q s) :
    (∃ nm T, v.Answers name nm T) ∨ v.EscapesOn (dirComps (components name)) := by
  obtain ⟨r, hroot, -, hrt⟩ := v.root
  rcases Volume.walk_cases (dirComps (components name)) hroot hrt with
    ⟨q, d, hw, hd, ht⟩ | ⟨q, d, hmiss⟩ | ⟨d, n, rest, hrun⟩
  · exact .inl ⟨_, _, .found ⟨q, hw, hd, ht⟩⟩
  · exact .inl ⟨_, _, .missing hmiss⟩
  · obtain ⟨s₁, f, p, hr₁, -, -, hn, ho, hlen, hwp⟩ := hr.getFileName_runsInto hrun
    rcases hr₁.follows_or_escapes (.inr ⟨p, hn⟩) ho hlen ((hwp Q).mp h) with ⟨b, T, m, hf⟩ | he
    · exact .inl ⟨_, _, .through hrun hf⟩
    · exact .inr ⟨d, n, rest, hrun, he⟩

/-- What `getFileName` should leave: the last component and the directory that the others lead to,
or a null name if they do not lead to a directory. -/
structure ResolvesPath (v : Volume) (name : CString) (s' : Kernel)
    (r : Option CString × Directory × Handle) : Prop where
  found : ∀ d, v.LeadsTo (dirComps (components name)) d →
    r.1 = some (lastComp (components name)) ∧ r.2.1 = ⟨entriesOf d.content⟩ ∧
      s'.OpenOn r.2.2 d.hdr
  null : (∀ d, ¬ v.LeadsTo (dirComps (components name)) d) → r.1 = none

def Resolves (v : Volume) (name : CString) (s : Kernel) : Prop :=
  Wp (getFileName name) (fun r s' => ResolvesPath v name s' r) s

theorem Rep.resolves_of_throughDirs (hr : Rep s v)
    (hthru : v.ThroughDirs [] (dirComps (components name))) : Resolves v name s := by
  obtain ⟨r, hroot, -, hrt⟩ := v.root
  unfold Resolves
  rcases Volume.walk_cases (dirComps (components name)) hroot hrt with
    ⟨q, d, hw, hd, ht⟩ | ⟨q, d, hmiss⟩ | ⟨d, n, rest, hrun⟩
  · obtain ⟨s', f, -, h', hwp⟩ := hr.getFileName_found hw hd ht
    have hlead : v.LeadsTo (dirComps (components name)) d := ⟨q, hw, hd, ht⟩
    refine (hwp _).mpr ⟨fun d' hd' => ?_, fun hno => absurd hlead (hno d)⟩
    obtain rfl := hd'.unique hlead
    exact ⟨rfl, rfl, h'.openOn⟩
  · obtain ⟨s', f, -, -, hwp⟩ := hr.getFileName_missing hmiss
    exact (hwp _).mpr ⟨fun d' hd' => absurd hd' hmiss.not_leadsTo, fun _ => rfl⟩
  · exact absurd hthru hrun.not_throughDirs

theorem Rep.resolves_through (hr : Rep s v) {rest : List CString} {b : Bool} {T : Directory}
    {m : FileNode} (hrun : v.RunsInto [] (dirComps (components name)) d n rest)
    (hf : v.Follows ⟨entriesOf d.content⟩ n rest b T m) : Resolves v name s ↔ b = false := by
  obtain ⟨s', f, -, -, -, hwp⟩ := hr.getFileName_answers (.through hrun hf)
  rw [Resolves, hwp]
  constructor
  · intro h
    have hnull := h.null fun d' => hrun.not_leadsTo
    cases b with
    | true => cases hnull
    | false => rfl
  · rintro rfl
    exact ⟨fun d' hd' => absurd hd' hrun.not_leadsTo, fun _ => rfl⟩

/-- `getFileName` resolves every path that does not run into a plain file, and one that does if a
lookup behind the file fails. It resolves no other path, except maybe one whose lookups come to a
sector that is not a header. -/
theorem getFileName_resolves (hr : Rep s v) (name : CString) :
    (v.ThroughDirs [] (dirComps (components name)) ∨ v.FailsBehind (dirComps (components name)) →
      Resolves v name s) ∧
    (Resolves v name s → v.ThroughDirs [] (dirComps (components name)) ∨
      v.FailsBehind (dirComps (components name)) ∨
        v.EscapesOn (dirComps (components name))) := by
  constructor
  · rintro (hthru | ⟨d, n, rest, T, m, hrun, hf⟩)
    · exact hr.resolves_of_throughDirs hthru
    · exact (hr.resolves_through hrun hf).mpr rfl
  · intro h
    rcases hr.answers_or_escapes h with ⟨_, _, hlead | hmiss | ⟨hrun, hf⟩⟩ | he
    · exact .inl hlead.throughDirs
    · exact .inl hmiss.throughDirs
    · obtain rfl := (hr.resolves_through hrun hf).mp h
      exact .inr (.inl ⟨_, _, _, _, _, hrun, hf⟩)
    · exact .inr (.inr he)

/-- The path `r/A/f` on a disk with the directory `A`. -/
theorem getFileName_resolves_nested : ∃ s v d, Rep s v ∧
    v.LeadsTo (dirComps (components ['r', '/', 'A', '/', 'f'])) d ∧
    Resolves v ['r', '/', 'A', '/', 'f'] s := by
  obtain ⟨fs, s, -, v, i, j, n, m, h⟩ := wp_nested
  have hcomps : components ['r', '/', 'A', '/', 'f'] = [['r'], ['A'], ['f']] := by decide
  have hlead : v.LeadsTo (dirComps (components ['r', '/', 'A', '/', 'f'])) n := by
    rw [hcomps]
    exact ⟨[i], (congrArg (Option.bind · _) h.child).trans rfl, h.dir, h.isDir⟩
  exact ⟨s, v, n, h.rep, hlead, (getFileName_resolves h.rep _).1 (.inl hlead.throughDirs)⟩

theorem FirstFile.runsInto {fs : FileSystem} {size : Int} {i : Nat}
    (h : FirstFile s s' fs v ['a'] size i n) (rest : List CString) :
    ∃ d, v.RunsInto [] (['a'] :: rest) d n rest := by
  obtain ⟨d, hroot, -, -⟩ := v.root
  refine ⟨d, [], ['a'], [], i, rfl, rfl, hroot, h.binds.child, h.binds.node, ?_⟩
  rw [h.fileType]
  decide

/-- On a disk with one plain file, the path `r/a/x` goes through it, and the name is not null. -/
theorem getFileName_through_file : ∃ s v, Rep s v ∧
    (∀ d, ¬ v.LeadsTo (dirComps (components ['r', '/', 'a', '/', 'x'])) d) ∧
    Wp (getFileName ['r', '/', 'a', '/', 'x']) (fun r _ => r.1 = some ['x']) s := by
  have hfirst := wp_formatCreate ['a'] 0 Kernel.quiet_zeroed (by decide) (by decide) (by decide)
    (by decide) (Q := fun _ s => ∃ v d n, Rep s v ∧ v.RunsInto [] [['a']] d n [])
    fun s _ v i n h => by
      obtain ⟨d, hd⟩ := h.runsInto []
      exact ⟨v, d, n, h.rep, hd⟩
  obtain ⟨-, s, -, v, d, n, hr, hrun⟩ := hfirst
  have hcomps : components ['r', '/', 'a', '/', 'x'] = [['r'], ['a'], ['x']] := by decide
  have hrun' : v.RunsInto [] (dirComps (components ['r', '/', 'a', '/', 'x'])) d n [] := by
    rw [hcomps]
    exact hrun
  obtain ⟨s', f, -, -, -, hwp⟩ := hr.getFileName_answers (.through hrun' (.done _ n))
  refine ⟨s, v, hr, fun d' => hrun'.not_leadsTo, (hwp _).mpr ?_⟩
  rw [hcomps]
  rfl

end Nachos
