import Nachos.FileSys.CreateSpec

/-! `FileSystem::Open` on a tree. -/

namespace Nachos
open Lib Program FileSystem

variable {s s' : Kernel} {v : Volume} {p : Place} {n : FileNode}

def FileNode.withVisits (n : FileNode) (w : Word) : FileNode := { n with numVisits := w }

theorem FileNode.On.withVisits {d : Nat → Sector} (h : n.On d) {hdr : FileHeader} {w : Word}
    (hs : hdr.SameFile { hdrAt d n.hdr with numVisits := w }) :
    (n.withVisits w).On (Function.update d n.hdr hdr.toSector) := by
  have hh : hdrAt (Function.update d n.hdr hdr.toSector) n.hdr = hdr := by
    rw [hdrAt, Function.update_self, FileHeader.ofSector_toSector]
  have hx : ∀ y ∈ n.index ++ n.data, Function.update d n.hdr hdr.toSector y = d y := fun y hy =>
    Function.update_of_ne (fun e : y = n.hdr => n.hdr_not_mem (e ▸ hy)) _ _
  refine ⟨?_, ?_, ?_, ?_, ?_, ?_, ?_⟩
  · exact (congrArg FileHeader.fileType hh).trans (hs.fileType.trans h.fileType)
  · exact (congrArg FileHeader.numVisits hh).trans hs.numVisits
  · exact (congrArg (fun h : FileHeader => h.numBytes.toInt) hh).trans
      (by rw [hs.numBytes]; exact h.length)
  · exact (congrArg (fun h : FileHeader => h.numSectors.toInt) hh).trans
      (by rw [hs.numSectors]; exact h.numSectors)
  · intro j t hj
    change (hdrAt (Function.update d n.hdr hdr.toSector) n.hdr).entry j = _
    rw [hh, hs.entry j]
    exact h.lists j t hj
  · exact h.tables.congr fun y hy => hx y (List.mem_append_left _ hy)
  · exact (congrArg (·.take n.length.toNat)
      (blocks_congr fun y hy => hx y (List.mem_append_right _ hy))).trans
      h.content

theorem Volume.replaces_visits (hn : v.node p = some n) (w : Word) :
    v.Replaces p n (n.withVisits w) :=
  .of_sectors hn rfl rfl (v.long p n hn) fun _ => rfl

theorem Volume.Binds.replace {name : CString} {i : Nat} {n' : FileNode} (h : v.Binds name p i n)
    (hr : v.Replaces (p ++ [i]) n n') :
    (v.replace (p ++ [i]) n n' hr).Binds name p i n' := by
  have hself : (v.replace (p ++ [i]) n n' hr).node (p ++ [i]) = some n' := Function.update_self ..
  refine ⟨Volume.walk_congr h.walk (fun _ _ _ => rfl) fun t m _ hm => ?_,
    Volume.child_eq_some.mpr ⟨⟨n', hself⟩, (Volume.child_eq_some.mp h.child).2⟩, hself⟩
  obtain ⟨m', hm', -⟩ := Volume.replace_new hr hm
  exact ⟨m', hm'⟩

def Volume.setVisits (v : Volume) (p : Place) (n : FileNode) (hn : v.node p = some n)
    (w : Word) : Volume :=
  v.replace p n (n.withVisits w) (Volume.replaces_visits hn w)

theorem Rep.setVisits (hr : Rep s v) (hn : v.node p = some n) (hdr : FileHeader) {w : Word}
    (hs : hdr.SameFile { hdrAt s.disk n.hdr with numVisits := w }) :
    Rep (s.setDisk n.hdr hdr.toSector) (v.setVisits p n hn w) where
  quiet := (Steady.setDisk ..).quiet hr.quiet
  names := hr.names
  map := hr.map.frame fun x hx =>
    Function.update_of_ne (fun e : x = n.hdr => v.mapApart p n hn x hx (e ▸ List.mem_cons_self ..))
      _ _
  on q m hm := by
    rcases Volume.replace_cases hm with ⟨-, rfl⟩ | ⟨hq, hm⟩
    · exact (hr.on p n hn).withVisits hs
    · exact (hr.on q m hm).frame fun x hx => Function.update_of_ne
        (fun e : x = n.hdr => v.apart q p m n hm hn hq x hx (e ▸ List.mem_cons_self ..)) _ _

theorem Volume.owned_replace {n' : FileNode} (h : v.Replaces p n n') (hs : n'.sectors = n.sectors)
    (x : Nat) :
    (v.replace p n n' h).Owned x ↔ v.Owned x := by
  refine or_congr Iff.rfl ⟨?_, ?_⟩
  · rintro ⟨q, m, hm, hx⟩
    rcases Volume.replace_cases hm with ⟨-, rfl⟩ | ⟨-, hm⟩
    · exact ⟨p, n, h.node, hs ▸ hx⟩
    · exact ⟨q, m, hm, hx⟩
  · rintro ⟨q, m, hm, hx⟩
    by_cases hq : q = p
    · subst hq
      rw [h.node, Option.some.injEq] at hm
      exact ⟨q, n', Function.update_self .., by rw [hs, hm]; exact hx⟩
    · exact ⟨q, m, (Function.update_of_ne hq _ _).trans hm, hx⟩

theorem Volume.Marks.replace {lost : Set Nat} {n' : FileNode} (hmk : v.Marks lost)
    (h : v.Replaces p n n')
    (hs : n'.sectors = n.sectors) : (v.replace p n n' h).Marks lost :=
  ⟨fun x => (hmk.used x).trans (by rw [Volume.owned_replace h hs]),
    fun x hx => by rw [Volume.owned_replace h hs]; exact hmk.lost x hx⟩

def countVisit (d : Nat → Sector) (x : Nat) : Nat → Sector :=
  Function.update d x { hdrAt d x with numVisits := (hdrAt d x).numVisits + 1 }.toSector

theorem Restamped.countVisit {H : Nat → Prop} {d d' : Nat → Sector} (h : Restamped H d d')
    (x : Nat) : Restamped H (countVisit d x) (countVisit d' x) := by
  intro y
  by_cases hy : y = x
  · subst hy
    simp only [hdrAt, Nachos.countVisit, Function.update_self, FileHeader.ofSector_toSector]
    rcases h y with he | ⟨hH, now, hnow⟩
    · exact .inl (by rw [he])
    · refine .inr ⟨hH, now, ?_⟩
      rw [hdrAt] at hnow
      rw [hnow]
      rfl
  · simp only [hdrAt, Nachos.countVisit, Function.update_of_ne hy]
    exact h y

theorem wp_open_bound {name : CString} {i : Nat} (hr : Rep s v) (h : v.Binds name p i n)
    {Q : Handle → Kernel → Prop}
    (hQ : ∀ s' f, Rep s' (v.setVisits (p ++ [i]) n h.node (n.numVisits + 1)) → Steady s s' →
      s'.OpenOn f n.hdr → s.nextFile ≤ f → (s'.files f).seekPosition = 0 →
      Restamped v.Header (countVisit s.disk n.hdr) s'.disk → Q f s') :
    Wp («open» name) Q s := by
  obtain ⟨-, d, hd, ht⟩ := v.parent p i n h.node
  obtain ⟨s₁, f, hr₁, h₁, hwp⟩ := hr.getFileName_found h.walk hd ht
  have hpos : (n.hdr : Int) ≥ 0 := by omega
  rw [«open», wp_then, hwp]
  simp only [wp_then]
  rw [wp_lookup_found hr₁ hd ht h.child h.node, if_pos hpos]
  simp only [FileHeader.fetchFrom, FileHeader.writeBack, wp_then, wp_readSector n.hdr_lt, wp_pure,
    wp_writeSector n.hdr_lt]
  have hon₁ := hr₁.on _ n h.node
  have hr₂ := hr₁.setVisits h.node { hdrAt s₁.disk n.hdr with
    numVisits := (hdrAt s₁.disk n.hdr).numVisits + 1 } (w := n.numVisits + 1)
      ⟨rfl, rfl, by rw [hon₁.numVisits], rfl, rfl⟩
  have hst₂ := h₁.steady.trans (Steady.setDisk s₁ n.hdr ({ hdrAt s₁.disk n.hdr with
    numVisits := (hdrAt s₁.disk n.hdr).numVisits + 1 } : FileHeader).toSector)
  have hs₂ := (h₁.stamps.mono fun _ => Volume.header_of_dirs).countVisit n.hdr
  refine hr₂.wp_open (n := n.withVisits (n.numVisits + 1)) (Function.update_self ..)
    fun s₃ hr₃ hst₃ ho₃ hseek hs₃ => ?_
  have hheader : ∀ x, (v.setVisits (p ++ [i]) n h.node (n.numVisits + 1)).Header x →
      v.Header x := by
    rintro x (hx | ⟨q, m, hm, rfl⟩)
    · exact .inl hx
    · rcases Volume.replace_cases hm with ⟨-, rfl⟩ | ⟨-, hm⟩
      · exact .inr ⟨_, n, h.node, rfl⟩
      · exact .inr ⟨q, m, hm, rfl⟩
  exact hQ s₃ _ hr₃ (hst₂.trans hst₃) ho₃ hst₂.nextFile hseek (hs₂.trans (hs₃.mono hheader))

theorem wp_open_unbound {name : CString} (hr : Rep s v)
    (hthru : v.ThroughDirs [] (dirComps (components name)))
    (hc : ∀ p, v.walk [] (dirComps (components name)) = some p →
      v.child p (lastComp (components name)) = none)
    {Q : Handle → Kernel → Prop}
    (hQ : ∀ s' q d f, Rep s' v → Steady s s' → OpenDir s' v q d f → Q f s') :
    Wp («open» name) Q s := by
  rw [«open», wp_then]
  refine wp_getFileName hr hthru (fun s₁ q d f hw hr₁ hst₁ ho₁ => ?_)
    fun s₁ q d f hw hr₁ hst₁ ho₁ => ?_
  · simp only [wp_then]
    rw [wp_lookup_missing hr₁ ho₁.node ho₁.isDir (hc q hw), if_neg (by decide), wp_pure]
    exact hQ s₁ q d f hr₁ hst₁ ho₁
  · simp only [wp_then]
    rw [wp_find_null, if_neg (by decide), wp_pure]
    exact hQ s₁ q d f hr₁ hst₁ ho₁

end Nachos
