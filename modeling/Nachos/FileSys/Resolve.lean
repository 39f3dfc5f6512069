import Nachos.FileSys.Dirs
import Nachos.FileSys.Volume

/-! Path resolution: `getFileName` follows the directories of the tree. -/

namespace Nachos
open Lib Program FileSystem

variable {s s' : Kernel} {v : Volume} {p : Place} {d : Directory} {f : Handle} {n : FileNode}
  {c : CString}

structure OpenDir (s : Kernel) (v : Volume) (p : Place) (n : FileNode) (f : Handle) : Prop where
  node : v.node p = some n
  isDir : n.fileType = 1
  openOn : s.OpenOn f n.hdr

theorem OpenDir.steady (h : OpenDir s v p n f) (hst : Steady s s') : OpenDir s' v p n f :=
  ⟨h.node, h.isDir, hst.openOn h.openOn⟩

theorem Volume.entry_child (hn : v.node p = some n) (ht : n.fileType = 1) {i : Nat}
    (hc : v.child p c = some i) : ∃ n' e, v.node (p ++ [i]) = some n' ∧
      (entriesOf n.content)[i]? = some e ∧ e.sector.toInt = n'.hdr := by
  obtain ⟨⟨n', hn'⟩, -⟩ := Volume.child_eq_some.mp hc
  have hi : i < (entriesOf n.content).length := by
    rw [Volume.length_entries hn ht]
    exact (v.parent p i n' hn').1
  have he := v.entry p n hn ht i _ (List.getElem?_eq_getElem hi)
  rw [hn'] at he
  refine ⟨n', _, hn', List.getElem?_eq_getElem hi, ?_⟩
  rw [he.2.1, toInt_ofNat_sector n'.hdr_lt]

theorem wp_lookup_found (hr : Rep s v) (hn : v.node p = some n) (ht : n.fileType = 1) {i : Nat}
    {n' : FileNode} (hc : v.child p c = some i) (hn' : v.node (p ++ [i]) = some n')
    {Q : Int → Kernel → Prop} :
    Wp (Directory.find ⟨entriesOf n.content⟩ (some c)) Q s ↔ Q n'.hdr s := by
  obtain ⟨n'', e, hn'', he, hs⟩ := Volume.entry_child hn ht hc
  rw [hn', Option.some.injEq] at hn''
  have hrd := Volume.readable hn ht
  have hf := Volume.findIdx?_called (c := c) hn ht
  rw [← hr.names] at hrd hf
  rw [wp_find_found (d := ⟨entriesOf n.content⟩) hrd (hf.trans hc) he, hs, hn'']

theorem wp_lookup_missing (hr : Rep s v) (hn : v.node p = some n) (ht : n.fileType = 1)
    (hc : v.child p c = none) {Q : Int → Kernel → Prop} :
    Wp (Directory.find ⟨entriesOf n.content⟩ (some c)) Q s ↔ Q (-1) s := by
  have hrd := Volume.readable hn ht
  have hf := Volume.findIdx?_called (c := c) hn ht
  rw [← hr.names] at hrd hf
  exact wp_find_missing (d := ⟨entriesOf n.content⟩) hrd (hf.trans hc)

theorem Rep.wp_fetch (hr : Rep s v) (ho : OpenDir s v p n f) (hd : d.tableSize = 10)
    {Q : Directory → Kernel → Prop}
    (hQ : ∀ s', Rep s' v → Steady s s' → Q ⟨entriesOf n.content⟩ s') :
    Wp (d.fetchFrom f) Q s :=
  wp_fetchDirectory hr.quiet (hr.on p n ho.node) ho.openOn (v.long p n ho.node ho.isDir) hd
    fun s' hs => hQ s' (hr.steady hs.toSteady hs.disk) hs.toSteady

/-! ## The directories of a tree -/

namespace Volume

def Header (v : Volume) (x : Nat) : Prop := x = 0 ∨ ∃ p n, v.node p = some n ∧ n.hdr = x

theorem header_not_mem (hn : v.node p = some n) {x : Nat} (hx : v.Header x) :
    x ∉ n.index ++ n.data := by
  intro hm
  rcases hx with rfl | ⟨q, n', hn', rfl⟩
  · exact v.mapApart p n hn 0 (v.isMap.hdr ▸ List.mem_cons_self ..) (List.mem_cons_of_mem _ hm)
  · by_cases hpq : p = q
    · rw [hpq, hn', Option.some.injEq] at hn
      exact n.hdr_not_mem (hn ▸ hm)
    · exact v.apart p q n n' hn hn' hpq _ (List.mem_cons_of_mem _ hm) (List.mem_cons_self ..)

def dirs (v : Volume) : Dirs where
  names := v.names
  IsDir n := ∃ p, v.node p = some n ∧ n.fileType = 1
  root := by
    obtain ⟨r, hr, hr1, hrt⟩ := v.root
    exact ⟨r, ⟨[], hr, hrt⟩, hr1⟩
  long := by
    rintro n ⟨p, hn, ht⟩
    exact v.long p n hn ht
  readable := by
    rintro n ⟨p, hn, ht⟩
    exact readable hn ht
  apart := by
    rintro n n' ⟨p, hn, -⟩ ⟨q, hn', -⟩ hx
    by_cases hpq : p = q
    · rw [hpq, hn', Option.some.injEq] at hn
      exact n.hdr_not_mem (hn ▸ hx)
    · exact v.apart p q n n' hn hn' hpq _ (List.mem_cons_self ..) (List.mem_cons_of_mem _ hx)

theorem header_of_dirs {x : Nat} (h : v.dirs.Header x) : v.Header x := by
  obtain ⟨n, ⟨p, hn, -⟩, hx⟩ := h
  exact .inr ⟨p, n, hn, hx⟩

theorem sectorOf_found (hn : v.node p = some n) (ht : n.fileType = 1) {i : Nat} {n' : FileNode}
    (hc : v.child p c = some i) (hn' : v.node (p ++ [i]) = some n') :
    v.dirs.sectorOf n c = n'.hdr := by
  obtain ⟨n'', e, hn'', he, hs⟩ := entry_child hn ht hc
  rw [hn', Option.some.injEq] at hn''
  rw [Dirs.sectorOf, slotSector, show v.dirs.names = v.names from rfl, findIdx?_called hn ht, hc,
    Option.bind_some, he, hn'']
  exact hs

theorem sectorOf_missing (hn : v.node p = some n) (ht : n.fileType = 1)
    (hc : v.child p c = none) : v.dirs.sectorOf n c = -1 := by
  rw [Dirs.sectorOf, slotSector, show v.dirs.names = v.names from rfl, findIdx?_called hn ht, hc]
  rfl

/-- The names `cs` lead from `p` to the directory `d` at `q`, which does not have the next one. -/
def MissesAt (v : Volume) (p : Place) (cs : List CString) (q : Place) (d : FileNode) : Prop :=
  ∃ cs₁ c cs₂, cs = cs₁ ++ c :: cs₂ ∧ v.walk p cs₁ = some q ∧ v.node q = some d ∧
    d.fileType = 1 ∧ v.child q c = none

/-- The names `cs` lead from `p` to the directory `d`, and from there to the plain file `n`; the
names `rest` would be looked up behind it. -/
def RunsInto (v : Volume) (p : Place) (cs : List CString) (d n : FileNode)
    (rest : List CString) : Prop :=
  ∃ cs₁ c q i, cs = cs₁ ++ c :: rest ∧ v.walk p cs₁ = some q ∧ v.node q = some d ∧
    v.child q c = some i ∧ v.node (q ++ [i]) = some n ∧ n.fileType ≠ 1

theorem walk_cons_of_child {i : Nat} {cs : List CString} (hc : v.child p c = some i) :
    v.walk p (c :: cs) = v.walk (p ++ [i]) cs := by
  rw [walk, hc]
  rfl

theorem walk_cases (cs : List CString) (hn : v.node p = some n) (ht : n.fileType = 1) :
    (∃ q d, v.walk p cs = some q ∧ v.node q = some d ∧ d.fileType = 1) ∨
      (∃ q d, v.MissesAt p cs q d) ∨ ∃ d n' rest, v.RunsInto p cs d n' rest := by
  induction cs generalizing p n with
  | nil => exact .inl ⟨p, n, rfl, hn, ht⟩
  | cons c cs ih =>
    cases hc : v.child p c with
    | none => exact .inr (.inl ⟨p, n, [], c, cs, rfl, rfl, hn, ht, hc⟩)
    | some i =>
      obtain ⟨⟨n', hn'⟩, -⟩ := child_eq_some.mp hc
      by_cases ht' : n'.fileType = 1
      · rcases ih hn' ht' with ⟨q, d, hw, hd⟩ | ⟨q, d, cs₁, c', cs₂, rfl, hw, hd⟩ |
          ⟨d, n'', rest, cs₁, c', q, j, rfl, hw, hd⟩
        · exact .inl ⟨q, d, (walk_cons_of_child hc).trans hw, hd⟩
        · exact .inr (.inl ⟨q, d, c :: cs₁, c', cs₂, rfl, (walk_cons_of_child hc).trans hw, hd⟩)
        · exact .inr (.inr ⟨d, n'', rest, c :: cs₁, c', q, j, rfl,
            (walk_cons_of_child hc).trans hw, hd⟩)
      · exact .inr (.inr ⟨n, n', cs, [], c, p, i, rfl, rfl, hn, hc, hn', ht'⟩)

theorem reaches_of_walk {q : Place} {d : FileNode} {cs : List CString} (hn : v.node p = some n)
    (hw : v.walk p cs = some q) (hd : v.node q = some d) (ht : d.fileType = 1) :
    v.dirs.Reaches n cs d := by
  induction cs generalizing p n with
  | nil =>
    cases hw
    rw [hn, Option.some.injEq] at hd
    exact hd ▸ .here n
  | cons c cs ih =>
    obtain ⟨i, hc, hw'⟩ := walk_cons hw
    obtain ⟨⟨n', hn'⟩, -⟩ := child_eq_some.mp hc
    have hn₁ : n.fileType = 1 := by
      obtain ⟨-, m, hm, hmt⟩ := v.parent p i n' hn'
      rw [hn, Option.some.injEq] at hm
      exact hm ▸ hmt
    have hthru := throughDirs_of_walk hw hd ht
    obtain ⟨⟨m, hm, hmt⟩, -⟩ := hthru i hc
    rw [hn', Option.some.injEq] at hm
    exact .there ⟨p ++ [i], hn', hm ▸ hmt⟩ (sectorOf_found hn hn₁ hc hn') (ih hn' hw')

theorem MissesAt.walk {q : Place} {d : FileNode} {cs : List CString} (h : v.MissesAt p cs q d) :
    v.walk p cs = none := by
  obtain ⟨cs₁, c, cs₂, rfl, hw, -, -, hc⟩ := h
  rw [walk_append, hw, Option.bind_some, Volume.walk, hc]
  rfl

theorem RunsInto.not_throughDirs {d n' : FileNode} {cs rest : List CString}
    (h : v.RunsInto p cs d n' rest) : ¬ v.ThroughDirs p cs := by
  obtain ⟨cs₁, c, q, i, rfl, hw, -, hc, hn', ht'⟩ := h
  induction cs₁ generalizing p with
  | nil =>
    cases hw
    intro hthru
    obtain ⟨⟨m, hm, hmt⟩, -⟩ := hthru i hc
    rw [hn', Option.some.injEq] at hm
    exact ht' (hm ▸ hmt)
  | cons c' cs₁ ih =>
    obtain ⟨j, hj, hw'⟩ := walk_cons hw
    intro hthru
    exact ih hw' (hthru j hj).2

end Volume

namespace Rep

theorem restamped (hr : Rep s v) (hst : Steady s s') (hs : Restamped v.Header s.disk s'.disk) :
    Rep s' v where
  quiet := hst.quiet hr.quiet
  names := hst.names.trans hr.names
  map := hr.map.restamped hs fun x hx hH => by
    rcases hH with rfl | ⟨q, n', hn', rfl⟩
    · exact v.mapFile.hdr_not_mem (v.isMap.hdr ▸ hx)
    · exact v.mapApart q n' hn' _ (List.mem_cons_of_mem _ hx) (List.mem_cons_self ..)
  on p n hn := (hr.on p n hn).restamped hs fun x hx hH => Volume.header_not_mem hn hH hx

theorem held (hr : Rep s v) : v.dirs.Held s where
  quiet := hr.quiet
  names := hr.names
  on n hn := by
    obtain ⟨p, hp, -⟩ := hn
    exact hr.on p n hp

theorem wp_open (hr : Rep s v) (hn : v.node p = some n) {Q : Handle → Kernel → Prop}
    (hQ : ∀ s', Rep s' v → Steady s s' → s'.OpenOn s.nextFile n.hdr →
      (s'.files s.nextFile).seekPosition = 0 → Restamped v.Header s.disk s'.disk →
      Q s.nextFile s') :
    Wp (OpenFile.new n.hdr) Q s := by
  refine (wp_openFile_visited hr.quiet n.hdr_lt).mono ?_
  rintro _ s' ⟨rfl, ho⟩
  have hs : Restamped v.Header s.disk s'.disk := ho.disk ▸ .visited (.inr ⟨p, n, hn, rfl⟩) _
  exact hQ s' (hr.restamped ho.steady hs) ho.steady ho.openOn ho.seek hs

theorem arrived (hr : Rep s v) {n : FileNode} {d : Directory} {f : Handle}
    (h : v.dirs.Arrived s s' n d f) : Rep s' v :=
  hr.restamped h.steady (h.stamps.mono fun _ => Volume.header_of_dirs)

theorem getFileName_walk (hr : Rep s v) {name : CString} {cs cs' : List CString} {q : Place}
    {d : FileNode} (hcs : dirComps (components name) = cs ++ cs') (hw : v.walk [] cs = some q)
    (hd : v.node q = some d) (ht : d.fileType = 1) :
    ∃ s' d' f', Rep s' v ∧ v.dirs.Arrived s s' d d' f' ∧
      ∀ Q : Option CString × Directory × Handle → Kernel → Prop,
      Wp (getFileName name) Q s ↔ Wp (walkComps (lastComp (components name)) d' f' cs') Q s' := by
  obtain ⟨r, hroot, hr1, hrt⟩ := v.root
  obtain ⟨s', d', f', h', hwp⟩ := hr.held.getFileName ⟨[], hroot, hrt⟩ hr1
    (Volume.reaches_of_walk hroot hw hd ht) hcs
  exact ⟨s', d', f', hr.arrived h', h', hwp⟩

theorem getFileName_found (hr : Rep s v) {name : CString} {q : Place} {d : FileNode}
    (hw : v.walk [] (dirComps (components name)) = some q) (hd : v.node q = some d)
    (ht : d.fileType = 1) :
    ∃ s' f', Rep s' v ∧ v.dirs.Arrived s s' d ⟨entriesOf d.content⟩ f' ∧
      ∀ Q : Option CString × Directory × Handle → Kernel → Prop,
      Wp (getFileName name) Q s ↔
        Q (some (lastComp (components name)), ⟨entriesOf d.content⟩, f') s' := by
  obtain ⟨s₁, d₁, f₁, -, h₁, hwp₁⟩ := hr.getFileName_walk (List.append_nil _).symm hw hd ht
  obtain ⟨s₂, h₂, hwp₂⟩ := h₁.ends (lastComp (components name))
  exact ⟨s₂, f₁, hr.arrived h₂, h₂, fun Q => by rw [hwp₁, hwp₂]⟩

theorem getFileName_missing (hr : Rep s v) {name : CString} {q : Place} {d : FileNode}
    (h : v.MissesAt [] (dirComps (components name)) q d) :
    ∃ s' f', Rep s' v ∧ v.dirs.Arrived s s' d ⟨entriesOf d.content⟩ f' ∧
      ∀ Q : Option CString × Directory × Handle → Kernel → Prop,
      Wp (getFileName name) Q s ↔ Q (none, ⟨entriesOf d.content⟩, f') s' := by
  obtain ⟨cs₁, c, cs₂, hcs, hw, hd, ht, hc⟩ := h
  obtain ⟨s₁, d₁, f₁, -, h₁, hwp₁⟩ := hr.getFileName_walk hcs hw hd ht
  obtain ⟨s₂, h₂, hwp₂⟩ := h₁.round
  refine ⟨s₂, f₁, hr.arrived h₂, h₂, fun Q => ?_⟩
  rw [hwp₁, hwp₂, if_pos (Volume.sectorOf_missing hd ht hc)]

end Rep

theorem wp_getFileName {name : CString} (hr : Rep s v)
    (hthru : v.ThroughDirs [] (dirComps (components name)))
    {Q : Option CString × Directory × Handle → Kernel → Prop}
    (hfound : ∀ s' q n' f', v.walk [] (dirComps (components name)) = some q → Rep s' v →
      Steady s s' →
      OpenDir s' v q n' f' → Q (some (lastComp (components name)), ⟨entriesOf n'.content⟩, f') s')
    (hmiss : ∀ s' q n' f', v.walk [] (dirComps (components name)) = none → Rep s' v → Steady s s' →
      OpenDir s' v q n' f' → Q (none, ⟨entriesOf n'.content⟩, f') s') :
    Wp (getFileName name) Q s := by
  obtain ⟨r, hroot, hr1, hrt⟩ := v.root
  rcases Volume.walk_cases (dirComps (components name)) hroot hrt with
    ⟨q, d, hw, hd, ht⟩ | ⟨q, d, h⟩ | ⟨d, n', rest, h⟩
  · obtain ⟨s', f', hr', h', hwp⟩ := hr.getFileName_found hw hd ht
    exact (hwp Q).mpr (hfound s' q d f' hw hr' h'.steady ⟨hd, ht, h'.openOn⟩)
  · obtain ⟨s', f', hr', h', hwp⟩ := hr.getFileName_missing h
    obtain ⟨-, -, -, -, -, hd, ht, -⟩ := id h
    exact (hwp Q).mpr (hmiss s' q d f' h.walk hr' h'.steady ⟨hd, ht, h'.openOn⟩)
  · exact absurd hthru h.not_throughDirs

/-- The path is bound: it leads to `n` in slot `i` of the directory at `p`. -/
structure Volume.Binds (v : Volume) (name : CString) (p : Place) (i : Nat)
    (n : FileNode) : Prop where
  walk : v.walk [] (dirComps (components name)) = some p
  child : v.child p (lastComp (components name)) = some i
  node : v.node (p ++ [i]) = some n

theorem Volume.Binds.thru {name : CString} {i : Nat} (h : v.Binds name p i n) :
    v.ThroughDirs [] (dirComps (components name)) := by
  obtain ⟨-, d, hd, ht⟩ := v.parent p i n h.node
  exact Volume.throughDirs_of_walk h.walk hd ht

theorem wp_getFileName_bound {name : CString} {i : Nat} (hr : Rep s v) (h : v.Binds name p i n)
    {Q : Option CString × Directory × Handle → Kernel → Prop}
    (hQ : ∀ s' d f', Rep s' v → Steady s s' → OpenDir s' v p d f' →
      Q (some (lastComp (components name)), ⟨entriesOf d.content⟩, f') s') :
    Wp (getFileName name) Q s := by
  refine wp_getFileName hr h.thru (fun s' q d f' hw hr' hst' ho' => ?_)
    fun s' q d f' hw => absurd hw (by rw [h.walk]; simp)
  obtain rfl : p = q := Option.some.inj (h.walk.symm.trans hw)
  exact hQ s' d f' hr' hst' ho'

end Nachos
