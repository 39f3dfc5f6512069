import Nachos.FileSys.DirSpec
import Nachos.FileSys.Path

/-! Resolution of a path through a set of directories on the disk. Nothing is said about the other
files, and about what the entries lead to that are not directories of the set. -/

namespace Nachos
open Lib Program FileSystem

/-! ## Stamps -/

/-- At most the visit times of some headers differ, in sectors that satisfy `H`. -/
def Restamped (H : Nat → Prop) (d d' : Nat → Sector) : Prop :=
  ∀ x, d' x = d x ∨ H x ∧ ∃ now, hdrAt d' x = { hdrAt d x with lastVisitTime := now }

namespace Restamped
variable {H H' : Nat → Prop} {d d' d'' : Nat → Sector}

theorem refl (d : Nat → Sector) : Restamped H d d := fun _ => .inl rfl

theorem mono (h : Restamped H d d') (hH : ∀ x, H x → H' x) : Restamped H' d d' := fun x =>
  (h x).imp_right fun hx => ⟨hH x hx.1, hx.2⟩

theorem trans (h : Restamped H d d') (h' : Restamped H d' d'') : Restamped H d d'' := by
  intro x
  rcases h' x with he | ⟨hx, now, hnow⟩
  · rcases h x with he' | ⟨hx, now, hnow⟩
    · exact .inl (he.trans he')
    · exact .inr ⟨hx, now, by rw [hdrAt, he]; exact hnow⟩
  · refine .inr ⟨hx, now, ?_⟩
    rcases h x with he' | ⟨-, now', hnow'⟩
    · rw [hnow, hdrAt, he']
      rfl
    · rw [hnow, hnow']

theorem visited {h : Nat} (hH : H h) (now : Word) : Restamped H d (visited d h now) := by
  intro x
  by_cases hx : x = h
  · subst hx
    refine .inr ⟨hH, now, ?_⟩
    rw [hdrAt, Nachos.visited, Function.update_self, FileHeader.ofSector_toSector]
  · exact .inl (Function.update_of_ne hx _ _)

end Restamped

theorem FileNode.On.restamped {n : FileNode} {H : Nat → Prop} {d d' : Nat → Sector} (hn : n.On d)
    (hs : Restamped H d d') (hH : ∀ x ∈ n.index ++ n.data, ¬ H x) : n.On d' := by
  refine hn.congr ?_ fun x hx => ?_
  · rcases hs n.hdr with he | ⟨-, now, hnow⟩
    · rw [hdrAt, he]
      exact .refl _
    · rw [hnow]
      exact ⟨rfl, rfl, rfl, rfl, rfl⟩
  · rcases hs x with he | ⟨hHx, -⟩
    · exact he
    · exact absurd hHx (hH x hx)

/-! ## Directories -/

structure Dirs where
  names : List CString
  IsDir : FileNode → Prop
  root : ∃ r, IsDir r ∧ r.hdr = 1
  long : ∀ n, IsDir n → 120 ≤ n.length
  readable : ∀ n, IsDir n → Readable names (entriesOf n.content)
  apart : ∀ n n', IsDir n → IsDir n' → n.hdr ∉ n'.index ++ n'.data

namespace Dirs

def Header (D : Dirs) (x : Nat) : Prop := ∃ n, D.IsDir n ∧ n.hdr = x

/-- The kernel is between calls and its disk holds the directories. -/
structure Held (D : Dirs) (s : Kernel) : Prop where
  quiet : s.Quiet
  names : s.names = D.names
  on : ∀ n, D.IsDir n → n.On s.disk

def sectorOf (D : Dirs) (n : FileNode) (c : CString) : Int :=
  slotSector (entriesOf n.content) ((entriesOf n.content).findIdx? (·.called D.names c))

inductive Reaches (D : Dirs) : FileNode → List CString → FileNode → Prop
  | here (n : FileNode) : Reaches D n [] n
  | there {n n' n'' : FileNode} {c : CString} {cs : List CString} (hdir : D.IsDir n')
      (hc : D.sectorOf n c = n'.hdr) (h : Reaches D n' cs n'') : Reaches D n (c :: cs) n''

variable {D : Dirs} {s s' : Kernel} {n n' : FileNode} {f : Handle} {d : Directory}
  {c last : CString} {cs cs' : List CString}

theorem length_entries (hn : D.IsDir n) : (entriesOf n.content).length = 10 := by
  have := D.long n hn
  have := n.size
  exact length_entriesOf (by omega)

/-- The walk that began in `s` has come to the directory `n`: it is open as `f`, and its table is
read next, over the table `d`. -/
structure Arrived (D : Dirs) (s s' : Kernel) (n : FileNode) (d : Directory) (f : Handle) :
    Prop where
  held : D.Held s'
  steady : Steady s s'
  stamps : Restamped D.Header s.disk s'.disk
  isDir : D.IsDir n
  openOn : s'.OpenOn f n.hdr
  size : d.tableSize = 10

theorem Held.restamped (h : D.Held s) (hst : Steady s s')
    (hs : Restamped D.Header s.disk s'.disk) : D.Held s' where
  quiet := hst.quiet h.quiet
  names := hst.names.trans h.names
  on n hn := (h.on n hn).restamped hs fun x hx hH => by
    obtain ⟨n', hn', rfl⟩ := hH
    exact D.apart n' n hn' hn hx

theorem Held.wp_find (h : D.Held s) (hn : D.IsDir n) {Q : Int → Kernel → Prop} :
    Wp (Directory.find ⟨entriesOf n.content⟩ (some c)) Q s ↔ Q (D.sectorOf n c) s := by
  rw [wp_find_iff, h.names, search_of_readable (D.readable n hn)]
  simp only [Option.some.injEq, exists_eq_left', sectorOf]

theorem Held.opens (h : D.Held s) (hn : D.IsDir n) (hd : d.tableSize = 10) :
    ∃ s' f, D.Arrived s s' n d f ∧ ∀ Q : Handle → Kernel → Prop,
      Wp (OpenFile.new n.hdr) Q s ↔ Q f s' := by
  obtain ⟨f, s', ⟨rfl, ho⟩, hwp⟩ := (wp_openFile_visited h.quiet n.hdr_lt).exists_iff
  have hs : Restamped D.Header s.disk s'.disk := ho.disk ▸ .visited ⟨n, hn, rfl⟩ _
  exact ⟨s', s.nextFile, ⟨h.restamped ho.steady hs, ho.steady, hs, hn, ho.openOn, hd⟩, hwp⟩

namespace Arrived
variable {s₀ : Kernel}

theorem trans (h : D.Arrived s₀ s n d f) {d' : Directory} {f' : Handle}
    (h' : D.Arrived s s' n' d' f') : D.Arrived s₀ s' n' d' f' :=
  ⟨h'.held, h.steady.trans h'.steady, h.stamps.trans h'.stamps, h'.isDir, h'.openOn, h'.size⟩

theorem fetches (h : D.Arrived s₀ s n d f) :
    ∃ s', D.Arrived s₀ s' n ⟨entriesOf n.content⟩ f ∧ ∀ Q : Directory → Kernel → Prop,
      Wp (d.fetchFrom f) Q s ↔ Q ⟨entriesOf n.content⟩ s' := by
  obtain ⟨_, s', ⟨rfl, hs⟩, hwp⟩ := Wp.exists_iff <|
    wp_fetchDirectory h.held.quiet (h.held.on n h.isDir) h.openOn (D.long n h.isDir) h.size
      (Q := fun d' s' => d' = ⟨entriesOf n.content⟩ ∧ Fetched s s' f n.hdr)
      fun s' hs => ⟨rfl, hs⟩
  refine ⟨s', ⟨h.held.restamped hs.toSteady (hs.disk ▸ .refl _), h.steady.trans hs.toSteady, ?_,
    h.isDir, hs.openOn h.openOn, length_entries h.isDir⟩, hwp⟩
  rw [hs.disk]
  exact h.stamps

theorem ends (h : D.Arrived s₀ s n d f) (last : CString) :
    ∃ s', D.Arrived s₀ s' n ⟨entriesOf n.content⟩ f ∧
      ∀ Q : Option CString × Directory × Handle → Kernel → Prop,
      Wp (walkComps last d f []) Q s ↔ Q (some last, ⟨entriesOf n.content⟩, f) s' := by
  obtain ⟨s', h', hwp⟩ := h.fetches
  refine ⟨s', h', fun Q => ?_⟩
  rw [walkComps, wp_then, hwp, wp_pure]

theorem round (h : D.Arrived s₀ s n d f) :
    ∃ s', D.Arrived s₀ s' n ⟨entriesOf n.content⟩ f ∧
      ∀ Q : Option CString × Directory × Handle → Kernel → Prop,
      Wp (walkComps last d f (c :: cs)) Q s ↔
        if D.sectorOf n c = -1 then Q (none, ⟨entriesOf n.content⟩, f) s'
        else Wp (OpenFile.new (D.sectorOf n c))
          (fun g => Wp (walkComps last ⟨entriesOf n.content⟩ g cs) Q) s' := by
  obtain ⟨s', h', hwp⟩ := h.fetches
  refine ⟨s', h', fun Q => ?_⟩
  rw [walkComps, wp_then, hwp, wp_then, h'.held.wp_find h.isDir]
  split
  · rw [wp_pure]
  · rw [wp_then, h'.held.wp_find h.isDir, wp_then]

theorem reaches (h : D.Arrived s₀ s n d f) (hr : D.Reaches n cs n') :
    ∃ s' d' f', D.Arrived s₀ s' n' d' f' ∧
      ∀ Q : Option CString × Directory × Handle → Kernel → Prop,
      Wp (walkComps last d f (cs ++ cs')) Q s ↔ Wp (walkComps last d' f' cs') Q s' := by
  induction hr generalizing s d f with
  | here n => exact ⟨s, d, f, h, fun _ => Iff.rfl⟩
  | @there n n₁ n₂ c cs hdir hc hr ih =>
    have hpos : ¬ (n₁.hdr : Int) = -1 := by omega
    obtain ⟨s₁, h₁, hwp₁⟩ := h.round
    obtain ⟨s₂, g, h₂, hwp₂⟩ := h₁.held.opens hdir h₁.size
    obtain ⟨s₃, d', f', h₃, hwp₃⟩ := ih (h₁.trans h₂)
    refine ⟨s₃, d', f', h₃, fun Q => ?_⟩
    rw [List.cons_append, hwp₁, hc, if_neg hpos, hwp₂, hwp₃]

end Arrived

theorem Held.getFileName (h : D.Held s) {name : CString} {r : FileNode} (hroot : D.IsDir r)
    (hr₁ : r.hdr = 1) (hr : D.Reaches r cs n) (hcs : dirComps (components name) = cs ++ cs') :
    ∃ s' d f, D.Arrived s s' n d f ∧
      ∀ Q : Option CString × Directory × Handle → Kernel → Prop,
      Wp (getFileName name) Q s ↔ Wp (walkComps (lastComp (components name)) d f cs') Q s' := by
  obtain ⟨s₁, f₁, h₁, hwp₁⟩ := h.opens hroot (length_entries hroot)
  obtain ⟨d₂, s₂, hnew, hwp₂⟩ := (wp_newDirectory_visited (s := s₁)).exists_iff
  obtain ⟨now, hnow⟩ := hnew.disk
  have hs₂ : Restamped D.Header s₁.disk s₂.disk := hnow ▸ .visited ⟨r, hroot, hr₁⟩ _
  have h₂ : D.Arrived s s₂ r d₂ f₁ := ⟨h₁.held.restamped hnew.steady hs₂,
    h₁.steady.trans hnew.steady, h₁.stamps.trans hs₂, hroot, hnew.steady.openOn h₁.openOn, hnew.size⟩
  obtain ⟨s₃, d₃, f₃, h₃, hwp₃⟩ := h₂.reaches hr
  refine ⟨s₃, d₃, f₃, h₃, fun Q => ?_⟩
  rw [getFileName_eq, hcs, wp_then, show (1 : Int) = (r.hdr : Int) by rw [hr₁]; rfl, hwp₁, wp_then,
    hwp₂, hwp₃]

end Dirs
end Nachos
