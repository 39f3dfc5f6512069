import Nachos.Lib.Mutex
import Nachos.FileSys.InPlace
import Mathlib.Data.Set.Basic

/-! The mutexes of `SynchDisk` among threads that open files and read and write inside them:
what each thread holds and knows, one invariant that ties it to the shared state, and what
every operation does to both. -/

namespace Nachos
open Lib Program FileHeader

variable {ι : Type} [DecidableEq ι]

/-! ## What a thread holds -/

/-- The mutexes a thread has taken. Of the sectors in `view` it has yet to read the contents
given there, those in `todo` it has yet to write. -/
structure Hold where
  array : Bool
  locked : List Nat
  view : List (Nat × Sector)
  todo : List (Nat × Sector)
  nodup : locked.Nodup
  lt : ∀ x ∈ locked, x < 1024
  held : ∀ p ∈ view ++ todo, p.1 ∈ locked

namespace Hold

def nothing : Hold where
  array := false
  locked := []
  view := []
  todo := []
  nodup := .nil
  lt := by simp
  held := by simp

def header (x : Nat) (hx : x < 1024) : Hold where
  array := false
  locked := [x]
  view := []
  todo := []
  nodup := List.nodup_singleton x
  lt := by simpa using hx
  held := by simp

def locking (xs : List Nat) (h : xs.Nodup) (hlt : ∀ x ∈ xs, x < 1024) : Hold where
  array := true
  locked := xs
  view := []
  todo := []
  nodup := h
  lt := hlt
  held := by simp

section transfer
variable (xs : List Nat) (D : Nat → Sector)

def reading (h : xs.Nodup) (hlt : ∀ x ∈ xs, x < 1024) : Hold where
  array := false
  locked := xs
  view := xs.map fun x => (x, D x)
  todo := []
  nodup := h
  lt := hlt
  held := by simp

def writing (h : xs.Nodup) (hlt : ∀ x ∈ xs, x < 1024) : Hold where
  array := false
  locked := xs
  view := []
  todo := xs.map fun x => (x, D x)
  nodup := h
  lt := hlt
  held := by simp

def wrote (x : Nat) (h : (x :: xs).Nodup) (hlt : ∀ y ∈ x :: xs, y < 1024) : Hold where
  array := false
  locked := x :: xs
  view := []
  todo := xs.map fun y => (y, D y)
  nodup := h
  lt := hlt
  held := by simpa using fun y hy => .inr hy

end transfer

theorem mem_of_todo {h : Hold} {x : Nat} {v : Sector} (hx : (x, v) ∈ h.todo) : x ∈ h.locked :=
  h.held (x, v) (List.mem_append_right _ hx)

end Hold

/-! ## Mutexes -/

structure Locks (H : ι → Hold) (mutex : Nat → Nat) (arrayMutex : Nat) : Prop where
  sector : ∀ x < 1024, Owned (fun i => x ∈ (H i).locked) (mutex x)
  array : Owned (fun i => (H i).array = true) arrayMutex

namespace Locks
variable {H : ι → Hold} {mutex : Nat → Nat} {arrayMutex x : Nat} {i j : ι} {h : Hold}

omit [DecidableEq ι] in
theorem once (hL : Locks H mutex arrayMutex) (hi : x ∈ (H i).locked) (hj : x ∈ (H j).locked) :
    i = j :=
  (hL.sector x ((H i).lt x hi)).once i j hi hj

theorem update_array (ha : h.array = (H i).array) (j : ι) :
    (Function.update H i h j).array = true ↔ (H j).array = true := by
  by_cases hj : j = i
  · subst hj
    rw [Function.update_self, ha]
  · rw [Function.update_of_ne hj]

theorem acquire (hL : Locks H mutex arrayMutex) (hx : x < 1024) (hm : mutex x ≠ 0)
    (hl : ∀ y, y ∈ h.locked ↔ y = x ∨ y ∈ (H i).locked) (ha : h.array = (H i).array) :
    Locks (Function.update H i h) (Function.update mutex x (mutex x - 1)) arrayMutex where
  array := hL.array.congr (update_array ha)
  sector y hy := by
    have hlk : ∀ j, y ∈ (Function.update H i h j).locked ↔ y = x ∧ j = i ∨ y ∈ (H j).locked := by
      intro j
      by_cases hj : j = i
      · subst hj
        simp [hl]
      · simp [hj]
    by_cases hyx : y = x
    · subst hyx
      rw [Function.update_self]
      exact (hL.sector y hy).take (i := i) hm fun j => by
        simp [hlk, (hL.sector y hy).not_holds hm j]
    · rw [Function.update_of_ne hyx]
      exact (hL.sector y hy).congr fun j => by simp [hlk, hyx]

theorem release (hL : Locks H mutex arrayMutex) (hx : x ∈ (H i).locked)
    (hl : ∀ y, y ∈ h.locked ↔ y ≠ x ∧ y ∈ (H i).locked) (ha : h.array = (H i).array) :
    Locks (Function.update H i h) (Function.update mutex x (mutex x + 1)) arrayMutex where
  array := hL.array.congr (update_array ha)
  sector y hy := by
    have hlk : ∀ j, y ∈ (Function.update H i h j).locked ↔ y ≠ x ∧ y ∈ (H j).locked := by
      intro j
      by_cases hj : j = i
      · subst hj
        simp [hl]
      · rw [Function.update_of_ne hj]
        refine ⟨fun hy => ⟨?_, hy⟩, fun hy => hy.2⟩
        rintro rfl
        exact hj (hL.once hy hx)
    by_cases hyx : y = x
    · subst hyx
      rw [Function.update_self]
      exact (hL.sector y hy).give hx fun j => by simp [hlk]
    · rw [Function.update_of_ne hyx]
      exact (hL.sector y hy).congr fun j => by simp [hlk, hyx]

theorem update_locked (hl : h.locked = (H i).locked) (j : ι) :
    (Function.update H i h j).locked = (H j).locked := by
  by_cases hj : j = i
  · subst hj
    rw [Function.update_self, hl]
  · rw [Function.update_of_ne hj]

theorem acquireArray (hL : Locks H mutex arrayMutex) (hm : arrayMutex ≠ 0)
    (hl : h.locked = (H i).locked) (ha : h.array = true) :
    Locks (Function.update H i h) mutex (arrayMutex - 1) where
  sector y hy := (hL.sector y hy).congr fun j => by rw [update_locked hl]
  array := hL.array.take (i := i) hm fun j => by
    by_cases hj : j = i
    · subst hj
      simp [ha]
    · simpa [hj] using hL.array.not_holds hm j

theorem releaseArray (hL : Locks H mutex arrayMutex) (hi : (H i).array = true)
    (hl : h.locked = (H i).locked) (ha : h.array = false) :
    Locks (Function.update H i h) mutex (arrayMutex + 1) where
  sector y hy := (hL.sector y hy).congr fun j => by rw [update_locked hl]
  array := hL.array.give hi fun j hj => by
    by_cases hji : j = i
    · subst hji
      simp [ha] at hj
    · rw [Function.update_of_ne hji] at hj
      exact hji (hL.array.once j i hj hi)

theorem keep (hL : Locks H mutex arrayMutex) (hl : h.locked = (H i).locked)
    (ha : h.array = (H i).array) : Locks (Function.update H i h) mutex arrayMutex where
  sector y hy := (hL.sector y hy).congr fun j => by rw [update_locked hl]
  array := hL.array.congr (update_array ha)

end Locks
/-! ## The disk once every write phase that holds its mutexes is complete -/

/-- What a thread has yet to read and write is there in `S`, and in sectors of `T` only. -/
def Hold.Due (h : Hold) (T : Set Nat) (S : Nat → Sector) : Prop :=
  ∀ p ∈ h.view ++ h.todo, S p.1 = p.2 ∧ p.1 ∈ T

/-- `S` is the disk `d` with what threads have yet to write. Only sectors in `T` are read or
written under mutexes of their own. -/
structure Settled (T : Set Nat) (H : ι → Hold) (d S : Nat → Sector) : Prop where
  disk : ∀ x, (∀ i v, (x, v) ∉ (H i).todo) → S x = d x
  due : ∀ i, (H i).Due T S

namespace Settled
variable {T : Set Nat} {H : ι → Hold} {d S S' : Nat → Sector} {mutex : Nat → Nat}
  {arrayMutex x : Nat} {v : Sector} {i : ι} {h : Hold}

omit [DecidableEq ι] in
theorem eq_disk (hS : Settled T H d S) (hL : Locks H mutex arrayMutex) (hx : x ∈ (H i).locked)
    (ht : ∀ v, (x, v) ∉ (H i).todo) : S x = d x := by
  refine hS.disk x fun j v hv => ?_
  obtain rfl : j = i := hL.once (Hold.mem_of_todo hv) hx
  exact ht v hv

theorem keep (hS : Settled T H d S) (hv : h.view ⊆ (H i).view) (ht : h.todo = (H i).todo) :
    Settled T (Function.update H i h) d S where
  disk x hx := hS.disk x fun j v => by
    have := hx j v
    by_cases hj : j = i
    · subst hj
      rwa [Function.update_self, ht] at this
    · rwa [Function.update_of_ne hj] at this
  due := (Function.forall_update_iff H fun _ h => h.Due T _).mpr ⟨fun p hp => hS.due i p (by
    rw [ht] at hp
    exact (List.mem_append.mp hp).elim (fun h => List.mem_append_left _ (hv h))
      (List.mem_append_right _)), fun j _ => hS.due j⟩

theorem startRead (hS : Settled T H d S) (hL : Locks H mutex arrayMutex)
    (ht : (H i).todo = []) (htodo : h.todo = [])
    (hp : ∀ p ∈ h.view, p.1 ∈ (H i).locked ∧ p.2 = d p.1 ∧ p.1 ∈ T) :
    Settled T (Function.update H i h) d S where
  disk x hx := hS.disk x fun j v => by
    have := hx j v
    by_cases hj : j = i
    · subst hj
      simp [ht]
    · rwa [Function.update_of_ne hj] at this
  due := (Function.forall_update_iff H fun _ h => h.Due T _).mpr ⟨fun p hpv => by
    rw [htodo, List.append_nil] at hpv
    obtain ⟨hlk, hd, hT⟩ := hp p hpv
    exact ⟨by rw [hd, hS.eq_disk hL hlk (by simp [ht])], hT⟩, fun j _ => hS.due j⟩

theorem startWrite (hS : Settled T H d S) (hL : Locks H mutex arrayMutex)
    (hlk : ∀ p ∈ h.todo, p.1 ∈ (H i).locked) (ht : (H i).todo = []) (hview : h.view = [])
    (hp : ∀ p ∈ h.todo, S' p.1 = p.2 ∧ p.1 ∈ T)
    (hne : ∀ x, (∀ v, (x, v) ∉ h.todo) → S' x = S x) :
    Settled T (Function.update H i h) d S' where
  disk x hx := by
    rw [hne x fun v => by simpa using hx i v]
    refine hS.disk x fun j v => ?_
    by_cases hj : j = i
    · subst hj
      simp [ht]
    · simpa [Function.update_of_ne hj] using hx j v
  due := (Function.forall_update_iff H fun _ h => h.Due T _).mpr ⟨fun p hpv => by
    rw [hview, List.nil_append] at hpv
    exact hp p hpv, fun j hj p hpj => by
    -- what the others hold is not among the sectors that change
    have hsame : S' p.1 = S p.1 := hne p.1 fun v hv =>
      hj (hL.once ((H j).held p hpj) (hlk (p.1, v) hv))
    rw [hsame]
    exact hS.due j p hpj⟩

theorem write (hS : Settled T H d S) (hx : (x, v) ∈ (H i).todo) (hview : h.view = [])
    (ht : ∀ p, p ∈ (H i).todo → p = (x, v) ∨ p ∈ h.todo) (ht' : h.todo ⊆ (H i).todo) :
    Settled T (Function.update H i h) (Function.update d x v) S where
  disk y hy := by
    by_cases hyx : y = x
    · subst hyx
      rw [Function.update_self]
      exact (hS.due i (y, v) (List.mem_append_right _ hx)).1
    · rw [Function.update_of_ne hyx]
      refine hS.disk y fun j w hw => ?_
      have hyj := hy j w
      by_cases hj : j = i
      · subst hj
        rw [Function.update_self] at hyj
        exact (ht _ hw).elim (fun h => hyx (congrArg Prod.fst h)) hyj
      · rw [Function.update_of_ne hj] at hyj
        exact hyj hw
  due := (Function.forall_update_iff H fun _ h => h.Due T _).mpr ⟨fun p hp => by
    rw [hview, List.nil_append] at hp
    exact hS.due i p (List.mem_append_right _ (ht' hp)), fun j _ => hS.due j⟩

omit [DecidableEq ι] in
theorem setDisk (hS : Settled T H d S) (hx : x ∉ T) :
    Settled T H (Function.update d x v) (Function.update S x v) where
  disk y hy := by
    by_cases hyx : y = x
    · subst hyx
      rw [Function.update_self, Function.update_self]
    · rw [Function.update_of_ne hyx, Function.update_of_ne hyx]
      exact hS.disk y hy
  due j p hp := by
    have hne : p.1 ≠ x := fun h => hx (h ▸ (hS.due j p hp).2)
    rw [Function.update_of_ne hne]
    exact hS.due j p hp

end Settled
/-! ## Files and handles -/

/-- The files that threads work on, with the lengths that their headers may show. No sector
is a header, an index table or a data sector at the same time. -/
structure FileSet where
  mem : Set FileNode
  len : FileNode → Int → Prop
  hdr_index : ∀ m ∈ mem, ∀ n ∈ mem, m.hdr ∉ n.index
  hdr_data : ∀ m ∈ mem, ∀ n ∈ mem, m.hdr ∉ n.data
  index_data : ∀ m ∈ mem, ∀ n ∈ mem, ∀ x ∈ m.index, x ∉ n.data

namespace FileSet
variable {F : FileSet} {n : FileNode} {d d' : Nat → Sector} {x : Nat} {v : Sector}

def data (F : FileSet) : Set Nat := { x | ∃ n ∈ F.mem, x ∈ n.data }

structure Good (F : FileSet) (n : FileNode) (hdr : FileHeader) : Prop where
  lists : n.Lists hdr
  length : F.len n hdr.numBytes.toInt

structure Shape (F : FileSet) (n : FileNode) (d : Nat → Sector) : Prop where
  good : F.Good n (hdrAt d n.hdr)
  tables : n.Tables d

theorem Shape.congr (h : F.Shape n d) (hh : d' n.hdr = d n.hdr) (hi : ∀ x ∈ n.index, d' x = d x) :
    F.Shape n d' where
  good := by
    rw [hdrAt, hh]
    exact h.good
  tables := h.tables.congr hi

theorem Shape.setData (h : F.Shape n d) (hn : n ∈ F.mem) (hx : x ∈ F.data) :
    F.Shape n (Function.update d x v) := by
  obtain ⟨m, hm, hxm⟩ := hx
  refine h.congr (Function.update_of_ne ?_ _ _) fun t ht => Function.update_of_ne ?_ _ _
  · rintro rfl
    exact F.hdr_data n hn m hm hxm
  · rintro rfl
    exact F.index_data n hn m hm t ht hxm

theorem Shape.setHdr (h : F.Shape n d) (hn : n ∈ F.mem) {m : FileNode} (hm : m ∈ F.mem)
    {hdr : FileHeader} (hg : m.hdr = n.hdr → F.Good n hdr) :
    F.Shape n (Function.update d m.hdr hdr.toSector) where
  good := by
    rw [hdrAt]
    by_cases he : m.hdr = n.hdr
    · rw [he, Function.update_self, ofSector_toSector]
      exact hg he
    · rw [Function.update_of_ne fun h => he h.symm]
      exact h.good
  tables := h.tables.congr fun t ht => Function.update_of_ne
    (fun h : t = m.hdr => F.hdr_index m hm n hn (h ▸ ht)) _ _

end FileSet

/-- What a thread relies on: files whose headers and tables stay in place, the files that its
handles are open on, the handles whose header copy was fetched, and objects that no other
thread uses. -/
structure View where
  relies : Set FileNode
  known : Handle → Option FileNode
  fetched : Set Handle
  own : Handle → Option OpenFile

namespace View

structure Fits (F : FileSet) (v : View) (s : Kernel) : Prop where
  mem : v.relies ⊆ F.mem
  shape : ∀ n ∈ v.relies, F.Shape n s.disk
  known : ∀ f n, v.known f = some n →
    n ∈ v.relies ∧ f < s.nextFile ∧ (s.files f).hdrSectorNumber = n.hdr
  fetched : ∀ f n, v.known f = some n → f ∈ v.fetched → F.Good n (s.files f).hdr
  own : ∀ f file, v.own f = some file → f < s.nextFile ∧ s.files f = file ∧ v.known f = none

/-- Two threads have the same idea of a handle, and leave what the other owns alone. -/
structure Compat (v w : View) : Prop where
  agree : ∀ f m n, v.known f = some m → w.known f = some n → m = n
  apart : ∀ f file, v.own f = some file → w.known f = none ∧ w.own f = none

variable {F : FileSet} {v w v' : View} {s s' : Kernel} {f : Handle} {n : FileNode}
  {file : OpenFile}

theorem Fits.congr (h : v.Fits F s) (hd : ∀ n ∈ v.relies, F.Shape n s'.disk)
    (hf : ∀ f < s.nextFile, s'.files f = s.files f) (hn : s.nextFile ≤ s'.nextFile) :
    v.Fits F s' where
  mem := h.mem
  shape := hd
  known f n hk := by
    obtain ⟨hr, hlt, hs⟩ := h.known f n hk
    exact ⟨hr, hlt.trans_le hn, by rw [hf f hlt, hs]⟩
  fetched f n hk hm := by
    rw [hf f (h.known f n hk).2.1]
    exact h.fetched f n hk hm
  own f file hf' := by
    obtain ⟨hlt, hs, hk⟩ := h.own f file hf'
    exact ⟨hlt.trans_le hn, by rw [hf f hlt, hs], hk⟩

theorem Fits.setFile (h : v.Fits F s) (ho : v.own f = none)
    (hk : ∀ n, v.known f = some n → file.hdrSectorNumber = n.hdr ∧ F.Good n file.hdr) :
    Fits F { v with fetched := insert f v.fetched } (s.setFile f file) where
  mem := h.mem
  shape := h.shape
  known g n hn := by
    obtain ⟨hr, hlt, hs⟩ := h.known g n hn
    refine ⟨hr, hlt, ?_⟩
    rw [Kernel.setFile_files]
    by_cases hgf : g = f
    · subst hgf
      rw [Function.update_self]
      exact (hk n hn).1
    · rw [Function.update_of_ne hgf, hs]
  fetched g n hn hm := by
    rw [Kernel.setFile_files]
    by_cases hgf : g = f
    · subst hgf
      rw [Function.update_self]
      exact (hk n hn).2
    · rw [Function.update_of_ne hgf]
      exact h.fetched g n hn (hm.resolve_left hgf)
  own g file' hg := by
    obtain ⟨hlt, hs, hn⟩ := h.own g file' hg
    refine ⟨hlt, ?_, hn⟩
    have hgf : g ≠ f := by
      rintro rfl
      exact Option.some_ne_none _ (hg.symm.trans ho)
    rw [Kernel.setFile_files, Function.update_of_ne hgf, hs]

theorem Fits.forget (h : Fits F { v with fetched := insert f v.fetched } s) : v.Fits F s where
  mem := h.mem
  shape := h.shape
  known := h.known
  fetched g n hn hg := h.fetched g n hn (.inr hg)
  own := h.own

def owning (v : View) (f : Handle) (file : OpenFile) : View :=
  { v with own := Function.update v.own f (some file) }

@[simp] theorem owning_own_self : (v.owning f file).own f = some file := Function.update_self ..

theorem owning_own_of_ne {g : Handle} (h : g ≠ f) : (v.owning f file).own g = v.own g :=
  Function.update_of_ne h ..

theorem Fits.setOwn (h : v.Fits F s) {old : OpenFile} (ho : v.own f = some old) :
    (v.owning f file).Fits F (s.setFile f file) where
  mem := h.mem
  shape := h.shape
  known g n hn := by
    have hgf : g ≠ f := by
      rintro rfl
      exact Option.some_ne_none _ (hn.symm.trans (h.own g old ho).2.2)
    rw [Kernel.setFile_files, Function.update_of_ne hgf]
    exact h.known g n hn
  fetched g n hn hm := by
    have hgf : g ≠ f := by
      rintro rfl
      exact Option.some_ne_none _ (hn.symm.trans (h.own g old ho).2.2)
    rw [Kernel.setFile_files, Function.update_of_ne hgf]
    exact h.fetched g n hn hm
  own g file' hg := by
    rw [Kernel.setFile_files]
    by_cases hgf : g = f
    · subst hgf
      rw [owning_own_self] at hg
      rw [Function.update_self]
      exact ⟨(h.own g old ho).1, Option.some.inj hg, (h.own g old ho).2.2⟩
    · rw [owning_own_of_ne hgf] at hg
      rw [Function.update_of_ne hgf]
      exact h.own g file' hg

theorem Fits.newFile (h : v.Fits F s) :
    (v.owning s.nextFile (s.files s.nextFile)).Fits F { s with nextFile := s.nextFile + 1 } where
  mem := h.mem
  shape := h.shape
  known g n hn := by
    obtain ⟨hr, hlt, hs⟩ := h.known g n hn
    exact ⟨hr, hlt.trans (Nat.lt_succ_self _), hs⟩
  fetched := h.fetched
  own g file' hg := by
    by_cases hgf : g = s.nextFile
    · subst hgf
      rw [owning_own_self] at hg
      refine ⟨Nat.lt_succ_self _, Option.some.inj hg, ?_⟩
      cases hk : v.known s.nextFile with
      | none => exact hk
      | some n => exact absurd (h.known _ n hk).2.1 (lt_irrefl _)
    · rw [owning_own_of_ne hgf] at hg
      obtain ⟨hlt, hs, hn⟩ := h.own g file' hg
      exact ⟨hlt.trans (Nat.lt_succ_self _), hs, hn⟩

def publish (v : View) (f : Handle) (n : FileNode) : View where
  relies := v.relies
  known := Function.update v.known f (some n)
  fetched := insert f v.fetched
  own := Function.update v.own f none

theorem owning_publish : (v.owning f file).publish f n = v.publish f n := by
  simp only [publish, owning, Function.update_idem]

theorem Fits.publish (h : v.Fits F s) (ho : v.own f = some file) (hn : n ∈ v.relies)
    (hs : file.hdrSectorNumber = n.hdr) (hg : F.Good n file.hdr) : (v.publish f n).Fits F s where
  mem := h.mem
  shape := h.shape
  known g m hm := by
    by_cases hgf : g = f
    · subst hgf
      simp only [View.publish, Function.update_self, Option.some.injEq] at hm
      subst hm
      obtain ⟨hlt, hfile, -⟩ := h.own g file ho
      exact ⟨hn, hlt, by rw [hfile, hs]⟩
    · simp only [View.publish, Function.update_of_ne hgf] at hm
      exact h.known g m hm
  fetched g m hm hf := by
    by_cases hgf : g = f
    · subst hgf
      simp only [View.publish, Function.update_self, Option.some.injEq] at hm
      subst hm
      rw [(h.own g file ho).2.1]
      exact hg
    · simp only [View.publish, Function.update_of_ne hgf] at hm
      exact h.fetched g m hm (hf.resolve_left hgf)
  own g file' hg' := by
    have hgf : g ≠ f := by
      rintro rfl
      simp [View.publish] at hg'
    simp only [View.publish, Function.update_of_ne hgf] at hg' ⊢
    exact h.own g file' hg'

end View

structure Sites (F : FileSet) (V : ι → View) (s : Kernel) : Prop where
  fits : ∀ i, (V i).Fits F s
  compat : ∀ i j, i ≠ j → (V i).Compat (V j)

namespace Sites
variable {F : FileSet} {V : ι → View} {s s' : Kernel} {i : ι} {v : View} {f : Handle}
  {n : FileNode} {file : OpenFile}

omit [DecidableEq ι] in
theorem congr (h : Sites F V s) (hd : ∀ n ∈ F.mem, F.Shape n s.disk → F.Shape n s'.disk)
    (hf : s'.files = s.files) (hn : s'.nextFile = s.nextFile) : Sites F V s' where
  fits j := (h.fits j).congr (fun n hr => hd n ((h.fits j).mem hr) ((h.fits j).shape n hr))
    (fun f _ => by rw [hf]) (by rw [hn])
  compat := h.compat

theorem update (h : Sites F V s) (hv : v.Fits F s') (ho : ∀ j ≠ i, (V j).Fits F s')
    (hc : ∀ j ≠ i, v.Compat (V j) ∧ (V j).Compat v) : Sites F (Function.update V i v) s' where
  fits := (Function.forall_update_iff V fun _ v => v.Fits F s').mpr ⟨hv, ho⟩
  compat j k hjk := by
    by_cases hj : j = i
    · subst hj
      rw [Function.update_self, Function.update_of_ne hjk.symm]
      exact (hc k hjk.symm).1
    · rw [Function.update_of_ne hj]
      by_cases hk : k = i
      · subst hk
        rw [Function.update_self]
        exact (hc j hj).2
      · rw [Function.update_of_ne hk]
        exact h.compat j k hjk

theorem setFile (h : Sites F V s) (hk : (V i).known f = some n)
    (hs : file.hdrSectorNumber = n.hdr) (hg : F.Good n file.hdr) :
    Sites F (Function.update V i { V i with fetched := insert f (V i).fetched })
      (s.setFile f file) := by
  have hown : ∀ j, (V j).own f = none := fun j => by
    cases ho : (V j).own f with
    | none => rfl
    | some file' =>
      have hnone : (V i).known f = none := by
        by_cases hj : i = j
        · subst hj
          exact ((h.fits i).own f file' ho).2.2
        · exact ((h.compat j i fun h => hj h.symm).apart f file' ho).1
      rw [hk] at hnone
      cases hnone
  have hknown : ∀ j m, (V j).known f = some m → m = n := fun j m hm => by
    by_cases hj : j = i
    · subst hj
      exact Option.some.inj (hm.symm.trans hk)
    · exact (h.compat j i hj).agree f m n hm hk
  have hfits : ∀ j, View.Fits F { V j with fetched := insert f (V j).fetched }
      (s.setFile f file) := fun j => (h.fits j).setFile (hown j) fun m hm => by
    rw [hknown j m hm]
    exact ⟨hs, hg⟩
  exact h.update (hfits i) (fun j _ => (hfits j).forget) fun j hj =>
    ⟨⟨(h.compat i j hj.symm).agree, (h.compat i j hj.symm).apart⟩,
      ⟨(h.compat j i hj).agree, (h.compat j i hj).apart⟩⟩

theorem newFile (h : Sites F V s) :
    Sites F (Function.update V i ((V i).owning s.nextFile (s.files s.nextFile)))
      { s with nextFile := s.nextFile + 1 } := by
  have hfresh : ∀ j, (V j).known s.nextFile = none ∧ (V j).own s.nextFile = none := fun j => by
    constructor
    · cases hk : (V j).known s.nextFile with
      | none => rfl
      | some n => exact absurd ((h.fits j).known _ n hk).2.1 (lt_irrefl _)
    · cases ho : (V j).own s.nextFile with
      | none => rfl
      | some file => exact absurd ((h.fits j).own _ file ho).1 (lt_irrefl _)
  refine h.update (h.fits i).newFile (fun j _ => (h.fits j).congr (h.fits j).shape
    (fun _ _ => rfl) (Nat.le_succ _)) fun j hj => ⟨⟨(h.compat i j hj.symm).agree, ?_⟩,
      ⟨(h.compat j i hj).agree, ?_⟩⟩
  · intro f file hf
    by_cases hfn : f = s.nextFile
    · subst hfn
      exact hfresh j
    · exact (h.compat i j hj.symm).apart f file (by rwa [View.owning_own_of_ne hfn] at hf)
  · intro f file hf
    obtain ⟨hk, ho⟩ := (h.compat j i hj).apart f file hf
    refine ⟨hk, ?_⟩
    have hfn : f ≠ s.nextFile := by
      rintro rfl
      exact Option.some_ne_none _ (hf.symm.trans (hfresh j).2)
    rwa [View.owning_own_of_ne hfn]

theorem setOwn (h : Sites F V s) {old : OpenFile} (ho : (V i).own f = some old) :
    Sites F (Function.update V i ((V i).owning f file)) (s.setFile f file) := by
  refine h.update ((h.fits i).setOwn ho) (fun j hj => ?_) fun j hj => ?_
  · obtain ⟨hk, hn⟩ := (h.compat i j hj.symm).apart f old ho
    exact ((h.fits j).setFile hn fun n hn' => (Option.some_ne_none _ (hn'.symm.trans hk)).elim).forget
  · obtain ⟨hk, hn⟩ := (h.compat i j hj.symm).apart f old ho
    refine ⟨⟨(h.compat i j hj.symm).agree, fun g file' hg => ?_⟩,
      ⟨(h.compat j i hj).agree, fun g file' hg => ?_⟩⟩
    · by_cases hgf : g = f
      · subst hgf
        exact ⟨hk, hn⟩
      · exact (h.compat i j hj.symm).apart g file' (by rwa [View.owning_own_of_ne hgf] at hg)
    · obtain ⟨hk', hn'⟩ := (h.compat j i hj).apart g file' hg
      have hgf : g ≠ f := by
        rintro rfl
        exact Option.some_ne_none _ (ho.symm.trans hn')
      exact ⟨hk', by rwa [View.owning_own_of_ne hgf]⟩

theorem publish (h : Sites F V s) (ho : (V i).own f = some file) (hn : n ∈ (V i).relies)
    (hs : file.hdrSectorNumber = n.hdr) (hg : F.Good n file.hdr) :
    Sites F (Function.update V i ((V i).publish f n)) s := by
  refine h.update ((h.fits i).publish ho hn hs hg) (fun j _ => h.fits j) fun j hj => ?_
  obtain ⟨hk, hnone⟩ := (h.compat i j hj.symm).apart f file ho
  refine ⟨⟨fun g m m' hm hm' => ?_, fun g file' hg' => ?_⟩,
    ⟨fun g m m' hm hm' => ?_, fun g file' hg' => ?_⟩⟩
  · have hgf : g ≠ f := by
      rintro rfl
      exact Option.some_ne_none _ (hm'.symm.trans hk)
    exact (h.compat i j hj.symm).agree g m m'
      (by simpa [View.publish, Function.update_of_ne hgf] using hm) hm'
  · have hgf : g ≠ f := by
      rintro rfl
      simp [View.publish] at hg'
    exact (h.compat i j hj.symm).apart g file'
      (by simpa [View.publish, Function.update_of_ne hgf] using hg')
  · have hgf : g ≠ f := by
      rintro rfl
      exact Option.some_ne_none _ (hm.symm.trans hk)
    exact (h.compat j i hj).agree g m m' hm
      (by simpa [View.publish, Function.update_of_ne hgf] using hm')
  · have hgf : g ≠ f := by
      rintro rfl
      exact Option.some_ne_none _ (hg'.symm.trans hnone)
    obtain ⟨hk', hn'⟩ := (h.compat j i hj).apart g file' hg'
    exact ⟨by simpa [View.publish, Function.update_of_ne hgf] using hk',
      by simpa [View.publish, Function.update_of_ne hgf] using hn'⟩

end Sites
/-! ## The discipline -/

/-- The ghost value of a thread: what it holds, what it relies on, and what a particular use of
the discipline adds. -/
structure Ghost (ε : Type) where
  hold : Hold
  view : View
  ext : ε

section discipline
variable {ε : Type} {F : FileSet} {N : List CString}
  {E : (ι → ε) → List (ι × Op) → (Nat → Sector) → Prop}

/-- The invariant. `E` is what a particular use of the discipline says of the settled disk. -/
structure Tied (F : FileSet) (N : List CString)
    (E : (ι → ε) → List (ι × Op) → (Nat → Sector) → Prop) (G : ι → Ghost ε)
    (l : List (ι × Op)) (s : Kernel) : Prop where
  names : s.names = N
  locks : Locks (fun i => (G i).hold) s.mutex s.arrayMutex
  sites : Sites F (fun i => (G i).view) s
  settled : ∃ S, Settled F.data (fun i => (G i).hold) s.disk S ∧ E (fun i => (G i).ext) l S

/-- A thread waits for a header with no mutex in its hands, for a data sector only in the loop
of `lockSectors`, and for the array mutex only in front of that loop. -/
def mayWait (h : Hold) : Op → Prop
  | .rwP x => x.toNat ∉ h.locked ∧ (h.locked ≠ [] → h.array = true)
  | .arrP => h.locked = [] ∧ h.array = false
  | _ => False

def discipline (F : FileSet) (N : List CString)
    (E : (ι → ε) → List (ι × Op) → (Nat → Sector) → Prop)
    (A : List (ι × Op) → ι → Op → Prop) : Protocol kernelOps Kernel ι (Ghost ε) where
  Inv := Tied F N E
  Allowed := A
  MayBlock g o := mayWait g.hold o

/-- Operations between the phases: transfers are of sectors that belong to the files, and a phase
takes place when the array mutex is released. -/
def Op.Local (F : FileSet) : Op → Prop
  | .readSector x => ∃ n ∈ F.mem, ∃ y ∈ n.sectors, x = (y : Nat)
  | .writeSector x _ => ∃ n ∈ F.mem, ∃ y ∈ n.sectors, x = (y : Nat)
  | .arrV => False
  | _ => True

/-- `E` does not depend on what the steps of the discipline change, apart from the phases. -/
def Steadfast (F : FileSet) (E : (ι → ε) → List (ι × Op) → (Nat → Sector) → Prop) : Prop :=
  ∀ x l S S' i o, E x l S → o.Local F → (∀ y, (∀ n ∈ F.mem, y ≠ n.hdr) → S' y = S y) →
    E x ((i, o) :: l) S'

variable {A : List (ι × Op) → ι → Op → Prop} {G : ι → Ghost ε} {l : List (ι × Op)}
  {s s' : Kernel} {i : ι} {g : Ghost ε} {o : Op}

theorem Tied.step (h : Tied F N E G l s) (hn : s'.names = s.names)
    (hL : Locks (Function.update (fun i => (G i).hold) i g.hold) s'.mutex s'.arrayMutex)
    (hV : Sites F (Function.update (fun i => (G i).view) i g.view) s')
    (hS : ∃ S, Settled F.data (Function.update (fun i => (G i).hold) i g.hold) s'.disk S ∧
      E (Function.update (fun i => (G i).ext) i g.ext) ((i, o) :: l) S) :
    Tied F N E (Function.update G i g) ((i, o) :: l) s' := by
  have hcomp : ∀ {β : Type} (p : Ghost ε → β), (fun j => p (Function.update G i g j)) =
      Function.update (fun j => p (G j)) i (p g) := fun p => by
    funext j
    by_cases hj : j = i
    · subst hj
      rw [Function.update_self, Function.update_self]
    · rw [Function.update_of_ne hj, Function.update_of_ne hj]
  constructor
  · rw [hn, h.names]
  · rw [hcomp]
    exact hL
  · rw [hcomp]
    exact hV
  · rw [hcomp, hcomp]
    exact hS

theorem Tied.quiet (hE : Steadfast F E) (h : Tied F N E G l s) (ho : o.Local F)
    (hg : g.hold = (G i).hold) (hx : g.ext = (G i).ext) (hn : s'.names = s.names)
    (hd : s'.disk = s.disk) (hm : s'.mutex = s.mutex) (ha : s'.arrayMutex = s.arrayMutex)
    (hV : Sites F (Function.update (fun i => (G i).view) i g.view) s') :
    Tied F N E (Function.update G i g) ((i, o) :: l) s' := by
  obtain ⟨S, hS, hES⟩ := h.settled
  have hH : Function.update (fun i => (G i).hold) i g.hold = fun i => (G i).hold := by
    rw [hg, Function.update_eq_self]
  refine h.step hn ?_ hV ⟨S, ?_, ?_⟩
  · rw [hH, hm, ha]
    exact h.locks
  · rw [hH, hd]
    exact hS
  · rw [hx, Function.update_eq_self]
    exact hE _ _ S S i o hES ho fun _ _ => rfl

theorem Tied.hold (hE : Steadfast F E) (h : Tied F N E G l s) (ho : o.Local F)
    (hv : g.view = (G i).view) (hx : g.ext = (G i).ext) (hn : s'.names = s.names)
    (hd : s'.disk = s.disk) (hf : s'.files = s.files) (hf' : s'.nextFile = s.nextFile)
    (hL : Locks (Function.update (fun i => (G i).hold) i g.hold) s'.mutex s'.arrayMutex)
    (hS : ∀ S, Settled F.data (fun i => (G i).hold) s.disk S →
      Settled F.data (Function.update (fun i => (G i).hold) i g.hold) s.disk S) :
    Tied F N E (Function.update G i g) ((i, o) :: l) s' := by
  obtain ⟨S, hset, hES⟩ := h.settled
  refine h.step hn hL ?_ ⟨S, ?_, ?_⟩
  · rw [hv, Function.update_eq_self]
    exact h.sites.congr (fun _ _ h => by rwa [hd]) hf hf'
  · rw [hd]
    exact hS S hset
  · rw [hx, Function.update_eq_self]
    exact hE _ _ S S i o hES ho fun _ _ => rfl

end discipline
end Nachos
