import Nachos.FileSys.OpenFile
import Mathlib.Data.List.Nodup

/-! What a file on disk is: a header sector, index-table sectors and data sectors, pairwise
distinct, and the bytes they hold. -/

namespace Nachos
open Lib

theorem toInt_ofNat_sector {x : Nat} (h : x < 1024) : (BitVec.ofNat 32 x).toInt = x := by
  simp only [BitVec.toInt_ofNat']
  exact Int.bmod_eq_of_le (by omega) (by omega)

def blocks (d : Nat → Sector) (xs : List Nat) : List Byte := xs.flatMap fun x => (d x).bytes

def hdrAt (d : Nat → Sector) (h : Nat) : FileHeader := .ofSector (d h)

section blocks
variable {d d' : Nat → Sector} {x : Nat} {xs ys : List Nat}

@[simp] theorem blocks_nil : blocks d [] = [] := rfl

@[simp] theorem blocks_cons : blocks d (x :: xs) = (d x).bytes ++ blocks d xs := rfl

@[simp] theorem blocks_append : blocks d (xs ++ ys) = blocks d xs ++ blocks d ys :=
  List.flatMap_append

@[simp] theorem length_blocks : (blocks d xs).length = 128 * xs.length := by
  induction xs with
  | nil => rfl
  | cons x xs ih => simp only [blocks_cons, List.length_append, (d x).size, ih,
    List.length_cons]; omega

theorem blocks_congr (h : ∀ x ∈ xs, d x = d' x) : blocks d xs = blocks d' xs := by
  induction xs with
  | nil => rfl
  | cons x xs ih =>
    rw [blocks_cons, blocks_cons, h x (List.mem_cons_self ..),
      ih fun y hy => h y (List.mem_cons_of_mem _ hy)]

theorem blocks_drop (a : Nat) : blocks d (xs.drop a) = (blocks d xs).drop (128 * a) := by
  induction a generalizing xs with
  | zero => simp
  | succ a ih =>
    cases xs with
    | nil => simp
    | cons x xs =>
      have hx : (d x).bytes.drop (128 * (a + 1)) = [] :=
        List.drop_of_length_le (by rw [(d x).size]; omega)
      rw [List.drop_succ_cons, ih, blocks_cons, List.drop_append, hx, (d x).size, List.nil_append,
        show 128 * (a + 1) - 128 = 128 * a by omega]

theorem blocks_take (c : Nat) : blocks d (xs.take c) = (blocks d xs).take (128 * c) := by
  induction c generalizing xs with
  | zero => simp
  | succ c ih =>
    cases xs with
    | nil => simp
    | cons x xs =>
      have hx : (d x).bytes.take (128 * (c + 1)) = (d x).bytes :=
        List.take_of_length_le (by rw [(d x).size]; omega)
      rw [List.take_succ_cons, blocks_cons, ih, blocks_cons, List.take_append, hx, (d x).size,
        show 128 * (c + 1) - 128 = 128 * c by omega]

def writeBlocks (d : Nat → Sector) : List Nat → List Byte → Nat → Sector
  | [], _ => d
  | x :: xs, buf => writeBlocks (Function.update d x (.ofBytes (buf.take 128))) xs (buf.drop 128)

theorem writeBlocks_of_not_mem {buf : List Byte} {y : Nat} (hy : y ∉ xs) :
    writeBlocks d xs buf y = d y := by
  induction xs generalizing d buf with
  | nil => rfl
  | cons x xs ih =>
    obtain ⟨hyx, hyxs⟩ := List.ne_and_not_mem_of_not_mem_cons hy
    rw [writeBlocks, ih hyxs, Function.update_of_ne hyx]

theorem writeBlocks_getElem? {buf : List Byte} {k : Nat} (hn : xs.Nodup) (hx : xs[k]? = some x) :
    writeBlocks d xs buf x = .ofBytes ((buf.drop (128 * k)).take 128) := by
  induction xs generalizing d buf k with
  | nil => simp at hx
  | cons y xs ih =>
    obtain ⟨hy, hxs⟩ := List.nodup_cons.mp hn
    cases k with
    | zero =>
      obtain rfl : y = x := by simpa using hx
      rw [writeBlocks, writeBlocks_of_not_mem hy, Function.update_self, Nat.mul_zero, List.drop_zero]
    | succ k =>
      rw [writeBlocks, ih hxs (by simpa using hx), List.drop_drop]
      congr 3
      omega

theorem blocks_writeBlocks_self {buf : List Byte} (hn : xs.Nodup)
    (hb : buf.length = 128 * xs.length) :
    blocks (writeBlocks d xs buf) xs = buf := by
  induction xs generalizing d buf with
  | nil => exact (List.length_eq_zero_iff.mp (by simpa using hb)).symm
  | cons x xs ih =>
    obtain ⟨hx, hxs⟩ := List.nodup_cons.mp hn
    rw [List.length_cons] at hb
    rw [blocks_cons, writeBlocks, writeBlocks_of_not_mem hx, Function.update_self,
      ih hxs (by rw [List.length_drop]; omega),
      Sector.bytes_ofBytes (by rw [List.length_take]; omega), List.take_append_drop]

theorem blocks_writeBlocks {buf : List Byte} {a c : Nat} (hn : xs.Nodup) (hc : a + c ≤ xs.length)
    (hb : buf.length = 128 * c) :
    blocks (writeBlocks d ((xs.drop a).take c) buf) xs = splice (blocks d xs) (128 * a) buf := by
  have hsplit : xs = xs.take a ++ ((xs.drop a).take c ++ xs.drop (a + c)) := by
    rw [← List.drop_drop, List.take_append_drop, List.take_append_drop]
  have hl : ((xs.drop a).take c).length = c := by
    rw [List.length_take, List.length_drop]
    omega
  have hn' := hn
  rw [hsplit, List.nodup_append', List.nodup_append'] at hn'
  obtain ⟨-, ⟨hmid, -, hmr⟩, hlr⟩ := hn'
  have h₁ : blocks (writeBlocks d ((xs.drop a).take c) buf) (xs.take a) = (blocks d xs).take
    (128 * a) := by
    rw [← blocks_take]
    exact blocks_congr fun y hy => writeBlocks_of_not_mem fun hm =>
      hlr hy (List.mem_append_left _ hm)
  have h₂ : blocks (writeBlocks d ((xs.drop a).take c) buf) (xs.drop (a + c)) =
      (blocks d xs).drop (128 * a + buf.length) := by
    rw [hb, ← Nat.mul_add, ← blocks_drop]
    exact blocks_congr fun y hy => writeBlocks_of_not_mem fun hm => hmr hm hy
  have h₃ := blocks_writeBlocks_self (d := d) hmid (hb.trans (by rw [hl]))
  generalize writeBlocks d ((xs.drop a).take c) buf = e at h₁ h₂ h₃ ⊢
  calc blocks e xs = blocks e (xs.take a ++ ((xs.drop a).take c ++ xs.drop (a + c))) := by
        rw [← hsplit]
    _ = splice (blocks d xs) (128 * a) buf := by
        rw [blocks_append, blocks_append, h₁, h₂, h₃, splice, List.append_assoc]

end blocks

/-! ## Index tables -/

/-- The tables in the sectors `index` list the sectors `data`. -/
def Leads (d : Nat → Sector) (index data : List Nat) : Prop :=
  ∀ j x, data[j]? = some x →
    ∃ t, index[j / 32]? = some t ∧ (d t).word (j % 32) = BitVec.ofNat 32 x

theorem Leads.congr {d d' : Nat → Sector} {index data : List Nat} (h : Leads d index data)
    (he : ∀ x ∈ index, d' x = d x) : Leads d' index data := by
  intro j x hx
  obtain ⟨t, ht, hw⟩ := h j x hx
  exact ⟨t, ht, by rw [he t (List.mem_of_getElem? ht), hw]⟩

theorem Leads.append {d : Nat → Sector} {index data index' data' : List Nat}
    (h : Leads d index data)
    (h' : Leads d index' data') (hf : data.length = 32 * index.length ∨ data' = []) :
    Leads d (index ++ index') (data ++ data') := by
  intro j x hx
  rw [List.getElem?_append] at hx
  split at hx
  · obtain ⟨t, ht, hw⟩ := h j x hx
    have hlt := (List.getElem?_eq_some_iff.mp ht).1
    exact ⟨t, by rw [List.getElem?_append_left hlt, ht], hw⟩
  · obtain ⟨t, ht, hw⟩ := h' _ x hx
    have hfull : data.length = 32 * index.length := by
      rcases hf with hf | rfl
      · exact hf
      · simp at hx
    refine ⟨t, ?_, ?_⟩
    · rw [List.getElem?_append_right (by omega), ← ht]
      congr 1
      omega
    · rw [← hw]
      congr 1
      omega

structure Extent where
  index : List Nat
  data : List Nat
  nodup : (index ++ data).Nodup
  lt : ∀ x ∈ index ++ data, x < 1024
  tables : index.length = (data.length + 31) / 32
  direct : index.length ≤ 25

namespace Extent
variable {X : Extent} {x : Nat}

def Lists (X : Extent) (hdr : FileHeader) : Prop :=
  ∀ (i : Nat) t, X.index[i]? = some t → hdr.entry i = some (BitVec.ofNat 32 t)

theorem index_lt (h : x ∈ X.index) : x < 1024 := X.lt x (List.mem_append_left _ h)

theorem data_lt (h : x ∈ X.data) : x < 1024 := X.lt x (List.mem_append_right _ h)

theorem index_nodup (X : Extent) : X.index.Nodup := (List.nodup_append'.mp X.nodup).1

theorem index_not_mem_data (h : x ∈ X.index) : x ∉ X.data := fun hd =>
  (List.nodup_append'.mp X.nodup).2.2 h hd

theorem data_length_le (X : Extent) : X.data.length ≤ 800 := by
  have h₁ := X.tables
  have h₂ := X.direct
  omega

end Extent

/-! ## File nodes -/

/-- A file as the rest of the system sees it. `length` and `numSectors` are the header's
`numBytes` and `numSectors`, and `content` is the file's first `length` bytes. -/
structure FileNode where
  hdr : Nat
  index : List Nat
  data : List Nat
  fileType : Word
  numVisits : Word
  length : Int
  numSectors : Int
  content : List Byte
  nodup : (hdr :: (index ++ data)).Nodup
  lt : ∀ x ∈ hdr :: (index ++ data), x < 1024
  tables : index.length = (data.length + 31) / 32
  direct : index.length ≤ 25
  count : data.length = numSectors.toNat
  room : length ≤ 128 * data.length
  size : content.length = length.toNat

namespace FileNode
variable {n : FileNode} {x : Nat}

def sectors (n : FileNode) : List Nat := n.hdr :: (n.index ++ n.data)

theorem hdr_lt (n : FileNode) : n.hdr < 1024 := n.lt _ (List.mem_cons_self ..)

theorem index_lt (h : x ∈ n.index) : x < 1024 :=
  n.lt x (List.mem_cons_of_mem _ (List.mem_append_left _ h))

theorem data_lt (h : x ∈ n.data) : x < 1024 :=
  n.lt x (List.mem_cons_of_mem _ (List.mem_append_right _ h))

theorem data_nodup (n : FileNode) : n.data.Nodup :=
  (List.nodup_append'.mp (List.nodup_cons.mp n.nodup).2).2.1

theorem index_nodup (n : FileNode) : n.index.Nodup :=
  (List.nodup_append'.mp (List.nodup_cons.mp n.nodup).2).1

theorem hdr_not_mem_data (n : FileNode) : n.hdr ∉ n.data := fun h =>
  (List.nodup_cons.mp n.nodup).1 (List.mem_append_right _ h)

theorem hdr_not_mem_index (n : FileNode) : n.hdr ∉ n.index := fun h =>
  (List.nodup_cons.mp n.nodup).1 (List.mem_append_left _ h)

theorem index_not_mem_data (h : x ∈ n.index) : x ∉ n.data := fun hd =>
  (List.nodup_append'.mp (List.nodup_cons.mp n.nodup).2).2.2 h hd

theorem data_length_le (n : FileNode) : n.data.length ≤ 800 := by
  have h₁ := n.tables
  have h₂ := n.direct
  omega

theorem length_le (n : FileNode) : n.length ≤ 102400 := by
  have h₁ := n.room
  have h₂ := n.data_length_le
  omega

def extent (n : FileNode) : Extent where
  index := n.index
  data := n.data
  nodup := (List.nodup_cons.mp n.nodup).2
  lt x hx := n.lt x (List.mem_cons_of_mem _ hx)
  tables := n.tables
  direct := n.direct

def Lists (n : FileNode) (hdr : FileHeader) : Prop :=
  ∀ (i : Nat) t, n.index[i]? = some t → hdr.entry i = some (BitVec.ofNat 32 t)

def Tables (n : FileNode) (d : Nat → Sector) : Prop := Leads d n.index n.data

structure On (n : FileNode) (d : Nat → Sector) : Prop where
  fileType : (hdrAt d n.hdr).fileType = n.fileType
  numVisits : (hdrAt d n.hdr).numVisits = n.numVisits
  length : (hdrAt d n.hdr).numBytes.toInt = n.length
  numSectors : (hdrAt d n.hdr).numSectors.toInt = n.numSectors
  lists : n.Lists (hdrAt d n.hdr)
  tables : n.Tables d
  content : (blocks d n.data).take n.length.toNat = n.content

/-- What `ReadAt` and a `WriteAt` inside the file depend on. -/
structure Holds (n : FileNode) (d : Nat → Sector) : Prop where
  length : (hdrAt d n.hdr).numBytes.toInt = n.length
  lists : n.Lists (hdrAt d n.hdr)
  tables : n.Tables d
  content : (blocks d n.data).take n.length.toNat = n.content

theorem On.holds {d : Nat → Sector} (h : n.On d) : n.Holds d :=
  ⟨h.length, h.lists, h.tables, h.content⟩

theorem Tables.congr {d d' : Nat → Sector} (h : n.Tables d) (he : ∀ x ∈ n.index, d' x = d x) :
    n.Tables d' := Leads.congr h he

end FileNode

/-! ## Headers up to their time stamps -/

/-- The headers differ at most in when the file was last visited or written. -/
structure FileHeader.SameFile (a b : FileHeader) : Prop where
  fileType : a.fileType = b.fileType
  table : a.primaryIndexTable = b.primaryIndexTable
  numVisits : a.numVisits = b.numVisits
  numBytes : a.numBytes = b.numBytes
  numSectors : a.numSectors = b.numSectors

namespace FileHeader.SameFile
variable {a b c : FileHeader}

theorem refl (a : FileHeader) : a.SameFile a := ⟨rfl, rfl, rfl, rfl, rfl⟩

theorem symm (h : a.SameFile b) : b.SameFile a :=
  ⟨h.1.symm, h.2.symm, h.3.symm, h.4.symm, h.5.symm⟩

theorem trans (h : a.SameFile b) (h' : b.SameFile c) : a.SameFile c :=
  ⟨h.1.trans h'.1, h.2.trans h'.2, h.3.trans h'.3, h.4.trans h'.4, h.5.trans h'.5⟩

theorem entry (h : a.SameFile b) (i : Int) : a.entry i = b.entry i := by
  simp only [FileHeader.entry, h.table]

end FileHeader.SameFile

namespace FileNode
variable {n : FileNode} {d d' : Nat → Sector}

theorem Lists.congr {a b : FileHeader} (h : n.Lists a) (hs : b.SameFile a) : n.Lists b :=
  fun i t ht => (hs.entry i).trans (h i t ht)

theorem On.congr (h : n.On d) (hh : (hdrAt d' n.hdr).SameFile (hdrAt d n.hdr))
    (he : ∀ x ∈ n.index ++ n.data, d' x = d x) : n.On d' where
  fileType := hh.fileType.trans h.fileType
  numVisits := hh.numVisits.trans h.numVisits
  length := by rw [hh.numBytes]; exact h.length
  numSectors := by rw [hh.numSectors]; exact h.numSectors
  lists := h.lists.congr hh
  tables := h.tables.congr fun x hx => he x (List.mem_append_left _ hx)
  content := by
    rw [← h.content]
    congr 1
    exact blocks_congr fun x hx => he x (List.mem_append_right _ hx)

end FileNode
end Nachos
