import Nachos.FileSys.Grow
import Nachos.FileSys.Directory

/-! Directories: the table that a directory file holds, and what the operations of
`directory.cc` do with it when one thread runs. -/

namespace Nachos
open Lib Program

/-! ## The table in a directory file -/

/-- The ten entries that a directory file begins with. -/
def entriesOf (content : List Byte) : List DirectoryEntry :=
  entriesOfWords (wordsOfBytes (content.take 120))

theorem entriesOfWords_toWords (es : List DirectoryEntry) :
    entriesOfWords (es.flatMap (·.toWords)) = es := by
  induction es with
  | nil => rfl
  | cons e es ih =>
    rw [List.flatMap_cons, DirectoryEntry.toWords, List.cons_append, List.cons_append,
      List.cons_append,
      List.nil_append, entriesOfWords, ih]

theorem length_entriesOfWords {k : Nat} {ws : List Word} (h : ws.length = 3 * k) :
    (entriesOfWords ws).length = k := by
  induction k generalizing ws with
  | zero =>
    obtain rfl := List.eq_nil_of_length_eq_zero h
    rfl
  | succ k ih =>
    match ws, h with
    | _ :: _ :: _ :: ws, h =>
      rw [entriesOfWords, List.length_cons, ih (by simp only [List.length_cons] at h; omega)]

theorem length_entriesOf {content : List Byte} (h : 120 ≤ content.length) :
    (entriesOf content).length = 10 :=
  length_entriesOfWords (by rw [length_wordsOfBytes, List.length_take]; omega)

namespace Directory
variable {d : Directory}

theorem length_toBytes (d : Directory) : d.toBytes.length = 12 * d.tableSize := by
  have h : ∀ es : List DirectoryEntry, (es.flatMap (·.toWords)).length = 3 * es.length := by
    intro es
    induction es with
    | nil => rfl
    | cons e es ih =>
      rw [List.flatMap_cons, List.length_append, ih, List.length_cons, DirectoryEntry.toWords]
      simp only [List.length_cons, List.length_nil]
      omega
  rw [toBytes, length_bytesOfWords, h, tableSize]
  omega

theorem entriesOf_splice {content : List Byte} (hd : d.tableSize = 10) :
    entriesOf (splice content 0 d.toBytes) = d.table := by
  have hl : d.toBytes.length = 120 := by rw [length_toBytes, hd]
  rw [entriesOf, splice, List.take_zero, List.nil_append, List.take_append_of_le_length (by omega),
    List.take_of_length_le (by omega), toBytes, wordsOfBytes_bytesOfWords, entriesOfWords_toWords]

theorem load_table {b : List Byte} (hd : d.tableSize = 10) (hb : b.length = 120) :
    (d.load b).table = entriesOfWords (wordsOfBytes b) := by
  have hl : d.toBytes.length = 120 := by rw [length_toBytes, hd]
  rw [load, List.drop_of_length_le (by omega), List.append_nil]

end Directory

namespace DirectoryEntry

@[simp] theorem inUse_setInUse (e : DirectoryEntry) (b : Bool) : (e.setInUse b).inUse = b := by
  have h : (e.flags.extractLsb' 8 24 ++ (if b then 1#8 else 0#8)).extractLsb' 0 8 =
      if b then 1#8 else 0#8 := by
    ext i hi
    rw [BitVec.getElem_extractLsb', Nat.zero_add, ← BitVec.getLsbD_eq_getElem]
    exact BitVec.getLsbD_append.trans (if_pos hi)
  cases b <;> simp_all [inUse, setInUse]

def called (names : List CString) (c : CString) (e : DirectoryEntry) : Bool :=
  e.inUse && e.name != 0 && names[e.name.toNat - 1]? == some c

end DirectoryEntry

def Readable (names : List CString) (es : List DirectoryEntry) : Prop :=
  ∀ e ∈ es, e.inUse = true → e.name ≠ 0 → ∃ c, names[e.name.toNat - 1]? = some c

section operations
variable {s : Kernel} {n : FileNode} {f : Handle} {c : CString} {es : List DirectoryEntry}
  {d : Directory}

theorem wp_findIndexFrom_null (i : Nat) {Q : Int → Kernel → Prop} :
    Wp (Directory.findIndexFrom none i es) Q s ↔ Q (-1) s := by
  induction es generalizing i with
  | nil => exact wp_pure
  | cons e es ih => exact ih (i + 1)

/-- A search for the name `c` in a table, up to the first entry that has it: the slot, if there is
one, or nothing if the name of an entry in use cannot be read. -/
def search (names : List CString) (c : CString) : List DirectoryEntry → Option (Option Nat)
  | [] => some none
  | e :: es =>
    if e.inUse && e.name != 0 then
      match names[e.name.toNat - 1]? with
      | some c' => if c' = c then some (some 0) else (search names c es).map (·.map (· + 1))
      | none => none
    else (search names c es).map (·.map (· + 1))

theorem search_of_readable {names : List CString} (hr : Readable names es) :
    search names c es = some (es.findIdx? (·.called names c)) := by
  induction es with
  | nil => rfl
  | cons e es ih =>
    have hrest := ih fun e' he' => hr e' (List.mem_cons_of_mem _ he')
    rw [search, List.findIdx?_cons, hrest, Option.map_some]
    by_cases hu : (e.inUse && e.name != 0) = true
    · obtain ⟨c', hc'⟩ := hr e (List.mem_cons_self ..) (by simp_all) (by simp_all)
      rw [if_pos hu, hc']
      by_cases hcc : c' = c
      · have hcall : e.called names c = true := by simp_all [DirectoryEntry.called]
        simp [hcc, hcall]
      · have hcall : e.called names c = false := by simp_all [DirectoryEntry.called]
        simp [hcc, hcall]
    · have hcall : e.called names c = false := by
        rw [DirectoryEntry.called, Bool.not_eq_true _ |>.mp hu, Bool.false_and]
      rw [if_neg hu, hcall]
      rfl

def slotIndex (i : Nat) : Option Nat → Int
  | some j => (i + j : Nat)
  | none => -1

theorem slotIndex_succ (i : Nat) (r : Option Nat) :
    slotIndex i (r.map (· + 1)) = slotIndex (i + 1) r := by
  cases r with
  | none => rfl
  | some j =>
    change ((i + (j + 1) : Nat) : Int) = (i + 1 + j : Nat)
    omega

theorem wp_findIndexFrom_iff (i : Nat) {Q : Int → Kernel → Prop} :
    Wp (Directory.findIndexFrom (some c) i es) Q s ↔
      ∃ r, search s.names c es = some r ∧ Q (slotIndex i r) s := by
  induction es generalizing i with
  | nil =>
    rw [Directory.findIndexFrom, wp_pure, search]
    simp [slotIndex]
  | cons e es ih =>
    have hrest : Wp (Directory.findIndexFrom (some c) (i + 1) es) Q s ↔
        ∃ r, (search s.names c es).map (·.map (· + 1)) = some r ∧ Q (slotIndex i r) s := by
      rw [ih]
      constructor
      · rintro ⟨r, hr, hQ⟩
        exact ⟨r.map (· + 1), by rw [hr]; rfl, by rwa [slotIndex_succ]⟩
      · rintro ⟨r, hr, hQ⟩
        obtain ⟨r', hr', rfl⟩ := Option.map_eq_some_iff.mp hr
        exact ⟨r', hr', by rwa [slotIndex_succ] at hQ⟩
    rw [Directory.findIndexFrom, search]
    by_cases hu : (e.inUse && e.name != 0) = true
    · have hne : e.name ≠ 0 := by simp_all
      simp only [if_pos hu, wp_then]
      cases hc' : s.names[e.name.toNat - 1]? with
      | none =>
        refine iff_of_false (not_wp_getName hc') ?_
        rintro ⟨r, hr, -⟩
        cases hr
      | some c' =>
        rw [wp_getName hne hc']
        by_cases hcc : c' = c
        · simp only [if_pos hcc, wp_pure]
          constructor
          · intro hQ
            exact ⟨some 0, rfl, hQ⟩
          · rintro ⟨r, hr, hQ⟩
            cases hr
            exact hQ
        · simp only [if_neg hcc]
          exact hrest
    · simp only [if_neg hu]
      exact hrest

theorem wp_findIndex_iff {Q : Int → Kernel → Prop} :
    Wp (d.findIndex (some c)) Q s ↔
      ∃ r, search s.names c d.table = some r ∧ Q (slotIndex 0 r) s :=
  wp_findIndexFrom_iff 0

theorem wp_findIndex (hr : Readable s.names d.table) {Q : Int → Kernel → Prop} :
    Wp (d.findIndex (some c)) Q s ↔
      Q (match d.table.findIdx? (·.called s.names c) with
        | some j => (j : Nat)
        | none => -1) s := by
  rw [wp_findIndex_iff, search_of_readable hr]
  simp only [Option.some.injEq, exists_eq_left', slotIndex, Nat.zero_add]

theorem wp_find_null {Q : Int → Kernel → Prop} : Wp (d.find none) Q s ↔ Q (-1) s := by
  rw [Directory.find, wp_then, Directory.findIndex, wp_findIndexFrom_null]
  simp only [ne_eq, not_true_eq_false, if_false, wp_pure]

theorem wp_find_missing (hr : Readable s.names d.table)
    (hf : d.table.findIdx? (·.called s.names c) = none) {Q : Int → Kernel → Prop} :
    Wp (d.find (some c)) Q s ↔ Q (-1) s := by
  rw [Directory.find, wp_then, wp_findIndex hr, hf]
  simp only [ne_eq, not_true_eq_false, if_false, wp_pure]

theorem wp_find_found (hr : Readable s.names d.table) {i : Nat} {e : DirectoryEntry}
    (hf : d.table.findIdx? (·.called s.names c) = some i) (he : d.table[i]? = some e)
    {Q : Int → Kernel → Prop} : Wp (d.find (some c)) Q s ↔ Q e.sector.toInt s := by
  rw [Directory.find, wp_then, wp_findIndex hr, hf]
  have hi : ((i : Nat) : Int) ≠ -1 := by omega
  simp only [ne_eq, hi, not_false_eq_true, if_true, Int.toNat_natCast, he, wp_then,
    wp_orFault_some, wp_pure]

theorem search_lt {names : List CString} {i : Nat} (h : search names c es = some (some i)) :
    i < es.length := by
  induction es generalizing i with
  | nil => cases h
  | cons e es ih =>
    have hrest : ∀ i, (search names c es).map (·.map (· + 1)) = some (some i) →
        i < (e :: es).length := fun i hi => by
      obtain ⟨r, hr, hri⟩ := Option.map_eq_some_iff.mp hi
      obtain ⟨j, rfl, rfl⟩ := Option.map_eq_some_iff.mp hri
      exact Nat.succ_lt_succ (ih hr)
    rw [search] at h
    split at h
    · split at h
      · split at h
        · cases h
          exact Nat.succ_pos _
        · exact hrest i h
      · cases h
    · exact hrest i h

def slotSector (es : List DirectoryEntry) (r : Option Nat) : Int :=
  match r.bind (es[·]?) with
  | some e => e.sector.toInt
  | none => -1

theorem wp_find_iff {Q : Int → Kernel → Prop} :
    Wp (d.find (some c)) Q s ↔
      ∃ r, search s.names c d.table = some r ∧ Q (slotSector d.table r) s := by
  rw [Directory.find, wp_then, wp_findIndex_iff]
  refine exists_congr fun r => and_congr_right fun hr => ?_
  cases r with
  | none => simp [slotIndex, slotSector, wp_pure]
  | some i =>
    have hi : ((i : Nat) : Int) ≠ -1 := by omega
    have he := List.getElem?_eq_getElem (search_lt hr)
    simp only [slotIndex, Nat.zero_add, ne_eq, hi, not_false_eq_true, if_true, Int.toNat_natCast, he,
      wp_then, wp_orFault_some, wp_pure, slotSector, Option.bind_some]

def addedEntry (e : DirectoryEntry) (sector p : Nat) : DirectoryEntry :=
  { e.setInUse true with sector := .ofNat 32 sector, name := .ofNat 32 p }

def removedEntry (e : DirectoryEntry) : DirectoryEntry := { e.setInUse false with name := 0 }

theorem wp_add_full (hr : Readable s.names d.table) {sector : Int}
    (hf : d.table.findIdx? (·.called s.names c) = none)
    (hfull : d.table.findIdx? (fun e => !e.inUse) = none) {Q : Bool × Directory → Kernel → Prop} :
    Wp (d.add (some c) sector) Q s ↔ Q (false, d) s := by
  rw [Directory.add, wp_then, wp_findIndex hr, hf]
  simp only [ne_eq, not_true_eq_false, if_false, hfull, wp_pure]

theorem wp_add (hr : Readable s.names d.table) {i sector : Nat} {e : DirectoryEntry}
    (hf : d.table.findIdx? (·.called s.names c) = none)
    (hfree : d.table.findIdx? (fun e => !e.inUse) = some i) (he : d.table[i]? = some e)
    (hh : s.names.length + 1 < 2 ^ 32) {Q : Bool × Directory → Kernel → Prop} :
    Wp (d.add (some c) sector) Q s ↔
      Q (true, ⟨d.table.set i (addedEntry e sector (s.names.length + 1))⟩)
        { s with names := s.names ++ [c] } := by
  rw [Directory.add, wp_then, wp_findIndex hr, hf]
  simp only [ne_eq, not_true_eq_false, if_false, hfree, he, wp_then, wp_orFault_some, wp_pure,
    Directory.newEntry, wp_newName hh, BitVec.ofInt_natCast]
  rfl

theorem wp_remove (hr : Readable s.names d.table) {i : Nat}
    (hf : d.table.findIdx? (·.called s.names c) = some i) {Q : Bool × Directory → Kernel → Prop} :
    Wp (d.remove (some c)) Q s ↔ Q (true, ⟨d.table.modify i removedEntry⟩) s := by
  have hi : ((i : Nat) : Int) ≠ -1 := by omega
  rw [Directory.remove, wp_then, wp_findIndex hr, hf]
  simp only [hi, if_false, wp_pure, Int.toNat_natCast]
  rfl

theorem wp_list (hr : Readable s.names d.table) {Q : Unit → Kernel → Prop} :
    Wp d.list Q s ↔ Q () s := by
  obtain ⟨es⟩ := d
  rw [Directory.list]
  induction es with
  | nil => rw [List.forM_nil, wp_pure]
  | cons e es ih =>
    have ih' := ih fun e' he' => hr e' (List.mem_cons_of_mem _ he')
    simp only [List.forM_cons, wp_then]
    by_cases hu : (e.inUse && e.name != 0) = true
    · obtain ⟨c', hc'⟩ := hr e (List.mem_cons_self ..) (by simp_all) (by simp_all)
      have hne : e.name ≠ 0 := by simp_all
      simp only [if_pos hu, wp_then, wp_getName hne hc', wp_pure]
      exact ih'
    · simp only [if_neg hu, wp_pure]
      exact ih'

structure NewTable (s s' : Kernel) (d : Directory) : Prop where
  size : d.tableSize = 10
  empty : ∀ e ∈ d.table, e.inUse = false
  steady : Steady s s'
  disk : ∃ now, s'.disk = visited s.disk 1 now
  files : s'.files = s.files

theorem wp_newDirectory_visited : Wp (Directory.new 10) (fun d s' => NewTable s s' d) s := by
  have h1 : (1 : Int) = ((1 : Nat) : Int) := rfl
  simp only [Directory.new, FileHeader.fetchFrom, FileHeader.writeBack, wp_then, wp_freshMemory, h1,
    wp_readSector (show 1 < 1024 by omega), wp_pure, wp_time,
      wp_writeSector (show 1 < 1024 by omega)]
  refine ⟨?_, fun e he => ?_, ((Steady.tick ..).trans (.tick ..)).trans (.setDisk ..), ⟨_, rfl⟩, rfl⟩
  · rw [Directory.tableSize, List.length_map]
    exact length_entriesOfWords (by rw [List.length_map, List.length_range])
  · obtain ⟨e', -, rfl⟩ := List.mem_map.mp he
    exact e'.inUse_setInUse false

theorem wp_newDirectory {Q : Directory → Kernel → Prop}
    (hQ : ∀ d s', d.tableSize = 10 → (∀ e ∈ d.table, e.inUse = false) → Steady s s' →
      Touched 1 s.disk s'.disk → s'.files = s.files → Q d s') :
    Wp (Directory.new 10) Q s := by
  refine wp_newDirectory_visited.mono fun d s' h => ?_
  obtain ⟨now, hnow⟩ := h.disk
  exact hQ d s' h.size h.empty h.steady (hnow ▸ touched_visited ..) h.files

theorem wp_fetchDirectory (hq : s.Quiet) (hn : n.On s.disk) (ho : s.OpenOn f n.hdr)
    (hlen : 120 ≤ n.length) (hd : d.tableSize = 10) {Q : Directory → Kernel → Prop}
    (hQ : ∀ s', Fetched s s' f n.hdr → Q ⟨entriesOf n.content⟩ s') :
    Wp (d.fetchFrom f) Q s := by
  simp only [Directory.fetchFrom, wp_then, wp_pure, hd]
  refine wp_readAt (p := 0) hq hn.holds ho (by omega) fun s' hs => ?_
  have hsize := n.size
  have hload : d.load ((n.content.drop 0).take (12 * (10 : Nat) : Int).toNat) = ⟨entriesOf
    n.content⟩ := by
    have := Directory.load_table (b := n.content.take 120) hd (by rw [List.length_take]; omega)
    exact congrArg Directory.mk this
  rw [hload]
  exact hQ s' hs

theorem wp_writeDirectory (hq : s.Quiet) (hn : n.On s.disk) (ho : s.OpenOn f n.hdr)
    (hlen : ((0 : Nat) : Int) + d.toBytes.length ≤ n.length) (hd : d.tableSize = 10)
    {Q : Unit → Kernel → Prop}
    (hQ : ∀ s', Steady s s' → (n.overwrite 0 d.toBytes hlen).On s'.disk →
      (∀ x ∉ n.data, s'.disk x = s.disk x) → Q () s') :
    Wp (d.writeBack f) Q s := by
  have hl : d.toBytes.length = 120 := by rw [Directory.length_toBytes, hd]
  simp only [Directory.writeBack, wp_then, wp_pure]
  exact wp_writeAt_inPlace (p := 0) hq hn ho (by omega) hlen hQ

end operations
end Nachos
