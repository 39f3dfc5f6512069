import Nachos.FileSys.PlainPath
import Nachos.FileSys.OpenExact
import Nachos.FileSys.Allocation

/-! When `Create` answers FALSE. What it does after `getFileName` is followed for any name, null
names included, and any table. -/

namespace Nachos
open Lib Program FileSystem

variable {s s' : Kernel} {v : Volume} {name : CString} {d n : FileNode} {f : Handle}

/-! ## Lookups of any name in any table -/

/-- A search for a name that may be null; a null name is in no table. -/
def searchFor (names : List CString) (name : Option CString) (es : List DirectoryEntry) :
    Option (Option Nat) :=
  match name with
  | some c => search names c es
  | none => some none

section table
variable {T : Directory} {nm : Option CString}

theorem wp_findIndex_any {Q : Int → Kernel → Prop} :
    Wp (T.findIndex nm) Q s ↔
      ∃ r, searchFor s.names nm T.table = some r ∧ Q (slotIndex 0 r) s := by
  cases nm with
  | some c => exact wp_findIndex_iff
  | none =>
    rw [Directory.findIndex, wp_findIndexFrom_null]
    simp [searchFor, slotIndex]

theorem wp_find_any {Q : Int → Kernel → Prop} :
    Wp (T.find nm) Q s ↔
      ∃ r, searchFor s.names nm T.table = some r ∧ Q (slotSector T.table r) s := by
  cases nm with
  | some c => exact wp_find_iff
  | none =>
    rw [wp_find_null]
    simp [searchFor, slotSector]

theorem wp_newName_iff {c : CString} {Q : Word → Kernel → Prop} :
    Wp (newName c) Q s ↔ s.names.length + 1 < 2 ^ 32 ∧
      Q (BitVec.ofNat 32 (s.names.length + 1)) { s with names := s.names ++ [c] } := by
  by_cases h : s.names.length + 1 < 2 ^ 32
  · rw [wp_newName h, and_iff_right h]
  · have hfault : ¬ Wp (newName c) Q s := not_wp_of_fault (by simp only [Kernel.exec, if_neg h])
    exact iff_of_false hfault fun h' => h h'.1

theorem wp_add_refused {r : Option Nat} {x : Int} {Q : Bool × Directory → Kernel → Prop}
    (hr : searchFor s.names nm T.table = some r)
    (h : r ≠ none ∨ ∀ e ∈ T.table, e.inUse = true) :
    Wp (T.add nm x) Q s ↔ Q (false, T) s := by
  rw [Directory.add, wp_then, wp_findIndex_any]
  simp only [hr, Option.some.injEq, exists_eq_left']
  cases r with
  | some j =>
    have hj : slotIndex 0 (some j) ≠ -1 := by
      rw [slotIndex]
      omega
    rw [if_pos hj, wp_pure]
  | none =>
    have hfull := h.resolve_left fun hne => hne rfl
    have hidx : T.table.findIdx? (fun e => !e.inUse) = none := by
      rw [List.findIdx?_eq_none_iff]
      intro e he
      rw [hfull e he]
      rfl
    rw [if_neg (by simp [slotIndex])]
    simp only [hidx, wp_pure]

theorem wp_add_free (x : Int) (hr : searchFor s.names nm T.table = some none)
    (h : ¬ ∀ e ∈ T.table, e.inUse = true) :
    ∃ T', ∀ Q : Bool × Directory → Kernel → Prop, Wp (T.add nm x) Q s ↔
      ∃ c, nm = some c ∧ s.names.length + 1 < 2 ^ 32 ∧
        Q (true, T') { s with names := s.names ++ [c] } := by
  cases hidx : T.table.findIdx? (fun e => !e.inUse) with
  | none =>
    rw [List.findIdx?_eq_none_iff] at hidx
    exact absurd (fun e he => by simpa using hidx e he) h
  | some i =>
    have hi : i < T.table.length := (List.findIdx?_eq_some_iff_getElem.mp hidx).1
    refine ⟨⟨T.table.set i { T.table[i].setInUse true with
      sector := .ofInt 32 x, name := BitVec.ofNat 32 (s.names.length + 1) }⟩, fun Q => ?_⟩
    rw [Directory.add, wp_then, wp_findIndex_any]
    simp only [hr, Option.some.injEq, exists_eq_left', slotIndex, ne_eq, not_true_eq_false,
      if_false, hidx, List.getElem?_eq_getElem hi, wp_then, wp_orFault_some,
      Directory.newEntry, wp_pure]
    cases nm with
    | none => simp [orFault, not_wp_fault]
    | some c => simp [wp_orFault_some, wp_newName_iff]

end table

/-! ## Create behind getFileName -/

def FileSystem.createWith (fs : FileSystem) (name : Option CString) (directory : Directory)
    (currDirectoryFile : Handle) (initialSize fileType : Int) (freeMap : BitMap) : Prog Bool := do
  let (sector, freeMap) := freeMap.find
  if sector = -1 then return false
  else
    let (added, directory) ← directory.add name sector
    if added then
      let (ok, hdr, freeMap) ← (← FileHeader.new).allocate freeMap initialSize fileType
      if ok then
        install fs hdr sector fileType directory currDirectoryFile freeMap
        return true
      else return false
    else return false

def FileSystem.createIn (fs : FileSystem) (name : Option CString) (directory : Directory)
    (currDirectoryFile : Handle) (initialSize fileType : Int) : Prog Bool := do
  if (← directory.find name) ≠ -1 then return false
  else
    let freeMap := BitMap.new (← freshMemory) 1024
    let freeMap ← freeMap.fetchFrom fs.freeMapFile
    createWith fs name directory currDirectoryFile initialSize fileType freeMap

theorem create_eq (fs : FileSystem) (name : CString) (size ty : Int) :
    create fs name size ty =
      getFileName name >>= fun r => createIn fs r.1 r.2.1 r.2.2 size ty := rfl

/-- The name `nm` can be searched for in the table, and it is there, or there is no sector for a
header, or no slot, or there are too few sectors for the data. -/
def Volume.RefusesIn (v : Volume) (nm : Option CString) (T : Directory) (size : Int) : Prop :=
  ∃ r, searchFor v.names nm T.table = some r ∧
    (r ≠ none ∨ v.map.numClear = 0 ∨ (∀ e ∈ T.table, e.inUse = true) ∨
      nm ≠ none ∧ v.names.length + 1 < 2 ^ 32 ∧
        ((v.map.numClear : Int) - 1 < divRoundUp size 128))

section createIn
variable {fs : FileSystem} {nm : Option CString} {T : Directory} {size ty : Int}
  {P : (Nat → Sector) → Prop}

theorem not_wp_install_false {hdr : FileHeader} {x : Int} {m : BitMap} :
    ¬ Wp (do install fs hdr x ty T f m; return true) (fun b s' => b = false ∧ P s'.disk) s := by
  rw [wp_then]
  simp only [wp_pure, Bool.true_eq_false, false_and]
  exact not_wp_false

theorem wp_allocate_false_iff {hdr : FileHeader} {x : Int} {m : BitMap} :
    Wp (do
      let (ok, hdr, m) ← hdr.allocate m size ty
      if ok then
        install fs hdr x ty T f m
        return true
      else return false) (fun b s' => b = false ∧ P s'.disk) s ↔
      (m.numClear : Int) < divRoundUp size 128 ∧ P s.disk := by
  rw [wp_then]
  by_cases hfew : (m.numClear : Int) < divRoundUp size 128
  · rw [and_iff_right hfew]
    simp only [FileHeader.allocate, wp_then, wp_time, if_pos hfew, wp_pure, Bool.false_eq_true,
      if_false, true_and]
  · rw [wp_allocate_iff hfew]
    refine iff_of_false (fun h => ?_) fun h => hfew h.1
    obtain ⟨r, s₁, -, h₁⟩ := h
    exact not_wp_install_false h₁

theorem Rep.createIn_reads (hr : Rep s v) (ho : s.OpenOn fs.freeMapFile 0) {r : Option Nat}
    (hsearch : searchFor v.names nm T.table = some r) (hsec : slotSector T.table r = -1) :
    ∃ s', Rep s' v ∧ Steady s s' ∧ s'.disk = s.disk ∧ ∀ Q : Bool → Kernel → Prop,
      Wp (createIn fs nm T f size ty) Q s ↔ Wp (createWith fs nm T f size ty v.map) Q s' := by
  have hst₁ := Steady.tick s (s.tick + 1)
  have hr₁ := hr.steady hst₁ rfl
  obtain ⟨_, s₂, ⟨rfl, hs₂⟩, hwp₂⟩ := Wp.exists_iff <|
    wp_fetchMap hr₁.quiet v.isMap hr₁.map (hst₁.openOn ho) (BitMap.numBits_new (s.host s.tick) 1024)
      (Q := fun m s' => m = v.map ∧ Fetched _ s' fs.freeMapFile 0) fun s' hs => ⟨rfl, hs⟩
  refine ⟨s₂, hr₁.steady hs₂.toSteady hs₂.disk, hst₁.trans hs₂.toSteady, hs₂.disk, fun Q => ?_⟩
  rw [createIn, wp_then, wp_find_any, hr.names]
  simp only [hsearch, Option.some.injEq, exists_eq_left', hsec, ne_eq, not_true_eq_false, if_false,
    wp_then, wp_freshMemory]
  rw [hwp₂]

/-- Behind the free map, `Create` answers FALSE just if there is no sector for the header, or `Add`
or `Allocate` refuses. -/
theorem createWith_false_iff (hr : Rep s v) {r : Option Nat}
    (hsearch : searchFor v.names nm T.table = some r) :
    Wp (createWith fs nm T f size ty v.map) (fun b s' => b = false ∧ P s'.disk) s ↔
      (r ≠ none ∨ v.map.numClear = 0 ∨ (∀ e ∈ T.table, e.inUse = true) ∨
        nm ≠ none ∧ v.names.length + 1 < 2 ^ 32 ∧
          ((v.map.numClear : Int) - 1 < divRoundUp size 128)) ∧ P s.disk := by
  unfold createWith
  cases hfree : v.map.free with
  | nil =>
    have hclear : v.map.numClear = 0 := by rw [BitMap.numClear_eq, hfree, List.length_nil]
    simp only [BitMap.find_of_free_nil hfree, if_true, wp_pure, true_and]
    rw [and_iff_right (Or.inr (Or.inl hclear))]
  | cons x rest =>
    have hx : ¬ (x : Int) = -1 := by omega
    have hclear : v.map.numClear = rest.length + 1 := by
      rw [BitMap.numClear_eq, hfree, List.length_cons]
    have hmark : (v.map.markBit x).numClear = rest.length := by
      rw [BitMap.numClear_eq, BitMap.free_markBit hfree]
    simp only [BitMap.find_of_free_cons hfree, hx, if_false, wp_then]
    rw [← hr.names] at hsearch
    by_cases hadd : r ≠ none ∨ ∀ e ∈ T.table, e.inUse = true
    · rw [wp_add_refused hsearch hadd]
      simp only [Bool.false_eq_true, if_false, wp_pure, true_and]
      rw [and_iff_right (hadd.imp_right fun h => .inr (.inl h))]
    · -- the name is added, and what is left is the test of `Allocate`
      rw [not_or, not_not] at hadd
      obtain ⟨rfl, hslot⟩ := hadd
      obtain ⟨T', hwp⟩ := wp_add_free (x : Int) hsearch hslot
      rw [hwp]
      simp only [if_true, wp_then, FileHeader.new, wp_freshMemory, wp_pure]
      simp only [← wp_then, wp_allocate_false_iff, hmark, hr.names, hclear]
      constructor
      · rintro ⟨c, rfl, hheap, hfew, hP⟩
        exact ⟨.inr (.inr (.inr ⟨by simp, hheap, by omega⟩)), hP⟩
      · rintro ⟨hne | h0 | hfull | ⟨hnm, hheap, hfew⟩, hP⟩
        · exact absurd rfl hne
        · omega
        · exact absurd hfull hslot
        · obtain ⟨c, rfl⟩ := Option.ne_none_iff_exists'.mp hnm
          exact ⟨c, rfl, hheap, by omega, hP⟩

theorem createIn_false_iff (hr : Rep s v) (ho : s.OpenOn fs.freeMapFile 0) :
    Wp (createIn fs nm T f size ty) (fun b s' => b = false ∧ P s'.disk) s ↔
      v.RefusesIn nm T size ∧ P s.disk := by
  cases hsearch : searchFor v.names nm T.table with
  | none =>
    rw [createIn, wp_then, wp_find_any, hr.names]
    simp [Volume.RefusesIn, hsearch]
  | some r =>
    simp only [Volume.RefusesIn, hsearch, Option.some.injEq, exists_eq_left']
    by_cases hsec : slotSector T.table r = -1
    · obtain ⟨s₁, hr₁, -, hd₁, hwp₁⟩ := hr.createIn_reads ho hsearch hsec
      rw [hwp₁, createWith_false_iff hr₁ hsearch, hd₁]
    · have hne : r ≠ none := by
        rintro rfl
        exact hsec rfl
      rw [createIn, wp_then, wp_find_any, hr.names]
      simp only [hsearch, Option.some.injEq, exists_eq_left', ne_eq, hsec, not_false_eq_true,
        if_true, wp_pure, true_and, hne, true_or]

theorem not_wp_createIn_null (hr : Rep s v) (ho : s.OpenOn fs.freeMapFile 0)
    (hclear : v.map.numClear ≠ 0) (hslot : ¬ ∀ e ∈ T.table, e.inUse = true)
    {Q : Bool → Kernel → Prop} : ¬ Wp (createIn fs none T f size ty) Q s := by
  have hnull (names : List CString) : searchFor names none T.table = some none := rfl
  obtain ⟨s₁, hr₁, -, -, hwp₁⟩ := hr.createIn_reads ho (hnull v.names) rfl
  rw [hwp₁]
  unfold createWith
  cases hfree : v.map.free with
  | nil => exact absurd (by rw [BitMap.numClear_eq, hfree, List.length_nil]) hclear
  | cons x rest =>
    have hx : ¬ (x : Int) = -1 := by omega
    obtain ⟨T', hwp⟩ := wp_add_free (x : Int) (hnull s₁.names) hslot
    simp only [BitMap.find_of_free_cons hfree, hx, if_false, wp_then, hwp]
    rintro ⟨c, hc, -⟩
    cases hc

end createIn

/-! ## Remove behind getFileName -/

def FileSystem.removeIn (fs : FileSystem) (remove : CString → Prog Bool) (Name : CString)
    (name : Option CString) (directory : Directory) (openFile : Handle) : Prog Bool := do
  let sector ← directory.find name
  if sector = -1 then return false
  else
    let fileHdr ← FileHeader.fetchFrom sector
    if fileHdr.fileType = 0 then
      let refused : Bool := fileHdr.numVisits ≠ 1
      let fileHdr := { fileHdr with numVisits := fileHdr.numVisits - 1 }
      fileHdr.writeBack sector
      if refused then return false
      else
        release fs fileHdr sector name directory openFile
        return true
    else
      let dirFile ← OpenFile.new sector
      let dir ← Directory.new 10
      let dir ← dir.fetchFrom dirFile
      forM dir.table (removeChild remove Name)
      release fs fileHdr sector name directory openFile
      return true

theorem remove_eq (fs : FileSystem) (name : CString) :
    remove fs name =
      getFileName name >>= fun r => removeIn fs (removeFuel fs 100) name r.1 r.2.1 r.2.2 := rfl

theorem exists_of_wp_readSector {y : Int} {Q : Sector → Kernel → Prop}
    (h : Wp (readSector y) Q s) : ∃ x < 1024, y = (x : Nat) ∧ Q (s.disk x) s := by
  by_cases hy : 0 ≤ y ∧ y < 1024
  · obtain ⟨x, rfl⟩ := Int.eq_ofNat_of_zero_le hy.1
    have hx : x < 1024 := by omega
    exact ⟨x, hx, rfl, (wp_readSector hx).mp h⟩
  · exact absurd h (not_wp_of_fault (by simp only [Kernel.exec, if_neg hy]))

theorem Restamped.congr {H : Nat → Prop} {d d' : Nat → Sector} (h : Restamped H d d') (x : Nat)
    {g : FileHeader → Word} (hg : ∀ hdr now, g { hdr with lastVisitTime := now } = g hdr) :
    g (hdrAt d' x) = g (hdrAt d x) := by
  rcases h x with he | ⟨-, now, he⟩
  · rw [hdrAt, he]
    rfl
  · rw [he, hg]

theorem Restamped.numVisits {H : Nat → Prop} {d d' : Nat → Sector} (h : Restamped H d d')
    (x : Nat) : (hdrAt d' x).numVisits = (hdrAt d x).numVisits :=
  h.congr x fun _ _ => rfl

theorem Restamped.createTime {H : Nat → Prop} {d d' : Nat → Sector} (h : Restamped H d d')
    (x : Nat) : (hdrAt d' x).createTime = (hdrAt d x).createTime :=
  h.congr x fun _ _ => rfl

section removeIn
variable {fs : FileSystem} {nm : Option CString} {T : Directory} {Name : CString}
  {remove : CString → Prog Bool} {H : Nat → Prop} {d₀ : Nat → Sector}

theorem not_wp_removeFound {y : Int} (hs : Restamped H d₀ s.disk) :
    ¬ Wp (do
      let fileHdr ← FileHeader.fetchFrom y
      if fileHdr.fileType = 0 then
        let refused : Bool := fileHdr.numVisits ≠ 1
        let fileHdr := { fileHdr with numVisits := fileHdr.numVisits - 1 }
        fileHdr.writeBack y
        if refused then return false
        else
          release fs fileHdr y nm T f
          return true
      else
        let dirFile ← OpenFile.new y
        let dir ← Directory.new 10
        let dir ← dir.fetchFrom dirFile
        forM dir.table (removeChild remove Name)
        release fs fileHdr y nm T f
        return true) (fun b s' => b = false ∧ Restamped H d₀ s'.disk) s := by
  intro h
  rw [wp_then, FileHeader.fetchFrom, wp_then] at h
  obtain ⟨x, hx, rfl, h⟩ := exists_of_wp_readSector h
  rw [wp_pure] at h
  split at h
  · rw [wp_then, FileHeader.writeBack, wp_writeSector hx] at h
    split at h
    · rw [wp_pure] at h
      have hvisits := (h.2.numVisits x).trans (hs.numVisits x).symm
      simp only [hdrAt, Kernel.setDisk, Function.update_self, FileHeader.ofSector_toSector]
        at hvisits
      bv_omega
    · simp only [wp_then, wp_pure, Bool.true_eq_false, false_and, not_wp_false] at h
  · simp only [wp_then, wp_pure, Bool.true_eq_false, false_and, not_wp_false] at h

theorem removeIn_discards_iff (hs : Restamped H d₀ s.disk) :
    Wp (removeIn fs remove Name nm T f) (fun b s' => b = false ∧ Restamped H d₀ s'.disk) s ↔
      ∃ r, searchFor s.names nm T.table = some r ∧ slotSector T.table r = -1 := by
  rw [removeIn, wp_then, wp_find_any]
  refine exists_congr fun r => and_congr_right fun _ => ?_
  by_cases hsec : slotSector T.table r = -1
  · rw [if_pos hsec, wp_pure]
    exact iff_of_true ⟨rfl, hs⟩ hsec
  · rw [if_neg hsec]
    exact iff_of_false (not_wp_removeFound hs) hsec

end removeIn

/-! ## Paths without a directory -/

inductive PathCall
  | create (initialSize fileType : Int)
  | remove
  | open

/-- The call fails with FALSE or NULL, and at most visit times of headers change on the disk. -/
def FailsCleanly (fs : FileSystem) (v : Volume) (name : CString) (s : Kernel) : PathCall → Prop
  | .create size ty => Wp (create fs name size ty)
      (fun b s' => b = false ∧ Restamped v.Header s.disk s'.disk) s
  | .remove => Wp (FileSystem.remove fs name)
      (fun b s' => b = false ∧ Restamped v.Header s.disk s'.disk) s
  | .open => Wp (openPointer name)
      (fun r s' => r = none ∧ Restamped v.Header s.disk s'.disk) s

/-- When a call fails with the name `nm` and the table `T`. `Open` never does. -/
def Volume.Refuses (v : Volume) (nm : Option CString) (T : Directory) : PathCall → Prop
  | .create size _ => v.RefusesIn nm T size
  | .remove => ∃ r, searchFor v.names nm T.table = some r ∧ slotSector T.table r = -1
  | .open => False

section calls
variable {fs : FileSystem} {nm : Option CString} {T : Directory}

/-- On a path with a known answer of `getFileName`, a call fails cleanly just if it refuses. -/
theorem Rep.failsCleanly_iff (hr : Rep s v) (ho : s.OpenOn fs.freeMapFile 0)
    (h : v.Answers name nm T) (call : PathCall) :
    FailsCleanly fs v name s call ↔ v.Refuses nm T call := by
  obtain ⟨s₁, f, hr₁, hst₁, hs₁, hwp⟩ := hr.getFileName_answers h
  cases call with
  | create size ty =>
    rw [FailsCleanly, create_eq, wp_then, hwp,
      createIn_false_iff (P := Restamped v.Header s.disk) hr₁ (hst₁.openOn ho), and_iff_left hs₁]
    rfl
  | remove =>
    rw [FailsCleanly, remove_eq, wp_then, hwp, removeIn_discards_iff hs₁, hr₁.names]
    rfl
  | «open» => exact iff_of_false (fun h => not_wp_openPointer_null (h.mono fun _ _ h => h.1)) id

theorem Rep.answers_of_failsCleanly (hr : Rep s v) {call : PathCall}
    (h : FailsCleanly fs v name s call) :
    (∃ nm T, v.Answers name nm T) ∨ v.EscapesOn (dirComps (components name)) := by
  cases call with
  | create size ty =>
    rw [FailsCleanly, create_eq, wp_then] at h
    exact hr.answers_or_escapes h
  | remove =>
    rw [FailsCleanly, remove_eq, wp_then] at h
    exact hr.answers_or_escapes h
  | «open» => exact absurd (h.mono fun _ _ h => h.1) not_wp_openPointer_null

end calls

/-- A call fails cleanly if the name and the table that `getFileName` answers make it refuse. It
fails cleanly on no other path, except maybe one whose lookups come to a sector that is not a
header. On a path that does not lead to a directory, every call should fail cleanly. -/
theorem badPath_failsCleanly {fs : FileSystem} (hr : Rep s v) (ho : s.OpenOn fs.freeMapFile 0)
    (name : CString) (call : PathCall) :
    ((∃ nm T, v.Answers name nm T ∧ v.Refuses nm T call) → FailsCleanly fs v name s call) ∧
    (FailsCleanly fs v name s call → (∃ nm T, v.Answers name nm T ∧ v.Refuses nm T call) ∨
      v.EscapesOn (dirComps (components name))) := by
  constructor
  · rintro ⟨nm, T, hans, href⟩
    exact (hr.failsCleanly_iff ho hans call).mpr href
  · intro h
    rcases hr.answers_of_failsCleanly h with ⟨nm, T, hans⟩ | he
    · exact .inl ⟨nm, T, hans, (hr.failsCleanly_iff ho hans call).mp h⟩
    · exact .inr he

theorem wp_format_empty : Wp format (fun fs s => ∃ v d, Rep s v ∧ s.OpenOn fs.freeMapFile 0 ∧
    v.MissesAt [] (dirComps (components ['r', '/', 'x', '/', 'y'])) [] d ∧ v.names = [] ∧
    v.map.numClear = 1018 ∧ ¬ ∀ e ∈ entriesOf d.content, e.inUse = true) Kernel.zeroed := by
  refine wp_format Kernel.quiet_zeroed fun fs s v hr hst _ hnode hfree ho _ => ?_
  obtain ⟨d, hd, -, ht⟩ := v.root
  have hcomps : components ['r', '/', 'x', '/', 'y'] = [['r'], ['x'], ['y']] := by decide
  have hchild : v.child [] ['x'] = none := by
    cases hc : v.child [] ['x'] with
    | none => rfl
    | some i =>
      obtain ⟨⟨n, hn⟩, -⟩ := Volume.child_eq_some.mp hc
      rw [hnode _ (by simp)] at hn
      cases hn
  refine ⟨v, d, hr, ho, ?_, hr.names.symm.trans hst.names, ?_, fun hfull => ?_⟩
  · rw [hcomps]
    exact ⟨[], ['x'], [], rfl, rfl, hd, ht, hchild⟩
  · rw [BitMap.numClear_eq, hfree, List.length_drop, List.length_range]
  · have hlen := Volume.length_entries hd ht
    have he : (entriesOf d.content)[0]? = some (entriesOf d.content)[0] :=
      List.getElem?_eq_getElem (by omega)
    have hdesc := v.entry [] d hd ht 0 _ he
    rw [hnode _ (by simp)] at hdesc
    have huse : (entriesOf d.content)[0].inUse = false := hdesc
    rw [hfull _ (List.getElem_mem _)] at huse
    cases huse

/-- `Remove` of a path with a missing directory fails as it should. -/
theorem badPath_failsCleanly_remove : ∃ fs s v, Rep s v ∧
    FailsCleanly fs v ['r', '/', 'x', '/', 'y'] s .remove := by
  obtain ⟨fs, s, -, v, d, hr, ho, hmiss, -⟩ := wp_format_empty
  exact ⟨fs, s, v, hr, (badPath_failsCleanly hr ho _ .remove).1
    ⟨none, _, .missing hmiss, none, rfl, rfl⟩⟩

/-- `Create` of the same path on a new disk does not return. -/
theorem create_missing_faults : ∃ fs s v, Rep s v ∧ s.OpenOn fs.freeMapFile 0 ∧
    (∀ d, ¬ v.LeadsTo (dirComps (components ['r', '/', 'x', '/', 'y'])) d) ∧
    ∀ Q, ¬ Wp (create fs ['r', '/', 'x', '/', 'y'] 0 0) Q s := by
  obtain ⟨fs, s, -, v, d, hr, ho, hmiss, -, hclear, hslot⟩ := wp_format_empty
  refine ⟨fs, s, v, hr, ho, fun d' => hmiss.not_leadsTo, fun Q => ?_⟩
  obtain ⟨s₁, f, hr₁, hst₁, -, hwp⟩ := hr.getFileName_answers (.missing hmiss)
  rw [create_eq, wp_then, hwp]
  exact not_wp_createIn_null hr₁ (hst₁.openOn ho) (by omega) hslot

end Nachos
