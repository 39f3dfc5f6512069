import Nachos.FileSys.Allocation

/-! A file as a byte array: `ReadAt` and a `WriteAt` that stays inside the file, on any disk on
which the header maps the file's offsets to sectors. -/

namespace Nachos
open Lib Program FileHeader

variable {s : Kernel} {f : Handle} {h p : Nat} {index data : List Nat}

/-- The header in sector `h` maps the offsets of its file to the sectors `data`, through the tables
`index`; these and the header itself are different sectors of the disk. -/
structure MapsOffsets (d : Nat → Sector) (h : Nat) (index data : List Nat) : Prop where
  room : (hdrAt d h).fileLength ≤ 128 * data.length
  tables : index.length = tablesFor data.length
  lists : ∀ (i : Nat) t, index[i]? = some t → (hdrAt d h).entry i = some (.ofNat 32 t)
  leads : Leads d index data
  nodup : (h :: (index ++ data)).Nodup
  valid : ∀ x ∈ h :: (index ++ data), x < 1024

theorem MapsOffsets.direct {d : Nat → Sector} (hm : MapsOffsets d h index data) :
    index.length ≤ 25 := by
  by_contra hlong
  obtain ⟨t, ht⟩ : ∃ t, index[25]? = some t := ⟨_, List.getElem?_eq_getElem (by omega)⟩
  have he := hm.lists 25 t ht
  rw [entry, dif_neg (by decide)] at he
  cases he

/-- The file as the other proofs see it. What its header says about the number of sectors does not
matter here. -/
def MapsOffsets.node {d : Nat → Sector} (hm : MapsOffsets d h index data) : FileNode where
  hdr := h
  index := index
  data := data
  fileType := (hdrAt d h).fileType
  numVisits := (hdrAt d h).numVisits
  length := (hdrAt d h).fileLength
  numSectors := data.length
  content := (blocks d data).take (hdrAt d h).fileLength.toNat
  nodup := hm.nodup
  lt := hm.valid
  tables := hm.tables
  direct := hm.direct
  count := (Int.toNat_natCast _).symm
  room := hm.room
  size := by
    have := hm.room
    rw [List.length_take, length_blocks]
    omega

theorem MapsOffsets.holds {d : Nat → Sector} (hm : MapsOffsets d h index data) :
    hm.node.Holds d :=
  ⟨rfl, hm.lists, hm.leads, rfl⟩

/-- `ReadAt` on the file with header `h` reads ranges of `bytes`, through any object that is open on
it. -/
def ReadsAs (s : Kernel) (h : Nat) (bytes : List Byte) : Prop :=
  ∀ g, s.OpenOn g h → ∀ (num : Int) (q : Nat), num + q < 2147483648 →
    Wp (OpenFile.readAt g num q) (fun r _ => r = (bytes.drop q).take num.toNat) s

/-- Writing inside a file replaces the bytes that are written, and nothing else. -/
theorem writeAt_byteArray (src : List Byte) (hq : s.Quiet) (ho : s.OpenOn f h)
    (hm : MapsOffsets s.disk h index data) (hk : 0 < src.length)
    (hp : (p + src.length : Nat) ≤ (hdrAt s.disk h).fileLength) :
    ∃ old : List Byte, (old.length : Int) = (hdrAt s.disk h).fileLength ∧ ReadsAs s h old ∧
      Wp (OpenFile.writeAt f src p) (fun r s' => r = src.length ∧ ReadsAs s' h (splice old p src) ∧
        ∀ x ∉ data, s'.disk x = s.disk x) s := by
  have hsize := hm.node.size
  have hlen : hm.node.length = (hdrAt s.disk h).fileLength := rfl
  have hp' : (p : Int) + src.length ≤ hm.node.length := by
    rw [hlen]
    omega
  refine ⟨hm.node.content, by omega, fun g hg num q hnum => ?_, ?_⟩
  · exact wp_readAt hq hm.holds hg hnum fun _ _ => rfl
  · refine wp_writeAt_stores hq hm.holds ho hk hp' fun buf s₁ hs₁ hbuf => ⟨rfl, ?_, fun x hx => ?_⟩
    · intro g hg num q hnum
      refine wp_readAt ?_ (hbuf.holds hm.holds hk hp') hg hnum fun _ _ => rfl
      exact (hs₁.toSteady.trans (.disk ..)).quiet hq
    · exact writeBlocks_of_not_mem fun hmem => hx (mem_data_of_mem_under hmem)

/-! ## A file of four bytes -/

def tinyHdr : FileHeader :=
  { blankHdr with numBytes := 4, numSectors := 1, primaryIndexTable := fun _ => 1 }

/-- A disk with a file of four bytes. Its header is in sector 2, its index table in sector 1, and
its data in sector `x`. -/
def tinyDisk (x : Nat) : Nat → Sector :=
  Function.update (Function.update Kernel.zeroed.disk 1 (.ofWords fun _ => .ofNat 32 x)) 2
    tinyHdr.toSector

def tiny (x : Nat) : Kernel :=
  { Kernel.zeroed with
    disk := tinyDisk x
    files := fun _ => { hdr := tinyHdr, hdrSectorNumber := 2, seekPosition := 0 }
    nextFile := 1 }

theorem records_tiny (x : Nat) : (hdrAt (tinyDisk x) 2).Records (tinyDisk x) [1] [x] := by
  have hh : hdrAt (tinyDisk x) 2 = tinyHdr := by
    rw [hdrAt, tinyDisk, Function.update_self, ofSector_toSector]
  refine ⟨?_, ?_, fun i t ht => ?_, fun j y hy => ?_⟩
  · rw [hh]
    rfl
  · rw [List.length_singleton, List.length_singleton]
    decide
  · obtain ⟨hi, rfl⟩ := List.getElem?_eq_some_iff.mp ht
    obtain rfl : i = 0 := by simpa using hi
    rw [hh]
    rfl
  · obtain ⟨hj, rfl⟩ := List.getElem?_eq_some_iff.mp hy
    obtain rfl : j = 0 := by simpa using hj
    refine ⟨1, rfl, ?_⟩
    rw [tinyDisk, Function.update_of_ne (by decide), Function.update_self,
      Sector.word_ofWords (by decide)]
    rfl

theorem mapsOffsets_tiny : MapsOffsets (tiny 3).disk 2 [1] [3] := by
  have hr := records_tiny 3
  have hlen : (hdrAt (tinyDisk 3) 2).fileLength = 4 := by
    rw [hdrAt, tinyDisk, Function.update_self, ofSector_toSector]
    rfl
  refine ⟨?_, hr.tables, hr.lists, hr.leads, by decide, by decide⟩
  exact hlen.trans_le (by decide)

theorem writeAt_byteArray_tiny : ∃ old : List Byte, ReadsAs (tiny 3) 2 old ∧
    Wp (OpenFile.writeAt 0 [7, 8] (1 : Nat)) (fun r s' => r = 2 ∧
      ReadsAs s' 2 (splice old 1 [7, 8])) (tiny 3) := by
  obtain ⟨old, -, hold, hw⟩ := writeAt_byteArray (s := tiny 3) (f := 0) (p := 1) [7, 8]
    ⟨fun _ _ => rfl, rfl⟩ ⟨by decide, rfl⟩ mapsOffsets_tiny (by decide) (by decide +kernel)
  exact ⟨old, hold, hw.mono fun r s' h => ⟨h.1, h.2.1⟩⟩

/-- If the data is in the sector of the index table, writing it changes what the table lists, and
the next `ReadAt` reads from there: here, from the header. -/
theorem writeAt_tangled : (hdrAt (tiny 1).disk 2).Records (tiny 1).disk [1] [1] ∧
    Wp (do
      let result ← OpenFile.writeAt 0 [2, 0, 0, 0] 0
      return (result, ← OpenFile.readAt 0 4 0)) (fun r _ => r = (4, [0, 0, 0, 0])) (tiny 1) :=
  ⟨records_tiny 1, wp_of_value (by decide +kernel)⟩

end Nachos
