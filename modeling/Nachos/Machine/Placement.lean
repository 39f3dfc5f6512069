import Nachos.Machine.Loader
import Mathlib.Data.List.GetD

/-! Where the loader puts the segments of an executable. It copies code and initialised data one
after the other to the start of the backing file and never looks at their virtual addresses, while
a page fault reads page `vpn` at offset `vpn * PageSize`. -/

namespace Nachos
open Lib

namespace Segment
variable {s : Segment} {executable : BackingFile}

def InFile (s : Segment) (executable : BackingFile) : Prop :=
  0 < s.size → 0 ≤ s.inFileAddr ∧ s.inFileAddr + s.size ≤ executable.length

def bytes (s : Segment) (executable : BackingFile) : List Byte :=
  (List.range s.size.toNat).map fun (j : Nat) => executable.byte (s.inFileAddr + j)

@[simp] theorem length_bytes : (s.bytes executable).length = s.size.toNat := by
  simp [bytes]

theorem getElem?_bytes {j : Nat} (hj : j < s.size.toNat) :
    (s.bytes executable)[j]? = some (executable.byte (s.inFileAddr + j)) := by
  rw [bytes, List.getElem?_map, List.getElem?_range hj]
  rfl

/-- The bytes of the segment are in the file at its virtual address. -/
def Placed (s : Segment) (executable f : BackingFile) : Prop :=
  ∀ j : Nat, j < s.size.toNat → 0 ≤ s.virtualAddr + j ∧ s.virtualAddr + j < f.length ∧
    f.byte (s.virtualAddr + j) = executable.byte (s.inFileAddr + j)

end Segment

namespace BackingFile
variable {f executable : BackingFile} {s : Segment} {image pre post : List Byte}

theorem writeAt_nil {p : Nat} (hp : p ≤ f.length) : f.writeAt [] p = f := by
  have hbyte : overwrite f.byte p [] = f.byte := by
    funext q
    exact overwrite_of_not le_rfl (by simp)
  rw [writeAt, if_pos (by omega), hbyte]
  simp [hp]

theorem writeAt_append (bs bs' : List Byte) (p : Nat) :
    (f.writeAt bs p).writeAt bs' (p + bs.length) = f.writeAt (bs ++ bs') p := by
  simp only [writeAt]
  rw [if_pos (by omega), if_pos (by omega), if_pos (by omega)]
  congr 1
  · simp only [List.length_append]
    omega
  · funext q
    simp only [overwrite, List.length_append]
    -- before, in the first part, in the second part, behind
    by_cases h₁ : q < p
    · rw [if_neg (by omega), if_neg (by omega), if_neg (by omega)]
    · by_cases h₂ : q < p + bs.length
      · rw [if_neg (by omega), if_pos (by omega), if_pos (by omega),
          List.getD_append _ _ _ _ (by omega)]
      · have hi : (q - p).toNat - bs.length = (q - (p + bs.length)).toNat := by omega
        by_cases h₃ : q < p + bs.length + bs'.length
        · rw [if_pos (by omega), if_pos (by omega), List.getD_append_right _ _ _ _ (by omega), hi]
        · rw [if_neg (by omega), if_neg (by omega), if_neg (by omega)]

theorem readAt_one {p : Int} (h₀ : 0 ≤ p) (h : p < f.length) : f.readAt 1 p = [f.byte p] := by
  have hone : min 1 (f.length - p.toNat) = 1 := by omega
  rw [readAt, if_pos h₀, hone]
  simp

theorem byte_writeAt_zero {i : Nat} (hi : i < image.length) :
    (f.writeAt image 0).byte i = image.getD i 0 := by
  rw [writeAt, if_pos le_rfl]
  simp only [overwrite]
  rw [if_pos (by omega)]
  simp

theorem placed_of_image (himage : image = pre ++ s.bytes executable ++ post)
    (haddr : s.virtualAddr = pre.length) : s.Placed executable (f.writeAt image 0) := by
  intro j hj
  have hlen : pre.length + j < image.length := by
    rw [himage]
    simp only [List.length_append, Segment.length_bytes]
    omega
  have hget : image.getD (pre.length + j) 0 = executable.byte (s.inFileAddr + j) := by
    rw [himage, List.append_assoc, List.getD_append_right _ _ _ _ (by omega),
      List.getD_append _ _ _ _ (by simpa using hj), Nat.add_sub_cancel_left,
      List.getD_eq_getElem?_getD, Segment.getElem?_bytes hj]
    rfl
  have hfile : (f.writeAt image 0).length = max f.length image.length := by
    rw [writeAt, if_pos le_rfl]
    simp
  rw [haddr, ← Nat.cast_add, byte_writeAt_zero hlen, hget]
  exact ⟨by omega, by omega, rfl⟩

theorem image_of_placed (hf : f.length = 0) (hs : 0 < s.size)
    (h : s.Placed executable (f.writeAt image 0)) :
    ∃ pre post, image = pre ++ s.bytes executable ++ post ∧ s.virtualAddr = pre.length := by
  have hlen : (f.writeAt image 0).length = image.length := by
    rw [writeAt, if_pos le_rfl]
    simp [hf]
  obtain ⟨h₀, -, -⟩ := h 0 (by omega)
  obtain ⟨p, hp⟩ := Int.eq_ofNat_of_zero_le (show 0 ≤ s.virtualAddr by omega)
  obtain ⟨-, hlast, -⟩ := h (s.size.toNat - 1) (by omega)
  have hle : p + s.size.toNat ≤ image.length := by omega
  have hmid : (image.drop p).take s.size.toNat = s.bytes executable := by
    apply List.ext_getElem?
    intro j
    by_cases hj : j < s.size.toNat
    · obtain ⟨-, -, hb⟩ := h j hj
      rw [hp, ← Nat.cast_add, byte_writeAt_zero (by omega), List.getD_eq_getElem?_getD,
        List.getElem?_eq_getElem (by omega)] at hb
      rw [List.getElem?_take_of_lt hj, List.getElem?_drop, Segment.getElem?_bytes hj,
        List.getElem?_eq_getElem (by omega)]
      exact congrArg some hb
    · rw [List.getElem?_eq_none, List.getElem?_eq_none]
      · simp only [Segment.length_bytes]
        omega
      · simp only [List.length_take, List.length_drop]
        omega
  refine ⟨image.take p, (image.drop p).drop s.size.toNat, ?_, ?_⟩
  · rw [← hmid, List.append_assoc, List.take_append_drop, List.take_append_drop]
  · rw [hp, List.length_take, Nat.min_eq_left (by omega)]

end BackingFile

namespace Memory
variable {m m' : Memory} {stack : Int → Byte} {executable : BackingFile} {numPages : Word}
  {s : Segment}

theorem copySegment_disk (hin : s.InFile executable) {p : Nat} (hp : p ≤ m.disk.length) :
    (m.copySegment executable s p).disk = m.disk.writeAt (s.bytes executable) p := by
  have hloop : ∀ n ≤ s.size.toNat, ((List.range n).foldl
      (fun m (j : Nat) => m.copyByte executable (s.inFileAddr + j) (p + j)) m).disk =
      m.disk.writeAt ((List.range n).map fun (j : Nat) => executable.byte (s.inFileAddr + j)) p := by
    intro n hn
    induction n with
    | zero => exact (BackingFile.writeAt_nil hp).symm
    | succ n ih =>
      obtain ⟨h₀, hend⟩ := hin (by omega)
      have hread : executable.readAt 1 (s.inFileAddr + n) =
          [executable.byte (s.inFileAddr + n)] :=
        BackingFile.readAt_one (by omega) (by omega)
      rw [List.range_succ, List.foldl_append, List.map_append, ← BackingFile.writeAt_append,
        ← ih (by omega)]
      simp only [List.foldl_cons, List.foldl_nil, copyByte, hread, List.length_map,
        List.length_range, List.map_cons, List.map_nil]
      rfl
  exact hloop _ le_rfl

theorem addrSpace_disk (hcode : (noffHeader stack executable).code.InFile executable)
    (hdata : (noffHeader stack executable).initData.InFile executable)
    (h : m.addrSpace stack executable = some (numPages, m')) :
    m'.disk = m.disk.writeAt ((noffHeader stack executable).code.bytes executable ++
      (noffHeader stack executable).initData.bytes executable) 0 := by
  have hfirst := copySegment_disk (m := m) hcode (Nat.zero_le m.disk.length)
  have hle : (noffHeader stack executable).code.size.toNat ≤
      (m.copySegment executable (noffHeader stack executable).code 0).disk.length := by
    rw [show (0 : Int) = (0 : Nat) from rfl, hfirst, BackingFile.writeAt, if_pos (by omega)]
    simp
  have hsecond := copySegment_disk hdata hle
  rw [addrSpace] at h
  simp only at h
  split at h
  · cases h
    rw [hsecond, show (0 : Int) = (0 : Nat) from rfl, hfirst, ← BackingFile.writeAt_append]
    simp
  · cases h

end Memory

namespace NoffHeader

/-- An executable that the loader accepts, with its segments in the file, and with code and
initialised data at different addresses. -/
structure WellFormed (noffH : NoffHeader) (executable : BackingFile) : Prop where
  noffMagic : noffH.noffMagic = 0xbadfad
  code : noffH.code.InFile executable
  initData : noffH.initData.InFile executable
  disjoint : ∀ p : Nat, ¬ (noffH.code.Has p ∧ noffH.initData.Has p)

/-- The code is at address 0 and the initialised data right behind it. -/
def InOrder (noffH : NoffHeader) : Prop :=
  (0 < noffH.code.size → noffH.code.virtualAddr = 0) ∧
    (0 < noffH.initData.size → noffH.initData.virtualAddr = noffH.code.size.toNat)

/-- The initialised data is at address 0 and the code right behind it, and their bytes are the same
in either order. -/
def Swapped (noffH : NoffHeader) (executable : BackingFile) : Prop :=
  0 < noffH.code.size ∧ 0 < noffH.initData.size ∧ noffH.initData.virtualAddr = 0 ∧
    noffH.code.virtualAddr = noffH.initData.size ∧
    noffH.code.bytes executable ++ noffH.initData.bytes executable =
      noffH.initData.bytes executable ++ noffH.code.bytes executable

end NoffHeader

namespace NoffHeader
variable {noffH : NoffHeader} {executable f : BackingFile}

theorem placed_of_inOrder (h : noffH.InOrder) :
    noffH.code.Placed executable
        (f.writeAt (noffH.code.bytes executable ++ noffH.initData.bytes executable) 0) ∧
      noffH.initData.Placed executable
        (f.writeAt (noffH.code.bytes executable ++ noffH.initData.bytes executable) 0) := by
  obtain ⟨hcode, hdata⟩ := h
  constructor
  · intro j hj
    exact BackingFile.placed_of_image (show _ = [] ++ _ ++ _ from rfl) (hcode (by omega)) j hj
  · intro j hj
    exact BackingFile.placed_of_image (List.append_nil _).symm
      (by rw [hdata (by omega), Segment.length_bytes]) j hj

theorem placed_of_swapped (h : noffH.Swapped executable) :
    noffH.code.Placed executable
        (f.writeAt (noffH.code.bytes executable ++ noffH.initData.bytes executable) 0) ∧
      noffH.initData.Placed executable
        (f.writeAt (noffH.code.bytes executable ++ noffH.initData.bytes executable) 0) := by
  obtain ⟨hc, hd, hdata, hcode, hswap⟩ := h
  rw [hswap]
  constructor
  · apply BackingFile.placed_of_image (List.append_nil _).symm
    rw [hcode, Segment.length_bytes]
    omega
  · exact BackingFile.placed_of_image (show _ = [] ++ _ ++ _ from rfl) hdata

theorem packed_of_placed (hf : f.length = 0)
    (hdisjoint : ∀ p : Nat, ¬ (noffH.code.Has p ∧ noffH.initData.Has p))
    (hcode : noffH.code.Placed executable
      (f.writeAt (noffH.code.bytes executable ++ noffH.initData.bytes executable) 0))
    (hdata : noffH.initData.Placed executable
      (f.writeAt (noffH.code.bytes executable ++ noffH.initData.bytes executable) 0)) :
    noffH.InOrder ∨ noffH.Swapped executable := by
  by_cases hc : 0 < noffH.code.size
  · obtain ⟨pre, post, himage, hpre⟩ := BackingFile.image_of_placed hf hc hcode
    have hlen := congrArg List.length himage
    simp only [List.length_append, Segment.length_bytes] at hlen
    by_cases hd : 0 < noffH.initData.size
    · obtain ⟨pre', post', himage', hpre'⟩ := BackingFile.image_of_placed hf hd hdata
      have hlen' := congrArg List.length himage'
      simp only [List.length_append, Segment.length_bytes] at hlen'
      -- the segment that starts later does not start in the other one
      have hl := hdisjoint pre.length
      have hl' := hdisjoint pre'.length
      simp only [Segment.Has, hpre, hpre'] at hl hl'
      by_cases hfirst : pre.length ≤ pre'.length
      · exact .inl ⟨fun _ => by omega, fun _ => by omega⟩
      · have hnil : pre' = [] := List.length_eq_zero_iff.mp (by omega)
        have hnil' : post = [] := List.length_eq_zero_iff.mp (by omega)
        have hends := himage'.symm.trans himage
        rw [hnil, hnil', List.nil_append, List.append_nil] at hends
        obtain ⟨hdpre, -⟩ := List.append_inj hends (by rw [Segment.length_bytes]; omega)
        refine .inr ⟨hc, hd, by omega, by omega, ?_⟩
        rw [himage, hnil', List.append_nil, hdpre]
    · exact .inl ⟨fun _ => by omega, fun hd' => absurd hd' hd⟩
  · refine .inl ⟨fun hc' => absurd hc' hc, fun hd => ?_⟩
    obtain ⟨pre, post, himage, hpre⟩ := BackingFile.image_of_placed hf hd hdata
    have hlen := congrArg List.length himage
    simp only [List.length_append, Segment.length_bytes] at hlen
    omega

end NoffHeader

theorem exists_addrSpace {stack : Int → Byte} {executable : BackingFile}
    (h : (noffHeader stack executable).noffMagic = 0xbadfad) (m : Memory) :
    ∃ numPages m', m.addrSpace stack executable = some (numPages, m') := by
  rw [Memory.addrSpace]
  simp only [h, if_true]
  exact ⟨_, _, rfl⟩

/-- Loading puts both segments at their virtual addresses, whatever the machine held before,
exactly when the segments are packed from address 0 on in the order in which they are copied (or in
the other order, if their bytes do not tell). -/
theorem segments_placed_iff (stack : Int → Byte) (executable : BackingFile)
    (h : (noffHeader stack executable).WellFormed executable) :
    (∀ m numPages m', Memory.addrSpace m stack executable = some (numPages, m') →
      (noffHeader stack executable).code.Placed executable m'.disk ∧
        (noffHeader stack executable).initData.Placed executable m'.disk) ↔
    (noffHeader stack executable).InOrder ∨ (noffHeader stack executable).Swapped executable := by
  constructor
  · intro hall
    obtain ⟨numPages, m', hload⟩ := exists_addrSpace h.noffMagic .zero
    obtain ⟨hcode, hdata⟩ := hall _ _ _ hload
    rw [Memory.addrSpace_disk h.code h.initData hload] at hcode hdata
    exact NoffHeader.packed_of_placed rfl h.disjoint hcode hdata
  · intro hpacked m numPages m' hload
    rw [Memory.addrSpace_disk h.code h.initData hload]
    rcases hpacked with hin | hswap
    · exact NoffHeader.placed_of_inOrder hin
    · exact NoffHeader.placed_of_swapped hswap

theorem NoffHeader.wellFormed_of_after {noffH : NoffHeader} {executable : BackingFile}
    (hmagic : noffH.noffMagic = 0xbadfad)
    (hcode : 0 ≤ noffH.code.inFileAddr ∧
      noffH.code.inFileAddr + noffH.code.size ≤ executable.length)
    (hdata : 0 ≤ noffH.initData.inFileAddr ∧
      noffH.initData.inFileAddr + noffH.initData.size ≤ executable.length)
    (hafter : noffH.code.virtualAddr + noffH.code.size ≤ noffH.initData.virtualAddr) :
    noffH.WellFormed executable where
  noffMagic := hmagic
  code _ := hcode
  initData _ := hdata
  disjoint p := by
    rintro ⟨⟨-, hp⟩, ⟨hp', -⟩⟩
    omega

def twoBytes (dataAddr : Byte) : BackingFile :=
  ⟨42, fun p =>
    if p = 0 then 0xad else if p = 1 then 0xdf else if p = 2 then 0xba
    else if p = 8 then 40 else if p = 12 then 1
    else if p = 16 then dataAddr else if p = 20 then 41 else if p = 24 then 1
    else if p = 40 then 7 else if p = 41 then 9 else 0⟩

/-- The data is right behind the code. -/
theorem segments_placed_packed :
    (noffHeader (fun _ => 0) (twoBytes 1)).WellFormed (twoBytes 1) ∧
    ∀ m numPages m', Memory.addrSpace m (fun _ => 0) (twoBytes 1) = some (numPages, m') →
      (noffHeader (fun _ => 0) (twoBytes 1)).code.Placed (twoBytes 1) m'.disk ∧
        (noffHeader (fun _ => 0) (twoBytes 1)).initData.Placed (twoBytes 1) m'.disk := by
  have h : (noffHeader (fun _ => 0) (twoBytes 1)).WellFormed (twoBytes 1) :=
    NoffHeader.wellFormed_of_after (by decide +kernel) (by decide +kernel) (by decide +kernel)
      (by decide +kernel)
  refine ⟨h, (segments_placed_iff _ _ h).mpr (.inl ⟨fun _ => ?_, fun _ => ?_⟩)⟩
  · decide +kernel
  · decide +kernel

/-- The data starts with the second page, but the file has two bytes. -/
theorem not_segments_placed_secondPage :
    (noffHeader (fun _ => 0) (twoBytes 128)).WellFormed (twoBytes 128) ∧
    ¬ ∀ m numPages m', Memory.addrSpace m (fun _ => 0) (twoBytes 128) = some (numPages, m') →
      (noffHeader (fun _ => 0) (twoBytes 128)).code.Placed (twoBytes 128) m'.disk ∧
        (noffHeader (fun _ => 0) (twoBytes 128)).initData.Placed (twoBytes 128) m'.disk := by
  have h : (noffHeader (fun _ => 0) (twoBytes 128)).WellFormed (twoBytes 128) :=
    NoffHeader.wellFormed_of_after (by decide +kernel) (by decide +kernel) (by decide +kernel)
      (by decide +kernel)
  refine ⟨h, fun hall => ?_⟩
  obtain ⟨numPages, m', hload⟩ := exists_addrSpace h.noffMagic .zero
  obtain ⟨-, hlt, -⟩ := (hall _ _ _ hload).2 0 (by decide +kernel)
  rw [Memory.addrSpace_disk h.code h.initData hload] at hlt
  revert hlt
  decide +kernel

end Nachos
