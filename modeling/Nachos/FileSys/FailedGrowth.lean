import Nachos.FileSys.FormatSpec

/-! A `WriteAt` whose growth `ExtendAllocate` refuses. -/

namespace Nachos
open Lib Program FileHeader FileSystem

variable {s : Kernel} {n mf : FileNode} {m : BitMap} {f : Handle} {src : List Byte}
  {position : Int}

/-- `ExtendAllocate` refuses to make room for `src` at `position`: the bytes end behind the last
sector of the file, and the map has fewer clear bits than the growth alone has sectors. -/
structure Refused (n : FileNode) (m : BitMap) (src : List Byte) (position : Int) : Prop where
  nonempty : 0 < src.length
  past : n.length < int32 (position + src.length)
  lacks : n.numSectors < divRoundUp (int32 (position + src.length)) 128
  few : (m.numClear : Int) < divRoundUp (int32 (src.length + position - n.length)) 128

theorem int32_add_int32 (a b : Int) : int32 (a + int32 b) = int32 (a + b) := by
  simp only [int32, BitVec.ofInt_add, BitVec.ofInt_toInt]

structure Leaves (s s' : Kernel) (f : Handle) (len : Int) : Prop where
  steady : Steady s s'
  disk : s'.disk = visited s.disk 0 (s.host (s.tick + 3) 0)
  length : (s'.files f).hdr.fileLength = len

theorem wp_writeAt_leaves (h : Placed s f n mf m) (hr : Refused n m src position) :
    Wp (OpenFile.writeAt f src position)
      (fun r s' => r = 0 ∧ Leaves s s' f (int32 (position + src.length))) s := by
  obtain ⟨s₁, hs₁, htick, -, hwp₁⟩ := writeAt_fetched h.quiet h.on.holds h.openOn src position
  have hk := hr.nonempty
  have h₁ : Placed s₁ f n mf m := ⟨hs₁.quiet h.quiet, hs₁.disk ▸ h.on, hs₁.openOn h.openOn,
    h.mapFile, hs₁.disk ▸ h.map, h.away⟩
  obtain ⟨s₂, hst₂, hd₂, hh₂, -, hon₂, -, hwp₂⟩ := extend_fetched h₁ (hs₁.disk ▸ hs₁.header)
    (int32 (src.length + position - n.length))
  have hbytes : (s₂.files f).hdr.numBytes.toInt = n.length := by rw [hh₂.numBytes, hon₂.length]
  have hnum : (s₂.files f).hdr.numSectors.toInt = n.numSectors := by
    rw [hh₂.numSectors, hon₂.numSectors]
  -- the header object counts the new bytes before the call is refused
  have hnew : int32 (n.length + int32 (src.length + position - n.length)) =
      int32 (position + src.length) := by
    rw [int32_add_int32]
    congr 1
    omega
  rw [hwp₁, if_neg (by omega), wp_then, OpenFile.makeRoom, if_pos hr.past, hwp₂,
    wp_extendAllocate_iff, hbytes, hnum, hnew, if_neg (by have := hr.lacks; omega), if_pos hr.few,
    if_neg Bool.false_ne_true, wp_pure, if_neg Bool.false_ne_true, wp_pure]
  refine ⟨rfl, (hs₁.toSteady.trans hst₂).trans (.setHdr ..), ?_, ?_⟩
  · change s₂.disk = _
    rw [hd₂, hs₁.disk, hs₁.host, htick]
  · rw [fileLength, Kernel.lengthen_hdr, hbytes]
    exact hnew

/-! ## What should not have changed -/

/-- The disk is as it was, `Length()` answers the same, and so does every later `ReadAt` on a file,
with a request inside the range of `int`. -/
structure NoChange (s s' : Kernel) (f : Handle) : Prop where
  disk : s'.disk = s.disk
  length : ∀ len, Wp (OpenFile.length f) (fun r _ => r = len) s →
    Wp (OpenFile.length f) (fun r _ => r = len) s'
  reads : ∀ (n : FileNode) (g : Handle), n.On s.disk → 0 ∉ n.index ++ n.data → s.OpenOn g n.hdr →
    ∀ (num : Int) (p : Nat), num + p < 2147483648 → ∀ bytes,
    Wp (OpenFile.readAt g num p) (fun r _ => r = bytes) s →
    Wp (OpenFile.readAt g num p) (fun r _ => r = bytes) s'

theorem visited_eq_iff {d : Nat → Sector} {h : Nat} {now : Word} :
    visited d h now = d ↔ (hdrAt d h).lastVisitTime = now := by
  constructor
  · intro he
    have hsec := congrFun he h
    rw [visited, Function.update_self] at hsec
    rw [hdrAt, ← hsec, ofSector_toSector]
  · rintro rfl
    have hself : hdrAt d h = ofSector (d h) := rfl
    rw [visited, hself, toSector_ofSector, Function.update_eq_self]

theorem wp_length {Q : Int → Kernel → Prop} :
    Wp (OpenFile.length f) Q s ↔ Q (s.files f).hdr.fileLength s := by
  simp only [OpenFile.length, getHdr, wp_then, wp_getFile, wp_pure]

/-- A later `ReadAt` fetches the header again, so it does not see what the call has left. -/
theorem Leaves.reads {s' : Kernel} {len : Int} (h : Leaves s s' f len) (hq : s.Quiet) {g : Handle}
    (hn : n.On s.disk) (h0 : 0 ∉ n.index ++ n.data) (ho : s.OpenOn g n.hdr) {num : Int} {p : Nat}
    (hp : num + p < 2147483648) {bytes : List Byte}
    (hr : Wp (OpenFile.readAt g num p) (fun r _ => r = bytes) s) :
    Wp (OpenFile.readAt g num p) (fun r _ => r = bytes) s' := by
  have hn' : n.On s'.disk := by
    rw [h.disk]
    exact hn.touched (touched_visited ..) h0
  obtain ⟨_, _, ⟨rfl, hb⟩, -⟩ := (hr.and (wp_readAt hq hn.holds ho hp
    (Q := fun r _ => r = (n.content.drop p).take num.toNat) fun _ _ => rfl)).exists_iff
  rw [hb]
  exact wp_readAt (h.steady.quiet hq) hn'.holds (h.steady.openOn ho) hp fun _ _ => rfl

/-- A refused growth changes nothing just if `Length()` was wrong before, by as much as the call
makes it, and the clock shows the time at which the free map's file was last visited. -/
theorem writeAt_refused_iff (h : Placed s f n mf m) (hr : Refused n m src position) :
    Wp (OpenFile.writeAt f src position) (fun r s' => r = 0 ∧ NoChange s s' f) s ↔
      (s.files f).hdr.fileLength = int32 (position + src.length) ∧
        (hdrAt s.disk 0).lastVisitTime = s.host (s.tick + 3) 0 := by
  obtain ⟨r, s', ⟨rfl, hl⟩, hwp⟩ := (wp_writeAt_leaves h hr).exists_iff
  rw [hwp, and_iff_right rfl]
  constructor
  · intro hn
    have hlen := wp_length.mp (hn.length _ (wp_length.mpr rfl))
    refine ⟨hlen.symm.trans hl.length, visited_eq_iff.mp (hl.disk.symm.trans hn.disk)⟩
  · rintro ⟨hlen, hnow⟩
    refine ⟨hl.disk.trans (visited_eq_iff.mpr hnow), fun len hw => ?_,
      fun x g hx h0 ho num p hp bytes hw => ?_⟩
    · rw [wp_length] at hw ⊢
      rw [hl.length, ← hlen, hw]
    · exact hl.reads h.quiet hx h0 ho hp hw

/-! ## On a new disk -/

structure OnMapFile (s : Kernel) (f : Handle) (mf : FileNode) (m : BitMap) (len : Int) : Prop where
  placed : Placed s f mf mf m
  host : s.host = Kernel.zeroed.host
  length : (s.files f).hdr.fileLength = len

def tooMuch : List Byte := List.replicate 131328 0

theorem MapFile.refused (h : MapFile mf m) : Refused mf m tooMuch 0 := by
  have hsrc : tooMuch.length = 131328 := List.length_replicate
  have hcount := mf.count
  have hle := mf.data_length_le
  have hclear : m.numClear ≤ 1024 := by
    refine List.countP_le_length.trans ?_
    rw [List.length_range, h.numBits]
  have hsum : divRoundUp (int32 (0 + (131328 : Nat))) 128 = 1026 := by decide
  have hfew : divRoundUp (int32 ((131328 : Nat) + 0 - 128)) 128 = 1025 := by decide
  refine ⟨?_, ?_, ?_, ?_⟩
  · rw [hsrc]
    decide
  · rw [hsrc, h.length]
    decide
  · rw [hsrc, hsum]
    omega
  · rw [hsrc, h.length, hfew]
    omega

def openMapFile : Prog Handle := do
  let fs ← format
  let _ ← OpenFile.readAt fs.freeMapFile 1 0
  return fs.freeMapFile

theorem wp_openMapFile :
    Wp openMapFile (fun f s => ∃ mf m, OnMapFile s f mf m 128) .zeroed := by
  simp only [openMapFile, wp_then, wp_pure]
  refine wp_format Kernel.quiet_zeroed fun fs s v hr hst _ _ _ ho _ => ?_
  have ho' : s.OpenOn fs.freeMapFile v.mapFile.hdr := v.isMap.hdr ▸ ho
  refine wp_readAt (p := 0) hr.quiet hr.map.holds ho' (by decide) fun s' hs => ?_
  refine ⟨v.mapFile, v.map, ⟨hs.quiet hr.quiet, hs.disk ▸ hr.map, hs.openOn ho', v.isMap,
    hs.disk ▸ hr.map, ?_⟩, hs.host.trans hst.host, ?_⟩
  · exact v.isMap.hdr ▸ v.mapFile.hdr_not_mem
  · rw [fileLength, hs.header.numBytes, hr.map.length, v.isMap.length]

theorem OnMapFile.leaves {f : Handle} {len : Int} (h : OnMapFile s f mf m len) :
    Wp (OpenFile.writeAt f tooMuch 0) (fun r s' => r = 0 ∧ OnMapFile s' f mf m 131328 ∧
      (hdrAt s'.disk 0).lastVisitTime = 0) s := by
  refine (wp_writeAt_leaves h.placed h.placed.mapFile.refused).mono ?_
  rintro r s' ⟨rfl, hl⟩
  have hon : mf.On s'.disk := by
    rw [hl.disk]
    exact h.placed.on.touched (touched_visited ..) h.placed.away
  refine ⟨rfl, ⟨⟨hl.steady.quiet h.placed.quiet, hon, hl.steady.openOn h.placed.openOn,
    h.placed.mapFile, hon, h.placed.away⟩, hl.steady.host.trans h.host, ?_⟩, ?_⟩
  · rw [hl.length, tooMuch, List.length_replicate]
    decide
  · rw [hl.disk, hdrAt, visited, Function.update_self, ofSector_toSector, h.host]
    rfl

/-- A write that is refused for the second time changes nothing any more. -/
theorem writeAt_refused_iff_again : ∃ s f mf m, OnMapFile s f mf m 131328 ∧
    Wp (OpenFile.writeAt f tooMuch 0) (fun r s' => r = 0 ∧ NoChange s s' f) s := by
  obtain ⟨f, s, ⟨mf, m, h⟩, -⟩ := wp_openMapFile.exists_iff
  obtain ⟨_, s', ⟨-, h', hstamp⟩, -⟩ := h.leaves.exists_iff
  refine ⟨s', f, mf, m, h', (writeAt_refused_iff h'.placed h'.placed.mapFile.refused).mpr ⟨?_, ?_⟩⟩
  · rw [h'.length, tooMuch, List.length_replicate]
    decide
  · rw [hstamp, h'.host]
    rfl

/-- The first time, `Length()` is 128 before and 131328 after. -/
theorem writeAt_refused_lengthens : Wp (do
    let f ← openMapFile
    let before ← OpenFile.length f
    let result ← OpenFile.writeAt f tooMuch 0
    return (before, result, ← OpenFile.length f)) (fun r _ => r = (128, 0, 131328)) .zeroed := by
  simp only [wp_then, wp_length, wp_pure]
  refine wp_openMapFile.mono ?_
  rintro f s ⟨mf, m, h⟩
  refine h.leaves.mono ?_
  rintro r s' ⟨rfl, h', -⟩
  rw [h.length, h'.length]

end Nachos
