import Nachos.FileSys.FileSpec

/-! What `ReadAt`, a `WriteAt` inside the file, and opening a file do when one thread runs. -/

namespace Nachos
open Lib Program FileHeader

/-! ## Byte ranges -/

section range
variable {n : FileNode} {p k : Nat}

def blocksOf (p k : Nat) : List Nat := List.range' (p / 128) ((p + k - 1) / 128 + 1 - p / 128)

def FileNode.under (n : FileNode) (p k : Nat) : List Nat :=
  (n.data.drop (p / 128)).take ((p + k - 1) / 128 + 1 - p / 128)

theorem blocksAt_under (hk : 0 < k) (hp : p + k ≤ 128 * n.data.length) :
    BlocksAt n (blocksOf p k) (n.under p k) :=
  blocksAt_range (by omega)

theorem mem_data_of_mem_under {x : Nat} (h : x ∈ n.under p k) : x ∈ n.data :=
  List.mem_of_mem_drop (List.mem_of_mem_take h)

theorem under_nodup (n : FileNode) (p k : Nat) : (n.under p k).Nodup :=
  (n.data_nodup.sublist (List.drop_sublist ..)).sublist (List.take_sublist ..)

theorem divRoundDown_natCast (p : Nat) : divRoundDown p 128 = (p / 128 : Nat) := by
  rw [divRoundDown_of_nonneg 128 (Int.natCast_nonneg p)]; omega

theorem lastSector_eq (hk : 0 < k) (h : p + k ≤ 102400) :
    divRoundDown (int32 ((p : Int) + k - 1)) 128 = ((p + k - 1) / 128 : Nat) := by
  rw [int32_of_range (by omega) (by omega), divRoundDown_of_nonneg 128 (by omega)]; omega

theorem bufLength_eq (hk : 0 < k) (h : p + k ≤ 102400) :
    int32 ((1 + (((p + k - 1) / 128 : Nat) : Int) - ((p / 128 : Nat) : Int)) * 128) =
      (128 * ((p + k - 1) / 128 + 1 - p / 128) : Nat) := by
  rw [int32_of_range (by omega) (by omega)]; omega

theorem sectorRange_blocksOf (hk : 0 < k) :
    sectorRange (p / 128 : Nat) ((p + k - 1) / 128 : Nat) = (blocksOf p k).map fun j : Nat =>
      (j : Int) :=
  sectorRange_eq (by omega)

theorem firstPartial_eq (p : Nat) :
    (!((p : Int) == ((p / 128 : Nat) : Int) * 128)) = decide (p ≠ 128 * (p / 128)) := by
  rw [Bool.eq_iff_iff]
  simp only [Bool.not_eq_true', beq_eq_false_iff_ne, decide_eq_true_eq]
  omega

theorem lastPartial_eq (h : p + k ≤ 102400) :
    (!(int32 (p + k) == int32 ((((p + k - 1) / 128 : Nat) + 1) * 128)) &&
      (((p / 128 : Nat) : Int) != ((p + k - 1) / 128 : Nat) ||
        (p : Int) == ((p / 128 : Nat) : Int) * 128)) =
      decide (p + k ≠ 128 * ((p + k - 1) / 128 + 1) ∧
        (p / 128 ≠ (p + k - 1) / 128 ∨ p = 128 * (p / 128))) := by
  rw [int32_of_range (by omega) (by omega), int32_of_range (by omega) (by omega), Bool.eq_iff_iff]
  simp only [Bool.and_eq_true, Bool.or_eq_true, Bool.not_eq_true', beq_eq_false_iff_ne, bne_iff_ne,
    beq_iff_eq, decide_eq_true_eq]
  omega

theorem lastOffset_eq (hk : 0 < k) :
    ((((p + k - 1) / 128 : Nat) : Int) - ((p / 128 : Nat) : Int)) * 128 =
      (128 * ((p + k - 1) / 128 - p / 128) : Nat) := by
  omega

theorem copyInto_sector {buf src : List Byte}
    (h : p - 128 * (p / 128) + src.length ≤ buf.length) :
    copyInto buf ((p : Int) - ((p / 128 : Nat) : Int) * 128) src =
      some (splice buf (p - 128 * (p / 128)) src) := by
  rw [copyInto, if_pos (by omega), show ((p : Int) - ((p / 128 : Nat) : Int) * 128).toNat =
    p - 128 * (p / 128) by omega]

theorem length_blocks_under {d : Nat → Sector} (hk : 0 < k) (hp : p + k ≤ 128 * n.data.length) :
    (blocks d (n.under p k)).length = 128 * ((p + k - 1) / 128 + 1 - p / 128) := by
  rw [length_blocks, FileNode.under, List.length_take, List.length_drop]
  omega

theorem blocks_under {d : Nat → Sector} (hk : 0 < k) :
    ((blocks d (n.under p k)).drop (p - 128 * (p / 128))).take k =
      ((blocks d n.data).drop p).take k := by
  rw [FileNode.under, blocks_take, blocks_drop, List.drop_take, List.take_take, List.drop_drop]
  congr 1
  · omega
  · congr 1; omega

end range

/-! ## Filling the buffer of a write -/

section buffer

theorem take_splice_blocks {L buf src : List Byte} {len p a b : Nat} (ha : a = p / 128)
    (hb : b = (p + src.length - 1) / 128) (hk : 0 < src.length) (hp : p + src.length ≤ len)
    (hL : len ≤ L.length) (hd : 128 ∣ L.length) (hlen : buf.length = 128 * (b + 1 - a))
    (hfst : ∀ i, 128 * a ≤ i → i < p → buf[i - 128 * a]? = L[i]?)
    (hlst : ∀ i, p + src.length ≤ i → i < 128 * (b + 1) → i < len → buf[i - 128 * a]? = L[i]?) :
    (splice L (128 * a) (splice buf (p - 128 * a) src)).take len = splice (L.take len) p src := by
  have h1 : p - 128 * a + src.length ≤ buf.length := by omega
  have h2 : 128 * a + (splice buf (p - 128 * a) src).length ≤ L.length := by
    rw [length_splice h1]; omega
  have h3 : p + src.length ≤ (L.take len).length := by rw [List.length_take]; omega
  refine List.ext_getElem? fun i => ?_
  rw [List.getElem?_take, getElem?_splice h2, getElem?_splice h3, List.getElem?_take,
    length_splice h1]
  by_cases hi : i < len
  · simp only [hi, if_true]
    by_cases hr : p ≤ i ∧ i < p + src.length
    · rw [if_pos (by omega), if_pos hr, getElem?_splice h1, if_pos (by omega)]
      congr 1; omega
    · rw [if_neg hr]
      split
      · rw [getElem?_splice h1, if_neg (by omega)]
        rcases Nat.lt_or_ge i p with h | h
        · exact hfst i (by omega) h
        · exact hlst i (by omega) (by omega) hi
      · rfl
  · simp only [hi, if_false]
    rw [if_neg (by omega)]

theorem getElem?_splice_block (buf : List Byte) (off : Nat) {L : List Byte} {len j i : Nat}
    (hoff : off + 128 ≤ buf.length)
    (hi : 128 * j ≤ i) (hi' : i < 128 * j + 128) (hlen : i < len) (hL : len ≤ L.length) :
    (splice buf off (((L.take len).drop (128 * j)).take 128))[off + (i - 128 * j)]? = L[i]? := by
  rw [getElem?_splice (by rw [List.length_take]; omega), if_pos, List.getElem?_take,
    if_pos (by omega),
    List.getElem?_drop, List.getElem?_take, if_pos (by omega)]
  · congr 1; omega
  · simp only [List.length_take, List.length_drop]
    omega

theorem getElem?_splice_other {buf data : List Byte} {off i : Nat} (hoff : off + 128 ≤ buf.length)
    (hd : data.length ≤ 128) (hi : i < off ∨ off + 128 ≤ i) :
    (splice buf off data)[i]? = buf[i]? := by
  rw [getElem?_splice (by omega), if_neg (by omega)]
  
theorem length_splice_block {buf data : List Byte} {off : Nat} (hoff : off + 128 ≤ buf.length) :
    (splice buf off (data.take 128)).length = buf.length :=
  length_splice (by rw [List.length_take]; omega)

/-- The buffer of `WriteAt` outside of what is written. Its first and its last block come from `L₁`
and `L₂`, which agree with `N` there. -/
theorem getElem?_filled {N L₁ L₂ buf src : List Byte} {len p a b : Nat} {needA needB : Bool}
    (ha : a = p / 128) (hb : b = (p + src.length - 1) / 128) (hk : 0 < src.length)
    (hp : p + src.length ≤ len) (hL₁ : len ≤ L₁.length) (hL₂ : len ≤ L₂.length)
    (hlen : buf.length = 128 * (b + 1 - a))
    (hA : needA = true ↔ p ≠ 128 * a)
    (hB : needB = true ↔ p + src.length ≠ 128 * (b + 1) ∧ (a ≠ b ∨ p = 128 * a))
    (hN₁ : ∀ i, i / 128 = a → i < len → i < p ∨ p + src.length ≤ i → L₁[i]? = N[i]?)
    (hN₂ : ∀ i, i / 128 = b → i < len → i < p ∨ p + src.length ≤ i → L₂[i]? = N[i]?)
    {buf₁ buf₂ : List Byte}
    (h₁ : buf₁ = if needA then splice buf 0 (((L₁.take len).drop (128 * a)).take 128) else buf)
    (h₂ : buf₂ = if needB then splice buf₁ (128 * (b - a)) (((L₂.take len).drop (128 * b)).take 128)
      else buf₁) :
    buf₂.length = buf.length ∧
    (∀ i, 128 * a ≤ i → i < p → buf₂[i - 128 * a]? = N[i]?) ∧
    ∀ i, p + src.length ≤ i → i < 128 * (b + 1) → i < len → buf₂[i - 128 * a]? = N[i]? := by
  have hab : a ≤ b := by omega
  have hl₁ : buf₁.length = buf.length := by
    rw [h₁]; split
    · exact length_splice_block (by omega)
    · rfl
  have hl₂ : buf₂.length = buf.length := by
    rw [h₂]; split
    · rw [length_splice_block (by omega), hl₁]
    · exact hl₁
  refine ⟨hl₂, fun i hi hip => ?_, fun i hi hib hil => ?_⟩
  · have hA' : needA = true := hA.mpr (by omega)
    have hfst : buf₁[i - 128 * a]? = L₁[i]? := by
      rw [h₁, if_pos hA']
      simpa using getElem?_splice_block buf 0 (by omega) hi (by omega) (by omega) hL₁
    rw [← hN₁ i (by omega) (by omega) (by omega), ← hfst, h₂]
    split
    · next hn =>
      have hne := hB.mp hn
      rw [getElem?_splice_other (by omega) (by rw [List.length_take]; omega) (by omega)]
    · rfl
  · by_cases hn : needB = true
    · rw [← hN₂ i (by omega) hil (by omega), h₂, if_pos hn,
        ← getElem?_splice_block buf₁ (128 * (b - a)) (j := b) (by omega) (by omega) (by omega) hil
          hL₂]
      congr 1
      omega
    · have hne : ¬ (p + src.length ≠ 128 * (b + 1) ∧ (a ≠ b ∨ p = 128 * a)) :=
        fun h => hn (hB.mpr h)
      have hA' : needA = true := hA.mpr (by omega)
      rw [← hN₁ i (by omega) hil (by omega), h₂, if_neg hn, h₁, if_pos hA']
      simpa using getElem?_splice_block buf 0 (j := a) (by omega) (by omega) (by omega)
        hil hL₁

theorem take_splice_filled {L buf src : List Byte} {len p a b : Nat} {needA needB : Bool}
    (ha : a = p / 128) (hb : b = (p + src.length - 1) / 128) (hk : 0 < src.length)
    (hp : p + src.length ≤ len) (hL : len ≤ L.length) (hd : 128 ∣ L.length)
    (hlen : buf.length = 128 * (b + 1 - a))
    (hA : needA = true ↔ p ≠ 128 * a)
    (hB : needB = true ↔ p + src.length ≠ 128 * (b + 1) ∧ (a ≠ b ∨ p = 128 * a))
    {buf₁ buf₂ : List Byte}
    (h₁ : buf₁ = if needA then splice buf 0 (((L.take len).drop (128 * a)).take 128) else buf)
    (h₂ : buf₂ = if needB then splice buf₁ (128 * (b - a)) (((L.take len).drop (128 * b)).take 128)
      else buf₁) :
    buf₂.length = buf.length ∧
    (splice L (128 * a) (splice buf₂ (p - 128 * a) src)).take len = splice (L.take len) p src := by
  obtain ⟨hl, hfst, hlst⟩ := getElem?_filled ha hb hk hp hL hL hlen hA hB (fun _ _ _ _ => rfl)
    (fun _ _ _ _ => rfl) h₁ h₂
  exact ⟨hl, take_splice_blocks ha hb hk hp hL hd (hl.trans hlen) hfst hlst⟩

end buffer

/-! ## The calls -/

/-- A call has refreshed the header copy of `f` from sector `h` and written nothing. -/
structure Fetched (s s' : Kernel) (f : Handle) (h : Nat) : Prop extends Steady s s' where
  disk : s'.disk = s.disk
  header : (s'.files f).hdr.SameFile (hdrAt s.disk h)
  others : ∀ g ≠ f, s'.files g = s.files g

namespace Fetched
variable {s s' : Kernel} {f : Handle} {h : Nat}

theorem refl (hh : (s.files f).hdr.SameFile (hdrAt s.disk h)) : Fetched s s f h :=
  ⟨.refl s, rfl, hh, fun _ _ => rfl⟩

theorem tick (hs : Fetched s s' f h) {t : Nat} : Fetched s { s' with tick := t } f h :=
  ⟨hs.toSteady.trans (.tick ..), hs.disk, hs.header, hs.others⟩

theorem trans {s'' : Kernel} (hs : Fetched s s' f h) (hs' : Fetched s' s'' f h) :
    Fetched s s'' f h where
  toSteady := hs.toSteady.trans hs'.toSteady
  disk := hs'.disk.trans hs.disk
  header := hs.disk ▸ hs'.header
  others g hg := (hs'.others g hg).trans (hs.others g hg)

end Fetched

section sequential
variable {s : Kernel} {n : FileNode} {f : Handle} {p k : Nat}

theorem wp_newChars (c : Nat) {Q : List Byte → Kernel → Prop} :
    Wp (newChars c) Q s ↔
      Q ((bytesOfWords ((List.range c).map (s.host s.tick))).take c)
        { s with tick := s.tick + 1 } := by
  have hc : decide (0 ≤ (c : Int)) = true := decide_eq_true (Int.natCast_nonneg _)
  simp only [newChars, wp_then, wp_assert hc, wp_freshMemory, wp_pure, Int.toNat_natCast]

theorem length_newChars (memory : Nat → Word) (c : Nat) :
    ((bytesOfWords ((List.range c).map memory)).take c).length = c := by
  rw [List.length_take, length_bytesOfWords, List.length_map, List.length_range]
  omega

theorem wp_readRange (hq : s.Quiet) (hl : n.Lists (s.files f).hdr) (ht : n.Tables s.disk)
    (hk : 0 < k) (hp : p + k ≤ 128 * n.data.length) {Q : List Byte → Kernel → Prop} :
    Wp (OpenFile.readRange f k p) Q s ↔
      Q (((blocks s.disk n.data).drop p).take k) { s with tick := s.tick + 1 } := by
  have hd := n.data_length_le
  have hb := blocksAt_under hk hp
  have hm : ∀ x ∈ n.under p k, s.mutex x = 1 := fun x hx => hq.mutex x (n.data_lt (hb.mem_data hx))
  have hlen := length_blocks_under (d := s.disk) hk hp
  have hout : copyOut (blocks s.disk (n.under p k)) ((p : Int) - ((p / 128 : Nat) : Int) * 128) k =
      some (((blocks s.disk n.data).drop p).take k) := by
    rw [copyOut, if_pos (by rw [hlen]; omega), ← blocks_under hk]
    congr 3
    omega
  have hread := fun Q => wp_readSectors (s := { s with tick := s.tick + 1 }) (f := f) hl ht hb hm
    (under_nodup n p k) (Q := Q)
  simp only [OpenFile.readRange, divRoundDown_natCast, lastSector_eq hk (by omega : p + k ≤ 102400),
    sectorRange_blocksOf hk, bufLength_eq hk (by omega : p + k ≤ 102400), wp_then]
  rw [wp_lockSectors hq hl ht hb (under_nodup n p k), wp_newChars]
  refine (hread _).trans ?_
  rw [List.drop_of_length_le (by rw [length_newChars, hlen]), List.append_nil, hout,
    wp_orFault_some]

/-- The number of bytes that `ReadAt` reads after its checks. -/
def OpenFile.clamp (fileLength numBytes position : Int) : Int :=
  if int32 (position + numBytes) > fileLength then int32 (fileLength - position) else numBytes

theorem readAt_fetched (hq : s.Quiet) (hn : n.Holds s.disk) (ho : s.OpenOn f n.hdr)
    (num pos : Int) : ∃ s', Fetched s s' f n.hdr ∧ ∀ Q : List Byte → Kernel → Prop,
      Wp (OpenFile.readAt f num pos) Q s ↔
      Wp (if num ≤ 0 ∨ pos ≥ n.length then pure []
        else OpenFile.readRange f (OpenFile.clamp n.length num pos) pos) Q s' := by
  have hm : s.mutex n.hdr ≠ 0 := by rw [hq.mutex _ n.hdr_lt]; omega
  simp only [OpenFile.readAt, modifyHdr, getHdr, wp_then, wp_fetchHeader ho.2 n.hdr_lt hm, wp_time,
    wp_getFile, wp_setFile, wp_pure]
  generalize hs₁ : Kernel.setFile _ f _ = s₁
  have hs : Fetched s s₁ f n.hdr := by
    subst hs₁
    refine ⟨((Steady.setHdr s f _).trans (.tick ..)).trans (.setHdr ..), rfl, ?_, fun g hg => ?_⟩
    · simp only [Kernel.setFile_files, Function.update_self]
      exact ⟨rfl, rfl, rfl, rfl, rfl⟩
    · simp [Function.update_of_ne hg]
  have hlen : (s₁.files f).hdr.fileLength = n.length := by
    rw [FileHeader.fileLength, hs.header.numBytes, hn.length]
  rw [hlen]
  exact ⟨s₁, hs, fun _ => Iff.rfl⟩

theorem wp_readAt_of_fits (hq : s.Quiet) (hn : n.Holds s.disk) (ho : s.OpenOn f n.hdr) {num : Int}
    (hr : (p : Int) < n.length → num + p < 2147483648) {Q : List Byte → Kernel → Prop}
    (hQ : ∀ s', Fetched s s' f n.hdr → Q ((n.content.drop p).take num.toNat) s') :
    Wp (OpenFile.readAt f num p) Q s := by
  obtain ⟨s₁, hs, hwp⟩ := readAt_fetched hq hn ho num p
  have hsz := n.size
  rw [hwp]
  split
  · next hc =>
    have hnil : (n.content.drop p).take num.toNat = [] := by
      apply List.eq_nil_of_length_eq_zero
      rw [List.length_take, List.length_drop]
      omega
    rw [wp_pure, ← hnil]
    exact hQ s₁ hs
  · next hc =>
    have hroom := n.room
    have hle := n.length_le
    have hfits := hr (by omega)
    obtain ⟨k, hk⟩ : ∃ k : Nat, (k : Int) = min num (n.length - p) :=
      ⟨(min num (n.length - p)).toNat, by omega⟩
    have hnum : OpenFile.clamp n.length num p = k := by
      rw [OpenFile.clamp, int32_of_range (by omega) (by omega),
        int32_of_range (by omega) (by omega)]
      split <;> omega
    rw [hnum, wp_readRange (hs.quiet hq) (hn.lists.congr hs.header) (hs.disk ▸ hn.tables) (by omega)
      (by omega)]
    have hval : ((blocks s₁.disk n.data).drop p).take k = (n.content.drop p).take num.toNat := by
      rw [hs.disk, ← hn.content, List.drop_take, List.take_take]
      congr 1
      omega
    rw [hval]
    exact hQ _ hs.tick

theorem wp_readAt (hq : s.Quiet) (hn : n.Holds s.disk) (ho : s.OpenOn f n.hdr) {num : Int}
    (hr : num + p < 2147483648) {Q : List Byte → Kernel → Prop}
    (hQ : ∀ s', Fetched s s' f n.hdr → Q ((n.content.drop p).take num.toNat) s') :
    Wp (OpenFile.readAt f num p) Q s :=
  wp_readAt_of_fits hq hn ho (fun _ => hr) hQ

theorem wp_readPartial (hq : s.Quiet) (hn : n.Holds s.disk) (ho : s.OpenOn f n.hdr)
    (hh : (s.files f).hdr.SameFile (hdrAt s.disk n.hdr)) {needed : Bool} {buf : List Byte}
    {o j : Nat}
    (hoff : o + 128 ≤ buf.length) (hj : j < 800) {Q : List Byte → Kernel → Prop}
    (hQ : ∀ s', Fetched s s' f n.hdr →
      Q (if needed then splice buf o ((n.content.drop (128 * j)).take 128) else buf) s') :
    Wp (OpenFile.readPartial f needed buf o j) Q s := by
  cases needed with
  | false => exact wp_pure.mpr (hQ s (.refl hh))
  | true =>
    have hpos : (j : Int) * 128 = (128 * j : Nat) := by omega
    simp only [OpenFile.readPartial, if_true, wp_then, hpos]
    refine wp_readAt hq hn ho (by omega) fun s' hs => ?_
    have hcopy : copyInto buf o ((n.content.drop (128 * j)).take (128 : Int).toNat) =
        some (splice buf o ((n.content.drop (128 * j)).take 128)) := by
      rw [copyInto, if_pos ⟨by omega, by rw [List.length_take]; omega⟩]
      rfl
    rw [hcopy, wp_orFault_some]
    exact hQ s' hs

def FileNode.overwrite (n : FileNode) (p : Nat) (src : List Byte) (h : p + src.length ≤ n.length) :
    FileNode :=
  { n with content := splice n.content p src, size := by rw [length_splice
    (by have := n.size; omega), n.size] }

theorem FileNode.Holds.overwrite {d : Nat → Sector} (hn : n.Holds d) {src buf : List Byte}
    {a c : Nat}
    (h : p + src.length ≤ n.length) (hc : a + c ≤ n.data.length) (hb : buf.length = 128 * c)
    (hs : (splice (blocks d n.data) (128 * a) buf).take n.length.toNat = splice n.content p src) :
    (n.overwrite p src h).Holds (writeBlocks d ((n.data.drop a).take c) buf) := by
  have hne : ∀ x ∉ n.data, writeBlocks d ((n.data.drop a).take c) buf x = d x := fun x hx =>
    writeBlocks_of_not_mem fun hm => hx (List.mem_of_mem_drop (List.mem_of_mem_take hm))
  have hh : hdrAt (writeBlocks d ((n.data.drop a).take c) buf) n.hdr = hdrAt d n.hdr := by
    rw [hdrAt, hne _ n.hdr_not_mem_data, hdrAt]
  have hl := hn.lists
  rw [← hh] at hl
  exact ⟨(congrArg (fun h : FileHeader => h.numBytes.toInt) hh).trans hn.length, hl,
    hn.tables.congr fun x hx => hne x (n.index_not_mem_data hx),
    (congrArg (·.take n.length.toNat) (blocks_writeBlocks n.data_nodup hc hb)).trans hs⟩

/-- The part of `writeRange` that fills its buffer. -/
def OpenFile.fillBuffer (f : Handle) (src : List Byte) (position : Int) : Prog (List Byte) := do
  let numBytes : Int := src.length
  let firstSector := divRoundDown position 128
  let lastSector := divRoundDown (int32 (position + numBytes - 1)) 128
  let buf ← newChars (int32 ((1 + lastSector - firstSector) * 128))
  let firstAligned := position == firstSector * 128
  let lastAligned := int32 (position + numBytes) == int32 ((lastSector + 1) * 128)
  let buf ← readPartial f (!firstAligned) buf 0 firstSector
  let buf ← readPartial f (!lastAligned && (firstSector != lastSector || firstAligned)) buf
    ((lastSector - firstSector) * 128) lastSector
  orFault (copyInto buf (position - firstSector * 128) src)

/-- The part that stores the buffer. -/
def OpenFile.store (f : Handle) (src : List Byte) (position : Int) (buf : List Byte) :
    Prog Int := do
  let numBytes : Int := src.length
  let firstSector := divRoundDown position 128
  let lastSector := divRoundDown (int32 (position + numBytes - 1)) 128
  lockSectors f (sectorRange firstSector lastSector)
  writeSectors f (sectorRange firstSector lastSector) buf
  return numBytes

theorem OpenFile.writeRange_eq (f : Handle) (src : List Byte) (position : Int) :
    OpenFile.writeRange f src position =
      OpenFile.fillBuffer f src position >>= OpenFile.store f src position := by
  simp only [OpenFile.writeRange, OpenFile.fillBuffer, bind_assoc]
  rfl

/-- `buf` holds the blocks under the bytes `src` at `p`, and the file's bytes around them. -/
structure FileNode.Filled (n : FileNode) (d : Nat → Sector) (p : Nat) (src buf : List Byte) :
    Prop where
  length : buf.length = 128 * ((p + src.length - 1) / 128 + 1 - p / 128)
  bytes : (splice (blocks d n.data) (128 * (p / 128)) buf).take n.length.toNat =
    splice n.content p src

theorem FileNode.Filled.holds {d : Nat → Sector} {src buf : List Byte}
    (h : n.Filled d p src buf) (hn : n.Holds d) (hk : 0 < src.length)
    (hp : p + src.length ≤ n.length) :
    (n.overwrite p src hp).Holds (writeBlocks d (n.under p src.length) buf) := by
  have hroom := n.room
  exact hn.overwrite hp (by omega) h.length h.bytes

theorem FileNode.Filled.overwrite {d : Nat → Sector} {src buf : List Byte}
    (h : n.Filled d p src buf) (hn : n.On d) (hk : 0 < src.length) (hp : p + src.length ≤ n.length) :
    (n.overwrite p src hp).On (writeBlocks d (n.under p src.length) buf) := by
  have hw := h.holds hn.holds hk hp
  have hh : hdrAt (writeBlocks d (n.under p src.length) buf) n.hdr = hdrAt d n.hdr := by
    rw [hdrAt, writeBlocks_of_not_mem fun hm => n.hdr_not_mem_data (mem_data_of_mem_under hm), hdrAt]
  exact ⟨(congrArg _ hh).trans hn.fileType, (congrArg _ hh).trans hn.numVisits, hw.length,
    (congrArg (fun h : FileHeader => h.numSectors.toInt) hh).trans hn.numSectors, hw.lists,
    hw.tables, hw.content⟩

theorem wp_fillBuffer (hq : s.Quiet) (hn : n.Holds s.disk) (ho : s.OpenOn f n.hdr)
    (hh : (s.files f).hdr.SameFile (hdrAt s.disk n.hdr)) {src : List Byte} (hk : 0 < src.length)
    (hp : p + src.length ≤ n.length) {Q : List Byte → Kernel → Prop}
    (hQ : ∀ buf s', Fetched s s' f n.hdr → n.Filled s.disk p src buf → Q buf s') :
    Wp (OpenFile.fillBuffer f src p) Q s := by
  have hd := n.data_length_le
  have hle := n.length_le
  have hroom := n.room
  have hpk : p + src.length ≤ 102400 := by omega
  have hbuf := length_newChars (s.host s.tick) (128 * ((p + src.length - 1) / 128 + 1 - p / 128))
  simp only [OpenFile.fillBuffer, divRoundDown_natCast, lastSector_eq hk hpk,
    bufLength_eq hk hpk, firstPartial_eq, lastPartial_eq hpk, lastOffset_eq hk, wp_then,
    wp_newChars]
  generalize (bytesOfWords _).take _ = buf at hbuf ⊢
  generalize hA : decide (p ≠ 128 * (p / 128)) = needA
  generalize hB : decide (p + src.length ≠ 128 * ((p + src.length - 1) / 128 + 1) ∧
    (p / 128 ≠ (p + src.length - 1) / 128 ∨ p = 128 * (p / 128))) = needB
  have hst₀ := Steady.tick s (s.tick + 1)
  refine wp_readPartial (hst₀.quiet hq) hn (hst₀.openOn ho) hh (o := 0) (by omega) (by omega)
    fun s₁ hs₁ => ?_
  have hf₁ : Fetched s s₁ f n.hdr := (Fetched.refl hh).tick.trans hs₁
  generalize hbuf₁ : (if needA = true then splice buf 0 _ else buf) = buf₁
  have hl₁ : buf₁.length = buf.length := by
    rw [← hbuf₁]
    split
    · exact length_splice_block (by omega)
    · rfl
  rw [← hf₁.disk] at hn
  refine wp_readPartial (hf₁.quiet hq) hn (hf₁.openOn ho) (hf₁.disk ▸ hf₁.header) (by omega)
    (by omega) fun s₂ hs₂ => ?_
  generalize hbuf₂ : (if needB = true then splice buf₁ _ _ else buf₁) = buf₂
  rw [hf₁.disk] at hn
  obtain ⟨hl₂, hsplice⟩ := take_splice_filled (L := blocks s.disk n.data) (a := p / 128)
    (b := (p + src.length - 1) / 128) rfl rfl hk
    (by omega : p + src.length ≤ n.length.toNat) (by rw [length_blocks]; omega)
    ⟨_, length_blocks⟩ hbuf (hA ▸ decide_eq_true_iff : needA = true ↔ _)
    (hB ▸ decide_eq_true_iff : needB = true ↔ _)
    (hbuf₁.symm.trans (by rw [hn.content])) (hbuf₂.symm.trans (by rw [hn.content]))
  rw [copyInto_sector (by omega), wp_orFault_some]
  refine hQ _ s₂ (hf₁.trans hs₂) ⟨by rw [length_splice (by omega), hl₂, hbuf], ?_⟩
  rw [hsplice, hn.content]

theorem wp_store (hq : s.Quiet) (hl : n.Lists (s.files f).hdr) (ht : n.Tables s.disk)
    {src buf : List Byte} (hk : 0 < src.length) (hp : p + src.length ≤ 128 * n.data.length)
    {Q : Int → Kernel → Prop} :
    Wp (OpenFile.store f src p buf) Q s ↔
      Q src.length { s with disk := writeBlocks s.disk (n.under p src.length) buf } := by
  have hd := n.data_length_le
  have hb := blocksAt_under (n := n) (p := p) hk hp
  simp only [OpenFile.store, divRoundDown_natCast, lastSector_eq hk (by omega : p + _ ≤ 102400),
    sectorRange_blocksOf hk, wp_then]
  rw [wp_lockSectors hq hl ht hb (under_nodup n p _),
    wp_writeSectors hl ht hb (fun x hx => hq.mutex x (n.data_lt (hb.mem_data hx)))
      (under_nodup n p _), wp_pure]

theorem wp_writeRange_stores (hq : s.Quiet) (hn : n.Holds s.disk) (ho : s.OpenOn f n.hdr)
    (hh : (s.files f).hdr.SameFile (hdrAt s.disk n.hdr)) {src : List Byte} (hk : 0 < src.length)
    (hp : p + src.length ≤ n.length) {Q : Int → Kernel → Prop}
    (hQ : ∀ buf s', Fetched s s' f n.hdr → n.Filled s.disk p src buf →
      Q src.length { s' with disk := writeBlocks s.disk (n.under p src.length) buf }) :
    Wp (OpenFile.writeRange f src p) Q s := by
  have hroom := n.room
  rw [OpenFile.writeRange_eq, wp_then]
  refine wp_fillBuffer hq hn ho hh hk hp fun buf s₁ hs₁ hbuf => ?_
  rw [wp_store (hs₁.quiet hq) (hn.lists.congr hs₁.header) (hs₁.disk ▸ hn.tables) hk (by omega),
    hs₁.disk]
  exact hQ buf s₁ hs₁ hbuf

theorem wp_writeRange (hq : s.Quiet) (hn : n.On s.disk) (ho : s.OpenOn f n.hdr)
    (hh : (s.files f).hdr.SameFile (hdrAt s.disk n.hdr)) {src : List Byte} (hk : 0 < src.length)
    (hp : p + src.length ≤ n.length) {Q : Int → Kernel → Prop}
    (hQ : ∀ s', Steady s s' → (n.overwrite p src hp).On s'.disk →
      (∀ x ∉ n.data, s'.disk x = s.disk x) →
      Q src.length s') :
    Wp (OpenFile.writeRange f src p) Q s := by
  refine wp_writeRange_stores hq hn.holds ho hh hk hp fun buf s₁ hs₁ hbuf => ?_
  refine hQ _ (hs₁.toSteady.trans (.disk ..)) (hbuf.overwrite hn hk hp) fun x hx => ?_
  exact writeBlocks_of_not_mem fun hm => hx (mem_data_of_mem_under hm)

/-- The steps of `WriteAt` before its checks; the result is the length that the header shows. -/
def OpenFile.enterWrite (f : Handle) : Prog Int := do
  fetchHeader f
  let now ← time
  modifyHdr f fun h => { h with lastVisitTime := now }
  let now ← time
  modifyHdr f fun h => { h with lastWriteTime := now }
  return (← getHdr f).fileLength

theorem OpenFile.writeAt_eq (f : Handle) (src : List Byte) (pos : Int) :
    OpenFile.writeAt f src pos = (do
      let fileLength ← OpenFile.enterWrite f
      if (src.length : Int) ≤ 0 then return 0
      else if ← OpenFile.makeRoom f src.length pos fileLength then OpenFile.writeRange f src pos
      else return 0) := by
  simp only [OpenFile.writeAt, OpenFile.enterWrite, bind_assoc, pure_bind]

theorem enterWrite_fetched (hq : s.Quiet) (hn : n.Holds s.disk) (ho : s.OpenOn f n.hdr) :
    ∃ s', Fetched s s' f n.hdr ∧ s'.tick = s.tick + 2 ∧
      (s'.files f).hdr.createTime = (hdrAt s.disk n.hdr).createTime ∧
      ∀ Q : Int → Kernel → Prop, Wp (OpenFile.enterWrite f) Q s ↔ Q n.length s' := by
  have hm : s.mutex n.hdr ≠ 0 := by rw [hq.mutex _ n.hdr_lt]; omega
  simp only [OpenFile.enterWrite, modifyHdr, getHdr, wp_then, wp_fetchHeader ho.2 n.hdr_lt hm,
    wp_time, wp_getFile, wp_setFile, wp_pure]
  generalize hs₁ : Kernel.setFile _ f _ = s₁
  have htick : s₁.tick = s.tick + 2 := by
    subst hs₁
    rfl
  have hcreate : (s₁.files f).hdr.createTime = (hdrAt s.disk n.hdr).createTime := by
    subst hs₁
    simp only [Kernel.setFile_files, Function.update_self]
  have hs : Fetched s s₁ f n.hdr := by
    subst hs₁
    refine ⟨((((Steady.setHdr s f _).trans (.tick ..)).trans (.setHdr ..)).trans (.tick ..)).trans
      (.setHdr ..), rfl, ?_, fun g hg => ?_⟩
    · simp only [Kernel.setFile_files, Function.update_self]
      exact ⟨rfl, rfl, rfl, rfl, rfl⟩
    · simp [Function.update_of_ne hg]
  have hlen : (s₁.files f).hdr.fileLength = n.length := by
    rw [FileHeader.fileLength, hs.header.numBytes, hn.length]
  rw [hlen]
  exact ⟨s₁, hs, htick, hcreate, fun _ => Iff.rfl⟩

theorem writeAt_fetched (hq : s.Quiet) (hn : n.Holds s.disk) (ho : s.OpenOn f n.hdr)
    (src : List Byte) (pos : Int) : ∃ s', Fetched s s' f n.hdr ∧ s'.tick = s.tick + 2 ∧
      (s'.files f).hdr.createTime = (hdrAt s.disk n.hdr).createTime ∧
      ∀ Q : Int → Kernel → Prop, Wp (OpenFile.writeAt f src pos) Q s ↔
      Wp (if (src.length : Int) ≤ 0 then pure 0
        else do
          if ← OpenFile.makeRoom f src.length pos n.length then OpenFile.writeRange f src pos
          else pure 0) Q s' := by
  obtain ⟨s₁, hs, htick, hcreate, hwp⟩ := enterWrite_fetched hq hn ho
  refine ⟨s₁, hs, htick, hcreate, fun Q => ?_⟩
  rw [OpenFile.writeAt_eq, wp_then]
  exact hwp _

theorem wp_writeAt_fetched (hq : s.Quiet) (hn : n.Holds s.disk) (ho : s.OpenOn f n.hdr)
    {src : List Byte} {pos : Int} {Q : Int → Kernel → Prop}
    (hQ : ∀ s', Fetched s s' f n.hdr →
      Wp (if (src.length : Int) ≤ 0 then pure 0
        else do
          if ← OpenFile.makeRoom f src.length pos n.length then OpenFile.writeRange f src pos
          else pure 0) Q s') :
    Wp (OpenFile.writeAt f src pos) Q s := by
  obtain ⟨s₁, hs, -, -, hwp⟩ := writeAt_fetched hq hn ho src pos
  exact (hwp Q).mpr (hQ s₁ hs)

theorem makeRoom_inPlace {src : List Byte} (hp : p + src.length ≤ n.length) :
    OpenFile.makeRoom f src.length p n.length = pure true := by
  have hle := n.length_le
  rw [OpenFile.makeRoom, if_neg]
  rw [int32_of_range (by omega) (by omega)]
  omega

theorem wp_writeAt_stores (hq : s.Quiet) (hn : n.Holds s.disk) (ho : s.OpenOn f n.hdr)
    {src : List Byte}
    (hk : 0 < src.length) (hp : p + src.length ≤ n.length) {Q : Int → Kernel → Prop}
    (hQ : ∀ buf s', Fetched s s' f n.hdr → n.Filled s.disk p src buf →
      Q src.length { s' with disk := writeBlocks s.disk (n.under p src.length) buf }) :
    Wp (OpenFile.writeAt f src p) Q s := by
  refine wp_writeAt_fetched hq hn ho fun s₁ hs => ?_
  rw [if_neg (by omega), wp_then, makeRoom_inPlace hp, wp_pure, if_pos rfl]
  rw [← hs.disk] at hn
  refine wp_writeRange_stores (hs.quiet hq) hn (hs.openOn ho) (hs.disk ▸ hs.header) hk hp
    fun buf s₂ hs₂ hbuf => ?_
  rw [hs.disk] at hbuf ⊢
  exact hQ buf s₂ (hs.trans hs₂) hbuf

theorem wp_writeAt_inPlace (hq : s.Quiet) (hn : n.On s.disk) (ho : s.OpenOn f n.hdr)
    {src : List Byte}
    (hk : 0 < src.length) (hp : p + src.length ≤ n.length) {Q : Int → Kernel → Prop}
    (hQ : ∀ s', Steady s s' → (n.overwrite p src hp).On s'.disk →
      (∀ x ∉ n.data, s'.disk x = s.disk x) →
      Q src.length s') :
    Wp (OpenFile.writeAt f src p) Q s := by
  refine wp_writeAt_stores hq hn.holds ho hk hp fun buf s₁ hs₁ hbuf => ?_
  refine hQ _ (hs₁.toSteady.trans (.disk ..)) (hbuf.overwrite hn hk hp) fun x hx => ?_
  exact writeBlocks_of_not_mem fun hm => hx (mem_data_of_mem_under hm)

/-! ## Opening -/

structure Touched (h : Nat) (d d' : Nat → Sector) : Prop where
  header : (hdrAt d' h).SameFile (hdrAt d h)
  other : ∀ x ≠ h, d' x = d x

theorem FileNode.On.touched {d d' : Nat → Sector} {h : Nat} (hn : n.On d) (ht : Touched h d d')
    (hx : h ∉ n.index ++ n.data) : n.On d' := by
  refine hn.congr ?_ fun x hm => ht.other x (fun e => hx (e ▸ hm))
  by_cases he : n.hdr = h
  · rw [he]
    exact ht.header
  · rw [hdrAt, hdrAt, ht.other _ he]
    exact .refl _

theorem Touched.update {d : Nat → Sector} {h : Nat} {hdr : FileHeader}
    (hs : hdr.SameFile (hdrAt d h)) : Touched h d (Function.update d h hdr.toSector) := by
  refine ⟨?_, fun x hx => Function.update_of_ne hx _ _⟩
  rw [hdrAt, Function.update_self, FileHeader.ofSector_toSector]
  exact hs

theorem Touched.setDisk {h : Nat} {hdr : FileHeader} (hs : hdr.SameFile (hdrAt s.disk h)) :
    Touched h s.disk (s.setDisk h hdr.toSector).disk := .update hs

def visited (d : Nat → Sector) (h : Nat) (now : Word) : Nat → Sector :=
  Function.update d h { hdrAt d h with lastVisitTime := now }.toSector

theorem touched_visited (d : Nat → Sector) (h : Nat) (now : Word) :
    Touched h d (visited d h now) := .update ⟨rfl, rfl, rfl, rfl, rfl⟩

structure Opened (s s' : Kernel) (h : Nat) : Prop where
  steady : Steady s s'
  disk : s'.disk = visited s.disk h (s.host s.tick 0)
  openOn : s'.OpenOn s.nextFile h
  seek : (s'.files s.nextFile).seekPosition = 0
  others : ∀ g < s.nextFile, s'.files g = s.files g

theorem wp_openFile_visited (hq : s.Quiet) {h : Nat} (hh : h < 1024) :
    Wp (OpenFile.new h) (fun f s' => f = s.nextFile ∧ Opened s s' h) s := by
  have hm : s.mutex h ≠ 0 := by rw [hq.mutex _ hh]; omega
  have hmm : Function.update (Function.update s.mutex h (s.mutex h - 1)) h
      (s.mutex h - 1 + 1) = s.mutex := by
    rw [Function.update_idem, Nat.sub_add_cancel (Nat.pos_of_ne_zero hm), Function.update_eq_self]
  simp only [OpenFile.new, FileHeader.fetchFrom, FileHeader.writeBack, wp_then, wp_newFile,
    wp_rwP (s := { s with nextFile := s.nextFile + 1 }) hh hm, wp_readSector hh, wp_pure, wp_time,
    wp_writeSector hh, wp_rwV hh, wp_setFile]
  refine ⟨trivial, ⟨⟨?_, rfl, rfl, Nat.le_succ _, fun g hg => ?_, fun g hg => ?_⟩, rfl⟩, rfl, ⟨?_, ?_⟩,
    ?_, fun g hg => ?_⟩
  · simpa using hmm
  · simp [Function.update_of_ne hg.ne]
  · simp [Function.update_of_ne hg.ne]
  · exact Nat.lt_succ_self _
  · simp
  · simp
  · simp [Function.update_of_ne hg.ne]

theorem wp_openFile (hq : s.Quiet) {h : Nat} (hh : h < 1024) {Q : Handle → Kernel → Prop}
    (hQ : ∀ s', Steady s s' → Touched h s.disk s'.disk → s'.OpenOn s.nextFile h →
      (s'.files s.nextFile).seekPosition = 0 → (∀ g < s.nextFile, s'.files g = s.files g) →
      Q s.nextFile s') :
    Wp (OpenFile.new h) Q s := by
  refine (wp_openFile_visited hq hh).mono ?_
  rintro _ s' ⟨rfl, ho⟩
  exact hQ s' ho.steady (ho.disk ▸ touched_visited ..) ho.openOn ho.seek ho.others

end sequential
end Nachos
