import Nachos.Machine.Loader

/-! `coff2noff.c`: an executable in COFF format becomes one in NOFF format. The sections go one by
one into three segments. A second section of code replaces the first one in the header, and a second
section of uninitialised data is refused if it is contiguous to the first one and merged with it if
it is not. The numbers in the headers are signed and have 32 bits, and sums of them wrap around.
Files have less than 2^31 bytes, and the host has the memory and the disk space that the program
asks for. -/

namespace Nachos
open Lib

namespace Coff

/-! ## Conversion -/

/-- The fields of a section header that are used. -/
structure ScnHdr where
  sName : List Byte
  sPaddr : Word
  sSize : Word
  sScnptr : Word
  deriving DecidableEq

inductive SectionKind where
  | empty
  | text
  | data
  | bss
  | unknown
  deriving DecidableEq

/-- The header, `inNoffFile`, what follows the header in the new file, and the position in the old
file. -/
structure Noff where
  noffH : NoffHeader
  inNoffFile : Int
  out : List Byte
  pos : Nat

/-- The bytes that `read` of the host transfers, after what it returns. Its count is unsigned, and
one of 2^31 or more is an error. -/
def hostRead (fdIn : List Byte) (pos : Nat) (nBytes : Int) : Int × List Byte :=
  if nBytes < 0 then (-1, [])
  else
    let buf := (fdIn.drop pos).take nBytes.toNat
    (buf.length, buf)

/-- What `write` of the host returns, at this position in the new file. -/
def hostWrite (pos : Nat) (nBytes : Int) : Int :=
  if nBytes < 0 then -1 else min nBytes (2147483647 - pos)

/-- A count of -1 passes the check, as `read` returns -1. -/
def read (fdIn : List Byte) (pos : Nat) (nBytes : Int) : Except String (List Byte) :=
  let (returned, buf) := hostRead fdIn pos nBytes
  if returned ≠ nBytes then .error "File is too short\n" else .ok buf

def write (out buf : List Byte) (nBytes : Int) : Except String (List Byte) :=
  if hostWrite (40 + out.length) nBytes ≠ nBytes then .error "Unable to write file\n"
  else .ok (out ++ buf)

def halfAt (buf : List Byte) (i : Nat) : Nat :=
  (buf.getD i 0).toNat + 256 * (buf.getD (i + 1) 0).toNat

def wordAt (buf : List Byte) (i : Nat) : Word :=
  leWord (buf.getD i 0) (buf.getD (i + 1) 0) (buf.getD (i + 2) 0) (buf.getD (i + 3) 0)

/-- The `i`th section header; each has 40 bytes. -/
def scnHdrAt (buf : List Byte) (i : Nat) : ScnHdr where
  sName := (buf.drop (40 * i)).take 8
  sPaddr := wordAt buf (40 * i + 8)
  sSize := wordAt buf (40 * i + 16)
  sScnptr := wordAt buf (40 * i + 20)

/-- The headers of the file: 20 bytes, 56 bytes, and those of the sections. -/
def sectionHeaders (fdIn : List Byte) : Except String (List ScnHdr) := do
  let fileh ← read fdIn 0 20
  if halfAt fileh 0 ≠ 0x0162 then throw "File is not a MIPSEL COFF file\n"
  let systemh ← read fdIn 20 56
  if halfAt systemh 0 ≠ 0o407 then throw "File is not a OMAGIC file\n"
  let sections ← read fdIn 76 (halfAt fileh 2 * 40 : Nat)
  return (List.range (halfAt fileh 2)).map (scnHdrAt sections)

namespace ScnHdr

/-- `strcmp` finds the name, which ends with a zero byte. -/
def named (s : ScnHdr) (name : String) : Bool :=
  (name.toList.map (fun c : Char => BitVec.ofNat 8 c.toNat) ++ [0]).isPrefixOf s.sName

def kind (s : ScnHdr) : SectionKind :=
  if s.sSize = 0 then .empty
  else if s.named ".text" then .text
  else if s.named ".data" || s.named ".rdata" then .data
  else if s.named ".bss" || s.named ".sbss" then .bss
  else .unknown

end ScnHdr

/-- A section is copied to the end of the new file. If `lseek` fails, the position in the old file
stays as it is. -/
def Noff.copy (c : Noff) (fdIn : List Byte) (s : ScnHdr) (noffH : NoffHeader) :
    Except String Noff := do
  let pos := if 0 ≤ s.sScnptr.toInt then s.sScnptr.toNat else c.pos
  let buffer ← read fdIn pos s.sSize.toInt
  let out ← write c.out buffer s.sSize.toInt
  -- the new file is too short for an overflow
  return ⟨noffH, c.inNoffFile + s.sSize.toInt, out, pos + buffer.length⟩

def Noff.withUninit (c : Noff) (uninitData : Segment) : Noff :=
  { c with noffH := { c.noffH with uninitData := uninitData } }

/-- The body of the loop over the sections. -/
def convertSection (fdIn : List Byte) (c : Noff) (s : ScnHdr) : Except String Noff :=
  match s.kind with
  | .empty => .ok c
  | .text =>
    c.copy fdIn s { c.noffH with code := ⟨s.sPaddr.toInt, c.inNoffFile, s.sSize.toInt⟩ }
  | .data =>
    if c.noffH.initData.size ≠ 0 then .error "Can't handle both data and rdata\n"
    else c.copy fdIn s { c.noffH with initData := ⟨s.sPaddr.toInt, c.inNoffFile, s.sSize.toInt⟩ }
  | .bss =>
    let uninitData := c.noffH.uninitData
    if uninitData.size ≠ 0 then
      if s.sPaddr.toInt = int32 (uninitData.virtualAddr + uninitData.size) then
        .error "Can't handle both bss and sbss\n"
      else .ok (c.withUninit
        { uninitData with size := int32 (uninitData.size + s.sSize.toInt) })
    else .ok (c.withUninit
      { uninitData with virtualAddr := s.sPaddr.toInt, size := s.sSize.toInt })
  | .unknown =>
    .error ("Unknown segment type: " ++
      String.ofList ((s.sName.takeWhile (· ≠ 0)).map fun b => Char.ofNat b.toNat) ++ "\n")

/-- The new header before the loop, made of what was on the stack. -/
def initialHeader (stack : NoffHeader) : NoffHeader where
  noffMagic := 0xbadfad
  code := { stack.code with size := 0 }
  initData := { stack.initData with size := 0 }
  uninitData := { stack.uninitData with size := 0 }

/-- The loop, with the old file at `pos`. -/
def convert (stack : NoffHeader) (fdIn : List Byte) (pos : Nat) (sections : List ScnHdr) :
    Except String Noff :=
  sections.foldlM (convertSection fdIn) ⟨initialHeader stack, 40, [], pos⟩

def headersEnd (sections : List ScnHdr) : Nat := 76 + sections.length * 40

def coff2noff (stack : NoffHeader) (fdIn : List Byte) : Except String Noff := do
  let sections ← sectionHeaders fdIn
  convert stack fdIn (headersEnd sections) sections

def segmentWords (s : Segment) : List Word :=
  [.ofInt 32 s.virtualAddr, .ofInt 32 s.inFileAddr, .ofInt 32 s.size]

def headerBytes (noffH : NoffHeader) : List Byte :=
  bytesOfWords (.ofInt 32 noffH.noffMagic ::
    (segmentWords noffH.code ++ segmentWords noffH.initData ++ segmentWords noffH.uninitData))

def Noff.file (c : Noff) : List Byte := headerBytes c.noffH ++ c.out

/-! ## What should come out

Addresses are words, so that a section may go over the last one. A section whose size is negative
has no addresses, and one whose file pointer is negative has none of its bytes in the file. -/

namespace ScnHdr

def Has (s : ScnHdr) (a : Word) : Prop := ((a - s.sPaddr).toNat : Int) < s.sSize.toInt

def byteAt (s : ScnHdr) (fdIn : List Byte) (a : Word) : Option Byte :=
  if 0 ≤ s.sScnptr.toInt then fdIn[s.sScnptr.toNat + (a - s.sPaddr).toNat]? else none

end ScnHdr

def Covers (seg : Segment) (a : Word) : Prop :=
  ((a - .ofInt 32 seg.virtualAddr).toNat : Int) < seg.size

/-- The byte that the segment assigns to the address. -/
def fileByte (seg : Segment) (file : List Byte) (a : Word) : Option Byte :=
  let p := seg.inFileAddr + (a - .ofInt 32 seg.virtualAddr).toNat
  if 0 ≤ p then file[p.toNat]? else none

/-- Each byte of the section is in the file where the segment says. -/
def ScnHdr.StoredIn (s : ScnHdr) (fdIn file : List Byte) (seg : Segment) : Prop :=
  ∀ a, s.Has a → Covers seg a ∧ ∃ b, s.byteAt fdIn a = some b ∧ fileByte seg file a = some b

/-- The new file has the bytes of all sections, and its segments have their addresses and no
others. -/
structure Preserves (fdIn : List Byte) (sections : List ScnHdr) (c : Noff) : Prop where
  text : ∀ s ∈ sections, s.kind = .text → s.StoredIn fdIn c.file c.noffH.code
  data : ∀ s ∈ sections, s.kind = .data → s.StoredIn fdIn c.file c.noffH.initData
  bss : ∀ a, Covers c.noffH.uninitData a ↔ ∃ s ∈ sections, s.kind = .bss ∧ s.Has a
  code : ∀ a, Covers c.noffH.code a → ∃ s ∈ sections, s.kind = .text ∧ s.Has a
  initData : ∀ a, Covers c.noffH.initData a → ∃ s ∈ sections, s.kind = .data ∧ s.Has a

def ofKind (k : SectionKind) (sections : List ScnHdr) : List ScnHdr :=
  sections.filter fun s => s.kind = k

def others (sections : List ScnHdr) : List ScnHdr := sections.filter fun s => s.kind ≠ .bss

/-- The sections of uninitialised data that have addresses. -/
def uninit (sections : List ScnHdr) : List ScnHdr :=
  (ofKind .bss sections).filter fun s => 0 < s.sSize.toInt

/-- Each section begins where those before it end. -/
def Joined (e : Word) : List ScnHdr → Prop
  | [] => True
  | s :: rest => s.sPaddr = e ∧ Joined (e + s.sSize) rest

def Contiguous : List ScnHdr → Prop
  | [] => True
  | s :: rest => Joined (s.sPaddr + s.sSize) rest

def HasBoth (sections : List ScnHdr) : Prop :=
  (∃ s ∈ uninit sections, s.named ".bss" = true) ∧ ∃ s ∈ uninit sections, s.named ".sbss" = true

/-- If the file is converted, nothing is lost or added. A file with `.bss` and `.sbss` that has no
other fault is refused if and only if they are not contiguous. -/
def Right (stack : NoffHeader) (fdIn : List Byte) : Prop :=
  ∀ sections, sectionHeaders fdIn = .ok sections →
    (∀ c, coff2noff stack fdIn = .ok c → Preserves fdIn sections c) ∧
    (HasBoth sections → (convert stack fdIn (headersEnd sections) (others sections)).isOk →
      ((coff2noff stack fdIn).isOk = false ↔ ¬ Contiguous (uninit sections)))

/-! ## The condition -/

/-- Start and size of the uninitialised data after one more section, unless it begins where they
end. With the size 0 they start anew. -/
def mergeSection (u : Word × Word) (s : ScnHdr) : Option (Word × Word) :=
  if u.2 = 0 then some (s.sPaddr, s.sSize)
  else if s.sPaddr = u.1 + u.2 then none
  else some (u.1, u.2 + s.sSize)

def merged (sections : List ScnHdr) : Option (Word × Word) :=
  (ofKind .bss sections).foldlM mergeSection (0, 0)

/-- The sections of uninitialised data are refused, and if there are both names, they are indeed not
contiguous; or they are merged, are contiguous if there are both names, and have together the
addresses of the merged segment. -/
def BssFits (sections : List ScnHdr) : Prop :=
  (merged sections = none → HasBoth sections → ¬ Contiguous (uninit sections)) ∧
  ∀ u, merged sections = some u →
    (HasBoth sections → Contiguous (uninit sections)) ∧
    ∀ a, ((a - u.1).toNat : Int) < u.2.toInt ↔ ∃ s ∈ ofKind .bss sections, s.Has a

/-- All sections lie in the last one, whose bytes are in the file, and have the same bytes there. -/
def Agree (fdIn : List Byte) (sections : List ScnHdr) : Prop :=
  ∀ t, sections.getLast? = some t → ∀ s ∈ sections, ∀ a, s.Has a →
    t.Has a ∧ ∃ b, t.byteAt fdIn a = some b ∧ s.byteAt fdIn a = some b

def copied (sections : List ScnHdr) : List ScnHdr :=
  sections.filter fun s => s.kind = .text ∨ s.kind = .data

/-- Only sections of size -1 come after a section of size -1, which `Read` lets pass: it moves
`inNoffFile` back, and what is copied behind it would get a wrong place. -/
def Unshifted (sections : List ScnHdr) : Prop :=
  (copied sections).Pairwise fun s s' => s.sSize.toInt = -1 → s'.sSize.toInt = -1

def BytesFit (fdIn : List Byte) (sections : List ScnHdr) : Prop :=
  Agree fdIn (ofKind .text sections) ∧ Agree fdIn (ofKind .data sections)

/-! ## Lists of sections -/

theorem filter_concat (p : ScnHdr → Prop) [DecidablePred p] (l : List ScnHdr) (s : ScnHdr) :
    (l ++ [s]).filter (fun s => p s) =
      if p s then l.filter (fun s => p s) ++ [s] else l.filter fun s => p s := by
  rw [List.filter_append, List.filter_singleton]
  by_cases h : p s
  · simp [h]
  · simp [h]

theorem ofKind_concat (k : SectionKind) (l : List ScnHdr) (s : ScnHdr) :
    ofKind k (l ++ [s]) = if s.kind = k then ofKind k l ++ [s] else ofKind k l :=
  filter_concat (fun s => s.kind = k) l s

theorem mem_ofKind {k : SectionKind} {l : List ScnHdr} {s : ScnHdr} :
    s ∈ ofKind k l ↔ s ∈ l ∧ s.kind = k := by
  simp [ofKind]

theorem ofKind_concat_self {k : SectionKind} {s : ScnHdr} (hs : s.kind = k) (l : List ScnHdr) :
    ofKind k (l ++ [s]) = ofKind k l ++ [s] := by
  rw [ofKind_concat, if_pos hs]

theorem ofKind_concat_ne {k : SectionKind} {s : ScnHdr} (hs : s.kind ≠ k) (l : List ScnHdr) :
    ofKind k (l ++ [s]) = ofKind k l := by
  rw [ofKind_concat, if_neg hs]

theorem others_concat (l : List ScnHdr) (s : ScnHdr) :
    others (l ++ [s]) = if s.kind = .bss then others l else others l ++ [s] := by
  unfold others
  rw [filter_concat (fun s => s.kind ≠ .bss), ite_not]

theorem copied_concat (l : List ScnHdr) (s : ScnHdr) :
    copied (l ++ [s]) =
      if s.kind = .text ∨ s.kind = .data then copied l ++ [s] else copied l :=
  filter_concat (fun s => s.kind = .text ∨ s.kind = .data) l s

theorem Unshifted.of_concat {l : List ScnHdr} {s : ScnHdr} (h : Unshifted (l ++ [s])) :
    Unshifted l := by
  unfold Unshifted copied at h ⊢
  rw [List.filter_append] at h
  exact (List.pairwise_append.mp h).1

theorem merged_concat (l : List ScnHdr) (s : ScnHdr) :
    merged (l ++ [s]) =
      if s.kind = .bss then (merged l).bind (mergeSection · s) else merged l := by
  unfold merged
  rw [ofKind_concat]
  split
  · rw [List.foldlM_append]
    simp only [List.foldlM_cons, List.foldlM_nil, bind_pure]
    rfl
  · rfl

/-! ## Copying -/

section
variable {fdIn : List Byte} {c c' : Noff} {s : ScnHdr}

theorem read_eq_ok {pos : Nat} {n : Int} {buf : List Byte} (h : read fdIn pos n = .ok buf) :
    (n = -1 ∧ buf = []) ∨ (buf.length : Int) = n ∧ buf = (fdIn.drop pos).take n.toNat := by
  unfold read hostRead at h
  by_cases hn : n < 0
  · rw [if_pos hn] at h
    simp only at h
    split at h
    · cases h
    · next hret =>
      cases h
      exact .inl ⟨(not_not.mp hret).symm, rfl⟩
  · rw [if_neg hn] at h
    simp only at h
    split at h
    · cases h
    · next hret =>
      cases h
      exact .inr ⟨not_not.mp hret, rfl⟩

/-- What is copied comes from `src` in the old file and goes to the end of the new one. -/
structure Copies (fdIn : List Byte) (c c' : Noff) (s : ScnHdr) (noffH : NoffHeader)
    (buffer : List Byte) (src : Nat) : Prop where
  header : c'.noffH = noffH
  place : c'.inNoffFile = c.inNoffFile + s.sSize.toInt
  out : c'.out = c.out ++ buffer
  source : 0 ≤ s.sScnptr.toInt → src = s.sScnptr.toNat
  bytes : s.sSize.toInt = -1 ∧ buffer = [] ∨
    (buffer.length : Int) = s.sSize.toInt ∧ buffer = (fdIn.drop src).take buffer.length

theorem copies_of_copy {noffH : NoffHeader} (h : c.copy fdIn s noffH = .ok c') :
    ∃ buffer src, Copies fdIn c c' s noffH buffer src := by
  unfold Noff.copy at h
  simp only at h
  cases hread : read fdIn (if 0 ≤ s.sScnptr.toInt then s.sScnptr.toNat else c.pos)
      s.sSize.toInt with
  | error e =>
    rw [hread] at h
    cases h
  | ok buffer =>
    rw [hread] at h
    change (write c.out buffer s.sSize.toInt).bind _ = _ at h
    unfold write at h
    split at h
    · cases h
    · cases h
      refine ⟨buffer, if 0 ≤ s.sScnptr.toInt then s.sScnptr.toNat else c.pos, rfl, rfl, rfl,
        fun hptr => if_pos hptr, ?_⟩
      obtain ⟨hsize, hnil⟩ | ⟨hlen, hbuf⟩ := read_eq_ok hread
      · exact .inl ⟨hsize, hnil⟩
      · refine .inr ⟨hlen, ?_⟩
        have hcount : s.sSize.toInt.toNat = buffer.length := by omega
        rw [← hcount]
        exact hbuf

/-- The segment of a section that is in the new file. If nothing was shifted before it, it is where
the segment says. -/
structure Stored (fdIn out : List Byte) (seg : Segment) (t : ScnHdr) (placed : Prop) : Prop where
  virtualAddr : seg.virtualAddr = t.sPaddr.toInt
  size : seg.size = t.sSize.toInt
  bytes : ∃ off src : Nat, (0 ≤ t.sScnptr.toInt → src = t.sScnptr.toNat) ∧
    (placed → 0 < t.sSize.toInt → seg.inFileAddr = 40 + off) ∧
    ∀ k : Nat, (k : Int) < t.sSize.toInt →
      ∃ b, out[off + k]? = some b ∧ fdIn[src + k]? = some b

theorem Stored.append {out : List Byte} {seg : Segment} {placed placed' : Prop}
    (h : Stored fdIn out seg s placed) (hplaced : placed' → placed) (more : List Byte) :
    Stored fdIn (out ++ more) seg s placed' := by
  obtain ⟨off, src, hsrc, hoff, hbytes⟩ := h.bytes
  refine ⟨h.virtualAddr, h.size, off, src, hsrc, fun hp => hoff (hplaced hp), fun k hk => ?_⟩
  obtain ⟨b, hb, hb'⟩ := hbytes k hk
  refine ⟨b, ?_, hb'⟩
  rw [List.getElem?_append_left (List.getElem?_eq_some_iff.mp hb).1]
  exact hb

theorem Copies.stored {noffH : NoffHeader} {buffer : List Byte} {src : Nat} {placed : Prop}
    (h : Copies fdIn c c' s noffH buffer src)
    (hplaced : placed → 0 < s.sSize.toInt → c.inNoffFile = 40 + c.out.length) :
    Stored fdIn c'.out ⟨s.sPaddr.toInt, c.inNoffFile, s.sSize.toInt⟩ s placed := by
  refine ⟨rfl, rfl, c.out.length, src, h.source, hplaced, fun k hk => ?_⟩
  obtain ⟨hsize, -⟩ | ⟨hlen, hbuf⟩ := h.bytes
  · omega
  · have hlt : k < buffer.length := by omega
    refine ⟨buffer[k], ?_, ?_⟩
    · rw [h.out, List.getElem?_append_right (by omega), Nat.add_sub_cancel_left,
        List.getElem?_eq_getElem hlt]
    · have hget : buffer[k]? = ((fdIn.drop src).take buffer.length)[k]? := by rw [← hbuf]
      rw [List.getElem?_take_of_lt hlt, List.getElem?_drop, List.getElem?_eq_getElem hlt] at hget
      exact hget.symm

structure Filed (fdIn out : List Byte) (seg : Segment) (sections : List ScnHdr) (placed : Prop) :
    Prop where
  none : sections = [] → seg.size = 0
  last : ∀ t, sections.getLast? = some t → Stored fdIn out seg t placed

theorem Filed.append {out : List Byte} {seg : Segment} {l : List ScnHdr} {placed placed' : Prop}
    (h : Filed fdIn out seg l placed) (hplaced : placed' → placed) (more : List Byte) :
    Filed fdIn (out ++ more) seg l placed' :=
  ⟨h.none, fun t ht => (h.last t ht).append hplaced more⟩

theorem Stored.filed {out : List Byte} {seg : Segment} {l : List ScnHdr} {placed : Prop}
    (h : Stored fdIn out seg s placed) : Filed fdIn out seg (l ++ [s]) placed := by
  refine ⟨fun hnil => absurd hnil (by simp), fun t ht => ?_⟩
  rw [List.getLast?_concat] at ht
  cases ht
  exact h

end

/-! ## One section -/

section
variable {fdIn : List Byte} {c c' : Noff} {s : ScnHdr} {done : List ScnHdr} {u : Word × Word}

def Uninit (seg : Segment) (u : Word × Word) : Prop :=
  seg.size = u.2.toInt ∧ (u.2 ≠ 0 → seg.virtualAddr = u.1.toInt)

theorem Uninit.size_eq_zero_iff {seg : Segment} (h : Uninit seg u) : seg.size = 0 ↔ u.2 = 0 := by
  rw [h.1]
  exact ⟨fun h0 => BitVec.eq_of_toInt_eq h0, fun h0 => by rw [h0]; rfl⟩

theorem int32_add_toInt (v w : Word) : int32 (v.toInt + w.toInt) = (v + w).toInt := by
  rw [int32, BitVec.toInt_ofInt, BitVec.toInt_add]

theorem convertSection_bss (hs : s.kind = .bss) (hu : Uninit c.noffH.uninitData u) :
    (∃ e, convertSection fdIn c s = .error e) ∧ mergeSection u s = none ∨
    ∃ seg u', convertSection fdIn c s = .ok (c.withUninit seg) ∧ mergeSection u s = some u' ∧
      Uninit seg u' := by
  unfold convertSection mergeSection
  simp only [hs]
  by_cases h0 : u.2 = 0
  · rw [if_neg (not_not.mpr (hu.size_eq_zero_iff.mpr h0)), if_pos h0]
    exact .inr ⟨_, _, rfl, rfl, rfl, fun _ => rfl⟩
  · rw [if_pos (mt hu.size_eq_zero_iff.mp h0), if_neg h0, hu.1, hu.2 h0, int32_add_toInt,
      int32_add_toInt]
    by_cases hend : s.sPaddr = u.1 + u.2
    · rw [if_pos (congrArg BitVec.toInt hend), if_pos hend]
      exact .inl ⟨⟨_, rfl⟩, rfl⟩
    · rw [if_neg (mt BitVec.eq_of_toInt_eq hend), if_neg hend]
      exact .inr ⟨_, _, rfl, rfl, rfl, fun _ => rfl⟩

theorem copy_withUninit (seg : Segment) (noffH : NoffHeader) :
    (c.withUninit seg).copy fdIn s { noffH with uninitData := seg } =
      (c.copy fdIn s noffH).map (·.withUninit seg) := by
  unfold Noff.copy Noff.withUninit
  dsimp only
  cases read fdIn (if 0 ≤ s.sScnptr.toInt then s.sScnptr.toNat else c.pos) s.sSize.toInt with
  | error e => rfl
  | ok buffer =>
    change (write c.out buffer _).bind _ = ((write c.out buffer _).bind _).map _
    cases write c.out buffer s.sSize.toInt with
    | error e => rfl
    | ok out => rfl

theorem convertSection_withUninit (hs : s.kind ≠ .bss) (seg : Segment) :
    convertSection fdIn (c.withUninit seg) s =
      (convertSection fdIn c s).map (·.withUninit seg) := by
  unfold convertSection
  cases hk : s.kind with
  | empty => rfl
  | text =>
    exact copy_withUninit seg
      { c.noffH with code := ⟨s.sPaddr.toInt, c.inNoffFile, s.sSize.toInt⟩ }
  | data =>
    by_cases h0 : c.noffH.initData.size = 0
    · have h0' : (c.withUninit seg).noffH.initData.size = 0 := h0
      simp only [h0, h0', ne_eq, not_true_eq_false, if_false]
      exact copy_withUninit seg
        { c.noffH with initData := ⟨s.sPaddr.toInt, c.inNoffFile, s.sSize.toInt⟩ }
    · have h0' : (c.withUninit seg).noffH.initData.size ≠ 0 := h0
      simp only [h0, h0', ne_eq, not_false_eq_true, if_true]
      rfl
  | bss => exact absurd hk hs
  | unknown => rfl

structure Done (fdIn : List Byte) (done : List ScnHdr) (c : Noff) : Prop where
  position : (∀ s ∈ copied done, s.sSize.toInt ≠ -1) → c.inNoffFile = 40 + c.out.length
  code : Filed fdIn c.out c.noffH.code (ofKind .text done) (Unshifted done)
  data : Filed fdIn c.out c.noffH.initData (ofKind .data done) (Unshifted done)

theorem done_start (stack : NoffHeader) (fdIn : List Byte) (pos : Nat) :
    Done fdIn [] ⟨initialHeader stack, 40, [], pos⟩ := by
  refine ⟨fun _ => rfl, ⟨fun _ => rfl, fun t ht => ?_⟩, ⟨fun _ => rfl, fun t ht => ?_⟩⟩
  · cases ht
  · cases ht

theorem Done.placed (h : Done fdIn done c) (hs : s.kind = .text ∨ s.kind = .data)
    (hun : Unshifted (done ++ [s])) (hsize : 0 < s.sSize.toInt) :
    c.inNoffFile = 40 + c.out.length := by
  apply h.position
  intro x hx hneg
  unfold Unshifted at hun
  rw [copied_concat, if_pos hs] at hun
  have hlast := (List.pairwise_append.mp hun).2.2 x hx s (List.mem_singleton_self s) hneg
  omega

theorem Done.position_copied {noffH : NoffHeader} {buffer : List Byte} {src : Nat}
    (h : Done fdIn done c) (hs : s.kind = .text ∨ s.kind = .data)
    (hcopy : Copies fdIn c c' s noffH buffer src)
    (hall : ∀ x ∈ copied (done ++ [s]), x.sSize.toInt ≠ -1) :
    c'.inNoffFile = 40 + c'.out.length := by
  rw [copied_concat, if_pos hs] at hall
  have hbefore := h.position fun x hx => hall x (List.mem_append_left _ hx)
  have hsize := hall s (List.mem_append_right _ (List.mem_singleton_self s))
  obtain ⟨hneg, -⟩ | ⟨hlen, -⟩ := hcopy.bytes
  · exact absurd hneg hsize
  · rw [hcopy.place, hcopy.out, List.length_append, hbefore, ← hlen]
    push_cast
    omega

theorem Done.skip (h : Done fdIn done c) (hs : ¬ (s.kind = .text ∨ s.kind = .data))
    (hout : c'.out = c.out) (hplace : c'.inNoffFile = c.inNoffFile)
    (hcode : c'.noffH.code = c.noffH.code) (hdata : c'.noffH.initData = c.noffH.initData) :
    Done fdIn (done ++ [s]) c' := by
  have hun : Unshifted (done ++ [s]) → Unshifted done := Unshifted.of_concat
  refine ⟨fun hall => ?_, ?_, ?_⟩
  · rw [copied_concat, if_neg hs] at hall
    rw [hplace, hout]
    exact h.position hall
  · rw [ofKind_concat_ne (fun hk => hs (.inl hk)), hout, hcode]
    simpa using h.code.append hun []
  · rw [ofKind_concat_ne (fun hk => hs (.inr hk)), hout, hdata]
    simpa using h.data.append hun []

theorem Done.step (h : Done fdIn done c) (hc : convertSection fdIn c s = .ok c')
    (hu : Uninit c.noffH.uninitData u) : Done fdIn (done ++ [s]) c' := by
  have hun : Unshifted (done ++ [s]) → Unshifted done := Unshifted.of_concat
  cases hk : s.kind with
  | empty =>
    simp only [convertSection, hk] at hc
    cases hc
    exact h.skip (by simp [hk]) rfl rfl rfl rfl
  | text =>
    simp only [convertSection, hk] at hc
    obtain ⟨buffer, src, hcopy⟩ := copies_of_copy hc
    have hstored := hcopy.stored (h.placed (.inl hk))
    refine ⟨h.position_copied (.inl hk) hcopy, ?_, ?_⟩
    · rw [ofKind_concat_self hk, hcopy.header]
      exact hstored.filed
    · rw [ofKind_concat_ne (by simp [hk]), hcopy.header, hcopy.out]
      exact h.data.append hun buffer
  | data =>
    simp only [convertSection, hk] at hc
    split at hc
    · cases hc
    obtain ⟨buffer, src, hcopy⟩ := copies_of_copy hc
    have hstored := hcopy.stored (h.placed (.inr hk))
    refine ⟨h.position_copied (.inr hk) hcopy, ?_, ?_⟩
    · rw [ofKind_concat_ne (by simp [hk]), hcopy.header, hcopy.out]
      exact h.code.append hun buffer
    · rw [ofKind_concat_self hk, hcopy.header]
      exact hstored.filed
  | bss =>
    obtain ⟨⟨e, he⟩, -⟩ | ⟨seg, u', hok, -⟩ := convertSection_bss hk hu
    · rw [hc] at he
      cases he
    · rw [hc] at hok
      cases hok
      exact h.skip (by simp [hk]) rfl rfl rfl rfl
  | unknown =>
    simp only [convertSection, hk] at hc
    cases hc

end

/-! ## All sections -/

section
variable {stack : NoffHeader} {fdIn : List Byte} {pos : Nat} {c : Noff} {l : List ScnHdr}

theorem convert_concat (s : ScnHdr) :
    convert stack fdIn pos (l ++ [s]) =
      (convert stack fdIn pos l).bind (convertSection fdIn · s) := by
  unfold convert
  rw [List.foldlM_append]
  simp only [List.foldlM_cons, List.foldlM_nil, bind_pure]
  rfl

def Splits (r r₀ : Except String Noff) (m : Option (Word × Word)) : Prop :=
  (∃ e, r = .error e) ∧ ((∃ e, r₀ = .error e) ∨ m = none) ∨
  ∃ c₀ seg u, r₀ = .ok c₀ ∧ m = some u ∧ r = .ok (c₀.withUninit seg) ∧ Uninit seg u

theorem convert_splits :
    Splits (convert stack fdIn pos l) (convert stack fdIn pos (others l)) (merged l) := by
  induction l using List.reverseRecOn with
  | nil =>
    refine .inr ⟨_, { stack.uninitData with size := 0 }, _, rfl, rfl, rfl, rfl, fun h0 => ?_⟩
    exact absurd rfl h0
  | append_singleton l s ih =>
    rw [convert_concat, others_concat, merged_concat]
    by_cases hs : s.kind = .bss
    · rw [if_pos hs, if_pos hs]
      obtain ⟨⟨e, he⟩, hfail⟩ | ⟨c₀, seg, u, hc₀, hu, hc, huninit⟩ := ih
      · rw [he]
        refine .inl ⟨⟨e, rfl⟩, hfail.imp_right fun hnone => ?_⟩
        rw [hnone]
        rfl
      · have huninit' : Uninit (c₀.withUninit seg).noffH.uninitData u := huninit
        rw [hc, hu]
        obtain ⟨⟨e, he⟩, hnone⟩ | ⟨seg', u', hok, hsome, hnew⟩ :=
          @convertSection_bss fdIn _ s u hs huninit'
        · exact .inl ⟨⟨e, he⟩, .inr hnone⟩
        · exact .inr ⟨c₀, seg', u', hc₀, hsome, hok, hnew⟩
    · rw [if_neg hs, if_neg hs, convert_concat]
      obtain ⟨⟨e, he⟩, ⟨e₀, he₀⟩ | hnone⟩ | ⟨c₀, seg, u, hc₀, hu, hc, huninit⟩ := ih
      · rw [he, he₀]
        exact .inl ⟨⟨e, rfl⟩, .inl ⟨e₀, rfl⟩⟩
      · rw [he]
        exact .inl ⟨⟨e, rfl⟩, .inr hnone⟩
      · rw [hc, hc₀, hu]
        change Splits (convertSection fdIn (c₀.withUninit seg) s) (convertSection fdIn c₀ s) _
        rw [convertSection_withUninit hs]
        cases hnext : convertSection fdIn c₀ s with
        | error e => exact .inl ⟨⟨e, rfl⟩, .inl ⟨e, rfl⟩⟩
        | ok c₁ => exact .inr ⟨c₁, seg, u, rfl, rfl, rfl, huninit⟩

theorem convert_uninit (h : convert stack fdIn pos l = .ok c) :
    ∃ u, merged l = some u ∧ Uninit c.noffH.uninitData u := by
  obtain ⟨⟨e, he⟩, -⟩ | ⟨c₀, seg, u, -, hu, hc, huninit⟩ := @convert_splits stack fdIn pos l
  · rw [h] at he
    cases he
  · rw [h] at hc
    cases hc
    exact ⟨u, hu, huninit⟩

/-- The sections of uninitialised data can only fail among themselves. -/
theorem convert_isOk_iff :
    (convert stack fdIn pos l).isOk ↔
      (convert stack fdIn pos (others l)).isOk ∧ (merged l).isSome := by
  obtain ⟨⟨e, he⟩, ⟨e₀, he₀⟩ | hnone⟩ | ⟨c₀, seg, u, hc₀, hu, hc, -⟩ :=
    @convert_splits stack fdIn pos l
  · rw [he, he₀]
    exact iff_of_false (fun h => by cases h) (fun h => by cases h.1)
  · rw [he, hnone]
    exact iff_of_false (fun h => by cases h) (fun h => by cases h.2)
  · rw [hc, hc₀, hu]
    exact iff_of_true rfl ⟨rfl, rfl⟩

theorem convert_done (h : convert stack fdIn pos l = .ok c) : Done fdIn l c := by
  induction l using List.reverseRecOn generalizing c with
  | nil =>
    cases h
    exact done_start stack fdIn pos
  | append_singleton l s ih =>
    rw [convert_concat] at h
    cases hc : convert stack fdIn pos l with
    | error e =>
      rw [hc] at h
      cases h
    | ok c₀ =>
      rw [hc] at h
      obtain ⟨u, -, huninit⟩ := convert_uninit hc
      exact (ih hc).step h huninit

end

/-! ## The segments -/

section
variable {fdIn : List Byte} {c : Noff} {l : List ScnHdr} {s t : ScnHdr} {seg : Segment}
  {placed : Prop} {a : Word}

theorem length_headerBytes (noffH : NoffHeader) : (headerBytes noffH).length = 40 := by
  rw [headerBytes, length_bytesOfWords]
  rfl

theorem Stored.covers_iff (h : Stored fdIn c.out seg t placed) : Covers seg a ↔ t.Has a := by
  unfold Covers ScnHdr.Has
  rw [h.virtualAddr, h.size, BitVec.ofInt_toInt]

theorem sScnptr_nonneg {b : Byte} (h : t.byteAt fdIn a = some b) : 0 ≤ t.sScnptr.toInt := by
  by_contra hneg
  rw [ScnHdr.byteAt, if_neg hneg] at h
  cases h

theorem Stored.fileByte_eq (h : Stored fdIn c.out seg t placed) (hplaced : placed) (ha : t.Has a)
    {b : Byte} (hb : t.byteAt fdIn a = some b) : fileByte seg c.file a = some b := by
  obtain ⟨off, src, hsrc, hoff, hbytes⟩ := h.bytes
  have hptr := sScnptr_nonneg hb
  unfold ScnHdr.Has at ha
  rw [ScnHdr.byteAt, if_pos hptr, ← hsrc hptr] at hb
  obtain ⟨b', hout, hin⟩ := hbytes (a - t.sPaddr).toNat ha
  rw [hb] at hin
  cases hin
  have hp : seg.inFileAddr + (a - .ofInt 32 seg.virtualAddr).toNat =
      ((40 + (off + (a - t.sPaddr).toNat) : Nat) : Int) := by
    rw [hoff hplaced (by omega), h.virtualAddr, BitVec.ofInt_toInt]
    push_cast
    omega
  unfold fileByte
  simp only [hp]
  rw [if_pos (Int.natCast_nonneg _), Int.toNat_natCast, Noff.file,
    List.getElem?_append_right (by rw [length_headerBytes]; omega), length_headerBytes,
    Nat.add_sub_cancel_left]
  exact hout

theorem Filed.storedIn_iff (h : Filed fdIn c.out seg l placed) (hplaced : placed) :
    (∀ s ∈ l, s.StoredIn fdIn c.file seg) ↔ Agree fdIn l := by
  constructor
  · intro hall t ht s hs a ha
    have hstored := h.last t ht
    obtain ⟨hcov, b, hb, hfile⟩ := hall s hs a ha
    have hta := hstored.covers_iff.mp hcov
    -- the last section has the byte too, and it is at the same place
    obtain ⟨-, b', hb', -⟩ := hall t (List.mem_of_getLast? ht) a hta
    have hfile' := hstored.fileByte_eq hplaced hta hb'
    rw [hfile] at hfile'
    cases hfile'
    exact ⟨hta, b, hb', hb⟩
  · intro hagree s hs a ha
    have ht := List.getLast?_eq_some_getLast (List.ne_nil_of_mem hs)
    have hstored := h.last _ ht
    obtain ⟨hta, b, hb', hb⟩ := hagree _ ht s hs a ha
    exact ⟨hstored.covers_iff.mpr hta, b, hb, hstored.fileByte_eq hplaced hta hb'⟩

theorem Filed.has (h : Filed fdIn c.out seg l placed) (hcov : Covers seg a) : ∃ s ∈ l, s.Has a := by
  have hne : l ≠ [] := by
    intro hnil
    unfold Covers at hcov
    have := h.none hnil
    omega
  exact ⟨_, List.getLast_mem hne,
    (h.last _ (List.getLast?_eq_some_getLast hne)).covers_iff.mp hcov⟩

theorem exists_ofKind_iff {k : SectionKind} {P : ScnHdr → Prop} :
    (∃ s ∈ ofKind k l, P s) ↔ ∃ s ∈ l, s.kind = k ∧ P s := by
  simp only [mem_ofKind, and_assoc]

theorem forall_ofKind_iff {k : SectionKind} {P : ScnHdr → Prop} :
    (∀ s ∈ ofKind k l, P s) ↔ ∀ s ∈ l, s.kind = k → P s := by
  simp only [mem_ofKind, and_imp]

theorem Uninit.covers_iff {u : Word × Word} (h : Uninit seg u) :
    Covers seg a ↔ ((a - u.1).toNat : Int) < u.2.toInt := by
  unfold Covers
  rw [h.1]
  by_cases h0 : u.2 = 0
  · rw [h0]
    exact iff_of_false (Int.not_lt.mpr (Int.natCast_nonneg _))
      (Int.not_lt.mpr (Int.natCast_nonneg _))
  · rw [h.2 h0, BitVec.ofInt_toInt]

theorem bss_iff {stack : NoffHeader} {pos : Nat} {u : Word × Word}
    (hc : convert stack fdIn pos l = .ok c) (hu : merged l = some u) :
    (∀ a, Covers c.noffH.uninitData a ↔ ∃ s ∈ l, s.kind = .bss ∧ s.Has a) ↔
      ∀ a, ((a - u.1).toNat : Int) < u.2.toInt ↔ ∃ s ∈ ofKind .bss l, s.Has a := by
  obtain ⟨u', hu', huninit⟩ := convert_uninit hc
  rw [hu] at hu'
  cases hu'
  refine forall_congr' fun a => ?_
  rw [huninit.covers_iff, exists_ofKind_iff]

theorem bytes_iff {stack : NoffHeader} {pos : Nat} (hc : convert stack fdIn pos l = .ok c)
    (hun : Unshifted l) :
    ((∀ s ∈ l, s.kind = .text → s.StoredIn fdIn c.file c.noffH.code) ∧
      ∀ s ∈ l, s.kind = .data → s.StoredIn fdIn c.file c.noffH.initData) ↔ BytesFit fdIn l := by
  have h := convert_done hc
  unfold BytesFit
  rw [← h.code.storedIn_iff hun, ← h.data.storedIn_iff hun, forall_ofKind_iff, forall_ofKind_iff]

end

/-! ## The converter -/

section
variable {stack : NoffHeader} {fdIn : List Byte} {sections : List ScnHdr}

theorem coff2noff_eq_convert (h : sectionHeaders fdIn = .ok sections) :
    coff2noff stack fdIn = convert stack fdIn (headersEnd sections) sections := by
  unfold coff2noff
  rw [h]
  rfl

theorem agree_singleton {s : ScnHdr} (hptr : 0 ≤ s.sScnptr.toInt)
    (hlen : s.sScnptr.toNat + s.sSize.toInt ≤ fdIn.length) : Agree fdIn [s] := by
  intro t ht x hx a ha
  cases ht
  rw [List.mem_singleton.mp hx] at ha ⊢
  have hlt : s.sScnptr.toNat + (a - s.sPaddr).toNat < fdIn.length := by
    unfold ScnHdr.Has at ha
    omega
  have hbyte : s.byteAt fdIn a = some (fdIn[s.sScnptr.toNat + (a - s.sPaddr).toNat]) := by
    rw [ScnHdr.byteAt, if_pos hptr, List.getElem?_eq_getElem hlt]
  exact ⟨ha, _, hbyte, hbyte⟩

theorem bssFits_of_length_le_one (h : (ofKind .bss sections).length ≤ 1) : BssFits sections := by
  unfold BssFits merged HasBoth uninit
  rcases hb : ofKind .bss sections with _ | ⟨s, _ | ⟨s', rest⟩⟩
  · refine ⟨fun hnone => ?_, fun u hu => ⟨fun _ => trivial, fun a => ?_⟩⟩
    · cases hnone
    · cases hu
      exact iff_of_false (Int.not_lt.mpr (Int.natCast_nonneg _)) (by simp)
  · refine ⟨fun hnone => ?_, fun u hu => ⟨fun _ => ?_, fun a => ?_⟩⟩
    · cases hnone
    · rw [List.filter_singleton]
      cases decide (0 < s.sSize.toInt) with
      | false => trivial
      | true => trivial
    · cases hu
      simp only [List.mem_singleton, exists_eq_left]
      exact Iff.rfl
  · rw [hb] at h
    simp at h

theorem coff2noff_isOk (h : sectionHeaders fdIn = .ok sections)
    (hothers : (convert stack fdIn (headersEnd sections) (others sections)).isOk) :
    (coff2noff stack fdIn).isOk = (merged sections).isSome := by
  rw [coff2noff_eq_convert h, Bool.eq_iff_iff, convert_isOk_iff, and_iff_right hothers]

theorem refused_iff_of_fits (h : sectionHeaders fdIn = .ok sections)
    (hothers : (convert stack fdIn (headersEnd sections) (others sections)).isOk)
    (hboth : HasBoth sections) (hfits : BssFits sections) :
    (coff2noff stack fdIn).isOk = false ↔ ¬ Contiguous (uninit sections) := by
  rw [coff2noff_isOk h hothers]
  cases hm : merged sections with
  | none => exact iff_of_true rfl (hfits.1 hm hboth)
  | some u => exact iff_of_false (by simp) (not_not.mpr ((hfits.2 u hm).1 hboth))

theorem Right.fits (hright : Right stack fdIn) (h : sectionHeaders fdIn = .ok sections)
    (hothers : (convert stack fdIn (headersEnd sections) (others sections)).isOk) :
    BssFits sections ∧
      ((merged sections).isSome → Unshifted sections → BytesFit fdIn sections) := by
  obtain ⟨hpres, hrefused⟩ := hright sections h
  have hisOk := coff2noff_isOk h hothers
  rw [coff2noff_eq_convert h] at hisOk hpres hrefused
  have hconv : ∀ u, merged sections = some u →
      ∃ c, convert stack fdIn (headersEnd sections) sections = .ok c := by
    intro u hu
    rw [hu] at hisOk
    cases hc : convert stack fdIn (headersEnd sections) sections with
    | error e =>
      rw [hc] at hisOk
      cases hisOk
    | ok c => exact ⟨c, rfl⟩
  refine ⟨⟨fun hnone hboth => ?_, fun u hu => ⟨fun hboth => ?_, ?_⟩⟩, fun hsome hun => ?_⟩
  · refine (hrefused hboth hothers).mp ?_
    rw [hisOk, hnone]
    rfl
  · by_contra hcont
    have hrefuse := (hrefused hboth hothers).mpr hcont
    rw [hisOk, hu] at hrefuse
    cases hrefuse
  · obtain ⟨c, hc⟩ := hconv u hu
    exact (bss_iff hc hu).mp (hpres c hc).bss
  · obtain ⟨u, hu⟩ := Option.isSome_iff_exists.mp hsome
    obtain ⟨c, hc⟩ := hconv u hu
    exact (bytes_iff hc hun).mp ⟨(hpres c hc).text, (hpres c hc).data⟩

end

def nameBytes (name : String) : List Byte :=
  (name.toList.map fun c : Char => BitVec.ofNat 8 c.toNat) ++ List.replicate (8 - name.length) 0

def scnHdrBytes (s : ScnHdr) : List Byte :=
  s.sName ++ bytesOfWords [s.sPaddr, s.sPaddr, s.sSize, s.sScnptr, 0, 0, 0, 0]

def coffFile (sections : List ScnHdr) (raw : List Byte) : List Byte :=
  ([0x62, 0x01, .ofNat 8 sections.length] ++ List.replicate 17 0) ++
    ([0x07, 0x01] ++ List.replicate 54 0) ++ sections.flatMap scnHdrBytes ++ raw

def clearedHeader : NoffHeader := ⟨0, ⟨0, 0, 0⟩, ⟨0, 0, 0⟩, ⟨0, 0, 0⟩⟩

def smallSections : List ScnHdr :=
  [⟨nameBytes ".text", 0, 4, 156⟩, ⟨nameBytes ".bss", 128, 8, 0⟩]

def bssSections (sbss : Word) : List ScnHdr :=
  [⟨nameBytes ".bss", 0, 16, 0⟩, ⟨nameBytes ".sbss", sbss, 16, 0⟩]

/-- A section of size -1 is copied without a byte and moves what comes behind it. -/
example :
    let sections : List ScnHdr := [⟨nameBytes ".data", 0, -1, 0⟩, ⟨nameBytes ".text", 0, 2, 156⟩]
    ((coff2noff clearedHeader (coffFile sections [1, 2])).toOption.map
      fun c => (c.noffH.code.inFileAddr, c.out)) = some (39, [1, 2]) := by
  decide +kernel

end Coff
end Nachos
