import Nachos.FileSys.FormatSpec
import Nachos.FileSys.WriteSpec

/-! A file that is written chunk by chunk and read back: the calls of `FileWrite` and `FileRead`
in `fstest.cc`, for any chunks and any sizes. -/

namespace Nachos
open Lib Program FileSystem

def writeAll (f : Handle) : List (List Byte) → Prog (List Int)
  | [] => pure []
  | c :: cs => do
    let result ← OpenFile.write f c
    return result :: (← writeAll f cs)

/-- What the calls of `Read` with these sizes give until one returns 0, and whether one does. -/
def readAll (f : Handle) : List Int → Prog (List Byte × Bool)
  | [] => pure ([], false)
  | k :: ks => do
    let bytes ← OpenFile.read f k
    if bytes.length = 0 then return ([], true)
    else
      let (rest, finished) ← readAll f ks
      return (bytes ++ rest, finished)

def roundTrip (fs : FileSystem) (name : CString) (initialSize : Int) (chunks : List (List Byte))
    (sizes : List Int) : Prog (Bool × List Int × List Byte × Bool) := do
  let created ← create fs name initialSize 0
  let f ← FileSystem.open name
  let counts ← writeAll f chunks
  let f ← FileSystem.open name
  let (bytes, finished) ← readAll f sizes
  return (created, counts, bytes, finished)

/-- The file was created, every `Write` returned its chunk's length, and the bytes read are the
chunks in order; with more sizes than bytes, some `Read` has returned 0. -/
structure RoundTrips (chunks : List (List Byte)) (sizes : List Int)
    (r : Bool × List Int × List Byte × Bool) :
    Prop where
  created : r.1 = true
  counts : r.2.1 = chunks.map fun c => (c.length : Int)
  bytes : r.2.2.2 = true → r.2.2.1 = chunks.flatten
  finished : chunks.flatten.length < sizes.length → r.2.2.2 = true

/-! ## Which writes take new sectors -/

/-- How many of the writes take new sectors, when chunks of these lengths are written from `pos`
on to a file of `length` bytes in `sectors` sectors. -/
def growths (length sectors pos : Nat) : List Nat → Nat
  | [] => 0
  | k :: ks =>
    if pos + k ≤ 128 * sectors then growths (max length (pos + k)) sectors (pos + k) ks
    else growths (pos + k) (sectors + (pos + k - length + 127) / 128) (pos + k) ks + 1

def grownSectors (length sectors pos : Nat) : List Nat → Nat
  | [] => sectors
  | k :: ks =>
    if pos + k ≤ 128 * sectors then grownSectors (max length (pos + k)) sectors (pos + k) ks
    else grownSectors (pos + k) (sectors + (pos + k - length + 127) / 128) (pos + k) ks

theorem grownSectors_of_growths_zero {length sectors pos : Nat} {ks : List Nat}
    (h : growths length sectors pos ks = 0) : grownSectors length sectors pos ks = sectors := by
  induction ks generalizing length pos with
  | nil => rfl
  | cons k ks ih =>
    rw [growths] at h
    rw [grownSectors]
    split at h
    · next hk =>
      rw [if_pos hk]
      exact ih h
    · cases h

theorem le_grownSectors (length sectors pos : Nat) (ks : List Nat) :
    sectors ≤ grownSectors length sectors pos ks := by
  induction ks generalizing length sectors pos with
  | nil => exact le_rfl
  | cons k ks ih =>
    rw [grownSectors]
    split
    · exact ih ..
    · exact (Nat.le_add_right ..).trans (ih ..)

/-! ## Writing -/

variable {s s' : Kernel} {v : Volume} {name : CString} {p : Place} {i : Nat} {n : FileNode}
  {f : Handle}
  {w c : List Byte}

/-- The file at a path is open at the end of the bytes `w`, with which it begins. -/
structure Writing (s : Kernel) (v : Volume) (name : CString) (p : Place) (i : Nat) (n : FileNode)
    (f : Handle)
    (w : List Byte) : Prop where
  rep : Rep s v
  binds : v.Binds name p i n
  fileType : n.fileType = 0
  openOn : s.OpenOn f n.hdr
  seek : (s.files f).seekPosition = w.length
  nonneg : 0 ≤ n.length
  full : n.numSectors = n.data.length
  content : n.content.take w.length = w

theorem Writing.length_le (h : Writing s v name p i n f w) : w.length ≤ n.length.toNat := by
  have := congrArg List.length h.content
  rw [List.length_take, n.size] at this
  omega

theorem take_splice {a : List Byte} {k : Nat} (h : k ≤ a.length) (b : List Byte) :
    (splice a k b).take (k + b.length) = a.take k ++ b := by
  rw [splice, List.append_assoc, ← List.append_assoc]
  have hl : (a.take k ++ b).length = k + b.length := by
    rw [List.length_append, List.length_take]
    omega
  rw [← hl, List.take_left]

theorem Writing.step (h : Writing s v name p i n f w) {n' : FileNode} {c₀ : List Byte}
    (hrep : v.Replaces (p ++ [i]) n n') (hr : Rep s' (v.replace (p ++ [i]) n n' hrep))
    (hst : Steady s s')
    (hfull : n'.numSectors = n'.data.length)
    (hlen : n'.length = max n.length (w.length + c.length : Nat))
    (hc₀ : c₀.length = n'.length.toNat) (htake : c₀.take n.length.toNat = n.content)
    (hcontent : n'.content = splice c₀ w.length c) :
    Writing (s'.setFile f { s'.files f with
        seekPosition := int32 ((s'.files f).seekPosition + c.length) })
          (v.replace (p ++ [i]) n n' hrep)
      name p i n' f (w ++ c) := by
  have hle := h.length_le
  have hmax := n'.length_le
  have hseek : (s'.files f).seekPosition = w.length := (hst.seek f h.openOn.1).trans h.seek
  have ho := hst.openOn h.openOn
  refine ⟨hr.setFile .., h.binds.replace hrep, hrep.kind.trans h.fileType,
    ⟨ho.1, ?_⟩, ?_, by omega, hfull, ?_⟩
  · simp only [Kernel.setFile_files, Function.update_self]
    rw [ho.2, hrep.hdr]
  · simp only [Kernel.setFile_files, Function.update_self, hseek, List.length_append]
    rw [int32_of_range (by omega) (by omega)]
    push_cast
    rfl
  · have hw := h.content
    rw [← htake, List.take_take, Nat.min_eq_left hle] at hw
    rw [List.length_append, hcontent, take_splice (by omega), hw]

theorem wp_write_within (h : Writing s v name p i n f w) (hc : c ≠ [])
    (hroom : w.length + c.length ≤ 128 * n.data.length) {Q : Int → Kernel → Prop}
    (hQ : ∀ s' v' n', Writing s' v' name p i n' f (w ++ c) → v'.map = v.map →
      (v.Marks ∅ → v'.Marks ∅) →
      n'.length = max n.length (w.length + c.length : Nat) → n'.sectors.length = n.sectors.length →
      n'.data.length = n.data.length → Q c.length s') :
    Wp (OpenFile.write f c) Q s := by
  have hk : 0 < c.length := List.length_pos_iff.mpr hc
  simp only [OpenFile.write, OpenFile.advance, wp_then, wp_getFile, wp_setFile, wp_pure, h.seek]
  refine h.rep.wp_writeAt_within h.binds.node h.fileType h.openOn hk (by rw [h.full]; omega)
    fun s' n' hrep hr hst hs hnum _ hlen hcontent => ?_
  obtain ⟨c₀, hc₀, htake, hcontent⟩ := hcontent
  have hdata : n'.data.length = n.data.length := by rw [n'.count, hnum, ← n.count]
  have hfull : n'.numSectors = n'.data.length := by rw [hnum, hdata, h.full]
  exact hQ _ _ n' (h.step hrep hr hst hfull hlen hc₀ htake hcontent) rfl
    (fun hmk => hmk.replace hrep hs) hlen (by rw [hs]) hdata

theorem wp_write_alloc {extra : Nat} {L rest : List Nat} (h : Writing s v name p i n f w)
    (hmk : v.Marks ∅) (hc : c ≠ []) (hroom : 128 * n.data.length < w.length + c.length)
    (hextra : extra = (w.length + c.length - n.length.toNat + 127) / 128)
    (h25 : tablesFor (n.data.length + extra) ≤ 25) (hf : v.map.free = L ++ rest)
    (hL : L.length = extra + (tablesFor (n.data.length + extra) - n.index.length))
    {Q : Int → Kernel → Prop}
    (hQ : ∀ s' v' n', Writing s' v' name p i n' f (w ++ c) → v'.map = v.map → n.TookIn n' L →
      n'.length = (w.length + c.length : Nat) → n'.data.length = n.data.length + extra →
      Q c.length s') :
    Wp (OpenFile.write f c) Q s := by
  have hk : 0 < c.length := List.length_pos_iff.mpr hc
  have hpos := h.nonneg
  have hnroom := n.room
  have hcap : n.data.length + extra ≤ 800 := by
    rw [tablesFor] at h25
    omega
  have hextra' : (extra : Int) = divRoundUp ((w.length + c.length : Nat) - n.length) 128 := by
    rw [divRoundUp_of_nonneg (by omega)]
    split <;> omega
  simp only [OpenFile.write, OpenFile.advance, wp_then, wp_getFile, wp_setFile, wp_pure, h.seek]
  refine h.rep.wp_writeAt_alloc hmk h.binds.node h.fileType h.openOn hpos h.full hroom (by omega) hk
    hextra' h25
    hf hL fun s' n' hrep hr hst htook hnum _ hlen hcontent => ?_
  obtain ⟨c₀, hc₀, htake, hcontent⟩ := hcontent
  have hdata : n'.data.length = n.data.length + extra := by rw [n'.count, hnum, h.full]; omega
  have hfull : n'.numSectors = n'.data.length := by rw [hnum, hdata, h.full]; omega
  have hmax : n'.length = max n.length (w.length + c.length : Nat) := by omega
  exact hQ _ _ n' (h.step hrep hr hst hfull hmax (by omega) htake hcontent) rfl htook hlen
    hdata

theorem wp_writeAll_within {cs : List (List Byte)} (h : Writing s v name p i n f w)
    (hcs : ∀ c ∈ cs, c ≠ [])
    (hg : growths n.length.toNat n.data.length w.length (cs.map List.length) = 0)
    {Q : List Int → Kernel → Prop}
    (hQ : ∀ s' v' n', Writing s' v' name p i n' f (w ++ cs.flatten) →
      n'.length = max n.length (w ++ cs.flatten).length → Q (cs.map fun c => (c.length : Int)) s') :
    Wp (writeAll f cs) Q s := by
  induction cs generalizing s v n w Q with
  | nil =>
    have hle := h.length_le
    have hpos := h.nonneg
    rw [writeAll, wp_pure]
    refine hQ s v n (by rwa [List.flatten_nil, List.append_nil]) ?_
    rw [List.flatten_nil, List.append_nil]
    omega
  | cons c cs ih =>
    have hpos := h.nonneg
    rw [List.map_cons, growths] at hg
    split at hg
    · next hroom =>
      simp only [writeAll, wp_then, wp_pure]
      refine wp_write_within h (hcs c (List.mem_cons_self ..)) hroom
        fun s₁ v₁ n₁ h₁ _ _ hlen _ hdata => ?_
      have hlen' : n₁.length.toNat = max n.length.toNat (w.length + c.length) := by omega
      refine ih h₁ (fun c' hc' => hcs c' (List.mem_cons_of_mem _ hc')) ?_
        fun s₂ v₂ n₂ h₂ hlen₂ => ?_
      · rw [hlen', hdata, List.length_append]
        exact hg
      · rw [List.append_assoc, ← List.flatten_cons] at h₂ hlen₂
        refine hQ s₂ v₂ n₂ h₂ ?_
        rw [hlen₂, hlen]
        simp only [List.length_append, List.flatten_cons]
        omega
    · cases hg

theorem wp_writeAll (total : Nat) {cs : List (List Byte)} (h : Writing s v name p i n f w)
    (hmk : v.Marks ∅)
    (hcs : ∀ c ∈ cs, c ≠ [])
    (hg : growths n.length.toNat n.data.length w.length (cs.map List.length) ≤ 1)
    (htotal : total = grownSectors n.length.toNat n.data.length w.length (cs.map List.length))
    (h25 : tablesFor total ≤ 25) (hspace : 1 + total + tablesFor total ≤ n.sectors.length +
      v.map.free.length)
    {Q : List Int → Kernel → Prop}
    (hQ : ∀ s' v' n', Writing s' v' name p i n' f (w ++ cs.flatten) →
      n'.length = max n.length (w ++ cs.flatten).length → Q (cs.map fun c => (c.length : Int)) s') :
    Wp (writeAll f cs) Q s := by
  induction cs generalizing s v n w Q with
  | nil =>
    exact wp_writeAll_within h hcs rfl hQ
  | cons c cs ih =>
    have hpos := h.nonneg
    have hc := hcs c (List.mem_cons_self ..)
    have hcs' : ∀ c' ∈ cs, c' ≠ [] := fun c' hc' => hcs c' (List.mem_cons_of_mem _ hc')
    -- what the calls on the other chunks leave
    have hlast : ∀ s₂ v₂ n₂, Writing s₂ v₂ name p i n₂ f ((w ++ c) ++ cs.flatten) →
        n₂.length = max (max n.length (w.length + c.length : Nat)) ((w ++ c) ++ cs.flatten).length →
        Q ((c :: cs).map fun c => (c.length : Int)) s₂ := fun s₂ v₂ n₂ h₂ hlen₂ => by
      rw [List.append_assoc, ← List.flatten_cons] at h₂ hlen₂
      refine hQ s₂ v₂ n₂ h₂ ?_
      rw [hlen₂]
      simp only [List.length_append, List.flatten_cons]
      omega
    rw [List.map_cons, growths] at hg
    rw [List.map_cons, grownSectors] at htotal
    simp only [writeAll, wp_then, wp_pure]
    by_cases hroom : w.length + c.length ≤ 128 * n.data.length
    · rw [if_pos hroom] at hg htotal
      refine wp_write_within h hc hroom fun s₁ v₁ n₁ h₁ hmap hmk₁ hlen hsec hdata => ?_
      have hlen' : n₁.length.toNat = max n.length.toNat (w.length + c.length) := by omega
      refine ih h₁ (hmk₁ hmk) hcs' ?_ ?_ (by rw [hsec, hmap]; exact hspace) fun s₂ v₂ n₂ h₂ hlen₂ =>
        hlast s₂ v₂ n₂ h₂ (hlen ▸ hlen₂)
      · rwa [hlen', hdata, List.length_append]
      · rwa [hlen', hdata, List.length_append]
    · rw [if_neg hroom] at hg htotal
      have hg₀ := Nat.le_zero.mp (Nat.le_of_succ_le_succ hg)
      have hsectors := grownSectors_of_growths_zero hg₀
      rw [hsectors] at htotal
      have htab := n.tables
      have hns : n.sectors.length = 1 + n.index.length + n.data.length := by
        rw [FileNode.sectors, List.length_cons, List.length_append]
        omega
      set extra := (w.length + c.length - n.length.toNat + 127) / 128 with hextra
      have hmono : n.index.length ≤ tablesFor (n.data.length + extra) := by
        rw [htab, tablesFor]
        omega
      rw [htotal] at h25 hspace
      refine wp_write_alloc h hmk hc (by omega) hextra h25 (List.take_append_drop
        (extra + (tablesFor (n.data.length + extra) - n.index.length)) _).symm ?_
          fun s₁ v₁ n₁ h₁ _ _ hlen hdata => ?_
      · rw [List.length_take]
        omega
      · have hlen' : n₁.length.toNat = w.length + c.length := by omega
        refine wp_writeAll_within h₁ hcs' ?_ fun s₂ v₂ n₂ h₂ hlen₂ => hlast s₂ v₂ n₂ h₂ ?_
        · rwa [hlen', hdata, List.length_append]
        · rw [hlen₂, hlen]
          have := n.room
          omega

/-! ## Reading -/

/-- No `Read` adds its size to the position and gets more than an `int` holds. At the end of the
file it does not add them. -/
def ReadsFit (length pos : Nat) : List Int → Prop
  | [] => True
  | k :: ks =>
    pos < length → pos + k < 2147483648 ∧ ReadsFit length (min length (pos + k.toNat)) ks

theorem wp_readAll {q : Place} {sizes : List Int} {a : Nat} (hr : Rep s v) (hn : v.node q = some n)
    (ho : s.OpenOn f n.hdr) (hseek : (s.files f).seekPosition = a) (hpos : 0 ≤ n.length)
    (hsizes : ∀ k ∈ sizes, 0 < k) (hfit : ReadsFit n.content.length a sizes)
    (ha : a ≤ n.content.length)
    {Q : List Byte × Bool → Kernel → Prop}
    (hQ : ∀ r s', (r.2 = true → r.1 = n.content.drop a) → (n.content.length - a < sizes.length →
      r.2 = true) →
      Q r s') : Wp (readAll f sizes) Q s := by
  induction sizes generalizing s a Q with
  | nil =>
    rw [readAll, wp_pure]
    exact hQ _ s (by simp) (by simp)
  | cons k ks ih =>
    have hk := hsizes k (List.mem_cons_self ..)
    have hsize := n.size
    have hmax := n.length_le
    simp only [readAll, OpenFile.read, OpenFile.advance, wp_then, wp_getFile, wp_setFile,
      wp_pure, hseek]
    refine wp_readAt_of_fits hr.quiet (hr.on q n hn).holds ho
      (fun hlt => by have := (hfit (by omega)).1; omega) fun s₁ hs₁ => ?_
    have hl : ((n.content.drop a).take k.toNat).length = min k.toNat (n.content.length - a) := by
      rw [List.length_take, List.length_drop]
    by_cases hend : a = n.content.length
    · rw [if_pos (by omega), wp_pure]
      refine hQ _ _ (fun _ => ?_) fun _ => rfl
      rw [hend, List.drop_length]
    · rw [if_neg (by omega), wp_then]
      set b := (n.content.drop a).take k.toNat with hb
      have hseek₁ : (s₁.files f).seekPosition = a := (hs₁.seek f ho.1).trans hseek
      have ho₁ := hs₁.openOn ho
      refine ih (a := a + b.length) ((hr.steady hs₁.toSteady hs₁.disk).setFile ..) ⟨ho₁.1, ?_⟩ ?_
        (fun k' hk' => hsizes k' (List.mem_cons_of_mem _ hk')) ?_ (by omega) fun r s₂ h₁ h₂ => ?_
      · simpa only [Kernel.setFile_files, Function.update_self] using ho₁.2
      · simp only [Kernel.setFile_files, Function.update_self, hseek₁]
        rw [int32_of_range (by omega) (by omega)]
        push_cast
        rfl
      · have hnext : a + b.length = min n.content.length (a + k.toNat) := by omega
        rw [hnext]
        exact (hfit (by omega)).2
      · rw [wp_pure]
        refine hQ _ s₂ (fun hfin => ?_) fun hlt => h₂ (by rw [List.length_cons] at hlt; omega)
        change b ++ r.1 = _
        have hdrop : (n.content.drop a).drop b.length = (n.content.drop a).drop k.toNat := by
          by_cases hk' : k.toNat ≤ n.content.length - a
          · rw [hl, Nat.min_eq_left hk']
          · rw [hl, Nat.min_eq_right (by omega), List.drop_of_length_le (by rw [List.length_drop]),
              List.drop_of_length_le (by rw [List.length_drop]; omega)]
        rw [h₁ hfin, ← List.drop_drop, hdrop, hb, List.take_append_drop]

/-! ## The round trip -/

/-- A new file may be called `name`: its directory is at `p`, has no such name and has room. -/
structure Volume.NewName (v : Volume) (name : CString) (p : Place) : Prop where
  thru : v.ThroughDirs [] (dirComps (components name))
  parent : v.walk [] (dirComps (components name)) = some p
  unbound : v.child p (lastComp (components name)) = none
  slot : ∃ i < 10, v.node (p ++ [i]) = none
  heap : v.names.length + 1 < 2 ^ 32

/-- The bytes come back when at most one `Write` takes new sectors. -/
theorem roundTrip_of_growths {fs : FileSystem} {size : Nat} {chunks : List (List Byte)}
    {sizes : List Int}
    (hr : Rep s v) (hmk : v.Marks ∅) (hfs : s.OpenOn fs.freeMapFile 0) (hname : v.NewName name p)
    (hchunks : ∀ c ∈ chunks, c ≠ []) (hsize : size ≤ chunks.flatten.length)
    (hspace : 1 + grownSectors size ((size + 127) / 128) 0 (chunks.map List.length) +
      tablesFor (grownSectors size ((size + 127) / 128) 0 (chunks.map List.length)) ≤
        v.map.numClear)
    (hsizes : ∀ k ∈ sizes, 0 < k)
    (hgrow : growths size ((size + 127) / 128) 0 (chunks.map List.length) ≤ 1)
    (htables : tablesFor (grownSectors size ((size + 127) / 128) 0 (chunks.map List.length)) ≤ 25)
    (hreads : ReadsFit chunks.flatten.length 0 sizes) :
    Wp (roundTrip fs name size chunks sizes) (fun r _ => RoundTrips chunks sizes r) s := by
  have hle := le_grownSectors size ((size + 127) / 128) 0 (chunks.map List.length)
  set total := grownSectors size ((size + 127) / 128) 0 (chunks.map List.length) with htotal
  have htotal25 : total ≤ 800 := by
    rw [tablesFor] at htables
    omega
  have hround : divRoundUp (size : Int) 128 = ((size + 127) / 128 : Nat) := by
    rw [divRoundUp_of_nonneg (by omega)]
    split <;> omega
  have hcan : v.CanCreate p name size 0 := by
    refine ⟨hname.thru, hname.parent, .inl rfl, by omega, hname.heap, fun _ => ?_⟩
    rw [hround, Int.toNat_natCast]
    rw [tablesFor] at hspace htables ⊢
    omega
  simp only [roundTrip, wp_then, wp_pure]
  refine wp_create hr hmk hfs hcan (fun s₁ v₁ _ _ _ hno => ?_)
    fun s₁ v₁ i nf hr₁ hk₁ hcr hmk₁ hty _ h0 _ => ?_
  · exfalso
    rcases hno with ⟨i, hi⟩ | hfull | hzero | hfew
    · rw [hname.unbound] at hi
      cases hi
    · obtain ⟨i, hi, hnone⟩ := hname.slot
      exact hfull i hi hnone
    · omega
    · rw [hround] at hfew
      omega
  · obtain ⟨hlen, hnum⟩ := h0 rfl
    obtain ⟨L, hL, hfree⟩ := hcr.taken
    rw [hround] at hnum
    have hdata : nf.data.length = (size + 127) / 128 := by rw [nf.count, hnum, Int.toNat_natCast]
    refine wp_open_bound hr₁ (hcr.binds hname.parent) fun s₂ f hr₂ _ ho₂ _ hseek₂ _ => ?_
    have hrep := Volume.replaces_visits (hcr.binds hname.parent).node (nf.numVisits + 1)
    have hw : Writing s₂ _ name p i (nf.withVisits (nf.numVisits + 1)) f [] :=
      ⟨hr₂, (hcr.binds hname.parent).replace hrep, hty, ho₂, hseek₂,
        hlen.symm ▸ Int.natCast_nonneg size,
        hnum.trans (congrArg _ hdata.symm), rfl⟩
    have hsizes' : nf.length.toNat = size := by rw [hlen, Int.toNat_natCast]
    have hclear : v.map.numClear = nf.sectors.length + v₁.map.free.length := by
      rw [BitMap.numClear_eq, hfree, List.length_append, hL.length_eq]
    refine wp_writeAll total hw (hmk₁.replace hrep rfl) hchunks ?_ ?_ htables ?_
      fun s₃ v₃ n₃ hw₃ hlen₃ => ?_
    · change growths nf.length.toNat nf.data.length 0 _ ≤ 1
      rw [hsizes', hdata]
      exact hgrow
    · change total = grownSectors nf.length.toNat nf.data.length 0 _
      rw [hsizes', hdata]
    · rw [hclear] at hspace
      exact hspace
    · rw [List.nil_append] at hw₃ hlen₃
      have hlen₃' : n₃.length = chunks.flatten.length := by
        rw [hlen₃]
        change max nf.length _ = _
        omega
      have hbytes : n₃.content = chunks.flatten := by
        have hc := hw₃.content
        rwa [List.take_of_length_le (by rw [n₃.size]; omega)] at hc
      refine wp_open_bound hw₃.rep hw₃.binds fun s₄ g hr₄ _ ho₄ _ hseek₄ _ => ?_
      refine wp_readAll (n := n₃.withVisits (n₃.numVisits + 1)) hr₄
        (Function.update_self ..) ho₄ hseek₄
        hw₃.nonneg hsizes ?_ (Nat.zero_le _) fun r s₅ hfin hdone => ?_
      · change ReadsFit n₃.content.length 0 sizes
        rw [hbytes]
        exact hreads
      · change (r.2 = true → r.1 = n₃.content.drop 0) at hfin
        change (n₃.content.length - 0 < sizes.length → r.2 = true) at hdone
        rw [hbytes] at hfin hdone
        exact ⟨rfl, rfl, hfin, hdone⟩

/-- Two bytes in two chunks, with reads as large as an `int` allows. -/
theorem roundTrip_of_growths_formatted : Wp (do
    let fs ← FileSystem.format
    roundTrip fs ['a'] 0 [[1], [2]] [1, 2147483646, 2147483647])
    (fun r _ => RoundTrips [[1], [2]] [1, 2147483646, 2147483647] r) Kernel.zeroed := by
  rw [wp_then]
  refine wp_format Kernel.quiet_zeroed fun fs s v hr hst hmk hnode hfree hofs _ => ?_
  have hclear : v.map.numClear = 1018 := by
    rw [BitMap.numClear_eq, hfree, List.length_drop, List.length_range]
  have hname : v.NewName ['a'] [] := by
    refine ⟨trivial, rfl, ?_, ⟨0, by decide, hnode _ (by simp)⟩, ?_⟩
    · refine Option.eq_none_iff_forall_ne_some.mpr fun i hi => ?_
      obtain ⟨⟨m, hm⟩, -⟩ := Volume.child_eq_some.mp hi
      rw [hnode _ (by simp)] at hm
      cases hm
    · rw [← hr.names, hst.names]
      decide
  exact roundTrip_of_growths hr hmk hofs hname (by decide) (by decide)
    (by rw [hclear]; decide) (by decide) (by decide) (by decide) (by simp [ReadsFit])

/-! ## A second growth -/

theorem not_wp_writeAt_regrown {mf : FileNode} {m : BitMap} (h : Sited s f n mf m) {d x y z : Nat}
    {rest : List Nat} {src : List Byte} (hlen : n.length = 256) (hnum : n.numSectors = 3)
    (hdata : n.data = [d, x, y]) (hsrc : src.length = 384) (hf : m.free = [x, y, z] ++ rest)
    (hindex : ∀ t ∈ n.index, t ∉ m.free) (h0 : 0 ∉ m.free) {Q : Int → Kernel → Prop} :
    ¬ Wp (OpenFile.writeAt f src (256 : Nat)) Q s := by
  obtain ⟨s₁, hs, -, -, hwp⟩ := writeAt_fetched h.quiet h.on.holds h.openOn src (256 : Nat)
  have hsrc' : (src.length : Int) = 384 := by omega
  have hthree : n.data.length = 3 := by rw [hdata]; rfl
  rw [hwp, if_neg (by omega), wp_then]
  refine Wp.not ?_
  have hgt : int32 (((256 : Nat) : Int) + src.length) > n.length := by
    rw [hsrc', hlen]
    decide
  have hext : int32 ((src.length : Int) + (256 : Nat) - n.length) =
      int32 ((640 : Nat) - n.length) := by
    rw [hsrc', hlen]
    rfl
  have htables : n.index.length = 1 := by rw [n.tables, hthree]
  rw [OpenFile.makeRoom, if_pos hgt, hext]
  have hsub : ∀ t ∈ [x, y, z], t ∈ m.free := fun t ht => hf ▸ List.mem_append_left rest ht
  have hextra : ((3 : Nat) : Int) = divRoundUp ((640 : Nat) - n.length) 128 := by
    rw [hlen]
    rfl
  refine wp_extend_taken (h.fetched hs) (by omega) (by omega) (by omega) (by omega) hextra
    (by rw [hthree]; decide) hf ?_
    (fun t ht htL => hindex t ht (hsub t htL)) (fun h => h0 (hsub 0 h))
    fun s₂ index data hp hdl hidx hin ht => ?_
  · rw [hthree, htables]
    rfl
  have hnew : data = [x, y, z] := hin (by rw [hthree]; decide)
  have hone : index = [] := by
    have hl := hp.length_eq
    rw [List.length_append, hnew] at hl
    exact List.eq_nil_of_length_eq_zero (Nat.add_eq_right.mp hl)
  have hlists := ht.lists
  have hleads := ht.leads
  rw [hone, List.append_nil] at hlists hleads
  rw [hnew, hdata] at hleads
  rw [if_pos rfl]
  intro hw
  have hfirst : divRoundDown ((256 : Nat) : Int) 128 = 2 := by decide
  have hlast : divRoundDown (int32 (((256 : Nat) : Int) + (384 : Nat) - 1)) 128 = 4 := by decide
  have hblocks : sectorRange 2 4 = [2, 3, 4].map fun j : Nat => (j : Int) := by decide
  have hsize : int32 ((1 + 4 - 2) * 128) = (384 : Nat) := by decide
  have haligned : (((256 : Nat) : Int) == 2 * 128) = true := by decide
  have hend : (int32 (((256 : Nat) : Int) + (384 : Nat)) == int32 ((4 + 1) * 128)) = true := by
    decide
  have hoff : 0 ≤ ((256 : Nat) : Int) - 2 * 128 ∧
    ((256 : Nat) : Int) - 2 * 128 + (384 : Nat) ≤ (384 : Nat) := by decide
  simp only [OpenFile.writeRange, OpenFile.readPartial, hsrc, hfirst, hlast, hblocks, hsize,
    haligned, hend, Bool.not_true, Bool.false_and, Bool.false_eq_true, if_false, wp_then,
    wp_newChars, wp_pure, copyInto, length_newChars, if_pos hoff, wp_orFault_some,
    OpenFile.lockSectors] at hw
  have hq : s₂.Quiet := ht.steady.quiet ((h.fetched hs).quiet)
  rw [wp_arrP (by rw [Kernel.setDisk_arrayMutex, hq.arrayMutex]; decide)] at hw
  have hlt : ∀ t ∈ [d, x, y] ++ [x, y, z], t < 1024 := fun t ht' => by
    rcases List.mem_append.mp ht' with ht' | ht'
    · exact n.data_lt (hdata ▸ ht')
    · exact (BitMap.mem_free.mp (hsub t ht')).1.trans_eq h.mapFile.numBits
  have hb : List.Forall₂ (fun j t => ([d, x, y] ++ [x, y, z])[j]? = some t) [2, 3, 4] [y, x, y] :=
    .cons rfl (.cons rfl (.cons rfl .nil))
  refine absurd (nodup_of_wp_lockLoop hb hw (fun t ht' => n.index_lt ht') hlists ?_ hlt
    fun t ht' => (hq.mutex t ht').le).1 (by simp)
  refine hleads.congr fun t ht' => Function.update_of_ne (fun e : t = n.hdr => ?_) _ _
  exact n.hdr_not_mem_index (e ▸ ht')

theorem Writing.sited (h : Writing s v name p i n f w) : Sited s f n v.mapFile v.map :=
  ⟨h.rep.quiet, h.rep.on _ n h.binds.node, h.openOn, v.isMap, h.rep.map, v.mapApart _ n h.binds.node⟩

/-- The second `Write` waits for a mutex that it has: its growth has given the file the sectors
of the first growth again. -/
theorem not_wp_write_write (h : Writing s v name p i n f []) (hmk : v.Marks ∅) (hlen : n.length = 1)
    (hone : n.data.length = 1) {x y z : Nat} {rest : List Nat}
    (hf : v.map.free = [x, y, z] ++ rest) {c₁ c₂ : List Byte} (h₁ : c₁.length = 256)
    (h₂ : c₂.length = 384) {Q : Int → Int → Kernel → Prop} :
    ¬ Wp (OpenFile.write f c₁) (fun a => Wp (OpenFile.write f c₂) (Q a)) s := by
  obtain ⟨d, hd⟩ := List.length_eq_one_iff.mp hone
  have htab : n.index.length = 1 := by rw [n.tables, hone]
  have hf₁ : v.map.free = [x, y] ++ z :: rest := hf
  have hc₁ : c₁ ≠ [] := List.length_pos_iff.mp (by omega)
  have hextra : 2 = (([] : List Byte).length + c₁.length - n.length.toNat + 127) / 128 := by
    rw [hlen, h₁]
    rfl
  refine Wp.not (wp_write_alloc h hmk hc₁ (by simp only [List.length_nil]; omega) hextra
    (by rw [hone]; decide) hf₁ (by rw [hone, htab]; rfl) fun s₃ v₃ n₃ h₃ hmap htook hlen₃ hdata₃ => ?_)
  obtain ⟨hindex, hdata⟩ := htook.inTable (by rw [hone]; simp [lastRoom])
  rw [hd] at hdata
  simp only [OpenFile.write, wp_then, wp_getFile, h₃.seek, List.nil_append, h₁]
  have hfree : ∀ t ∈ v.map.free, ¬ v.Owned t := fun t ht => hmk.free_not_owned ht
  refine not_wp_writeAt_regrown h₃.sited (by rw [hlen₃, h₁]; rfl) ?_ hdata h₂ (hmap ▸ hf) ?_ ?_
  · rw [h₃.full, hdata]
    rfl
  · rw [hmap, hindex]
    intro t ht htf
    exact hfree t htf (.inr ⟨_, n, h.binds.node, List.mem_cons_of_mem _ (List.mem_append_left _ ht)⟩)
  · rw [hmap]
    exact fun h0 => hfree 0 h0 (.inl (v.isMap.hdr ▸ List.mem_cons_self ..))

theorem not_roundTrip_regrown : ¬ Wp (do
    let fs ← FileSystem.format
    roundTrip fs ['a'] 1 [List.replicate 256 7, List.replicate 384 8] [640, 1])
    (fun r _ => RoundTrips [List.replicate 256 7, List.replicate 384 8] [640, 1] r)
    Kernel.zeroed := by
  have h := wp_formatCreate ['a'] 1 Kernel.quiet_zeroed (by decide) (by decide) (by decide)
    (by decide) (Q := fun r s => ¬ Wp (do
      let f ← FileSystem.open ['a']
      let counts ← writeAll f [List.replicate 256 7, List.replicate 384 8]
      let f ← FileSystem.open ['a']
      let (bytes, finished) ← readAll f [640, 1]
      return (r.2, counts, bytes, finished))
      (fun r _ => RoundTrips [List.replicate 256 7, List.replicate 384 8] [640, 1] r) s)
    fun s₁ fs v i n hfile => ?_
  · simp only [roundTrip, wp_then, wp_pure] at h ⊢
    exact Wp.not (h.mono fun _ _ h' => Wp.not h')
  simp only [writeAll, wp_then]
  refine Wp.not (wp_open_bound hfile.rep hfile.binds fun s₂ f hr₂ _ ho _ hseek₂ _ => ?_)
  have hone : n.data.length = 1 := by rw [n.count, hfile.numSectors]; rfl
  have hrep := Volume.replaces_visits hfile.binds.node (n.numVisits + 1)
  have hw : Writing s₂ _ ['a'] [] i (n.withVisits (n.numVisits + 1)) f [] :=
    ⟨hr₂, hfile.binds.replace hrep, hfile.fileType, ho, hseek₂, hfile.length.symm ▸ zero_le_one,
      hfile.numSectors.trans (congrArg Nat.cast hone.symm), rfl⟩
  have hfree := hfile.free
  rw [FileNode.sectors, List.length_cons, List.length_append, n.tables, hone] at hfree
  obtain ⟨x, y, z, rest, hf⟩ : ∃ x y z rest, v.map.free = [x, y, z] ++ rest := by
    rcases hfr : v.map.free with _ | ⟨x, _ | ⟨y, _ | ⟨z, rest⟩⟩⟩
    · simp [hfr] at hfree
    · simp [hfr] at hfree
    · simp [hfr] at hfree
    · exact ⟨x, y, z, rest, rfl⟩
  exact not_wp_write_write hw (hfile.marks.replace hrep rfl) hfile.length hone hf
    List.length_replicate List.length_replicate

end Nachos
