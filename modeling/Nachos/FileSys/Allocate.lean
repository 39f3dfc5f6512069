import Nachos.FileSys.InPlace

/-! `FileHeader::Allocate` on a map with enough clear bits, and `FileHeader::Deallocate`. -/

namespace Nachos
open Lib Program

/-- `t` with the numbers `xs` stored from place `lo` on. -/
def putWords (t : Nat → Word) (lo : Nat) : List Nat → Nat → Word
  | [] => t
  | x :: xs => putWords (Function.update t lo (.ofNat 32 x)) (lo + 1) xs

theorem putWords_of_lt {t : Nat → Word} {lo j : Nat} {xs : List Nat} (h : j < lo) :
    putWords t lo xs j = t j := by
  induction xs generalizing t lo with
  | nil => rfl
  | cons x xs ih => rw [putWords, ih (by omega), Function.update_of_ne (by omega)]

theorem putWords_of_getElem? {t : Nat → Word} {o k x : Nat} {xs : List Nat} (h : xs[k]? = some x) :
    putWords t o xs (o + k) = .ofNat 32 x := by
  induction xs generalizing t o k with
  | nil => simp at h
  | cons y xs ih =>
    cases k with
    | zero =>
      rw [List.getElem?_cons_zero, Option.some.injEq] at h
      rw [putWords, putWords_of_lt (by omega), Nat.add_zero, Function.update_self, h]
    | succ k =>
      rw [putWords, show o + (k + 1) = o + 1 + k by omega]
      exact ih h

theorem fillTable_eq {t : Nat → Word} {m : BitMap} {o : Nat} {xs rest : List Nat}
    (h : m.free = xs ++ rest) : fillTable t m o xs.length = (putWords t o xs, m.markAll xs) := by
  induction xs generalizing t m o with
  | nil => rfl
  | cons x xs ih =>
    rw [List.length_cons, fillTable, BitMap.find_of_free_cons h]
    exact ih (BitMap.free_markBit h)

theorem free_fillTable (t : Nat → Word) (m : BitMap) (lo n : Nat) :
    (fillTable t m lo n).2.free = m.free.drop n ∧ (fillTable t m lo n).2.numBits = m.numBits := by
  induction n generalizing t m lo with
  | zero => exact ⟨rfl, rfl⟩
  | succ n ih =>
    obtain ⟨hf, hb⟩ := ih (Function.update t lo (.ofInt 32 m.find.1)) m.find.2 (lo + 1)
    refine ⟨?_, hb.trans m.numBits_find⟩
    rw [fillTable, hf, m.free_find, List.drop_drop, Nat.add_comm]

namespace FileHeader

/-- `hdr'` is `hdr` with `index` stored in its table from place `i` on. -/
structure Indexed (hdr hdr' : FileHeader) (i : Nat) (index : List Nat) : Prop where
  entry : ∀ j t, index[j]? = some t → hdr'.entry (i + j : Nat) = some (.ofNat 32 t)
  before : ∀ j : Nat, j < i → hdr'.entry j = hdr.entry j
  rest : hdr' = { hdr with primaryIndexTable := hdr'.primaryIndexTable }

end FileHeader

/-- The disk `d'` is `d` with the sectors `data` listed in the tables `index`. -/
structure Tabled (d d' : Nat → Sector) (index data : List Nat) : Prop where
  leads : Leads d' index data
  other : ∀ x ∉ index, d' x = d x

namespace FileHeader
variable {hdr hdr' : FileHeader} {i t : Nat} {index : List Nat}

theorem entry_setEntry (hi : i < 25) (w : Word) : (hdr.setEntry i w).entry i = some w := by
  simp [entry, setEntry, hi, show (i : Int) < 25 by omega]

theorem entry_setEntry_of_ne {j : Nat} (hj : j ≠ i) (w : Word) :
    (hdr.setEntry i w).entry j = hdr.entry j := by
  unfold entry setEntry
  split
  · split
    · simp [Function.update_of_ne, Fin.ext_iff, hj]
    · rfl
  · rfl

theorem Indexed.nil (hdr : FileHeader) (i : Nat) : Indexed hdr hdr i [] :=
  ⟨by simp, fun _ _ => rfl, rfl⟩

theorem setEntry_rest (hdr : FileHeader) (i : Nat) (w : Word) :
    hdr.setEntry i w = { hdr with primaryIndexTable := (hdr.setEntry i w).primaryIndexTable } := by
  unfold setEntry
  split <;> rfl

theorem Indexed.cons (hi : i < 25) (h : Indexed (hdr.setEntry i (.ofNat 32 t)) hdr' (i + 1) index) :
    Indexed hdr hdr' i (t :: index) where
  entry j t' hj := by
    cases j with
    | zero =>
      rw [List.getElem?_cons_zero, Option.some.injEq] at hj
      rw [Nat.add_zero, h.before i (by omega), entry_setEntry hi, hj]
    | succ j =>
      rw [show i + (j + 1) = i + 1 + j by omega]
      exact h.entry j t' hj
  before j hj := by rw [h.before j (by omega), entry_setEntry_of_ne (by omega)]
  rest := by
    have hr := h.rest
    rw [setEntry_rest] at hr
    exact hr

end FileHeader

namespace Tabled
variable {d d' : Nat → Sector} {t : Nat} {index data ys : List Nat}

theorem nil (d : Nat → Sector) : Tabled d d [] [] := ⟨by simp [Leads], fun _ _ => rfl⟩

theorem cons {table : Nat → Word} (hy : ys.length = 32 ∨ data = [] ∧ ys.length ≤ 32)
    (ht : t ∉ index)
    (h : Tabled (Function.update d t (.ofWords (putWords table 0 ys))) d' index data) :
    Tabled d d' (t :: index) (ys ++ data) where
  leads j x hj := by
    rw [List.getElem?_append] at hj
    split at hj
    · next hlt =>
      have hw := putWords_of_getElem? (t := table) (o := 0) hj
      refine ⟨t, by rw [show j / 32 = 0 by omega]; rfl, ?_⟩
      rw [h.other t ht, Function.update_self, Sector.word_ofWords (by omega),
        show j % 32 = 0 + j by omega, hw]
    · next hge =>
      obtain ⟨t', ht', hw⟩ := h.leads _ x hj
      have hlen : ys.length = 32 := by
        rcases hy with hy | ⟨hd, -⟩
        · exact hy
        · simp [hd] at hj
      refine ⟨t', ?_, ?_⟩
      · rw [show j / 32 = (j - ys.length) / 32 + 1 by omega]
        exact ht'
      · rw [show j % 32 = (j - ys.length) % 32 by omega]
        exact hw
  other x hx := by
    obtain ⟨hxt, hxi⟩ := List.ne_and_not_mem_of_not_mem_cons hx
    rw [h.other x hxi, Function.update_of_ne hxt]

end Tabled

section allocate
variable {s : Kernel} {m : BitMap}

theorem free_table {count k : Nat} {L rest : List Nat} (hm : m.numBits = 1024)
    (hc : count + 1 = (k + 31) / 32) (hf : m.free = L ++ rest) (hL : L.length = k + (count + 1)) :
    ∃ t ys L', L = t :: (ys ++ L') ∧ t < 1024 ∧ t ∉ L' ∧ ys.length = (min (k : Int) 32).toNat ∧
      L'.length = k - ys.length + count ∧ m.find = ((t : Int), m.markBit t) ∧
      (m.markBit t).free = ys ++ (L' ++ rest) := by
  obtain ⟨t, L, rfl⟩ : ∃ t L', L = t :: L' := List.exists_cons_of_length_eq_add_one (by omega)
  rw [List.length_cons] at hL
  have hnd : (t :: L).Nodup := (List.nodup_append'.mp (hf ▸ m.free_nodup)).1
  have hys : (L.take (min k 32)).length = min k 32 := by rw [List.length_take]; omega
  refine ⟨t, L.take (min k 32), L.drop (min k 32), by rw [List.take_append_drop], ?_,
    fun h => (List.nodup_cons.mp hnd).1 (List.mem_of_mem_drop h), by omega,
    by rw [List.length_drop]; omega, BitMap.find_of_free_cons hf, ?_⟩
  · exact hm ▸ (BitMap.mem_free.mp (hf ▸ List.mem_cons_self ..)).1
  · rw [← List.append_assoc, List.take_append_drop]
    exact BitMap.free_markBit hf

theorem perm_table {t : Nat} {ys L index data : List Nat} (h : (index ++ data).Perm L) :
    (t :: index ++ (ys ++ data)).Perm (t :: (ys ++ L)) :=
  .cons t ((List.perm_append_comm_assoc index ys data).trans (h.append_left ys))

theorem table_full {k : Nat} {ys data : List Nat} (hy : ys.length = (min (k : Int) 32).toNat)
    (hd : data.length = k - ys.length) : ys.length = 32 ∨ data = [] ∧ ys.length ≤ 32 := by
  by_cases hk : 32 ≤ k
  · exact .inl (by omega)
  · exact .inr ⟨List.eq_nil_of_length_eq_zero (by omega), by omega⟩

theorem wp_allocateTables {count k i : Nat} {temp : Int} {hdr : FileHeader} {L rest : List Nat}
    (hm : m.numBits = 1024) (hc : count = (k + 31) / 32) (ht : count ≠ 0 → temp = k)
    (hi : i + count ≤ 25) (hf : m.free = L ++ rest) (hL : L.length = k + count)
    {Q : FileHeader × BitMap → Kernel → Prop}
    (hQ : ∀ hdr' s' index data, (index ++ data).Perm L → data.Sublist L → index.length = count →
      data.length = k → hdr.Indexed hdr' i index → Tabled s.disk s'.disk index data → Steady s s' →
      Q (hdr', m.markAll L) s') :
    Wp (FileHeader.allocateTables hdr m temp i count) Q s := by
  induction count generalizing s m k i temp hdr L Q with
  | zero =>
    obtain rfl : L = [] := List.eq_nil_of_length_eq_zero (by omega)
    exact wp_pure.mpr (hQ hdr s [] [] .rfl .slnil rfl (by rw [List.length_nil]; omega) (.nil ..)
      (.nil _) (.refl s))
  | succ count ih =>
    obtain ⟨t, ys, L, rfl, htl, htL, hys, hL', hfind, hfree⟩ := free_table hm hc hf hL
    obtain rfl := ht (by omega)
    have hfill := fun table => fillTable_eq (t := table) (o := 0) hfree
    have hi25 : i < 25 := by omega
    simp only [FileHeader.allocateTables, hfind, wp_then, wp_assert (decide_eq_true hi25),
      wp_freshMemory,
      BitVec.ofInt_natCast, ← hys, hfill, wp_writeSector htl]
    refine ih (by simpa using hm) (by omega) (fun h => by split <;> omega) (by omega)
      (BitMap.free_markAll hfree) hL' fun hdr' s' index data hp hsub hlen hdl hx htb hst => ?_
    rw [← BitMap.markAll_append, ← BitMap.markAll_cons]
    exact hQ hdr' s' (t :: index) (ys ++ data) (perm_table hp) ((hsub.append_left ys).cons t)
      (by rw [List.length_cons, hlen]) (by rw [List.length_append]; omega) (hx.cons hi25)
      (.cons (table_full hys hdl) (fun h => htL (hp.subset (List.mem_append_left _ h))) htb)
      (((Steady.tick s _).trans (.setDisk _ _ _)).trans hst)

structure FileHeader.Tabulated (hdr hdr' : FileHeader) (i count : Nat) : Prop where
  entry : ∀ j : Nat, i ≤ j → j < i + count → ∃ t < 1024, hdr'.entry j = some (.ofNat 32 t)
  before : ∀ j : Nat, j < i → hdr'.entry j = hdr.entry j
  rest : hdr' = { hdr with primaryIndexTable := hdr'.primaryIndexTable }

theorem FileHeader.Tabulated.cons {hdr hdr' : FileHeader} {i count t : Nat} (hi : i < 25)
    (ht : t < 1024)
    (h : (hdr.setEntry i (.ofNat 32 t)).Tabulated hdr' (i + 1) count) :
    hdr.Tabulated hdr' i (count + 1) where
  entry j hj hj' := by
    by_cases he : j = i
    · exact ⟨t, ht, by rw [he, h.before i (by omega), entry_setEntry hi]⟩
    · exact h.entry j (by omega) (by omega)
  before j hj := by rw [h.before j (by omega), entry_setEntry_of_ne (by omega)]
  rest := by
    have hr := h.rest
    rw [setEntry_rest] at hr
    exact hr

/-- What the loop of `Allocate` does if it comes to its end, whether or not there were enough clear
bits: a table without a sector would fail the assertion of the disk. -/
theorem allocateTables_returns {count k i : Nat} {temp : Int} {hdr : FileHeader}
    (hm : m.numBits = 1024) (hc : count = (k + 31) / 32) (ht : count ≠ 0 → temp = k)
    {Q : FileHeader × BitMap → Kernel → Prop}
    (h : Wp (FileHeader.allocateTables hdr m temp i count) Q s) :
    Wp (FileHeader.allocateTables hdr m temp i count) (fun r s' => Q r s' ∧
      hdr.Tabulated r.1 i count ∧ (count ≠ 0 → i + count ≤ 25) ∧ r.2.numBits = 1024 ∧
      r.2.free = m.free.drop (k + count)) s := by
  induction count generalizing s m k i temp hdr Q with
  | zero =>
    obtain rfl : k = 0 := by omega
    refine wp_pure.mpr ⟨wp_pure.mp h, ⟨?_, fun _ _ => rfl, rfl⟩, fun h => absurd rfl h, hm, rfl⟩
    intro j hj hj'
    omega
  | succ count ih =>
    obtain rfl := ht (by omega)
    rw [FileHeader.allocateTables] at h ⊢
    cases hf : m.free with
    | nil =>
      -- no sector for the table
      simp only [BitMap.find_of_free_nil hf, wp_then, wp_freshMemory] at h
      obtain ⟨_, _, -, h⟩ := h
      exact absurd h (not_wp_writeSector (by decide))
    | cons t rest =>
      have htl : t < 1024 := hm ▸ (BitMap.mem_free.mp (hf ▸ List.mem_cons_self ..)).1
      simp only [BitMap.find_of_free_cons hf, wp_then] at h ⊢
      by_cases hi : i < 25
      · obtain ⟨hfree, hbits⟩ := free_fillTable (s.host s.tick) (m.markBit t) 0
          (min (k : Int) 32).toNat
        rw [BitMap.free_markBit hf] at hfree
        simp only [wp_assert (decide_eq_true hi), wp_freshMemory, wp_writeSector htl] at h ⊢
        refine (ih (k := k - 32) (hbits.trans hm) (by omega) (fun h => by split <;> omega) h).mono ?_
        rintro r s' ⟨hQ, htab, h25, hb, hfr⟩
        rw [BitVec.ofInt_natCast] at htab
        refine ⟨hQ, htab.cons hi htl, fun _ => ?_, hb, ?_⟩
        · by_cases h0 : count = 0
          · omega
          · have := h25 h0
            omega
        · rw [hfr, hfree, List.drop_drop, show k + (count + 1) =
            (min (k : Int) 32).toNat + (k - 32 + count) + 1 by omega, List.drop_succ_cons]
      · exact absurd h (not_wp_assert (decide_eq_false hi))

/-- How many index tables `k` data sectors need. -/
def tablesFor (k : Nat) : Nat := (k + 31) / 32

def sectorsFor (k : Nat) : Nat := k + tablesFor k

theorem divRoundUp_toNat_32 (k : Int) : (divRoundUp k 32).toNat = tablesFor k.toNat := by
  rw [tablesFor]
  rcases Int.le_total 0 k with h | h
  · rw [divRoundUp_of_nonneg h]
    split <;> omega
  · rw [divRoundUp_of_nonpos h (by omega)]
    omega

theorem divRoundUp_range {x : Int} (h₁ : -2147483648 ≤ x) (h₂ : x < 2147483648) :
    -2147483648 ≤ divRoundUp x 128 ∧ divRoundUp x 128 < 2147483648 ∧
      x ≤ 128 * divRoundUp x 128 := by
  rcases Int.le_total 0 x with h | h
  · rw [divRoundUp_of_nonneg h]
    split <;> omega
  · rw [divRoundUp_of_nonpos h (by omega)]
    omega

theorem wp_allocate_refused {n ty : Int} {hdr : FileHeader}
    (h : (m.numClear : Int) < divRoundUp n 128)
    {Q : Bool × FileHeader × BitMap → Kernel → Prop} (hQ : ∀ hdr' s', s'.disk = s.disk →
      Steady s s' → Q (false, hdr', m) s') :
    Wp (hdr.allocate m n ty) Q s := by
  simp only [FileHeader.allocate, wp_then, wp_time, if_pos h, wp_pure]
  exact hQ _ _ rfl (.tick ..)

theorem wp_allocate {n ty : Int} {hdr : FileHeader} {k : Nat} {L rest : List Nat}
    (hn : -2147483648 ≤ n) (hn' : n < 2147483648) (hk : k = (divRoundUp n 128).toNat)
    (hm : m.numBits = 1024) (h25 : tablesFor k ≤ 25)
    (hf : m.free = L ++ rest) (hL : L.length = k + tablesFor k)
    {Q : Bool × FileHeader × BitMap → Kernel → Prop}
    (hQ : ∀ hdr' s' index data, (index ++ data).Perm L → data.Sublist L →
      index.length = tablesFor k → data.length = k →
      (∀ (j : Nat) t, index[j]? = some t → hdr'.entry j = some (.ofNat 32 t)) →
      hdr'.fileType = .ofInt 32 ty → hdr'.numVisits = hdr.numVisits → hdr'.numBytes.toInt = n →
      hdr'.numSectors.toInt = divRoundUp n 128 →
      Tabled s.disk s'.disk index data → Steady s s' → Q (true, hdr', m.markAll L) s') :
    Wp (hdr.allocate m n ty) Q s := by
  have hr := divRoundUp_range hn hn'
  have hclear : ¬ (m.numClear : Int) < divRoundUp n 128 := by
    rw [BitMap.numClear_eq, hf, List.length_append]
    omega
  simp only [FileHeader.allocate, wp_then, wp_time, if_neg hclear, wp_pure, divRoundUp_toNat_32]
  rw [← hk]
  refine wp_allocateTables hm rfl (fun h => ?_) (by rw [Nat.zero_add]; exact h25) hf hL
    fun hdr' s' index data hp hsub hi hd hx ht hst => ?_
  · have hpos : k ≠ 0 := fun h0 => h (by rw [h0])
    omega
  · have hrest := hx.rest
    refine hQ hdr' s' index data hp hsub hi hd (fun j t hj => ?_) ?_ ?_ ?_ ?_ ht
      ((Steady.tick ..).trans hst)
    · simpa using hx.entry j t hj
    · rw [hrest]
    · rw [hrest]
    · rw [hrest]
      exact toInt_ofInt_of_range hn hn'
    · rw [hrest]
      exact toInt_ofInt_of_range hr.1 hr.2.1

end allocate

/-! ## Giving back -/

section deallocate
open FileHeader
variable {s : Kernel} {m : BitMap} {X : Extent}

theorem clearAll_sectors {L : List Nat} (hm : m.numBits = 1024) (hx : ∀ x ∈ L, x < 1024) :
    ∃ m', clearAll m (L.map (.ofNat 32)) = some m' ∧ m.Cleared L m' := by
  induction L generalizing m with
  | nil => exact ⟨m, rfl, .nil m⟩
  | cons x L ih =>
    have hxl : x < m.numBits := hm ▸ hx x (List.mem_cons_self ..)
    obtain ⟨m', he, hc⟩ := ih (m := m.clearBit x) hm fun y hy => hx y (List.mem_cons_of_mem _ hy)
    refine ⟨m', ?_, (BitMap.Cleared.clearBit hxl).trans hc⟩
    rw [← he, clearAll, List.map_cons, List.foldlM_cons,
      toInt_ofNat_sector (hx x (List.mem_cons_self ..)), BitMap.clear_sector hxl]
    rfl

theorem table_words {d : Nat → Sector} {i t : Nat} (ht : Leads d X.index X.data) (hi : X.index[i]? = some t) :
    (List.range (min (X.data.length - 32 * i) 32)).map (d t).word =
      ((X.data.drop (32 * i)).take 32).map (.ofNat 32) := by
  refine List.ext_getElem? fun k => ?_
  rw [List.getElem?_map, List.getElem?_map, List.getElem?_take, List.getElem?_drop]
  by_cases hk : k < 32 ∧ 32 * i + k < X.data.length
  · obtain ⟨t', ht', hw⟩ := ht (32 * i + k) _ (List.getElem?_eq_getElem hk.2)
    rw [show (32 * i + k) / 32 = i by omega, hi, Option.some.injEq] at ht'
    rw [List.getElem?_range (by omega), if_pos hk.1, List.getElem?_eq_getElem hk.2, Option.map_some,
      Option.map_some, ← hw, ht', show (32 * i + k) % 32 = k by omega]
  · rw [List.getElem?_eq_none (by rw [List.length_range]; omega)]
    split
    · rw [List.getElem?_eq_none (by omega)]
      rfl
    · rfl

theorem wp_deallocateTables {hdr : FileHeader} (hl : X.Lists hdr) (ht : Leads s.disk X.index X.data)
    (hm : m.numBits = 1024) {count i : Nat} {temp : Int} (hc : i + count = X.index.length)
    (htemp : count ≠ 0 → temp = (X.data.length - 32 * i : Nat))
    (hset : ∀ t ∈ X.index.drop i, m.testBit t = true) {Q : BitMap → Kernel → Prop}
    (hQ : ∀ m', m.Cleared (X.index.drop i ++ X.data.drop (32 * i)) m' → Q m' s) :
    Wp (deallocateTables hdr m temp i count) Q s := by
  induction count generalizing m i temp Q with
  | zero =>
    have htab := X.tables
    rw [List.drop_of_length_le (by omega), List.drop_of_length_le (by omega)] at hQ
    exact wp_pure.mpr (hQ m (.nil m))
  | succ count ih =>
    have hlt : i < X.index.length := by omega
    obtain ⟨t, hti⟩ : ∃ t, X.index[i]? = some t := ⟨_, List.getElem?_eq_getElem hlt⟩
    have htl : t < 1024 := X.index_lt (List.mem_of_getElem? hti)
    have hdrop : X.index.drop i = t :: X.index.drop (i + 1) := by
      rw [List.drop_eq_getElem_cons hlt, (List.getElem?_eq_some_iff.mp hti).2]
    obtain rfl := htemp (by omega)
    have hmin : (min ((X.data.length - 32 * i : Nat) : Int) 32).toNat = min
      (X.data.length - 32 * i) 32 := by
      omega
    obtain ⟨m₁, he₁, hc₁⟩ := clearAll_sectors (L := (X.data.drop (32 * i)).take 32) hm fun x hx =>
      X.data_lt (List.mem_of_mem_drop (List.mem_of_mem_take hx))
    have hbit : m.test t = some true := by
      rw [BitMap.test_sector (hm ▸ htl), hset t (hdrop ▸ List.mem_cons_self ..)]
    have htl₁ : t < m₁.numBits := by rw [hc₁.numBits, hm]; exact htl
    simp only [deallocateTables, wp_then, hl i t hti, wp_orFault_some, toInt_ofNat_sector htl, hbit,
      wp_assert (rfl : true = true), wp_readSector htl, hmin, table_words ht hti, he₁,
      BitMap.clear_sector htl₁]
    have htab := X.tables
    have hnd : (t :: X.index.drop (i + 1)).Nodup := hdrop ▸ X.index_nodup.sublist
      (List.drop_sublist ..)
    have hc₂ := hc₁.trans (BitMap.Cleared.clearBit htl₁)
    refine ih (m := m₁.clearBit t) (hc₂.numBits.trans hm) (by omega) (fun h => by split <;> omega)
      (fun t' ht' => ?_) fun m' hm' => hQ m' ?_
    · have hti' : t' ∈ X.index := List.mem_of_mem_drop ht'
      have hne : t' ≠ t := fun e => (List.nodup_cons.mp hnd).1 (e ▸ ht')
      have hnd' : t' ∉ (X.data.drop (32 * i)).take 32 := fun h =>
        X.index_not_mem_data hti' (List.mem_of_mem_drop (List.mem_of_mem_take h))
      rw [hc₂.testBit, hset t' (hdrop ▸ List.mem_cons_of_mem _ ht')]
      simp [hne, hnd']
    · refine (hc₂.trans hm').congr fun x => ?_
      have hsplit : x ∈ X.data.drop (32 * i) ↔
          x ∈ (X.data.drop (32 * i)).take 32 ∨ x ∈ X.data.drop (32 * (i + 1)) := by
        rw [show 32 * (i + 1) = 32 * i + 32 by omega, ← List.drop_drop, ← List.mem_append,
          List.take_append_drop]
      simp only [hdrop, List.mem_append, List.mem_cons, List.not_mem_nil, or_false, hsplit]
      tauto

theorem wp_deallocate {hdr : FileHeader} (hl : X.Lists hdr)
    (hnum : X.data.length = hdr.numSectors.toInt.toNat)
    (ht : Leads s.disk X.index X.data) (hm : m.numBits = 1024) (hset : ∀ t ∈ X.index, m.testBit t = true)
    {Q : BitMap → Kernel → Prop} (hQ : ∀ m', m.Cleared (X.index ++ X.data) m' → Q m' s) :
    Wp (deallocate hdr m) Q s := by
  have htab := X.tables
  rw [deallocate, divRoundUp_toNat_32, ← hnum, tablesFor, ← X.tables]
  exact wp_deallocateTables hl ht hm (Nat.zero_add _) (fun h => by omega) hset hQ

end deallocate
end Nachos
