import Nachos.Machine.FrameMap
import Mathlib.Algebra.BigOperators.Group.Finset.Basic
import Mathlib.Data.Fintype.Card

/-! The victim of `LRU`. Times are stored by frame and compared by entry. Entries and frames are
both handed out in order, so when all entries are in use each has the frame of its own number: a
frame that is lost on the way leaves the last entry without one, and that entry never gets
used. -/

namespace Nachos
open Lib
open scoped List

namespace Memory
variable {m m' : Memory} {tid now : Int} {i j : Fin 32} {a : Access} {k f : Nat}

/-- The first `k` entries are in use, one more may have been filled, the frames of the entries
ascend, and the map has exactly the frames below `f`. -/
structure Ascending (m : Memory) (k f : Nat) : Prop where
  count : k ≤ 32
  used : ∀ i, (m.pageTable i).use = true ↔ i.val < k
  valid : ∀ i, (m.pageTable i).use = true →
    (m.pageTable i).valid = true ∧ 0 ≤ (m.pageTable i).physicalPage
  next : ∀ i, (m.pageTable i).valid = true → i.val ≤ k
  ascend : ∀ i j, i < j → (m.pageTable i).valid = true → (m.pageTable j).valid = true →
    0 ≤ (m.pageTable j).physicalPage → (m.pageTable i).physicalPage < (m.pageTable j).physicalPage
  below : ∀ i, (m.pageTable i).valid = true → (m.pageTable i).physicalPage < f
  le : f ≤ 32
  free : m.memBitMap.free = List.range' f (32 - f)
  pages : OncePerPage m.pageTable

theorem ascending_initial (pageLasttime : Int → Int) (mainMemory : Int → Byte)
    (words : Nat → Word) (disk : BackingFile) :
    (initial pageLasttime mainMemory words disk).Ascending 0 0 where
  count := Nat.zero_le _
  used i := by simp [initial, TranslationEntry.initial]
  valid i hi := by cases hi
  next i hi := by cases hi
  ascend i j _ hi := by cases hi
  below i hi := by cases hi
  le := Nat.zero_le _
  free := BitMap.free_new words 32
  pages i j hi := by cases hi

namespace Ascending

theorem find (h : m.Ascending k f) :
    (f < 32 ∧ m.memBitMap.find = ((f : Int), m.memBitMap.markBit f) ∧
      (m.memBitMap.markBit f).free = List.range' (f + 1) (32 - (f + 1))) ∨
    f = 32 ∧ m.memBitMap.find = (-1, m.memBitMap) := by
  obtain hf | rfl := Nat.lt_or_eq_of_le h.le
  · have hfree : m.memBitMap.free = f :: List.range' (f + 1) (32 - (f + 1)) := by
      rw [h.free, show 32 - f = 32 - (f + 1) + 1 by omega, List.range'_succ]
    exact .inl ⟨hf, BitMap.find_of_free_cons hfree, BitMap.free_markBit hfree⟩
  · exact .inr ⟨rfl, BitMap.find_of_free_nil h.free⟩

theorem install (h : m.Ascending k f) (hk : k < 32) (hf : m.Faults tid a) :
    ∃ f', (m.serviced tid a).Ascending k f' := by
  have hunused : (m.pageTable ⟨k, hk⟩).use = false := by
    rw [← Bool.not_eq_true, h.used]
    exact Nat.lt_irrefl k
  have hfirst : m.firstUnused = some ⟨k, hk⟩ :=
    firstUnused_eq_some hunused fun j hj => (h.used j).mpr hj
  have hgiven : m.given = ⟨k, hk⟩ := by simp [given, hfirst]
  have hold : ∀ j : Fin 32, j ≠ ⟨k, hk⟩ → (m.serviced tid a).pageTable j = m.pageTable j :=
    fun j hj => by rw [serviced_pageTable, hgiven, Function.update_of_ne hj]
  have hnew : (m.serviced tid a).pageTable ⟨k, hk⟩ = { m.pageTable ⟨k, hk⟩ with
      physicalPage := m.givenFrame, tid := tid, virtualPage := a.vpn, valid := true } := by
    rw [serviced_pageTable, hgiven, Function.update_self]
  have hframe : m.givenFrame = m.memBitMap.find.1 := by simp [givenFrame, hfirst]
  have hbits : (m.serviced tid a).memBitMap = m.memBitMap.find.2 := by
    simp [serviced_memBitMap, hfirst]
  -- the new bound: above the old frames and the new one
  obtain ⟨f', hle, hfree, hmono, hbound⟩ : ∃ f', f' ≤ 32 ∧
      m.memBitMap.find.2.free = List.range' f' (32 - f') ∧ f ≤ f' ∧ m.givenFrame < f' ∧
      (0 ≤ m.givenFrame → (f : Int) ≤ m.givenFrame) := by
    rw [hframe]
    obtain ⟨hlt, hfind, hfree⟩ | ⟨rfl, hfind⟩ := h.find
    · rw [hfind]
      exact ⟨f + 1, hlt, hfree, Nat.le_succ f, by simp only; omega, by simp⟩
    · rw [hfind]
      exact ⟨32, le_rfl, h.free, le_rfl, by simp only; omega, by simp only; omega⟩
  refine ⟨f', h.count, fun j => ?_, fun j hj => ?_, fun j hj => ?_, fun i j hij hi hj h0 => ?_,
    fun j hj => ?_, hle, hbits ▸ hfree, ?_⟩
  · by_cases hj : j = ⟨k, hk⟩
    · rw [hj, hnew]
      simp [hunused]
    · rw [hold j hj]
      exact h.used j
  · by_cases hjk : j = ⟨k, hk⟩
    · rw [hjk, hnew] at hj
      rw [hunused] at hj
      cases hj
    · rw [hold j hjk] at hj ⊢
      exact h.valid j hj
  · by_cases hjk : j = ⟨k, hk⟩
    · rw [hjk]
    · rw [hold j hjk] at hj
      exact h.next j hj
  · have hjk : j.val ≤ k := by
      by_cases hjk : j = ⟨k, hk⟩
      · rw [hjk]
      · rw [hold j hjk] at hj
        exact h.next j hj
    have hik : i ≠ ⟨k, hk⟩ := Fin.ne_of_val_ne (by simp only; omega)
    rw [hold i hik] at hi ⊢
    by_cases hjk : j = ⟨k, hk⟩
    · subst hjk
      rw [hnew] at h0 ⊢
      exact (h.below i hi).trans_le (hbound.2 h0)
    · rw [hold j hjk] at hj h0 ⊢
      exact h.ascend i j hij hi hj h0
  · by_cases hjk : j = ⟨k, hk⟩
    · rw [hjk, hnew]
      exact hbound.1
    · rw [hold j hjk] at hj ⊢
      have := h.below j hj
      omega
  · rw [serviced_pageTable]
    exact h.pages.give hf rfl rfl

theorem replace (h : m.Ascending 32 f) (hf : m.Faults tid a) :
    (m.serviced tid a).Ascending 32 f := by
  have hu : ∀ i, (m.pageTable i).use = true := fun i => (h.used i).mpr i.isLt
  have hfull : m.firstUnused = none := firstUnused_eq_none.mpr hu
  have hgiven : m.given = m.oldest := by simp [given, hfull]
  have hframe : m.givenFrame = (m.pageTable m.oldest).physicalPage := by simp [givenFrame, hfull]
  have hsame : ∀ j, ((m.serviced tid a).pageTable j).valid = true ∧
      ((m.serviced tid a).pageTable j).physicalPage = (m.pageTable j).physicalPage ∧
      ((m.serviced tid a).pageTable j).use = true := fun j => by
    rw [serviced_pageTable, hgiven, hframe]
    by_cases hj : j = m.oldest
    · simp [hj, hu]
    · simp [Function.update_of_ne hj, hu j, (h.valid j (hu j)).1]
  refine ⟨le_rfl, fun j => iff_of_true (hsame j).2.2 j.isLt, fun j _ => ?_, fun j _ => j.isLt.le,
    fun i j hij _ _ h0 => ?_, fun j _ => ?_, h.le, ?_, ?_⟩
  · rw [(hsame j).2.1]
    exact ⟨(hsame j).1, (h.valid j (hu j)).2⟩
  · rw [(hsame j).2.1] at h0 ⊢
    rw [(hsame i).2.1]
    exact h.ascend i j hij (h.valid i (hu i)).1 (h.valid j (hu j)).1 h0
  · rw [(hsame j).2.1]
    exact h.below j (h.valid j (hu j)).1
  · rw [serviced_memBitMap, if_pos hfull]
    exact h.free
  · rw [serviced_pageTable]
    exact h.pages.give hf rfl rfl

theorem serviced (h : m.Ascending k f) (hf : m.Faults tid a) :
    ∃ f', (m.serviced tid a).Ascending k f' := by
  obtain hk | rfl := Nat.lt_or_eq_of_le h.count
  · exact h.install hk hf
  · exact ⟨f, h.replace hf⟩

theorem performed (h : m.Ascending k f) (hi : m.HitBy tid a i) :
    ∃ k', (m.performed tid now a i).Ascending k' f := by
  have hv : (m.pageTable i).valid = true := (maps_iff.mp hi.maps).2.1
  have hsame := @performed_entry m tid now i a
  have huse : ∀ j, ((m.performed tid now a i).pageTable j).use = true ↔
      j = i ∨ (m.pageTable j).use = true := fun j => by
    rw [performed_pageTable]
    by_cases hj : j = i
    · simp [hj]
    · simp [hj]
  have hnext := h.next i hv
  obtain ⟨k', hle, hcount, hk'⟩ : ∃ k', k ≤ k' ∧ k' ≤ 32 ∧
      ∀ j : Fin 32, j = i ∨ j.val < k ↔ j.val < k' := by
    rcases Nat.lt_or_eq_of_le hnext with hlt | heq
    · refine ⟨k, le_rfl, h.count, fun j => ⟨?_, .inr⟩⟩
      rintro (rfl | hj)
      · exact hlt
      · exact hj
    · refine ⟨k + 1, Nat.le_succ k, heq ▸ i.isLt, fun j => ?_⟩
      rw [Fin.ext_iff]
      omega
  refine ⟨k', hcount, fun j => ?_, fun j hj => ?_, fun j hj => ?_, fun l j hlj hl hj h0 => ?_,
    fun j hj => ?_, h.le, h.free, fun j l => ?_⟩
  · rw [huse, h.used]
    exact hk' j
  · rw [(hsame j).1, (hsame j).2.1]
    rcases (huse j).mp hj with rfl | hj
    · exact ⟨hv, hi.nonneg⟩
    · exact h.valid j hj
  · rw [(hsame j).1] at hj
    exact (h.next j hj).trans hle
  · rw [(hsame l).1] at hl
    rw [(hsame j).1] at hj
    rw [(hsame j).2.1] at h0 ⊢
    rw [(hsame l).2.1]
    exact h.ascend l j hlj hl hj h0
  · rw [(hsame j).1] at hj
    rw [(hsame j).2.1]
    exact h.below j hj
  · rw [(hsame j).1, (hsame j).2.2.1, (hsame j).2.2.2.1, (hsame l).1, (hsame l).2.2.1,
      (hsame l).2.2.2.1]
    exact h.pages j l

theorem frame_eq (h : m.Ascending k f) (hu : ∀ i, (m.pageTable i).use = true) (i : Fin 32) :
    (m.pageTable i).physicalPage = i.val := by
  have hmono : ∀ i j : Fin 32, i < j →
      (m.pageTable i).physicalPage < (m.pageTable j).physicalPage := fun i j hij =>
    h.ascend i j hij (h.valid i (hu i)).1 (h.valid j (hu j)).1 (h.valid j (hu j)).2
  have hlow : ∀ (n : Nat) (hn : n < 32), (n : Int) ≤ (m.pageTable ⟨n, hn⟩).physicalPage := by
    intro n
    induction n with
    | zero => exact fun hn => (h.valid _ (hu _)).2
    | succ n ih =>
      intro hn
      have hstep := hmono ⟨n, by omega⟩ ⟨n + 1, hn⟩ (Fin.mk_lt_mk.mpr (Nat.lt_succ_self n))
      have := ih (by omega)
      omega
  have hhigh : ∀ (n : Nat) (hn : n < 32),
      (m.pageTable ⟨31 - n, by omega⟩).physicalPage ≤ 31 - (n : Int) := by
    intro n
    induction n with
    | zero =>
      intro hn
      have hlt := h.below ⟨31 - 0, by omega⟩ (h.valid _ (hu _)).1
      have hle := h.le
      omega
    | succ n ih =>
      intro hn
      have hstep := hmono ⟨31 - (n + 1), by omega⟩ ⟨31 - n, by omega⟩ (Fin.mk_lt_mk.mpr (by omega))
      have := ih (by omega)
      omega
  have h₁ := hlow i.val i.isLt
  have h₂ := hhigh (31 - i.val) (by omega)
  have hi : (⟨31 - (31 - i.val), by omega⟩ : Fin 32) = i := Fin.ext (by simp only; omega)
  rw [hi] at h₂
  simp only [Fin.eta] at h₁
  omega

end Ascending

/-! ## The scan -/

def younger (time : Fin 32 → Int) : Int × Fin 32 → Fin 32 → Int × Fin 32
  | (temp, temp_i), i => if time i < temp then (time i, i) else (temp, temp_i)

theorem foldl_younger (time : Fin 32 → Int) (l : List (Fin 32)) (r : Int × Fin 32) :
    (l.foldl (younger time) r).1 ≤ r.1 ∧ (∀ j ∈ l, (l.foldl (younger time) r).1 ≤ time j) ∧
      (l.foldl (younger time) r = r ∨
        time (l.foldl (younger time) r).2 = (l.foldl (younger time) r).1) := by
  induction l generalizing r with
  | nil => exact ⟨le_rfl, fun j hj => absurd hj List.not_mem_nil, .inl rfl⟩
  | cons i l ih =>
    rw [List.foldl_cons]
    obtain ⟨hle, hall, hat⟩ := ih (younger time r i)
    by_cases hlt : time i < r.1
    · have hstep : younger time r i = (time i, i) := if_pos hlt
      rw [hstep] at hle hall hat ⊢
      refine ⟨hle.trans hlt.le, fun j hj => ?_, .inr ?_⟩
      · rcases List.mem_cons.mp hj with rfl | hj
        · exact hle
        · exact hall j hj
      · rcases hat with hat | hat
        · rw [hat]
        · exact hat
    · have hstep : younger time r i = r := if_neg hlt
      rw [hstep] at hle hall hat ⊢
      refine ⟨hle, fun j hj => ?_, hat⟩
      rcases List.mem_cons.mp hj with rfl | hj
      · exact hle.trans (not_lt.mp hlt)
      · exact hall j hj

theorem oldest_eq (m : Memory) : m.oldest =
    ((List.finRange 32).foldl (younger fun i => m.pageLasttime i.val) (2147483644, 0)).2 := rfl

theorem oldest_least (h : ∃ j : Fin 32, m.pageLasttime j.val < 2147483644) (j : Fin 32) :
    m.pageLasttime m.oldest.val ≤ m.pageLasttime j.val := by
  obtain ⟨i, hi⟩ := h
  obtain ⟨-, hall, hat⟩ := foldl_younger (fun i => m.pageLasttime i.val) (List.finRange 32)
    (2147483644, 0)
  rw [oldest_eq]
  rcases hat with hat | hat
  · have := hall i (List.mem_finRange i)
    rw [hat] at this
    exact absurd hi (not_lt.mpr this)
  · exact hat.trans_le (hall j (List.mem_finRange j))

end Memory

/-! ## The times of translations -/

namespace Users

def translated (u : Users) : Int × Int → Option (Fin 32)
  | (tid, now) =>
    match u.todo tid with
    | [] => none
    | a :: _ =>
      match u.memory.translate tid now a.addr a.size a.writing with
      | (.ok _, _) => (u.memory.lookup tid now a.vpn).1
      | (.error _, _) => none

/-- A step, with the list of translations so far, latest first. -/
def traceStep : Users × List (Fin 32 × Int) → Int × Int → Option (Users × List (Fin 32 × Int))
  | (u, hits), e =>
    (u.step e).map fun u' => (u', ((u.translated e).map fun i => (i, e.2)).toList ++ hits)

end Users

def lastUse (hits : List (Fin 32 × Int)) (i : Fin 32) : Option Int :=
  (hits.find? (·.1 == i)).map (·.2)

/-- `totalTicks` is an `int`, and an instruction makes at most three accesses before it
advances. -/
structure Clocked (times : List Int) : Prop where
  int : ∀ t ∈ times, t ≤ 2147483647
  ticks : ∀ t, times.count t ≤ 3

section stamps
variable {m : Memory} {u u' : Users} {tid now : Int} {hits hits' : List (Fin 32 × Int)}
  {i : Fin 32} {times : List Int}

theorem lastUse_cons_self : lastUse ((i, now) :: hits) i = some now := by simp [lastUse]

theorem lastUse_cons_of_ne {j : Fin 32} (h : j ≠ i) :
    lastUse ((i, now) :: hits) j = lastUse hits j := by
  simp [lastUse, Ne.symm h]

theorem mem_of_lastUse {t : Int} (h : lastUse hits i = some t) : (i, t) ∈ hits := by
  obtain ⟨x, hx, rfl⟩ := Option.map_eq_some_iff.mp h
  have hi : x.1 = i := by simpa using List.find?_some hx
  exact hi ▸ List.mem_of_find?_eq_some hx

/-- Not all entries can have been used in the last four ticks that an `int` can count. -/
theorem exists_lastUse_lt (hc : Clocked (hits.map (·.2)))
    (h : ∀ i, ∃ t, lastUse hits i = some t) : ∃ i t, lastUse hits i = some t ∧ t < 2147483644 := by
  by_contra hall
  push Not at hall
  have hentries : List.finRange 32 ⊆ (hits.filter (2147483644 ≤ ·.2)).map (·.1) := fun i _ => by
    obtain ⟨t, ht⟩ := h i
    exact List.mem_map.mpr ⟨(i, t), List.mem_filter.mpr
      ⟨mem_of_lastUse ht, decide_eq_true (hall i t ht)⟩, rfl⟩
  have hmany := (List.subperm_of_subset (List.nodup_finRange 32) hentries).length_le
  have hfew : (hits.map (·.2)).filter (2147483644 ≤ ·) <+~
      [2147483644, 2147483645, 2147483646, 2147483647].flatMap (List.replicate 3) := by
    refine List.subperm_ext_iff.mpr fun t ht => ?_
    obtain ⟨hmem, hlow⟩ := List.mem_filter.mp ht
    have hhigh := hc.int t hmem
    have hthree : List.count t ([2147483644, 2147483645, 2147483646, 2147483647].flatMap
        (List.replicate 3)) = 3 := by
      obtain rfl | rfl | rfl | rfl : t = 2147483644 ∨ t = 2147483645 ∨ t = 2147483646 ∨
          t = 2147483647 := by
        have := of_decide_eq_true hlow
        omega
      all_goals decide
    rw [hthree]
    exact (List.filter_sublist.count_le t).trans (hc.ticks t)
  have hlength := hfew.length_le
  rw [List.filter_map, List.length_map] at hlength
  rw [List.length_finRange, List.length_map] at hmany
  exact absurd (hmany.trans hlength) (by decide)

/-- Each entry in use was translated, at the time that is stored for its frame. -/
structure Stamped (m : Memory) (hits : List (Fin 32 × Int)) : Prop where
  ascending : ∃ k f, m.Ascending k f
  times : ∀ i, (m.pageTable i).use = true →
    lastUse hits i = some (m.pageLasttime (m.pageTable i).physicalPage)

theorem serviced_pageLasttime {a : Access} :
    (m.serviced tid a).pageLasttime = m.pageLasttime := by
  cases h : m.firstUnused with
  | none =>
    rw [Memory.serviced_of_full h]
    rfl
  | some i =>
    rw [Memory.serviced_of_unused h]
    rfl

theorem serviced_used {a : Access} (hi : ((m.serviced tid a).pageTable i).use = true) :
    (m.pageTable i).use = true ∧
      ((m.serviced tid a).pageTable i).physicalPage = (m.pageTable i).physicalPage := by
  rw [Memory.serviced_pageTable] at hi ⊢
  by_cases hg : i = m.given
  · subst hg
    rw [Function.update_self] at hi ⊢
    refine ⟨hi, ?_⟩
    cases h : m.firstUnused with
    | none => simp [Memory.givenFrame, Memory.given, h]
    | some j =>
      have hj := Memory.not_use_of_firstUnused h
      have hgiven : m.given = j := by simp [Memory.given, h]
      rw [hgiven, hj] at hi
      cases hi
  · rw [Function.update_of_ne hg] at hi ⊢
    exact ⟨hi, rfl⟩

namespace Stamped

theorem serviced {a : Access} (h : Stamped m hits) (hf : m.Faults tid a) :
    Stamped (m.serviced tid a) hits := by
  obtain ⟨k, f, hA⟩ := h.ascending
  refine ⟨⟨k, hA.serviced hf⟩, fun i hi => ?_⟩
  obtain ⟨hu, hframe⟩ := serviced_used hi
  rw [serviced_pageLasttime, hframe]
  exact h.times i hu

theorem performed {a : Access} (h : Stamped m hits) (hi : m.HitBy tid a i) :
    Stamped (m.performed tid now a i) ((i, now) :: hits) := by
  obtain ⟨k, f, hA⟩ := h.ascending
  obtain ⟨k', hA'⟩ : ∃ k', (m.performed tid now a i).Ascending k' f := hA.performed hi
  refine ⟨⟨k', f, hA'⟩, fun j hj => ?_⟩
  have hv : (m.pageTable i).valid = true := (Memory.maps_iff.mp hi.maps).2.1
  have htime : (m.performed tid now a i).pageLasttime (m.pageTable j).physicalPage =
    if (m.pageTable j).physicalPage ∈ (m.found tid a.vpn).map fun l => (m.pageTable l).physicalPage
    then now else m.pageLasttime (m.pageTable j).physicalPage := rfl
  rw [(Memory.performed_entry j).2.1, htime]
  by_cases hji : j = i
  · subst hji
    have hmem : j ∈ m.found tid a.vpn := Memory.mem_found.mpr hi.maps
    rw [if_pos (List.mem_map.mpr ⟨j, hmem, rfl⟩), lastUse_cons_self]
  · have hu : (m.pageTable j).use = true := by
      rwa [Memory.performed_pageTable, Function.update_of_ne hji] at hj
    have hjv := hA.valid j hu
    -- only entry `i` was found, and `j` has another frame
    have hnot : (m.pageTable j).physicalPage ∉
        (m.found tid a.vpn).map fun l => (m.pageTable l).physicalPage := by
      intro hmem
      obtain ⟨l, hl, hlj⟩ := List.mem_map.mp hmem
      obtain ⟨hlt, hlv, hlp⟩ := Memory.maps_iff.mp (Memory.mem_found.mp hl)
      obtain ⟨hit, -, hip⟩ := Memory.maps_iff.mp hi.maps
      have hli : l = i := hA.pages l i hlv hv (hlt.trans hit.symm) (hlp.trans hip.symm)
      rw [hli] at hlj
      rcases lt_or_gt_of_ne hji with hlt | hgt
      · have := hA.ascend j i hlt hjv.1 hv hi.nonneg
        omega
      · have := hA.ascend i j hgt hv hjv.1 hjv.2
        omega
    rw [if_neg hnot, lastUse_cons_of_ne hji]
    exact h.times j hu

theorem victim (h : Stamped m hits) (hc : Clocked (hits.map (·.2))) (hfull : m.firstUnused = none)
    (vpn : Nat) (j : Fin 32) :
    ∃ t t', lastUse hits (m.assign tid vpn).1 = some t ∧ lastUse hits j = some t' ∧ t ≤ t' := by
  have hu := Memory.firstUnused_eq_none.mp hfull
  obtain ⟨k, f, hA⟩ := h.ascending
  have htimes : ∀ i, lastUse hits i = some (m.pageLasttime i.val) := fun i => by
    rw [h.times i (hu i), hA.frame_eq hu i]
  have hearly : ∃ i : Fin 32, m.pageLasttime i.val < 2147483644 := by
    obtain ⟨i, t, ht, hlt⟩ := exists_lastUse_lt hc fun i => ⟨_, htimes i⟩
    rw [htimes i] at ht
    exact ⟨i, Option.some.inj ht ▸ hlt⟩
  have hvictim : (m.assign tid vpn).1 = m.oldest := by
    rw [Memory.assign, hfull]
  rw [hvictim]
  exact ⟨_, _, htimes _, htimes j, Memory.oldest_least hearly j⟩

end Stamped

theorem translated_of_hitBy {a : Access} {rest : List Access} (ht : u.todo tid = a :: rest)
    (hi : u.memory.HitBy tid a i) : u.translated (tid, now) = some i := by
  rw [Users.translated, ht]
  simp only
  rw [Memory.Hits.translate hi, Memory.lookup_eq]
  exact hi.last

theorem translated_of_faults {a : Access} {rest : List Access} (ht : u.todo tid = a :: rest)
    (ha : Memory.misaligned a.addr a.size = false) (hf : u.memory.Faults tid a) :
    u.translated (tid, now) = none := by
  rw [Users.translated, ht]
  simp only
  rw [Memory.translate_miss ha hf]

theorem Stamped.step {e : Int × Int} (h : Stamped u.memory hits)
    (hs : Users.traceStep (u, hits) e = some (u', hits')) :
    Stamped u'.memory hits' ∧ (hits' = hits ∨ ∃ i, hits' = (i, e.2) :: hits) := by
  obtain ⟨tid, now⟩ := e
  obtain ⟨u₁, hstep, heq⟩ := Option.map_eq_some_iff.mp hs
  obtain ⟨rfl, rfl⟩ := Prod.mk.inj heq
  obtain ⟨ht, hu⟩ | ⟨a, rest, ht, ⟨ha, hf, rfl⟩ | ⟨i, hi, rfl⟩⟩ := Users.step_cases hstep
  · have hnone : u.translated (tid, now) = none := by rw [Users.translated, ht]
    rw [hnone, hu]
    exact ⟨h, .inl rfl⟩
  · rw [translated_of_faults ht ha hf]
    exact ⟨h.serviced hf, .inl rfl⟩
  · rw [translated_of_hitBy ht hi]
    exact ⟨h.performed hi, .inr ⟨i, rfl⟩⟩

end stamps

/-- The entry that is evicted was used least recently. -/
def VictimLeastRecent (s : Users × List (Fin 32 × Int)) : Prop :=
  s.1.memory.firstUnused = none → ∀ (tid : Int) (vpn : Nat) (j : Fin 32), ∃ t t',
    lastUse s.2 (s.1.memory.assign tid vpn).1 = some t ∧ lastUse s.2 j = some t' ∧ t ≤ t'

theorem Stamped.always {u : Users} {hits : List (Fin 32 × Int)} {schedule : List (Int × Int)}
    (h : Stamped u.memory hits) (hc : Clocked (hits.map (·.2) ++ schedule.map (·.2))) :
    History.Always Users.traceStep VictimLeastRecent (u, hits) schedule := by
  have hclocked : Clocked (hits.map (·.2)) :=
    ⟨fun t ht => hc.int t (List.mem_append_left _ ht),
      fun t => ((List.sublist_append_left ..).count_le t).trans (hc.ticks t)⟩
  induction schedule generalizing u hits with
  | nil => exact fun hfull tid vpn j => h.victim hclocked hfull vpn j
  | cons e schedule ih =>
    refine ⟨fun hfull tid vpn j => h.victim hclocked hfull vpn j, fun s' hs => ?_⟩
    obtain ⟨u', hits'⟩ := s'
    obtain ⟨h', hhits⟩ := h.step hs
    -- the times that are left and those of the translations are together no more than before
    have hsub : hits'.map (·.2) ++ schedule.map (·.2) <+~
        hits.map (·.2) ++ (e :: schedule).map (·.2) := by
      rcases hhits with rfl | ⟨i, rfl⟩
      · exact ((List.Sublist.refl _).append (List.sublist_cons_self ..)).subperm
      · have hperm : hits.map (·.2) ++ e.2 :: schedule.map (·.2) ~
            e.2 :: (hits.map (·.2) ++ schedule.map (·.2)) := List.perm_middle
        exact hperm.symm.subperm
    have hc' : Clocked (hits'.map (·.2) ++ schedule.map (·.2)) :=
      ⟨fun t ht => hc.int t (hsub.subset ht), fun t => (hsub.count_le t).trans (hc.ticks t)⟩
    exact ih h' hc' ⟨fun t ht => hc'.int t (List.mem_append_left _ ht),
      fun t => ((List.sublist_append_left ..).count_le t).trans (hc'.ticks t)⟩

/-- Whatever the threads access and in whatever order they run, the entry that `LRU` evicts has
the oldest translation. -/
theorem victim_leastRecent (pageLasttime : Int → Int) (mainMemory : Int → Byte)
    (words : Nat → Word) (disk : BackingFile) (todo : Int → List Access)
    (schedule : List (Int × Int)) (hclock : Clocked (schedule.map (·.2))) :
    History.Always Users.traceStep VictimLeastRecent
      (.start (.initial pageLasttime mainMemory words disk) todo, []) schedule :=
  Stamped.always
    ⟨⟨0, 0, Memory.ascending_initial pageLasttime mainMemory words disk⟩, fun i hi => by cases hi⟩
    hclock

def allPages : List Access :=
  (List.range 32).map fun v => .read (BitVec.ofNat 32 (128 * v)) .word

/-- A thread has used all entries, each after its page fault. -/
theorem victim_leastRecent_full :
    ∃ s, History.run Users.traceStep
        (.start (.initial (fun _ => 0) (fun _ => 0) (fun _ => 0) ⟨0, fun _ => 0⟩)
          fun _ => allPages, []) ((List.range 64).map fun (t : Nat) => (1, (t : Int))) = some s ∧
      s.1.memory.firstUnused = none ∧ VictimLeastRecent s := by
  have hclock : Clocked (((List.range 64).map fun (t : Nat) => ((1 : Int), (t : Int))).map
      (·.2)) := by
    refine ⟨by decide, fun t => ?_⟩
    exact (List.nodup_iff_count_le_one.mp (by decide) t).trans (by decide)
  have hfull : (History.run Users.traceStep
      (.start (.initial (fun _ => 0) (fun _ => 0) (fun _ => 0) ⟨0, fun _ => 0⟩)
        fun _ => allPages, []) ((List.range 64).map fun (t : Nat) => (1, (t : Int)))).map
      (fun s => s.1.memory.firstUnused) = some none := by
    decide +kernel
  obtain ⟨s, hs, hnone⟩ := Option.map_eq_some_iff.mp hfull
  exact ⟨s, hs, hnone, (victim_leastRecent _ _ _ _ _ _ hclock).run hs⟩

end Nachos
