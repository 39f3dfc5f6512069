import Nachos.FileSys.ByteArray
import Mathlib.Data.Finset.Max

/-! `BitMap` as a finite set: the calls of the class, run in any order on a new object, answer what
the same operations on the set of marked indices answer. -/

namespace Nachos
open Lib Program

/-! ## The set of marked indices -/

inductive BitCall where
  | mark (which : Int)
  | clear (which : Int)
  | test (which : Int)
  | find
  | numClear

inductive BitReply where
  | done
  | truth (b : Bool)
  | number (k : Int)

def BitCall.InRange (n : Nat) : BitCall → Prop
  | .mark which | .clear which | .test which => 0 ≤ which ∧ which < n
  | .find | .numClear => True

def BitCall.onSet (n : Nat) (S : Finset Nat) : BitCall → BitReply × Finset Nat
  | .mark which => (.done, insert which.toNat S)
  | .clear which => (.done, S.erase which.toNat)
  | .test which => (.truth (decide (which.toNat ∈ S)), S)
  | .find =>
    if h : (Finset.range n \ S).Nonempty then
      (.number ((Finset.range n \ S).min' h), insert ((Finset.range n \ S).min' h) S)
    else (.number (-1), S)
  | .numClear => (.number (n - S.card), S)

def BitCall.runOnSet (n : Nat) (S : Finset Nat) : List BitCall → List BitReply × Finset Nat
  | [] => ([], S)
  | c :: cs =>
    let (reply, S') := c.onSet n S
    let (replies, S'') := runOnSet n S' cs
    (reply :: replies, S'')

namespace BitMap

/-- A call of the class; `none` is a failed assertion. -/
def perform (m : BitMap) : BitCall → Option (BitReply × BitMap)
  | .mark which => (m.mark which).map fun m' => (.done, m')
  | .clear which => (m.clear which).map fun m' => (.done, m')
  | .test which => (m.test which).map fun b => (.truth b, m)
  | .find => some (.number m.find.1, m.find.2)
  | .numClear => some (.number m.numClear, m)

def performAll (m : BitMap) : List BitCall → Option (List BitReply × BitMap)
  | [] => some ([], m)
  | c :: cs => do
    let (reply, m') ← m.perform c
    let (replies, m'') ← m'.performAll cs
    return (reply :: replies, m'')

def marked (m : BitMap) : Finset Nat := (Finset.range m.numBits).filter fun i => m.testBit i = true

variable {m m' : BitMap} {i : Nat}

theorem mem_marked : i ∈ m.marked ↔ i < m.numBits ∧ m.testBit i = true := by
  rw [marked, Finset.mem_filter, Finset.mem_range]

theorem marked_markBit (hi : i < m.numBits) : (m.markBit i).marked = insert i m.marked := by
  ext j
  rw [mem_marked, Finset.mem_insert, mem_marked, testBit_markBit hi, numBits_markBit]
  by_cases hj : j = i
  · simp [hj, hi]
  · simp [hj]

theorem marked_clearBit (hi : i < m.numBits) : (m.clearBit i).marked = m.marked.erase i := by
  ext j
  rw [mem_marked, Finset.mem_erase, mem_marked, testBit_clearBit hi, numBits_clearBit]
  by_cases hj : j = i
  · simp [hj]
  · simp [hj]

theorem mem_free_iff : i ∈ m.free ↔ i ∈ Finset.range m.numBits \ m.marked := by
  rw [mem_free, Finset.mem_sdiff, mem_marked, Finset.mem_range]
  cases m.testBit i <;> simp

theorem numClear_marked (m : BitMap) : (m.numClear : Int) = m.numBits - m.marked.card := by
  have hfree : m.free.toFinset = Finset.range m.numBits \ m.marked := by
    ext j
    rw [List.mem_toFinset, mem_free_iff]
  have hsub : m.marked ⊆ Finset.range m.numBits := Finset.filter_subset ..
  have hcard := Finset.card_sdiff_add_card_eq_card hsub
  rw [← hfree, List.toFinset_card_of_nodup m.free_nodup, Finset.card_range] at hcard
  rw [numClear_eq]
  omega

theorem min_free {rest : List Nat} (h : m.free = i :: rest)
    (hne : (Finset.range m.numBits \ m.marked).Nonempty) :
    (Finset.range m.numBits \ m.marked).min' hne = i := by
  have hi : i ∈ m.free := h ▸ List.mem_cons_self ..
  refine le_antisymm (Finset.min'_le _ _ (mem_free_iff.mp hi)) (Finset.le_min' _ _ _ fun j hj => ?_)
  have hsorted := m.free_sorted
  rw [h] at hsorted
  have hmem := mem_free_iff.mpr hj
  rw [h] at hmem
  rcases List.mem_cons.mp hmem with rfl | hmem
  · exact le_rfl
  · exact (List.rel_of_pairwise_cons hsorted hmem).le

/-! ## One call, and any number of them -/

theorem perform_onSet {c : BitCall} (h : c.InRange m.numBits) :
    ∃ reply m', m.perform c = some (reply, m') ∧ m'.numBits = m.numBits ∧
      (reply, m'.marked) = c.onSet m.numBits m.marked := by
  cases c with
  | mark which =>
    obtain ⟨i, rfl⟩ := Int.eq_ofNat_of_zero_le h.1
    have hi : i < m.numBits := Int.ofNat_lt.mp h.2
    refine ⟨.done, m.markBit i, ?_, numBits_markBit, ?_⟩
    · rw [perform, mark_sector hi, Option.map_some]
    · rw [marked_markBit hi]
      rfl
  | clear which =>
    obtain ⟨i, rfl⟩ := Int.eq_ofNat_of_zero_le h.1
    have hi : i < m.numBits := Int.ofNat_lt.mp h.2
    refine ⟨.done, m.clearBit i, ?_, numBits_clearBit, ?_⟩
    · rw [perform, clear_sector hi, Option.map_some]
    · rw [marked_clearBit hi]
      rfl
  | test which =>
    obtain ⟨i, rfl⟩ := Int.eq_ofNat_of_zero_le h.1
    have hi : i < m.numBits := Int.ofNat_lt.mp h.2
    refine ⟨.truth (m.testBit i), m, ?_, rfl, ?_⟩
    · rw [perform, test_sector hi, Option.map_some]
    · have hmem : decide (i ∈ m.marked) = m.testBit i := by
        simp [mem_marked, hi]
      rw [BitCall.onSet, Int.toNat_natCast, hmem]
  | find =>
    refine ⟨.number m.find.1, m.find.2, rfl, numBits_find m, ?_⟩
    cases hfree : m.free with
    | nil =>
      have hempty : ¬ (Finset.range m.numBits \ m.marked).Nonempty := by
        rintro ⟨j, hj⟩
        have := mem_free_iff.mpr hj
        rw [hfree] at this
        cases this
      rw [find_of_free_nil hfree, BitCall.onSet, dif_neg hempty]
    | cons i rest =>
      have hi : i ∈ m.free := hfree ▸ List.mem_cons_self ..
      have hne : (Finset.range m.numBits \ m.marked).Nonempty := ⟨i, mem_free_iff.mp hi⟩
      rw [find_of_free_cons hfree, BitCall.onSet, dif_pos hne, min_free hfree hne,
        marked_markBit (mem_free.mp hi).1]
  | numClear =>
    refine ⟨.number m.numClear, m, rfl, rfl, ?_⟩
    rw [BitCall.onSet, numClear_marked]

theorem performAll_onSet {cs : List BitCall} (h : ∀ c ∈ cs, c.InRange m.numBits) :
    ∃ replies m', m.performAll cs = some (replies, m') ∧ m'.numBits = m.numBits ∧
      (replies, m'.marked) = BitCall.runOnSet m.numBits m.marked cs := by
  induction cs generalizing m with
  | nil => exact ⟨[], m, rfl, rfl, rfl⟩
  | cons c cs ih =>
    obtain ⟨reply, m₁, hp, hn, hset⟩ := perform_onSet (h c (List.mem_cons_self ..))
    obtain ⟨replies, m₂, hps, hns, hsets⟩ := ih (m := m₁) fun c' hc' => by
      rw [hn]
      exact h c' (List.mem_cons_of_mem _ hc')
    refine ⟨reply :: replies, m₂, ?_, hns.trans hn, ?_⟩
    · rw [performAll, hp]
      simp only [Option.bind_eq_bind, Option.bind_some, hps, Option.pure_def]
    · rw [hn] at hsets
      simp only [BitCall.runOnSet, ← hset, ← hsets]

theorem marked_new (memory : Nat → Word) (n : Nat) : (new memory n).marked = ∅ := by
  refine Finset.eq_empty_of_forall_notMem fun i hi => ?_
  obtain ⟨hlt, ht⟩ := mem_marked.mp hi
  have hfree : i ∈ (new memory n).free := by
    rw [free_new, List.mem_range]
    rwa [numBits_new] at hlt
  rw [(mem_free.mp hfree).2] at ht
  cases ht

/-! ## The set in a file -/

theorem fetchFrom_restores {s : Kernel} {g : Handle} (hn : m'.numBits = m.numBits)
    (h : Wp (OpenFile.readAt g (4 * m'.numWords) 0) (fun r _ => r = m.toBytes) s) :
    Wp (m'.fetchFrom g) (fun r _ => r = m) s := by
  rw [fetchFrom, wp_then]
  refine h.mono fun r s' hr => ?_
  rw [hr, wp_pure]
  exact load_toBytes hn

section file
variable {s : Kernel} {f g : Handle} {h : Nat} {index data : List Nat}

theorem writeBack_fetchFrom (hn : m'.numBits = m.numBits) (hpos : 0 < m.numBits) (hq : s.Quiet)
    (ho : s.OpenOn f h) (hg : s.OpenOn g h) (hm : MapsOffsets s.disk h index data)
    (hroom : 4 * m.numWords ≤ (hdrAt s.disk h).fileLength) :
    Wp (do
      m.writeBack f
      m'.fetchFrom g) (fun r _ => r = m) s := by
  have hwords : m'.numWords = m.numWords := by rw [numWords, numWords, m.size, m'.size, hn]
  have hlong : 0 < m.toBytes.length := by
    rw [length_toBytes, numWords, m.size]
    omega
  have hsize := hm.node.size
  have hlen : ((0 : Nat) : Int) + m.toBytes.length ≤ hm.node.length := by
    rw [length_toBytes]
    exact (by omega : ((0 : Nat) : Int) + (4 * m.numWords : Nat) ≤ (hdrAt s.disk h).fileLength)
  simp only [writeBack, wp_then, wp_pure]
  refine wp_writeAt_stores (p := 0) hq hm.holds ho hlong hlen fun buf s₁ hs₁ hbuf => ?_
  have hst : Steady s { s₁ with
      disk := writeBlocks s.disk (hm.node.under 0 m.toBytes.length) buf } :=
    hs₁.toSteady.trans (.disk ..)
  have hmax := hm.node.length_le
  refine fetchFrom_restores hn ?_
  refine wp_readAt (p := 0) (hst.quiet hq) (hbuf.holds hm.holds hlong hlen) (hst.openOn hg) ?_
    fun _ _ => ?_
  · rw [length_toBytes] at hlen
    rw [hwords]
    omega
  · -- the bytes in front are the ones that were written
    rw [hwords, show (4 * (m.numWords : Int)).toNat = m.toBytes.length by
      rw [length_toBytes]
      omega]
    exact List.take_left

end file

/-- On a new map of any size, whatever was in its memory, any sequence of calls with indices in
range runs through and answers what it answers on the set of marked indices. The set comes back
from any file that gives back what `WriteBack` stores, as every file of sufficient length does. -/
theorem calls_refine_set (memory : Nat → Word) (n : Nat) (hpos : 0 < n) (cs : List BitCall)
    (h : ∀ c ∈ cs, c.InRange n) :
    ∃ replies m, (new memory n).performAll cs = some (replies, m) ∧ m.numBits = n ∧
      (replies, m.marked) = BitCall.runOnSet n ∅ cs ∧
      ∀ m' : BitMap, m'.numBits = n →
        (∀ s g, Wp (OpenFile.readAt g (4 * m'.numWords) 0) (fun r _ => r = m.toBytes) s →
          Wp (m'.fetchFrom g) (fun r _ => r.marked = m.marked) s) ∧
        ∀ (s : Kernel) f g k index data, s.Quiet → s.OpenOn f k → s.OpenOn g k →
          MapsOffsets s.disk k index data → 4 * m.numWords ≤ (hdrAt s.disk k).fileLength →
          Wp (do
            m.writeBack f
            m'.fetchFrom g) (fun r _ => r.marked = m.marked) s := by
  have hn := numBits_new memory n
  rw [← hn] at h
  obtain ⟨replies, m, hp, hm, hset⟩ := performAll_onSet h
  rw [hn, marked_new] at hset
  rw [hn] at hm
  refine ⟨replies, m, hp, hm, hset, fun m' hm' => ⟨fun s g hread => ?_, ?_⟩⟩
  · refine (fetchFrom_restores (hm'.trans hm.symm) hread).mono fun r _ hr => ?_
    rw [hr]
  · intro s f g k index data hq ho hg hmaps hroom
    have hback := writeBack_fetchFrom (hm'.trans hm.symm) (hm ▸ hpos) hq ho hg hmaps hroom
    refine hback.mono fun r _ hr => ?_
    rw [hr]

/-- Forty bits, which is not a multiple of 32. -/
theorem calls_refine_forty : ∃ replies m,
    (new (fun _ => 0xffffffff) 40).performAll [.mark 39, .find, .test 39, .clear 0, .numClear] =
      some (replies, m) ∧
    (replies, m.marked) =
      BitCall.runOnSet 40 ∅ [.mark 39, .find, .test 39, .clear 0, .numClear] := by
  obtain ⟨replies, m, hp, -, hset, -⟩ := calls_refine_set (fun _ => 0xffffffff) 40 (by decide)
    [.mark 39, .find, .test 39, .clear 0, .numClear] (by
      simp [BitCall.InRange])
  exact ⟨replies, m, hp, hset⟩

end BitMap
end Nachos
