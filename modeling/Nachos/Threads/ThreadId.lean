import Nachos.Threads.Machine
import Nachos.Lib.History
import Mathlib.Data.Fintype.Card
import Mathlib.Data.Fintype.EquivFin

/-! Thread ids. The constructor of `Thread` takes the first free entry of `threadMap`, and goes on
with the id -1 if there is none; the destructor clears the entry of its id. -/

namespace Nachos.Threads
open Lib

/-- `threadMap` and the `Thread` objects. Objects are numbered in the order of their
construction. -/
structure ThreadTable where
  threadMap : Fin 128 → Bool
  tid : Thread → Int
  created : Nat
  live : List Thread
  /-- The indices at which destructors have written into `threadMap`, latest first. -/
  cleared : List Int

namespace ThreadTable

def initial : ThreadTable where
  threadMap _ := false
  tid _ := -1
  created := 0
  live := []
  cleared := []

def firstFree (m : ThreadTable) : Option (Fin 128) :=
  (List.finRange 128).find? fun i => !m.threadMap i

def construct (m : ThreadTable) : ThreadTable :=
  match m.firstFree with
  | some i =>
    { m with
      threadMap := Function.update m.threadMap i true
      tid := Function.update m.tid m.created i
      created := m.created + 1
      live := m.created :: m.live }
  | none =>
    { m with
      tid := Function.update m.tid m.created (-1)
      created := m.created + 1
      live := m.created :: m.live }

/-- The assignment `threadMap[i] = false`, wherever it goes. -/
def clear (m : ThreadTable) (i : Int) : ThreadTable :=
  { m with
    threadMap := fun j => m.threadMap j && decide ((j : Int) ≠ i)
    cleared := i :: m.cleared }

def destruct (m : ThreadTable) (t : Thread) : ThreadTable :=
  { m.clear (m.tid t) with live := m.live.erase t }

end ThreadTable

inductive Lifecycle where
  | construct
  | destruct (t : Thread)
  deriving DecidableEq

namespace ThreadTable

/-- A thread is destroyed only if it is there. -/
def step (m : ThreadTable) : Lifecycle → Option ThreadTable
  | .construct => some m.construct
  | .destruct t => if t ∈ m.live then some (m.destruct t) else none

/-- The ids are unique and in `threadMap`, and no destructor has missed it. -/
structure Unique (m : ThreadTable) : Prop where
  range : ∀ t ∈ m.live, 0 ≤ m.tid t ∧ m.tid t < 128
  distinct : ∀ t ∈ m.live, ∀ u ∈ m.live, m.tid t = m.tid u → t = u
  map : ∀ i : Fin 128, m.threadMap i = true ↔ ∃ t ∈ m.live, m.tid t = i
  inside : ∀ i ∈ m.cleared, 0 ≤ i ∧ i < 128

def HasRoom (m : ThreadTable) : Lifecycle → Prop
  | .construct => m.live.length < 128
  | .destruct _ => True

variable {m m' : ThreadTable} {t : Thread}

@[simp] theorem live_construct : m.construct.live = m.created :: m.live := by
  rw [construct]
  split <;> rfl

theorem firstFree_eq_none : m.firstFree = none ↔ ∀ i, m.threadMap i = true := by
  simp [firstFree]

theorem not_of_firstFree {i : Fin 128} (h : m.firstFree = some i) : m.threadMap i = false := by
  simpa using List.find?_some h

structure Inv (m : ThreadTable) : Prop extends Unique m where
  nodup : m.live.Nodup
  created : ∀ t ∈ m.live, t < m.created

theorem Unique.card (h : m.Unique) (hn : m.live.Nodup) :
    (Finset.univ.filter fun i => m.threadMap i = true).card = m.live.length := by
  have himage : (Finset.univ.filter fun i => m.threadMap i = true).image
      (fun i : Fin 128 => (i : Int)) = (m.live.map m.tid).toFinset := by
    ext x
    simp only [Finset.mem_image, Finset.mem_filter, Finset.mem_univ, true_and, h.map,
      List.mem_toFinset, List.mem_map]
    constructor
    · rintro ⟨i, ⟨t, ht, hi⟩, rfl⟩
      exact ⟨t, ht, hi⟩
    · rintro ⟨t, ht, rfl⟩
      obtain ⟨h0, h1⟩ := h.range t ht
      exact ⟨⟨(m.tid t).toNat, by omega⟩, ⟨t, ht, by simp [h0]⟩, by simp [h0]⟩
  have hinj : Function.Injective fun i : Fin 128 => (i : Int) := fun i j hij => by
    ext
    exact Int.ofNat_inj.mp hij
  have hdist : (m.live.map m.tid).Nodup :=
    hn.map_on fun t ht u hu => h.distinct t ht u hu
  rw [← Finset.card_image_of_injective _ hinj, himage, List.toFinset_card_of_nodup hdist,
    List.length_map]

theorem Unique.firstFree_ne_none (h : m.Unique) (hn : m.live.Nodup) :
    m.firstFree ≠ none ↔ m.live.length < 128 := by
  rw [← h.card hn, ne_eq, firstFree_eq_none]
  have hle := Finset.card_le_univ (Finset.univ.filter fun i => m.threadMap i = true)
  have heq := Finset.card_eq_iff_eq_univ (Finset.univ.filter fun i => m.threadMap i = true)
  rw [Fintype.card_fin] at hle heq
  have huniv : (Finset.univ.filter fun i => m.threadMap i = true) = Finset.univ ↔
      ∀ i, m.threadMap i = true := by simp [Finset.filter_eq_self]
  rw [← huniv, ← heq]
  omega

theorem Inv.construct (h : m.Inv) {i : Fin 128} (hi : m.firstFree = some i) :
    m.construct.Inv := by
  have hnew : ∀ t ∈ m.live, t ≠ m.created := fun t ht => (h.created t ht).ne
  have htid : ∀ t ∈ m.live, Function.update m.tid m.created (i : Int) t = m.tid t := fun t ht =>
    Function.update_of_ne (hnew t ht) ..
  have hfree : ∀ t ∈ m.live, m.tid t ≠ i := fun t ht e => by
    have := (h.map i).mpr ⟨t, ht, e⟩
    rw [not_of_firstFree hi] at this
    cases this
  rw [ThreadTable.construct, hi]
  refine ⟨⟨?_, ?_, fun j => ?_, h.inside⟩, ?_, ?_⟩
  · simp only [List.forall_mem_cons, Function.update_self]
    exact ⟨⟨by omega, by omega⟩, fun t ht => by rw [htid t ht]; exact h.range t ht⟩
  · simp only [List.forall_mem_cons, Function.update_self]
    refine ⟨⟨fun _ => trivial, fun u hu e => ?_⟩, fun t ht => ⟨fun e => ?_, fun u hu e => ?_⟩⟩
    · rw [htid u hu] at e
      exact absurd e.symm (hfree u hu)
    · rw [htid t ht] at e
      exact absurd e (hfree t ht)
    · rw [htid t ht, htid u hu] at e
      exact h.distinct t ht u hu e
  · simp only [List.exists_mem_cons_iff, Function.update_self]
    by_cases hj : j = i
    · simp [hj]
    · have hne : (i : Int) ≠ (j : Int) := fun e => hj (Fin.ext (Int.ofNat_inj.mp e.symm))
      rw [Function.update_of_ne hj, h.map, or_iff_right hne]
      refine exists_congr fun t => and_congr_right fun ht => ?_
      rw [htid t ht]
  · exact List.nodup_cons.mpr ⟨fun hm => hnew _ hm rfl, h.nodup⟩
  · simp only [List.forall_mem_cons]
    exact ⟨Nat.lt_succ_self _, fun t ht => (h.created t ht).trans (Nat.lt_succ_self _)⟩

theorem Inv.destruct (h : m.Inv) (ht : t ∈ m.live) : (m.destruct t).Inv where
  range u hu := h.range u (List.mem_of_mem_erase hu)
  distinct u hu v hv := h.distinct u (List.mem_of_mem_erase hu) v (List.mem_of_mem_erase hv)
  map i := by
    simp only [ThreadTable.destruct, clear, Bool.and_eq_true, decide_eq_true_eq, h.map,
      h.nodup.mem_erase_iff]
    constructor
    · rintro ⟨⟨u, hu, hi⟩, hne⟩
      exact ⟨u, ⟨fun e => hne (by rw [← hi, e]), hu⟩, hi⟩
    · rintro ⟨u, ⟨hne, hu⟩, hi⟩
      exact ⟨⟨u, hu, hi⟩, fun e => hne (h.distinct u hu t ht (hi.trans e))⟩
  inside := List.forall_mem_cons.mpr ⟨h.range t ht, h.inside⟩
  nodup := h.nodup.erase t
  created u hu := h.created u (List.mem_of_mem_erase hu)

theorem Inv.step {e : Lifecycle} (h : m.Inv) (hs : m.step e = some m') (hr : m.HasRoom e) :
    m'.Inv := by
  cases e with
  | construct =>
    cases hs
    obtain ⟨i, hi⟩ := Option.ne_none_iff_exists'.mp ((h.firstFree_ne_none h.nodup).mpr hr)
    exact h.construct hi
  | destruct t =>
    rw [ThreadTable.step] at hs
    split at hs
    · next ht =>
      cases hs
      exact h.destruct ht
    · cases hs

theorem Inv.not_unique {e : Lifecycle} (h : m.Inv) (hs : m.step e = some m')
    (hr : ¬ m.HasRoom e) : ¬ m'.Unique := by
  intro hu
  cases e with
  | construct =>
    cases hs
    have hn : m.firstFree = none := by
      by_contra hn
      exact hr ((h.firstFree_ne_none h.nodup).mp hn)
    have hrange := hu.range m.created
    rw [ThreadTable.construct, hn] at hrange
    simp at hrange
  | destruct t => exact hr trivial

theorem Inv.initial : initial.Inv where
  range := nofun
  distinct := nofun
  map := by simp [ThreadTable.initial]
  inside := nofun
  nodup := .nil
  created := nofun

theorem Inv.always_iff (h : m.Inv) (es : List Lifecycle) :
    History.Always ThreadTable.step Unique m es ↔ History.Meets ThreadTable.step HasRoom m es :=
  History.always_iff_meets (fun _ hi => hi.toUnique) (fun _ _ _ hi => hi.step)
    (fun _ _ _ hi => hi.not_unique) h

end ThreadTable

/-- Ids stay unique in exactly those histories that never construct a thread when 128 exist. -/
theorem threadId_unique_iff (h : List Lifecycle) :
    History.Always ThreadTable.step ThreadTable.Unique .initial h ↔
      History.Meets ThreadTable.step ThreadTable.HasRoom .initial h :=
  ThreadTable.Inv.initial.always_iff h

theorem ThreadTable.not_meets_replicate {m : ThreadTable} {n : Nat} (hn : 0 < n)
    (h : 128 < m.live.length + n) :
    ¬ History.Meets step HasRoom m (List.replicate n .construct) := by
  induction n generalizing m with
  | zero => cases hn
  | succ n ih =>
    intro hm
    obtain ⟨hr, hm⟩ := hm m.construct rfl
    obtain rfl | hn := Nat.eq_zero_or_pos n
    · exact absurd hr (Nat.not_lt_of_le (Nat.le_of_lt_succ h))
    · refine ih hn ?_ hm
      rw [live_construct, List.length_cons]
      omega

/-- The last of 129 threads has no id of its own. -/
theorem not_threadId_unique_full :
    ¬ History.Always ThreadTable.step ThreadTable.Unique .initial
      (List.replicate 129 .construct) := by
  rw [ThreadTable.Inv.initial.always_iff]
  exact ThreadTable.not_meets_replicate (n := 129) (by decide) (by decide)

end Nachos.Threads
