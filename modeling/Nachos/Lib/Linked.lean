import Mathlib.Data.List.Basic
import Mathlib.Logic.Function.Basic

/-! Linked cells in a heap: what a chain of links visits, and which part of the heap matters for
it. -/

namespace Lib
variable {A C : Type}

/-- From `p` on, the links lead through the given cells, in this order, to `q`. -/
def Chain (next : C → Option A) (heap : A → Option C) :
    Option A → List (A × C) → Option A → Prop
  | p, [], q => p = q
  | p, (a, c) :: cells, q => p = some a ∧ heap a = some c ∧ Chain next heap (next c) cells q

section
variable {next : C → Option A} {heap heap' : A → Option C} {p q : Option A}
variable {cells rest : List (A × C)}

theorem chain_append :
    Chain next heap p (cells ++ rest) q ↔
      ∃ r, Chain next heap p cells r ∧ Chain next heap r rest q := by
  induction cells generalizing p with
  | nil =>
    constructor
    · intro h
      exact ⟨p, rfl, h⟩
    · rintro ⟨r, rfl, h⟩
      exact h
  | cons cell cells ih =>
    simp only [List.cons_append, Chain, ih]
    constructor
    · rintro ⟨hp, hc, r, hr, hq⟩
      exact ⟨r, ⟨hp, hc, hr⟩, hq⟩
    · rintro ⟨r, ⟨hp, hc, hr⟩, hq⟩
      exact ⟨hp, hc, r, hr, hq⟩

theorem Chain.heap_eq (h : Chain next heap p cells q) {a : A} {c : C} (hc : (a, c) ∈ cells) :
    heap a = some c := by
  induction cells generalizing p with
  | nil => cases hc
  | cons cell cells ih =>
    obtain ⟨-, hcell, hrest⟩ := h
    rcases List.mem_cons.mp hc with rfl | hc
    · exact hcell
    · exact ih hrest hc

theorem Chain.congr (h : Chain next heap p cells q)
    (heq : ∀ a ∈ cells.map Prod.fst, heap' a = heap a) : Chain next heap' p cells q := by
  induction cells generalizing p with
  | nil => exact h
  | cons cell cells ih =>
    obtain ⟨hp, hcell, hrest⟩ := h
    refine ⟨hp, ?_, ih hrest fun a ha => heq a (List.mem_cons_of_mem _ ha)⟩
    rw [heq cell.1 List.mem_cons_self, hcell]

theorem Chain.update [DecidableEq A] (h : Chain next heap p cells q) {a : A}
    (ha : a ∉ cells.map Prod.fst) (c : Option C) :
    Chain next (Function.update heap a c) p cells q := by
  apply h.congr
  intro b hb
  rw [Function.update_of_ne]
  rintro rfl
  exact ha hb

theorem Chain.not_mem_of_free (h : Chain next heap p cells q) {a : A} (ha : heap a = none) :
    a ∉ cells.map Prod.fst := by
  intro hmem
  obtain ⟨⟨b, c⟩, hc, rfl⟩ := List.mem_map.mp hmem
  rw [h.heap_eq hc] at ha
  cases ha

end
end Lib
