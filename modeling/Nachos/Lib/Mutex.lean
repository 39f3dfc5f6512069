import Mathlib.Logic.Basic
import Mathlib.Tactic.Common

/-! Who holds a binary semaphore, as a ghost predicate on threads. -/

namespace Lib
variable {ι : Type}

/-- The semaphore `m` is 1 while no thread holds it, and 0 while the one thread does that
holds it. -/
structure Owned (holds : ι → Prop) (m : Nat) : Prop where
  free : (∀ i, ¬ holds i) → m = 1
  taken : ∀ i, holds i → m = 0
  once : ∀ i j, holds i → holds j → i = j

namespace Owned
variable {holds holds' : ι → Prop} {m : Nat} {i : ι}

theorem congr (h : Owned holds m) (he : ∀ j, holds' j ↔ holds j) : Owned holds' m := by
  have heq : holds' = holds := funext fun j => propext (he j)
  rwa [heq]

theorem not_holds (h : Owned holds m) (hm : m ≠ 0) (j : ι) : ¬ holds j :=
  fun hj => hm (h.taken j hj)

theorem exists_holder (h : Owned holds m) (hm : m = 0) : ∃ i, holds i := by
  by_contra hnone
  have := h.free (not_exists.mp hnone)
  omega

theorem take (h : Owned holds m) (hm : m ≠ 0) (he : ∀ j, holds' j ↔ j = i) :
    Owned holds' (m - 1) where
  free hnone := absurd ((he i).mpr rfl) (hnone i)
  taken _ _ := by rw [h.free (h.not_holds hm)]
  once j k hj hk := ((he j).mp hj).trans ((he k).mp hk).symm

theorem give (h : Owned holds m) (hi : holds i) (he : ∀ j, ¬ holds' j) : Owned holds' (m + 1) where
  free _ := by rw [h.taken i hi]
  taken j hj := absurd hj (he j)
  once j _ hj _ := absurd hj (he j)

end Owned
end Lib
