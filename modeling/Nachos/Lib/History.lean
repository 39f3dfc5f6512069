import Mathlib.Data.List.Basic
import Mathlib.Tactic.Common

/-! Histories of a machine whose steps may be impossible: the state after a list of events, what
holds all along it, and the rules for a property that holds all along exactly when each event
comes in the right moment. -/

namespace Lib.History
variable {σ ε : Type} {step : σ → ε → Option σ} {s s' : σ} {h h' : List ε}

def run (step : σ → ε → Option σ) : σ → List ε → Option σ
  | s, [] => some s
  | s, e :: h => (step s e).bind fun s' => run step s' h

theorem run_append : run step s (h ++ h') = (run step s h).bind fun s' => run step s' h' := by
  induction h generalizing s with
  | nil => rfl
  | cons e h ih =>
    rw [List.cons_append, run, run, Option.bind_assoc]
    exact congrArg _ (funext fun s' => ih)

/-- The property holds in every state of the history, as far as its events are possible. -/
def Always (step : σ → ε → Option σ) (P : σ → Prop) : σ → List ε → Prop
  | s, [] => P s
  | s, e :: h => P s ∧ ∀ s', step s e = some s' → Always step P s' h

/-- Each possible event comes in a state in which it is allowed. -/
def Meets (step : σ → ε → Option σ) (Ok : σ → ε → Prop) : σ → List ε → Prop
  | _, [] => True
  | s, e :: h => ∀ s', step s e = some s' → Ok s e ∧ Meets step Ok s' h

variable {Inv Good : σ → Prop} {Ok : σ → ε → Prop}

theorem Always.run (ha : Always step Good s h) (hr : run step s h = some s') : Good s' := by
  induction h generalizing s with
  | nil =>
    cases hr
    exact ha
  | cons e h ih =>
    obtain ⟨s₁, he, hr⟩ := Option.bind_eq_some_iff.mp hr
    exact ih (ha.2 s₁ he) hr

theorem run_keeps (hstep : ∀ s e s', Inv s → step s e = some s' → Inv s') (hs : Inv s)
    (hr : run step s h = some s') : Inv s' := by
  induction h generalizing s with
  | nil =>
    cases hr
    exact hs
  | cons e h ih =>
    obtain ⟨s₁, he, hr⟩ := Option.bind_eq_some_iff.mp hr
    exact ih (hstep s e s₁ hs he) hr

theorem Meets.always (hm : Meets step Ok s h) (hgood : ∀ s, Inv s → Good s)
    (hok : ∀ s e s', Inv s → step s e = some s' → Ok s e → Inv s') (hs : Inv s) :
    Always step Good s h := by
  induction h generalizing s with
  | nil => exact hgood s hs
  | cons e h ih =>
    refine ⟨hgood s hs, fun s' he => ?_⟩
    obtain ⟨ho, hm⟩ := hm s' he
    exact ih hm (hok s e s' hs he ho)

/-- Allowed events keep the invariant, and any other event ends in a bad state at once. -/
theorem always_iff_meets (hgood : ∀ s, Inv s → Good s)
    (hok : ∀ s e s', Inv s → step s e = some s' → Ok s e → Inv s')
    (hbad : ∀ s e s', Inv s → step s e = some s' → ¬ Ok s e → ¬ Good s') (hs : Inv s) :
    Always step Good s h ↔ Meets step Ok s h := by
  have start : ∀ s h, Always step Good s h → Good s := fun s h ha => by
    cases h with
    | nil => exact ha
    | cons e h => exact ha.1
  refine ⟨fun ha => ?_, fun hm => hm.always hgood hok hs⟩
  induction h generalizing s with
  | nil => trivial
  | cons e h ih =>
    intro s' he
    have ho : Ok s e := by
      by_contra ho
      exact hbad s e s' hs he ho (start s' h (ha.2 s' he))
    exact ⟨ho, ih (hok s e s' hs he ho) (ha.2 s' he)⟩

/-- The property holds of each event in the state in which it comes, as far as the events are
possible. -/
def Along (step : σ → ε → Option σ) (P : σ → ε → Prop) : σ → List ε → Prop
  | _, [] => True
  | s, e :: h => P s e ∧ ∀ s', step s e = some s' → Along step P s' h

/-- Two properties of events that agree under an invariant, which an event keeps if it has them. -/
theorem along_congr {P Q : σ → ε → Prop} (Inv : σ → Prop) (hPQ : ∀ s e, Inv s → (P s e ↔ Q s e))
    (hstep : ∀ s e s', Inv s → P s e → step s e = some s' → Inv s') (hs : Inv s) :
    Along step P s h ↔ Along step Q s h := by
  induction h generalizing s with
  | nil => exact Iff.rfl
  | cons e h ih =>
    refine (and_congr_right fun hP => ?_).trans (and_congr_left' (hPQ s e hs))
    exact forall₂_congr fun s' he => ih (hstep s e s' hs hP he)

end Lib.History
