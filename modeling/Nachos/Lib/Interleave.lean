import Nachos.Lib.Program
import Mathlib.Logic.Function.Basic

/-! Threads that interleave at every operation, and the rule by which safety of all their
interleavings is shown one thread at a time: each thread has a ghost value, one invariant
ties all ghost values to the shared state, and a thread may rely on nothing else. -/

namespace Lib
variable {S : Signature} {σ α β ι γ : Type} [DecidableEq ι]

/-- The threads' remaining programs, the shared state, and what was executed, latest first. -/
structure Config (S : Signature) (σ α ι : Type) where
  prog : ι → Program S α
  state : σ
  log : List (ι × S.Op)

namespace Config

inductive Step (exec : Handler S σ) (i : ι) (o : S.Op) : Config S σ α ι → Config S σ α ι → Prop
  | mk {c : Config S σ α ι} {k : S.Res o → Program S α} {r : S.Res o} {s' : σ}
      (hc : c.prog i = .call o k) (ho : exec o c.state = .done r s') :
      Step exec i o c ⟨Function.update c.prog i (k r), s', (i, o) :: c.log⟩

/-- Interleavings all of whose steps are allowed by what was executed before them. -/
inductive Run (exec : Handler S σ) (Allowed : List (ι × S.Op) → ι → S.Op → Prop) :
    Config S σ α ι → Config S σ α ι → Prop
  | refl (c : Config S σ α ι) : Run exec Allowed c c
  | tail {c c' c'' : Config S σ α ι} {i : ι} {o : S.Op} (h : Run exec Allowed c c')
      (ha : Allowed c'.log i o) (hs : Step exec i o c' c'') : Run exec Allowed c c''

def Finished (c : Config S σ α ι) (i : ι) : Prop := ∃ a, c.prog i = .ret a

def BlockedIn (exec : Handler S σ) (c : Config S σ α ι) (i : ι) (o : S.Op) : Prop :=
  ∃ k, c.prog i = .call o k ∧ exec o c.state = .block

def runSchedule (exec : Handler S σ) : List ι → Config S σ α ι → Option (Config S σ α ι)
  | [], c => some c
  | i :: is, c =>
    match c.prog i with
    | .ret _ => none
    | .call o k =>
      match exec o c.state with
      | .done r s' => runSchedule exec is ⟨Function.update c.prog i (k r), s', (i, o) :: c.log⟩
      | _ => none

theorem Run.trans {exec : Handler S σ} {A : List (ι × S.Op) → ι → S.Op → Prop}
    {c c' c'' : Config S σ α ι} (h : Run exec A c c') (h' : Run exec A c' c'') :
    Run exec A c c'' := by
  induction h' with
  | refl => exact h
  | tail _ ha hs ih => exact ih.tail ha hs

theorem run_of_runSchedule {exec : Handler S σ} {sched : List ι} {c c' : Config S σ α ι}
    (h : runSchedule exec sched c = some c') : Run exec (fun _ _ _ => True) c c' := by
  induction sched generalizing c with
  | nil =>
    cases h
    exact .refl _
  | cons i is ih =>
    rw [runSchedule] at h
    split at h
    · cases h
    · next o k hc =>
      split at h
      · next r s' ho => exact ((Run.refl c).tail trivial (.mk hc ho)).trans (ih h)
      · cases h

theorem run_of_reach {exec : Handler S σ} {R : Program S α → σ → Prop} {c : Config S σ α ι} {i : ι}
    (h : (c.prog i).Reach exec R c.state) :
    ∃ c', Run exec (fun _ _ _ => True) c c' ∧ R (c'.prog i) c'.state ∧
      ∀ j ≠ i, c'.prog j = c.prog j := by
  generalize hp : c.prog i = p at h
  generalize hs : c.state = s at h
  induction h generalizing c with
  | here h =>
    subst hp hs
    exact ⟨c, .refl c, h, fun _ _ => rfl⟩
  | @step o k r s s' ho _ ih =>
    subst hs
    obtain ⟨c', hr, hR, hj⟩ := ih (c := ⟨Function.update c.prog i (k r), s', (i, o) :: c.log⟩)
      (Function.update_self ..) rfl
    refine ⟨c', ((Run.refl c).tail trivial (.mk hp ho)).trans hr, hR, fun j hne => ?_⟩
    exact (hj j hne).trans (Function.update_of_ne hne ..)

end Config

/-! ## The ghost-value rule -/

/-- `Inv` ties the threads' ghost values to the log and the shared state; `Allowed` is the
assumption on the interleaving; `MayBlock g o` says that a thread with ghost value `g` may
have to wait in `o`. -/
structure Protocol (S : Signature) (σ ι γ : Type) where
  Inv : (ι → γ) → List (ι × S.Op) → σ → Prop
  Allowed : List (ι × S.Op) → ι → S.Op → Prop
  MayBlock : γ → S.Op → Prop

variable {exec : Handler S σ} {P : Protocol S σ ι γ} {i : ι}

/-- Thread `i` with ghost value `g` runs safely: whatever the other ghost values are, each of
its operations keeps the invariant for some new ghost value of its own, waits only where it
may and never faults. -/
def Safe (exec : Handler S σ) (P : Protocol S σ ι γ) (i : ι) :
    Program S α → (α → γ → Prop) → γ → Prop
  | .ret a, Q, g => Q a g
  | .call o k, Q, g => ∀ G l s, P.Inv G l s → G i = g → P.Allowed l i o →
    match exec o s with
    | .done r s' => ∃ g', P.Inv (Function.update G i g') ((i, o) :: l) s' ∧ Safe exec P i (k r) Q g'
    | .block => P.MayBlock g o
    | .fault => False

namespace Safe
variable {Q R : α → γ → Prop} {g : γ}

theorem mono {p : Program S α} (h : Safe exec P i p Q g) (hQ : ∀ a g', Q a g' → R a g') :
    Safe exec P i p R g := by
  induction p generalizing g with
  | ret a => exact hQ a g h
  | call o k ih =>
    intro G l s hI hg ha
    have hs := h G l s hI hg ha
    cases ho : exec o s with
    | done r s' =>
      rw [ho] at hs
      obtain ⟨g', hI', hk⟩ := hs
      exact ⟨g', hI', ih r hk⟩
    | block => rw [ho] at hs; exact hs
    | fault => rw [ho] at hs; exact hs

theorem bind {p : Program S α} {f : α → Program S β} {Q : β → γ → Prop}
    (h : Safe exec P i p (fun a g' => Safe exec P i (f a) Q g') g) :
    Safe exec P i (p >>= f) Q g := by
  induction p generalizing g with
  | ret a => exact h
  | call o k ih =>
    rw [Program.call_bind]
    intro G l s hI hg ha
    have hs := h G l s hI hg ha
    cases ho : exec o s with
    | done r s' =>
      rw [ho] at hs
      obtain ⟨g', hI', hk⟩ := hs
      exact ⟨g', hI', ih r hk⟩
    | block => rw [ho] at hs; exact hs
    | fault => rw [ho] at hs; exact hs

theorem perform {o : S.Op} {Q : S.Res o → γ → Prop}
    (h : ∀ G l s, P.Inv G l s → G i = g → P.Allowed l i o →
      (∃ r s' g', exec o s = .done r s' ∧ P.Inv (Function.update G i g') ((i, o) :: l) s' ∧
        Q r g') ∨ exec o s = .block ∧ P.MayBlock g o) :
    Safe exec P i (Program.perform o) Q g := by
  intro G l s hI hg ha
  obtain ⟨r, s', g', ho, hI', hQ⟩ | ⟨ho, hb⟩ := h G l s hI hg ha
  · rw [ho]
    exact ⟨g', hI', hQ⟩
  · rw [ho]
    exact hb

/-- Every reachable configuration of safe threads satisfies the invariant, for some ghost
values with which the threads are still safe. -/
theorem sound {Q : ι → α → γ → Prop} {c c' : Config S σ α ι} {G : ι → γ}
    (hI : P.Inv G c.log c.state) (hc : ∀ i, Safe exec P i (c.prog i) (Q i) (G i))
    (hr : Config.Run exec P.Allowed c c') :
    ∃ G', P.Inv G' c'.log c'.state ∧ ∀ i, Safe exec P i (c'.prog i) (Q i) (G' i) := by
  induction hr with
  | refl => exact ⟨G, hI, hc⟩
  | @tail c₁ c₂ i o _ ha hs ih =>
    obtain ⟨G₁, hI₁, hS₁⟩ := ih
    obtain ⟨hp, ho⟩ := hs
    have hi := hS₁ i
    rw [hp] at hi
    have hstep := hi G₁ _ _ hI₁ rfl ha
    rw [ho] at hstep
    obtain ⟨g', hI', hk⟩ := hstep
    refine ⟨Function.update G₁ i g', hI', fun j => ?_⟩
    by_cases hj : j = i
    · subst hj
      simpa only [Function.update_self] using hk
    · simpa only [Function.update_of_ne hj] using hS₁ j

end Safe
end Lib
