import Nachos.Lib.Program
import Mathlib.Logic.Function.Basic

/-! Threads on a machine that itself decides whose turn it is. The machine says what an
operation of a thread does, for every way in which the choices it leaves open may fall, and
what happens between operations. An operation may also have to be executed again, when its
thread runs next.

Safety of all runs is shown one thread at a time: each thread has a ghost value, one invariant
ties the ghost values to the state, and a thread may rely on nothing else. -/

namespace Lib
variable {S : Signature} {σ α β ι χ γ : Type} [DecidableEq ι]

inductive Effect (α σ : Type) where
  | done (a : α) (s : σ)
  | again (s : σ)

def Effect.state : Effect α σ → σ
  | .done _ s => s
  | .again s => s

structure Platform (S : Signature) (σ ι χ : Type) where
  exec : ι → (o : S.Op) → χ → σ → Option (Effect (S.Res o) σ)
  env : χ → σ → Option σ

structure Tasks (S : Signature) (σ α ι : Type) where
  prog : ι → Program S α
  state : σ

inductive Move (ι χ : Type) where
  | act (i : ι) (x : χ)
  | env (x : χ)

namespace Platform
variable {P : Platform S σ ι χ} {A : Tasks S σ α ι → Move ι χ → Prop} {c c' c'' : Tasks S σ α ι}

def step (P : Platform S σ ι χ) : Move ι χ → Tasks S σ α ι → Option (Tasks S σ α ι)
  | .act i x, c =>
    match c.prog i with
    | .ret _ => none
    | .call o k =>
      (P.exec i o x c.state).map fun
        | .done r s => ⟨Function.update c.prog i (k r), s⟩
        | .again s => ⟨c.prog, s⟩
  | .env x, c => (P.env x c.state).map fun s => ⟨c.prog, s⟩

/-- Runs all of whose moves are allowed where they are made. -/
inductive Run (P : Platform S σ ι χ) (A : Tasks S σ α ι → Move ι χ → Prop) :
    Tasks S σ α ι → Tasks S σ α ι → Prop
  | refl (c : Tasks S σ α ι) : Run P A c c
  | tail {c c' c'' : Tasks S σ α ι} {mv : Move ι χ} (h : Run P A c c') (ha : A c' mv)
      (hs : P.step mv c' = some c'') : Run P A c c''

/-- The run with the given moves, as long as they pass the check. -/
def replayIf (P : Platform S σ ι χ) (ok : Tasks S σ α ι → Move ι χ → Bool) :
    List (Move ι χ) → Tasks S σ α ι → Option (Tasks S σ α ι)
  | [], c => some c
  | mv :: mvs, c => if ok c mv then (P.step mv c).bind (P.replayIf ok mvs) else none

def replay (P : Platform S σ ι χ) (mvs : List (Move ι χ)) (c : Tasks S σ α ι) : Option
    (Tasks S σ α ι) :=
  P.replayIf (fun _ _ => true) mvs c

theorem Run.trans (h : Run P A c c') (h' : Run P A c' c'') : Run P A c c'' := by
  induction h' with
  | refl => exact h
  | tail _ ha hs ih => exact ih.tail ha hs

theorem run_of_replayIf {ok : Tasks S σ α ι → Move ι χ → Bool}
    (hok : ∀ c mv, ok c mv = true → A c mv)
    (mvs : List (Move ι χ)) (h : P.replayIf ok mvs c = some c') : Run P A c c' := by
  induction mvs generalizing c with
  | nil =>
    cases h
    exact .refl _
  | cons mv mvs ih =>
    rw [replayIf] at h
    split at h
    · next ho =>
      obtain ⟨c₁, hs, h⟩ := Option.bind_eq_some_iff.mp h
      exact ((Run.refl c).tail (hok c mv ho) hs).trans (ih h)
    · cases h

theorem run_of_replay (mvs : List (Move ι χ)) (h : P.replay mvs c = some c') :
    Run P (fun _ _ => True) c c' :=
  run_of_replayIf (fun _ _ _ => trivial) mvs h

theorem Run.mono {B : Tasks S σ α ι → Move ι χ → Prop} (hAB : ∀ c mv, A c mv → B c mv)
    (h : Run P A c c') :
    Run P B c c' := by
  induction h with
  | refl => exact .refl c
  | tail _ ha hs ih => exact ih.tail (hAB _ _ ha) hs

theorem Run.strengthen {K : Tasks S σ α ι → Prop} (hK : ∀ c', Run P A c c' → K c')
    (h : Run P A c c') :
    Run P (fun c mv => A c mv ∧ K c) c c' := by
  induction h with
  | refl => exact .refl c
  | tail h ha hs ih => exact ih.tail ⟨ha, hK _ h⟩ hs

theorem step_cases {mv : Move ι χ} (h : P.step mv c = some c') :
    (∃ i x o k r s, mv = .act i x ∧ c.prog i = .call o k ∧ P.exec i o x c.state = some (.done r s) ∧
      c' = ⟨Function.update c.prog i (k r), s⟩) ∨
    (∃ i x o k s, mv = .act i x ∧ c.prog i = .call o k ∧ P.exec i o x c.state = some (.again s) ∧
      c' = ⟨c.prog, s⟩) ∨
    ∃ x s, mv = .env x ∧ P.env x c.state = some s ∧ c' = ⟨c.prog, s⟩ := by
  cases mv with
  | act i x =>
    rw [step] at h
    split at h
    · cases h
    · next o k hp =>
      obtain ⟨e, he, rfl⟩ := Option.map_eq_some_iff.mp h
      cases e with
      | done r s => exact .inl ⟨i, x, o, k, r, s, rfl, hp, he, rfl⟩
      | again s => exact .inr (.inl ⟨i, x, o, k, s, rfl, hp, he, rfl⟩)
  | env x =>
    obtain ⟨s, hs, rfl⟩ := Option.map_eq_some_iff.mp h
    exact .inr (.inr ⟨x, s, rfl, hs, rfl⟩)

theorem Run.invariant {I : σ → Prop} (hexec : ∀ i o x s r s', I s →
    P.exec i o x s = some (.done r s') → I s')
    (hagain : ∀ i o x s s', I s → P.exec i o x s = some (.again s') → I s')
    (henv : ∀ x s s', I s → P.env x s = some s' → I s') (hr : Run P A c c') (h : I c.state) :
    I c'.state := by
  induction hr with
  | refl => exact h
  | tail _ _ hs ih =>
    obtain ⟨i, x, o, k, r, s, -, -, he, rfl⟩ | ⟨i, x, o, k, s, -, -, he, rfl⟩ | ⟨x, s, -,
      he, rfl⟩ :=
      step_cases hs
    · exact hexec i o x _ r s ih he
    · exact hagain i o x _ s ih he
    · exact henv x _ s ih he

/-! ## A thread that is left alone -/

/-- Thread `i` can execute the program without a move of anybody else, such that `Q` holds at its
end. -/
def May (P : Platform S σ ι χ) (i : ι) : Program S α → (α → σ → Prop) → σ → Prop
  | .ret a, Q, s => Q a s
  | .call o k, Q, s => ∃ x r s', P.exec i o x s = some (.done r s') ∧ P.May i (k r) Q s'

section May
variable {i : ι} {s s' : σ} {Q R : α → σ → Prop}

omit [DecidableEq ι] in
theorem May.mono {p : Program S α} (h : P.May i p Q s) (hQ : ∀ a s', Q a s' → R a s') :
    P.May i p R s := by
  induction p generalizing s with
  | ret a => exact hQ a s h
  | call o k ih =>
    obtain ⟨x, r, s', he, hk⟩ := h
    exact ⟨x, r, s', he, ih r hk⟩

omit [DecidableEq ι] in
theorem May.bind {p : Program S α} {f : α → Program S β} {T : β → σ → Prop}
    (hp : P.May i p Q s) (hf : ∀ a s', Q a s' → P.May i (f a) T s') : P.May i (p >>= f) T s := by
  induction p generalizing s with
  | ret a => exact hf a s hp
  | call o k ih =>
    obtain ⟨x, r, s', he, hk⟩ := hp
    exact ⟨x, r, s', he, ih r hk⟩

theorem May.run {p : Program S α} {f : α → Program S β} {c : Tasks S σ β ι}
    (h : P.May i p Q c.state) (hp : c.prog i = p >>= f) :
    ∃ a s', Q a s' ∧ Run P (fun _ _ => True) c ⟨Function.update c.prog i (f a), s'⟩ := by
  induction p generalizing c with
  | ret a =>
    refine ⟨a, c.state, h, ?_⟩
    have hc : Function.update c.prog i (f a) = c.prog :=
      Function.update_eq_self_iff.mpr hp.symm
    rw [hc]
    exact .refl c
  | call o k ih =>
    obtain ⟨x, r, s', he, hk⟩ := h
    have hs : P.step (.act i x) c = some ⟨Function.update c.prog i (k r >>= f), s'⟩ := by
      rw [step, hp, Program.call_bind]
      simp only [he, Option.map_some]
    obtain ⟨a, s'', hQ, hr⟩ := ih r (c := ⟨Function.update c.prog i (k r >>= f), s'⟩) hk
      (Function.update_self ..)
    refine ⟨a, s'', hQ, ((Run.refl c).tail trivial hs).trans ?_⟩
    simpa only [Function.update_idem] using hr

end May
end Platform

/-! ## The ghost-value rule -/

/-- `Inv` ties the threads' ghost values to the state; `Allowed` is the assumption on the
moves; `Legal` is what is to be shown of every operation that a thread comes to. -/
structure Discipline (S : Signature) (σ ι χ γ : Type) where
  Inv : (ι → γ) → σ → Prop
  Allowed : σ → ι → S.Op → χ → Prop
  Legal : S.Op → Prop

def Discipline.Meets (D : Discipline S σ ι χ γ) (c : Tasks S σ α ι) : Move ι χ → Prop
  | .act i x => ∀ o k, c.prog i = .call o k → D.Allowed c.state i o x
  | .env _ => True

namespace Platform
variable {P : Platform S σ ι χ} {D : Discipline S σ ι χ γ} {i : ι}

/-- Thread `i` with ghost value `g` runs safely: whatever the other ghost values are, each of
its operations keeps the invariant for some new ghost value of its own, and for the old one as
long as the operation is to be executed again. -/
def Safe (P : Platform S σ ι χ) (D : Discipline S σ ι χ γ) (i : ι) :
    Program S α → (α → γ → Prop) → γ → Prop
  | .ret a, Q, g => Q a g
  | .call o k, Q, g => D.Legal o ∧ ∀ G s x, D.Inv G s → G i = g → D.Allowed s i o x →
    (∀ r s', P.exec i o x s = some (.done r s') →
      ∃ g', D.Inv (Function.update G i g') s' ∧ Safe P D i (k r) Q g') ∧
    ∀ s', P.exec i o x s = some (.again s') → D.Inv G s'

namespace Safe
variable {Q R : α → γ → Prop} {g : γ}

theorem mono {p : Program S α} (h : Safe P D i p Q g) (hQ : ∀ a g', Q a g' → R a g') :
    Safe P D i p R g := by
  induction p generalizing g with
  | ret a => exact hQ a g h
  | call o k ih =>
    refine ⟨h.1, fun G s x hI hg ha => ⟨fun r s' he => ?_, (h.2 G s x hI hg ha).2⟩⟩
    obtain ⟨g', hI', hk⟩ := (h.2 G s x hI hg ha).1 r s' he
    exact ⟨g', hI', ih r hk⟩

theorem bind {p : Program S α} {f : α → Program S β} {T : β → γ → Prop} (hp : Safe P D i p Q g)
    (hf : ∀ a g', Q a g' → Safe P D i (f a) T g') : Safe P D i (p >>= f) T g := by
  induction p generalizing g with
  | ret a => exact hf a g hp
  | call o k ih =>
    rw [Program.call_bind]
    refine ⟨hp.1, fun G s x hI hg ha => ⟨fun r s' he => ?_, (hp.2 G s x hI hg ha).2⟩⟩
    obtain ⟨g', hI', hk⟩ := (hp.2 G s x hI hg ha).1 r s' he
    exact ⟨g', hI', ih r hk⟩

theorem bind_eq {p : Program S α} {f : α → Program S β} {T : β → γ → Prop} {g₁ : α → γ}
    (hp : Safe P D i p (fun a g' => g' = g₁ a) g) (hf : ∀ a, Safe P D i (f a) T (g₁ a)) :
    Safe P D i (p >>= f) T g :=
  hp.bind fun a g' hg => by
    subst hg
    exact hf a

/-- A program of calls that are themselves programs. `C` says with which ghost values the
program of calls can go on. -/
theorem translate {S' : Signature} {f : (o : S'.Op) → Program S (S'.Res o)}
    {C : Program S' α → γ → Prop}
    (hret : ∀ a g, C (.ret a) g → Q a g)
    (hcall : ∀ o k g, C (.call o k) g → Safe P D i (f o) (fun r g' => C (k r) g') g)
    {p : Program S' α} (hp : C p g) : Safe P D i (p.translate f) Q g := by
  induction p generalizing g with
  | ret a => exact hret a g hp
  | call o k ih => exact (hcall o k g hp).bind fun r g' hk => ih r hk

theorem of_uses {p : Program S α} (hp : p.Uses fun o => D.Legal o ∧ ∀ G s x e, D.Inv G s → G i = g →
    P.exec i o x s = some e → D.Inv G e.state) : Safe P D i p (fun _ g' => g' = g) g := by
  induction p with
  | ret a => rfl
  | call o k ih =>
    refine ⟨hp.1.1, fun G s x hI hg _ => ⟨fun r s' he => ⟨g, ?_, ih r (hp.2 r)⟩,
      fun s' he => hp.1.2 G s x _ hI hg he⟩⟩
    rw [← hg, Function.update_eq_self]
    exact hp.1.2 G s x _ hI hg he

/-- Every reachable configuration of safe threads satisfies the invariant, for some ghost
values with which the threads are still safe. -/
theorem sound {Q : ι → α → γ → Prop} {c c' : Tasks S σ α ι} {G : ι → γ}
    (henv : ∀ G x s s', D.Inv G s → P.env x s = some s' → D.Inv G s')
    (hI : D.Inv G c.state) (hc : ∀ i, Safe P D i (c.prog i) (Q i) (G i)) (hr : P.Run D.Meets c c') :
    ∃ G', D.Inv G' c'.state ∧ ∀ i, Safe P D i (c'.prog i) (Q i) (G' i) := by
  induction hr with
  | refl => exact ⟨G, hI, hc⟩
  | @tail c₁ c₂ mv _ ha hs ih =>
    obtain ⟨G₁, hI₁, hS₁⟩ := ih
    obtain ⟨i, x, o, k, r, s, rfl, hp, he, rfl⟩ | ⟨i, x, o, k, s, rfl, hp, he, rfl⟩ | ⟨x, s, rfl,
      he, rfl⟩ :=
      step_cases hs
    · have hi := hS₁ i
      rw [hp] at hi
      obtain ⟨g', hI', hk⟩ := (hi.2 G₁ _ x hI₁ rfl (ha o k hp)).1 r s he
      refine ⟨Function.update G₁ i g', hI', fun j => ?_⟩
      by_cases hj : j = i
      · subst hj
        simpa only [Function.update_self] using hk
      · simpa only [Function.update_of_ne hj] using hS₁ j
    · have hi := hS₁ i
      rw [hp] at hi
      exact ⟨G₁, (hi.2 G₁ _ x hI₁ rfl (ha o k hp)).2 s he, hS₁⟩
    · exact ⟨G₁, henv G₁ x _ s hI₁ he, hS₁⟩

theorem legal {p : Program S α} {o : S.Op} {k : S.Res o → Program S α} (h : Safe P D i p Q g)
    (hp : p = .call o k) : D.Legal o := by
  subst hp
  exact h.1

end Safe
end Platform
end Lib
