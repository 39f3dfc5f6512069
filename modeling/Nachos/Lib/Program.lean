import Mathlib.Logic.Basic
import Mathlib.Tactic.Common

/-! Programs over a signature of operations, as finite trees. One program text is run
alone by `Program.run`, judged by the total-correctness rules of `Program.wp`, and
interleaved with others in `Lib/Interleave`. -/

namespace Lib

/-- The operations a program may call, and what each of them answers. -/
structure Signature where
  Op : Type
  Res : Op → Type

inductive Program (S : Signature) (α : Type) where
  | ret (a : α)
  | call (o : S.Op) (k : S.Res o → Program S α)

/-- What a machine does with one operation: it completes, the caller has to wait, or the
execution is lost (a failed assertion, an access outside an object). -/
inductive Outcome (α σ : Type) where
  | done (a : α) (s : σ)
  | block
  | fault

def Outcome.value {α σ : Type} : Outcome α σ → Option α
  | done a _ => some a
  | _ => none

abbrev Handler (S : Signature) (σ : Type) := (o : S.Op) → σ → Outcome (S.Res o) σ

namespace Program
variable {S : Signature} {σ α β γ : Type}

def bind : Program S α → (α → Program S β) → Program S β
  | ret a, f => f a
  | call o k, f => call o fun r => (k r).bind f

instance : Monad (Program S) where
  pure := ret
  bind := bind

theorem pure_eq (a : α) : (pure a : Program S α) = ret a := rfl

@[simp] theorem ret_bind (a : α) (f : α → Program S β) : (ret a : Program S α) >>= f = f a := rfl

@[simp] theorem call_bind (o : S.Op) (k : S.Res o → Program S α) (f : α → Program S β) :
    call o k >>= f = call o fun r => k r >>= f := rfl

theorem bind_ret (p : Program S α) : (p >>= fun a => ret a) = p := by
  induction p with
  | ret a => rfl
  | call o k ih => rw [call_bind]; exact congrArg (call o) (funext ih)

@[simp] theorem bind_assoc' (p : Program S α) (f : α → Program S β) (g : β → Program S γ) :
    p >>= f >>= g = p >>= fun a => f a >>= g := by
  induction p with
  | ret a => rfl
  | call o k ih => simp only [call_bind]; exact congrArg (call o) (funext ih)

instance : LawfulMonad (Program S) :=
  LawfulMonad.mk' _ (fun p => bind_ret p) (fun _ _ => rfl) (fun p f g => bind_assoc' p f g)

def perform (o : S.Op) : Program S (S.Res o) := call o ret

@[simp] theorem perform_bind (o : S.Op) (f : S.Res o → Program S β) :
    perform o >>= f = call o f := rfl

/-- Implement the operations of one signature by programs over another. -/
def translate {T : Signature} (f : (o : S.Op) → Program T (S.Res o)) : Program S α → Program T α
  | ret a => ret a
  | call o k => f o >>= fun r => (k r).translate f

/-- All operations that the program may come to, whatever the answers, satisfy `P`. -/
def Uses (P : S.Op → Prop) : Program S α → Prop
  | ret _ => True
  | call o k => P o ∧ ∀ r, (k r).Uses P

theorem Uses.bind {P : S.Op → Prop} {p : Program S α} {f : α → Program S β} (hp : p.Uses P)
    (hf : ∀ a, (f a).Uses P) : (p >>= f).Uses P := by
  induction p with
  | ret a => exact hf a
  | call o k ih => exact ⟨hp.1, fun r => ih r (hp.2 r)⟩

theorem Uses.mono {P P' : S.Op → Prop} {p : Program S α} (hp : p.Uses P) (h : ∀ o, P o → P' o) :
    p.Uses P' := by
  induction p with
  | ret a => trivial
  | call o k ih => exact ⟨h o hp.1, fun r => ih r (hp.2 r)⟩

def Yields (P : α → Prop) : Program S α → Prop
  | ret a => P a
  | call _ k => ∀ r, (k r).Yields P

/-! ## Running a program alone -/

def run (exec : Handler S σ) : Program S α → σ → Outcome α σ
  | ret a, s => .done a s
  | call o k, s =>
    match exec o s with
    | .done r s' => (k r).run exec s'
    | .block => .block
    | .fault => .fault

/-- Started in `s`, the program returns, and `Q` holds of its result and of the state it
leaves. -/
def wp (exec : Handler S σ) (p : Program S α) (Q : α → σ → Prop) (s : σ) : Prop :=
  ∃ a s', p.run exec s = .done a s' ∧ Q a s'

variable {exec : Handler S σ} {s s' : σ} {Q R : α → σ → Prop}

@[simp] theorem wp_ret (a : α) : wp exec (ret a) Q s ↔ Q a s := by
  constructor
  · rintro ⟨_, _, h, hQ⟩
    cases h
    exact hQ
  · intro h
    exact ⟨a, s, rfl, h⟩

theorem wp_call {o : S.Op} {k : S.Res o → Program S α} {r : S.Res o}
    (ho : exec o s = .done r s') : wp exec (call o k) Q s ↔ wp exec (k r) Q s' := by
  simp only [wp, run, ho]

theorem not_wp_of_block {o : S.Op} {k : S.Res o → Program S α} (ho : exec o s = .block) :
    ¬ wp exec (call o k) Q s := by
  simp [wp, run, ho]

theorem not_wp_of_fault {o : S.Op} {k : S.Res o → Program S α} (ho : exec o s = .fault) :
    ¬ wp exec (call o k) Q s := by
  simp [wp, run, ho]

theorem wp_mono {p : Program S α} (h : wp exec p Q s) (hQ : ∀ a s', Q a s' → R a s') :
    wp exec p R s := by
  obtain ⟨a, s', hr, hq⟩ := h
  exact ⟨a, s', hr, hQ a s' hq⟩

theorem wp_bind {p : Program S α} {f : α → Program S β} {Q : β → σ → Prop} :
    wp exec (p >>= f) Q s ↔ wp exec p (fun a s' => wp exec (f a) Q s') s := by
  induction p generalizing s with
  | ret a => rw [ret_bind, wp_ret]
  | call o k ih =>
    rw [call_bind]
    cases ho : exec o s with
    | done r s' => rw [wp_call ho, wp_call ho, ih]
    | block => simp [wp, run, ho]
    | fault => simp [wp, run, ho]

theorem wp_run {p : Program S α} {a : α} (h : wp exec p Q s)
    (hr : p.run exec s = .done a s') : Q a s' := by
  obtain ⟨b, t, hb, hQ⟩ := h
  rw [hr] at hb
  cases hb
  exact hQ

theorem wp_and {p : Program S α} (h : wp exec p Q s) (h' : wp exec p R s) :
    wp exec p (fun a s' => Q a s' ∧ R a s') s := by
  obtain ⟨a, s', hr, hq⟩ := h
  exact ⟨a, s', hr, hq, wp_run h' hr⟩

theorem exists_wp_iff {p : Program S α} (h : wp exec p R s) :
    ∃ a s', R a s' ∧ ∀ Q : α → σ → Prop, wp exec p Q s ↔ Q a s' := by
  obtain ⟨a, s', hr, hR⟩ := h
  exact ⟨a, s', hR, fun Q => ⟨fun hw => wp_run hw hr, fun hq => ⟨a, s', hr, hq⟩⟩⟩

theorem run_eq_done_iff {p : Program S α} {a : α} :
    p.run exec s = .done a s' ↔ wp exec p (fun b t => b = a ∧ t = s') s := by
  constructor
  · intro h
    exact ⟨a, s', h, rfl, rfl⟩
  · rintro ⟨_, _, h, rfl, rfl⟩
    exact h

theorem wp_of_value {p : Program S α} {a : α} (h : (p.run exec s).value = some a) :
    wp exec p (fun b _ => b = a) s := by
  cases hr : p.run exec s with
  | done b s' =>
    rw [hr] at h
    exact ⟨b, s', hr, Option.some.inj h⟩
  | block =>
    rw [hr] at h
    cases h
  | fault =>
    rw [hr] at h
    cases h

theorem not_wp_of_value {p : Program S α} (h : (p.run exec s).value = none) :
    ¬ wp exec p Q s := by
  rintro ⟨a, s', hr, -⟩
  rw [hr] at h
  cases h

/-! ## Points that a program comes to -/

/-- Run alone, the program comes to a point where `R` holds of what remains of it and of the
state. -/
inductive Reach (exec : Handler S σ) (R : Program S α → σ → Prop) : Program S α → σ → Prop
  | here {p : Program S α} {s : σ} (h : R p s) : Reach exec R p s
  | step {o : S.Op} {k : S.Res o → Program S α} {r : S.Res o} {s s' : σ}
      (ho : exec o s = .done r s') (h : Reach exec R (k r) s') : Reach exec R (call o k) s

theorem Reach.bind {p : Program S α} {f : α → Program S β} {R : Program S β → σ → Prop}
    (h : wp exec p (fun a s' => Reach exec R (f a) s') s) : Reach exec R (p >>= f) s := by
  induction p generalizing s with
  | ret a => exact (wp_ret a).mp h
  | call o k ih =>
    cases ho : exec o s with
    | done r s' => exact .step ho (ih r ((wp_call ho).mp h))
    | block => exact absurd h (not_wp_of_block ho)
    | fault => simp [wp, run, ho] at h

theorem reach_of_wp {p : Program S α} (h : wp exec p Q s) :
    Reach exec (fun q s' => ∃ a, q = ret a ∧ Q a s') p s := by
  rw [← bind_ret p]
  exact .bind (wp_mono h fun a s' hQ => .here ⟨a, rfl, hQ⟩)

/-- Run alone, the program comes to an operation of the kind `bad`. -/
def Performs (exec : Handler S σ) (bad : S.Op → Prop) (p : Program S α) (s : σ) : Prop :=
  Reach exec (fun q _ => ∃ o k, q = call o k ∧ bad o) p s

variable {bad : S.Op → Prop}

theorem not_performs_ret (a : α) : ¬ Performs exec bad (ret a) s := by
  intro h
  cases h with
  | here h =>
    obtain ⟨o, k, he, -⟩ := h
    cases he

theorem performs_call {o : S.Op} {k : S.Res o → Program S α} :
    Performs exec bad (call o k) s ↔
      bad o ∨ ∃ r s', exec o s = .done r s' ∧ Performs exec bad (k r) s' := by
  constructor
  · intro h
    cases h with
    | here h =>
      obtain ⟨o', k', he, hb⟩ := h
      cases he
      exact .inl hb
    | step ho h => exact .inr ⟨_, _, ho, h⟩
  · rintro (hb | ⟨r, s', ho, h⟩)
    · exact .here ⟨o, k, rfl, hb⟩
    · exact .step ho h

theorem performs_bind {p : Program S α} {f : α → Program S β} :
    Performs exec bad (p >>= f) s ↔
      Performs exec bad p s ∨ wp exec p (fun a s' => Performs exec bad (f a) s') s := by
  induction p generalizing s with
  | ret a => rw [ret_bind, wp_ret, or_iff_right (not_performs_ret a)]
  | call o k ih =>
    rw [call_bind, performs_call, performs_call, or_assoc]
    refine or_congr_right ?_
    cases ho : exec o s with
    | done r s' =>
      rw [wp_call ho]
      constructor
      · rintro ⟨_, _, he, h⟩
        cases he
        exact (ih r).mp h |>.imp_left fun h => ⟨r, s', rfl, h⟩
      · rintro (⟨_, _, he, h⟩ | h)
        · cases he
          exact ⟨r, s', rfl, (ih r).mpr (.inl h)⟩
        · exact ⟨r, s', rfl, (ih r).mpr (.inr h)⟩
    | block => simp [wp, run, ho]
    | fault => simp [wp, run, ho]

/-- If an execution is lost by the bad operations and only by them, it is lost by coming to one. -/
theorem performs_iff_value_eq_none {p : Program S α} (hbad : ∀ o s, bad o → exec o s = .fault)
    (hgood : ∀ o s, ¬ bad o → ∃ r s', exec o s = .done r s') :
    Performs exec bad p s ↔ (p.run exec s).value = none := by
  induction p generalizing s with
  | ret a => exact iff_of_false (not_performs_ret a) (by simp [run, Outcome.value])
  | call o k ih =>
    rw [performs_call, run]
    by_cases hb : bad o
    · rw [hbad o s hb]
      exact iff_of_true (.inl hb) rfl
    · obtain ⟨r, s', ho⟩ := hgood o s hb
      rw [ho, ← ih r]
      constructor
      · rintro (h | ⟨_, _, he, h⟩)
        · exact absurd h hb
        · cases he
          exact h
      · intro h
        exact .inr ⟨r, s', rfl, h⟩

theorem Uses.not_performs {p : Program S α} (h : p.Uses fun o => ¬ bad o) :
    ¬ Performs exec bad p s := by
  induction p generalizing s with
  | ret a => exact not_performs_ret a
  | call o k ih =>
    rw [performs_call]
    rintro (hb | ⟨r, s', -, hp⟩)
    · exact h.1 hb
    · exact ih r (h.2 r) hp

end Program
end Lib
