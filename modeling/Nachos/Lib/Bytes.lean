import Mathlib.Data.List.Basic
import Mathlib.Tactic.Common

/-! Little-endian words in byte strings, and the overwriting of a part of a string. -/

namespace Lib

abbrev Byte := BitVec 8
abbrev Word := BitVec 32

/-! ## Words and bytes -/

def leBytes (w : Word) : List Byte :=
  [w.extractLsb' 0 8, w.extractLsb' 8 8, w.extractLsb' 16 8, w.extractLsb' 24 8]

def leWord (b₀ b₁ b₂ b₃ : Byte) : Word := b₃ ++ b₂ ++ b₁ ++ b₀

def bytesOfWords (ws : List Word) : List Byte := ws.flatMap leBytes

def wordsOfBytes : List Byte → List Word
  | b₀ :: b₁ :: b₂ :: b₃ :: bs => leWord b₀ b₁ b₂ b₃ :: wordsOfBytes bs
  | _ => []

theorem leWord_extract (w : Word) : leWord (w.extractLsb' 0 8) (w.extractLsb' 8 8)
    (w.extractLsb' 16 8) (w.extractLsb' 24 8) = w := by
  apply BitVec.eq_of_getLsbD_eq
  intro i hi
  simp only [leWord, BitVec.getLsbD_append, BitVec.getLsbD_extractLsb']
  grind

theorem leBytes_leWord (b₀ b₁ b₂ b₃ : Byte) :
    leBytes (leWord b₀ b₁ b₂ b₃) = [b₀, b₁, b₂, b₃] := by
  have h (k : Nat) (b : Byte) (hb : ∀ i < 8, (leWord b₀ b₁ b₂ b₃).getLsbD (k + i) = b.getLsbD i) :
      (leWord b₀ b₁ b₂ b₃).extractLsb' k 8 = b := by
    apply BitVec.eq_of_getLsbD_eq
    intro i hi
    simp [hi, hb i hi]
  simp only [leBytes, List.cons.injEq, and_true]
  refine ⟨h 0 b₀ ?_, h 8 b₁ ?_, h 16 b₂ ?_, h 24 b₃ ?_⟩ <;> intro i hi <;>
    simp only [leWord, BitVec.getLsbD_append] <;> grind

@[simp] theorem length_leBytes (w : Word) : (leBytes w).length = 4 := rfl

@[simp] theorem bytesOfWords_nil : bytesOfWords [] = [] := rfl

@[simp] theorem bytesOfWords_cons (w : Word) (ws : List Word) :
    bytesOfWords (w :: ws) = leBytes w ++ bytesOfWords ws := rfl

@[simp] theorem length_bytesOfWords (ws : List Word) :
    (bytesOfWords ws).length = 4 * ws.length := by
  induction ws with
  | nil => rfl
  | cons w ws ih => simp only [bytesOfWords_cons, List.length_append, length_leBytes, ih,
      List.length_cons]; omega

@[simp] theorem wordsOfBytes_bytesOfWords (ws : List Word) :
    wordsOfBytes (bytesOfWords ws) = ws := by
  induction ws with
  | nil => rfl
  | cons w ws ih =>
    simp only [bytesOfWords_cons, leBytes, List.cons_append, List.nil_append, wordsOfBytes, ih,
      leWord_extract]

theorem length_wordsOfBytes (bs : List Byte) : (wordsOfBytes bs).length = bs.length / 4 := by
  induction bs using wordsOfBytes.induct with
  | case1 b₀ b₁ b₂ b₃ bs ih => simp only [wordsOfBytes, List.length_cons, ih]; omega
  | case2 bs h =>
    match bs, h with
    | [], _ => rfl
    | [_], _ => simp [wordsOfBytes]
    | [_, _], _ => simp [wordsOfBytes]
    | [_, _, _], _ => simp [wordsOfBytes]
    | b₀ :: b₁ :: b₂ :: b₃ :: bs, h => exact absurd rfl (h b₀ b₁ b₂ b₃ bs)

theorem bytesOfWords_wordsOfBytes {bs : List Byte} {n : Nat} (h : bs.length = 4 * n) :
    bytesOfWords (wordsOfBytes bs) = bs := by
  induction n generalizing bs with
  | zero => rw [List.length_eq_zero_iff.mp (by omega : bs.length = 0)]; rfl
  | succ n ih =>
    match bs, h with
    | b₀ :: b₁ :: b₂ :: b₃ :: bs, h =>
      have hn : bs.length = 4 * n := by simp only [List.length_cons] at h; omega
      rw [wordsOfBytes, bytesOfWords_cons, ih hn, leBytes_leWord]
      rfl

/-! ## Overwriting a part of a string -/

section splice
variable {α : Type}

/-- `buf` with the elements from `off` on replaced by `data`. -/
def splice (buf : List α) (off : Nat) (data : List α) : List α :=
  buf.take off ++ data ++ buf.drop (off + data.length)

theorem length_splice {buf : List α} {off : Nat} {data : List α}
    (h : off + data.length ≤ buf.length) : (splice buf off data).length = buf.length := by
  simp only [splice, List.length_append, List.length_take, List.length_drop]
  omega

theorem getElem?_splice {buf : List α} {off : Nat} {data : List α}
    (h : off + data.length ≤ buf.length) (i : Nat) :
    (splice buf off data)[i]? =
      if off ≤ i ∧ i < off + data.length then data[i - off]? else buf[i]? := by
  have ho : off ≤ buf.length := by omega
  simp only [splice, List.append_assoc]
  rw [List.getElem?_append, List.getElem?_append]
  simp only [List.length_take, Nat.min_eq_left ho, List.getElem?_take, List.getElem?_drop]
  by_cases h1 : i < off
  · simp [h1, show ¬ off ≤ i by omega]
  · by_cases h2 : i - off < data.length
    · simp [h1, h2, show off ≤ i by omega, show i < off + data.length by omega]
    · simp only [h1, h2, if_false, show ¬ (off ≤ i ∧ i < off + data.length) by omega]
      congr 1
      omega

end splice
end Lib
