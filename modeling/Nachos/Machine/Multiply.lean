import Nachos.Machine.Instruction
import Mathlib.Algebra.Order.Ring.Abs
import Mathlib.Data.BitVec
import Mathlib.Tactic.Ring

/-! `Mult` computes the double word product. Its loop keeps the sum of the product so far and of
the bits of `a` that are left times the shifted `b`. -/

namespace Nachos
open Lib

def wide (hi lo : Word) : BitVec 64 := hi ++ lo

theorem toNat_wide (hi lo : Word) : (wide hi lo).toNat = hi.toNat * 4294967296 + lo.toNat := by
  have h := Nat.shiftLeft_add_eq_or_of_lt lo.isLt hi.toNat
  rw [wide, BitVec.toNat_append, ← h, Nat.shiftLeft_eq]

theorem signBit_eq_msb (w : Word) : signBit w = w.msb := by
  rw [signBit, show (0x80000000 : Word) = BitVec.twoPow 32 31 from rfl, BitVec.and_twoPow,
    BitVec.msb_eq_getLsbD_last]
  cases w.getLsbD 31 <;> simp

theorem signBit_iff (w : Word) : w &&& 0x80000000 ≠ 0 ↔ 2147483648 ≤ w.toNat := by
  have h := signBit_eq_msb w
  rw [signBit, BitVec.msb_eq_decide] at h
  rw [← bne_iff_ne, h, decide_eq_true_iff]

theorem toNat_one : (1 : Word).toNat = 1 := rfl

theorem odd_iff (a : Word) : a &&& 1 ≠ 0 ↔ a.toNat % 2 = 1 := by
  rw [ne_eq, ← BitVec.toNat_inj, BitVec.toNat_and, show (1 : Word).toNat = 2 ^ 1 - 1 from rfl,
    Nat.and_two_pow_sub_one_eq_mod, show (0 : Word).toNat = 0 from rfl]
  omega

theorem wide_add (hi lo bHi bLo : Word) :
    wide ((if lo + bLo < bLo then hi + 1 else hi) + bHi) (lo + bLo) = wide hi lo + wide bHi bLo := by
  apply BitVec.eq_of_toNat_eq
  have := lo.isLt
  have := bLo.isLt
  simp only [toNat_wide, BitVec.toNat_add]
  split
  · next h =>
    rw [BitVec.lt_def, BitVec.toNat_add] at h
    rw [BitVec.toNat_add, toNat_one]
    omega
  · next h =>
    rw [BitVec.lt_def, BitVec.toNat_add] at h
    omega

theorem toNat_shiftLeft_one (x : Word) : (x <<< 1).toNat = 2 * x.toNat % 4294967296 := by
  rw [BitVec.toNat_shiftLeft, Nat.shiftLeft_eq, Nat.mul_comm]

theorem toNat_shiftLeft_one_or (x : Word) :
    (x <<< 1 ||| 1).toNat = 2 * x.toNat % 4294967296 + 1 := by
  have he : 2 * x.toNat % 4294967296 = (x.toNat % 2147483648) <<< 1 := by
    rw [Nat.shiftLeft_eq]
    omega
  rw [BitVec.toNat_or, toNat_shiftLeft_one, he, show (1 : Word).toNat = 1 from rfl]
  exact (Nat.shiftLeft_add_eq_or_of_lt (by decide) _).symm

theorem wide_double (bHi bLo : Word) :
    wide (if bLo &&& 0x80000000 ≠ 0 then bHi <<< 1 ||| 1 else bHi <<< 1) (bLo <<< 1) =
      wide bHi bLo * 2 := by
  apply BitVec.eq_of_toNat_eq
  have := bLo.isLt
  rw [toNat_wide, BitVec.toNat_mul, toNat_wide, toNat_shiftLeft_one,
    show (2 : BitVec 64).toNat = 2 from rfl]
  by_cases h : bLo &&& 0x80000000 ≠ 0
  · rw [if_pos h, toNat_shiftLeft_one_or]
    rw [signBit_iff] at h
    omega
  · rw [if_neg h, toNat_shiftLeft_one]
    rw [signBit_iff] at h
    omega

theorem wide_neg (hi lo : Word) :
    wide (if ~~~ lo + 1 = 0 then ~~~ hi + 1 else ~~~ hi) (~~~ lo + 1) = -wide hi lo := by
  apply BitVec.eq_of_toNat_eq
  have := lo.isLt
  have := hi.isLt
  have h0 : ~~~ lo + 1 = 0 ↔ lo.toNat = 0 := by
    rw [← BitVec.toNat_inj, BitVec.toNat_add, BitVec.toNat_not, toNat_one,
      show (0 : Word).toNat = 0 from rfl]
    omega
  rw [toNat_wide, BitVec.toNat_neg, toNat_wide]
  by_cases h : ~~~ lo + 1 = 0
  · rw [if_pos h]
    rw [h0] at h
    simp only [BitVec.toNat_add, BitVec.toNat_not, toNat_one]
    omega
  · rw [if_neg h]
    rw [h0] at h
    simp only [BitVec.toNat_add, BitVec.toNat_not, toNat_one]
    omega

/-- The sign that `>>` keeps does not matter for the bits that are still looked at. -/
theorem sshiftRight_one_mod (a : Word) {n : Nat} (hn : n ≤ 31) :
    (a.sshiftRight 1).toNat % 2 ^ n = a.toNat / 2 % 2 ^ n := by
  rw [BitVec.toNat_sshiftRight]
  split
  · next hm =>
    have := a.isLt
    rw [BitVec.msb_eq_decide, decide_eq_true_iff] at hm
    have he : 2 ^ 32 - 1 - (2 ^ 32 - 1 - a.toNat) >>> 1 = a.toNat / 2 + 2147483648 := by
      rw [Nat.shiftRight_eq_div_pow]
      omega
    obtain ⟨c, hc⟩ : 2 ^ n ∣ 2147483648 := Nat.pow_dvd_pow 2 hn
    rw [he, hc, Nat.add_mul_mod_self_left]
  · rw [Nat.shiftRight_eq_div_pow, pow_one]

theorem eq_one_of_last {a : Word} (hodd : a &&& 1 ≠ 0) (hlast : a &&& 0xfffffffe = 0) :
    a.toNat = 1 := by
  have he : a = a &&& (1 ||| 0xfffffffe) := by
    rw [show (1 ||| 0xfffffffe : Word) = BitVec.allOnes 32 from rfl, BitVec.and_allOnes]
  rw [BitVec.and_or_distrib_left, hlast, show (0 : Word) = 0#32 from rfl, BitVec.or_zero] at he
  have hn := congrArg BitVec.toNat he
  rw [BitVec.toNat_and, show (1 : Word).toNat = 2 ^ 1 - 1 from rfl,
    Nat.and_two_pow_sub_one_eq_mod, pow_one, (odd_iff a).mp hodd] at hn
  exact hn

theorem multLoop_eq {n : Nat} (hn : n ≤ 32) (a bLo bHi lo hi : Word) :
    wide (multLoop n a bLo bHi lo hi).1 (multLoop n a bLo bHi lo hi).2 =
      wide hi lo + wide bHi bLo * BitVec.ofNat 64 (a.toNat % 2 ^ n) := by
  induction n generalizing a bLo bHi lo hi with
  | zero => simp [multLoop, Nat.mod_one]
  | succ n ih =>
    have hrest := sshiftRight_one_mod a (Nat.le_of_succ_le_succ hn)
    have hmod : BitVec.ofNat 64 (a.toNat % 2 ^ (n + 1)) =
        BitVec.ofNat 64 (a.toNat % 2) + 2 * BitVec.ofNat 64 (a.toNat / 2 % 2 ^ n) := by
      rw [pow_succ', Nat.mod_mul, BitVec.ofNat_add, BitVec.ofNat_mul]
      rfl
    have hone : BitVec.ofNat 64 1 = 1 := rfl
    have hzero : BitVec.ofNat 64 0 = 0 := rfl
    simp only [multLoop]
    by_cases hodd : a &&& 1 ≠ 0
    · rw [if_pos hodd]
      by_cases hlast : a &&& 0xfffffffe = 0
      · -- no bit of the multiplier is left
        have hmod' : a.toNat % 2 ^ (n + 1) = 1 := by
          rw [eq_one_of_last hodd hlast]
          exact Nat.mod_eq_of_lt (Nat.one_lt_two_pow n.succ_ne_zero)
        rw [if_pos hlast, wide_add, hmod', hone, mul_one]
      · rw [if_neg hlast, ih (by omega), wide_double, wide_add, hrest, hmod, (odd_iff a).mp hodd,
          hone]
        ring
    · rw [if_neg hodd, ih (by omega), wide_double, hrest, hmod]
      rw [odd_iff] at hodd
      rw [show a.toNat % 2 = 0 by omega, hzero]
      ring

theorem multLoop_start (a b : Word) :
    wide (multLoop 32 a b 0 0 0).1 (multLoop 32 a b 0 0 0).2 =
      BitVec.ofNat 64 (a.toNat * b.toNat) := by
  have hb : wide 0 b = BitVec.ofNat 64 b.toNat := by
    apply BitVec.eq_of_toNat_eq
    have := b.isLt
    rw [toNat_wide, show (0 : Word).toNat = 0 from rfl, BitVec.toNat_ofNat]
    omega
  have h0 : wide 0 0 = 0 := rfl
  rw [multLoop_eq le_rfl, h0, hb, Nat.mod_eq_of_lt a.isLt, zero_add, ← BitVec.ofNat_mul,
    Nat.mul_comm]

theorem wide_mult_unsigned (a b : Word) :
    wide (mult a b false).1 (mult a b false).2 = BitVec.ofNat 64 (a.toNat * b.toNat) := by
  rw [mult]
  split
  · next h =>
    obtain rfl | rfl := h
    · rw [show (0 : Word).toNat = 0 from rfl, Nat.zero_mul]
      rfl
    · rw [show (0 : Word).toNat = 0 from rfl, Nat.mul_zero]
      rfl
  · simp only [Bool.false_and, Bool.false_eq_true, if_false]
    exact multLoop_start a b

theorem toNat_ite_neg (a : Word) :
    ((if a.toInt < 0 then -a else a).toNat : Int) = |a.toInt| := by
  have := a.isLt
  have hi := BitVec.toInt_eq_toNat_cond a
  split
  · next h =>
    rw [BitVec.toNat_neg, abs_of_neg h]
    split at hi
    · omega
    · push_cast
      omega
  · next h =>
    rw [abs_of_nonneg (by omega)]
    split at hi <;> omega

theorem wide_mult_signed (a b : Word) :
    wide (mult a b true).1 (mult a b true).2 = BitVec.ofInt 64 (a.toInt * b.toInt) := by
  rw [mult]
  split
  · next h =>
    obtain rfl | rfl := h
    · rw [show (0 : Word).toInt = 0 from rfl, zero_mul]
      rfl
    · rw [show (0 : Word).toInt = 0 from rfl, mul_zero]
      rfl
  · simp only [Bool.true_and, decide_eq_true_eq]
    have hp := multLoop_start (if a.toInt < 0 then -a else a) (if b.toInt < 0 then -b else b)
    rw [← BitVec.ofInt_natCast, Nat.cast_mul, toNat_ite_neg, toNat_ite_neg] at hp
    by_cases ha : a.toInt < 0 <;> by_cases hb : b.toInt < 0
    · simp only [decide_eq_true ha, decide_eq_true hb, bne_self_eq_false, Bool.false_eq_true,
        if_false]
      rw [hp, abs_of_neg ha, abs_of_neg hb, neg_mul_neg]
    · simp only [decide_eq_true ha, decide_eq_false hb, Bool.true_bne, Bool.not_false, if_true]
      rw [wide_neg, hp, abs_of_neg ha, abs_of_nonneg (not_lt.mp hb), neg_mul, BitVec.ofInt_neg,
        neg_neg]
    · simp only [decide_eq_false ha, decide_eq_true hb, Bool.false_bne, if_true]
      rw [wide_neg, hp, abs_of_nonneg (not_lt.mp ha), abs_of_neg hb, mul_neg, BitVec.ofInt_neg,
        neg_neg]
    · simp only [decide_eq_false ha, decide_eq_false hb, bne_self_eq_false, Bool.false_eq_true,
        if_false]
      rw [hp, abs_of_nonneg (not_lt.mp ha), abs_of_nonneg (not_lt.mp hb)]

/-- HI and LO together are the product, of the operands as signed or as unsigned numbers. -/
theorem mult_exact (a b : Word) :
    (wide (mult a b true).1 (mult a b true).2).toInt = a.toInt * b.toInt ∧
      (wide (mult a b false).1 (mult a b false).2).toNat = a.toNat * b.toNat := by
  constructor
  · have ha : |a.toInt| ≤ 2 ^ 31 := abs_le.mpr ⟨BitVec.le_toInt a, (BitVec.toInt_lt).le⟩
    have hb : |b.toInt| ≤ 2 ^ 31 := abs_le.mpr ⟨BitVec.le_toInt b, (BitVec.toInt_lt).le⟩
    have hab : |a.toInt * b.toInt| ≤ 2 ^ 31 * 2 ^ 31 := by
      rw [abs_mul]
      exact mul_le_mul ha hb (abs_nonneg _) (by norm_num)
    obtain ⟨hlow, hhigh⟩ := abs_le.mp hab
    rw [wide_mult_signed, BitVec.toInt_ofInt]
    exact Int.bmod_eq_of_le (by omega) (by omega)
  · have hab : a.toNat * b.toNat < 2 ^ 32 * 2 ^ 32 :=
      Nat.mul_lt_mul'' a.isLt b.isLt
    rw [wide_mult_unsigned, BitVec.toNat_ofNat]
    exact Nat.mod_eq_of_lt hab

end Nachos
