/-
  Rodvin.Lib.Words — 64-bit unsigned arithmetic on `Nat`.

  A word is a `Nat` below `2 ^ 64`; `add64` and `sub64` wrap as the hardware does.
  Masks of the two usual shapes are division and remainder: `x &&& (2 ^ k - 1)` is
  Mathlib's `Nat.and_two_pow_sub_one_eq_mod`, and `and_align` is its complement.
-/

import Mathlib.Tactic

namespace Rodvin.Lib

def add64 (a b : Nat) : Nat := (a + b) % 2 ^ 64

def sub64 (a b : Nat) : Nat := (a + (2 ^ 64 - b % 2 ^ 64)) % 2 ^ 64

theorem add64_eq {a b : Nat} (h : a + b < 2 ^ 64) : add64 a b = a + b := Nat.mod_eq_of_lt h

theorem sub64_eq {a b : Nat} (ha : a < 2 ^ 64) (h : b ≤ a) : sub64 a b = a - b := by
  unfold sub64; omega

theorem add64_sub64 {a b c : Nat} (hc : c ≤ a) (hb : b < 2 ^ 64) (h : a + b < 2 ^ 64) :
    add64 a (sub64 b c) = a + b - c := by
  unfold add64 sub64
  omega

/-- A word as a signed number of 32 bits, and that as a word again. -/
def int32 (x : Nat) : Nat := if x % 2 ^ 32 < 2 ^ 31 then x % 2 ^ 32 else x % 2 ^ 32 + (2 ^ 64 - 2 ^ 32)

/-- A difference of small words fits. -/
theorem int32_sub64 {a b : Nat} (ha : a < 2 ^ 31) (hb : b < 2 ^ 31) : int32 (sub64 a b) = sub64 a b := by
  unfold int32 sub64
  split
  · omega
  · omega

/-- Rounding down to a multiple of `2 ^ k` in `n` bits. -/
theorem and_align {k n x : Nat} (hk : k ≤ n) (hx : x < 2 ^ n) : x &&& (2 ^ n - 2 ^ k) = x / 2 ^ k * 2 ^ k := by
  have hm : 2 ^ n - 2 ^ k = (2 ^ (n - k) - 1) * 2 ^ k := by
    rw [Nat.sub_mul, ← Nat.pow_add, Nat.sub_add_cancel hk, Nat.one_mul]
  refine Nat.eq_of_testBit_eq fun i => ?_
  rw [Nat.testBit_and, hm, Nat.testBit_mul_two_pow, Nat.testBit_mul_two_pow, Nat.testBit_two_pow_sub_one,
    Nat.testBit_div_two_pow]
  by_cases hi : k ≤ i
  · by_cases hn : i < n
    · simp [hi, Nat.sub_add_cancel hi, show i - k < n - k by omega]
    · have : x.testBit i = false :=
        Nat.testBit_lt_two_pow (Nat.lt_of_lt_of_le hx (Nat.pow_le_pow_right (by decide) (by omega)))
      simp [hi, Nat.sub_add_cancel hi, this]
  · simp [hi]

end Rodvin.Lib
