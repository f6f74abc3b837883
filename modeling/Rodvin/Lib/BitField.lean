/-
  Rodvin.Lib.BitField — bit fields of a machine word.

  A field is `width` bits of a word from bit `lo` up. Writing a field replaces its bits
  and no other (`testBit_set`); a field reads what was written to it, cut to its width
  (`get_set_self`), a field inside it reads a part of that (`get_set_inside`), and a
  disjoint field is left alone (`get_set_of_disjoint`).
-/

import Mathlib.Tactic

namespace Rodvin.Lib

structure BitField where
  lo : Nat
  width : Nat
  deriving DecidableEq, Repr

namespace BitField

/-- The bits of the field, in place. -/
def mask (b : BitField) : Nat := (2 ^ b.width - 1) <<< b.lo

def get (b : BitField) (w : Nat) : Nat := w >>> b.lo % 2 ^ b.width

def set (b : BitField) (v w : Nat) : Nat := (w ^^^ (w &&& b.mask)) ||| (v % 2 ^ b.width) <<< b.lo

variable {a b : BitField} {v w i : Nat}

theorem testBit_mask : b.mask.testBit i = decide (b.lo ≤ i ∧ i < b.lo + b.width) := by
  unfold mask
  rw [Nat.testBit_shiftLeft, Nat.testBit_two_pow_sub_one]
  by_cases h : b.lo ≤ i
  · simp [h, Nat.sub_lt_iff_lt_add' h]
  · simp [h]

theorem testBit_get : (b.get w).testBit i = (decide (i < b.width) && w.testBit (b.lo + i)) := by
  unfold get
  rw [Nat.testBit_mod_two_pow, Nat.testBit_shiftRight]

theorem testBit_set :
    (b.set v w).testBit i = if b.lo ≤ i ∧ i < b.lo + b.width then v.testBit (i - b.lo) else w.testBit i := by
  unfold set
  rw [Nat.testBit_or, Nat.testBit_xor, Nat.testBit_and, testBit_mask, Nat.testBit_shiftLeft, Nat.testBit_mod_two_pow]
  by_cases h : b.lo ≤ i ∧ i < b.lo + b.width
  · have hi : i - b.lo < b.width := by omega
    simp [h, hi]
  · by_cases hi : b.lo ≤ i
    · have hw : ¬ i - b.lo < b.width := by omega
      simp [h, hw]
    · simp [hi]

@[simp] theorem get_set_self : b.get (b.set v w) = v % 2 ^ b.width := by
  refine Nat.eq_of_testBit_eq fun i => ?_
  rw [testBit_get, testBit_set, Nat.testBit_mod_two_pow]
  by_cases h : i < b.width
  · simp [h]
  · simp [h]

theorem get_set_of_disjoint (h : a.lo + a.width ≤ b.lo ∨ b.lo + b.width ≤ a.lo) : a.get (b.set v w) = a.get w := by
  refine Nat.eq_of_testBit_eq fun i => ?_
  rw [testBit_get, testBit_get, testBit_set]
  by_cases hi : i < a.width
  · rw [if_neg (by omega)]
  · simp [hi]

/-- A field inside the one that is written. -/
theorem get_set_inside (h : b.lo ≤ a.lo) (h' : a.lo + a.width ≤ b.lo + b.width) :
    a.get (b.set v w) = (⟨a.lo - b.lo, a.width⟩ : BitField).get v := by
  refine Nat.eq_of_testBit_eq fun i => ?_
  rw [testBit_get, testBit_get, testBit_set]
  by_cases hi : i < a.width
  · rw [if_pos (by omega), show a.lo + i - b.lo = a.lo - b.lo + i by omega]
  · simp [hi]

/-- Clearing the field with a mask of `n` bits and putting a value in is writing it. -/
theorem clear_or_eq_set {n : Nat} (hn : b.lo + b.width ≤ n) (hw : w < 2 ^ n) (hv : v < 2 ^ b.width) :
    w &&& (2 ^ n - (b.mask + 1)) ||| v <<< b.lo = b.set v w := by
  have hm : b.mask < 2 ^ n := by
    refine Nat.lt_pow_two_of_testBit _ fun i hi => ?_
    rw [testBit_mask]
    simp only [decide_eq_false_iff_not]
    omega
  refine Nat.eq_of_testBit_eq fun i => ?_
  rw [Nat.testBit_or, Nat.testBit_and, Nat.testBit_two_pow_sub_succ hm, testBit_mask, Nat.testBit_shiftLeft,
    testBit_set]
  by_cases h : b.lo ≤ i ∧ i < b.lo + b.width
  · simp [h]
  · have hout : (decide (b.lo ≤ i) && v.testBit (i - b.lo)) = false := by
      by_cases hi : b.lo ≤ i
      · have : v < 2 ^ (i - b.lo) := Nat.lt_of_lt_of_le hv (Nat.pow_le_pow_right (by decide) (by omega))
        simp [Nat.testBit_lt_two_pow this]
      · simp [hi]
    rw [if_neg h, hout]
    by_cases hi : i < n
    · simp [h, hi]
    · have : w.testBit i = false :=
        Nat.testBit_lt_two_pow (Nat.lt_of_lt_of_le hw (Nat.pow_le_pow_right (by decide) (by omega)))
      simp [this]

/-- A field of one bit. -/
theorem get_eq_zero_iff (h : b.width = 1) : b.get w = 0 ↔ w.testBit b.lo = false := by
  unfold get
  rw [h, Nat.testBit_eq_decide_div_mod_eq, Nat.shiftRight_eq_div_pow]
  simp

end BitField

end Rodvin.Lib
