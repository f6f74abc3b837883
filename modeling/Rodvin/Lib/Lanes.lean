/-
  Rodvin.Lib.Lanes — the bytes of a little-endian word.

  Bytes `k` to `k + n` of a word in memory are its bits from `8 * k` up: the field reads
  the bytes (`get_slice`), and storing the word with the field written stores those bytes
  and no other (`splice_set`).
-/

import Rodvin.Lib.BitField
import Rodvin.Lib.Bytes

namespace Rodvin.Lib

/-- Bytes `k` to `k + n`. -/
def lane (k n : Nat) : BitField := ⟨8 * k, 8 * n⟩

variable {m : Nat → UInt8} {a k n w v : Nat}

theorem two_pow_eight_mul (k : Nat) : 2 ^ (8 * k) = 256 ^ k := by rw [Nat.pow_mul]

theorem get_slice (h : k + n ≤ w) : (lane k n).get (ofLE (slice m a w)) = ofLE (slice m (a + k) n) := by
  have hw : slice m a w = slice m a k ++ (slice m (a + k) n ++ slice m (a + k + n) (w - k - n)) := by
    rw [← slice_add, ← slice_add]
    congr 1
    omega
  have hlow := ofLE_lt (slice m a k)
  have hmid := ofLE_lt (slice m (a + k) n)
  rw [length_slice] at hlow hmid
  unfold BitField.get lane
  simp only
  rw [hw, ofLE_append, ofLE_append, length_slice, length_slice, Nat.shiftRight_eq_div_pow, two_pow_eight_mul,
    two_pow_eight_mul, Nat.add_mul_div_left _ _ (Nat.pow_pos (by decide)), Nat.div_eq_of_lt hlow, Nat.zero_add,
    Nat.add_mul_mod_self_left, Nat.mod_eq_of_lt hmid]

theorem get_byte (v j : Nat) : (lane j 1).get v = v / 256 ^ j % 256 := by
  unfold BitField.get lane
  simp only
  rw [Nat.shiftRight_eq_div_pow, two_pow_eight_mul]
  rfl

theorem splice_set (h : k + n ≤ w) :
    splice m a (le w ((lane k n).set v (ofLE (slice m a w)))) = splice m (a + k) (le n v) := by
  funext b
  by_cases hb : a ≤ b ∧ b < a + w
  · obtain ⟨j, rfl⟩ := Nat.exists_eq_add_of_le hb.1
    have hj : j < w := by omega
    have hleft : splice m a (le w ((lane k n).set v (ofLE (slice m a w)))) (a + j) =
        UInt8.ofNat ((lane j 1).get ((lane k n).set v (ofLE (slice m a w)))) := by
      rw [splice, if_pos (by simp; omega), Nat.add_sub_cancel_left, getD_le hj, get_byte, UInt8.ofNat_mod_size]
    rw [hleft]
    by_cases hin : k ≤ j ∧ j < k + n
    · rw [BitField.get_set_inside (by simp only [lane]; omega) (by simp only [lane]; omega)]
      have hlane : (⟨(lane j 1).lo - (lane k n).lo, (lane j 1).width⟩ : BitField) = lane (j - k) 1 := by
        simp only [lane, BitField.mk.injEq, and_true]
        omega
      rw [hlane, splice, if_pos (by simp; omega), show a + j - (a + k) = j - k by omega, getD_le (by omega), get_byte,
        UInt8.ofNat_mod_size]
    · rw [BitField.get_set_of_disjoint (by simp only [lane]; omega), get_slice (by omega), splice,
        if_neg (by simp; omega)]
      simp [slice, ofLE]
  · rw [splice, splice, if_neg (by simpa using hb), if_neg (by simp; omega)]

end Rodvin.Lib
