/-
  Rodvin.Libc.PrintfStrtol — `strtol` reads back what `printf` writes (see
  `Rodvin.Libc.Printf` and `Rodvin.Libc.PrintfNumbers`).

  `printf` finds the digits from the last one up, `strtol` takes them from the first one
  down: the fill is digits too, zeros at the far end of the list, and the value of the
  list is what Horner's rule gives for it read backwards (`strtolFrom_digits`). The sign
  of the most negative number is its own absolute value as an `unsigned`
  (`abs_toNat`), which 64 bits hold.
-/

import Rodvin.Libc.FormatScan

namespace Rodvin.Libc.Printf

open Rodvin.Lib

/-! ## The format and the text -/

/-- `%c`, or `%0wc` with `w` one more than the index. -/
def specification (w : Option (Fin 9)) (c : UInt8) : Bytes :=
  match w with
  | none => [0x25, c]
  | some w => [0x25, 0x30, 0x31 + UInt8.ofNat w, c]

/-- How many digits the format asks for. -/
def widthOf : Option (Fin 9) → Nat
  | none => 1
  | some w => w + 1

/-- An optional `-`, and decimal digits behind it, at least as many as asked for. -/
def Numeral (width : Nat) (text : Bytes) : Prop :=
  ∃ negative digits, text = signOf negative ++ digits ∧ (∀ c ∈ digits, IsDigit c) ∧ width ≤ digits.length

theorem parse_specification (w : Option (Fin 9)) {c : UInt8} (hc : c = 0x64 ∨ c = 0x75) :
    parse .text (specification w c) = ([.conversion 0x30 (widthOf w) c], .text) := by
  revert w
  rcases hc with rfl | rfl
  · decide
  · decide

theorem zero_not_mem_specification (w : Option (Fin 9)) {c : UInt8} (hc : c = 0x64 ∨ c = 0x75) :
    0 ∉ specification w c := by
  revert w
  rcases hc with rfl | rfl
  · decide
  · decide

theorem widthOf_le (w : Option (Fin 9)) : widthOf w ≤ 9 := by
  cases w with
  | none => decide
  | some w => exact w.isLt

/-! ## Reading digits -/

variable {rest : Bytes} {k d val : Nat} {a : Int} {negative : Bool}

theorem toNat_digit (hd : d < 10) : (digit d).toNat = 0x30 + d := by
  revert d
  decide

theorem isDigit_digit (hd : d < 10) : IsDigit (digit d) := by
  revert d
  decide

theorem digit_ne (hd : d < 10) : digit d ≠ 0 ∧ digit d ≠ 0x2D := by
  revert d
  decide

/-- Horner's step, on 64 bits. -/
theorem long_step : long (long a * 10 + ((0x30 + d : Nat) : Int) - 0x30) = long (a * 10 + d) := by
  unfold long
  rw [Int.natCast_add, show Int.bmod a (2 ^ 64) * 10 + (((0x30 : Nat) : Int) + d) - 0x30 = Int.bmod a (2 ^ 64) * 10 + d by omega,
    ← Int.bmod_add_bmod, Int.bmod_mul_bmod, Int.bmod_add_bmod]

/-- Horner's rule, the first digit first. -/
def horner (a : Int) (ds : List Nat) : Int := ds.foldl (fun (a : Int) (d : Nat) => a * 10 + d) a

theorem strtolFrom_digits (ds : List Nat) (hds : ∀ d ∈ ds, d < 10) :
    strtolFrom 10 (ds.map digit ++ rest) k negative (long a) =
      strtolFrom 10 rest (k + ds.length) negative (long (horner a ds)) := by
  induction ds generalizing k a with
  | nil => rfl
  | cons d ds ih =>
    have hd := hds d (List.mem_cons_self ..)
    obtain ⟨h0, hminus⟩ := digit_ne hd
    rw [List.map_cons, List.cons_append, strtolFrom, if_neg h0, if_neg hminus, if_pos (isDigit_digit hd),
      toNat_digit hd,
      long_step, ih fun d hm => hds d (List.mem_cons_of_mem _ hm), List.length_cons, Nat.add_right_comm]
    rfl

/-- The list of digits that `Nat.digits` has is the other way round. -/
theorem horner_reverse (ns : List Nat) : horner 0 ns.reverse = (Nat.ofDigits 10 ns : Nat) := by
  unfold horner
  rw [List.foldl_reverse]
  induction ns with
  | nil => rfl
  | cons n ns ih =>
    rw [List.foldr_cons, ih, Nat.ofDigits_cons, Nat.cast_add, Nat.cast_mul, add_comm, mul_comm]
    rfl

/-- The digits with `k` zeros in front. -/
def filled (k val : Nat) : Bytes := List.replicate k 0x30 ++ digitsOf 10 val

/-- The fill is zeros behind the highest digit. -/
theorem filled_eq : filled k val = (Nat.digits 10 val ++ List.replicate k 0).reverse.map digit := by
  unfold filled digitsOf
  rw [List.reverse_append, List.map_append, List.reverse_replicate, List.map_replicate, List.map_reverse]
  rfl

theorem digits_lt (hm : d ∈ Nat.digits 10 val ++ List.replicate k 0) : d < 10 := by
  rcases List.mem_append.mp hm with hm | hm
  · exact Nat.digits_lt_base (by decide) hm
  · rw [(List.mem_replicate.mp hm).2]
    decide

theorem isDigit_of_mem_filled {c : UInt8} (hm : c ∈ filled k val) : IsDigit c := by
  rw [filled_eq] at hm
  obtain ⟨d, hd, rfl⟩ := List.mem_map.mp hm
  exact isDigit_digit (digits_lt (List.mem_reverse.mp hd))

/-! ## One number -/

theorem long_eq (hv : val < 2 ^ 63) : long val = val ∧ long (-(val : Int)) = -(val : Int) := by
  refine ⟨Int.bmod_eq_of_le_mul_two ?_ ?_, Int.bmod_eq_of_le_mul_two ?_ ?_⟩
  all_goals omega

/-- Digits up to the terminator. -/
theorem strtolFrom_filled {behind : Bytes} (hv : val < 2 ^ 63) :
    strtolFrom 10 (filled k val ++ 0 :: behind) d negative 0 =
      .ok (if negative then -(val : Int) else val, d + (filled k val).length) := by
  have hdigits : strtolFrom 10 (_ ++ 0 :: behind) d negative (long 0) = _ := strtolFrom_digits
    (Nat.digits 10 val ++ List.replicate k 0).reverse (fun d hm => digits_lt (List.mem_reverse.mp hm))
  rw [horner_reverse, Nat.ofDigits_append_replicate_zero, Nat.ofDigits_digits, (long_eq hv).1] at hdigits
  rw [filled_eq, List.length_map]
  refine hdigits.trans ?_
  rw [strtolFrom, if_pos rfl, (long_eq hv).2]
  rfl

/-- A sign and filled digits, read back. -/
theorem strtol_numeral {behind : Bytes} (hv : val < 2 ^ 63) :
    strtol (signOf negative ++ filled k val ++ 0 :: behind) 10 =
      .ok (if negative then -(val : Int) else val,
        (signOf negative ++ filled k val).length) := by
  cases negative with
  | false =>
    refine (strtolFrom_filled hv).trans ?_
    rw [Nat.zero_add]
    rfl
  | true =>
    refine (strtolFrom_filled hv).trans ?_
    rw [List.length_append, Nat.zero_add]
    rfl

/-! ## Absolute values -/

theorem toNat_toUInt32 {n : Int32} (h : ¬ n < 0) : (n.toUInt32.toNat : Int) = n.toInt := by
  have hn : ¬ n.toInt < 0 := fun hlt => h (Int32.lt_iff_toInt_lt.mpr hlt)
  have hcond := BitVec.toInt_eq_toNat_cond n.toBitVec
  rw [Int32.toInt] at hn ⊢
  change (n.toBitVec.toNat : Int) = _
  have hlt := n.toBitVec.isLt
  split at hcond
  · exact hcond.symm
  · omega

/-- Negated and read as an `unsigned`, that is so for the most negative number too. -/
theorem toNat_neg_toUInt32 {n : Int32} (h : n < 0) : ((-n).toUInt32.toNat : Int) = -n.toInt := by
  have hn : n.toInt < 0 := Int32.lt_iff_toInt_lt.mp h
  have hcond := BitVec.toInt_eq_toNat_cond n.toBitVec
  have hneg : (-n).toUInt32.toNat = (2 ^ 32 - n.toBitVec.toNat) % 2 ^ 32 := BitVec.toNat_neg n.toBitVec
  rw [Int32.toInt] at hn ⊢
  have hlt := n.toBitVec.isLt
  split at hcond
  · omega
  · rw [hneg, Nat.mod_eq_of_lt (by omega), hcond]
    omega

/-! ## There and back -/

/-- What one conversion writes, and what `strtol` makes of it. -/
theorem printf_numeral (stack : Nat → UInt8) (w : Option (Fin 9)) {c : UInt8} (hc : c = 0x64 ∨ c = 0x75) {arg : Arg}
    (hval : val < 2 ^ 32)
    (hconv : convert stack 0x30 (widthOf w) c [arg] = do return (← number stack 10 0x30 (widthOf w) negative val, [])) :
    ∃ text, printf stack (specification w c ++ [0]) [arg] = .ok text ∧ Numeral (widthOf w) text ∧
      ∀ behind, strtol (text ++ 0 :: behind) 10 = .ok (if negative then -(val : Int) else val, text.length) := by
  have hnumber : number stack 10 0x30 (widthOf w) negative val =
      .ok (signOf negative ++ filled (widthOf w - (digitsOf 10 val).length) val) :=
    number_eq (by decide) (Nat.lt_trans hval (by decide)) (widthOf_le w)
  refine ⟨signOf negative ++ filled (widthOf w - (digitsOf 10 val).length) val, ?_, ⟨negative, _, rfl, ?_, ?_⟩, ?_⟩
  · refine (printfFrom_iff (stands_format (zero_not_mem_specification w hc)) (by rw [List.length_append]; omega)).mpr ?_
    rw [parse_specification w hc]
    refine ⟨rfl, _, ?_, rfl⟩
    rw [render, hconv, hnumber]
    exact congrArg Except.ok (List.append_nil _)
  · exact fun c => isDigit_of_mem_filled
  · rw [filled, List.length_append, List.length_replicate]
    omega
  · exact fun behind => strtol_numeral (Nat.lt_trans hval (by decide))

/-- For every number and every width `strtol` reads back what `printf` has written, up to its
    terminator; no store leaves the buffer. -/
theorem printf_strtol_inverse (stack : Nat → UInt8) (w : Option (Fin 9)) :
    (∀ n : Int32, ∃ text, printf stack (specification w 0x64 ++ [0]) [.int32 n] = .ok text ∧ Numeral (widthOf w) text ∧
      ∀ behind, strtol (text ++ 0 :: behind) 10 = .ok (n.toInt, text.length)) ∧
    ∀ u : UInt32, ∃ text, printf stack (specification w 0x75 ++ [0]) [.uint32 u] = .ok text ∧ Numeral (widthOf w) text ∧
      ∀ behind, strtol (text ++ 0 :: behind) 10 = .ok ((u.toNat : Int), text.length) := by
  constructor
  · intro n
    by_cases hn : n < 0
    · have hconv (minLen : Nat) : convert stack 0x30 minLen 0x64 [.int32 n] =
          do return (← number stack 10 0x30 minLen true (-n).toUInt32.toNat, []) := by
        simp only [convert, hn, decide_true, if_true]
        rfl
      have h := printf_numeral stack w (.inl rfl) (-n).toUInt32.toNat_lt (hconv _)
      rwa [if_pos rfl, toNat_neg_toUInt32 hn, Int.neg_neg] at h
    · have hconv (minLen : Nat) : convert stack 0x30 minLen 0x64 [.int32 n] =
          do return (← number stack 10 0x30 minLen false n.toUInt32.toNat, []) := by
        simp only [convert, hn, decide_false]
        rfl
      have h := printf_numeral stack w (.inl rfl) n.toUInt32.toNat_lt (hconv _)
      rwa [if_neg Bool.false_ne_true, toNat_toUInt32 hn] at h
  · intro u
    have hconv (minLen : Nat) : convert stack 0x30 minLen 0x75 [.uint32 u] =
        do return (← number stack 10 0x30 minLen false u.toNat, []) := rfl
    have h := printf_numeral stack w (.inr rfl) u.toNat_lt (hconv _)
    rwa [if_neg Bool.false_ne_true] at h

end Rodvin.Libc.Printf
