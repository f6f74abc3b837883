/-
  Rodvin.Libc.PrintfNumbers — the number that `printf` writes (see `Rodvin.Libc.Printf`).

  The digits are written from the end of the buffer down, then the fill up to the width,
  then the sign; what lies behind the cursor is the text so far. So the text is the sign,
  the fill and the digits, and with a width of one digit it fits (`number_eq`).
-/

import Mathlib.Data.Nat.Digits.Lemmas
import Rodvin.Libc.Printf

namespace Rodvin.Libc.Printf

open Rodvin.Lib

variable {stack : Nat → UInt8} {buf : Bytes} {offs val radix fuel minLen low : Nat} {fill : UInt8} {negative : Bool}

/-- The digits of a number, highest first. -/
def digitsOf (radix val : Nat) : Bytes := ((Nat.digits radix val).map digit).reverse

def signOf (negative : Bool) : Bytes := if negative then [0x2D] else []

theorem digitsOf_succ (hr : 1 < radix) (hv : 0 < val) :
    digitsOf radix val = digitsOf radix (val / radix) ++ [digit (val % radix)] := by
  unfold digitsOf
  rw [Nat.digits_def' hr hv, List.map_cons, List.reverse_cons]

theorem length_digitsOf : (digitsOf radix val).length = (Nat.digits radix val).length := by simp [digitsOf]

/-- A store puts its byte in front of what lies behind it. -/
theorem drop_set {α : Type} {l : List α} {i : Nat} {x : α} (h : i < l.length) :
    (l.set i x).drop i = x :: l.drop (i + 1) := by
  rw [List.drop_eq_getElem_cons (by rwa [List.length_set]), List.getElem_set_self,
    List.drop_set_of_lt (Nat.lt_succ_self i)]

theorem write_eq {x : UInt8} (h : offs < buf.length) : write buf offs x = .ok (buf.set offs x) := if_pos h

/-- The cursor stands at `offs`, and behind it lies `out`. -/
structure Written (buf : Bytes) (offs : Nat) (out : Bytes) : Prop where
  length : buf.length = 40
  behind : buf.drop (offs + 1) = out

/-- One more byte in front. -/
theorem Written.put {out : Bytes} (h : Written buf offs out) (h0 : 0 < offs) (hlt : offs < 40) (x : UInt8) :
    write buf offs x = .ok (buf.set offs x) ∧ Written (buf.set offs x) (offs - 1) (x :: out) := by
  have hlen : offs < buf.length := by rw [h.length]; exact hlt
  refine ⟨write_eq hlen, by rw [List.length_set, h.length], ?_⟩
  rw [Nat.sub_add_cancel h0, drop_set hlen, h.behind]

theorem putDigits_written (hr : 1 < radix) {out : Bytes} (h : Written buf offs out) (hlt : offs < 40)
    (hroom : (digitsOf radix val).length ≤ offs) (hfuel : (digitsOf radix val).length < fuel) :
    ∃ buf', putDigits radix fuel buf offs val = .ok (buf', offs - (digitsOf radix val).length) ∧
      Written buf' (offs - (digitsOf radix val).length) (digitsOf radix val ++ out) := by
  induction fuel generalizing buf offs val out with
  | zero => exact absurd hfuel (Nat.not_lt_zero _)
  | succ fuel ih =>
    unfold putDigits
    by_cases hv : 0 < val
    · have hd := digitsOf_succ hr hv
      rw [hd, List.length_append, List.length_singleton] at hroom hfuel
      obtain ⟨hwrite, hw⟩ := h.put (by omega) hlt (digit (val % radix))
      obtain ⟨buf', hput, hw'⟩ := ih hw (by omega) (by omega) (Nat.lt_of_succ_lt_succ hfuel)
      have hsub : sub64 offs 1 = offs - 1 := sub64_eq (by omega) (by omega)
      refine ⟨buf', ?_, ?_⟩
      · rw [if_pos hv, ok_bind hwrite, hsub, hput, hd, List.length_append, List.length_singleton, Nat.sub_sub,
          Nat.add_comm]
      · rw [hd, List.length_append, List.length_singleton, List.append_assoc, Nat.add_comm, ← Nat.sub_sub]
        exact hw'
    · obtain rfl : val = 0 := by omega
      refine ⟨buf, ?_, by simpa [digitsOf] using h⟩
      rw [if_neg hv]
      simp [digitsOf]
      rfl

theorem putFill_written {out : Bytes} (h : Written buf offs out) (hlt : offs < 40) :
    ∃ buf', putFill fill low buf offs = .ok (buf', min offs low) ∧
      Written buf' (min offs low) (List.replicate (offs - low) fill ++ out) := by
  induction offs generalizing buf out with
  | zero =>
    refine ⟨buf, by rw [Nat.zero_min]; rfl, ?_⟩
    rw [Nat.zero_min, Nat.zero_sub]
    exact h
  | succ offs ih =>
    unfold putFill
    by_cases hl : low < offs + 1
    · obtain ⟨hwrite, hw⟩ := h.put (Nat.succ_pos offs) hlt fill
      obtain ⟨buf', hput, hw'⟩ := ih hw (by omega)
      refine ⟨buf', ?_, ?_⟩
      · rw [if_pos hl, ok_bind hwrite, hput, show min offs low = min (offs + 1) low by omega]
      · rw [show min (offs + 1) low = min offs low by omega, show offs + 1 - low = offs - low + 1 by omega,
          List.replicate_succ', List.append_assoc]
        exact hw'
    · refine ⟨buf, ?_, ?_⟩
      · rw [if_neg hl, show min (offs + 1) low = offs + 1 by omega]
        rfl
      · rw [show min (offs + 1) low = offs + 1 by omega, show offs + 1 - low = 0 by omega]
        exact h

theorem putSign_written {out : Bytes} (h : Written buf offs out) (h0 : 0 < offs) (hlt : offs < 40) :
    ∃ buf', putSign negative buf offs = .ok (buf', offs - (signOf negative).length) ∧
      Written buf' (offs - (signOf negative).length) (signOf negative ++ out) := by
  unfold putSign
  cases negative with
  | true =>
    obtain ⟨hwrite, hw⟩ := h.put h0 hlt 0x2D
    refine ⟨_, ?_, hw⟩
    rw [if_pos rfl, ok_bind hwrite, sub64_eq (show offs < 2 ^ 64 by omega) h0]
    rfl
  | false => exact ⟨buf, rfl, h⟩

theorem Written.draw {out : Bytes} (h : Written buf offs out) (hlt : offs < 40) :
    drawText buf (offs + 1) (39 - offs) = .ok out := by
  have hlen := congrArg List.length h.behind
  rw [List.length_drop, h.length] at hlen
  unfold drawText
  rw [if_pos (by rw [h.length]; omega), h.behind, List.take_of_length_le (by omega)]

/-- The sign, the fill up to the width, and the digits. -/
theorem number_eq (hr : 1 < radix) (hv : val < radix ^ 29) (hmin : minLen ≤ 9) :
    number stack radix fill minLen negative val = .ok (signOf negative ++
      (List.replicate (minLen - (digitsOf radix val).length) fill ++ digitsOf radix val)) := by
  have hlen : (digitsOf radix val).length ≤ 29 := by
    rw [length_digitsOf]
    exact (Nat.digits_length_le_iff hr val).mpr hv
  have h0 : Written ((slice stack 0 40).set 39 0) 39 [] :=
    ⟨by rw [List.length_set, length_slice], List.drop_eq_nil_of_le (by rw [List.length_set, length_slice])⟩
  have hwrite : write (slice stack 0 40) 39 0 = .ok ((slice stack 0 40).set 39 0) :=
    write_eq (by rw [length_slice]; decide)
  obtain ⟨buf1, hdigits, h1⟩ : ∃ buf', putDigits radix 65 _ 39 val = .ok (buf', _) ∧ _ :=
    putDigits_written hr h0 (by decide) (by omega) (by omega)
  obtain ⟨buf2, hfill, h2⟩ : ∃ buf', putFill fill (39 - minLen) buf1 _ = .ok (buf', _) ∧ _ :=
    putFill_written h1 (by omega)
  obtain ⟨buf3, hsign, h3⟩ : ∃ buf', putSign negative buf2 _ = .ok (buf', _) ∧ _ :=
    putSign_written h2 (by omega) (by omega)
  have hdraw := h3.draw (by omega)
  rw [List.append_nil, show 39 - (digitsOf radix val).length - (39 - minLen) = minLen - (digitsOf radix val).length by omega]
    at hdraw
  unfold number
  rw [ok_bind hwrite, ok_bind hdigits]
  simp only
  rw [ok_bind hfill]
  simp only
  rw [ok_bind hsign]
  exact hdraw

end Rodvin.Libc.Printf
