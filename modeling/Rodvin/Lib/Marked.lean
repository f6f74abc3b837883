/-
  Rodvin.Lib.Marked — codes in which every symbol starts with a mark.

  A symbol is written as one element that is a mark and then elements that continue it
  (`Marked`). In a text of such symbols the marks stand exactly at the boundaries between
  them: there are as many as symbols (`Marked.countP`), what follows a boundary is a mark or
  the end (`Marked.head`), so the elements that continue end at the next boundary
  (`Marked.takeWhile`).
-/

import Mathlib.Data.List.Basic

namespace Rodvin.Lib

variable {σ α : Type} {continues : α → Bool} {enc : σ → List α} {x : σ} {xs : List σ} {r : List α}

def Marked (continues : α → Bool) (enc : σ → List α) : Prop :=
  ∀ x, ∃ m t, enc x = m :: t ∧ continues m = false ∧ ∀ c ∈ t, continues c = true

namespace Marked

theorem ne_nil (h : Marked continues enc) (x : σ) : enc x ≠ [] := by
  obtain ⟨m, t, he, -⟩ := h x
  rw [he]
  exact List.cons_ne_nil _ _

theorem countP (h : Marked continues enc) (xs : List σ) :
    (xs.flatMap enc).countP (fun c => !continues c) = xs.length := by
  induction xs with
  | nil => rfl
  | cons x xs ih =>
    obtain ⟨m, t, he, hm, ht⟩ := h x
    have htail : t.countP (fun c => !continues c) = 0 := by
      rw [List.countP_eq_zero]
      intro c hc
      simp [ht c hc]
    rw [List.flatMap_cons, List.countP_append, ih, he, List.countP_cons_of_pos (by simp [hm]), htail, List.length_cons]
    omega

/-- Behind the last symbol stands what follows the text. -/
theorem head (h : Marked continues enc) (hr : ∀ c ∈ r.head?, continues c = false) (xs : List σ) :
    ∀ c ∈ (xs.flatMap enc ++ r).head?, continues c = false := by
  cases xs with
  | nil => exact hr
  | cons x xs =>
    obtain ⟨m, t, he, hm, -⟩ := h x
    intro c hc
    rw [List.flatMap_cons, he] at hc
    obtain rfl := Option.some.inj hc
    exact hm

theorem takeWhile (h : Marked continues enc) (hr : ∀ c ∈ r.head?, continues c = false) (x : σ) :
    ((enc x).tail ++ r).takeWhile continues = (enc x).tail := by
  obtain ⟨m, t, he, -, ht⟩ := h x
  rw [he, List.tail_cons, List.takeWhile_append_of_pos ht]
  cases r with
  | nil => simp
  | cons c r => rw [List.takeWhile_cons_of_neg (by simp [hr c rfl]), List.append_nil]

end Marked

end Rodvin.Lib
