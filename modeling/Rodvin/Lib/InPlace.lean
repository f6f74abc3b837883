/-
  Rodvin.Lib.InPlace — copies that are made in place, one cell after the other.

  A memory is a function from addresses. `copyEach` copies cell `src k` to cell `dst k` for
  every `k` of a list, in its order; a copy reads what the earlier ones left. It does what
  copying all cells at once does when no copy hits a cell that a later one reads, and no
  cell is hit twice (`InOrder`, `copyEach_at`, `copyEach_else`).
-/

import Mathlib.Data.List.Pairwise
import Mathlib.Logic.Function.Basic

namespace Rodvin.Lib

variable {κ α β : Type} [DecidableEq α] (dst src : κ → α)

def copyEach (m : α → β) (ks : List κ) : α → β := ks.foldl (fun m k => Function.update m (dst k) (m (src k))) m

/-- No cell is written that is written or read later. -/
def InOrder (ks : List κ) : Prop := ks.Pairwise fun j k => dst j ≠ dst k ∧ dst j ≠ src k

variable {dst src} {m : α → β} {ks : List κ}

theorem copyEach_else {a : α} (h : ∀ k ∈ ks, dst k ≠ a) : copyEach dst src m ks a = m a := by
  induction ks generalizing m with
  | nil => rfl
  | cons j ks ih =>
    have hj := h j (List.mem_cons_self ..)
    rw [copyEach, List.foldl_cons]
    exact (ih fun k hk => h k (List.mem_cons_of_mem j hk)).trans (Function.update_of_ne hj.symm _ m)

theorem copyEach_at (h : InOrder dst src ks) {k : κ} (hk : k ∈ ks) : copyEach dst src m ks (dst k) = m (src k) := by
  induction ks generalizing m with
  | nil => cases hk
  | cons j ks ih =>
    obtain ⟨hj, h⟩ := List.pairwise_cons.mp h
    rw [copyEach, List.foldl_cons]
    rcases List.mem_cons.mp hk with rfl | hk
    · exact (copyEach_else fun i hi => (hj i hi).1.symm).trans (Function.update_self ..)
    · exact (ih h hk).trans (Function.update_of_ne (hj k hk).2.symm _ m)

end Rodvin.Lib
