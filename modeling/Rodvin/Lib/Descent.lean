/-
  Rodvin.Lib.Descent — recursion along a relation.

  A recursion that goes from `a` to every `b` with `r a b` ends at `a` when `a` is
  accessible (`Acc (flip r) a`). Where every element has finitely many successors that is
  the same as a bound on the depth (`acc_iff_depth`); where finitely many elements can be
  reached, as that no cycle can (`acc_iff_no_cycle`). A simulation carries it over from one
  relation to another (`acc_of_simulation`).
-/

import Mathlib.Data.Fintype.Order
import Mathlib.Data.Set.Finite.Lattice

namespace Rodvin.Lib

open Relation

variable {α β : Type} {r : α → α → Prop} {s : β → β → Prop} {a : α} {b : β}

/-- `P n a`: the recursion at `a` ends within depth `n`. -/
theorem acc_iff_depth {P : Nat → α → Prop} (hfin : ∀ a, {b | r a b}.Finite) (hzero : ∀ a, ¬ P 0 a)
    (hsucc : ∀ n a, P (n + 1) a ↔ ∀ b, r a b → P n b) : (∃ n, P n a) ↔ Acc (flip r) a := by
  have hmono : ∀ {n m : Nat} {a : α}, P n a → n ≤ m → P m a := by
    intro n
    induction n with
    | zero => exact fun h => absurd h (hzero _)
    | succ n ih =>
      intro m a h hle
      obtain ⟨m, rfl⟩ := Nat.exists_eq_succ_of_ne_zero (Nat.ne_of_gt (Nat.lt_of_lt_of_le (Nat.succ_pos n) hle))
      exact (hsucc m a).mpr fun b hb => ih ((hsucc n a).mp h b hb) (Nat.le_of_succ_le_succ hle)
  constructor
  · rintro ⟨n, hn⟩
    induction n generalizing a with
    | zero => exact absurd hn (hzero a)
    | succ n ih => exact ⟨a, fun b hb => ih ((hsucc n a).mp hn b hb)⟩
  · intro h
    induction h with
    | intro a _ ih =>
      -- the largest of the depths of the successors
      choose! depth hdepth using ih
      obtain ⟨m, hm⟩ := ((hfin a).image depth).bddAbove
      exact ⟨m + 1, (hsucc m a).mpr fun b hb => hmono (hdepth b hb) (hm (Set.mem_image_of_mem depth hb))⟩

/-- From an accessible element no cycle is reached. -/
theorem no_cycle_of_acc (h : Acc (flip r) a) {b : α} (hab : ReflTransGen r a b) : ¬ TransGen r b b := by
  have hb : Acc (flip r) b := by
    induction hab with
    | refl => exact h
    | tail _ hstep ih => exact ih.inv hstep
  have ht : Acc (TransGen (flip r)) b := hb.transGen
  intro hcycle
  have hback : TransGen (flip r) b b := transGen_swap.mpr hcycle
  clear hab hcycle
  induction ht with
  | intro b _ ih => exact ih b hback (hb.inv_of_transGen hback) hback

theorem acc_iff_no_cycle (hfin : {b | ReflTransGen r a b}.Finite) :
    Acc (flip r) a ↔ ∀ b, ReflTransGen r a b → ¬ TransGen r b b := by
  constructor
  · exact fun h b hab => no_cycle_of_acc h hab
  · intro h
    -- on what can be reached, the relation has no cycle, and finitely many elements
    let q : {b // ReflTransGen r a b} → {b // ReflTransGen r a b} → Prop := fun x y => TransGen (flip r) x.1 y.1
    have : Finite {b // ReflTransGen r a b} := hfin.to_subtype
    have : IsTrans _ q := ⟨fun _ _ _ h1 h2 => h1.trans h2⟩
    have : Std.Irrefl q := ⟨fun x hx => h x.1 x.2 (transGen_swap.mp hx)⟩
    have hwf : WellFounded q := Finite.wellFounded_of_trans_of_irrefl q
    have hacc : ∀ x : {b // ReflTransGen r a b}, Acc (flip r) x.1 := by
      intro x
      induction x using hwf.induction with
      | _ x ih => exact ⟨x.1, fun c hc => ih ⟨c, x.2.tail hc⟩ (.single hc)⟩
    exact hacc ⟨a, .refl⟩

/-- What the elements of one relation do, those of another do that stand for them. -/
theorem acc_of_simulation {R : β → α → Prop} (hsim : ∀ {b a a'}, R b a → r a a' → ∃ b', s b b' ∧ R b' a')
    (hba : R b a) (h : Acc (flip s) b) : Acc (flip r) a := by
  induction h generalizing a with
  | intro b _ ih =>
    refine ⟨a, fun a' ha' => ?_⟩
    obtain ⟨b', hb', hr⟩ := hsim hba ha'
    exact ih b' hb' hr

end Rodvin.Lib
