/-
  Rodvin.Lib.Named — lists of named values.

  Every name stands in the list at most once, so what a name stands for can be looked up
  (`find_of_mem`), and a named value stands apart from the rest (`perm_others`): a count over
  the list is the count over the rest and the one value (`countP_others`). Names that are
  addresses bound the length of the list (`length_lt`).
-/

import Mathlib.Data.Finset.Card
import Mathlib.Data.List.Nodup
import Mathlib.Order.Interval.Finset.Nat

namespace Rodvin.Lib.Named

variable {α β : Type} [DecidableEq α] {l : List (α × β)} {a : α} {b : β}

/-- What the name stands for. -/
def find (l : List (α × β)) (a : α) : Option β := (l.find? fun q => q.1 = a).map Prod.snd

/-- The list without a name. -/
def others (l : List (α × β)) (a : α) : List (α × β) := l.filter fun q => q.1 ≠ a

theorem mem_of_find (h : find l a = some b) : (a, b) ∈ l := by
  obtain ⟨q, hq, rfl⟩ := Option.map_eq_some_iff.mp h
  have he : q.1 = a := by simpa using List.find?_some hq
  exact he ▸ List.mem_of_find?_eq_some hq

theorem find_of_mem (hn : (l.map Prod.fst).Nodup) (h : (a, b) ∈ l) : find l a = some b := by
  have hf : (l.find? fun q => q.1 = a).isSome := List.find?_isSome.mpr ⟨_, h, decide_eq_true rfl⟩
  obtain ⟨q, hq⟩ := Option.isSome_iff_exists.mp hf
  have he : q.1 = a := by simpa using List.find?_some hq
  have hqb : q = (a, b) := List.inj_on_of_nodup_map hn (List.mem_of_find?_eq_some hq) h he
  unfold find
  rw [hq, hqb]
  rfl

theorem mem_others {q : α × β} : q ∈ others l a ↔ q ∈ l ∧ q.1 ≠ a := by
  unfold others
  rw [List.mem_filter]
  simp

/-- With its name unique, a value stands apart from the rest. -/
theorem perm_others (hn : (l.map Prod.fst).Nodup) (h : (a, b) ∈ l) : l.Perm ((a, b) :: others l a) := by
  unfold others
  induction l with
  | nil => cases h
  | cons q l ih =>
    obtain ⟨hq, hn⟩ := List.nodup_cons.mp hn
    rcases List.mem_cons.mp h with rfl | hl
    · have hrest : l.filter (fun q => q.1 ≠ a) = l :=
        List.filter_eq_self.mpr fun q hm => decide_eq_true fun e => hq (List.mem_map.mpr ⟨q, hm, e⟩)
      rw [List.filter_cons_of_neg (by simp), hrest]
    · have hne : q.1 ≠ a := fun e => hq (List.mem_map.mpr ⟨_, hl, e.symm⟩)
      rw [List.filter_cons_of_pos (by simpa using hne)]
      exact ((ih hn hl).cons q).trans (List.Perm.swap _ _ _)

theorem countP_others (hn : (l.map Prod.fst).Nodup) (h : (a, b) ∈ l) (p : α × β → Bool) :
    l.countP p = (others l a).countP p + if p (a, b) then 1 else 0 := by
  rw [(perm_others hn h).countP_eq p, List.countP_cons]

theorem names_others (hn : (l.map Prod.fst).Nodup) : ((others l a).map Prod.fst).Nodup :=
  hn.sublist (List.filter_sublist.map Prod.fst)

/-- Names that are addresses are fewer than addresses. -/
theorem length_lt {l : List (Nat × β)} {n : Nat} (hpos : 0 < n) (hn : (l.map Prod.fst).Nodup)
    (hr : ∀ q ∈ l, 0 < q.1 ∧ q.1 < n) : l.length < n := by
  have hsub : (l.map Prod.fst).toFinset ⊆ Finset.Ioo 0 n := by
    intro x hx
    obtain ⟨q, hq, rfl⟩ := List.mem_map.mp (List.mem_toFinset.mp hx)
    exact Finset.mem_Ioo.mpr (hr q hq)
  have hcard := Finset.card_le_card hsub
  rw [List.toFinset_card_of_nodup hn, List.length_map, Nat.card_Ioo] at hcard
  omega

end Rodvin.Lib.Named
