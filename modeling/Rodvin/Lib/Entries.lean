/-
  Rodvin.Lib.Entries — an insertion-ordered finite map as a list of pairs, for keys whose
  equality is an equivalence.

  The map is described by the accesses that made it, each with the value it wrote, if it
  wrote one: the keys are pairwise different and stand in the order in which they first
  appeared, and each has the value that was written last (`Tracks`). An access of a new key
  appends it (`Tracks.enter`), one of a key that is there may change its value
  (`Tracks.update`).
-/

import Mathlib.Data.List.Induction
import Mathlib.Order.Basic

namespace Rodvin.Lib

variable {K V : Type} [BEq K]

/-- The value that was written last under the key. -/
def lastWritten (accesses : List (K × Option V)) (k : K) : Option V :=
  accesses.reverse.findSome? fun a => if a.1 == k then a.2 else none

structure Tracks (fresh : V) (l : List (K × V)) (accesses : List (K × Option V)) : Prop where
  distinct : l.Pairwise fun p q => (p.1 == q.1) = false
  order : l.map Prod.fst = (accesses.map Prod.fst).eraseDups
  last : ∀ p ∈ l, p.2 = (lastWritten accesses p.1).getD fresh

variable {fresh : V} {l : List (K × V)} {accesses : List (K × Option V)} {k : K} {p : K × V} {i : Nat}

theorem lastWritten_concat (a : K × Option V) :
    lastWritten (accesses ++ [a]) k = ((if a.1 == k then a.2 else none).or (lastWritten accesses k)) := by
  unfold lastWritten
  rw [List.reverse_append, List.reverse_singleton, List.singleton_append, List.findSome?_cons]
  cases (if a.1 == k then a.2 else none) with
  | none => rfl
  | some x => rfl

theorem lastWritten_eq_none (h : ∀ a ∈ accesses, (a.1 == k) = false) : lastWritten accesses k = none := by
  refine List.findSome?_eq_none_iff.mpr ?_
  intro a ha
  rw [h a (List.mem_reverse.mp ha)]
  rfl

theorem tracks_nil : Tracks fresh ([] : List (K × V)) [] := ⟨.nil, rfl, nofun⟩

variable [EquivBEq K]

theorem any_filter_ne (a : K) (ks : List K) (h : (k == a) = false) :
    (ks.filter fun b => !b == a).any (· == k) = ks.any (· == k) := by
  rw [List.any_filter]
  refine congrArg (ks.any ·) (funext ?_)
  intro b
  cases hb : b == k with
  | false => rw [Bool.and_false]
  | true => rw [Bool.and_true, BEq.congr_left hb, h, Bool.not_false]

/-- Only the first appearance of a key counts. -/
theorem eraseDups_concat (ks : List K) (k : K) :
    (ks ++ [k]).eraseDups = if ks.any (· == k) then ks.eraseDups else ks.eraseDups ++ [k] := by
  induction hn : ks.length using Nat.strongRecOn generalizing ks with
  | _ n ih =>
    cases ks with
    | nil => rfl
    | cons a as =>
      have hlt : (as.filter fun b => !b == a).length < n := by
        rw [← hn]
        exact Nat.lt_succ_of_le (List.length_filter_le ..)
      rw [List.cons_append, List.eraseDups_cons, List.eraseDups_cons, List.filter_append, List.any_cons,
        BEq.comm (a := a)]
      cases hk : k == a with
      | true =>
        rw [List.filter_cons_of_neg (by simp [hk]), List.filter_nil, List.append_nil, Bool.true_or, if_pos rfl]
      | false =>
        rw [List.filter_cons_of_pos (by simp [hk]), List.filter_nil, ih _ hlt _ rfl, any_filter_ne a as hk,
          Bool.false_or]
        cases as.any (· == k) with
        | true => rfl
        | false => rfl

/-- A key appears among the first appearances when it appears. -/
theorem any_eraseDups (ks : List K) (k : K) : ks.eraseDups.any (· == k) = ks.any (· == k) := by
  induction ks using List.reverseRecOn with
  | nil => rfl
  | append_singleton ks a ih =>
    rw [eraseDups_concat, List.any_append]
    by_cases h : ks.any (· == a)
    · rw [if_pos h, ih]
      cases ha : a == k with
      | false => simp [ha]
      | true =>
        obtain ⟨b, hb, he⟩ := List.any_eq_true.mp h
        have hk : ks.any (· == k) := List.any_eq_true.mpr ⟨b, hb, BEq.trans he ha⟩
        rw [hk, Bool.true_or]
    · rw [if_neg h, List.any_append, ih]

theorem length_eraseDups_le (ks : List K) : ks.eraseDups.length ≤ ks.length := by
  induction ks using List.reverseRecOn with
  | nil => exact Nat.le_refl _
  | append_singleton ks a ih =>
    rw [eraseDups_concat, List.length_append]
    split
    · exact Nat.le_add_right_of_le ih
    · rw [List.length_append]
      exact Nat.add_le_add_right ih _

theorem Tracks.length_le (h : Tracks fresh l accesses) : l.length ≤ accesses.length := by
  have hlen := length_eraseDups_le (accesses.map Prod.fst)
  rwa [← h.order, List.length_map, List.length_map] at hlen

/-- What is not in the map has not been accessed. -/
theorem Tracks.any_eq_false (h : Tracks fresh l accesses) (hk : ∀ p ∈ l, (p.1 == k) = false) :
    (accesses.map Prod.fst).any (· == k) = false := by
  rw [← any_eraseDups, ← h.order, List.any_map, List.any_eq_false]
  intro p hp
  rw [Function.comp_apply, hk p hp]
  exact Bool.false_ne_true

/-- Nor written. -/
theorem Tracks.unwritten (h : Tracks fresh l accesses) (hk : ∀ p ∈ l, (p.1 == k) = false) :
    lastWritten accesses k = none := by
  have hany := h.any_eq_false hk
  rw [List.any_map, List.any_eq_false] at hany
  exact lastWritten_eq_none fun a ha => Bool.eq_false_iff.mpr (hany a ha)

/-- A new key is entered behind the others. -/
theorem Tracks.enter (h : Tracks fresh l accesses) (hk : ∀ p ∈ l, (p.1 == k) = false) (w : Option V) :
    Tracks fresh (l ++ [(k, w.getD fresh)]) (accesses ++ [(k, w)]) := by
  refine ⟨?_, ?_, ?_⟩
  · refine List.pairwise_append.mpr ⟨h.distinct, List.pairwise_singleton .., ?_⟩
    intro p hp q hq
    rw [List.mem_singleton.mp hq]
    exact hk p hp
  · rw [List.map_append, List.map_append, List.map_singleton, List.map_singleton, eraseDups_concat, h.any_eq_false hk,
      h.order]
    rfl
  · intro p hp
    rw [lastWritten_concat]
    rcases List.mem_append.mp hp with hp | hp
    · rw [BEq.comm, hk p hp]
      exact h.last p hp
    · obtain rfl := List.mem_singleton.mp hp
      rw [if_pos (BEq.refl k), h.unwritten hk, Option.or_none]

theorem Tracks.ne {j : Nat} {q : K × V} (h : Tracks fresh l accesses) (hp : l[i]? = some p) (hq : l[j]? = some q)
    (hne : i ≠ j) : (p.1 == q.1) = false := by
  obtain ⟨hi, rfl⟩ := List.getElem?_eq_some_iff.mp hp
  obtain ⟨hj, rfl⟩ := List.getElem?_eq_some_iff.mp hq
  rcases Nat.lt_or_gt_of_ne hne with hlt | hlt
  · exact List.pairwise_iff_getElem.mp h.distinct i j hi hj hlt
  · rw [BEq.comm]
    exact List.pairwise_iff_getElem.mp h.distinct j i hj hi hlt

/-- A key that is there keeps its place, and has the value that is written. -/
theorem Tracks.update (h : Tracks fresh l accesses) (hp : l[i]? = some p) (hk : p.1 == k) (w : Option V) :
    Tracks fresh (l.set i (p.1, w.getD p.2)) (accesses ++ [(k, w)]) := by
  obtain ⟨hi, hget⟩ := List.getElem?_eq_some_iff.mp hp
  have hkeys : (l.set i (p.1, w.getD p.2)).map Prod.fst = l.map Prod.fst := by
    have hself : (l.map Prod.fst).set i ((l.map Prod.fst).get ⟨i, by rwa [List.length_map]⟩) = l.map Prod.fst :=
      List.set_getElem_self _
    rw [List.map_set, ← hget]
    refine Eq.trans ?_ hself
    rw [List.get_eq_getElem, List.getElem_map]
  have hany : (accesses.map Prod.fst).any (· == k) := by
    rw [← any_eraseDups, ← h.order, List.any_map]
    exact List.any_eq_true.mpr ⟨p, List.mem_of_getElem? hp, hk⟩
  refine ⟨?_, ?_, ?_⟩
  · have hd : (l.map Prod.fst).Pairwise fun a b => (a == b) = false := List.pairwise_map.mpr h.distinct
    rw [← hkeys] at hd
    exact List.pairwise_map.mp hd
  · rw [hkeys, h.order, List.map_append, List.map_singleton, eraseDups_concat, if_pos hany]
  · intro q hq
    obtain ⟨j, hj⟩ := List.mem_iff_getElem?.mp hq
    rw [lastWritten_concat]
    by_cases hij : i = j
    · subst hij
      rw [List.getElem?_set_self hi] at hj
      obtain rfl := Option.some.inj hj
      rw [if_pos (BEq.symm hk), Option.getD_or, ← h.last p (List.mem_of_getElem? hp)]
    · rw [List.getElem?_set_ne hij] at hj
      rw [BEq.congr_left (BEq.symm hk), h.ne hp hj hij]
      exact h.last q (List.mem_of_getElem? hj)

end Rodvin.Lib
