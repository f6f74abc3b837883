/-
  Rodvin.Lib.DoublyLinked — circular doubly linked lists.

  `Ring next prev l`: the nodes of `l`, in this order, are one cycle of `next`, and
  `prev` leads back along it. Where the cycle is cut is immaterial (`Ring.rotate`).

  Proved: linking a node in behind another and unlinking the node behind another keep
  a ring, whatever the two functions say off the nodes concerned (`Ring.insert`,
  `Ring.unlink`); following `next` from the head visits the nodes in order and comes
  back (`Ring.iterate`, `Ring.iterate_length`); a search along `next` finds the first
  node with a property on its first way round or never (`Ring.seek`).
-/

import Mathlib.Data.List.Chain

namespace Rodvin.Lib

variable {α : Type}

def Linked (next prev : α → α) (a b : α) : Prop := next a = b ∧ prev b = a

def Ring (next prev : α → α) : List α → Prop
  | [] => False
  | a :: l => (a :: (l ++ [a])).IsChain (Linked next prev)

variable {next prev next' prev' : α → α} {a n : α} {l xs ys : List α}

theorem ring_single : Ring next prev [a] ↔ next a = a ∧ prev a = a := by
  simp [Ring, Linked]

theorem Ring.rotate (h : Ring next prev (xs ++ ys)) : Ring next prev (ys ++ xs) := by
  cases xs with
  | nil => simpa using h
  | cons x xs =>
    cases ys with
    | nil => simpa using h
    | cons y ys =>
      -- both cuts say: a chain from x to y, and one from y back to x
      have h1 : (x :: xs ++ y :: (ys ++ [x])).IsChain (Linked next prev) := by
        simpa [Ring] using h
      obtain ⟨hx, hy⟩ := List.isChain_split.mp h1
      have h2 : (y :: ys ++ x :: (xs ++ [y])).IsChain (Linked next prev) :=
        List.isChain_split.mpr ⟨hy, hx⟩
      simpa [Ring] using h2

/-- A chain only looks at `next` before its last node and at `prev` behind its first. -/
theorem linked_congr {x : α} :
    ∀ {l : List α}, (x :: l).IsChain (Linked next prev) → (∀ y ∈ (x :: l).dropLast, next' y = next y) →
      (∀ y ∈ l, prev' y = prev y) → (x :: l).IsChain (Linked next' prev') := by
  intro l
  induction l generalizing x with
  | nil => intro _ _ _; exact List.isChain_singleton x
  | cons y l ih =>
    intro h hn hp
    obtain ⟨hxy, h⟩ := List.isChain_cons_cons.mp h
    refine List.isChain_cons_cons.mpr ⟨⟨?_, ?_⟩, ih h (fun z hz => ?_) (fun z hz => hp z (List.mem_cons_of_mem _ hz))⟩
    · rw [hn x (by simp)]; exact hxy.1
    · rw [hp y (by simp)]; exact hxy.2
    · exact hn z (by rw [List.dropLast_cons_of_ne_nil (List.cons_ne_nil _ _)]; exact List.mem_cons_of_mem _ hz)

/-- The part of a ring behind its first node, seen through links that changed at `a` only. -/
theorem linked_tail (h : (l ++ [a]).IsChain (Linked next prev)) (hnd : (a :: l).Nodup)
    (hn : ∀ x ∈ l, next' x = next x) (hp : ∀ x ∈ a :: l, x ∉ (l ++ [a]).head? → prev' x = prev x) :
    (l ++ [a]).IsChain (Linked next' prev') := by
  cases l with
  | nil => exact List.isChain_singleton a
  | cons y l =>
    refine linked_congr h (fun z hz => hn z ?_) (fun z hz => hp z ?_ ?_)
    · have hz : z ∈ (y :: l ++ [a]).dropLast := hz
      rwa [List.dropLast_concat] at hz
    · rcases List.mem_append.mp hz with hz | hz
      · exact List.mem_cons_of_mem _ (List.mem_cons_of_mem _ hz)
      · rw [List.mem_singleton.mp hz]; exact List.mem_cons_self
    · simp only [List.cons_append, List.head?_cons, Option.mem_some_iff]
      simp only [List.nodup_cons, List.mem_cons, not_or] at hnd
      rintro rfl
      rcases List.mem_append.mp hz with hz | hz
      · exact hnd.2.1 hz
      · exact hnd.1.1 (List.mem_singleton.mp hz).symm

/-- A ring only depends on the links of its nodes. -/
theorem Ring.congr (h : Ring next prev l) (hn : ∀ x ∈ l, next' x = next x) (hp : ∀ x ∈ l, prev' x = prev x) :
    Ring next' prev' l := by
  cases l with
  | nil => exact h
  | cons a l =>
    refine linked_congr h (fun y hy => hn y ?_) (fun y hy => hp y ?_)
    · have hy : y ∈ (a :: l ++ [a]).dropLast := hy
      rwa [List.dropLast_concat] at hy
    · rcases List.mem_append.mp hy with hy | hy
      · exact List.mem_cons_of_mem _ hy
      · rw [List.mem_singleton.mp hy]; exact List.mem_cons_self

theorem Ring.linked {m : α} (h : Ring next prev (xs ++ a :: m :: ys)) : next a = m ∧ prev m = a :=
  (List.isChain_cons_cons.mp h.rotate).1

theorem Ring.head_next (h : Ring next prev (a :: l)) : (l ++ [a]).head? = some (next a) := by
  cases l with
  | nil => simpa using (ring_single.mp h).1.symm
  | cons y l => simpa using (List.isChain_cons_cons.mp h).1.1.symm

/-- Linking `n` in behind `a`. -/
theorem Ring.insert (h : Ring next prev (a :: l)) (hnd : (a :: l).Nodup) (ha : next' a = n) (hna : prev' n = a)
    (hnn : next' n = next a) (hpn : prev' (next a) = n) (hn : ∀ x ∈ l, next' x = next x)
    (hp : ∀ x ∈ a :: l, x ≠ next a → prev' x = prev x) : Ring next' prev' (a :: n :: l) := by
  have hhead := h.head_next
  have htail : (l ++ [a]).IsChain (Linked next' prev') :=
    linked_tail (List.isChain_cons.mp h).2 hnd hn fun x hx hne => hp x hx fun e => hne (by simp [hhead, e])
  refine List.isChain_cons_cons.mpr ⟨⟨ha, hna⟩, List.isChain_cons.mpr ⟨fun y hy => ?_, htail⟩⟩
  obtain rfl : next a = y := Option.some.inj (hhead ▸ hy)
  exact ⟨hnn, hpn⟩

/-- What follows the node behind `a` stays when that node goes. -/
theorem Ring.unlink_mem (h : Ring next prev (a :: n :: l)) : next n ∈ a :: l := by
  have hc := (List.isChain_cons_cons.mp h).2
  cases l with
  | nil => simpa using (List.isChain_pair.mp hc).1
  | cons y l => simpa using Or.inr (Or.inl (List.isChain_cons_cons.mp hc).1.1)

/-- Unlinking `n` behind `a`. -/
theorem Ring.unlink (h : Ring next prev (a :: n :: l)) (hnd : (a :: n :: l).Nodup) (ha : next' a = next n)
    (hpn : prev' (next n) = a) (hn : ∀ x ∈ l, next' x = next x)
    (hp : ∀ x ∈ a :: l, x ≠ next n → prev' x = prev x) : Ring next' prev' (a :: l) := by
  have hrest := (List.isChain_cons_cons.mp h).2
  have hhead : (l ++ [a]).head? = some (next n) := by
    cases l with
    | nil => simpa using ((List.isChain_pair.mp hrest).1).symm
    | cons y l => simpa using (List.isChain_cons_cons.mp hrest).1.1.symm
  have hnd' : (a :: l).Nodup := hnd.sublist (by simp)
  have htail : (l ++ [a]).IsChain (Linked next' prev') :=
    linked_tail (List.isChain_cons.mp hrest).2 hnd' hn fun x hx hne => hp x hx fun e => hne (by simp [hhead, e])
  refine List.isChain_cons.mpr ⟨fun y hy => ?_, htail⟩
  obtain rfl : next n = y := Option.some.inj (hhead ▸ hy)
  exact ⟨ha, hpn⟩

/-! ## Going round -/

theorem chain_iterate {x : α} :
    ∀ {l : List α}, (x :: l).IsChain (Linked next prev) → ∀ i (hi : i < (x :: l).length), next^[i] x = (x :: l)[i] := by
  intro l
  induction l generalizing x with
  | nil => intro _ i hi; simp at hi; subst hi; rfl
  | cons y l ih =>
    intro h i hi
    obtain ⟨hxy, h⟩ := List.isChain_cons_cons.mp h
    cases i with
    | zero => rfl
    | succ i =>
      rw [Function.iterate_succ_apply, hxy.1]
      exact ih h i (by simpa using hi)

theorem Ring.iterate (h : Ring next prev (a :: l)) {i : Nat} (hi : i < (a :: l).length) :
    next^[i] a = (a :: l)[i] := by
  have hlt : i < (a :: l ++ [a]).length := by simp at hi ⊢; omega
  calc next^[i] a = (a :: l ++ [a])[i] := chain_iterate h i hlt
    _ = (a :: l)[i] := List.getElem_append_left hi

theorem Ring.iterate_length (h : Ring next prev (a :: l)) : next^[(a :: l).length] a = a := by
  rw [chain_iterate h _ (by simp)]
  simp

theorem Ring.prev_next (h : Ring next prev l) {x : α} (hx : x ∈ l) : prev (next x) = x := by
  obtain ⟨xs, ys, rfl⟩ := List.append_of_mem hx
  have h := h.rotate
  rw [List.cons_append] at h
  obtain ⟨y, t, e⟩ := List.exists_cons_of_ne_nil (List.append_ne_nil_of_right_ne_nil (ys ++ xs) (List.cons_ne_nil x []))
  rw [Ring, e] at h
  obtain ⟨⟨h1, h2⟩, -⟩ := List.isChain_cons_cons.mp h
  rw [h1, h2]

theorem Ring.prev_mem (h : Ring next prev l) {x : α} (hx : x ∈ l) : prev x ∈ l := by
  obtain ⟨xs, ys, rfl⟩ := List.append_of_mem hx
  have h := h.rotate
  rw [List.cons_append] at h
  rcases List.eq_nil_or_concat (ys ++ xs) with e | ⟨t, y, e⟩
  · rw [e] at h
    rw [(ring_single.mp h).2]
    exact hx
  · have hc : (x :: (t ++ y :: [x])).IsChain (Linked next prev) := by simpa [Ring, e] using h
    rw [(List.isChain_cons_append_cons_cons.mp hc).2.1.2]
    have hy : y ∈ ys ++ xs := by simp [e]
    simp only [List.mem_append, List.mem_cons] at hy ⊢
    rcases hy with hy | hy
    · exact Or.inr (Or.inr hy)
    · exact Or.inl hy

theorem Ring.next_mem (h : Ring next prev l) {x : α} (hx : x ∈ l) : next x ∈ l := by
  obtain ⟨xs, ys, rfl⟩ := List.append_of_mem hx
  have hm : next x ∈ ys ++ xs ++ [x] := List.mem_of_mem_head? (Option.mem_def.mpr h.rotate.head_next)
  simp only [List.mem_append, List.mem_cons, List.not_mem_nil, or_false] at hm ⊢
  rcases hm with (hm | hm) | hm
  · exact Or.inr (Or.inr hm)
  · exact Or.inl hm
  · exact Or.inr (Or.inl hm)

/-! ## Searching -/

/-- Follow `next` until a node has `p`, on fuel. -/
def seek (next : α → α) (p : α → Bool) : Nat → α → Option α
  | 0, _ => none
  | fuel + 1, a => if p a then some a else seek next p fuel (next a)

variable {p : α → Bool} {fuel : Nat}

/-- More fuel finds the same node. -/
theorem seek_mono {b : α} {k : Nat} (h : seek next p fuel a = some b) : seek next p (fuel + k) a = some b := by
  induction fuel generalizing a with
  | zero => cases h
  | succ fuel ih =>
    rw [Nat.succ_add]
    unfold seek at h ⊢
    by_cases hp : p a = true
    · rwa [if_pos hp] at h ⊢
    · rw [if_neg hp] at h ⊢
      exact ih h

/-- Along a chain the search sees its nodes in order. -/
theorem chain_seek {x : α} (h : (x :: l).IsChain (Linked next prev)) (hf : fuel ≤ (x :: l).length) :
    seek next p fuel x = ((x :: l).take fuel).find? p := by
  induction fuel generalizing x l with
  | zero => rfl
  | succ fuel ih =>
    rw [List.take_succ_cons, List.find?_cons]
    unfold seek
    cases hp : p x with
    | true => rfl
    | false =>
      cases l with
      | nil =>
        obtain rfl : fuel = 0 := by simpa using hf
        rfl
      | cons y l =>
        obtain ⟨hxy, h⟩ := List.isChain_cons_cons.mp h
        rw [if_neg Bool.false_ne_true, hxy.1]
        exact ih h (Nat.le_of_succ_le_succ hf)

/-- A search that never leaves a ring finds nothing where no node has `p`. -/
theorem Ring.seek_none (h : Ring next prev l) (hp : ∀ x ∈ l, p x = false) {x : α} (hx : x ∈ l) :
    seek next p fuel x = none := by
  induction fuel generalizing x with
  | zero => rfl
  | succ fuel ih =>
    unfold Lib.seek
    rw [hp x hx, if_neg Bool.false_ne_true]
    exact ih (h.next_mem hx)

/-- The search from the head of a ring, on any fuel. -/
theorem Ring.seek (h : Ring next prev (a :: l)) : seek next p fuel a = ((a :: l).take fuel).find? p := by
  have hshort : ∀ {n}, n ≤ (a :: l).length → Lib.seek next p n a = ((a :: l).take n).find? p := by
    intro n hn
    rw [chain_seek h (by simp at hn ⊢; omega), show a :: (l ++ [a]) = (a :: l) ++ [a] from rfl,
      List.take_append_of_le_length hn]
  rcases Nat.le_total fuel (a :: l).length with hf | hf
  · exact hshort hf
  · rw [List.take_of_length_le hf]
    cases hfind : (a :: l).find? p with
    | none =>
      refine h.seek_none (fun x hx => ?_) List.mem_cons_self
      simpa using List.find?_eq_none.mp hfind x hx
    | some b =>
      obtain ⟨k, rfl⟩ := Nat.exists_eq_add_of_le hf
      refine seek_mono ?_
      rw [hshort (Nat.le_refl _), List.take_length, hfind]

end Rodvin.Lib
