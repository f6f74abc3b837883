/-
  Rodvin.Lib.Separated — lists cut into parts at a separator.

  `parts` cuts, `joined` puts the separator in front of every part: one undoes the other
  (`joined_parts`, `joined_injective`). In `joined ps ++ [sep]` every part stands between
  two separators, so `sep q sep` occurs exactly where `q` is a part (`part_of_occurs`, `occurs_of_part`), and
  to overwrite an occurrence by one separator is to take the part out (`cut_part`).
-/

import Mathlib.Data.List.Basic

namespace Rodvin.Lib

variable {α : Type} (sep : α)

def joined (ps : List (List α)) : List α := ps.flatMap fun p => sep :: p

variable {sep} {ps qs pre post : List (List α)} {p q s : List α}

@[simp] theorem joined_nil : joined sep [] = [] := rfl

@[simp] theorem joined_cons (p : List α) (ps : List (List α)) : joined sep (p :: ps) = sep :: (p ++ joined sep ps) := rfl

@[simp] theorem joined_append (ps qs : List (List α)) : joined sep (ps ++ qs) = joined sep ps ++ joined sep qs :=
  List.flatMap_append

/-- A part in front of a separator is found as it is. -/
theorem part_of_starts (hp : sep ∉ p) (hq : sep ∉ q) (h : q ++ [sep] <+: p ++ sep :: s) : p = q := by
  induction p generalizing q with
  | nil =>
    cases q with
    | nil => rfl
    | cons d ds =>
      rw [List.nil_append, List.cons_append, List.cons_prefix_cons] at h
      exact absurd (by rw [h.1]; exact List.mem_cons_self) hq
  | cons c cs ih =>
    rw [List.mem_cons, not_or] at hp
    cases q with
    | nil =>
      rw [List.nil_append, List.cons_append, List.cons_prefix_cons] at h
      exact absurd h.1 hp.1
    | cons d ds =>
      rw [List.mem_cons, not_or] at hq
      rw [List.cons_append, List.cons_append, List.cons_prefix_cons] at h
      rw [h.1, ih hp.2 hq.2 h.2]

/-- `sep q sep` occurs in `joined ps ++ [sep]` only where `q` is a part. -/
theorem part_of_occurs (hp : ∀ p ∈ ps, sep ∉ p) (hq : sep ∉ q) {k : Nat}
    (h : sep :: (q ++ [sep]) <+: (joined sep ps ++ [sep]).drop k) :
    ∃ pre post, ps = pre ++ q :: post ∧ (joined sep pre).length = k := by
  induction ps generalizing k with
  | nil =>
    have := h.length_le
    simp at this
    omega
  | cons p ps ih =>
    have hfree := hp p List.mem_cons_self
    cases k with
    | zero =>
      rw [List.drop_zero, joined_cons, List.cons_append, List.cons_prefix_cons, List.append_assoc] at h
      obtain ⟨t, ht⟩ : ∃ t, joined sep ps ++ [sep] = sep :: t := by
        cases ps with
        | nil => exact ⟨[], rfl⟩
        | cons q qs => exact ⟨_, rfl⟩
      rw [ht] at h
      exact ⟨[], ps, by rw [part_of_starts hfree hq h.2]; rfl, rfl⟩
    | succ k =>
      rw [joined_cons, List.cons_append, List.drop_succ_cons, List.append_assoc] at h
      by_cases hk : k < p.length
      · -- inside a part no separator stands
        rw [List.drop_append_of_le_length (Nat.le_of_lt hk), List.drop_eq_getElem_cons hk, List.cons_append,
          List.cons_prefix_cons] at h
        exact absurd (h.1 ▸ List.getElem_mem hk) hfree
      · rw [List.drop_append, List.drop_of_length_le (by omega), List.nil_append] at h
        obtain ⟨pre, post, h1, h2⟩ := ih (fun q hq => hp q (List.mem_cons_of_mem _ hq)) h
        refine ⟨p :: pre, post, by rw [h1]; rfl, ?_⟩
        simp only [joined_cons, List.length_cons, List.length_append, h2]
        omega

theorem occurs_of_part (h : ps = pre ++ q :: post) :
    sep :: (q ++ [sep]) <+: (joined sep ps ++ [sep]).drop (joined sep pre).length := by
  rw [h, joined_append, List.append_assoc, List.drop_left, joined_cons, List.cons_append, List.append_assoc]
  cases post with
  | nil => exact ⟨[], by simp⟩
  | cons r rs => exact ⟨r ++ joined sep rs ++ [sep], by simp⟩

/-- Overwriting `sep q sep` by `sep` takes the part out. -/
theorem cut_part (pre post : List (List α)) (q : List α) {k : Nat} (hk : (joined sep pre).length = k) :
    (joined sep (pre ++ q :: post) ++ [sep]).take k ++ [sep] ++
      (joined sep (pre ++ q :: post) ++ [sep]).drop (k + (q.length + 2)) = joined sep (pre ++ post) ++ [sep] := by
  subst hk
  have hs : ∃ t, joined sep post ++ [sep] = sep :: t := by
    cases post with
    | nil => exact ⟨[], rfl⟩
    | cons r rs => exact ⟨_, rfl⟩
  obtain ⟨t, ht⟩ := hs
  have hpre : joined sep (pre ++ post) ++ [sep] = joined sep pre ++ sep :: t := by
    rw [joined_append, List.append_assoc, ht]
  have hall : joined sep (pre ++ q :: post) ++ [sep] = joined sep pre ++ (sep :: (q ++ (sep :: t))) := by
    rw [← ht]
    simp
  have hd : (sep :: (q ++ (sep :: t))).drop (q.length + 2) = t := by
    rw [List.drop_succ_cons, ← List.drop_drop, List.drop_left]
    rfl
  rw [hpre, hall, List.take_left, ← List.drop_drop, List.drop_left, hd, List.append_assoc]
  rfl

/-! ## Cutting -/

variable [DecidableEq α]

variable (sep) in
def parts : List α → List (List α)
  | [] => [[]]
  | c :: cs =>
    if c = sep then [] :: parts cs
    else
      match parts cs with
      | [] => [[c]]
      | p :: ps => (c :: p) :: ps

theorem parts_ne_nil (s : List α) : parts sep s ≠ [] := by
  cases s with
  | nil => simp [parts]
  | cons c cs =>
    unfold parts
    split
    · simp
    · split
      · simp
      · simp

theorem parts_free (s : List α) : ∀ p ∈ parts sep s, sep ∉ p := by
  induction s with
  | nil => simp [parts]
  | cons c cs ih =>
    unfold parts
    by_cases h : c = sep
    · rw [if_pos h]
      intro p hp
      rcases List.mem_cons.mp hp with rfl | hp
      · exact List.not_mem_nil
      · exact ih p hp
    · rw [if_neg h]
      cases hcs : parts sep cs with
      | nil => exact absurd hcs (parts_ne_nil cs)
      | cons q qs =>
        rw [hcs] at ih
        intro p hp
        rcases List.mem_cons.mp hp with rfl | hp
        · rw [List.mem_cons, not_or]
          exact ⟨Ne.symm h, ih q List.mem_cons_self⟩
        · exact ih p (List.mem_cons_of_mem _ hp)

theorem joined_parts (s : List α) : joined sep (parts sep s) = sep :: s := by
  induction s with
  | nil => rfl
  | cons c cs ih =>
    unfold parts
    by_cases h : c = sep
    · rw [if_pos h, joined_cons, ih, h]
      rfl
    · rw [if_neg h]
      cases hcs : parts sep cs with
      | nil => exact absurd hcs (parts_ne_nil cs)
      | cons q qs =>
        rw [hcs, joined_cons] at ih
        show sep :: (c :: q ++ joined sep qs) = _
        rw [List.cons_append, (List.cons.inj ih).2]

theorem parts_append (h : sep ∉ p) (s : List α) : parts sep (p ++ sep :: s) = p :: parts sep s := by
  induction p with
  | nil => simp [parts]
  | cons c cs ih =>
    rw [List.mem_cons, not_or] at h
    rw [List.cons_append, parts, if_neg (Ne.symm h.1), ih h.2]

theorem parts_of_free (h : sep ∉ p) : parts sep p = [p] := by
  induction p with
  | nil => rfl
  | cons c cs ih =>
    rw [List.mem_cons, not_or] at h
    rw [parts, if_neg (Ne.symm h.1), ih h.2]

/-- Cutting undoes joining. -/
theorem parts_joined (h : ∀ p ∈ ps, sep ∉ p) (s : List α) :
    parts sep (joined sep ps ++ sep :: s).tail = ps ++ parts sep s := by
  induction ps with
  | nil => rfl
  | cons p ps ih =>
    have hp := h p List.mem_cons_self
    have ih := ih fun q hq => h q (List.mem_cons_of_mem _ hq)
    rw [joined_cons, List.cons_append, List.tail_cons, List.append_assoc]
    cases ps with
    | nil => exact parts_append hp s
    | cons q qs =>
      rw [joined_cons] at ih ⊢
      rw [List.cons_append, List.tail_cons] at ih
      rw [List.cons_append, parts_append hp, ih]
      rfl

theorem joined_injective (hp : ∀ p ∈ ps, sep ∉ p) (hq : ∀ q ∈ qs, sep ∉ q) (h : joined sep ps = joined sep qs) :
    ps = qs := by
  have h1 := parts_joined hp []
  rw [h, parts_joined hq []] at h1
  exact (List.append_left_injective _ h1).symm

end Rodvin.Lib
