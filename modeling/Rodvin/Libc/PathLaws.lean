/-
  Rodvin.Libc.PathLaws — what `canonical` and `parent_path` are for, and when they do it.

  `lexical` is lexical normalisation: the components of an absolute path, kept one by one
  from the left, with `..` taking the last one back. `canonical` computes it exactly for the
  paths that `Resolved` describes (`canonical_is_lexical_iff`): its search never looks at the
  last component, and a `..` that finds nothing to take back leads it in front of the string.

  `parent_path` cuts at the first slash. An absolute path has it in front, so what comes out
  is empty and never the directory (`parent_path_undoes_never`).
-/

import Rodvin.Libc.PathProofs

namespace Rodvin.Libc.Path

open Rodvin.Lib

/-! ## Lexical normalisation -/

/-- The kept components after one more. -/
def keep (kept : List Text) (c : Text) : List Text :=
  if c = [] ∨ c = dot then kept else if c = dotdot then kept.dropLast else kept ++ [c]

/-- The text of an absolute path with the components `cs`. -/
def absolute (cs : List Text) : Text := slash :: [slash].intercalate cs

/-- The components of the absolute path `slash :: s`, normalised. -/
def lexical (s : Text) : Text := absolute ((parts slash s).foldl keep [])

/-- The last component. -/
def lastPart (s : Text) : Text := (parts slash s).getLast (parts_ne_nil s)

/-- The other components never lead above the root, and the last is a name, or empty behind
    components that lead back to the root. -/
def Resolved (s : Text) : Prop :=
  ∃ cs, resolve [] (parts slash s).dropLast = some cs ∧
    (lastPart s ≠ [] ∧ lastPart s ≠ dot ∧ lastPart s ≠ dotdot ∨ lastPart s = [] ∧ cs = [])

variable {s l : Text} {cs ds : List Text}

/-- Where nothing is above the root, keeping is resolving. -/
theorem foldl_keep : ∀ {base : List Text}, resolve base cs = some ds → cs.foldl keep base = ds := by
  induction cs with
  | nil => exact fun h => Option.some.inj h
  | cons c cs ih =>
    intro base h
    rw [resolve] at h
    rw [List.foldl_cons, keep]
    by_cases h1 : c = [] ∨ c = dot
    · rw [if_pos h1] at h ⊢
      exact ih h
    · rw [if_neg h1] at h ⊢
      by_cases h2 : c = dotdot
      · rw [if_pos h2] at h ⊢
        by_cases h3 : base = []
        · rw [if_pos h3] at h
          cases h
        · rw [if_neg h3] at h
          exact ih h
      · rw [if_neg h2] at h ⊢
        exact ih h

theorem absolute_cons (c : Text) (cs : List Text) : absolute (c :: cs) = joined slash (c :: cs) := by
  induction cs generalizing c with
  | nil => simp [absolute]
  | cons d cs ih =>
    have := ih d
    unfold absolute at this ⊢
    rw [List.intercalate_cons_cons, joined_cons, ← this]
    simp

theorem absolute_eq (cs : List Text) : absolute cs = if cs = [] then [slash] else joined slash cs := by
  cases cs with
  | nil => rfl
  | cons c cs => rw [if_neg (List.cons_ne_nil _ _), absolute_cons]

/-- An absolute path, taken apart. -/
theorem joined_dropLast_lastPart (s : Text) : joined slash ((parts slash s).dropLast ++ [lastPart s]) = slash :: s := by
  unfold lastPart
  rw [List.dropLast_append_getLast, joined_parts]

theorem lexical_eq (s : Text) : lexical s = absolute (keep ((parts slash s).dropLast.foldl keep []) (lastPart s)) := by
  unfold lexical lastPart
  conv_lhs => rw [← List.dropLast_append_getLast (parts_ne_nil s)]
  rw [List.foldl_append]
  rfl

theorem canonical_slash (s : Text) :
    canonical (slash :: s) =
      match resolve [] (parts slash s).dropLast with
      | none => fault
      | some cs => .ok (joined slash (cs ++ [lastPart s])) := by
  have hfree : ∀ c ∈ (parts slash s).dropLast ++ [lastPart s], slash ∉ c := by
    unfold lastPart
    rw [List.dropLast_append_getLast]
    exact parts_free s
  rw [← joined_dropLast_lastPart s]
  exact canonical_eq hfree

/-- `canonical` leaves a normalised path alone. -/
theorem canonical_absolute (h : Normal cs) : canonical (absolute cs) = .ok (absolute cs) := by
  rcases List.eq_nil_or_concat' cs with rfl | ⟨ds, l, rfl⟩
  · rfl
  · have hds : Normal ds := fun c hc => h c (List.mem_append_left _ hc)
    have hres : resolve [] ds = some ([] ++ ds) := resolve_normal hds
    rw [absolute_eq, if_neg (by simp), canonical_eq fun c hc => (h c hc).2.2.2, hres]
    rfl

/-- What the last component does: a name is kept, and of the others only an empty one behind
    the root gives what normalisation gives. -/
theorem last_kept_iff (hcs : Normal cs) (l : Text) :
    joined slash (cs ++ [l]) = absolute (keep cs l) ↔ l ≠ [] ∧ l ≠ dot ∧ l ≠ dotdot ∨ l = [] ∧ cs = [] := by
  have hlen : ∀ ds : List Text, (absolute ds).length = if ds = [] then 1 else (joined slash ds).length := by
    intro ds
    rw [absolute_eq]
    split
    · rfl
    · rfl
  have hjoin : (joined slash (cs ++ [l])).length = (joined slash cs).length + l.length + 1 := by
    simp only [joined_append, joined_cons, joined_nil, List.length_append, List.length_cons, List.length_nil]
    omega
  unfold keep
  by_cases h1 : l = [] ∨ l = dot
  · rw [if_pos h1]
    constructor
    · intro he
      have hle := congrArg List.length he
      rw [hjoin, hlen] at hle
      rcases h1 with rfl | rfl
      · refine .inr ⟨rfl, ?_⟩
        by_cases hnil : cs = []
        · exact hnil
        · rw [if_neg hnil, List.length_nil] at hle
          omega
      · have hdot : dot.length = 1 := rfl
        split at hle
        · omega
        · omega
    · rintro (⟨h2, h3, -⟩ | ⟨rfl, rfl⟩)
      · exact absurd h1 (by tauto)
      · rfl
  · rw [if_neg h1]
    by_cases h2 : l = dotdot
    · rw [if_pos h2]
      constructor
      · intro he
        have hle := congrArg List.length he
        have hdd : l.length = 2 := congrArg List.length h2
        have hshort : (joined slash cs.dropLast).length ≤ (joined slash cs).length := by
          rcases List.eq_nil_or_concat' cs with rfl | ⟨ds, d, rfl⟩
          · exact Nat.le_refl _
          · rw [List.dropLast_concat, joined_append, List.length_append]
            exact Nat.le_add_right ..
        rw [hjoin, hlen] at hle
        split at hle
        · omega
        · omega
      · intro h
        tauto
    · rw [if_neg h2, absolute_eq, if_neg (by simp)]
      exact ⟨fun _ => .inl (by tauto), fun _ => rfl⟩

/-- On an absolute path `canonical` is lexical normalisation, and leaves its result alone,
    exactly when no component but the last leads above the root and the last is a name, or
    empty behind components that lead back to the root. -/
theorem canonical_is_lexical_iff (s : Text) :
    (canonical (slash :: s) = .ok (lexical s) ∧ canonical (lexical s) = .ok (lexical s)) ↔ Resolved s := by
  have hfree : ∀ c ∈ (parts slash s).dropLast, slash ∉ c := fun c hc => parts_free s c (List.dropLast_subset _ hc)
  rw [canonical_slash, lexical_eq]
  unfold Resolved
  cases hres : resolve [] (parts slash s).dropLast with
  | none =>
    constructor
    · rintro ⟨h, -⟩
      cases h
    · rintro ⟨cs, h, -⟩
      cases h
  | some cs =>
    have hcs : Normal cs := resolve_is_normal normal_nil hfree hres
    have hkept := last_kept_iff hcs (lastPart s)
    rw [foldl_keep hres]
    constructor
    · rintro ⟨h, -⟩
      exact ⟨cs, rfl, hkept.mp (Except.ok.inj h)⟩
    · rintro ⟨_, h, hlast⟩
      cases h
      refine ⟨congrArg Except.ok (hkept.mpr hlast), ?_⟩
      have hl : slash ∉ lastPart s := parts_free s _ (List.getLast_mem _)
      refine canonical_absolute ?_
      unfold keep
      rcases hlast with ⟨h1, h2, h3⟩ | ⟨h1, rfl⟩
      · rw [if_neg (by tauto), if_neg h3]
        exact normal_append hcs h1 h2 h3 hl
      · rw [if_pos (.inl h1)]
        exact normal_nil

/-! ## `parent_path` -/

theorem parentPath_slash (s : Text) (hs : s ≠ []) : parentPath (slash :: s) = .ok [] := by
  have hpos := List.length_pos_iff.mpr hs
  have hfind : strstr (slash :: s) [slash] = some 0 := by
    unfold strstr
    rw [if_neg (by simp), List.length_cons, List.length_singleton, Nat.add_sub_cancel]
    obtain ⟨n, hn⟩ := Nat.exists_eq_succ_of_ne_zero (Nat.ne_of_gt hpos)
    rw [hn, search, if_pos (by simp)]
  have hz : find (slash :: s) [slash] 0 = .ok (some 0) := (find_zero _ _).trans (congrArg Except.ok hfind)
  unfold parentPath
  rw [ok_bind hz]
  rfl

/-- `(d / n).parent_path()` is not `d`, for any absolute path `d`. -/
theorem parent_path_undoes_never (d n : Text) : parentPath (div (slash :: d) n) ≠ .ok (slash :: d) := by
  have hdiv : div (slash :: d) n = slash :: (d ++ slash :: n) := by simp [div]
  rw [hdiv, parentPath_slash _ (by simp)]
  exact nofun

/-- The texture beside the font `/f/a`. -/
theorem parent_of_the_font_is_empty : parentPath (div [slash, 0x66] [0x61]) = .ok [] ∧
    parentPath (div [slash, 0x66] [0x61]) ≠ .ok [slash, 0x66] := by
  decide +kernel

end Rodvin.Libc.Path
