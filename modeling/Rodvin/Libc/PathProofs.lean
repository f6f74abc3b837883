/-
  Rodvin.Libc.PathProofs — what `canonical` computes.

  A path that starts with a slash is `joined` of its components, the string `canonical`
  works on the same with a slash behind. There each loop takes one component out a turn
  (`cut_part`), and never the last, whose occurrence stands at the end. So the first two
  loops leave the components that are neither empty nor `.`, and the last (`squeeze_eq`),
  the third resolves the `..` among them or steps in front of the string
  (`dropParents_eq`). Together: `canonical_eq`.
-/

import Mathlib.Data.List.Induction
import Rodvin.Libc.Path

namespace Rodvin.Libc.Path

open Rodvin.Lib

/-! ## Finding -/

theorem search_some {needle : Text} : ∀ {n : Nat} {haystack : Text} {k : Nat}, search needle n haystack = some k →
    k < n ∧ needle <+: haystack.drop k ∧ ∀ j < k, ¬ needle <+: haystack.drop j := by
  intro n
  induction n with
  | zero => intro _ _ h; cases h
  | succ n ih =>
    intro haystack k h
    unfold search at h
    by_cases hp : needle <+: haystack
    · rw [if_pos hp] at h
      cases h
      exact ⟨Nat.succ_pos _, hp, fun j hj => absurd hj (Nat.not_lt_zero _)⟩
    · rw [if_neg hp, Option.map_eq_some_iff] at h
      obtain ⟨j, hj, rfl⟩ := h
      obtain ⟨h1, h2, h3⟩ := ih hj
      rw [← List.drop_one, List.drop_drop, Nat.add_comm] at h2
      refine ⟨by omega, h2, fun i hi => ?_⟩
      cases i with
      | zero => simpa using hp
      | succ i =>
        have := h3 i (by omega)
        rwa [← List.drop_one, List.drop_drop, Nat.add_comm] at this

theorem search_none {needle : Text} : ∀ {n : Nat} {haystack : Text}, search needle n haystack = none →
    ∀ j < n, ¬ needle <+: haystack.drop j := by
  intro n
  induction n with
  | zero => intro _ _ j hj; exact absurd hj (Nat.not_lt_zero _)
  | succ n ih =>
    intro haystack h j hj
    unfold search at h
    by_cases hp : needle <+: haystack
    · rw [if_pos hp] at h
      cases h
    · rw [if_neg hp, Option.map_eq_none_iff] at h
      cases j with
      | zero => simpa using hp
      | succ j =>
        have := ih h j (by omega)
        rwa [← List.drop_one, List.drop_drop, Nat.add_comm] at this

theorem find_zero (s c : Text) : find s c 0 = .ok (strstr s c) := by
  unfold find
  rw [if_pos (Nat.zero_le _)]
  show Except.ok _ = _
  simp

/-- What `find` sees of a component `q` among `init ++ [last]`: whether it is one of `init`. -/
theorem strstr_component {init : List Text} {last q : Text} (hi : ∀ c ∈ init ++ [last], slash ∉ c) (hq : slash ∉ q) :
    (strstr (joined slash (init ++ [last]) ++ [slash]) (slash :: (q ++ [slash])) = none ∧ q ∉ init) ∨
    ∃ pre post, strstr (joined slash (init ++ [last]) ++ [slash]) (slash :: (q ++ [slash])) = some (joined slash pre).length ∧
      init = pre ++ q :: post ∧ q ∉ pre := by
  set s := joined slash (init ++ [last]) ++ [slash] with hs
  -- an occurrence of a component of `init` lies below the limit
  have hlt : ∀ pre post, init = pre ++ q :: post →
      (joined slash pre).length < s.length - (slash :: (q ++ [slash])).length := by
    intro pre post he
    rw [hs, he]
    simp only [joined_append, joined_cons, joined_nil, List.length_append, List.length_cons, List.length_nil]
    omega
  have hat : ∀ pre post, init = pre ++ q :: post → slash :: (q ++ [slash]) <+: s.drop (joined slash pre).length := by
    intro pre post he
    have he' : init ++ [last] = pre ++ q :: (post ++ [last]) := by
      rw [he]
      simp
    rw [hs]
    exact occurs_of_part he'
  cases hf : strstr s (slash :: (q ++ [slash])) with
  | none =>
    refine .inl ⟨rfl, fun hmem => ?_⟩
    obtain ⟨pre, post, he⟩ := List.append_of_mem hmem
    have h1 := hlt pre post he
    unfold strstr at hf
    rw [if_neg (by omega)] at hf
    exact search_none hf _ h1 (hat pre post he)
  | some k =>
    unfold strstr at hf
    split at hf
    · cases hf
    · obtain ⟨h1, h2, h3⟩ := search_some hf
      obtain ⟨pre, post, he, hk⟩ := part_of_occurs hi hq h2
      -- not the last component: its occurrence ends at the end
      have hpost : post ≠ [] := by
        rintro rfl
        rw [hs, he] at h1
        simp only [joined_append, joined_cons, joined_nil, List.length_append, List.length_cons, List.length_nil] at h1
        omega
      obtain ⟨mid, z, hmid⟩ := (List.eq_nil_or_concat' post).resolve_left hpost
      have hinit : init = pre ++ q :: mid := by
        rw [hmid] at he
        have he : init ++ [last] = (pre ++ q :: mid) ++ [z] := by rw [he]; simp
        exact (List.append_inj' he rfl).1
      refine .inr ⟨pre, mid, by rw [hk], hinit, fun hmem => ?_⟩
      -- an earlier one would have been found first
      obtain ⟨p1, p2, hp⟩ := List.append_of_mem hmem
      have h4 := hat p1 (p2 ++ q :: mid) (by rw [hinit, hp]; simp)
      refine h3 _ ?_ h4
      rw [← hk, hp]
      simp

/-- Overwriting a component of `init`. -/
theorem replace_component (pre post : List Text) (last q : Text) :
    replace (joined slash (pre ++ q :: post ++ [last]) ++ [slash]) (joined slash pre).length (q.length + 2) [slash] =
      .ok (joined slash (pre ++ post ++ [last]) ++ [slash]) := by
  have hc := cut_part pre (post ++ [last]) q (show (joined slash pre).length = _ from rfl)
  rw [replace, if_pos]
  · rw [List.append_assoc pre, List.cons_append, hc, List.append_assoc]
    rfl
  · simp only [joined_append, joined_cons, joined_nil, List.length_append, List.length_cons, List.length_nil]
    omega

/-! ## The loops -/

/-- The first two loops: `q` goes from everywhere but the last place. -/
theorem squeeze_eq {last q : Text} (hq : slash ∉ q) :
    ∀ {fuel : Nat} {init : List Text}, (∀ c ∈ init ++ [last], slash ∉ c) →
    (joined slash (init ++ [last]) ++ [slash]).length < fuel →
    squeeze (slash :: (q ++ [slash])) fuel (joined slash (init ++ [last]) ++ [slash]) =
      .ok (joined slash (init.filter (· ≠ q) ++ [last]) ++ [slash]) := by
  intro fuel
  induction fuel with
  | zero => intro _ _ h; exact absurd h (Nat.not_lt_zero _)
  | succ fuel ih =>
    intro init hi hl
    rw [squeeze, find_zero]
    rcases strstr_component hi hq with ⟨hn, hmem⟩ | ⟨pre, post, hs, rfl, -⟩
    · have hf : init.filter (· ≠ q) = init := by
        refine List.filter_eq_self.mpr fun c hc => ?_
        simp only [decide_eq_true_eq]
        rintro rfl
        exact hmem hc
      rw [hn, hf]
      rfl
    · have hr := replace_component pre post last q
      have hpat : (slash :: (q ++ [slash])).length = q.length + 2 := by simp
      rw [hs]
      show (replace _ _ _ _ >>= fun s => squeeze _ fuel s) = _
      rw [hpat, ok_bind hr, ih]
      · simp
      · intro c hc
        refine hi c ?_
        simp only [List.mem_append, List.mem_cons] at hc ⊢
        tauto
      · simp only [joined_append, joined_cons, joined_nil, List.length_append, List.length_cons,
          List.length_nil] at hl ⊢
        omega

theorem resolve_append {cs ds : List Text} (h : Normal cs) : ∀ {base : List Text},
    resolve base (cs ++ ds) = resolve (base ++ cs) ds := by
  induction cs with
  | nil => intro base; simp
  | cons c cs ih =>
    intro base
    obtain ⟨h1, h2, h3, -⟩ := h c List.mem_cons_self
    rw [List.cons_append, resolve, if_neg (by tauto), if_neg h3, ih fun d hd => h d (List.mem_cons_of_mem _ hd),
      List.append_assoc]
    rfl

theorem resolve_normal {base cs : List Text} (h : Normal cs) : resolve base cs = some (base ++ cs) := by
  have := @resolve_append cs [] h base
  rwa [List.append_nil] at this

/-! ## Resolving -/

variable {cs ds ps : List Text} {l : Text}

theorem normal_append (h : Normal cs) (h1 : l ≠ []) (h2 : l ≠ dot) (h3 : l ≠ dotdot) (h4 : slash ∉ l) :
    Normal (cs ++ [l]) := by
  intro c hc
  rcases List.mem_append.mp hc with hc | hc
  · exact h c hc
  · rw [List.mem_singleton.mp hc]
    exact ⟨h1, h2, h3, h4⟩

theorem normal_nil : Normal [] := fun _ hc => absurd hc List.not_mem_nil

theorem resolve_concat (l : Text) : ∀ {base : List Text},
    resolve base (ps ++ [l]) = (resolve base ps).bind fun ds => resolve ds [l] := by
  induction ps with
  | nil => intro base; rfl
  | cons c ps ih =>
    intro base
    rw [List.cons_append, resolve, resolve]
    by_cases h1 : c = [] ∨ c = dot
    · rw [if_pos h1, if_pos h1, ih]
    · rw [if_neg h1, if_neg h1]
      by_cases h2 : c = dotdot
      · rw [if_pos h2, if_pos h2]
        by_cases h3 : base = []
        · rw [if_pos h3, if_pos h3]
          rfl
        · rw [if_neg h3, if_neg h3, ih]
      · rw [if_neg h2, if_neg h2, ih]

theorem resolve_is_normal : ∀ {base : List Text}, Normal base → (∀ c ∈ ps, slash ∉ c) → resolve base ps = some ds →
    Normal ds := by
  induction ps with
  | nil =>
    intro base hb _ h
    cases h
    exact hb
  | cons c ps ih =>
    intro base hb hp h
    have hps : ∀ d ∈ ps, slash ∉ d := fun d hd => hp d (List.mem_cons_of_mem _ hd)
    rw [resolve] at h
    split at h
    · exact ih hb hps h
    · rename_i h1
      split at h
      · split at h
        · cases h
        · exact ih (fun d hd => hb d (List.dropLast_subset _ hd)) hps h
      · rename_i h2
        exact ih (normal_append hb (by tauto) (by tauto) h2 (hp c List.mem_cons_self)) hps h

/-- What the first two loops take out leads nowhere. -/
theorem resolve_filter {cs : List Text} : ∀ {base : List Text},
    resolve base ((cs.filter (· ≠ dot)).filter (· ≠ [])) = resolve base cs := by
  induction cs with
  | nil => intro base; rfl
  | cons c cs ih =>
    intro base
    by_cases hd : c = dot
    · rw [List.filter_cons_of_neg (by simpa using hd), ih, resolve, if_pos (.inr hd)]
    · rw [List.filter_cons_of_pos (by simpa using hd)]
      by_cases he : c = []
      · rw [List.filter_cons_of_neg (by simpa using he), ih, resolve, if_pos (.inl he)]
      · have hor : ¬ (c = [] ∨ c = dot) := by tauto
        rw [List.filter_cons_of_pos (by simpa using he), resolve, resolve, if_neg hor, if_neg hor, ih, ih]

/-- `back` from the last character of a component goes to the slash in front of it. -/
theorem back_eq {s pre d post : Text} (hd : slash ∉ d) (hs : s = pre ++ slash :: (d ++ post)) (n : Nat) :
    back s (pre.length + d.length) n = .ok (pre.length, n + d.length) := by
  induction d using List.reverseRecOn generalizing n s post with
  | nil =>
    rw [List.length_nil, Nat.add_zero, Nat.add_zero]
    cases hp : pre.length with
    | zero => rfl
    | succ k =>
      have hlen : k + 1 ≤ s.length := by
        rw [hs, List.length_append]
        omega
      have hg : getByte s (k + 1) = .ok slash := by
        rw [getByte, if_pos hlen, ← hp, hs]
        simp [pure, Except.pure]
      rw [back, ok_bind hg]
      rfl
  | append_singleton d c ih =>
    rw [List.mem_append, not_or, List.mem_singleton] at hd
    have hlen : pre.length + d.length + 1 ≤ s.length := by
      rw [hs, List.length_append, List.length_cons, List.length_append, List.length_append]
      omega
    have hg : getByte s (pre.length + d.length + 1) = .ok c := by
      rw [getByte, if_pos hlen, hs]
      simp [Nat.add_assoc, pure, Except.pure]
    have hs' : s = pre ++ slash :: (d ++ (c :: post)) := by
      rw [hs]
      simp
    rw [List.length_append, List.length_singleton, ← Nat.add_assoc, back, ok_bind hg, if_pos (Ne.symm hd.2),
      ih hd.1 hs']
    congr 2
    omega

/-- The third loop resolves what is left, or leaves the string at its front. -/
theorem dropParents_eq {last : Text} : ∀ {fuel : Nat} {init : List Text}, (∀ c ∈ init ++ [last], slash ∉ c) →
    (∀ c ∈ init, c ≠ [] ∧ c ≠ dot) → (joined slash (init ++ [last]) ++ [slash]).length < fuel →
    dropParents fuel (joined slash (init ++ [last]) ++ [slash]) =
      match resolve [] init with
      | none => fault
      | some cs => .ok (joined slash (cs ++ [last]) ++ [slash]) := by
  intro fuel
  induction fuel with
  | zero => intro _ _ _ h; exact absurd h (Nat.not_lt_zero _)
  | succ fuel ih =>
    intro init hi hn hl
    have hpat : [slash, period, period, slash] = slash :: (dotdot ++ [slash]) := rfl
    rw [dropParents, find_zero, hpat]
    rcases strstr_component hi (q := dotdot) (by decide) with ⟨hf, hmem⟩ | ⟨pre, post, hf, rfl, hpre⟩
    · have hnorm : Normal init := fun c hc =>
        ⟨(hn c hc).1, (hn c hc).2, fun he => hmem (he ▸ hc), hi c (List.mem_append_left _ hc)⟩
      rw [hf, resolve_normal hnorm]
      rfl
    · have hnorm : Normal pre := fun c hc =>
        ⟨(hn c (List.mem_append_left _ hc)).1, (hn c (List.mem_append_left _ hc)).2, fun he => hpre (he ▸ hc),
          hi c (by simp [hc])⟩
      rw [hf, resolve_append hnorm, List.nil_append, resolve, if_neg (by decide), if_pos rfl]
      rcases List.eq_nil_or_concat' pre with rfl | ⟨pre, d, rfl⟩
      · rfl
      · have hd : slash ∉ d := hi d (by simp)
        have hk : (joined slash (pre ++ [d])).length = (joined slash pre).length + d.length + 1 := by simp; omega
        have hs : joined slash (pre ++ [d] ++ dotdot :: post ++ [last]) ++ [slash] =
            joined slash pre ++ slash :: (d ++ (joined slash (dotdot :: post ++ [last]) ++ [slash])) := by simp
        have hb : back (joined slash (pre ++ [d] ++ dotdot :: post ++ [last]) ++ [slash])
            ((joined slash pre).length + d.length) 5 = .ok ((joined slash pre).length, 5 + d.length) := back_eq hd hs 5
        have hdd : dotdot.length = 2 := rfl
        -- one overwriting takes out both components
        have hr : replace (joined slash (pre ++ [d] ++ dotdot :: post ++ [last]) ++ [slash]) (joined slash pre).length
            (5 + d.length) [slash] = .ok (joined slash (pre ++ post ++ [last]) ++ [slash]) := by
          have hc := replace_component pre post last (d ++ slash :: dotdot)
          have hsame : joined slash (pre ++ (d ++ slash :: dotdot) :: post ++ [last]) =
              joined slash (pre ++ [d] ++ dotdot :: post ++ [last]) := by simp
          rw [hsame, List.length_append, List.length_cons, hdd] at hc
          rw [← hc]
          congr 1
          omega
        rw [hk]
        show (back _ _ 5 >>= fun r => replace _ r.1 r.2 [slash] >>= fun s => dropParents fuel s) = _
        rw [ok_bind hb, ok_bind hr, ih]
        · rw [resolve_append (fun c hc => hnorm c (by simp [hc])), List.nil_append, if_neg (by simp)]
          simp
        · intro c hc
          refine hi c ?_
          simp only [List.mem_append, List.mem_cons] at hc ⊢
          tauto
        · intro c hc
          refine hn c ?_
          simp only [List.mem_append, List.mem_cons] at hc ⊢
          tauto
        · simp only [joined_append, joined_cons, joined_nil, List.length_append, List.length_cons,
            List.length_nil] at hl ⊢
          omega

/-- `canonical` resolves all components but the last, which it keeps as it is; it reads in
    front of the string when they lead above the root. -/
theorem canonical_eq {init : List Text} {last : Text} (hi : ∀ c ∈ init ++ [last], slash ∉ c) :
    canonical (joined slash (init ++ [last])) =
      match resolve [] init with
      | none => fault
      | some cs => .ok (joined slash (cs ++ [last])) := by
  have hmem : ∀ p : Text → Bool, ∀ c ∈ init.filter p ++ [last], slash ∉ c := by
    intro p c hc
    refine hi c ?_
    rw [List.mem_append, List.mem_filter] at hc
    rw [List.mem_append]
    tauto
  have hmem' : ∀ c ∈ (init.filter (· ≠ dot)).filter (· ≠ []) ++ [last], slash ∉ c := by
    intro c hc
    rw [List.filter_filter] at hc
    exact hmem _ c hc
  have hleft : ∀ c ∈ (init.filter (· ≠ dot)).filter (· ≠ []), c ≠ [] ∧ c ≠ dot := by
    intro c hc
    rw [List.mem_filter, List.mem_filter] at hc
    exact ⟨by simpa using hc.2, by simpa using hc.1.2⟩
  have h1 := squeeze_eq (show slash ∉ dot by decide) hi (Nat.lt_succ_self _)
  have h2 := squeeze_eq (show slash ∉ ([] : Text) by simp) (hmem (· ≠ dot)) (Nat.lt_succ_self _)
  have h3 := dropParents_eq hmem' hleft (Nat.lt_succ_self _)
  unfold canonical
  have h1' : squeeze [slash, period, slash] ((joined slash (init ++ [last]) ++ [slash]).length + 1) (joined slash (init ++ [last]) ++ [slash]) =
      .ok _ := h1
  rw [ok_bind h1']
  have h2' : squeeze [slash, slash] _ _ = .ok _ := h2
  rw [ok_bind h2']
  rw [resolve_filter] at h3
  cases hres : resolve [] init with
  | none =>
    rw [hres] at h3
    show (dropParents _ _ >>= _) = _
    rw [h3]
    rfl
  | some cs =>
    rw [hres] at h3
    rw [ok_bind h3, substr, if_pos (by omega), List.length_append, List.length_singleton, Nat.add_sub_cancel,
      List.drop_zero, List.take_left]
    rfl

end Rodvin.Libc.Path
