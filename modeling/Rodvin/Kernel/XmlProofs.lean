/-
  Rodvin.Kernel.XmlProofs — `XmlRead` accepts its grammar and builds its tree.

  Three facts about each of `attributes`, `XmlParse` and `children`:
  - it returns, given fuel for the tokens left (`XmlParse_returns`); this holds of every
    source whose tokens run out (`Measured`);
  - what it accepts has a derivation, and the node has its tree (`XmlParse_sound`);
  - on a list that starts with a derivation it accepts, reads exactly the derived part
    and builds the derivation's tree (`XmlParse_complete`).

  A reader that holds `token` with `ts` left stands before the list `token :: ts`; on a
  list source that is `cur l` with `l.tail` left, for the list `l` of tokens not yet used.
-/

import Rodvin.Kernel.Xml
import Mathlib.Tactic

namespace Rodvin.Kernel.Xml

open Rodvin.Libc

/-! ## `strcmp` -/

theorem toInt8_inj {a b : UInt8} (h : a.toInt8.toInt = b.toInt8.toInt) : a = b := by
  have h1 : a.toInt8 = b.toInt8 := Int8.toInt_inj.mp h
  simpa using congrArg Int8.toUInt8 h1

theorem strcmp_eq_zero_iff : ∀ {a b : Text}, 0 ∉ a → 0 ∉ b → (strcmp a b = 0 ↔ a = b) := by
  intro a
  induction a with
  | nil =>
    intro b _ hb
    cases b with
    | nil => simp [strcmp]
    | cons y ys =>
      have hy : y ≠ 0 := fun e => hb (e ▸ List.mem_cons_self)
      have hne : y.toInt8.toInt ≠ 0 := fun e => hy (toInt8_inj e)
      simp [strcmp, hne]
  | cons x xs ih =>
    intro b ha hb
    have hx : x ≠ 0 := fun e => ha (e ▸ List.mem_cons_self)
    cases b with
    | nil =>
      have hne : x.toInt8.toInt ≠ 0 := fun e => hx (toInt8_inj e)
      simp [strcmp, hne]
    | cons y ys =>
      unfold strcmp
      by_cases h : x = y
      · rw [if_pos ⟨hx, h⟩, ih (fun h => ha (List.mem_cons_of_mem _ h)) (fun h => hb (List.mem_cons_of_mem _ h)), h]
        simp
      · rw [if_neg (fun e => h e.2)]
        have hne : x.toInt8.toInt - y.toInt8.toInt ≠ 0 := fun e => h (toInt8_inj (Int.sub_eq_zero.mp e))
        simp [hne, h]

/-! ## The reader returns -/

section Returns

variable {σ : Type} {XmlTok : σ → XmlToken × σ} {μ : σ → Nat}

/-- A source whose tokens run out: every token but `EndOfFile` takes something off `μ`. -/
structure Measured (XmlTok : σ → XmlToken × σ) (μ : σ → Nat) : Prop where
  le : ∀ s, μ (XmlTok s).2 ≤ μ s
  lt : ∀ s, (XmlTok s).1.type ≠ .EndOfFile → μ (XmlTok s).2 < μ s

theorem Measured.next_le (hm : Measured XmlTok μ) (s : Env σ) : μ (next XmlTok s).2.src ≤ μ s.src := hm.le s.src

theorem Measured.next_lt (hm : Measured XmlTok μ) {s : Env σ} {ty : TokenType} (h : (next XmlTok s).1.type = ty)
    (hty : ty ≠ .EndOfFile) : μ (next XmlTok s).2.src < μ s.src := hm.lt s.src (fun e => hty (h.symm.trans e))

theorem attributes_returns (hm : Measured XmlTok μ) :
    ∀ (fuel : Nat) (token : XmlToken) (attrs : List (Text × Text)) (s : Env σ), 1 ≤ fuel →
      (token.type = .String → μ s.src + 2 ≤ fuel) →
      ∃ r s', attributes XmlTok fuel token attrs s = some (r, s') ∧ μ s'.src ≤ μ s.src := by
  intro fuel
  induction fuel with
  | zero => intro _ _ _ h; cases h
  | succ fuel ih =>
    intro token attrs s _ hf
    unfold attributes
    by_cases hstr : token.type = .String
    · have hf := hf hstr
      have hle := hm.next_le s
      simp only [hstr, if_true]
      by_cases heq : (next XmlTok s).1.type = .Equals
      · have hlt := hm.next_lt heq (by decide)
        simp only [heq, if_true]
        by_cases hval : (next XmlTok (next XmlTok s).2).1.type = .String
        · have hlt2 := hm.next_lt hval (by decide)
          have hle3 := hm.next_le (next XmlTok (next XmlTok s).2).2
          simp only [hval, ne_eq, not_true_eq_false, if_false]
          obtain ⟨r, s', h1, h2⟩ := ih (next XmlTok (next XmlTok (next XmlTok s).2).2).1
            (Vectormap.insert attrs (token.text, (next XmlTok (next XmlTok s).2).1.text))
            (next XmlTok (next XmlTok (next XmlTok s).2).2).2 (by omega) (fun _ => by omega)
          exact ⟨r, s', h1, by omega⟩
        · have hle2 := hm.next_le (next XmlTok s).2
          simp only [hval, ne_eq, not_false_eq_true, if_true]
          exact ⟨none, _, rfl, by omega⟩
      · simp only [heq, if_false]
        have hf' : (next XmlTok s).1.type = .String → μ (next XmlTok s).2.src + 2 ≤ fuel := by
          intro h
          have hlt := hm.next_lt h (by decide)
          omega
        obtain ⟨r, s', h1, h2⟩ := ih (next XmlTok s).1 (Vectormap.insert attrs (token.text, trueText))
          (next XmlTok s).2 (by omega) hf'
        exact ⟨r, s', h1, by omega⟩
    · simp only [hstr, if_false]
      exact ⟨_, s, rfl, Nat.le_refl _⟩

theorem closeAndOpen_src (hm : Measured XmlTok μ) (node : XmlNode) (s : Env σ) :
    μ (closeAndOpen XmlTok node s).2.src ≤ μ s.src ∧
      ((closeAndOpen XmlTok node s).1 ≠ none → μ (closeAndOpen XmlTok node s).2.src < μ s.src) := by
  have h1 := hm.next_le s
  have h2 := hm.next_le (next XmlTok s).2
  unfold closeAndOpen
  by_cases hc : (next XmlTok s).1.type = .Close
  · have hlt := hm.next_lt hc (by decide)
    by_cases ho : (next XmlTok (next XmlTok s).2).1.type = .Open
    · simp only [hc, ho, ne_eq, not_true_eq_false, if_false]
      exact ⟨by omega, fun _ => by omega⟩
    · simp only [hc, ho, ne_eq, not_true_eq_false, not_false_eq_true, if_false, if_true, Env.delete, false_imp_iff,
        and_true]
      omega
  · simp only [hc, ne_eq, not_false_eq_true, if_true, Env.delete, not_true_eq_false, false_imp_iff, and_true]
    omega

/-- What is said of `XmlParse` and of `children` with a given fuel. -/
def ParseReturns (XmlTok : σ → XmlToken × σ) (μ : σ → Nat) (fuel : Nat) : Prop :=
  ∀ (tok : XmlToken) (s : Env σ), 2 * μ s.src + 3 ≤ fuel →
    ∃ r s', XmlParse XmlTok fuel tok s = some (r, s') ∧ μ s'.src ≤ μ s.src ∧ (r ≠ none → μ s'.src < μ s.src)

def ChildrenReturn (XmlTok : σ → XmlToken × σ) (μ : σ → Nat) (fuel : Nat) : Prop :=
  ∀ (token : XmlToken) (kids : List XmlNode) (s : Env σ), 2 * μ s.src + 4 ≤ fuel →
    ∃ r kids' s', children XmlTok fuel token kids s = some (r, kids', s') ∧ μ s'.src ≤ μ s.src

theorem children_returns_succ (hm : Measured XmlTok μ) {fuel : Nat} (hp : ParseReturns XmlTok μ fuel)
    (hc : ChildrenReturn XmlTok μ fuel) : ChildrenReturn XmlTok μ (fuel + 1) := by
  intro token kids s hf
  rw [children]
  by_cases hslash : token.type = .Slash
  · simp only [hslash, ne_eq, not_true_eq_false, if_false]
    exact ⟨_, kids, s, rfl, Nat.le_refl _⟩
  · obtain ⟨r, s1, h1, h2, h3⟩ := hp token s (by omega)
    simp only [hslash, ne_eq, not_false_eq_true, if_true, h1]
    cases r with
    | none => exact ⟨none, kids, s1, rfl, h2⟩
    | some cnode =>
      have h3 := h3 (by simp)
      have h4 := hm.next_le s1
      obtain ⟨r, kids', s2, h5, h6⟩ := hc (next XmlTok s1).1 (kids ++ [cnode]) (next XmlTok s1).2 (by omega)
      exact ⟨r, kids', s2, h5, by omega⟩

theorem parse_returns_succ (hm : Measured XmlTok μ) {fuel : Nat} (hc : ChildrenReturn XmlTok μ fuel) :
    ParseReturns XmlTok μ (fuel + 1) := by
  intro tok s hf
  have hnone : ∀ s' : Env σ, μ s'.src ≤ μ s.src →
      ∃ r s'', (some (none, s') : Option (Option XmlNode × Env σ)) = some (r, s'') ∧
      μ s''.src ≤ μ s.src ∧ (r ≠ none → μ s''.src < μ s.src) := fun s' h => ⟨none, s', rfl, h, fun h => absurd rfl h⟩
  have hend : ∀ (node : XmlNode) (s' : Env σ), μ s'.src ≤ μ s.src →
      ∃ r s'', some (closeAndOpen XmlTok node s') = some (r, s'') ∧
      μ s''.src ≤ μ s.src ∧ (r ≠ none → μ s''.src < μ s.src) := by
    intro node s' h
    obtain ⟨h1, h2⟩ := closeAndOpen_src hm node s'
    exact ⟨(closeAndOpen XmlTok node s').1, (closeAndOpen XmlTok node s').2, rfl, Nat.le_trans h1 h,
      fun h3 => Nat.lt_of_lt_of_le (h2 h3) h⟩
  rw [XmlParse]
  by_cases hstr : tok.type = .String
  · have h0 : μ (next XmlTok s.construct.2).2.src ≤ μ s.src := hm.next_le s.construct.2
    obtain ⟨r, s1, h1, h2⟩ := attributes_returns hm fuel (next XmlTok s.construct.2).1 [] (next XmlTok s.construct.2).2
      (by omega) (fun _ => by omega)
    simp only [hstr, ne_eq, not_true_eq_false, if_false, h1]
    match r with
    | none => exact hnone s1 (by omega)
    | some (token, attrs) =>
      simp only
      by_cases hslash : token.type = .Slash
      · rw [if_pos hslash]
        exact hend _ s1 (by omega)
      · rw [if_neg hslash]
        by_cases hclose : token.type = .Close
        · rw [if_pos hclose]
          have h3 := hm.next_le s1
          by_cases hopen : (next XmlTok s1).1.type = .Open
          · have h4 := hm.next_lt hopen (by decide)
            have h5 := hm.next_le (next XmlTok s1).2
            obtain ⟨r, kids, s2, h6, h7⟩ :=
              hc (next XmlTok (next XmlTok s1).2).1 [] (next XmlTok (next XmlTok s1).2).2 (by omega)
            simp only [hopen, not_true_eq_false, if_false, h6]
            match r with
            | none => exact hnone s2 (by omega)
            | some () =>
              have h8 := hm.next_le s2
              simp only
              split
              · exact hnone _ (by simp only [Env.delete]; omega)
              · split
                · exact hnone _ (by simp only [Env.delete]; omega)
                · exact hend _ _ (by omega)
          · simp only [hopen, not_false_eq_true, if_true]
            exact hnone _ (by simp only [Env.delete]; omega)
        · rw [if_neg hclose]
          exact hnone _ (by simp only [Env.delete]; omega)
  · simp only [hstr, ne_eq, not_false_eq_true, if_true]
    exact hnone s (Nat.le_refl _)

theorem reader_returns (hm : Measured XmlTok μ) :
    ∀ fuel, ParseReturns XmlTok μ fuel ∧ ChildrenReturn XmlTok μ fuel := by
  intro fuel
  induction fuel with
  | zero => exact ⟨fun _ s h => by omega, fun _ _ s h => by omega⟩
  | succ fuel ih => exact ⟨parse_returns_succ hm ih.2, children_returns_succ hm ih.1 ih.2⟩

/-- The computation is not cut off. -/
def Returned (x : Option (Option XmlNode × Env σ)) : Prop := ∃ r s', x = some (r, s')

theorem returned_some (r : Option XmlNode) (s : Env σ) : Returned (some (r, s)) := ⟨r, s, rfl⟩

theorem returned_ite {c : Prop} [Decidable c] {x y : Option (Option XmlNode × Env σ)} (hx : Returned x)
    (hy : Returned y) :
    Returned (if c then x else y) := by
  by_cases hc : c
  · rwa [if_pos hc]
  · rwa [if_neg hc]

/-- On a source whose tokens run out, `XmlRead` returns. -/
theorem XmlRead_returns (hm : Measured XmlTok μ) (s : Env σ) {fuel : Nat} (hf : 2 * μ s.src + 4 ≤ fuel) :
    ∃ r s', XmlRead XmlTok fuel s = some (r, s') := by
  have h0 : μ (next XmlTok s.construct.2).2.src ≤ μ s.src := hm.next_le s.construct.2
  have h1 := hm.next_le (next XmlTok s.construct.2).2
  have h2 := hm.next_le (next XmlTok (next XmlTok s.construct.2).2).2
  obtain ⟨r, s1, h3, h4⟩ := attributes_returns hm fuel (next XmlTok (next XmlTok (next XmlTok s.construct.2).2).2).1 []
    (next XmlTok (next XmlTok (next XmlTok s.construct.2).2).2).2 (by omega) (fun _ => by omega)
  have h5 := hm.next_le s1
  have h6 := hm.next_le (next XmlTok s1).2
  obtain ⟨done, kids, s2, h7, -⟩ := (reader_returns hm fuel).2 (next XmlTok (next XmlTok s1).2).1 []
    (next XmlTok (next XmlTok s1).2).2 (by omega)
  show Returned (XmlRead XmlTok fuel s)
  unfold XmlRead
  extract_lets node token1 token2 token3
  refine returned_ite (returned_some _ _) (returned_ite (returned_some _ _) ?_)
  rw [show attributes XmlTok fuel token3.1 [] token3.2 = some (r, s1) from h3]
  match r with
  | none => exact returned_some _ _
  | some (token, attrs) =>
    refine returned_ite (returned_some _ _) ?_
    extract_lets token4 token5
    refine returned_ite (returned_some _ _) ?_
    rw [show children XmlTok fuel token5.1 [] token5.2 = some (done, kids, s2) from h7]
    match done with
    | none => exact returned_some _ _
    | some () =>
      refine returned_ite (returned_some _ _) (returned_ite (returned_some _ _) ?_)
      exact returned_ite (returned_some _ _) (returned_ite (returned_some _ _) (returned_some _ _))

end Returns

/-! ## On a list -/

/-- The token that a reader before the list `l` holds. -/
def cur (l : List XmlToken) : XmlToken := (tokens l).1

@[simp] theorem cur_cons (t : XmlToken) (ts : List XmlToken) : cur (t :: ts) = t := rfl

theorem tokens_measured : Measured tokens List.length := by
  refine ⟨fun l => ?_, fun l h => ?_⟩
  · cases l <;> simp [tokens]
  · cases l with
    | nil => exact absurd rfl h
    | cons t ts => simp [tokens]

theorem next_tokens (s : Env (List XmlToken)) : next tokens s = (cur s.src, { s with src := s.src.tail }) := by
  obtain ⟨src, n, d⟩ := s
  cases src <;> rfl

@[simp] theorem next_tokens_fst (s : Env (List XmlToken)) : (next tokens s).1 = cur s.src := by rw [next_tokens]

@[simp] theorem next_tokens_src (s : Env (List XmlToken)) : (next tokens s).2.src = s.src.tail := by rw [next_tokens]

/-- A list that does not stand at its end. -/
theorem cons_of_cur {l : List XmlToken} {ty : TokenType} (h : (cur l).type = ty) (hty : ty ≠ .EndOfFile) :
    ∃ t ts, l = t :: ts ∧ t.type = ty := by
  cases l with
  | nil => exact absurd h.symm hty
  | cons t ts => exact ⟨t, ts, rfl, h⟩

variable {fuel : Nat} {attrs attrs' : List (Text × Text)} {s s' : Env (List XmlToken)} {l : List XmlToken}

/-! ### What is accepted has a derivation -/

theorem attributes_sound {token : XmlToken} : ∀ {fuel : Nat} {attrs : List (Text × Text)} {s : Env (List XmlToken)}
    {l : List XmlToken}, s.src = l.tail → attributes tokens fuel (cur l) attrs s = some (some (token, attrs'), s') →
    ∃ ts l' kvs, l = ts ++ l' ∧ Attrs ts kvs ∧ attrs' = kvs.foldl Vectormap.insert attrs ∧ token = cur l' ∧
      s'.src = l'.tail := by
  intro fuel
  induction fuel with
  | zero => intro _ _ _ _ h; cases h
  | succ fuel ih =>
    intro attrs s l hs h
    unfold attributes at h
    by_cases hstr : (cur l).type = .String
    · obtain ⟨k, l1, rfl, hk⟩ := cons_of_cur hstr (by decide)
      simp only [cur_cons, hk, if_true, next_tokens_fst, hs, List.tail_cons] at h
      by_cases heq : (cur l1).type = .Equals
      · obtain ⟨e, l2, rfl, he⟩ := cons_of_cur heq (by decide)
        simp only [cur_cons, he, if_true, next_tokens_src, hs, List.tail_cons] at h
        by_cases hval : (cur l2).type = .String
        · obtain ⟨v, l3, rfl, hv⟩ := cons_of_cur hval (by decide)
          simp only [cur_cons, hv, ne_eq, not_true_eq_false, if_false, List.tail_cons] at h
          obtain ⟨ts, l', kvs, rfl, h1, h2, h3, h4⟩ := ih (by simp [hs]) h
          exact ⟨k :: e :: v :: ts, l', (k.text, v.text) :: kvs, rfl, .pair hk he hv h1, h2, h3, h4⟩
        · simp only [hval, ne_eq, not_false_eq_true, if_true, Option.some.injEq, Prod.mk.injEq, reduceCtorEq,
            false_and] at h
      · simp only [heq, if_false] at h
        obtain ⟨ts, l', kvs, rfl, h1, h2, h3, h4⟩ := ih (by simp [hs]) h
        exact ⟨k :: ts, l', (k.text, trueText) :: kvs, rfl, .flag hk h1, h2, h3, h4⟩
    · simp only [hstr, if_false, Option.some.injEq, Prod.mk.injEq] at h
      obtain ⟨⟨rfl, rfl⟩, rfl⟩ := h
      exact ⟨[], l, [], rfl, .empty, rfl, rfl, hs⟩

theorem closeAndOpen_sound {node node' : XmlNode} (h : closeAndOpen tokens node s = (some node', s')) :
    node' = node ∧ ∃ tl, Are tl [.Close, .Open] ∧ s.src = tl ++ s'.src := by
  unfold closeAndOpen at h
  by_cases hc : (cur s.src).type = .Close
  · obtain ⟨c, l1, hl1, hc'⟩ := cons_of_cur hc (by decide)
    simp only [next_tokens_fst, next_tokens_src, hl1, cur_cons, hc', ne_eq, not_true_eq_false, if_false,
      List.tail_cons] at h
    by_cases ho : (cur l1).type = .Open
    · obtain ⟨o, l2, rfl, ho'⟩ := cons_of_cur ho (by decide)
      simp only [cur_cons, ho', not_true_eq_false, if_false, Prod.mk.injEq, Option.some.injEq] at h
      obtain ⟨rfl, rfl⟩ := h
      exact ⟨rfl, [c, o], .cons hc' (.cons ho' .nil), by simp [hl1]⟩
    · simp [ho] at h
  · simp [hc] at h

theorem treesOf_append (ns ms : List XmlNode) : treesOf (ns ++ ms) = treesOf ns ++ treesOf ms := by
  induction ns with
  | nil => rfl
  | cons n ns ih => simp only [List.cons_append, treesOf, ih]

/-- A list of tokens without zero bytes in their texts. -/
def NulFree (l : List XmlToken) : Prop := ∀ t ∈ l, 0 ∉ t.text

theorem NulFree.right {ts us : List XmlToken} (h : NulFree (ts ++ us)) : NulFree us :=
  fun t ht => h t (List.mem_append_right _ ht)

def ParseSound (fuel : Nat) : Prop :=
  ∀ {l : List XmlToken} {s s' : Env (List XmlToken)} {node : XmlNode}, NulFree l → s.src = l.tail →
    XmlParse tokens fuel (cur l) s = some (some node, s') → ∃ ts, l = ts ++ s'.src ∧ Node ts node.tree

def ChildrenSound (fuel : Nat) : Prop :=
  ∀ {l : List XmlToken} {s s' : Env (List XmlToken)} {kids kids' : List XmlNode}, NulFree l → s.src = l.tail →
    children tokens fuel (cur l) kids s = some (some (), kids', s') →
    ∃ ks slash trees, l = ks ++ slash :: s'.src ∧ Kids ks trees ∧ slash.type = .Slash ∧
      treesOf kids' = treesOf kids ++ trees

theorem children_sound_succ (hp : ParseSound fuel) (hc : ChildrenSound fuel) : ChildrenSound (fuel + 1) := by
  intro l s s' kids kids' hn hs h
  rw [children] at h
  by_cases hslash : (cur l).type = .Slash
  · obtain ⟨slash, l1, rfl, hsl⟩ := cons_of_cur hslash (by decide)
    simp only [cur_cons, hsl, ne_eq, not_true_eq_false, if_false, Option.some.injEq, Prod.mk.injEq, true_and] at h
    obtain ⟨rfl, rfl⟩ := h
    exact ⟨[], slash, [], by simp [hs], .empty, hsl, by simp⟩
  · rw [if_pos hslash] at h
    match hr : XmlParse tokens fuel (cur l) s with
    | none => simp only [hr, reduceCtorEq] at h
    | some (none, s1) => simp only [hr, Option.some.injEq, Prod.mk.injEq, reduceCtorEq, false_and] at h
    | some (some cnode, s1) =>
      obtain ⟨ts, hl, hnode⟩ := hp hn hs hr
      simp only [hr, next_tokens_fst] at h
      obtain ⟨ks, slash, trees, hks, h1, h2, h3⟩ :=
        hc (l := s1.src) (fun t ht => hn t (by rw [hl]; simp [ht])) (by simp) h
      refine ⟨ts ++ ks, slash, cnode.tree :: trees, by rw [hl, hks, List.append_assoc], .cons hnode h1, h2, ?_⟩
      rw [h3, treesOf_append, List.append_assoc]
      rfl

/-- The name and the attributes of a node, as both readers read them. -/
theorem head_sound {token : XmlToken} {n : XmlToken} {l : List XmlToken} (hn : n.type = .String) (hs : s.src = l.tail)
    (h : attributes tokens fuel (cur l) [] s = some (some (token, attrs), s')) :
    ∃ hd l', n :: l = hd ++ l' ∧ Head hd n.text attrs ∧ token = cur l' ∧ s'.src = l'.tail := by
  obtain ⟨ts, l', kvs, hl, h1, h2, h3, h4⟩ := attributes_sound hs h
  have h2 : attrs = Vectormap.ordered kvs := h2.trans (Vectormap.insertAll_eq kvs)
  exact ⟨n :: ts, l', by rw [hl]; rfl, h2 ▸ .intro hn h1, h3, h4⟩

theorem parse_sound_succ (hc : ChildrenSound fuel) : ParseSound (fuel + 1) := by
  intro l s s' node hn hs h
  rw [XmlParse] at h
  by_cases hstr : (cur l).type = .String
  · obtain ⟨n, l1, rfl, hnt⟩ := cons_of_cur hstr (by decide)
    have hsrc : s.construct.2.src = l1 := hs
    simp only [cur_cons, hnt, ne_eq, not_true_eq_false, if_false, next_tokens_fst, hsrc] at h
    match hr : attributes tokens fuel (cur l1) [] (next tokens s.construct.2).2 with
    | none => simp only [hr, reduceCtorEq] at h
    | some (none, s1) => simp only [hr, Option.some.injEq, Prod.mk.injEq, reduceCtorEq, false_and] at h
    | some (some (token, attrs), s1) =>
      obtain ⟨hd, l2, hl2, hhead, rfl, hs1⟩ := head_sound hnt (by simp [hsrc]) hr
      rw [hl2] at hn ⊢
      simp only [hr] at h
      by_cases hslash : (cur l2).type = .Slash
      · obtain ⟨slash, l3, rfl, hsl⟩ := cons_of_cur hslash (by decide)
        simp only [cur_cons, hsl, if_true, Option.some.injEq] at h
        obtain ⟨rfl, tl, htl, hsrc⟩ := closeAndOpen_sound h
        rw [hs1, List.tail_cons] at hsrc
        exact ⟨hd ++ slash :: tl, by simp [hsrc], .short hhead (.cons hsl htl)⟩
      · rw [if_neg hslash] at h
        by_cases hclose : (cur l2).type = .Close
        · obtain ⟨close, l3, rfl, hcl⟩ := cons_of_cur hclose (by decide)
          simp only [cur_cons, hcl, if_true, hs1, List.tail_cons] at h
          by_cases hopen : (cur l3).type = .Open
          · obtain ⟨op, l4, rfl, hop⟩ := cons_of_cur hopen (by decide)
            simp only [cur_cons, hop, not_true_eq_false, if_false, next_tokens_src, hs1, List.tail_cons] at h
            match hk : children tokens fuel (cur l4) [] (next tokens (next tokens s1).2).2 with
            | none => simp only [hk, reduceCtorEq] at h
            | some (none, _, s2) => simp only [hk, Option.some.injEq, Prod.mk.injEq, reduceCtorEq, false_and] at h
            | some (some (), kids, s2) =>
              obtain ⟨ks, slash, trees, rfl, hkids, hsl, htrees⟩ := hc (l := l4)
                (fun t ht => hn t (by simp [ht])) (by simp [hs1]) hk
              simp only [hk] at h
              by_cases hm : (cur s2.src).type = .String
              · obtain ⟨m, l5, hl5, hmt⟩ := cons_of_cur hm (by decide)
                simp only [hl5, cur_cons, hmt, not_true_eq_false, if_false] at h
                have hcmp := strcmp_eq_zero_iff (hn m (by simp [hl5])) (hn n (by rw [← hl2]; simp))
                by_cases hname : m.text = n.text
                · rw [if_neg (not_not.mpr (hcmp.mpr hname)), Option.some.injEq] at h
                  obtain ⟨rfl, tl, htl, hsrc⟩ := closeAndOpen_sound h
                  rw [next_tokens_src, hl5, List.tail_cons] at hsrc
                  refine ⟨hd ++ ([close, op] ++ (ks ++ slash :: m :: tl)), by simp [hl5, hsrc], ?_⟩
                  rw [XmlNode.tree, htrees]
                  exact .long hhead (.cons hcl (.cons hop .nil)) hkids hsl hmt hname htl
                · rw [if_pos (fun e => hname (hcmp.mp e))] at h
                  simp at h
              · simp [hm] at h
          · simp [hopen] at h
        · simp [hclose] at h
  · simp [hstr] at h

/-! ### What has a derivation is accepted -/

theorem Attrs.cur_ne_equals {ts l' : List XmlToken} {kvs : List (Text × Text)} (h : Attrs ts kvs)
    (hl : (cur l').type ≠ .Equals) : (cur (ts ++ l')).type ≠ .Equals := by
  cases h with
  | empty => exact hl
  | flag hk _ => simp [hk]
  | pair hk _ _ _ => simp [hk]

theorem attributes_complete {l' : List XmlToken} {r : Option (XmlToken × List (Text × Text))}
    (hstr : (cur l').type ≠ .String)
    (heq : (cur l').type ≠ .Equals) :
    ∀ {fuel : Nat} {ts : List XmlToken} {kvs attrs : List (Text × Text)} {s : Env (List XmlToken)}, Attrs ts kvs →
      s.src = (ts ++ l').tail → attributes tokens fuel (cur (ts ++ l')) attrs s = some (r, s') →
      r = some (cur l', kvs.foldl Vectormap.insert attrs) ∧ s'.src = l'.tail := by
  intro fuel
  induction fuel with
  | zero => intro _ _ _ _ _ _ h; cases h
  | succ fuel ih =>
    intro ts kvs attrs s ha hs h
    unfold attributes at h
    cases ha with
    | empty =>
      simp only [List.nil_append, hstr, if_false, Option.some.injEq, Prod.mk.injEq] at h
      obtain ⟨rfl, rfl⟩ := h
      exact ⟨rfl, hs⟩
    | @flag k ts kvs hk ha =>
      have hne := ha.cur_ne_equals heq
      simp only [List.cons_append, cur_cons, hk, if_true, next_tokens_fst, hs, List.tail_cons, hne, if_false] at h
      have hrest := ih (s := (next tokens s).2) ha (by simp [hs]) h
      exact hrest
    | @pair k e v ts kvs hk he hv ha =>
      simp only [List.cons_append, cur_cons, hk, if_true, next_tokens_fst, next_tokens_src, hs, List.tail_cons, he, hv,
        ne_eq, not_true_eq_false, if_false] at h
      have hrest := ih (s := (next tokens (next tokens (next tokens s).2).2).2) ha (by simp [hs]) h
      exact hrest

theorem Are.cons_inv {tl : List XmlToken} {ty : TokenType} {tys : List TokenType} (h : Are tl (ty :: tys)) :
    ∃ t ts, tl = t :: ts ∧ t.type = ty ∧ Are ts tys := by
  cases h with
  | cons ht hts => exact ⟨_, _, rfl, ht, hts⟩

theorem Are.nil_inv {tl : List XmlToken} (h : Are tl []) : tl = [] := by
  cases h
  rfl

theorem head_complete {hd l' : List XmlToken} {n : Text} {as : List (Text × Text)}
    {r : Option (XmlToken × List (Text × Text))} (hh : Head hd n as) (hstr : (cur l').type ≠ .String)
    (heq : (cur l').type ≠ .Equals) (hs : s.src = (hd ++ l').tail.tail)
    (h : attributes tokens fuel (cur (hd ++ l').tail) [] s = some (r, s')) :
    r = some (cur l', as) ∧ s'.src = l'.tail := by
  cases hh with
  | @intro t ts kvs ht ha =>
    obtain ⟨h1, h2⟩ := attributes_complete hstr heq ha hs h
    exact ⟨h1.trans (congrArg (fun m => some (cur l', m)) (Vectormap.insertAll_eq kvs)), h2⟩

theorem closeAndOpen_complete {tl : List XmlToken} (node : XmlNode) (l' : List XmlToken)
    (h : Are tl [.Close, .Open]) (hs : s.src = tl ++ l') :
    (closeAndOpen tokens node s).1 = some node ∧ (closeAndOpen tokens node s).2.src = l' := by
  obtain ⟨c, _, rfl, hc, h⟩ := h.cons_inv
  obtain ⟨o, _, rfl, ho, h⟩ := h.cons_inv
  obtain rfl := h.nil_inv
  simp [closeAndOpen, hs, hc, ho]

def ParseComplete (fuel : Nat) : Prop :=
  ∀ {ts l' : List XmlToken} {tree : Tree} {s s' : Env (List XmlToken)} {r : Option XmlNode}, NulFree ts → Node ts tree →
    s.src = (ts ++ l').tail → XmlParse tokens fuel (cur (ts ++ l')) s = some (r, s') →
    ∃ node, r = some node ∧ node.tree = tree ∧ s'.src = l'

def ChildrenComplete (fuel : Nat) : Prop :=
  ∀ {ks l' : List XmlToken} {slash : XmlToken} {trees : List Tree} {s s' : Env (List XmlToken)} {r : Option Unit}
    {kids kids' : List XmlNode}, NulFree ks → Kids ks trees → slash.type = .Slash → s.src = (ks ++ slash :: l').tail →
    children tokens fuel (cur (ks ++ slash :: l')) kids s = some (r, kids', s') →
    r = some () ∧ treesOf kids' = treesOf kids ++ trees ∧ s'.src = l'

theorem Head.cur_eq {hd : List XmlToken} {n : Text} {as : List (Text × Text)} (h : Head hd n as) (l' : List XmlToken) :
    (cur (hd ++ l')).type = .String ∧ (cur (hd ++ l')).text = n := by
  cases h with
  | intro ht _ => exact ⟨ht, rfl⟩

theorem Node.cur_string {ts l' : List XmlToken} {tree : Tree} (h : Node ts tree) : (cur (ts ++ l')).type = .String := by
  cases h with
  | short hh _ => rw [List.append_assoc]; exact (hh.cur_eq _).1
  | long hh _ _ _ _ _ _ => rw [List.append_assoc]; exact (hh.cur_eq _).1

theorem NulFree.left {ts us : List XmlToken} (h : NulFree (ts ++ us)) : NulFree ts :=
  fun t ht => h t (List.mem_append_left _ ht)

theorem children_complete_succ (hp : ParseComplete fuel) (hc : ChildrenComplete fuel) :
    ChildrenComplete (fuel + 1) := by
  intro ks l' slash trees s s' r kids kids' hn hk hsl hs h
  rw [children] at h
  cases hk with
  | empty =>
    simp only [List.nil_append, cur_cons, hsl, ne_eq, not_true_eq_false, if_false, Option.some.injEq,
      Prod.mk.injEq] at h
    obtain ⟨rfl, rfl, rfl⟩ := h
    exact ⟨rfl, by simp, by simpa using hs⟩
  | @cons ts us tree trees hnode hkids =>
    rw [List.append_assoc] at h hs
    have hne : (cur (ts ++ (us ++ slash :: l'))).type ≠ .Slash := by rw [hnode.cur_string]; decide
    rw [if_pos hne] at h
    match hr : XmlParse tokens fuel (cur (ts ++ (us ++ slash :: l'))) s with
    | none => simp only [hr, reduceCtorEq] at h
    | some (r1, s1) =>
      obtain ⟨node, rfl, htree, hs1⟩ := hp hn.left hnode hs hr
      simp only [hr, next_tokens_fst, hs1] at h
      obtain ⟨h1, h2, h3⟩ := hc hn.right hkids hsl (by simp [hs1]) h
      refine ⟨h1, ?_, h3⟩
      rw [h2, treesOf_append, List.append_assoc, ← htree]
      rfl

theorem strcmp_self {t : XmlToken} {l : List XmlToken} (hn : NulFree l) (ht : t ∈ l) : strcmp t.text t.text = 0 :=
  (strcmp_eq_zero_iff (hn t ht) (hn t ht)).mpr rfl

theorem parse_complete_succ (hc : ChildrenComplete fuel) : ParseComplete (fuel + 1) := by
  intro ts l' tree s s' r hn hnode hs h
  rw [XmlParse, if_neg (not_not.mpr hnode.cur_string)] at h
  have hsrc : s.construct.2.src = (ts ++ l').tail := hs
  simp only [next_tokens_fst, hsrc] at h
  cases hnode with
  | @short hd tl n as hh htl =>
    obtain ⟨slash, tl, rfl, hsl, htl⟩ := htl.cons_inv
    rw [List.append_assoc, List.cons_append] at hsrc h
    match hr : attributes tokens fuel (cur (hd ++ slash :: (tl ++ l')).tail) [] (next tokens s.construct.2).2 with
    | none => simp only [hr, reduceCtorEq] at h
    | some (r1, s1) =>
      obtain ⟨rfl, hs1⟩ := head_complete hh (by simp [hsl]) (by simp [hsl]) (by rw [next_tokens_src, hsrc]) hr
      simp only [hr, cur_cons, hsl, if_true, Option.some.injEq] at h
      obtain ⟨h1, h2⟩ := closeAndOpen_complete (.mk s.construct.1 (cur (hd ++ slash :: (tl ++ l'))).text as []) l' htl
        (by simpa using hs1)
      rw [h] at h1 h2
      exact ⟨_, h1, by rw [XmlNode.tree, (hh.cur_eq _).2]; rfl, h2⟩
  | @long hd op ks tl slash m n as trees hh hop hk hsl hm hname htl =>
    obtain ⟨close, op, rfl, hcl, hop⟩ := hop.cons_inv
    obtain ⟨o, op, rfl, ho, hop⟩ := hop.cons_inv
    obtain rfl := hop.nil_inv
    simp only [List.append_assoc, List.cons_append, List.nil_append] at hsrc h hn
    match hr : attributes tokens fuel (cur (hd ++ close :: o :: (ks ++ slash :: m :: (tl ++ l'))).tail) []
        (next tokens s.construct.2).2 with
    | none => simp only [hr, reduceCtorEq] at h
    | some (r1, s1) =>
      obtain ⟨rfl, hs1⟩ := head_complete hh (by simp [hcl]) (by simp [hcl]) (by rw [next_tokens_src, hsrc]) hr
      simp only [hr, cur_cons, hcl, reduceCtorEq, if_false, if_true, next_tokens_src, hs1, List.tail_cons,
        ho, ne_eq, not_true_eq_false] at h
      match hkr : children tokens fuel (cur (ks ++ slash :: m :: (tl ++ l'))) [] (next tokens (next tokens s1).2).2 with
      | none => simp only [hkr, reduceCtorEq] at h
      | some (r2, kids, s2) =>
        have hnk : NulFree ks := fun t ht => hn t (by simp [ht])
        obtain ⟨rfl, htrees, hs2⟩ := hc hnk hk hsl (by simp [hs1]) hkr
        have hcmp : strcmp m.text (cur (hd ++ close :: o :: (ks ++ slash :: m :: (tl ++ l')))).text = 0 := by
          rw [(hh.cur_eq _).2, ← hname]
          exact strcmp_self hn (by simp)
        simp only [hkr] at h
        simp only [hs2, cur_cons, hm, not_true_eq_false, if_false, hcmp, Option.some.injEq] at h
        obtain ⟨h1, h2⟩ := closeAndOpen_complete
          (.mk s.construct.1 (cur (hd ++ close :: o :: (ks ++ slash :: m :: (tl ++ l')))).text as kids) l' htl
          (show (next tokens s2).2.src = tl ++ l' by simp [hs2])
        rw [h] at h1 h2
        exact ⟨_, h1, by rw [XmlNode.tree, (hh.cur_eq _).2, htrees]; rfl, h2⟩

theorem reader_sound : ∀ fuel, ParseSound fuel ∧ ChildrenSound fuel := by
  intro fuel
  induction fuel with
  | zero => exact ⟨fun _ _ h => by simp [XmlParse] at h, fun _ _ h => by simp [children] at h⟩
  | succ fuel ih => exact ⟨parse_sound_succ ih.2, children_sound_succ ih.1 ih.2⟩

theorem reader_complete : ∀ fuel, ParseComplete fuel ∧ ChildrenComplete fuel := by
  intro fuel
  induction fuel with
  | zero => exact ⟨fun _ _ _ h => by simp [XmlParse] at h, fun _ _ _ _ h => by simp [children] at h⟩
  | succ fuel ih => exact ⟨parse_complete_succ ih.2, children_complete_succ ih.1 ih.2⟩

/-! ## `XmlRead` -/

theorem TokenList.list_nulFree (l : TokenList) : NulFree l.list := by
  intro t ht
  rcases List.mem_append.mp ht with ht | ht
  · exact l.nulFree t ht
  · rw [List.mem_singleton.mp ht]
    exact List.not_mem_nil

/-- Behind a token that is not `EndOfFile`, a reader that sees `EndOfFile` stands at the end. -/
def Ends (ts : List XmlToken) : Prop :=
  ∀ (pre l' : List XmlToken) (t : XmlToken), ts = pre ++ t :: l' → t.type ≠ .EndOfFile → (cur l').type = .EndOfFile →
    l' = [endOfFile]

theorem TokenList.list_ends (l : TokenList) : Ends l.list := by
  intro pre l' t h ht he
  have hlast : ∀ (ts : List XmlToken) (x : XmlToken), l.list = ts ++ [x] → x = endOfFile := fun ts x e =>
    (List.singleton_inj.mp (List.append_inj' e rfl).2).symm
  cases l' with
  | nil =>
    rw [hlast pre t h] at ht
    exact absurd rfl ht
  | cons e l' =>
    rcases List.eq_nil_or_concat l' with rfl | ⟨ts, x, rfl⟩
    · rw [hlast (pre ++ [t]) e (by simp [h])]
    · have hx : l.list = (pre ++ t :: e :: ts) ++ [x] := by simp [h]
      have hb : l.body = pre ++ t :: e :: ts := (List.append_inj' hx rfl).1
      exact absurd he (l.proper e (by simp [hb]))

theorem XmlRead_sound {ts : List XmlToken} {node : XmlNode} (hn : NulFree ts) (hend : Ends ts) (hs : s.src = ts)
    (h : XmlRead tokens fuel s = some (some node, s')) : Root ts node.tree := by
  have hsrc : s.construct.2.src = ts := hs
  unfold XmlRead at h
  simp only [next_tokens_fst, next_tokens_src, hsrc] at h
  by_cases ho : (cur ts).type = .Open
  · obtain ⟨o, l1, rfl, hot⟩ := cons_of_cur ho (by decide)
    simp only [cur_cons, hot, ne_eq, not_true_eq_false, if_false, List.tail_cons] at h
    by_cases hstr : (cur l1).type = .String
    · obtain ⟨n, l2, rfl, hnt⟩ := cons_of_cur hstr (by decide)
      simp only [cur_cons, hnt, not_true_eq_false, if_false, List.tail_cons] at h
      match hr : attributes tokens fuel (cur l2) [] (next tokens (next tokens (next tokens s.construct.2).2).2).2 with
      | none => simp only [hr, reduceCtorEq] at h
      | some (none, s1) => simp only [hr, Option.some.injEq, Prod.mk.injEq, reduceCtorEq, false_and] at h
      | some (some (token, attrs), s1) =>
        obtain ⟨hd, l3, hl3, hhead, rfl, hs1⟩ := head_sound hnt (by simp [hsrc]) hr
        rw [hl3] at hn hend ⊢
        simp only [hr, hs1] at h
        by_cases hclose : (cur l3).type = .Close
        · obtain ⟨close, l4, rfl, hcl⟩ := cons_of_cur hclose (by decide)
          simp only [cur_cons, hcl, not_true_eq_false, if_false, List.tail_cons] at h
          by_cases hopen : (cur l4).type = .Open
          · obtain ⟨op, l5, rfl, hop⟩ := cons_of_cur hopen (by decide)
            simp only [cur_cons, hop, not_true_eq_false, if_false, List.tail_cons] at h
            match hk : children tokens fuel (cur l5) [] (next tokens (next tokens s1).2).2 with
            | none => simp only [hk, reduceCtorEq] at h
            | some (none, _, s2) => simp only [hk, Option.some.injEq, Prod.mk.injEq, reduceCtorEq, false_and] at h
            | some (some (), kids, s2) =>
              obtain ⟨ks, slash, trees, rfl, hkids, hsl, htrees⟩ := (reader_sound fuel).2 (l := l5)
                (fun t ht => hn t (by simp [ht])) (by simp [hs1]) hk
              simp only [hk] at h
              by_cases hm : (cur s2.src).type = .String
              · obtain ⟨m, l6, hl6, hmt⟩ := cons_of_cur hm (by decide)
                simp only [hl6, cur_cons, hmt, not_true_eq_false, if_false, List.tail_cons] at h
                have hcmp := strcmp_eq_zero_iff (hn m (by simp [hl6])) (hn n (by rw [← hl3]; simp))
                by_cases hname : m.text = n.text
                · rw [if_neg (not_not.mpr (hcmp.mpr hname))] at h
                  by_cases hc : (cur l6).type = .Close
                  · obtain ⟨c, l7, rfl, hct⟩ := cons_of_cur hc (by decide)
                    simp only [cur_cons, hct, not_true_eq_false, if_false, List.tail_cons] at h
                    by_cases he : (cur l7).type = .EndOfFile
                    · have hl7 : l7 = [endOfFile] :=
                        hend (o :: (hd ++ ([close, op] ++ (ks ++ [slash, m])))) l7 c (by simp [hl6]) (by rw [hct]; decide) he
                      simp only [he, not_true_eq_false, if_false, Option.some.injEq, Prod.mk.injEq] at h
                      obtain ⟨rfl, -⟩ := h
                      rw [XmlNode.tree, htrees, hl6, hl7]
                      have hroot := Root.intro hot hhead (.cons hcl (.cons hop .nil)) hkids hsl hmt hname
                        (.cons hct (.cons (rfl : endOfFile.type = .EndOfFile) .nil))
                      simpa [treesOf] using hroot
                    · simp [he] at h
                  · simp [hc] at h
                · rw [if_pos (fun e => hname (hcmp.mp e))] at h
                  simp at h
              · simp [hm] at h
          · simp [hopen] at h
        · simp [hclose] at h
    · simp [hstr] at h
  · simp [ho] at h

theorem XmlRead_complete {ts : List XmlToken} {tree : Tree} {r : Option XmlNode} (hn : NulFree ts)
    (hroot : Root ts tree)
    (hs : s.src = ts) (h : XmlRead tokens fuel s = some (r, s')) : ∃ node, r = some node ∧ node.tree = tree := by
  have hsrc : s.construct.2.src = ts := hs
  cases hroot with
  | @intro o hd op ks tl slash m n as trees ho hh hop hk hsl hm hname htl =>
    obtain ⟨close, op, rfl, hcl, hop⟩ := hop.cons_inv
    obtain ⟨op', op, rfl, hop', hop⟩ := hop.cons_inv
    obtain rfl := hop.nil_inv
    obtain ⟨c, tl, rfl, hc, htl⟩ := htl.cons_inv
    obtain ⟨e, tl, rfl, he, htl⟩ := htl.cons_inv
    obtain rfl := htl.nil_inv
    simp only [List.cons_append, List.nil_append] at hsrc hn
    obtain ⟨hstr, hfst⟩ := hh.cur_eq (close :: op' :: (ks ++ [slash, m, c, e]))
    unfold XmlRead at h
    simp only [next_tokens_fst, next_tokens_src, hsrc, cur_cons, ho, ne_eq, not_true_eq_false, if_false, List.tail_cons,
      hstr] at h
    match hr : attributes tokens fuel (cur (hd ++ close :: op' :: (ks ++ [slash, m, c, e])).tail) []
        (next tokens (next tokens (next tokens s.construct.2).2).2).2 with
    | none => simp only [hr, reduceCtorEq] at h
    | some (r1, s1) =>
      obtain ⟨rfl, hs1⟩ := head_complete hh (by simp [hcl]) (by simp [hcl]) (by simp [hsrc]) hr
      simp only [hr, cur_cons, hcl, not_true_eq_false, if_false, hs1, List.tail_cons, hop'] at h
      match hkr : children tokens fuel (cur (ks ++ [slash, m, c, e])) [] (next tokens (next tokens s1).2).2 with
      | none => simp only [hkr, reduceCtorEq] at h
      | some (r2, kids, s2) =>
        have hnk : NulFree ks := fun t ht => hn t (by simp [ht])
        obtain ⟨rfl, htrees, hs2⟩ := (reader_complete fuel).2 hnk hk hsl (by simp [hs1]) hkr
        have hcmp : strcmp m.text (cur (hd ++ close :: op' :: (ks ++ [slash, m, c, e]))).text = 0 := by
          rw [hfst, ← hname]
          exact strcmp_self hn (by simp)
        simp only [hkr, hs2, cur_cons, hm, not_true_eq_false, if_false, hcmp, List.tail_cons, hc, he, Option.some.injEq,
          Prod.mk.injEq] at h
        obtain ⟨rfl, -⟩ := h
        exact ⟨_, rfl, by rw [XmlNode.tree, hfst, htrees]; rfl⟩

/-- On every finite token list `XmlRead` returns, and it returns a node exactly when the
    list derives from `Root`, with the derivation's tree. -/
theorem XmlRead_iff (l : TokenList) : ∃ F, ∀ fuel ≥ F, ∃ r s, XmlRead tokens fuel (initEnv l) = some (r, s) ∧
    ∀ tree, (∃ node, r = some node ∧ node.tree = tree) ↔ Root l.list tree := by
  refine ⟨2 * l.list.length + 4, fun fuel hf => ?_⟩
  obtain ⟨r, s, h⟩ := XmlRead_returns tokens_measured (initEnv l) hf
  refine ⟨r, s, h, fun tree => ⟨?_, fun hroot => XmlRead_complete l.list_nulFree hroot rfl h⟩⟩
  rintro ⟨node, rfl, rfl⟩
  exact XmlRead_sound l.list_nulFree l.list_ends rfl h

end Rodvin.Kernel.Xml
