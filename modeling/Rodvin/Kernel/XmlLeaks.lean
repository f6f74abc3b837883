/-
  Rodvin.Kernel.XmlLeaks — what a failed parse leaves behind
  (`kernel/src/common/Xml.cpp`: `XmlParse`, `XmlRead`).

  A node that `XmlParse` makes is deleted on the error returns behind its attributes,
  but not where the value of an attribute is missing, and not where one of its children
  fails. Its caller has no pointer to it then. So a parse that fails loses a node
  exactly when it fails in the attributes of a child of the root, or in a node below one
  (`Leaky`):
  - `released_iff`: on every list of tokens.
  - `attribute_without_a_value_leaks`: `<r><a b=>`.

  Names are compared by `strcmp`, so `Leaky` is about the texts up to their first zero.
-/

import Mathlib.Data.List.TakeWhile
import Rodvin.Kernel.XmlCalls

namespace Rodvin.Kernel.Xml

open Rodvin.Lib Rodvin.Libc

/-! ## Where a parse loses a node -/

/-- The attributes that `XmlParse` reads from `l` stop at a missing value. -/
def CutAttrs (l : List XmlToken) : Prop :=
  ∃ ts k e rest kvs, l = ts ++ k :: e :: rest ∧ Attrs ts kvs ∧ k.type = .String ∧ e.type = .Equals ∧ (cur rest).type ≠ .String

/-- The node at the start of `l` is made, and then an attribute of it has no value, or one of its
    children is no node. -/
inductive LosesNode : List XmlToken → Prop
  | noValue {n : XmlToken} {l : List XmlToken} : n.type = .String → CutAttrs l → LosesNode (n :: l)
  | badKid {hd op ks rest : List XmlToken} {n : Text} {attrs : List (Text × Text)} {trees : List Tree} :
    Head hd n attrs → Are op [.Close, .Open] → Kids ks trees → (cur rest).type ≠ .Slash →
    (¬ ∃ ts us tree, rest = ts ++ us ∧ Node ts tree) → LosesNode (hd ++ (op ++ (ks ++ rest)))

/-- So it is for a child of the root, behind children that are nodes. -/
def Leaky (l : List XmlToken) : Prop :=
  ∃ o hd op ks rest n attrs trees, l = o :: (hd ++ (op ++ (ks ++ rest))) ∧ o.type = .Open ∧ Head hd n attrs ∧
    Are op [.Close, .Open] ∧ Kids ks trees ∧ LosesNode rest

/-- Every node constructed has been destroyed, once. -/
def Released {σ : Type} (s : Env σ) : Prop := s.deleted.Perm (List.range s.constructed)

/-! ## Texts as C strings -/

/-- A text as `strcmp` sees it. -/
def cText (t : Text) : Text := t.takeWhile (· ≠ 0)

def cToken (t : XmlToken) : XmlToken := { t with text := cText t.text }

theorem cText_nulFree (t : Text) : 0 ∉ cText t := by
  intro h
  have := List.mem_takeWhile_imp h
  simp at this

theorem cText_zero (xs : Text) : cText (0 :: xs) = [] := by simp [cText]

theorem cText_cons {x : UInt8} (hx : x ≠ 0) (xs : Text) : cText (x :: xs) = x :: cText xs := by simp [cText, hx]

theorem strcmp_cText : ∀ a b : Text, strcmp (cText a) (cText b) = strcmp a b := by
  intro a
  induction a with
  | nil =>
    intro b
    cases b with
    | nil => rfl
    | cons y ys =>
      by_cases hy : y = 0
      · rw [hy, cText_zero]
        rfl
      · rw [cText_cons hy]
        rfl
  | cons x xs ih =>
    intro b
    by_cases hx : x = 0
    · rw [hx, cText_zero]
      cases b with
      | nil => rfl
      | cons y ys =>
        by_cases hy : y = 0
        · rw [hy, cText_zero]
          rfl
        · rw [cText_cons hy]
          simp [strcmp]
    · rw [cText_cons hx]
      cases b with
      | nil => rfl
      | cons y ys =>
        by_cases hy : y = 0
        · rw [hy, cText_zero]
          simp [hx, strcmp]
        · rw [cText_cons hy]
          unfold strcmp
          rw [ih ys]

/-- Tokens that differ in their texts behind the first zero at most. -/
structure SameToken (t u : XmlToken) : Prop where
  type : t.type = u.type
  text : cText t.text = cText u.text

theorem SameToken.strcmp_eq {t u t' u' : XmlToken} (h : SameToken t t') (h' : SameToken u u') :
    strcmp t.text u.text = strcmp t'.text u'.text := by
  rw [← strcmp_cText t.text, ← strcmp_cText t'.text, h.text, h'.text]

/-- What the attribute loop ends with. -/
def SameAttrs : Option (Option (XmlToken × List (Text × Text))) → Option (Option (XmlToken × List (Text × Text))) → Prop
  | none, none => True
  | some none, some none => True
  | some (some r), some (some r') => SameToken r.1 r'.1
  | _, _ => False

/-- The same numbers in the node, if there is one, and the same nodes made and deleted. -/
def SameNode (r r' : Option XmlNode × Nodes) : Prop := r.1.map XmlNode.ids = r'.1.map XmlNode.ids ∧ r.2 = r'.2

def SameParse : Option (Option XmlNode × Nodes) → Option (Option XmlNode × Nodes) → Prop
  | none, none => True
  | some r, some r' => SameNode r r'
  | _, _ => False

def SameChildren : Option (Option Unit × List XmlNode × Nodes) → Option (Option Unit × List XmlNode × Nodes) → Prop
  | none, none => True
  | some r, some r' => r.1 = r'.1 ∧ idsOf r.2.1 = idsOf r'.2.1 ∧ r.2.2 = r'.2.2
  | _, _ => False

theorem type_iff {t t' : XmlToken} (h : SameToken t t') (ty : TokenType) : t.type = ty ↔ t'.type = ty := by rw [h.type]

theorem type_ne_iff {t t' : XmlToken} (h : SameToken t t') (ty : TokenType) :
    t.type ≠ ty ↔ t'.type ≠ ty := by rw [h.type]

theorem askAttributes_alike : ∀ (fuel : Nat) {token token' : XmlToken} (attrs attrs' : List (Text × Text)),
    SameToken token token' → Ask.Alike SameToken SameAttrs (askAttributes fuel token attrs) (askAttributes fuel token' attrs') := by
  intro fuel
  induction fuel with
  | zero => exact fun _ _ _ => .done trivial
  | succ fuel ih =>
    intro token token' attrs attrs' h
    refine .ite (type_iff h _) (.ask fun t t' ht => ?_) (.done h)
    refine .ite (type_iff ht _) (.ask fun v v' hv => ?_) (ih _ _ ht)
    exact .ite (type_ne_iff hv _) (.done trivial) (.ask fun u u' hu => ih _ _ hu)

theorem ids_mk (id : Nat) (ty ty' : Text) (attrs attrs' : List (Text × Text)) {kids kids' : List XmlNode}
    (h : idsOf kids = idsOf kids') : (XmlNode.mk id ty attrs kids).ids = (XmlNode.mk id ty' attrs' kids').ids := by
  rw [XmlNode.ids, XmlNode.ids, h]

theorem delete_congr {node node' : XmlNode} (h : node.ids = node'.ids) (s : Nodes) :
    s.delete node = s.delete node' := by
  unfold Env.delete
  rw [h]

theorem askCloseAndOpen_alike {node node' : XmlNode} (h : node.ids = node'.ids) (s : Nodes) :
    Ask.Alike SameToken SameNode (askCloseAndOpen node s) (askCloseAndOpen node' s) := by
  have hdel : SameNode (none, s.delete node) (none, s.delete node') := ⟨rfl, delete_congr h s⟩
  refine .ask fun t t' ht => .ite (type_ne_iff ht _) (.done hdel) (.ask fun u u' hu => ?_)
  exact .ite (type_ne_iff hu _) (.done hdel) (.done ⟨congrArg some h, rfl⟩)

theorem idsOf_append (ns ms : List XmlNode) : idsOf (ns ++ ms) = idsOf ns ++ idsOf ms := by
  induction ns with
  | nil => rfl
  | cons n ns ih => simp only [List.cons_append, idsOf, ih, List.append_assoc]

def ParseAlike (fuel : Nat) : Prop :=
  ∀ {tok tok' : XmlToken} (s : Nodes), SameToken tok tok' →
    Ask.Alike SameToken SameParse (askParse fuel tok s) (askParse fuel tok' s)

def ChildrenAlike (fuel : Nat) : Prop :=
  ∀ {token token' : XmlToken} {kids kids' : List XmlNode} (s : Nodes), SameToken token token' → idsOf kids = idsOf kids' →
    Ask.Alike SameToken SameChildren (askChildren fuel token kids s) (askChildren fuel token' kids' s)

theorem children_alike_succ {fuel : Nat} (hp : ParseAlike fuel) (hc : ChildrenAlike fuel) :
    ChildrenAlike (fuel + 1) := by
  intro token token' kids kids' s h hk
  rw [askChildren, askChildren]
  refine .ite (type_ne_iff h _) ((hp s h).bind fun r r' hr => ?_) (.done ⟨rfl, hk, rfl⟩)
  rcases r with _ | ⟨_ | node, s1⟩ <;> rcases r' with _ | ⟨_ | node', s1'⟩
  · exact .done trivial
  · exact hr.elim
  · exact hr.elim
  · exact hr.elim
  · exact .done ⟨rfl, hk, hr.2⟩
  · cases hr.1
  · exact hr.elim
  · cases hr.1
  · obtain ⟨hid, rfl⟩ := hr
    refine .ask fun t t' ht => hc s1 ht ?_
    have hid : node.ids = node'.ids := Option.some.inj hid
    simp only [idsOf_append, idsOf, hk, hid]

/-- The tail of both readers: a result of `closeAndOpen`. -/
theorem closing_alike {node node' : XmlNode} (h : node.ids = node'.ids) (s : Nodes) :
    Ask.Alike SameToken SameParse ((askCloseAndOpen node s).bind fun r => .done (some r))
      ((askCloseAndOpen node' s).bind fun r => .done (some r)) :=
  (askCloseAndOpen_alike h s).bind fun _ _ hr => .done hr

theorem parse_alike_succ {fuel : Nat} (hc : ChildrenAlike fuel) : ParseAlike (fuel + 1) := by
  intro tok tok' s h
  rw [askParse, askParse]
  refine .ite (type_ne_iff h _) (.done ⟨rfl, rfl⟩) (.ask fun t t' ht => ?_)
  refine (askAttributes_alike fuel [] [] ht).bind fun r r' hr => ?_
  have hdel : ∀ (n : Nodes) (attrs attrs' : List (Text × Text)) {kids kids' : List XmlNode}, idsOf kids = idsOf kids' →
      SameParse (some (none, n.delete (.mk s.construct.1 tok.text attrs kids)))
        (some (none, n.delete (.mk s.construct.1 tok'.text attrs' kids'))) :=
    fun n attrs attrs' _ _ hk => ⟨rfl, delete_congr (ids_mk _ _ _ _ _ hk) n⟩
  rcases r with _ | _ | ⟨token, attrs⟩ <;> rcases r' with _ | _ | ⟨token', attrs'⟩
  · exact .done trivial
  · exact hr.elim
  · exact hr.elim
  · exact hr.elim
  · exact .done ⟨rfl, rfl⟩
  · exact hr.elim
  · exact hr.elim
  · exact hr.elim
  · have hr : SameToken token token' := hr
    refine .ite (type_iff hr _) (closing_alike (ids_mk _ _ _ _ _ rfl) _) ?_
    refine .ite (type_iff hr _) (.ask fun u u' hu => ?_) (.done (hdel _ _ _ rfl))
    refine .ite (type_ne_iff hu _) (.done (hdel _ _ _ rfl)) (.ask fun v v' hv => ?_)
    refine (hc s.construct.2 hv rfl).bind fun k k' hk => ?_
    rcases k with _ | ⟨_ | _, kids, s1⟩ <;> rcases k' with _ | ⟨_ | _, kids', s1'⟩
    · exact .done trivial
    · exact hk.elim
    · exact hk.elim
    · exact hk.elim
    · exact .done ⟨rfl, hk.2.2⟩
    · cases hk.1
    · exact hk.elim
    · cases hk.1
    · obtain ⟨-, hids, rfl⟩ := hk
      refine .ask fun w w' hw => .ite (type_ne_iff hw _) (.done (hdel _ _ _ hids)) ?_
      have hcmp : strcmp w.text tok.text ≠ 0 ↔ strcmp w'.text tok'.text ≠ 0 := by rw [hw.strcmp_eq h]
      exact .ite hcmp (.done (hdel _ _ _ hids)) (closing_alike (ids_mk _ _ _ _ _ hids) _)

theorem reader_alike : ∀ fuel, ParseAlike fuel ∧ ChildrenAlike fuel := by
  intro fuel
  induction fuel with
  | zero => exact ⟨fun _ _ => .done trivial, fun _ _ _ => .done trivial⟩
  | succ fuel ih => exact ⟨parse_alike_succ ih.2, children_alike_succ ih.1 ih.2⟩

theorem readTokens_alike (fuel : Nat) (s : Nodes) :
    Ask.Alike SameToken SameParse (readTokens fuel s) (readTokens fuel s) := by
  have hdel : ∀ (n : Nodes) (ty ty' : Text) (attrs attrs' : List (Text × Text)) {kids kids' : List XmlNode},
      idsOf kids = idsOf kids' → SameParse (some (none, n.delete (.mk s.construct.1 ty attrs kids)))
        (some (none, n.delete (.mk s.construct.1 ty' attrs' kids'))) :=
    fun n _ _ attrs attrs' _ _ hk => ⟨rfl, delete_congr (ids_mk _ _ _ _ _ hk) n⟩
  refine .ask fun t t' ht => .ite (type_ne_iff ht _) (.done ⟨rfl, rfl⟩) (.ask fun n n' hn => ?_)
  refine .ite (type_ne_iff hn _) (.done ⟨rfl, rfl⟩) (.ask fun u u' hu => ?_)
  refine (askAttributes_alike fuel [] [] hu).bind fun r r' hr => ?_
  rcases r with _ | _ | ⟨token, attrs⟩ <;> rcases r' with _ | _ | ⟨token', attrs'⟩
  · exact .done trivial
  · exact hr.elim
  · exact hr.elim
  · exact hr.elim
  · exact .done (hdel _ _ _ _ _ rfl)
  · exact hr.elim
  · exact hr.elim
  · exact hr.elim
  · refine .ite (type_ne_iff hr _) (.done (hdel _ _ _ _ _ rfl)) (.ask fun v v' hv => ?_)
    refine .ite (type_ne_iff hv _) (.done (hdel _ _ _ _ _ rfl)) (.ask fun w w' hw => ?_)
    refine ((reader_alike fuel).2 s.construct.2 hw rfl).bind fun k k' hk => ?_
    rcases k with _ | ⟨_ | _, kids, s1⟩ <;> rcases k' with _ | ⟨_ | _, kids', s1'⟩
    · exact .done trivial
    · exact hk.elim
    · exact hk.elim
    · exact hk.elim
    · obtain ⟨-, hids, rfl⟩ := hk
      exact .done (hdel _ _ _ _ _ hids)
    · cases hk.1
    · exact hk.elim
    · cases hk.1
    · obtain ⟨-, hids, rfl⟩ := hk
      refine .ask fun x x' hx => .ite (type_ne_iff hx _) (.done (hdel _ _ _ _ _ hids)) ?_
      have hcmp : strcmp x.text n.text ≠ 0 ↔ strcmp x'.text n'.text ≠ 0 := by rw [hx.strcmp_eq hn]
      refine .ite hcmp (.done (hdel _ _ _ _ _ hids)) (.ask fun y y' hy => ?_)
      refine .ite (type_ne_iff hy _) (.done (hdel _ _ _ _ _ hids)) (.ask fun z z' hz => ?_)
      refine .ite (type_ne_iff hz _) (.done (hdel _ _ _ _ _ hids)) (.done ⟨?_, rfl⟩)
      exact congrArg some (ids_mk _ _ _ _ _ hids)

/-! ## The ways through `XmlParse` -/

section Owners

variable {σ : Type} (f : σ → XmlToken × σ) (fuel : Nat)

/-- The attribute loop of `XmlParse`. -/
def readAttrs (s : Env σ) : Option (Option (XmlToken × List (Text × Text)) × Env σ) :=
  attributes f fuel (next f s.construct.2).1 [] (next f s.construct.2).2

/-- The loop over the children, behind the token at which `s` stands and the `Open` behind it. -/
def readKids (s : Env σ) : Option (Option Unit × List XmlNode × Env σ) :=
  children f fuel (next f (next f s).2).1 [] (next f (next f s).2).2

/-- One constructor for each `return` of `XmlParse`. -/
inductive ParseCase (tok : XmlToken) (s : Env σ) : Option XmlNode → Env σ → Prop
  | noName : tok.type ≠ .String → ParseCase tok s none s
  | noValue {s1 : Env σ} : tok.type = .String → readAttrs f fuel s = some (none, s1) → ParseCase tok s none s1
  | noEnd {token : XmlToken} {attrs : List (Text × Text)} {s1 : Env σ} : tok.type = .String →
    readAttrs f fuel s = some (some (token, attrs), s1) → token.type ≠ .Slash → token.type ≠ .Close →
    ParseCase tok s none (s1.delete (.mk s.constructed tok.text attrs []))
  | short {token : XmlToken} {attrs : List (Text × Text)} {s1 s' : Env σ} {r : Option XmlNode} : tok.type = .String →
    readAttrs f fuel s = some (some (token, attrs), s1) → token.type = .Slash →
    closeAndOpen f (.mk s.constructed tok.text attrs []) s1 = (r, s') → ParseCase tok s r s'
  | noOpen {token : XmlToken} {attrs : List (Text × Text)} {s1 : Env σ} : tok.type = .String →
    readAttrs f fuel s = some (some (token, attrs), s1) → token.type = .Close → (next f s1).1.type ≠ .Open →
    ParseCase tok s none ((next f s1).2.delete (.mk s.constructed tok.text attrs []))
  | badKid {token : XmlToken} {attrs : List (Text × Text)} {kids : List XmlNode} {s1 s2 : Env σ} : tok.type = .String →
    readAttrs f fuel s = some (some (token, attrs), s1) → token.type = .Close → (next f s1).1.type = .Open →
    readKids f fuel s1 = some (none, kids, s2) → ParseCase tok s none s2
  | badName {token : XmlToken} {attrs : List (Text × Text)} {kids : List XmlNode} {s1 s2 : Env σ} : tok.type = .String →
    readAttrs f fuel s = some (some (token, attrs), s1) → token.type = .Close → (next f s1).1.type = .Open →
    readKids f fuel s1 = some (some (), kids, s2) → ParseCase tok s none ((next f s2).2.delete (.mk s.constructed tok.text attrs kids))
  | long {token : XmlToken} {attrs : List (Text × Text)} {kids : List XmlNode} {s1 s2 s' : Env σ} {r : Option XmlNode} :
    tok.type = .String → readAttrs f fuel s = some (some (token, attrs), s1) → token.type = .Close →
    (next f s1).1.type = .Open → readKids f fuel s1 = some (some (), kids, s2) →
    closeAndOpen f (.mk s.constructed tok.text attrs kids) (next f s2).2 = (r, s') → ParseCase tok s r s'

variable {f fuel} {tok : XmlToken} {s s' s1 s2 : Env σ} {r : Option XmlNode}

theorem XmlParse_cases (h : XmlParse f (fuel + 1) tok s = some (r, s')) : ParseCase f fuel tok s r s' := by
  rw [XmlParse] at h
  by_cases hstr : tok.type = .String
  · rw [if_neg (not_not.mpr hstr)] at h
    rcases ha : readAttrs f fuel s with _ | ⟨_ | ⟨token, attrs⟩, s1⟩
    · rw [readAttrs] at ha
      simp only [ha, reduceCtorEq] at h
    · have ha' := ha
      rw [readAttrs] at ha'
      simp only [ha', Option.some.injEq, Prod.mk.injEq] at h
      obtain ⟨rfl, rfl⟩ := h
      exact .noValue hstr ha
    · have ha' := ha
      rw [readAttrs] at ha'
      simp only [ha'] at h
      by_cases hslash : token.type = .Slash
      · rw [if_pos hslash, Option.some.injEq] at h
        exact .short hstr ha hslash h
      · rw [if_neg hslash] at h
        by_cases hclose : token.type = .Close
        · rw [if_pos hclose] at h
          by_cases hopen : (next f s1).1.type = .Open
          · rw [if_neg (not_not.mpr hopen)] at h
            rcases hk : readKids f fuel s1 with _ | ⟨_ | _, kids, s2⟩
            · rw [readKids] at hk
              simp only [hk, reduceCtorEq] at h
            · have hk' := hk
              rw [readKids] at hk'
              simp only [hk', Option.some.injEq, Prod.mk.injEq] at h
              obtain ⟨rfl, rfl⟩ := h
              exact .badKid hstr ha hclose hopen hk
            · have hk' := hk
              rw [readKids] at hk'
              simp only [hk'] at h
              split_ifs at h
              · obtain ⟨rfl, rfl⟩ := Prod.mk.inj (Option.some.inj h)
                exact .badName hstr ha hclose hopen hk
              · obtain ⟨rfl, rfl⟩ := Prod.mk.inj (Option.some.inj h)
                exact .badName hstr ha hclose hopen hk
              · exact .long hstr ha hclose hopen hk (Option.some.inj h)
          · rw [if_pos hopen] at h
            obtain ⟨rfl, rfl⟩ := Prod.mk.inj (Option.some.inj h)
            exact .noOpen hstr ha hclose hopen
        · rw [if_neg hclose] at h
          obtain ⟨rfl, rfl⟩ := Prod.mk.inj (Option.some.inj h)
          exact .noEnd hstr ha hslash hclose
  · rw [if_pos hstr] at h
    obtain ⟨rfl, rfl⟩ := Prod.mk.inj (Option.some.inj h)
    exact .noName hstr

/-! ## Who owns the nodes -/

/-- From `s` to `s'` the nodes `ids` are made, once each, and none is deleted. -/
def Owns (s s' : Env σ) (ids : List Nat) : Prop :=
  s'.deleted = s.deleted ∧ ∃ n, s'.constructed = s.constructed + n ∧ ids.Perm (List.range' s.constructed n)

/-- Only nodes made since `s` are deleted. -/
def Grows (s s' : Env σ) : Prop :=
  s.constructed ≤ s'.constructed ∧ ∃ ids, s'.deleted = s.deleted ++ ids ∧ ∀ i ∈ ids, s.constructed ≤ i

/-- All nodes made since `s` are deleted, once each. -/
def Clean (s s' : Env σ) : Prop :=
  ∃ n ids, s'.constructed = s.constructed + n ∧ s'.deleted = s.deleted ++ ids ∧ ids.Perm (List.range' s.constructed n)

/-- The first node made since `s` is not deleted. -/
def Loses (s s' : Env σ) : Prop :=
  s.constructed < s'.constructed ∧ ∃ ids, s'.deleted = s.deleted ++ ids ∧ ∀ i ∈ ids, s.constructed < i

theorem Owns.refl (s : Env σ) : Owns s s [] := ⟨rfl, 0, rfl, .refl _⟩

theorem Owns.trans {as bs : List Nat} (h : Owns s s1 as) (h' : Owns s1 s2 bs) : Owns s s2 (as ++ bs) := by
  obtain ⟨hd, n, hn, hp⟩ := h
  obtain ⟨hd', n', hn', hp'⟩ := h'
  refine ⟨hd'.trans hd, n + n', by omega, ?_⟩
  rw [← List.range'_append_1]
  exact hp.append (hn ▸ hp')

theorem Owns.grows {as : List Nat} (h : Owns s s' as) : Grows s s' := by
  obtain ⟨hd, n, hn, -⟩ := h
  exact ⟨by omega, [], by rw [hd, List.append_nil], fun i hi => absurd hi List.not_mem_nil⟩

theorem Grows.trans (h : Grows s s1) (h' : Grows s1 s2) : Grows s s2 := by
  obtain ⟨hle, ids, hd, hids⟩ := h
  obtain ⟨hle', ids', hd', hids'⟩ := h'
  refine ⟨hle.trans hle', ids ++ ids', by rw [hd', hd, List.append_assoc], fun i hi => ?_⟩
  rcases List.mem_append.mp hi with hi | hi
  · exact hids i hi
  · exact hle.trans (hids' i hi)

theorem Clean.grows (h : Clean s s') : Grows s s' := by
  obtain ⟨n, ids, hn, hd, hp⟩ := h
  exact ⟨by omega, ids, hd, fun i hi => (List.mem_range'_1.mp (hp.mem_iff.mp hi)).1⟩

/-- What was made and is owned, deleted. -/
theorem Owns.delete {node : XmlNode} (h : Owns s s' node.ids) : Clean s (s'.delete node) := by
  obtain ⟨hd, n, hn, hp⟩ := h
  exact ⟨n, node.ids, hn, by rw [Env.delete, hd], hp⟩

/-- The states before and after a call differ in the source alone. -/
theorem Owns.next {as : List Nat} (h : Owns s s' as) : Owns s (next f s').2 as := h

theorem attributes_owns : ∀ {fuel : Nat} {token : XmlToken} {attrs : List (Text × Text)} {s s' : Env σ}
    {r : Option (XmlToken × List (Text × Text))}, attributes f fuel token attrs s = some (r, s') → Owns s s' [] := by
  intro fuel
  induction fuel with
  | zero => intro _ _ _ _ _ h; cases h
  | succ fuel ih =>
    intro token attrs s s' r h
    unfold attributes at h
    simp only at h
    split_ifs at h
    · obtain ⟨rfl, rfl⟩ := Prod.mk.inj (Option.some.inj h)
      exact Owns.refl s
    · have hown : Owns (next f (next f (next f s).2).2).2 s' [] := ih h
      exact hown
    · have hown : Owns (next f s).2 s' [] := ih h
      exact hown
    · obtain ⟨rfl, rfl⟩ := Prod.mk.inj (Option.some.inj h)
      exact Owns.refl s

theorem closeAndOpen_owns {node : XmlNode} (h : closeAndOpen f node s = (r, s')) :
    (r = some node ∧ Owns s s' []) ∨ (r = none ∧ ∃ s1, Owns s s1 [] ∧ s' = s1.delete node) := by
  unfold closeAndOpen at h
  simp only at h
  split_ifs at h
  · obtain ⟨rfl, rfl⟩ := Prod.mk.inj h
    exact Or.inr ⟨rfl, (next f s).2, Owns.refl s, rfl⟩
  · obtain ⟨rfl, rfl⟩ := Prod.mk.inj h
    exact Or.inr ⟨rfl, (next f (next f s).2).2, Owns.refl s, rfl⟩
  · obtain ⟨rfl, rfl⟩ := Prod.mk.inj h
    exact Or.inl ⟨rfl, Owns.refl s⟩

/-- The node that `XmlParse` makes, and its children. -/
theorem Owns.node {kids : List XmlNode} (h : Owns s.construct.2 s' (idsOf kids)) (ty : Text)
    (attrs : List (Text × Text)) :
    Owns s s' (XmlNode.mk s.constructed ty attrs kids).ids := by
  have h0 : Owns s s.construct.2 [s.constructed] := ⟨rfl, 1, rfl, .refl _⟩
  obtain ⟨hd, n, hn, hp⟩ := h0.trans h
  exact ⟨hd, n, hn, List.perm_append_comm.trans hp⟩

theorem readAttrs_owns {ra : Option (XmlToken × List (Text × Text))} (h : readAttrs f fuel s = some (ra, s1)) :
    Owns s.construct.2 s1 [] := by
  have hown : Owns (next f s.construct.2).2 s1 [] := attributes_owns h
  exact hown

def ParseOwns (f : σ → XmlToken × σ) (fuel : Nat) : Prop :=
  ∀ {tok : XmlToken} {s s' : Env σ} {r : Option XmlNode}, XmlParse f fuel tok s = some (r, s') →
    Grows s s' ∧ ∀ node, r = some node → Owns s s' node.ids

/-- The children read so far are owned; behind them comes the `Slash`, or a call of `XmlParse`
    that fails. -/
def ChildrenOwn (f : σ → XmlToken × σ) (fuel : Nat) : Prop :=
  ∀ {token : XmlToken} {kids kids' : List XmlNode} {s s' : Env σ} {r : Option Unit},
    children f fuel token kids s = some (r, kids', s') → Grows s s' ∧ ∃ new s1, kids' = kids ++ new ∧ Owns s s1 (idsOf new) ∧
      ((r = some () ∧ s' = s1) ∨ (r = none ∧ ∃ fuel' tok, XmlParse f fuel' tok s1 = some (none, s')))

theorem children_own_succ (hp : ParseOwns f fuel) (hc : ChildrenOwn f fuel) : ChildrenOwn f (fuel + 1) := by
  intro token kids kids' s s' r h
  rw [children] at h
  by_cases hslash : token.type = .Slash
  · rw [if_neg (not_not.mpr hslash)] at h
    simp only [Option.some.injEq, Prod.mk.injEq] at h
    obtain ⟨rfl, rfl, rfl⟩ := h
    exact ⟨(Owns.refl s).grows, [], s, by simp, Owns.refl s, Or.inl ⟨rfl, rfl⟩⟩
  · rw [if_pos hslash] at h
    rcases hr : XmlParse f fuel token s with _ | ⟨_ | node, s1⟩
    · simp only [hr, reduceCtorEq] at h
    · simp only [hr, Option.some.injEq, Prod.mk.injEq] at h
      obtain ⟨rfl, rfl, rfl⟩ := h
      exact ⟨(hp hr).1, [], s, by simp, Owns.refl s, Or.inr ⟨rfl, fuel, token, hr⟩⟩
    · simp only [hr] at h
      have hnode := (hp hr).2 node rfl
      obtain ⟨hgrows, new, s2, hkids, hown, hend⟩ := hc h
      have hown : Owns s1 s2 (idsOf new) := hown
      refine ⟨hnode.grows.trans hgrows, node :: new, s2, by rw [hkids, List.append_assoc]; rfl, ?_, hend⟩
      exact hnode.trans hown

theorem parse_own_succ (hc : ChildrenOwn f fuel) : ParseOwns f (fuel + 1) := by
  intro tok s s' r h
  have hconstruct : Grows s s.construct.2 :=
    ⟨Nat.le_succ _, [], by simp [Env.construct], fun i hi => absurd hi List.not_mem_nil⟩
  have hclosing : ∀ {node : XmlNode} {s2 : Env σ}, Owns s s2 node.ids → closeAndOpen f node s2 = (r, s') →
      Grows s s' ∧ ∀ node', r = some node' → Owns s s' node'.ids := by
    intro node s2 hown hend
    rcases closeAndOpen_owns hend with ⟨rfl, hsame⟩ | ⟨rfl, s3, hsame, rfl⟩
    · have hown : Owns s s' node.ids := by simpa using hown.trans hsame
      refine ⟨hown.grows, fun node' e => ?_⟩
      rw [← Option.some.inj e]
      exact hown
    · have hown : Owns s s3 node.ids := by simpa using hown.trans hsame
      exact ⟨hown.delete.grows, fun node' e => by cases e⟩
  cases XmlParse_cases h with
  | noName _ => exact ⟨(Owns.refl s).grows, fun _ e => by cases e⟩
  | noValue _ ha => exact ⟨hconstruct.trans (readAttrs_owns ha).grows, fun _ e => by cases e⟩
  | noEnd _ ha _ _ => exact ⟨(((readAttrs_owns ha).node _ _).delete).grows, fun _ e => by cases e⟩
  | short _ ha _ hend => exact hclosing ((readAttrs_owns ha).node _ _) hend
  | noOpen _ ha _ _ => exact ⟨(((readAttrs_owns ha).next.node _ _).delete).grows, fun _ e => by cases e⟩
  | badKid _ ha _ _ hk =>
    exact ⟨hconstruct.trans ((readAttrs_owns ha).grows.trans (hc hk).1), fun _ e => by cases e⟩
  | badName _ ha _ _ hk =>
    obtain ⟨-, new, s1, hkids, hown, hend⟩ := hc hk
    rcases hend with ⟨-, rfl⟩ | ⟨e, -⟩
    · have hall := ((readAttrs_owns ha).next.next.trans hown).next (f := f)
      rw [List.nil_append] at hall
      rw [hkids, List.nil_append]
      exact ⟨((hall.node _ _).delete).grows, fun _ e => by cases e⟩
    · cases e
  | long _ ha _ _ hk hend =>
    obtain ⟨-, new, s1, hkids, hown, hkend⟩ := hc hk
    rcases hkend with ⟨-, rfl⟩ | ⟨e, -⟩
    · have hall := ((readAttrs_owns ha).next.next.trans hown).next (f := f)
      rw [List.nil_append] at hall
      rw [hkids, List.nil_append] at hend
      exact hclosing (hall.node _ _) hend
    · cases e

theorem reader_owns : ∀ fuel, ParseOwns f fuel ∧ ChildrenOwn f fuel := by
  intro fuel
  induction fuel with
  | zero => exact ⟨fun h => by simp [XmlParse] at h, fun h => by simp [children] at h⟩
  | succ fuel ih => exact ⟨parse_own_succ ih.2, children_own_succ ih.1 ih.2⟩

end Owners

/-! ## On a list -/

variable {fuel : Nat} {s s' : Env (List XmlToken)} {l rest : List XmlToken}

/-- Where the attribute loop ends with an error, a value is missing. -/
theorem attributes_cut : ∀ {fuel : Nat} {attrs : List (Text × Text)} {s : Env (List XmlToken)} {l : List XmlToken},
    s.src = l.tail → attributes tokens fuel (cur l) attrs s = some (none, s') → CutAttrs l := by
  intro fuel
  induction fuel with
  | zero => intro _ _ _ _ h; cases h
  | succ fuel ih =>
    intro attrs s l hs h
    unfold attributes at h
    by_cases hstr : (cur l).type = .String
    · obtain ⟨k, l1, rfl, hk⟩ := cons_of_cur hstr (by decide)
      simp only [cur_cons, hk, if_true, next_tokens_fst, hs, List.tail_cons] at h
      by_cases heq : (cur l1).type = .Equals
      · obtain ⟨e, l2, rfl, he⟩ := cons_of_cur heq (by decide)
        simp only [cur_cons, he, if_true, next_tokens_src, hs, List.tail_cons] at h
        by_cases hval : (cur l2).type = .String
        · obtain ⟨v, l3, rfl, hv⟩ := cons_of_cur hval (by decide)
          simp only [cur_cons, hv, ne_eq, not_true_eq_false, if_false, List.tail_cons] at h
          obtain ⟨ts, k', e', rest, kvs, rfl, hts, hcut⟩ := ih (by simp [hs]) h
          exact ⟨k :: e :: v :: ts, k', e', rest, _, rfl, .pair hk he hv hts, hcut⟩
        · exact ⟨[], k, e, l2, [], rfl, .empty, hk, he, hval⟩
      · simp only [heq, if_false] at h
        obtain ⟨ts, k', e', rest, kvs, rfl, hts, hcut⟩ := ih (by simp [hs]) h
        exact ⟨k :: ts, k', e', rest, _, rfl, .flag hk hts, hcut⟩
    · simp [hstr] at h

theorem CutAttrs.attributes : ∀ {fuel : Nat} {l : List XmlToken} {attrs : List (Text × Text)} {s : Env (List XmlToken)}
    {r : Option (XmlToken × List (Text × Text))}, CutAttrs l → s.src = l.tail →
    attributes tokens fuel (cur l) attrs s = some (r, s') → r = none := by
  intro fuel
  induction fuel with
  | zero => intro _ _ _ _ _ _ h; cases h
  | succ fuel ih =>
    intro l attrs s r hcut hs h
    obtain ⟨ts, k, e, rest, kvs, rfl, hts, hk, he, hval⟩ := hcut
    unfold Xml.attributes at h
    cases hts with
    | empty =>
      simp only [List.nil_append, cur_cons, hk, if_true, next_tokens_fst, next_tokens_src, hs, List.tail_cons, he, hval,
        ne_eq, not_false_eq_true, Option.some.injEq, Prod.mk.injEq] at h
      exact h.1.symm
    | @flag k' ts kvs hk' hts =>
      have hne : (cur (ts ++ k :: e :: rest)).type ≠ .Equals := hts.cur_ne_equals (by simp [hk])
      simp only [List.cons_append, cur_cons, hk', if_true, next_tokens_fst, hs, List.tail_cons, hne, if_false] at h
      exact ih (s := (next tokens s).2) ⟨ts, k, e, rest, kvs, rfl, hts, hk, he, hval⟩ (by simp [hs]) h
    | @pair k' e' v' ts kvs hk' he' hv' hts =>
      simp only [List.cons_append, cur_cons, hk', if_true, next_tokens_fst, next_tokens_src, hs, List.tail_cons, he', hv',
        ne_eq, not_true_eq_false, if_false] at h
      exact ih (s := (next tokens (next tokens (next tokens s).2).2).2) ⟨ts, k, e, rest, kvs, rfl, hts, hk, he, hval⟩
        (by simp [hs]) h

/-- `XmlParse` on `rest` gives no node. -/
def FailsAt (rest : List XmlToken) : Prop :=
  ∀ (fuel : Nat) (s s' : Env (List XmlToken)) (r : Option XmlNode), s.src = rest.tail →
    XmlParse tokens fuel (cur rest) s = some (r, s') → r = none

theorem failsAt_of_no_node (hn : NulFree rest) (h : ¬ ∃ ts us tree, rest = ts ++ us ∧ Node ts tree) : FailsAt rest := by
  intro fuel s s' r hs hr
  cases r with
  | none => rfl
  | some node =>
    obtain ⟨ts, he, hnode⟩ := (reader_sound fuel).1 hn hs hr
    exact absurd ⟨ts, s'.src, node.tree, he, hnode⟩ h

/-- The loop over the children, up to the child that fails. -/
theorem children_none : ∀ {fuel : Nat} {l : List XmlToken} {s : Env (List XmlToken)} {kids kids' : List XmlNode}, NulFree l →
    s.src = l.tail → children tokens fuel (cur l) kids s = some (none, kids', s') →
    ∃ ks rest trees new s1 fuel', l = ks ++ rest ∧ Kids ks trees ∧ (cur rest).type ≠ .Slash ∧ kids' = kids ++ new ∧
      Owns s s1 (idsOf new) ∧ s1.src = rest.tail ∧ XmlParse tokens fuel' (cur rest) s1 = some (none, s') := by
  intro fuel
  induction fuel with
  | zero => intro _ _ _ _ _ _ h; simp [children] at h
  | succ fuel ih =>
    intro l s kids kids' hn hs h
    rw [children] at h
    by_cases hslash : (cur l).type = .Slash
    · simp [hslash] at h
    · rw [if_pos hslash] at h
      rcases hr : XmlParse tokens fuel (cur l) s with _ | ⟨_ | node, s1⟩
      · simp only [hr, reduceCtorEq] at h
      · simp only [hr, Option.some.injEq, Prod.mk.injEq, true_and] at h
        obtain ⟨rfl, rfl⟩ := h
        exact ⟨[], l, [], [], s, fuel, rfl, .empty, hslash, by simp, Owns.refl s, hs, hr⟩
      · obtain ⟨ts, hl, hnode⟩ := (reader_sound fuel).1 hn hs hr
        simp only [hr, next_tokens_fst] at h
        obtain ⟨ks, rest, trees, new, s2, fuel', hks, h1, h2, h3, h4, h5⟩ :=
          ih (l := s1.src) (fun t ht => hn t (by rw [hl]; simp [ht])) (by simp) h
        have h4 : Owns s1 s2 (idsOf new) := h4
        refine ⟨ts ++ ks, rest, node.tree :: trees, node :: new, s2, fuel', by rw [hl, hks, List.append_assoc],
          .cons hnode h1, h2, by rw [h3, List.append_assoc]; rfl, ?_, h5⟩
        exact (((reader_owns fuel).1 hr).2 node rfl).trans h4

theorem children_fail (hslash : (cur rest).type ≠ .Slash) (hfail : FailsAt rest) :
    ∀ {fuel : Nat} {ks : List XmlToken} {trees : List Tree} {s : Env (List XmlToken)} {kids kids' : List XmlNode}
      {r : Option Unit}, NulFree ks → Kids ks trees → s.src = (ks ++ rest).tail →
      children tokens fuel (cur (ks ++ rest)) kids s = some (r, kids', s') →
      r = none ∧ ∃ new s1 fuel', kids' = kids ++ new ∧ Owns s s1 (idsOf new) ∧ s1.src = rest.tail ∧
        XmlParse tokens fuel' (cur rest) s1 = some (none, s') := by
  intro fuel
  induction fuel with
  | zero => intro _ _ _ _ _ _ _ _ _ h; simp [children] at h
  | succ fuel ih =>
    intro ks trees s kids kids' r hn hk hs h
    rw [children] at h
    cases hk with
    | empty =>
      rw [List.nil_append] at h hs
      rw [if_pos hslash] at h
      rcases hr : XmlParse tokens fuel (cur rest) s with _ | ⟨r1, s1⟩
      · simp only [hr, reduceCtorEq] at h
      · obtain rfl := hfail fuel s s1 r1 hs hr
        simp only [hr, Option.some.injEq, Prod.mk.injEq] at h
        obtain ⟨rfl, rfl, rfl⟩ := h
        exact ⟨rfl, [], s, fuel, by simp, Owns.refl s, hs, hr⟩
    | @cons ts us tree trees hnode hkids =>
      rw [List.append_assoc] at h hs
      have hne : (cur (ts ++ (us ++ rest))).type ≠ .Slash := by rw [hnode.cur_string]; decide
      rw [if_pos hne] at h
      rcases hr : XmlParse tokens fuel (cur (ts ++ (us ++ rest))) s with _ | ⟨r1, s1⟩
      · simp only [hr, reduceCtorEq] at h
      · obtain ⟨node, rfl, -, hs1⟩ := (reader_complete fuel).1 hn.left hnode hs hr
        simp only [hr, next_tokens_fst, hs1] at h
        obtain ⟨h1, new, s2, fuel', h2, h3, h4, h5⟩ := ih hn.right hkids (by simp [hs1]) h
        have h3 : Owns s1 s2 (idsOf new) := h3
        refine ⟨h1, node :: new, s2, fuel', by rw [h2, List.append_assoc]; rfl, ?_, h4, h5⟩
        exact (((reader_owns fuel).1 hr).2 node rfl).trans h3

/-! ## One call of `XmlParse` -/

theorem Owns.closing {σ : Type} {f : σ → XmlToken × σ} {node : XmlNode} {s s' s2 : Env σ} (h : Owns s s2 node.ids)
    (hend : closeAndOpen f node s2 = (none, s')) : Clean s s' := by
  rcases closeAndOpen_owns hend with ⟨e, -⟩ | ⟨-, s3, hsame, rfl⟩
  · cases e
  · have hown : Owns s s3 node.ids := by simpa using h.trans hsame
    exact hown.delete

theorem Clean.refl {σ : Type} (s : Env σ) : Clean s s := ⟨0, [], rfl, by simp, by simp⟩

theorem Grows.loses {σ : Type} {s s' : Env σ} (h : Grows s.construct.2 s') : Loses s s' := by
  obtain ⟨hle, ids, hd, hids⟩ := h
  exact ⟨hle, ids, hd, fun i hi => hids i hi⟩

/-- The children that were read, as the node holds them. -/
theorem readKids_owns {σ : Type} {f : σ → XmlToken × σ} {kids : List XmlNode} {s s1 s2 : Env σ} {r : Option Unit}
    (hown : Owns s.construct.2 s1 []) (h : readKids f fuel s1 = some (r, kids, s2)) (ty : Text)
    (attrs : List (Text × Text)) :
    ∃ s3, Owns s s3 (XmlNode.mk s.constructed ty attrs kids).ids ∧
      ((r = some () ∧ s2 = s3) ∨ (r = none ∧ ∃ fuel' tok, XmlParse f fuel' tok s3 = some (none, s2))) := by
  obtain ⟨-, new, s3, hkids, hnew, hend⟩ := (reader_owns fuel).2 h
  rw [hkids, List.nil_append]
  exact ⟨s3, (hown.next.next.trans hnew).node ty attrs, hend⟩

theorem readAttrs_tokens {l : List XmlToken} (hs : s.src = l) :
    readAttrs tokens fuel s = attributes tokens fuel (cur l) [] ⟨l.tail, s.constructed + 1, s.deleted⟩ := by
  subst hs
  simp only [readAttrs, next_tokens]
  rfl

theorem readKids_tokens {o : XmlToken} {l : List XmlToken} (hs : s.src = o :: l) :
    readKids tokens fuel s = children tokens fuel (cur l) [] ⟨l.tail, s.constructed, s.deleted⟩ := by
  simp only [readKids, next_tokens, hs, List.tail_cons]

/-- Where the attributes are read, and `Close` and `Open` follow, the children are read next. -/
theorem kids_of_attrs {n token : XmlToken} {attrs : List (Text × Text)} {s1 : Env (List XmlToken)}
    (hn : n.type = .String)
    (hs : s.src = l) (ha : readAttrs tokens fuel s = some (some (token, attrs), s1)) (hclose : token.type = .Close)
    (hopen : (next tokens s1).1.type = .Open) :
    ∃ hd op l', n :: l = hd ++ (op ++ l') ∧ Head hd n.text attrs ∧ Are op [.Close, .Open] ∧
      readKids tokens fuel s1 = children tokens fuel (cur l') [] ⟨l'.tail, s1.constructed, s1.deleted⟩ := by
  rw [readAttrs_tokens hs] at ha
  obtain ⟨hd, l1, hl, hhead, rfl, hs1⟩ := head_sound hn rfl ha
  obtain ⟨close, l2, rfl, hcl⟩ := cons_of_cur hclose (by decide)
  rw [next_tokens_fst, hs1] at hopen
  obtain ⟨op, l3, rfl, hop⟩ := cons_of_cur hopen (by decide)
  exact ⟨hd, [close, op], l3, hl, hhead, .cons hcl (.cons hop .nil), readKids_tokens hs1⟩

/-- The child at which the loop fails. -/
theorem kids_fail {s1 s2 : Env (List XmlToken)} {kids : List XmlNode} (hn : NulFree l) (hs : s1.src = l.tail)
    (h : children tokens fuel (cur l) [] s1 = some (none, kids, s2)) :
    ∃ ks rest trees s3 fuel', l = ks ++ rest ∧ Kids ks trees ∧ (cur rest).type ≠ .Slash ∧
      (¬ ∃ ts us tree, rest = ts ++ us ∧ Node ts tree) ∧ Owns s1 s3 (idsOf kids) ∧ s3.src = rest.tail ∧
      XmlParse tokens fuel' (cur rest) s3 = some (none, s2) := by
  obtain ⟨ks, rest, trees, new, s3, fuel', rfl, hk, hslash, hkids, hown, hs3, hfail⟩ := children_none hn hs h
  refine ⟨ks, rest, trees, s3, fuel', rfl, hk, hslash, ?_, by rw [hkids]; exact hown, hs3, hfail⟩
  intro ⟨ts, us, tree, hrest, hnode⟩
  rw [hrest] at hs3 hfail hn
  obtain ⟨node, e, -⟩ := (reader_complete fuel').1 hn.right.left hnode hs3 hfail
  cases e

/-- Behind a failed call everything made is deleted, but for the two slips. -/
theorem parse_none (hn : NulFree l) (hs : s.src = l.tail) (h : XmlParse tokens fuel (cur l) s = some (none, s')) :
    Clean s s' ∨ LosesNode l := by
  cases fuel with
  | zero => simp [XmlParse] at h
  | succ fuel =>
    cases XmlParse_cases h with
    | noName _ => exact Or.inl (Clean.refl s)
    | noValue hstr ha =>
      obtain ⟨n, l1, rfl, hnt⟩ := cons_of_cur hstr (by decide)
      rw [readAttrs_tokens hs] at ha
      exact Or.inr (.noValue hnt (attributes_cut rfl ha))
    | noEnd _ ha _ _ => exact Or.inl ((readAttrs_owns ha).node _ _).delete
    | short _ ha _ hend => exact Or.inl (((readAttrs_owns ha).node _ _).closing hend)
    | noOpen _ ha _ _ => exact Or.inl ((readAttrs_owns ha).next.node _ _).delete
    | badKid hstr ha hclose hopen hk =>
      obtain ⟨n, l1, rfl, hnt⟩ := cons_of_cur hstr (by decide)
      obtain ⟨hd, op, l2, hl, hhead, hop, hkids⟩ := kids_of_attrs hnt hs ha hclose hopen
      rw [hkids] at hk
      rw [List.tail_cons] at hl
      rw [hl] at hn ⊢
      obtain ⟨ks, rest, trees, s3, fuel', rfl, hks, hslash, hnone, -⟩ := kids_fail hn.right.right rfl hk
      exact Or.inr (.badKid hhead hop hks hslash hnone)
    | badName _ ha _ _ hk =>
      obtain ⟨s3, hown, ⟨-, rfl⟩ | ⟨e, -⟩⟩ := readKids_owns (readAttrs_owns ha) hk (cur l).text _
      · exact Or.inl (hown.next (f := tokens)).delete
      · cases e
    | long _ ha _ _ hk hend =>
      obtain ⟨s3, hown, ⟨-, rfl⟩ | ⟨e, -⟩⟩ := readKids_owns (readAttrs_owns ha) hk (cur l).text _
      · exact Or.inl ((hown.next (f := tokens)).closing hend)
      · cases e

/-- At the two slips the node itself is not deleted. -/
theorem parse_loses {r : Option XmlNode} (hn : NulFree l) (hl : LosesNode l) (hs : s.src = l.tail)
    (h : XmlParse tokens fuel (cur l) s = some (r, s')) : r = none ∧ Loses s s' := by
  cases fuel with
  | zero => simp [XmlParse] at h
  | succ fuel =>
    cases hl with
    | @noValue n l hstr hcut =>
      have hcutting : ∀ {ra s1}, readAttrs tokens fuel s = some (ra, s1) → ra = none := by
        intro ra s1 ha
        rw [readAttrs_tokens hs] at ha
        exact hcut.attributes rfl ha
      cases XmlParse_cases h with
      | noName hne => exact absurd hstr hne
      | noValue _ ha => exact ⟨rfl, (readAttrs_owns ha).grows.loses⟩
      | noEnd _ ha _ _ => cases hcutting ha
      | short _ ha _ _ => cases hcutting ha
      | noOpen _ ha _ _ => cases hcutting ha
      | badKid _ ha _ _ _ => cases hcutting ha
      | badName _ ha _ _ _ => cases hcutting ha
      | long _ ha _ _ _ _ => cases hcutting ha
    | @badKid hd op ks rest n attrs trees hhead hop hks hslash hnone =>
      obtain ⟨close, _, rfl, hcl, hop⟩ := hop.cons_inv
      obtain ⟨open', _, rfl, hop', hop⟩ := hop.cons_inv
      obtain rfl := hop.nil_inv
      rw [List.cons_append, List.cons_append, List.nil_append] at hn hs h
      have hfail : FailsAt rest := failsAt_of_no_node (fun t ht => hn t (by simp [ht])) hnone
      have hreading : ∀ {ra s1}, readAttrs tokens fuel s = some (ra, s1) →
          ra = some (close, attrs) ∧ s1.src = open' :: (ks ++ rest) := by
        intro ra s1 ha
        rw [readAttrs_tokens hs] at ha
        exact head_complete hhead (by simp [hcl]) (by simp [hcl]) rfl ha
      have hfailing : ∀ {s1 s2 rk kids}, s1.src = open' :: (ks ++ rest) →
          readKids tokens fuel s1 = some (rk, kids, s2) → rk = none := by
        intro s1 s2 rk kids hs1 hk
        rw [readKids_tokens hs1] at hk
        exact (children_fail hslash hfail (fun t ht => hn t (by simp [ht])) hks rfl hk).1
      cases XmlParse_cases h with
      | noName hne => exact absurd (hhead.cur_eq _).1 hne
      | noValue _ ha => cases (hreading ha).1
      | noEnd _ ha _ hne =>
        cases (hreading ha).1
        exact absurd hcl hne
      | short _ ha htype _ =>
        cases (hreading ha).1
        rw [hcl] at htype
        cases htype
      | noOpen _ ha _ hne =>
        rw [next_tokens_fst, (hreading ha).2] at hne
        exact absurd hop' hne
      | badKid _ ha _ _ hk => exact ⟨rfl, ((readAttrs_owns ha).grows.trans ((reader_owns fuel).2 hk).1).loses⟩
      | badName _ ha _ _ hk => cases hfailing (hreading ha).2 hk
      | long _ ha _ _ hk _ => cases hfailing (hreading ha).2 hk

/-! ## The root -/

section Root

variable {σ : Type} (f : σ → XmlToken × σ) (fuel : Nat)

/-- `s` behind the first `Open` and the name of the root. -/
def behindName (s : Env σ) : Env σ := { s with src := (next f (next f s).2).2.src }

/-- One constructor for each kind of `return` of `XmlRead`. Only `badKid` deletes the root when a
    child of it has failed. -/
inductive ReadCase (s : Env σ) : Option XmlNode → Env σ → Prop
  | noName {s' s1 : Env σ} {node : XmlNode} : ¬ ((next f s).1.type = .Open ∧ (next f (next f s).2).1.type = .String) →
    Owns s s1 node.ids → s' = s1.delete node → ReadCase s none s'
  | noAttrs {s' s1 s2 : Env σ} {ra : Option (XmlToken × List (Text × Text))} {node : XmlNode} :
    (next f s).1.type = .Open → (next f (next f s).2).1.type = .String → readAttrs f fuel (behindName f s) = some (ra, s1) →
    (∀ token attrs, ra = some (token, attrs) → ¬ (token.type = .Close ∧ (next f s1).1.type = .Open)) →
    Owns s s2 node.ids → s' = s2.delete node → ReadCase s none s'
  | kids {token : XmlToken} {attrs : List (Text × Text)} {kids : List XmlNode} {s' s1 s2 : Env σ} {rk : Option Unit}
    {r : Option XmlNode} : (next f s).1.type = .Open → (next f (next f s).2).1.type = .String →
    readAttrs f fuel (behindName f s) = some (some (token, attrs), s1) → token.type = .Close →
    (next f s1).1.type = .Open → readKids f fuel s1 = some (rk, kids, s2) →
    (r = none → ∃ s3 ty, Owns s2 s3 [] ∧ s' = s3.delete (.mk s.constructed ty attrs kids)) → ReadCase s r s'

variable {f fuel} {s s' : Env σ} {r : Option XmlNode}

theorem XmlRead_cases (h : XmlRead f fuel s = some (r, s')) : ReadCase f fuel s r s' := by
  have hroot : ∀ {s1 : Env σ}, Owns s.construct.2 s1 [] →
      ∀ ty attrs, Owns s s1 (XmlNode.mk s.constructed ty attrs []).ids :=
    fun hown ty attrs => @Owns.node _ _ _ [] hown ty attrs
  unfold XmlRead at h
  simp only at h
  by_cases hopen : (next f s).1.type = .Open
  · have hopen' : (next f s.construct.2).1.type = .Open := hopen
    rw [if_neg (not_not.mpr hopen')] at h
    by_cases hname : (next f (next f s).2).1.type = .String
    · have hname' : (next f (next f s.construct.2).2).1.type = .String := hname
      rw [if_neg (not_not.mpr hname')] at h
      rcases ha : readAttrs f fuel (behindName f s) with _ | ⟨_ | ⟨token, attrs⟩, s1⟩
      · have ha' : attributes f fuel (next f (next f (next f s.construct.2).2).2).1 []
          (next f (next f (next f s.construct.2).2).2).2 = none := ha
        simp only [ha', reduceCtorEq] at h
      · have ha' : attributes f fuel (next f (next f (next f s.construct.2).2).2).1 []
          (next f (next f (next f s.construct.2).2).2).2 = some (none, s1) := ha
        simp only [ha', Option.some.injEq, Prod.mk.injEq] at h
        obtain ⟨rfl, rfl⟩ := h
        have hown : Owns s.construct.2 s1 [] := readAttrs_owns (s := behindName f s) ha
        exact .noAttrs hopen hname ha (fun _ _ e => by cases e) (hroot hown _ _) rfl
      · have ha' : attributes f fuel (next f (next f (next f s.construct.2).2).2).1 []
          (next f (next f (next f s.construct.2).2).2).2 = some (some (token, attrs), s1) := ha
        have hown : Owns s.construct.2 s1 [] := readAttrs_owns (s := behindName f s) ha
        have hown := hroot hown
        simp only [ha'] at h
        by_cases hclose : token.type = .Close
        · rw [if_neg (not_not.mpr hclose)] at h
          by_cases hop : (next f s1).1.type = .Open
          · rw [if_neg (not_not.mpr hop)] at h
            rcases hk : readKids f fuel s1 with _ | ⟨_ | _, kids, s2⟩
            · rw [readKids] at hk
              simp only [hk, reduceCtorEq] at h
            · have hk' := hk
              rw [readKids] at hk'
              simp only [hk', Option.some.injEq, Prod.mk.injEq] at h
              obtain ⟨rfl, rfl⟩ := h
              exact .kids hopen hname ha hclose hop hk fun _ => ⟨s2, _, Owns.refl s2, rfl⟩
            · have hk' := hk
              rw [readKids] at hk'
              simp only [hk'] at h
              refine .kids hopen hname ha hclose hop hk fun hr => ?_
              subst hr
              split_ifs at h
              · exact ⟨(next f s2).2, _, Owns.refl s2, (Prod.mk.inj (Option.some.inj h)).2.symm⟩
              · exact ⟨(next f s2).2, _, Owns.refl s2, (Prod.mk.inj (Option.some.inj h)).2.symm⟩
              · exact ⟨(next f (next f s2).2).2, _, Owns.refl s2, (Prod.mk.inj (Option.some.inj h)).2.symm⟩
              · exact ⟨(next f (next f (next f s2).2).2).2, _, Owns.refl s2, (Prod.mk.inj (Option.some.inj h)).2.symm⟩
              · cases (Prod.mk.inj (Option.some.inj h)).1
          · rw [if_pos hop] at h
            obtain ⟨rfl, rfl⟩ := Prod.mk.inj (Option.some.inj h)
            refine .noAttrs hopen hname ha (fun _ _ e hboth => hop hboth.2) (hown _ _).next rfl
        · rw [if_pos hclose] at h
          obtain ⟨rfl, rfl⟩ := Prod.mk.inj (Option.some.inj h)
          refine .noAttrs hopen hname ha (fun _ _ e hboth => hclose ?_) (hown _ _) rfl
          rw [(Prod.mk.inj (Option.some.inj e)).1]
          exact hboth.1
    · have hname' : (next f (next f s.construct.2).2).1.type ≠ .String := hname
      rw [if_pos hname'] at h
      obtain ⟨rfl, rfl⟩ := Prod.mk.inj (Option.some.inj h)
      exact .noName (fun hboth => hname hboth.2) (hroot (Owns.refl s.construct.2) _ _).next.next rfl
  · have hopen' : (next f s.construct.2).1.type ≠ .Open := hopen
    rw [if_pos hopen'] at h
    obtain ⟨rfl, rfl⟩ := Prod.mk.inj (Option.some.inj h)
    exact .noName (fun hboth => hopen hboth.1) (hroot (Owns.refl s.construct.2) _ _).next rfl

/-- The root is deleted with the children it has; what a failed child deleted comes before. -/
theorem Clean.root {s1 s2 : Env σ} {node : XmlNode} (h : Owns s s1 node.ids) (h' : Clean s1 s2) :
    Clean s (s2.delete node) := by
  obtain ⟨hd, n, hn, hp⟩ := h
  obtain ⟨n', ids, hn', hd', hp'⟩ := h'
  refine ⟨n + n', ids ++ node.ids, by rw [Env.delete, hn']; omega, by rw [Env.delete, hd', hd, List.append_assoc], ?_⟩
  rw [← List.range'_append_1]
  exact List.perm_append_comm.trans (hp.append (hn ▸ hp'))

theorem Loses.root {s1 s2 : Env σ} {node : XmlNode} (h : Owns s s1 node.ids) (h' : Loses s1 s2) :
    ¬ Clean s (s2.delete node) := by
  obtain ⟨hd, n, hn, hp⟩ := h
  obtain ⟨hlt, ids, hd', hids⟩ := h'
  intro ⟨m, all, hm, hall, hperm⟩
  have hsplit : all = ids ++ node.ids := by
    have hcat : s.deleted ++ all = s.deleted ++ (ids ++ node.ids) := by
      rw [← hall, Env.delete, hd', hd, List.append_assoc]
    exact List.append_cancel_left hcat
  have hmem : s1.constructed ∈ all := by
    refine hperm.mem_iff.mpr (List.mem_range'_1.mpr ⟨by omega, ?_⟩)
    rw [← hm]
    exact hlt
  rw [hsplit] at hmem
  rcases List.mem_append.mp hmem with hmem | hmem
  · exact Nat.lt_irrefl _ (hids _ hmem)
  · have := (List.mem_range'_1.mp (hp.mem_iff.mp hmem)).2
    omega

end Root

theorem clean_iff_released (ts : List XmlToken) : Clean ⟨ts, 0, []⟩ s' ↔ Released s' := by
  unfold Clean Released
  constructor
  · intro ⟨n, ids, hn, hd, hp⟩
    simp only [Nat.zero_add, List.nil_append] at hn hd hp
    rw [hn, hd, List.range_eq_range']
    exact hp
  · intro h
    exact ⟨s'.constructed, s'.deleted, by simp, by simp, by rw [← List.range_eq_range']; exact h⟩

theorem LosesNode.cur_string (h : LosesNode l) : (cur l).type = .String := by
  cases h with
  | noValue hn _ => exact hn
  | badKid hhead _ _ _ _ => exact (hhead.cur_eq _).1

theorem LosesNode.failsAt (hn : NulFree l) (h : LosesNode l) : FailsAt l :=
  fun _ _ _ _ hs hr => (parse_loses hn h hs hr).1

theorem behindName_src {o n : XmlToken} (hs : s.src = o :: n :: l) : (behindName tokens s).src = l := by
  simp [behindName, hs]

/-- At a child of the root that loses a node, the root's own reading ends. -/
theorem Leaky.not_clean (hn : NulFree l) (hl : Leaky l) (hs : s.src = l) (h : XmlRead tokens fuel s = some (none, s')) :
    ¬ Clean s s' := by
  obtain ⟨o, hd, op, ks, rest, n, attrs, trees, rfl, ho, hhead, hop, hks, hrest⟩ := hl
  obtain ⟨close, _, rfl, hcl, hop⟩ := hop.cons_inv
  obtain ⟨open', _, rfl, hop', hop⟩ := hop.cons_inv
  obtain rfl := hop.nil_inv
  rw [List.cons_append, List.cons_append, List.nil_append] at hn hs
  have hnrest : NulFree rest := fun t ht => hn t (by simp [ht])
  have hname := (hhead.cur_eq (close :: open' :: (ks ++ rest))).1
  obtain ⟨m, l1, hm, -⟩ := cons_of_cur hname (by decide)
  have hsrc : (behindName tokens s).src = (hd ++ close :: open' :: (ks ++ rest)).tail := by
    rw [hm, List.tail_cons]
    exact behindName_src (by rw [hs, hm])
  have hnames : (next tokens s).1.type = .Open ∧ (next tokens (next tokens s).2).1.type = .String := by
    simp [hs, ho, hname]
  have hreading : ∀ {ra s1}, readAttrs tokens fuel (behindName tokens s) = some (ra, s1) →
      ra = some (close, attrs) ∧ s1.src = open' :: (ks ++ rest) := by
    intro ra s1 ha
    rw [readAttrs_tokens hsrc] at ha
    exact head_complete hhead (by simp [hcl]) (by simp [hcl]) rfl ha
  cases XmlRead_cases h with
  | noName hno _ _ => exact absurd hnames hno
  | noAttrs _ _ ha hno _ _ =>
    obtain ⟨rfl, hs1⟩ := hreading ha
    exact absurd ⟨hcl, by simp [hs1, hop']⟩ (hno close attrs rfl)
  | @kids token attrs' kids _ s1 s2 rk _ _ _ ha _ _ hk hend =>
    obtain ⟨s3, ty, hsame, rfl⟩ := hend rfl
    have hown : Owns s.construct.2 s1 [] := readAttrs_owns (s := behindName tokens s) ha
    rw [readKids_tokens (hreading ha).2] at hk
    have hslash : (cur rest).type ≠ .Slash := by rw [hrest.cur_string]; decide
    obtain ⟨-, new, s4, fuel', hkids, hnew, hs4, hr⟩ :=
      children_fail hslash (hrest.failsAt hnrest) (fun t ht => hn t (by simp [ht])) hks rfl hk
    have hnew : Owns s1 s4 (idsOf new) := hnew
    rw [List.nil_append] at hkids
    have hall := (hown.trans hnew).node ty attrs'
    rw [← hkids] at hall
    have hlost := (parse_loses hnrest hrest hs4 hr).2
    have hgone : Loses s4 s3 := by
      obtain ⟨hdel, k, hcon, hperm⟩ := hsame
      obtain ⟨hlt, ids, hids, hmem⟩ := hlost
      exact ⟨by omega, ids, hdel.trans hids, hmem⟩
    exact Loses.root hall hgone

/-- Every other failure leaves nothing behind. -/
theorem clean_or_leaky (hn : NulFree l) (hs : s.src = l) (h : XmlRead tokens fuel s = some (none, s')) :
    Clean s s' ∨ Leaky l := by
  cases XmlRead_cases h with
  | noName _ hown he =>
    rw [he]
    exact Or.inl hown.delete
  | noAttrs _ _ _ _ hown he =>
    rw [he]
    exact Or.inl hown.delete
  | @kids token attrs kids _ s1 s2 rk _ hopen hname ha hclose hop hk hend =>
    obtain ⟨s3, ty, hsame, rfl⟩ := hend rfl
    have hown : Owns s.construct.2 s1 [] := readAttrs_owns (s := behindName tokens s) ha
    rcases rk with _ | ⟨⟩
    · rw [next_tokens_fst, hs] at hopen
      obtain ⟨o, l1, rfl, ho⟩ := cons_of_cur hopen (by decide)
      rw [next_tokens_fst, next_tokens_src, hs, List.tail_cons] at hname
      obtain ⟨n, l2, rfl, hnt⟩ := cons_of_cur hname (by decide)
      obtain ⟨hd, op, l3, hl, hhead, hare, hkids⟩ := kids_of_attrs hnt (behindName_src hs) ha hclose hop
      rw [hkids] at hk
      rw [hl] at hn ⊢
      have hn3 : NulFree l3 := fun t ht => hn t (by simp [ht])
      obtain ⟨ks, rest, trees, s4, fuel', rfl, hks, hslash, hnone, hnew, hs4, hr⟩ := kids_fail hn3 rfl hk
      have hnew : Owns s1 s4 (idsOf kids) := hnew
      have hall := (hown.trans hnew).node ty attrs
      rcases parse_none hn3.right hs4 hr with hclean | hlost
      · obtain ⟨m, ids, hcon, hdel, hperm⟩ := hclean
        obtain ⟨hdel', k, hcon', hperm'⟩ := hsame
        have hk0 : 0 = k := by simpa using hperm'.length_eq
        refine Or.inl (Clean.root hall ⟨m, ids, by omega, hdel'.trans hdel, hperm⟩)
      · exact Or.inr ⟨o, hd, op, ks, rest, n.text, attrs, trees, rfl, ho, hhead, hare, hks, hlost⟩
    · obtain ⟨s4, hall, ⟨-, rfl⟩ | ⟨e, -⟩⟩ := readKids_owns hown hk ty attrs
      · have hall := hall.trans hsame
        rw [List.append_nil] at hall
        exact Or.inl hall.delete
      · cases e

/-! ## On every list of tokens -/

theorem cText_idem (t : Text) : cText (cText t) = cText t := by simp [cText, List.takeWhile_takeWhile]

theorem sameToken_cToken (t : XmlToken) : SameToken t (cToken t) := ⟨rfl, (cText_idem t.text).symm⟩

theorem map_cToken_nulFree (ts : List XmlToken) : NulFree (ts.map cToken) := by
  intro t ht
  obtain ⟨u, -, rfl⟩ := List.mem_map.mp ht
  exact cText_nulFree u.text

theorem tokens_cToken (ts : List XmlToken) :
    SameToken (tokens ts).1 (tokens (ts.map cToken)).1 ∧ (tokens (ts.map cToken)).2 = (tokens ts).2.map cToken := by
  cases ts with
  | nil => exact ⟨⟨rfl, rfl⟩, rfl⟩
  | cons t ts => exact ⟨sameToken_cToken t, rfl⟩

/-- The bytes behind the zeros are read over: the same nodes are made and deleted. -/
theorem XmlRead_cToken {ts : List XmlToken} {r : Option XmlNode} (h : XmlRead tokens fuel ⟨ts, 0, []⟩ = some (r, s)) :
    ∃ r' s', XmlRead tokens fuel ⟨ts.map cToken, 0, []⟩ = some (r', s') ∧ r'.map XmlNode.ids = r.map XmlNode.ids ∧
      s'.constructed = s.constructed ∧ s'.deleted = s.deleted := by
  have hrun : ∀ l, XmlRead tokens fuel _ = _ := XmlRead_eq fuel ⟨(), 0, []⟩
  simp only [Nodes.at] at hrun
  obtain ⟨hsame, -⟩ := (readTokens_alike fuel ⟨(), 0, []⟩).run (R := fun l l' => l' = l.map cToken) (f := tokens) (g := tokens)
    (fun l l' hl => by rw [hl]; exact tokens_cToken l) (s := ts) rfl
  rw [hrun] at h ⊢
  unfold joined at h ⊢
  rcases ha : ((readTokens fuel ⟨(), 0, []⟩).run tokens ts).1 with _ | ⟨r1, n1⟩
  · simp [ha] at h
  · rcases hb : ((readTokens fuel ⟨(), 0, []⟩).run tokens (ts.map cToken)).1 with _ | ⟨r2, n2⟩
    · rw [ha, hb] at hsame
      exact hsame.elim
    · rw [ha, hb] at hsame
      obtain ⟨hids, rfl⟩ := hsame
      simp only [ha, Option.map_some, Option.some.injEq, Prod.mk.injEq] at h
      obtain ⟨rfl, rfl⟩ := h
      exact ⟨_, _, rfl, hids.symm, rfl, rfl⟩

/-- `XmlRead` returns, and where it returns no node, every node made has been destroyed
    once, exactly when the tokens do not end in the attributes or the children of a node
    below the root. -/
theorem released_iff (ts : List XmlToken) : ∃ F, ∀ fuel ≥ F, ∃ r s, XmlRead tokens fuel ⟨ts, 0, []⟩ = some (r, s) ∧
    (r = none → (Released s ↔ ¬ Leaky (ts.map cToken))) := by
  refine ⟨2 * ts.length + 4, fun fuel hf => ?_⟩
  obtain ⟨r, s, h⟩ := XmlRead_returns tokens_measured ⟨ts, 0, []⟩ hf
  refine ⟨r, s, h, fun hr => ?_⟩
  subst hr
  obtain ⟨r', s', h', hids, hcon, hdel⟩ := XmlRead_cToken h
  obtain rfl : r' = none := by simpa using hids
  have hreleased : Released s ↔ Released s' := by rw [Released, Released, hcon, hdel]
  rw [hreleased, ← clean_iff_released (ts.map cToken)]
  have hn := map_cToken_nulFree ts
  constructor
  · exact fun hclean hleaky => hleaky.not_clean hn rfl h' hclean
  · exact fun hleaky => (clean_or_leaky hn rfl h').resolve_right hleaky

/-- The tokens of `<r><a b=>`. -/
def cutTokens : List XmlToken :=
  [⟨.Open, [0x3C], 1, 1⟩, ⟨.String, [0x72], 1, 2⟩, ⟨.Close, [0x3E], 1, 3⟩, ⟨.Open, [0x3C], 1, 4⟩, ⟨.String, [0x61], 1, 5⟩,
    ⟨.String, [0x62], 1, 7⟩, ⟨.Equals, [0x3D], 1, 8⟩, ⟨.Close, [0x3E], 1, 9⟩]

/-- The node of `a` is made and not deleted. -/
theorem attribute_without_a_value_leaks :
    ¬ ∀ (ts : List XmlToken) (fuel : Nat) (s : Env (List XmlToken)), XmlRead tokens fuel ⟨ts, 0, []⟩ = some (none, s) →
      Released s := by
  intro h
  have hlost : Released (⟨[], 2, [0]⟩ : Env (List XmlToken)) := h cutTokens 10 _ rfl
  have := hlost.length_eq
  simp at this

end Rodvin.Kernel.Xml
