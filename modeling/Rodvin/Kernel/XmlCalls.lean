/-
  Rodvin.Kernel.XmlCalls — which calls of `XmlTok` the XML reader makes
  (`kernel/src/common/Xml.cpp`: `XmlParse`, `XmlRead`).

  `Xml.XmlRead` as a program that asks for its tokens: `readTokens`. It is the same reader
  (`XmlRead_eq`), but the states in which it asks can be listed, for a run that does not
  return as well. `calls` are those of a run on some fuel; more fuel only adds to them.
-/

import Rodvin.Lib.Ask
import Rodvin.Kernel.XmlProofs

namespace Rodvin.Kernel.Xml

open Rodvin.Lib Rodvin.Libc

/-- What a reader leaves behind beside the state of its source. -/
abbrev Nodes := Env Unit

def askAttributes : Nat → XmlToken → List (Text × Text) → Ask XmlToken (Option (Option (XmlToken × List (Text × Text))))
  | 0, _, _ => .done none
  | fuel + 1, token, attrs =>
    if token.type = .String then
      let name := token
      .ask fun token =>
        if token.type = .Equals then
          .ask fun token =>
            if token.type ≠ .String then .done (some none)
            else
              let attrs := Vectormap.insert attrs (name.text, token.text)
              .ask fun token => askAttributes fuel token attrs
        else askAttributes fuel token (Vectormap.insert attrs (name.text, trueText))
    else .done (some (some (token, attrs)))

def askCloseAndOpen (node : XmlNode) (s : Nodes) : Ask XmlToken (Option XmlNode × Nodes) :=
  .ask fun token =>
    if token.type ≠ .Close then .done (none, s.delete node)
    else .ask fun token => if token.type ≠ .Open then .done (none, s.delete node) else .done (some node, s)

mutual

def askParse : Nat → XmlToken → Nodes → Ask XmlToken (Option (Option XmlNode × Nodes))
  | 0, _, _ => .done none
  | fuel + 1, tok, s =>
    if tok.type ≠ .String then .done (some (none, s))
    else
      let node := s.construct
      let s := node.2
      .ask fun token => (askAttributes fuel token []).bind fun r =>
        match r with
        | none => .done none
        | some none => .done (some (none, s))
        | some (some (token, attrs)) =>
          if token.type = .Slash then (askCloseAndOpen (.mk node.1 tok.text attrs []) s).bind fun r => .done (some r)
          else if token.type = .Close then
            .ask fun token =>
              if token.type ≠ .Open then .done (some (none, s.delete (.mk node.1 tok.text attrs [])))
              else
                .ask fun token => (askChildren fuel token [] s).bind fun r =>
                  match r with
                  | none => .done none
                  | some (none, _, s) => .done (some (none, s))
                  | some (some (), kids, s) =>
                    .ask fun token =>
                      if token.type ≠ .String then .done (some (none, s.delete (.mk node.1 tok.text attrs kids)))
                      else if strcmp token.text tok.text ≠ 0 then
                        .done (some (none, s.delete (.mk node.1 tok.text attrs kids)))
                      else (askCloseAndOpen (.mk node.1 tok.text attrs kids) s).bind fun r => .done (some r)
          else .done (some (none, s.delete (.mk node.1 tok.text attrs [])))

def askChildren : Nat → XmlToken → List XmlNode → Nodes → Ask XmlToken (Option (Option Unit × List XmlNode × Nodes))
  | 0, _, _, _ => .done none
  | fuel + 1, token, kids, s =>
    if token.type ≠ .Slash then
      (askParse fuel token s).bind fun r =>
        match r with
        | none => .done none
        | some (none, s) => .done (some (none, kids, s))
        | some (some cnode, s) => .ask fun token => askChildren fuel token (kids ++ [cnode]) s
    else .done (some (some (), kids, s))

end

/-- `XmlRead`, as the questions it puts. -/
def readTokens (fuel : Nat) (s : Nodes) : Ask XmlToken (Option (Option XmlNode × Nodes)) :=
  let node := s.construct
  let s := node.2
  .ask fun token =>
    if token.type ≠ .Open then .done (some (none, s.delete (.mk node.1 [] [] [])))
    else
      .ask fun openName =>
        if openName.type ≠ .String then .done (some (none, s.delete (.mk node.1 [] [] [])))
        else
          .ask fun token => (askAttributes fuel token []).bind fun r =>
            match r with
            | none => .done none
            | some none => .done (some (none, s.delete (.mk node.1 openName.text [] [])))
            | some (some (token, attrs)) =>
              if token.type ≠ .Close then .done (some (none, s.delete (.mk node.1 openName.text attrs [])))
              else
                .ask fun token =>
                  if token.type ≠ .Open then .done (some (none, s.delete (.mk node.1 openName.text attrs [])))
                  else
                    .ask fun token => (askChildren fuel token [] s).bind fun r =>
                      match r with
                      | none => .done none
                      | some (none, kids, s) => .done (some (none, s.delete (.mk node.1 openName.text attrs kids)))
                      | some (some (), kids, s) =>
                        .ask fun token =>
                          if token.type ≠ .String then .done (some (none, s.delete (.mk node.1 openName.text attrs kids)))
                          else if strcmp token.text openName.text ≠ 0 then
                            .done (some (none, s.delete (.mk node.1 openName.text attrs kids)))
                          else
                            .ask fun token =>
                              if token.type ≠ .Close then
                                .done (some (none, s.delete (.mk node.1 openName.text attrs kids)))
                              else
                                .ask fun token =>
                                  if token.type ≠ .EndOfFile then
                                    .done (some (none, s.delete (.mk node.1 openName.text attrs kids)))
                                  else .done (some (some (.mk node.1 openName.text attrs kids), s))

/-! ## The same reader -/

section Same

variable {σ : Type} {XmlTok : σ → XmlToken × σ}

/-- The state of a reader, from its two parts. -/
def Nodes.at (n : Nodes) (s : σ) : Env σ := ⟨s, n.constructed, n.deleted⟩

theorem Nodes.at_construct (n : Nodes) (s : σ) : (n.at s).construct = (n.construct.1, Nodes.at n.construct.2 s) := rfl

theorem next_at (n : Nodes) (s : σ) : next XmlTok (n.at s) = ((XmlTok s).1, n.at (XmlTok s).2) := rfl

theorem attributes_eq (n : Nodes) : ∀ (fuel : Nat) (token : XmlToken) (attrs : List (Text × Text)) (s : σ),
    attributes XmlTok fuel token attrs (n.at s) =
      ((askAttributes fuel token attrs).run XmlTok s).1.map fun r =>
        (r, n.at ((askAttributes fuel token attrs).run XmlTok s).2) := by
  intro fuel
  induction fuel with
  | zero => intro token attrs s; rfl
  | succ fuel ih =>
    intro token attrs s
    unfold attributes askAttributes
    by_cases hstr : token.type = .String
    · simp only [hstr, if_true, next_at, Ask.run_ask]
      by_cases heq : (XmlTok s).1.type = .Equals
      · simp only [heq, if_true, Ask.run_ask]
        by_cases hval : (XmlTok (XmlTok s).2).1.type = .String
        · simp only [hval, ne_eq, not_true_eq_false, if_false, Ask.run_ask]
          exact ih _ _ _
        · simp only [hval, ne_eq, not_false_eq_true, if_true]
          rfl
      · simp only [heq, if_false]
        exact ih _ _ _
    · simp only [hstr, if_false]
      rfl

theorem closeAndOpen_eq (node : XmlNode) (n : Nodes) (s : σ) : closeAndOpen XmlTok node (n.at s) =
    (((askCloseAndOpen node n).run XmlTok s).1.1, Nodes.at ((askCloseAndOpen node n).run XmlTok s).1.2
      ((askCloseAndOpen node n).run XmlTok s).2) := by
  unfold closeAndOpen askCloseAndOpen
  simp only [next_at, Ask.run_ask]
  by_cases hclose : (XmlTok s).1.type = .Close
  · simp only [hclose, ne_eq, not_true_eq_false, if_false, Ask.run_ask]
    by_cases hopen : (XmlTok (XmlTok s).2).1.type = .Open
    · simp only [hopen, not_true_eq_false, if_false]
      rfl
    · simp only [hopen, not_false_eq_true, if_true]
      rfl
  · simp only [hclose, ne_eq, not_false_eq_true, if_true]
    rfl

/-- A result of the program, with the state of the source. -/
def joined {α : Type} (r : Option (α × Nodes) × σ) : Option (α × Env σ) := r.1.map fun x => (x.1, x.2.at r.2)

theorem joined_ite {α : Type} {c : Prop} [Decidable c] {x y : Option (α × Env σ)}
    {p q : Ask XmlToken (Option (α × Nodes))}
    {s : σ} (hp : x = joined (p.run XmlTok s)) (hq : y = joined (q.run XmlTok s)) :
    (if c then x else y) = joined ((if c then p else q).run XmlTok s) := by
  by_cases hc : c
  · rw [if_pos hc, if_pos hc, hp]
  · rw [if_neg hc, if_neg hc, hq]

def ParseSame (XmlTok : σ → XmlToken × σ) (fuel : Nat) : Prop :=
  ∀ (tok : XmlToken) (n : Nodes) (s : σ), XmlParse XmlTok fuel tok (n.at s) = joined ((askParse fuel tok n).run XmlTok s)

def ChildrenSame (XmlTok : σ → XmlToken × σ) (fuel : Nat) : Prop :=
  ∀ (token : XmlToken) (kids : List XmlNode) (n : Nodes) (s : σ), children XmlTok fuel token kids (n.at s) =
    ((askChildren fuel token kids n).run XmlTok s).1.map fun r =>
      (r.1, r.2.1, r.2.2.at ((askChildren fuel token kids n).run XmlTok s).2)

theorem children_same_succ {fuel : Nat} (hp : ParseSame XmlTok fuel) (hc : ChildrenSame XmlTok fuel) :
    ChildrenSame XmlTok (fuel + 1) := by
  intro token kids n s
  rw [children, askChildren]
  by_cases hslash : token.type = .Slash
  · simp only [hslash, ne_eq, not_true_eq_false, if_false]
    rfl
  · simp only [hslash, ne_eq, not_false_eq_true, if_true, hp token n s, Ask.run_bind, joined]
    rcases (askParse fuel token n).run XmlTok s with ⟨_ | ⟨_ | cnode, n'⟩, s'⟩
    · rfl
    · rfl
    · exact hc _ _ _ _

theorem parse_same_succ {fuel : Nat} (hc : ChildrenSame XmlTok fuel) : ParseSame XmlTok (fuel + 1) := by
  intro tok n s
  rw [XmlParse, askParse]
  by_cases hstr : tok.type = .String
  · simp only [hstr, ne_eq, not_true_eq_false, if_false, Nodes.at_construct, next_at, attributes_eq, Ask.run_ask,
      Ask.run_bind]
    rcases (askAttributes fuel (XmlTok s).1 []).run XmlTok (XmlTok s).2 with ⟨_ | _ | ⟨token, attrs⟩, s1⟩
    · rfl
    · rfl
    · simp only [Option.map_some]
      by_cases hslash : token.type = .Slash
      · simp only [hslash, if_true, closeAndOpen_eq, Ask.run_bind]
        rfl
      · by_cases hclose : token.type = .Close
        · simp only [hclose, reduceCtorEq, if_false, if_true, next_at, Ask.run_ask]
          by_cases hopen : (XmlTok s1).1.type = .Open
          · simp only [hopen, not_true_eq_false, if_false, hc _ _ _ _, Ask.run_ask, Ask.run_bind]
            rcases (askChildren fuel (XmlTok (XmlTok s1).2).1 [] n.construct.2).run XmlTok (XmlTok (XmlTok s1).2).2 with
              ⟨_ | ⟨_ | _, kids, n2⟩, s2⟩
            · rfl
            · rfl
            · simp only [Option.map_some, next_at, Ask.run_ask]
              refine joined_ite rfl (joined_ite rfl ?_)
              simp only [closeAndOpen_eq, Ask.run_bind]
              rfl
          · simp only [hopen, not_false_eq_true, if_true]
            rfl
        · simp only [hslash, hclose, if_false]
          rfl
  · simp only [hstr, ne_eq, not_false_eq_true, if_true]
    rfl

theorem reader_same : ∀ fuel, ParseSame XmlTok fuel ∧ ChildrenSame XmlTok fuel := by
  intro fuel
  induction fuel with
  | zero => exact ⟨fun _ _ _ => rfl, fun _ _ _ _ => rfl⟩
  | succ fuel ih => exact ⟨parse_same_succ ih.2, children_same_succ ih.1 ih.2⟩

/-- `XmlRead` is the run of the program, from every source. -/
theorem XmlRead_eq (fuel : Nat) (n : Nodes) (s : σ) :
    XmlRead XmlTok fuel (n.at s) = joined ((readTokens fuel n).run XmlTok s) := by
  unfold XmlRead readTokens
  simp only [Nodes.at_construct, next_at, Ask.run_ask]
  refine joined_ite rfl ?_
  simp only [Ask.run_ask]
  refine joined_ite rfl ?_
  simp only [attributes_eq, Ask.run_ask, Ask.run_bind]
  generalize (askAttributes fuel _ []).run XmlTok _ = r
  rcases r with ⟨_ | _ | ⟨token, attrs⟩, s1⟩
  · rfl
  · rfl
  · simp only [Option.map_some]
    refine joined_ite rfl ?_
    simp only [next_at, Ask.run_ask]
    refine joined_ite rfl ?_
    simp only [(reader_same fuel).2 _ _ _ _, Ask.run_ask, Ask.run_bind]
    generalize (askChildren fuel _ [] n.construct.2).run XmlTok _ = r
    rcases r with ⟨_ | ⟨_ | _, kids, n2⟩, s2⟩
    · rfl
    · rfl
    · simp only [Option.map_some, next_at, Ask.run_ask]
      refine joined_ite rfl (joined_ite rfl ?_)
      simp only [Ask.run_ask]
      refine joined_ite rfl ?_
      simp only [Ask.run_ask]
      exact joined_ite rfl rfl

/-- The states in which `XmlRead` calls `XmlTok`, from `s` on. -/
def calls (XmlTok : σ → XmlToken × σ) (fuel : Nat) (s : σ) : List σ := (readTokens fuel ⟨(), 0, []⟩).asked XmlTok s

/-- What every call keeps, holds in front of every call. -/
theorem calls_invariant (I : σ → Prop) {fuel : Nat} {s : σ} (h0 : I s)
    (hstep : ∀ u ∈ calls XmlTok fuel s, I u → I (XmlTok u).2) : ∀ t ∈ calls XmlTok fuel s, I t :=
  Ask.asked_invariant h0 hstep

/-- Sources that agree where `XmlRead` calls them are read alike. -/
theorem XmlRead_congr {f g : σ → XmlToken × σ} {fuel : Nat} {s : σ} (hfg : ∀ u ∈ calls f fuel s, f u = g u) :
    XmlRead f fuel ⟨s, 0, []⟩ = XmlRead g fuel ⟨s, 0, []⟩ := by
  have hf : XmlRead f fuel _ = joined ((readTokens fuel _).run f s) := XmlRead_eq fuel ⟨(), 0, []⟩ s
  have hg : XmlRead g fuel _ = joined ((readTokens fuel _).run g s) := XmlRead_eq fuel ⟨(), 0, []⟩ s
  rw [Ask.run_congr hfg] at hf
  exact hf.trans hg.symm

end Same

end Rodvin.Kernel.Xml
