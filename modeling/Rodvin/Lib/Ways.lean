/-
  Rodvin.Lib.Ways — the ways through a graph that a recursion without memory takes.

  `out a` are the edges out of `a`, `dest d` is where edge `d` leads. A recursion that goes
  along every edge and remembers nothing is at a node once for each way there, where a way
  is the list of its edges (`IsWay`, `stop`). `ways n a` lists the ways of fewer than `n`
  edges, each once (`mem_ways`, `nodup_ways`); what is found along them is found twice
  exactly when two ways find something in common (`nodup_found_iff`).
-/

import Mathlib.Data.List.Nodup
import Mathlib.Data.List.Pairwise
import Mathlib.Logic.Relation

namespace Rodvin.Lib.Ways

open Relation

variable {α δ φ : Type} (out : α → List δ) (dest : δ → α)

def IsWay : α → List δ → Prop
  | _, [] => True
  | a, d :: ds => d ∈ out a ∧ IsWay (dest d) ds

/-- Where a way ends. -/
def stop : α → List δ → α
  | a, [] => a
  | _, d :: ds => stop (dest d) ds

def Leads (a b : α) : Prop := ∃ d ∈ out a, dest d = b

def ways : Nat → α → List (List δ)
  | 0, _ => []
  | n + 1, a => [] :: (out a).flatMap fun d => (ways n (dest d)).map fun ds => d :: ds

variable {out dest} {a b : α} {n : Nat} {ds es : List δ} {d : δ}

theorem mem_ways : ds ∈ ways out dest n a ↔ IsWay out dest a ds ∧ ds.length < n := by
  induction n generalizing a ds with
  | zero => simp [ways]
  | succ n ih =>
    unfold ways
    cases ds with
    | nil => simp [IsWay]
    | cons d ds => simp [IsWay, ih, and_assoc]

theorem nodup_ways (hout : ∀ a, (out a).Nodup) (n : Nat) (a : α) : (ways out dest n a).Nodup := by
  induction n generalizing a with
  | zero => exact List.nodup_nil
  | succ n ih =>
    refine List.nodup_cons.mpr ⟨by simp, List.nodup_flatMap.mpr ⟨fun d _ => ?_, ?_⟩⟩
    · exact (ih (dest d)).map (List.cons_injective)
    · refine (hout a).imp fun {d e} hne => ?_
      intro ds h h'
      obtain ⟨_, -, rfl⟩ := List.mem_map.mp h
      obtain ⟨_, -, he⟩ := List.mem_map.mp h'
      exact hne (List.cons.inj he).1.symm

theorem reaches_iff : ReflTransGen (Leads out dest) a b ↔ ∃ ds, IsWay out dest a ds ∧ stop dest a ds = b := by
  constructor
  · intro h
    induction h using ReflTransGen.head_induction_on with
    | refl => exact ⟨[], trivial, rfl⟩
    | head hstep _ ih =>
      obtain ⟨d, hd, rfl⟩ := hstep
      obtain ⟨ds, hds, he⟩ := ih
      exact ⟨d :: ds, ⟨hd, hds⟩, he⟩
  · intro ⟨ds, hds, he⟩
    induction ds generalizing a with
    | nil => exact he ▸ .refl
    | cons d ds ih => exact .head ⟨d, hds.1, rfl⟩ (ih hds.2 he)

/-- Where a visit of node `b` finds `find b`, and no two nodes have a find in common. -/
theorem nodup_found_iff {find : α → List φ} (hout : ∀ a, (out a).Nodup) (hfind : ∀ a, (find a).Nodup)
    (hsep : ∀ {a b x}, x ∈ find a → x ∈ find b → a = b) :
    ((ways out dest n a).flatMap fun ds => find (stop dest a ds)).Nodup ↔
      ∀ ds ∈ ways out dest n a, ∀ es ∈ ways out dest n a, stop dest a ds = stop dest a es →
        find (stop dest a ds) ≠ [] → ds = es := by
  rw [List.nodup_flatMap]
  constructor
  · intro ⟨_, h⟩ ds hds es hes he hne
    by_contra hdiff
    have : Std.Symm (Function.onFun List.Disjoint fun ds => find (stop dest a ds)) := ⟨fun _ _ h _ hx hx' => h hx' hx⟩
    obtain ⟨x, hx⟩ := List.exists_mem_of_ne_nil _ hne
    have hx' : x ∈ find (stop dest a es) := he ▸ hx
    exact h.forall hds hes hdiff hx hx'
  · intro h
    refine ⟨fun ds _ => hfind _, (nodup_ways hout n a).pairwise_of_forall_ne fun ds hds es hes hdiff x hx hx' => ?_⟩
    exact hdiff (h ds hds es hes (hsep hx hx') (List.ne_nil_of_mem hx))

end Rodvin.Lib.Ways
