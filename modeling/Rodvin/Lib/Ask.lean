/-
  Rodvin.Lib.Ask — programs that ask for answers, one after the other.

  `run f p s` answers every question of `p` by the source `f`, from its state `s` on;
  `asked f p s` are the states in which a question was put, also where the program only
  stopped because its fuel was out. So what is said of `asked` is said of every call
  that a reader makes of its source, whether the reader returns or not.
  - `asked_invariant`: what every answer keeps, holds wherever a question is put.
  - `run_congr`: sources that agree where they are asked give the same run.
  - `asked_prefix`: up to the first question on which two sources differ, the runs agree.
  - `Alike.run`: programs that go on alike on alike answers end alike.
-/

import Mathlib.Data.List.Basic

namespace Rodvin.Lib

inductive Ask (τ α : Type) where
  | done (a : α)
  | ask (k : τ → Ask τ α)

namespace Ask

variable {σ τ α β : Type}

def bind : Ask τ α → (α → Ask τ β) → Ask τ β
  | done a, q => q a
  | ask k, q => ask fun t => (k t).bind q

def run (f : σ → τ × σ) : Ask τ α → σ → α × σ
  | done a, s => (a, s)
  | ask k, s => run f (k (f s).1) (f s).2

def asked (f : σ → τ × σ) : Ask τ α → σ → List σ
  | done _, _ => []
  | ask k, s => s :: asked f (k (f s).1) (f s).2

variable {f g : σ → τ × σ} {p : Ask τ α} {q : α → Ask τ β} {s t : σ}

@[simp] theorem run_done (a : α) : run f (done a) s = (a, s) := rfl

@[simp] theorem run_ask (k : τ → Ask τ α) : run f (ask k) s = run f (k (f s).1) (f s).2 := rfl

@[simp] theorem asked_done (a : α) : asked f (done a) s = [] := rfl

@[simp] theorem asked_ask (k : τ → Ask τ α) : asked f (ask k) s = s :: asked f (k (f s).1) (f s).2 := rfl

@[simp] theorem run_bind : run f (p.bind q) s = run f (q (run f p s).1) (run f p s).2 := by
  induction p generalizing s with
  | done a => rfl
  | ask k ih => exact ih _

/-- What every answer keeps, holds wherever a question is put. -/
theorem asked_invariant {I : σ → Prop} (h0 : I s) (hstep : ∀ u ∈ asked f p s, I u → I (f u).2) :
    ∀ t ∈ asked f p s, I t := by
  induction p generalizing s with
  | done a => exact fun t ht => absurd ht List.not_mem_nil
  | ask k ih =>
    intro t ht
    rcases List.mem_cons.mp ht with rfl | ht
    · exact h0
    · have h1 : I (f s).2 := hstep s List.mem_cons_self h0
      exact ih (f s).1 h1 (fun u hu => hstep u (List.mem_cons_of_mem s hu)) t ht

/-- Up to the first question on which two sources differ, the runs agree. -/
theorem asked_prefix {us vs : List σ} (h : asked f p s = us ++ t :: vs) (hfg : ∀ u ∈ us, f u = g u) :
    ∃ ws, asked g p s = us ++ t :: ws := by
  induction p generalizing s us with
  | done a => simp at h
  | ask k ih =>
    cases us with
    | nil =>
      obtain rfl : s = t := (List.cons.inj h).1
      exact ⟨_, rfl⟩
    | cons u us =>
      obtain ⟨rfl, hrest⟩ := List.cons.inj h
      have he : f s = g s := hfg s List.mem_cons_self
      obtain ⟨ws, hw⟩ := ih (f s).1 hrest (fun v hv => hfg v (List.mem_cons_of_mem s hv))
      refine ⟨ws, ?_⟩
      rw [asked_ask, ← he, hw]
      rfl

/-- Where every answer keeps or raises `m`, the answers before a question are not above it. -/
theorem asked_between (m : σ → Nat) (hm : ∀ s, m s ≤ m (f s).2) {us vs : List σ} (h : asked f p s = us ++ t :: vs) :
    ∀ u ∈ us, m (f u).2 ≤ m t := by
  have hle : ∀ {p : Ask τ α} {s : σ}, ∀ t ∈ asked f p s, m s ≤ m t := by
    intro p s
    exact asked_invariant (Nat.le_refl _) fun u _ hu => Nat.le_trans hu (hm u)
  induction p generalizing s us with
  | done a => simp at h
  | ask k ih =>
    intro u hu
    cases us with
    | nil => cases hu
    | cons v us =>
      obtain ⟨rfl, hrest⟩ := List.cons.inj h
      rcases List.mem_cons.mp hu with rfl | hu
      · exact hle t (by rw [hrest]; simp)
      · exact ih (f s).1 hrest u hu

/-- Sources that agree where they are asked give the same run. -/
theorem run_congr (hfg : ∀ u ∈ asked f p s, f u = g u) : run f p s = run g p s := by
  induction p generalizing s with
  | done a => rfl
  | ask k ih =>
    have he : f s = g s := hfg s List.mem_cons_self
    rw [run_ask, run_ask, ← he]
    exact ih (f s).1 fun u hu => hfg u (List.mem_cons_of_mem s hu)

/-! ## Programs that go on alike -/

/-- On answers related by `T`, the programs go on alike; in the end `P` holds. -/
inductive Alike {τ' β : Type} (T : τ → τ' → Prop) (P : α → β → Prop) : Ask τ α → Ask τ' β → Prop
  | done {a : α} {b : β} : P a b → Alike T P (done a) (done b)
  | ask {k : τ → Ask τ α} {k' : τ' → Ask τ' β} : (∀ t t', T t t' → Alike T P (k t) (k' t')) → Alike T P (ask k) (ask k')

section Alike

variable {τ' ρ α' β' : Type} {T : τ → τ' → Prop} {P : α → α' → Prop} {Q : β → β' → Prop} {p' : Ask τ' α'}

theorem Alike.bind {r : α → Ask τ β} {r' : α' → Ask τ' β'} (h : Alike T P p p')
    (hr : ∀ a a', P a a' → Alike T Q (r a) (r' a')) : Alike T Q (p.bind r) (p'.bind r') := by
  induction h with
  | done hp => exact hr _ _ hp
  | ask _ ih => exact .ask ih

theorem Alike.ite {c c' : Prop} [Decidable c] [Decidable c'] {r : Ask τ α} {r' : Ask τ' α'} (hc : c ↔ c')
    (hp : Alike T P p p') (hr : Alike T P r r') : Alike T P (if c then p else r) (if c' then p' else r') := by
  by_cases h : c
  · rw [if_pos h, if_pos (hc.mp h)]
    exact hp
  · rw [if_neg h, if_neg fun h' => h (hc.mpr h')]
    exact hr

/-- On sources whose answers are related, the results are. -/
theorem Alike.run {R : σ → ρ → Prop} {g : ρ → τ' × ρ} (h : Alike T P p p')
    (hstep : ∀ s u, R s u → T (f s).1 (g u).1 ∧ R (f s).2 (g u).2) :
    ∀ {s : σ} {u : ρ}, R s u → P (run f p s).1 (run g p' u).1 ∧ R (run f p s).2 (run g p' u).2 := by
  induction h with
  | done hp => exact fun hs => ⟨hp, hs⟩
  | ask _ ih =>
    intro s u hs
    obtain ⟨ht, hs'⟩ := hstep s u hs
    exact ih _ _ ht hs'

end Alike

end Ask

end Rodvin.Lib
