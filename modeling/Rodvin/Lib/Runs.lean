/-
  Rodvin.Lib.Runs — finite runs of a labelled transition relation.

  `Run step s as t`: the labels `as`, taken in order, lead from `s` to `t`. The
  state after every prefix of the labels is the end of a run of its own
  (`Run.split`), so a fact about the end of every run is a fact about every state
  reached. What one step preserves, a run preserves (`Run.invariant`); a run under a
  stronger step relation is a run under a weaker one (`Run.mono`). Runs of a partial
  function under a decidable condition can be computed (`run_of_foldlM`).
-/

namespace Rodvin.Lib

variable {σ α : Type}

inductive Run (step : σ → α → σ → Prop) : σ → List α → σ → Prop
  | nil (s : σ) : Run step s [] s
  | cons {s t u : σ} {a : α} {as : List α} : step s a t → Run step t as u → Run step s (a :: as) u

variable {step step' : σ → α → σ → Prop} {s t u : σ} {a : α} {as bs : List α}

theorem Run.single (h : step s a t) : Run step s [a] t := .cons h (.nil t)

theorem Run.append (h : Run step s as t) (h' : Run step t bs u) : Run step s (as ++ bs) u := by
  induction h with
  | nil => exact h'
  | cons hs _ ih => exact .cons hs (ih h')

theorem Run.split (h : Run step s (as ++ bs) u) : ∃ t, Run step s as t ∧ Run step t bs u := by
  induction as generalizing s with
  | nil => exact ⟨s, .nil s, h⟩
  | cons a as ih =>
    cases h with
    | cons hs h =>
      obtain ⟨t, h1, h2⟩ := ih h
      exact ⟨t, .cons hs h1, h2⟩

/-- A run that is not empty has a last step. -/
theorem Run.last (h : Run step s as u) (hne : as ≠ []) : ∃ bs a t, as = bs ++ [a] ∧ Run step s bs t ∧ step t a u := by
  obtain ⟨bs, a, rfl⟩ := (List.eq_nil_or_concat as).resolve_left hne
  rw [List.concat_eq_append] at h ⊢
  obtain ⟨t, h1, h2⟩ := h.split
  cases h2 with
  | cons hs h2 =>
    cases h2
    exact ⟨bs, a, t, rfl, h1, hs⟩

theorem Run.mono (hm : ∀ s a t, step s a t → step' s a t) (h : Run step s as t) : Run step' s as t := by
  induction h with
  | nil => exact .nil _
  | cons hs _ ih => exact .cons (hm _ _ _ hs) ih

/-- What every step preserves, every run preserves. -/
theorem Run.invariant {I : σ → Prop} (hstep : ∀ s a t, I s → step s a t → I t) (h : Run step s as t) (h0 : I s) :
    I t := by
  induction h with
  | nil => exact h0
  | cons hs _ ih => exact ih (hstep _ _ _ h0 hs)

/-- `f`, refused where `ok` fails. -/
def guarded (ok : σ → α → Prop) [∀ s a, Decidable (ok s a)] (f : σ → α → Option σ) (s : σ) (a : α) : Option σ :=
  if ok s a then f s a else none

theorem guarded_eq_some {ok : σ → α → Prop} [∀ s a, Decidable (ok s a)] {f : σ → α → Option σ} :
    guarded ok f s a = some t ↔ ok s a ∧ f s a = some t := by
  unfold guarded
  split <;> simp [*]

theorem run_of_foldlM (step : σ → α → σ → Prop) {f : σ → α → Option σ} (hf : ∀ s a t, f s a = some t → step s a t) :
    ∀ (as : List α) (s : σ), as.foldlM f s = some t → Run step s as t := by
  intro as
  induction as with
  | nil => intro s h; exact (Option.some.inj h) ▸ .nil s
  | cons a as ih =>
    intro s h
    rw [List.foldlM_cons, Option.bind_eq_bind, Option.bind_eq_some_iff] at h
    obtain ⟨u, hu, h⟩ := h
    exact .cons (hf _ _ _ hu) (ih u h)

end Rodvin.Lib
