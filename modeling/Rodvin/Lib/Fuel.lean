/-
  Rodvin.Lib.Fuel — computations that wait.

  A computation on a state that may wait is a family: `f n` gives up after `n` turns of a
  loop. `Ends` says that it returns once there is fuel enough, always with one result;
  `Hangs`, that it never does. Both compose along `bind` (`Ends.bind`, `Ends.hangs`,
  `Hangs.bind`) and exclude each other (`Ends.not_hangs`). A loop ends when a turn stops it
  (`Ends.stop`) or goes on to where it ends (`Ends.turn`), and hangs where every turn keeps
  an invariant (`Hangs.of_invariant`). Without a state, `Settles` compares a family with the
  result it should have.
-/

import Rodvin.Lib.Checked

namespace Rodvin.Lib

variable {σ α β : Type}

/-- From `s` it returns `a` and leaves `t`, with some number of turns or more; with fewer it
    gives up. -/
def Ends (f : Nat → StateT σ Checked α) (s : σ) (a : α) (t : σ) : Prop :=
  ∃ n, ∀ fuel, f fuel s = if n ≤ fuel then .ok (a, t) else .error .noReturn

def Hangs (f : Nat → StateT σ Checked α) (s : σ) : Prop := ∀ fuel, f fuel s = .error .noReturn

variable {f : Nat → StateT σ Checked α} {g : α → Nat → StateT σ Checked β} {s t u : σ} {a : α} {b : β}

/-! ## One after the other -/

theorem state_bind_ok {x : StateT σ Checked α} {k : α → StateT σ Checked β} (h : x s = .ok (a, t)) :
    (x >>= k) s = k a t := by
  show (x s >>= fun p => k p.1 p.2) = _
  rw [h]
  rfl

theorem state_bind_error {x : StateT σ Checked α} {k : α → StateT σ Checked β} {e : Stop} (h : x s = .error e) :
    (x >>= k) s = .error e := by
  show (x s >>= fun p => k p.1 p.2) = _
  rw [h]
  rfl

theorem Ends.of_eq {x : StateT σ Checked α} (h : x s = .ok (a, t)) : Ends (fun _ => x) s a t :=
  ⟨0, fun fuel => by rw [if_pos (Nat.zero_le fuel)]; exact h⟩

theorem Ends.bind (hf : Ends f s a t) (hg : Ends (g a) t b u) : Ends (fun n => f n >>= fun a => g a n) s b u := by
  obtain ⟨n, hn⟩ := hf
  obtain ⟨m, hm⟩ := hg
  refine ⟨max n m, fun fuel => ?_⟩
  show (f fuel >>= fun a => g a fuel) s = _
  by_cases h : n ≤ fuel
  · rw [state_bind_ok ((hn fuel).trans (if_pos h)), hm]
    exact if_congr (by omega) rfl rfl
  · rw [state_bind_error ((hn fuel).trans (if_neg h)), if_neg (by omega)]

theorem Ends.hangs (hf : Ends f s a t) (hg : Hangs (g a) t) : Hangs (fun n => f n >>= fun a => g a n) s := by
  obtain ⟨n, hn⟩ := hf
  intro fuel
  by_cases h : n ≤ fuel
  · exact (state_bind_ok ((hn fuel).trans (if_pos h))).trans (hg fuel)
  · exact state_bind_error ((hn fuel).trans (if_neg h))

theorem Hangs.bind (hf : Hangs f s) : Hangs (fun n => f n >>= fun a => g a n) s :=
  fun fuel => state_bind_error (hf fuel)

/-! ## What a computation does -/

theorem Ends.returns (h : Ends f s a t) : ∃ fuel, f fuel s = .ok (a, t) := by
  obtain ⟨n, hn⟩ := h
  exact ⟨n, (hn n).trans (if_pos (Nat.le_refl n))⟩

/-- It returns nothing else, whatever the fuel. -/
theorem Ends.unique (h : Ends f s a t) {fuel : Nat} {p : α × σ} (hp : f fuel s = .ok p) : p = (a, t) := by
  obtain ⟨n, hn⟩ := h
  rw [hn] at hp
  split at hp
  · exact (Except.ok.inj hp).symm
  · cases hp

theorem Ends.not_hangs (h : Ends f s a t) : ¬ Hangs f s := by
  intro hh
  obtain ⟨fuel, he⟩ := h.returns
  rw [hh fuel] at he
  cases he

/-! ## Loops -/

theorem Ends.stop (h0 : f 0 s = .error .noReturn) (hs : ∀ fuel, f (fuel + 1) s = .ok (a, t)) : Ends f s a t := by
  refine ⟨1, fun fuel => ?_⟩
  cases fuel with
  | zero => exact h0
  | succ fuel => exact (hs fuel).trans (if_pos (by omega)).symm

theorem Ends.turn (h0 : f 0 s = .error .noReturn) (hs : ∀ fuel, f (fuel + 1) s = f fuel t) (h : Ends f t a u) :
    Ends f s a u := by
  obtain ⟨n, hn⟩ := h
  refine ⟨n + 1, fun fuel => ?_⟩
  cases fuel with
  | zero => exact h0
  | succ fuel =>
    rw [hs, hn]
    exact if_congr (by omega) rfl rfl

theorem Hangs.of_invariant {I : σ → Prop} (h0 : ∀ s, I s → f 0 s = .error .noReturn)
    (hs : ∀ fuel s, I s → ∃ t, I t ∧ f (fuel + 1) s = f fuel t) (h : I s) : Hangs f s := by
  intro fuel
  induction fuel generalizing s with
  | zero => exact h0 s h
  | succ fuel ih =>
    obtain ⟨t, ht, he⟩ := hs fuel s h
    exact he.trans (ih ht)

/-! ## Families with a result -/

/-- With turns enough `f` gives what `c` does, and it never gives anything else. -/
structure Settles (f : Nat → Checked α) (c : Checked α) : Prop where
  gives : ∀ a, c = .ok a → ∃ n, ∀ k ≥ n, f k = .ok a
  only : ∀ k a, f k = .ok a → c = .ok a

section Settles

variable {f : Nat → Checked α} {g : α → Nat → Checked β} {c : Checked α} {d : α → Checked β}

theorem Settles.const (c : Checked α) : Settles (fun _ => c) c := ⟨fun _ h => ⟨0, fun _ _ => h⟩, fun _ _ h => h⟩

/-- The first turn can be left out. -/
theorem Settles.succ (h0 : ∀ a, f 0 ≠ .ok a) (h : Settles (fun k => f (k + 1)) c) : Settles f c := by
  refine ⟨fun a ha => ?_, fun k a hk => ?_⟩
  · obtain ⟨n, hn⟩ := h.gives a ha
    refine ⟨n + 1, fun k hk => ?_⟩
    obtain ⟨j, rfl⟩ := Nat.exists_eq_add_of_le hk
    have := hn (n + j) (Nat.le_add_right n j)
    rwa [show n + j + 1 = n + 1 + j by omega] at this
  · cases k with
    | zero => exact absurd hk (h0 a)
    | succ k => exact h.only k a hk

theorem Settles.bind (hf : Settles f c) (hg : ∀ a, c = .ok a → Settles (g a) (d a)) :
    Settles (fun n => f n >>= fun a => g a n) (c >>= d) := by
  refine ⟨fun b hb => ?_, fun k b hb => ?_⟩
  · obtain ⟨a, ha, hb⟩ := bind_eq_ok.mp hb
    obtain ⟨n, hn⟩ := hf.gives a ha
    obtain ⟨m, hm⟩ := (hg a ha).gives b hb
    refine ⟨max n m, fun k hk => ?_⟩
    rw [ok_bind (hn k (by omega))]
    exact hm k (by omega)
  · obtain ⟨a, ha, hb⟩ := bind_eq_ok.mp hb
    have hc := hf.only k a ha
    exact bind_eq_ok.mpr ⟨a, hc, (hg a hc).only k b hb⟩

end Settles

end Rodvin.Lib
