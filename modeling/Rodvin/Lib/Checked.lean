/-
  Rodvin.Lib.Checked — computations on buffers whose accesses are checked.

  A computation ends with a value, faults (an access outside a buffer) or does not
  return. `Safe m Q`: `m` does not fault, and if it returns, its value satisfies `Q`.
  The rules compose as pre- and postconditions do (`Safe.bind`, `Safe.mono`); an access
  inside a buffer is safe (`safe_read`, `safe_write`).
-/

import Mathlib.Data.List.Basic

namespace Rodvin.Lib

inductive Stop where
  | fault
  | noReturn
  deriving DecidableEq, Repr

abbrev Checked (α : Type) := Except Stop α

def fault {α : Type} : Checked α := .error .fault

variable {α β : Type}

def Safe (m : Checked α) (Q : α → Prop) : Prop :=
  match m with
  | .ok a => Q a
  | .error .fault => False
  | .error .noReturn => True

variable {m : Checked α} {P Q : α → Prop} {R : β → Prop}

theorem safe_iff : Safe m Q ↔ m ≠ .error .fault ∧ ∀ a, m = .ok a → Q a := by
  rcases m with (_ | _) | a
  · simp [Safe]
  · simp [Safe]
  · simp [Safe]

theorem Safe.pure {a : α} (h : Q a) : Safe (Pure.pure a : Checked α) Q := h

theorem Safe.noReturn : Safe (.error .noReturn : Checked α) Q := trivial

theorem Safe.bind {f : α → Checked β} (h : Safe m P) (hf : ∀ a, P a → Safe (f a) R) : Safe (m >>= f) R := by
  rcases m with (_ | _) | a
  · exact h
  · exact trivial
  · exact hf a h

theorem Safe.mono (h : Safe m P) (hpq : ∀ a, P a → Q a) : Safe m Q := by
  rcases m with (_ | _) | a
  · exact h
  · exact trivial
  · exact hpq a h

theorem bind_eq_ok {f : α → Checked β} {b : β} : m >>= f = .ok b ↔ ∃ a, m = .ok a ∧ f a = .ok b := by
  cases m with
  | error e => exact ⟨nofun, fun ⟨_, h, _⟩ => nomatch h⟩
  | ok a => exact ⟨fun h => ⟨a, rfl, h⟩, fun ⟨_, h, h'⟩ => by cases h; exact h'⟩

theorem ok_bind {f : α → Checked β} {a : α} (h : m = .ok a) : m >>= f = f a := by
  rw [h]
  rfl

/-- A loop over a list returns when every turn does. -/
theorem mapM_returns_iff {f : α → Checked β} {l : List α} : (∃ bs, l.mapM f = .ok bs) ↔ ∀ a ∈ l, ∃ b, f a = .ok b := by
  induction l with
  | nil => exact ⟨fun _ a ha => absurd ha List.not_mem_nil, fun _ => ⟨[], rfl⟩⟩
  | cons a l ih =>
    rw [List.mapM_cons, List.forall_mem_cons, ← ih]
    constructor
    · rintro ⟨bs, h⟩
      obtain ⟨b, hb, h⟩ := bind_eq_ok.mp h
      obtain ⟨cs, hcs, -⟩ := bind_eq_ok.mp h
      exact ⟨⟨b, hb⟩, ⟨cs, hcs⟩⟩
    · rintro ⟨⟨b, hb⟩, ⟨cs, hcs⟩⟩
      exact ⟨b :: cs, by rw [ok_bind hb, ok_bind hcs]; rfl⟩

/-- What a loop over a list gives, when what its turns give is known. -/
theorem mapM_eq_ok_iff {f : α → Checked β} {g : α → β} {P : α → Prop} (hf : ∀ a b, f a = .ok b ↔ P a ∧ b = g a)
    {l : List α} {bs : List β} : l.mapM f = .ok bs ↔ (∀ a ∈ l, P a) ∧ bs = l.map g := by
  induction l generalizing bs with
  | nil =>
    rw [List.mapM_nil]
    exact ⟨fun h => ⟨nofun, (Except.ok.inj h).symm⟩, fun h => h.2 ▸ rfl⟩
  | cons a l ih =>
    rw [List.mapM_cons, List.forall_mem_cons, bind_eq_ok]
    constructor
    · intro ⟨b, hb, h⟩
      obtain ⟨cs, hcs, h⟩ := bind_eq_ok.mp h
      obtain ⟨hP, rfl⟩ := (hf a b).mp hb
      obtain ⟨hl, rfl⟩ := ih.mp hcs
      exact ⟨⟨hP, hl⟩, (Except.ok.inj h).symm⟩
    · intro ⟨⟨hP, hl⟩, h⟩
      exact ⟨g a, (hf a _).mpr ⟨hP, rfl⟩, by rw [ok_bind (ih.mpr ⟨hl, rfl⟩), h]; rfl⟩

/-! ## Buffers -/

def read (b : List α) (i : Nat) : Checked α :=
  match b[i]? with
  | some v => .ok v
  | none => fault

def write (b : List α) (i : Nat) (v : α) : Checked (List α) := if i < b.length then .ok (b.set i v) else fault

theorem read_of_some {b : List α} {i : Nat} {v : α} (h : b[i]? = some v) : read b i = .ok v := by
  unfold read
  rw [h]

theorem safe_write {b : List α} {i : Nat} (h : i < b.length) (v : α) : Safe (write b i v) fun c => c = b.set i v := by
  unfold write
  rw [if_pos h]
  exact rfl

/-- What a list reads after `set`. -/
theorem getElem?_set_of_lt {b : List α} {i j : Nat} {v : α} (h : i < b.length) :
    (b.set i v)[j]? = if j = i then some v else b[j]? := by
  by_cases e : j = i
  · rw [if_pos e, e, List.getElem?_set_self h]
  · rw [if_neg e, List.getElem?_set_ne (Ne.symm e)]

end Rodvin.Lib
