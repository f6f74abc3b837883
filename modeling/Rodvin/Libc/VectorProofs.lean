/-
  Rodvin.Libc.VectorProofs — `std::vector` against a list (see `Rodvin.Libc.Vector`).

  `Rep v l`: the buffer has room for exactly `capacity_` elements and holds those of `l`
  in its first slots. Each operation under its condition keeps a `Rep` (the `_spec`
  lemmas); without it the buffer ends up with less room than `capacity_` says, or the
  operation faults or does not return (the `_bad` lemmas).
-/

import Mathlib.Data.List.Forall2
import Rodvin.Libc.Vector

namespace Rodvin.Libc.Vec

open Rodvin.Lib

variable {T : Type} {sizeof : ℕ+} {a : Alloc} {v v' w : Vec T} {b b' : Buf T} {l lw : List T} {x : T} {i n k : Nat}

/-! ## Slots -/

theorem load_eq_ok : b.load i = .ok x ↔ b.slot i = some x := by
  unfold Buf.load fault
  split <;> simp [*]

theorem construct_eq_ok : b.construct i x = .ok b' ↔ i < b.room ∧ b' = ⟨b.room, Function.update b.slot i (some x)⟩ := by
  unfold Buf.construct fault
  split <;> simp [*, eq_comm]

theorem assign_eq_ok :
    b.assign i x = .ok b' ↔ (b.slot i).isSome ∧ b' = ⟨b.room, Function.update b.slot i (some x)⟩ := by
  unfold Buf.assign fault
  split <;> simp [*, eq_comm]

theorem destroy_eq_ok : b.destroy i = .ok b' ↔ (b.slot i).isSome ∧ b' = ⟨b.room, Function.update b.slot i none⟩ := by
  unfold Buf.destroy fault
  split <;> simp [*, eq_comm]

theorem copyFrom_room {old : Buf T} (h : old.copyFrom k n b = .ok b') : b'.room = b.room := by
  induction k generalizing n b with
  | zero => cases h; rfl
  | succ k ih =>
    obtain ⟨x, -, h⟩ := bind_eq_ok.mp h
    obtain ⟨c, hc, h⟩ := bind_eq_ok.mp h
    obtain ⟨-, rfl⟩ := construct_eq_ok.mp hc
    have hroom := ih h
    exact hroom

/-- The first elements of `old`, copied behind those copied already. -/
theorem copyFrom_spec {old : Buf T} (hold : ∀ i, old.slot i = l[i]?) (hk : n + k = l.length) (hr : l.length ≤ b.room)
    (hb : ∀ i, b.slot i = (l.take n)[i]?) :
    ∃ b', old.copyFrom k n b = .ok b' ∧ b'.room = b.room ∧ ∀ i, b'.slot i = l[i]? := by
  induction k generalizing n b with
  | zero =>
    refine ⟨b, rfl, rfl, fun i => ?_⟩
    rw [hb, List.take_of_length_le (by omega)]
  | succ k ih =>
    have hn : n < l.length := by omega
    have hx : old.slot n = some (l.get ⟨n, hn⟩) := by rw [hold, List.getElem?_eq_getElem hn]; rfl
    have hc := construct_eq_ok (b := b) (x := l.get ⟨n, hn⟩) |>.mpr ⟨Nat.lt_of_lt_of_le hn hr, rfl⟩
    have hb' : ∀ i, Function.update b.slot n (some (l.get ⟨n, hn⟩)) i = (l.take (n + 1))[i]? := by
      intro i
      by_cases e : i = n
      · subst e
        rw [Function.update_self, List.getElem?_take_of_lt (Nat.lt_succ_self i), List.getElem?_eq_getElem hn]
        rfl
      · rw [Function.update_of_ne e, hb, List.getElem?_take, List.getElem?_take]
        exact if_congr (by omega) rfl rfl
    obtain ⟨b', h1, h2, h3⟩ := ih (n := n + 1) (b := { b with slot := Function.update b.slot n _ }) (by omega) hr hb'
    refine ⟨b', ?_, h2, h3⟩
    unfold Buf.copyFrom
    rw [ok_bind (load_eq_ok.mpr hx), ok_bind hc]
    exact h1

theorem destroyFrom_spec (hb : ∀ i, n ≤ i → i < n + k → (b.slot i).isSome) : ∃ b', Buf.destroyFrom k n b = .ok b' := by
  induction k generalizing n b with
  | zero => exact ⟨b, rfl⟩
  | succ k ih =>
    have hd := destroy_eq_ok.mpr ⟨hb n (Nat.le_refl n) (by omega), rfl⟩
    have hrest : ∀ i, n + 1 ≤ i → i < n + 1 + k → (Function.update b.slot n none i).isSome := by
      intro i h1 h2
      rw [Function.update_of_ne (by omega)]
      exact hb i (by omega) (by omega)
    obtain ⟨b', h⟩ := ih (n := n + 1) (b := { b with slot := Function.update b.slot n none }) hrest
    unfold Buf.destroyFrom
    rw [ok_bind hd]
    exact ⟨b', h⟩

/-! ## The representation -/

structure Rep (sizeof : ℕ+) (v : Vec T) (l : List T) : Prop where
  size : v.size = l.length
  capacity : l.length ≤ v.capacity
  room : v.buf.room = v.capacity
  fits : Sized sizeof v.capacity
  slots : ∀ i, v.buf.slot i = l[i]?

theorem Rep.agrees (h : Rep sizeof v l) : Agrees v l :=
  ⟨h.size, h.size ▸ h.capacity, h.room.ge, fun i _ => h.slots i⟩

theorem init_rep : Rep sizeof (init : Vec T) [] := by
  refine ⟨rfl, Nat.le_refl _, rfl, ?_, fun i => rfl⟩
  show 0 * (sizeof : Nat) < 2 ^ 64
  omega

theorem Sized.mono (h : Sized sizeof n) (hk : k ≤ n) : Sized sizeof k :=
  Nat.lt_of_le_of_lt (Nat.mul_le_mul_right _ hk) h

theorem Sized.lt (h : Sized sizeof n) : n < 2 ^ 64 := Nat.lt_of_le_of_lt (Nat.le_mul_of_pos_right n sizeof.pos) h

theorem malloc_spec (h : Fits a n) : malloc a n = .ok (⟨n, fun _ => none⟩ : Buf T) := by
  obtain ⟨hs, hg⟩ := h
  unfold malloc
  rw [Nat.mod_eq_of_lt hs, if_pos hg, Nat.mul_div_cancel _ a.sizeof.pos]
  rfl

theorem malloc_eq_ok (h : malloc a n = .ok b) :
    a.gives (n * a.sizeof % 2 ^ 64) = true ∧ b.room = n * a.sizeof % 2 ^ 64 / a.sizeof := by
  unfold malloc at h
  split at h
  · next hg =>
    cases h
    exact ⟨hg, rfl⟩
  · exact nomatch h

/-- No block is found for it. -/
theorem malloc_sized_bad (hs : Sized a.sizeof n) (hf : ¬ Fits a n) : malloc a n ≠ .ok b := by
  intro h
  have hg := (malloc_eq_ok h).1
  rw [Nat.mod_eq_of_lt hs] at hg
  exact hf ⟨hs, hg⟩

/-- The wrap of the product that `malloc` is given. -/
theorem malloc_bad (hf : ¬ Fits a n) (h : malloc a n = .ok b) : b.room < n := by
  by_cases hs : Sized a.sizeof n
  · exact absurd h (malloc_sized_bad hs hf)
  · rw [(malloc_eq_ok h).2]
    refine (Nat.div_lt_iff_lt_mul a.sizeof.pos).mpr (Nat.lt_of_lt_of_le (Nat.mod_lt _ (by decide)) ?_)
    exact Nat.not_lt.mp hs

/-! ## `reserve` -/

theorem Rep.isSome (h : Rep sizeof v l) (hi : i < l.length) : (v.buf.slot i).isSome := by
  rw [h.slots, List.getElem?_eq_getElem hi]
  rfl

theorem reserve_spec (h : Rep a.sizeof v l) (hn : n < v.capacity ∨ Fits a n) :
    ∃ v', reserve a n v = .ok v' ∧ Rep a.sizeof v' l ∧ v'.capacity = max v.capacity n := by
  unfold reserve
  by_cases hlt : n < v.capacity
  · rw [if_pos hlt]
    exact ⟨v, rfl, h, (Nat.max_eq_left (Nat.le_of_lt hlt)).symm⟩
  · have hf := hn.resolve_left hlt
    have hle : v.capacity ≤ n := Nat.not_lt.mp hlt
    obtain ⟨b, h1, h2, h3⟩ := copyFrom_spec (n := 0) (k := v.size) (b := ⟨n, fun _ => none⟩) h.slots
      (by rw [h.size, Nat.zero_add]) (Nat.le_trans h.capacity hle) fun i => by
        rw [List.take_zero]
        rfl
    obtain ⟨c, hc⟩ := destroyFrom_spec (n := 0) (k := v.size) (b := v.buf) fun i _ hi => h.isSome (by rw [← h.size]; omega)
    rw [if_neg hlt, ok_bind (malloc_spec hf), ok_bind h1, ok_bind hc]
    exact ⟨_, rfl, ⟨h.size, Nat.le_trans h.capacity hle, h2, hf.1, h3⟩, (Nat.max_eq_right hle).symm⟩

/-- A `reserve` whose byte count wraps leaves less room than it says. -/
theorem reserve_bad (hle : v.capacity ≤ n) (hf : ¬ Fits a n) (h : reserve a n v = .ok v') :
    v'.buf.room < n ∧ v'.capacity = n ∧ v'.size = v.size := by
  unfold reserve at h
  rw [if_neg (Nat.not_lt.mpr hle)] at h
  obtain ⟨c, hm, h⟩ := bind_eq_ok.mp h
  obtain ⟨b, h1, h⟩ := bind_eq_ok.mp h
  obtain ⟨d, -, h⟩ := bind_eq_ok.mp h
  cases h
  exact ⟨(copyFrom_room h1).trans_lt (malloc_bad hf hm), rfl, rfl⟩

theorem reserve_sized_bad (hle : v.capacity ≤ n) (hs : Sized a.sizeof n) (hf : ¬ Fits a n) :
    reserve a n v ≠ .ok v' := by
  intro h
  unfold reserve at h
  rw [if_neg (Nat.not_lt.mpr hle)] at h
  obtain ⟨c, hm, -⟩ := bind_eq_ok.mp h
  exact malloc_sized_bad hs hf hm

/-! ## `push_back` -/

/-- The construction behind the last element. -/
theorem Rep.append (h : Rep sizeof v l) (hlt : l.length < v.capacity) (x : T) :
    v.buf.construct v.size x = .ok ⟨v.buf.room, Function.update v.buf.slot v.size (some x)⟩ ∧
      Rep sizeof ⟨⟨v.buf.room, Function.update v.buf.slot v.size (some x)⟩, add64 v.size 1, v.capacity⟩ (l ++ [x]) := by
  have hsize := h.size
  have hcap := h.fits.lt
  refine ⟨construct_eq_ok.mpr ⟨by rw [h.room]; omega, rfl⟩, ?_, ?_, h.room, h.fits, fun i => ?_⟩
  · simp only
    rw [add64_eq (by omega), h.size, List.length_append]
    rfl
  · rw [List.length_append]
    exact hlt
  · simp only
    by_cases e : i = v.size
    · subst e
      rw [Function.update_self, h.size, List.getElem?_concat_length]
    · rw [Function.update_of_ne e, h.slots]
      by_cases hi : i < l.length
      · rw [List.getElem?_append_left hi]
      · rw [List.getElem?_eq_none (by omega), List.getElem?_eq_none (by rw [List.length_append, List.length_singleton]; omega)]

theorem needed_of_lt (h8 : v.capacity < 8) : v.needed = some 8 := if_pos h8

theorem needed_of_full (h8 : ¬ v.capacity < 8) (h : v.size = v.capacity) : v.needed = some (v.capacity * 2) := by
  unfold needed
  rw [if_neg h8, if_pos h]

theorem needed_of_room (h8 : ¬ v.capacity < 8) (h : v.size ≠ v.capacity) : v.needed = none := by
  unfold needed
  rw [if_neg h8, if_neg h]

theorem makeRoom_spec (h : Rep a.sizeof v l) (hf : ∀ n ∈ v.needed, Fits a n) :
    ∃ v', makeRoom a v = .ok v' ∧ Rep a.sizeof v' l ∧ v'.capacity = v.needed.getD v.capacity ∧
      l.length < v'.capacity := by
  have hsize := h.size
  have hcap := h.capacity
  have h64 := h.fits.lt
  unfold makeRoom
  by_cases h8 : v.capacity < 8
  · rw [needed_of_lt h8] at hf ⊢
    obtain ⟨v', h1, h2, h3⟩ := reserve_spec h (.inr (hf 8 rfl))
    have hc : v'.capacity = 8 := by omega
    have hs := h2.size
    have hroom : ¬ v'.capacity < add64 v'.size 1 := by rw [add64_eq] <;> omega
    simp only [if_pos h8, ok_bind h1]
    rw [if_neg hroom]
    exact ⟨v', rfl, h2, hc, by omega⟩
  · simp only [if_neg h8, pure_bind]
    by_cases hfull : v.size = v.capacity
    · rw [needed_of_full h8 hfull] at hf ⊢
      have hfit := hf _ rfl
      have hlt := hfit.1.lt
      obtain ⟨v', h1, h2, h3⟩ := reserve_spec h (.inr hfit)
      rw [if_pos (by rw [add64_eq] <;> omega), Nat.mod_eq_of_lt hlt, Option.getD_some]
      exact ⟨v', h1, h2, by omega, by omega⟩
    · rw [needed_of_room h8 hfull, if_neg (by rw [add64_eq] <;> omega)]
      exact ⟨v, rfl, h, rfl, by omega⟩

theorem append_spec (h : Rep a.sizeof v l) (hf : ∀ n ∈ v.needed, Fits a n) (x : T) :
    ∃ v', append a x v = .ok v' ∧ Rep a.sizeof v' (l ++ [x]) ∧ v'.capacity = v.needed.getD v.capacity := by
  obtain ⟨v', h1, h2, h3, h4⟩ := makeRoom_spec h hf
  obtain ⟨h5, h6⟩ := h2.append h4 x
  unfold append
  rw [ok_bind h1, ok_bind h5]
  exact ⟨_, rfl, h6, h3⟩

/-- What a wrapped `reserve` has left behind: less room than `capacity_`. -/
def Short (v : Vec T) : Prop := v.buf.room < v.capacity

theorem Short.not_agrees (h : Short v) : ¬ Agrees v l := fun ha => Nat.not_lt.mpr ha.room h

theorem makeRoom_bad (h : Rep a.sizeof v l) (hn : v.needed = some n) (hf : ¬ Fits a n) (hm : makeRoom a v = .ok v') :
    (Short v' ∧ v'.capacity = n ∧ v'.size = v.size ∧ n < 2 ^ 64) ∨ v'.size = v'.buf.room := by
  have hsize := h.size
  have hcap := h.capacity
  have h64 := h.fits.lt
  unfold makeRoom at hm
  by_cases h8 : v.capacity < 8
  · obtain rfl := Option.some.inj ((needed_of_lt h8).symm.trans hn)
    rw [if_pos h8] at hm
    obtain ⟨u, h1, hm⟩ := bind_eq_ok.mp hm
    obtain ⟨h2, h3, h4⟩ := reserve_bad (Nat.le_of_lt h8) hf h1
    have hroom : ¬ u.capacity < add64 u.size 1 := by rw [add64_eq] <;> omega
    simp only [if_neg hroom] at hm
    cases hm
    exact .inl ⟨Nat.lt_of_lt_of_eq h2 h3.symm, h3, h4, by decide⟩
  · simp only [if_neg h8, pure_bind] at hm
    by_cases hfull : v.size = v.capacity
    · obtain rfl := Option.some.inj ((needed_of_full h8 hfull).symm.trans hn)
      by_cases hlt : v.capacity * 2 < 2 ^ 64
      · rw [if_pos (by rw [add64_eq] <;> omega), Nat.mod_eq_of_lt hlt] at hm
        obtain ⟨h2, h3, h4⟩ := reserve_bad (by omega) hf hm
        exact .inl ⟨Nat.lt_of_lt_of_eq h2 h3.symm, h3, h4, hlt⟩
      · -- the doubled capacity wraps below the old one, and nothing is reserved
        have hback : reserve a (v.capacity * 2 % 2 ^ 64) v = .ok v := if_pos (by omega)
        rw [hback] at hm
        have hv : v' = v := by
          split at hm
          · exact (Except.ok.inj hm).symm
          · exact (Except.ok.inj hm).symm
        rw [hv, h.room]
        exact .inr hfull
    · rw [needed_of_room h8 hfull] at hn
      exact nomatch hn

theorem append_bad (h : Rep a.sizeof v l) (hn : v.needed = some n) (hf : ¬ Fits a n) (ha : append a x v = .ok v') :
    Short v' ∧ v'.capacity = n ∧ v'.size = v.size + 1 := by
  obtain ⟨u, hm, ha⟩ := bind_eq_ok.mp ha
  obtain ⟨b, hb, ha⟩ := bind_eq_ok.mp ha
  obtain ⟨hroom, rfl⟩ := construct_eq_ok.mp hb
  cases ha
  rcases makeRoom_bad h hn hf hm with ⟨h1, h2, h3, h4⟩ | h1
  · refine ⟨h1, h2, ?_⟩
    unfold Short at h1
    show add64 u.size 1 = _
    rw [add64_eq (by omega), h3]
  · omega

theorem append_short (h : Rep a.sizeof v l) (hf : ¬ ∀ n ∈ v.needed, Fits a n) (ha : append a x v = .ok v') :
    Short v' := by
  push Not at hf
  obtain ⟨n, hn, hf⟩ := hf
  exact (append_bad h hn hf ha).1

/-! ## `pop_back` -/

theorem popBack_spec (h : Rep sizeof v l) (hne : l ≠ []) :
    ∃ v', popBack v = .ok v' ∧ Rep sizeof v' l.dropLast ∧ v'.capacity = v.capacity := by
  have hpos := List.length_pos_iff.mpr hne
  have hsize := h.size
  have hcap := h.capacity
  have h64 := h.fits.lt
  have hs : sub64 v.size 1 = l.length - 1 := by rw [sub64_eq (by omega) (by omega), hsize]
  have hd := destroy_eq_ok.mpr ⟨h.isSome (i := l.length - 1) (by omega), rfl⟩
  unfold popBack
  simp only [hs, ok_bind hd]
  refine ⟨_, rfl, ⟨?_, ?_, h.room, h.fits, fun i => ?_⟩, rfl⟩
  · rw [List.length_dropLast]
  · rw [List.length_dropLast]
    exact Nat.le_trans (Nat.sub_le _ _) hcap
  · simp only
    rw [List.getElem?_dropLast]
    by_cases e : i = l.length - 1
    · rw [e, Function.update_self, if_neg (Nat.lt_irrefl _)]
    · rw [Function.update_of_ne e, h.slots]
      split
      · rfl
      · exact List.getElem?_eq_none (by omega)

theorem popDown_spec (h : Rep sizeof v l) (hk : l.length ≤ n + k) :
    ∃ v', popDown n k v = .ok v' ∧ Rep sizeof v' (l.take n) ∧ v'.capacity = v.capacity := by
  induction k generalizing v l with
  | zero =>
    rw [List.take_of_length_le (by omega)]
    exact ⟨v, rfl, h, rfl⟩
  | succ k ih =>
    unfold popDown
    by_cases hn : n < v.size
    · have hlen : n < l.length := h.size ▸ hn
      obtain ⟨u, h1, h2, h3⟩ := popBack_spec h (List.ne_nil_of_length_pos (by omega))
      obtain ⟨v', h4, h5, h6⟩ := ih h2 (by rw [List.length_dropLast]; omega)
      have htake : l.dropLast.take n = l.take n := by rw [List.dropLast_eq_take, List.take_take, Nat.min_eq_left (by omega)]
      rw [if_pos hn, ok_bind h1]
      exact ⟨v', h4, htake ▸ h5, h6.trans h3⟩
    · rw [if_neg hn, List.take_of_length_le (by rw [← h.size]; omega)]
      exact ⟨v, rfl, h, rfl⟩

theorem clear_spec (h : Rep sizeof v l) : ∃ v', clear v = .ok v' ∧ Rep sizeof v' [] ∧ v'.capacity = v.capacity := by
  obtain ⟨v', h1, h2, h3⟩ := popDown_spec (n := 0) (k := v.size) h (by rw [h.size, Nat.zero_add])
  exact ⟨v', h1, h2, h3⟩

/-! ## `resize` -/

theorem fill_spec [Inhabited T] (h : Rep sizeof v l) (hk : l.length + k ≤ v.capacity) :
    ∃ v', fill k v = .ok v' ∧ Rep sizeof v' (l ++ List.replicate k default) := by
  induction k generalizing v l with
  | zero => exact ⟨v, rfl, by rw [List.replicate_zero, List.append_nil]; exact h⟩
  | succ k ih =>
    obtain ⟨h1, h2⟩ := h.append (by omega) default
    obtain ⟨v', h3, h4⟩ := ih h2 (by rw [List.length_append, List.length_singleton]; simp only; omega)
    unfold fill
    rw [ok_bind h1]
    rw [List.append_assoc] at h4
    exact ⟨v', h3, h4⟩

/-- `resize` never reserves, so what goes beyond the capacity leaves the buffer. -/
theorem fill_bad [Inhabited T] (h : Rep sizeof v l) (hk : v.capacity < l.length + k) : fill k v ≠ .ok v' := by
  induction k generalizing v l with
  | zero => exact absurd hk (Nat.not_lt.mpr h.capacity)
  | succ k ih =>
    intro hf
    by_cases hlt : l.length < v.capacity
    · obtain ⟨h1, h2⟩ := h.append hlt default
      unfold fill at hf
      rw [ok_bind h1] at hf
      exact ih h2 (by rw [List.length_append, List.length_singleton]; simp only; omega) hf
    · obtain ⟨b, hb, -⟩ := bind_eq_ok.mp hf
      have hroom := (construct_eq_ok.mp hb).1
      rw [h.room, h.size] at hroom
      exact hlt hroom

/-- The call of `reserve` in `resize` does nothing. -/
theorem resize_eq [Inhabited T] (h : Rep a.sizeof v l) (hn : l.length ≤ n) : resize a n v = fill (n - v.size) v := by
  unfold resize
  rw [if_neg (by rw [h.size]; omega)]
  by_cases hlt : n < v.capacity
  · have hres : reserve a n v = .ok v := if_pos hlt
    simp only [if_pos hlt, ok_bind hres]
  · simp only [if_neg hlt, pure_bind]

theorem resize_spec [Inhabited T] (h : Rep a.sizeof v l) (hn : n ≤ v.capacity) :
    ∃ v', resize a n v = .ok v' ∧ Rep a.sizeof v' (l.take n ++ List.replicate (n - l.length) default) := by
  by_cases hlt : n < l.length
  · obtain ⟨v', h1, h2, -⟩ := popDown_spec (n := n) (k := v.size) h (by rw [h.size]; omega)
    refine ⟨v', (if_pos (h.size ▸ hlt)).trans h1, ?_⟩
    rw [Nat.sub_eq_zero_of_le (Nat.le_of_lt hlt), List.replicate_zero, List.append_nil]
    exact h2
  · have hle := Nat.not_lt.mp hlt
    rw [resize_eq h hle, h.size, List.take_of_length_le hle]
    exact fill_spec h (by omega)

theorem resize_bad [Inhabited T] (h : Rep a.sizeof v l) (hn : v.capacity < n) : resize a n v ≠ .ok v' := by
  have hcap := h.capacity
  rw [resize_eq h (by omega), h.size]
  exact fill_bad h (by omega)

/-! ## Copies -/

/-- Pushing elements of `w`: the first push may take the capacity to 8, no other reserves. -/
theorem pushFrom_spec (hw : Rep a.sizeof w lw) (h : Rep a.sizeof v l) (hn : n + k = lw.length)
    (hk : l.length + k ≤ v.capacity) (hf : PushOk a k v.capacity) :
    ∃ v', pushFrom a w k n v = .ok v' ∧ Rep a.sizeof v' (l ++ lw.drop n) := by
  induction k generalizing n v l with
  | zero =>
    rw [List.drop_of_length_le (by omega), List.append_nil]
    exact ⟨v, rfl, h⟩
  | succ k ih =>
    have hlt : n < lw.length := by omega
    have hx : w.buf.load n = .ok (lw.get ⟨n, hlt⟩) :=
      load_eq_ok.mpr (by rw [hw.slots, List.getElem?_eq_getElem hlt]; rfl)
    have hsize := h.size
    have hneed : v.needed = if v.capacity < 8 then some 8 else none := by
      by_cases h8 : v.capacity < 8
      · rw [if_pos h8, needed_of_lt h8]
      · rw [if_neg h8, needed_of_room h8 (by omega)]
    have hfit : ∀ m ∈ v.needed, Fits a m := by
      intro m hm
      obtain ⟨h8, hm⟩ := Option.ite_none_right_eq_some.mp (hneed.symm.trans hm)
      cases hm
      exact hf (Nat.succ_ne_zero k) h8
    obtain ⟨u, h1, h2, h3⟩ := append_spec h hfit (lw.get ⟨n, hlt⟩)
    have hcap : v.capacity ≤ u.capacity ∧ 8 ≤ u.capacity := by
      rw [h3, hneed]
      split
      · rw [Option.getD_some]
        omega
      · rw [Option.getD_none]
        omega
    obtain ⟨v', h4, h5⟩ := ih (n := n + 1) h2 (by omega) (by rw [List.length_append, List.length_singleton]; omega)
      fun _ h8 => absurd h8 (Nat.not_lt.mpr hcap.2)
    refine ⟨v', ?_, ?_⟩
    · unfold pushFrom pushBack
      rw [ok_bind hx, ok_bind h1]
      exact h4
    · rw [List.append_assoc] at h5
      rw [List.drop_eq_getElem_cons hlt]
      exact h5

/-- Once the buffer is short it stays so while nothing is reserved. -/
theorem pushFrom_short (hs : Short v) (hc : v.capacity = 8) (hk : v.size + k ≤ 8) (h : pushFrom a w k n v = .ok v') :
    Short v' := by
  induction k generalizing n v with
  | zero => cases h; exact hs
  | succ k ih =>
    obtain ⟨x, -, h⟩ := bind_eq_ok.mp h
    obtain ⟨u, ha, h⟩ := bind_eq_ok.mp h
    have hroom : makeRoom a v = .ok v := by
      have hfull : ¬ v.capacity < add64 v.size 1 := by rw [add64_eq] <;> omega
      unfold makeRoom
      simp only [if_neg (show ¬ v.capacity < 8 by omega), pure_bind, if_neg hfull]
      rfl
    unfold pushBack append at ha
    rw [ok_bind hroom] at ha
    obtain ⟨b, hb, ha⟩ := bind_eq_ok.mp ha
    obtain ⟨-, rfl⟩ := construct_eq_ok.mp hb
    cases ha
    have hsize : add64 v.size 1 = v.size + 1 := add64_eq (by omega)
    have hs' : Short (⟨⟨v.buf.room, Function.update v.buf.slot v.size (some x)⟩, add64 v.size 1, v.capacity⟩ : Vec T) := hs
    exact ih hs' hc (by simp only; omega) h

/-- No room for the eight elements that the first push asks for. -/
theorem pushFrom_bad (h : Rep a.sizeof v l) (hk : l.length + k ≤ v.capacity) (hf : ¬ PushOk a k v.capacity)
    (hp : pushFrom a w k n v = .ok v') : Short v' := by
  unfold PushOk at hf
  push Not at hf
  obtain ⟨hk0, h8, hf⟩ := hf
  obtain ⟨k, rfl⟩ := Nat.exists_eq_succ_of_ne_zero hk0
  obtain ⟨x, -, hp⟩ := bind_eq_ok.mp hp
  obtain ⟨u, ha, hp⟩ := bind_eq_ok.mp hp
  obtain ⟨h1, h2, h3⟩ := append_bad h (needed_of_lt h8) hf ha
  have hsize := h.size
  exact pushFrom_short h1 h2 (by omega) hp

theorem Rep.sized (h : Rep sizeof v l) : Sized sizeof v.size := h.fits.mono (h.size ▸ h.capacity)

theorem copy_spec (hw : Rep a.sizeof w lw) (hok : Fits a w.size ∧ PushOk a w.size w.size) :
    ∃ v', copy a w = .ok v' ∧ Rep a.sizeof v' lw := by
  obtain ⟨v, h1, h2, h3⟩ := reserve_spec (init_rep (T := T)) (.inr hok.1)
  have hc : v.capacity = w.size := h3.trans (Nat.zero_max w.size)
  obtain ⟨v', h4, h5⟩ := pushFrom_spec (n := 0) (k := w.size) hw h2 (by rw [hw.size, Nat.zero_add])
    (by rw [hc, List.length_nil, Nat.zero_add]) (hc ▸ hok.2)
  unfold copy
  rw [ok_bind h1]
  exact ⟨v', h4, h5⟩

theorem copy_bad (hw : Rep a.sizeof w lw) (hbad : ¬ (Fits a w.size ∧ PushOk a w.size w.size)) (h : copy a w = .ok v') :
    Short v' := by
  obtain ⟨v, h1, h⟩ := bind_eq_ok.mp h
  by_cases hf : Fits a w.size
  · obtain ⟨u, h2, h3, h4⟩ := reserve_spec init_rep (.inr hf)
    obtain rfl := Except.ok.inj (h1.symm.trans h2)
    have hc : v.capacity = w.size := h4.trans (Nat.zero_max w.size)
    refine pushFrom_bad h3 (by rw [hc, List.length_nil, Nat.zero_add]) ?_ h
    rw [hc]
    exact fun hp => hbad ⟨hf, hp⟩
  · exact absurd h1 (reserve_sized_bad (Nat.zero_le _) hw.sized hf)

/-! ## `operator=` -/

/-- The loop ends at once when one of the vectors is empty, and otherwise never. -/
theorem overwrite_zero {fuel : Nat} (h : v.size = 0 ∨ w.size = 0) (hv : w.size = 0 → v.size = 0) :
    overwrite w (fuel + 1) 0 v = .ok (0, v) := by
  have h0 : v.size = 0 := h.elim id hv
  have hcond : goesOn 0 v.size w.size = 0 := by
    unfold goesOn
    rw [h0]
    simp
  unfold overwrite
  rw [if_neg (not_not.mpr hcond)]
  rfl

theorem overwrite_bad {fuel : Nat} {r : Nat × Vec T} (hv : v.size ≠ 0) (hw : w.size ≠ 0) :
    overwrite w fuel n v ≠ .ok r := by
  induction fuel generalizing n v with
  | zero => exact nofun
  | succ fuel ih =>
    intro h
    have hcond : goesOn n v.size w.size ≠ 0 := by
      unfold goesOn
      generalize (if n < v.size then 1 else 0) = b
      split
      · exact hv
      · exact hw
    unfold overwrite at h
    rw [if_pos hcond] at h
    obtain ⟨x, -, h⟩ := bind_eq_ok.mp h
    obtain ⟨b, -, h⟩ := bind_eq_ok.mp h
    exact ih (v := { v with buf := b }) hv h

theorem adapt_spec (h : Rep a.sizeof v l) (hlw : w.size = lw.length) (hf : v.capacity < w.size → Fits a w.size) :
    ∃ v', adapt a w v = .ok v' ∧ v'.capacity = max v.capacity w.size ∧
      Rep a.sizeof v' (if v.capacity < w.size then [] else l.take lw.length) := by
  obtain ⟨u, h1, h2, h3⟩ := popDown_spec (n := w.size) (k := v.size) h (by rw [h.size]; omega)
  unfold adapt
  rw [ok_bind h1, h3]
  by_cases hlt : v.capacity < w.size
  · obtain ⟨c, h4, h5, h6⟩ := clear_spec h2
    obtain ⟨v', h7, h8, h9⟩ := reserve_spec h5 (.inr (hf hlt))
    rw [if_pos hlt, if_pos hlt, ok_bind h4]
    exact ⟨v', h7, by omega, h8⟩
  · rw [if_neg hlt, if_neg hlt, ← hlw]
    exact ⟨u, rfl, by omega, h2⟩

theorem adapt_bad (hw : Rep a.sizeof w lw) (h : Rep a.sizeof v l) (hlt : v.capacity < w.size) (hf : ¬ Fits a w.size) :
    adapt a w v ≠ .ok v' := by
  obtain ⟨u, h1, h2, h3⟩ := popDown_spec (n := w.size) (k := v.size) h (by rw [h.size]; omega)
  obtain ⟨c, h4, -, h6⟩ := clear_spec h2
  unfold adapt
  rw [ok_bind h1, h3, if_pos hlt, ok_bind h4]
  exact reserve_sized_bad (by omega) hw.sized hf

/-- `operator=` comes to its loops with one of the vectors empty. -/
theorem adapted_empty (h : Rep sizeof v l) (hw : Rep sizeof w lw) (hc : w.size = 0 ∨ v.size = 0 ∨ v.capacity < w.size) :
    (if v.capacity < w.size then [] else l.take lw.length) = [] := by
  by_cases hlt : v.capacity < w.size
  · exact if_pos hlt
  · rw [if_neg hlt, List.take_eq_nil_iff, ← hw.size, ← List.length_eq_zero_iff, ← h.size]
    rcases hc with h0 | h0 | h0
    · exact .inl h0
    · exact .inr h0
    · exact absurd h0 hlt

theorem assign_spec (hw : Rep a.sizeof w lw) (h : Rep a.sizeof v l) (hok : AssignOk a w v) :
    ∃ v', assign a w v = .ok v' ∧ Rep a.sizeof v' lw := by
  obtain ⟨hfits, hempty, hpush⟩ := hok
  obtain ⟨u, h1, h2, h3⟩ := adapt_spec h hw.size hfits
  rw [adapted_empty h hw hempty] at h3
  have h4 : overwrite w (w.size + 1) 0 u = .ok (0, u) := overwrite_zero (.inl h3.size) fun _ => h3.size
  obtain ⟨v', h5, h6⟩ := pushFrom_spec (n := 0) (k := w.size) hw h3 (by rw [hw.size, Nat.zero_add])
    (by rw [List.length_nil]; omega) (h2 ▸ hpush)
  unfold assign
  simp only [ok_bind h1, ok_bind h4]
  exact ⟨v', h5, h6⟩

theorem assign_bad (hw : Rep a.sizeof w lw) (h : Rep a.sizeof v l) (hbad : ¬ AssignOk a w v)
    (ha : assign a w v = .ok v') : Short v' := by
  obtain ⟨u, h1, ha⟩ := bind_eq_ok.mp ha
  have hfits : v.capacity < w.size → Fits a w.size := by
    intro hlt
    by_contra hf
    exact adapt_bad hw h hlt hf h1
  obtain ⟨u', h1', h2, h3⟩ := adapt_spec h hw.size hfits
  obtain rfl := Except.ok.inj (h1.symm.trans h1')
  by_cases hempty : w.size = 0 ∨ v.size = 0 ∨ v.capacity < w.size
  · have hpush : ¬ PushOk a w.size u.capacity := by
      rw [h2]
      exact fun hp => hbad ⟨hfits, hempty, hp⟩
    rw [adapted_empty h hw hempty] at h3
    have h4 : overwrite w (w.size + 1) 0 u = .ok (0, u) := overwrite_zero (.inl h3.size) fun _ => h3.size
    simp only [ok_bind h4] at ha
    exact pushFrom_bad h3 (by rw [List.length_nil]; omega) hpush ha
  · -- both have elements when the loop is reached
    obtain ⟨hw0, hrest⟩ := not_or.mp hempty
    obtain ⟨hv0, hcap⟩ := not_or.mp hrest
    rw [if_neg hcap] at h3
    have hu : u.size ≠ 0 := by
      rw [h3.size, List.length_take, ← hw.size, ← h.size]
      omega
    obtain ⟨r, h4, -⟩ := bind_eq_ok.mp ha
    exact absurd h4 (overwrite_bad hu hw0)

/-! ## Every sequence -/

def Reps (sizeof : ℕ+) (vs : List (Vec T)) (ls : List (List T)) : Prop := List.Forall₂ (Rep sizeof) vs ls

variable {vs vs' : List (Vec T)} {ls ls' : List (List T)}

theorem Reps.agrees (h : Reps sizeof vs ls) : List.Forall₂ Agrees vs ls := h.imp fun _ _ => Rep.agrees

/-- The vector of a list. -/
theorem Reps.get (h : Reps sizeof vs ls) (hl : ls[i]? = some l) : ∃ v, vs[i]? = some v ∧ Rep sizeof v l := by
  obtain ⟨hi, rfl⟩ := List.getElem?_eq_some_iff.mp hl
  have hv : i < vs.length := h.length_eq ▸ hi
  exact ⟨_, List.getElem?_eq_getElem hv, List.Forall₂.get h hv hi⟩

theorem Reps.set (h : Reps sizeof vs ls) (i : Nat) (hv : Rep sizeof v l) : Reps sizeof (vs.set i v) (ls.set i l) := by
  induction h generalizing i with
  | nil => exact .nil
  | cons h0 hrest ih =>
    cases i with
    | zero => exact .cons hv hrest
    | succ i => exact .cons h0 (ih i)

theorem Reps.append (h : Reps sizeof vs ls) (hv : Rep sizeof v l) : Reps sizeof (vs ++ [v]) (ls ++ [l]) :=
  List.rel_append h (.cons hv .nil)

theorem on_spec {f : Vec T → Checked (Vec T)} {l' : List T} (h : Reps sizeof vs ls) (hv : vs[i]? = some v)
    (hf : ∃ v', f v = .ok v' ∧ Rep sizeof v' l') : ∃ vs', on vs i f = .ok vs' ∧ Reps sizeof vs' (ls.set i l') := by
  obtain ⟨v', h1, h2⟩ := hf
  refine ⟨vs.set i v', ?_, h.set i h2⟩
  unfold on
  rw [ok_bind (read_of_some hv), ok_bind h1]
  rfl

/-- A vector that is short among them. -/
theorem Short.not_all_agree (h : Short v) (hm : v ∈ vs) : ¬ List.Forall₂ Agrees vs ls := by
  intro ha
  obtain ⟨i, hi, rfl⟩ := List.mem_iff_getElem.mp hm
  exact h.not_agrees (List.Forall₂.get ha hi (ha.length_eq ▸ hi))

theorem on_bad {f : Vec T → Checked (Vec T)} (hv : vs[i]? = some v) (hf : ∀ v', f v = .ok v' → Short v')
    (h : on vs i f = .ok vs') : ¬ List.Forall₂ Agrees vs' ls' := by
  unfold on at h
  rw [ok_bind (read_of_some hv)] at h
  obtain ⟨v', h1, h⟩ := bind_eq_ok.mp h
  cases h
  have hi := (List.getElem?_eq_some_iff.mp hv).1
  exact (hf v' h1).not_all_agree (List.mem_set hi v')

variable [Inhabited T] {op : Op T}

theorem apply_spec (h : Reps a.sizeof vs ls) (hl : listOp ls op = some ls') (hok : StepOk a vs op) :
    ∃ vs', apply a vs op = .ok vs' ∧ Reps a.sizeof vs' ls' := by
  cases op with
  | construct =>
    cases hl
    exact ⟨vs ++ [init], rfl, h.append init_rep⟩
  | copy j =>
    obtain ⟨l, hj, rfl⟩ := Option.map_eq_some_iff.mp hl
    obtain ⟨w, hw, hwr⟩ := h.get hj
    obtain ⟨v, h1, h2⟩ := copy_spec hwr (hok w hw)
    refine ⟨vs ++ [v], ?_, h.append h2⟩
    simp only [apply, ok_bind (read_of_some hw), ok_bind h1]
    rfl
  | assign i j =>
    obtain ⟨⟨hi, -⟩, hl⟩ := Option.ite_none_right_eq_some.mp hl
    obtain ⟨l, hj, rfl⟩ := Option.map_eq_some_iff.mp hl
    obtain ⟨w, hw, hwr⟩ := h.get hj
    obtain ⟨v, hv, hvr⟩ := h.get (List.getElem?_eq_getElem hi)
    simp only [apply, ok_bind (read_of_some hw)]
    exact on_spec h hv (assign_spec hwr hvr (hok v w hv hw))
  | pushBack i elem =>
    obtain ⟨l, hi, rfl⟩ := Option.map_eq_some_iff.mp hl
    obtain ⟨v, hv, hvr⟩ := h.get hi
    obtain ⟨v', h1, h2, -⟩ := append_spec hvr (hok v hv) elem
    exact on_spec h hv ⟨v', h1, h2⟩
  | emplaceBack i elem =>
    obtain ⟨l, hi, rfl⟩ := Option.map_eq_some_iff.mp hl
    obtain ⟨v, hv, hvr⟩ := h.get hi
    obtain ⟨v', h1, h2, -⟩ := append_spec hvr (hok v hv) elem
    exact on_spec h hv ⟨v', h1, h2⟩
  | popBack i =>
    obtain ⟨l, hi, hl⟩ := Option.bind_eq_some_iff.mp hl
    obtain ⟨hne, hl⟩ := Option.ite_none_left_eq_some.mp hl
    cases hl
    obtain ⟨v, hv, hvr⟩ := h.get hi
    obtain ⟨v', h1, h2, -⟩ := popBack_spec hvr hne
    exact on_spec h hv ⟨v', h1, h2⟩
  | reserve i newCapacity =>
    obtain ⟨⟨hi, -⟩, hl⟩ := Option.ite_none_right_eq_some.mp hl
    cases hl
    obtain ⟨v, hv, hvr⟩ := h.get (List.getElem?_eq_getElem hi)
    obtain ⟨v', h1, h2, -⟩ := reserve_spec hvr (hok v hv)
    have hset := on_spec h hv ⟨v', h1, h2⟩
    rwa [List.set_getElem_self] at hset
  | resize i newSize =>
    obtain ⟨-, hl⟩ := Option.ite_none_right_eq_some.mp hl
    obtain ⟨l, hi, rfl⟩ := Option.map_eq_some_iff.mp hl
    obtain ⟨v, hv, hvr⟩ := h.get hi
    exact on_spec h hv (resize_spec hvr (hok v hv))
  | clear i =>
    obtain ⟨l, hi, rfl⟩ := Option.map_eq_some_iff.mp hl
    obtain ⟨v, hv, hvr⟩ := h.get hi
    obtain ⟨v', h1, h2, -⟩ := clear_spec hvr
    exact on_spec h hv ⟨v', h1, h2⟩

omit [Inhabited T] in
theorem not_of_some {P : Vec T → Prop} (hv : vs[i]? = some v) (hbad : ¬ ∀ u, vs[i]? = some u → P u) : ¬ P v :=
  fun hc => hbad fun _ hu => Option.some.inj (hv.symm.trans hu) ▸ hc

/-- A step that is not `StepOk` faults or leaves a vector with too little room. -/
theorem apply_bad (h : Reps a.sizeof vs ls) (hl : listOp ls op = some ls') (hbad : ¬ StepOk a vs op)
    (ha : apply a vs op = .ok vs') : ¬ List.Forall₂ Agrees vs' ls' := by
  cases op with
  | construct => exact absurd trivial hbad
  | copy j =>
    obtain ⟨l, hj, -⟩ := Option.map_eq_some_iff.mp hl
    obtain ⟨w, hw, hwr⟩ := h.get hj
    have hcond : ¬ (Fits a w.size ∧ PushOk a w.size w.size) := not_of_some hw hbad
    simp only [apply, ok_bind (read_of_some hw)] at ha
    obtain ⟨v, h1, ha⟩ := bind_eq_ok.mp ha
    cases ha
    exact (copy_bad hwr hcond h1).not_all_agree (by simp)
  | assign i j =>
    obtain ⟨⟨hi, -⟩, hl⟩ := Option.ite_none_right_eq_some.mp hl
    obtain ⟨l, hj, -⟩ := Option.map_eq_some_iff.mp hl
    obtain ⟨w, hw, hwr⟩ := h.get hj
    obtain ⟨v, hv, hvr⟩ := h.get (List.getElem?_eq_getElem hi)
    have hcond : ¬ AssignOk a w v := fun hc => hbad fun u u' hu hu' => by
      obtain rfl := Option.some.inj (hv.symm.trans hu)
      obtain rfl := Option.some.inj (hw.symm.trans hu')
      exact hc
    simp only [apply, ok_bind (read_of_some hw)] at ha
    exact on_bad hv (fun v' => assign_bad hwr hvr hcond) ha
  | pushBack i elem =>
    obtain ⟨l, hi, -⟩ := Option.map_eq_some_iff.mp hl
    obtain ⟨v, hv, hvr⟩ := h.get hi
    have hcond : ¬ ∀ n ∈ v.needed, Fits a n := not_of_some hv hbad
    exact on_bad hv (fun v' ha => append_short hvr hcond ha) ha
  | emplaceBack i elem =>
    obtain ⟨l, hi, -⟩ := Option.map_eq_some_iff.mp hl
    obtain ⟨v, hv, hvr⟩ := h.get hi
    have hcond : ¬ ∀ n ∈ v.needed, Fits a n := not_of_some hv hbad
    exact on_bad hv (fun v' ha => append_short hvr hcond ha) ha
  | popBack i => exact absurd trivial hbad
  | reserve i newCapacity =>
    obtain ⟨⟨hi, -⟩, -⟩ := Option.ite_none_right_eq_some.mp hl
    obtain ⟨v, hv, hvr⟩ := h.get (List.getElem?_eq_getElem hi)
    have hcond : ¬ (newCapacity < v.capacity ∨ Fits a newCapacity) := not_of_some hv hbad
    obtain ⟨hle, hf⟩ := not_or.mp hcond
    refine on_bad hv (fun v' hr => ?_) ha
    obtain ⟨h1, h2, -⟩ := reserve_bad (Nat.not_lt.mp hle) hf hr
    exact Nat.lt_of_lt_of_eq h1 h2.symm
  | resize i newSize =>
    obtain ⟨-, hl⟩ := Option.ite_none_right_eq_some.mp hl
    obtain ⟨l, hi, -⟩ := Option.map_eq_some_iff.mp hl
    obtain ⟨v, hv, hvr⟩ := h.get hi
    have hcond : ¬ newSize ≤ v.capacity := not_of_some hv hbad
    exact on_bad hv (fun v' hr => absurd hr (resize_bad hvr (Nat.not_le.mp hcond))) ha
  | clear i => exact absurd trivial hbad

theorem refines_iff_meets (h : Reps sizeof vs ls) (ops : List ((Nat → Bool) × Op T)) :
    Refines sizeof vs ls ops ↔ Meets sizeof vs ls ops := by
  induction ops generalizing vs ls with
  | nil => exact Iff.rfl
  | cons op ops ih =>
    obtain ⟨gives, op⟩ := op
    constructor
    · intro hr ls' hl
      obtain ⟨vs', ha, hag, hrest⟩ := hr ls' hl
      have hok : StepOk ⟨sizeof, gives⟩ vs op := by
        by_contra hbad
        exact apply_bad h hl hbad ha hag
      refine ⟨hok, fun vs'' ha' => ?_⟩
      obtain ⟨us, hu, hur⟩ := apply_spec h hl hok
      rw [ha] at ha' hu
      obtain rfl := Except.ok.inj ha'
      obtain rfl := Except.ok.inj hu
      exact (ih hur).mp hrest
    · intro hm ls' hl
      obtain ⟨hok, hrest⟩ := hm ls' hl
      obtain ⟨vs', ha, hr⟩ := apply_spec h hl hok
      exact ⟨vs', ha, hr.agrees, (ih hr).mpr (hrest vs' ha)⟩

/-- The vectors are the lists after every operation of a sequence exactly when no `resize`
    goes beyond the capacity, no assignment finds elements on both sides and room for the
    source, and every capacity asked for has a size in bytes and a block is found for it. -/
theorem vector_refines_list_iff (sizeof : ℕ+) (ops : List ((Nat → Bool) × Op T)) :
    Refines sizeof [] [] ops ↔ Meets sizeof [] [] ops :=
  refines_iff_meets .nil ops

omit [Inhabited T] in
/-- `std::vector<int> v; v.resize(1)` constructs an element at `NULL`. -/
theorem resize_overruns : ¬ ∀ ops : List ((Nat → Bool) × Op Nat), Refines 4 [] [] ops := by
  intro h
  obtain ⟨vs, h1, -, h⟩ := h [(fun _ => true, .construct), (fun _ => true, .resize 0 1)] [[]] rfl
  cases h1
  obtain ⟨vs, h2, -⟩ := h [[0]] rfl
  exact nomatch (show (.error .fault : Checked (List (Vec Nat))) = .ok vs from h2)

end Rodvin.Libc.Vec
