/-
  Rodvin.Libc.CString — `strlen`, `strcpy`, `memmove` and `memcpy`
  (`kernel/src/libc/string.cpp`) on checked buffers.

  `strcpy` and `memcpy` between two buffers are one definition each, within one buffer
  another: only there can what is written be read again.
-/

import Rodvin.Lib.Checked

namespace Rodvin.Libc

open Rodvin.Lib

abbrev Bytes := List UInt8

/-- `strlen` of the memory that starts at the pointer. -/
def strlen : Bytes → Checked Nat
  | [] => fault
  | c :: cs => if c ≠ 0 then do pure ((← strlen cs) + 1) else pure 0

/-- `strcpy(dst + d, src)`, with `src` the rest of another buffer. -/
def strcpy (dst : Bytes) (d : Nat) : Bytes → Checked Bytes
  | [] => fault
  | c :: cs =>
    if c ≠ 0 then do
      let dst ← write dst d c
      strcpy dst (d + 1) cs
    else write dst d 0

/-- `strcpy(b + d, b + s)` with room for `n` more bytes behind `b + d`. -/
def strcpyWithin (b : Bytes) (d s : Nat) : Nat → Checked Bytes
  | 0 => fault
  | n + 1 => do
    let c ← read b s
    if c ≠ 0 then
      let b ← write b d c
      strcpyWithin b (d + 1) (s + 1) n
    else write b d 0

/-- `memcpy(dst + d, src + s, n)` between two buffers. -/
def memcpy (dst : Bytes) (d : Nat) (src : Bytes) (s : Nat) : Nat → Checked Bytes
  | 0 => pure dst
  | n + 1 => do
    let dst ← memcpy dst d src s n
    let c ← read src (s + n)
    write dst (d + n) c

/-- The first loop of `memmove`. -/
def moveUp (b : Bytes) (d s : Nat) : Nat → Checked Bytes
  | 0 => pure b
  | n + 1 => do
    let b ← moveUp b d s n
    let c ← read b (s + n)
    write b (d + n) c

/-- The second loop of `memmove`. -/
def moveDown (b : Bytes) (d s : Nat) : Nat → Checked Bytes
  | 0 => pure b
  | n + 1 => do
    let c ← read b (s + n)
    let b ← write b (d + n) c
    moveDown b d s n

/-- `memmove(b + d, b + s, n)`. -/
def memmove (b : Bytes) (d s n : Nat) : Checked Bytes := if d < s then moveUp b d s n else moveDown b d s n

/-! ## What they do -/

/-- The first zero of the memory lies at `k`. -/
def Ends (b : Bytes) (k : Nat) : Prop := b[k]? = some 0 ∧ ∀ i < k, b[i]? ≠ some 0

theorem Ends.tail {c : UInt8} {cs : Bytes} {k : Nat} (h : Ends (c :: cs) (k + 1)) : c ≠ 0 ∧ Ends cs k := by
  refine ⟨?_, by simpa using h.1, fun i hi => by simpa using h.2 (i + 1) (by omega)⟩
  have := h.2 0 (Nat.succ_pos _)
  simpa using this

theorem Ends.exists {b : Bytes} (h : 0 ∈ b) : ∃ k, Ends b k := by
  induction b with
  | nil => cases h
  | cons c cs ih =>
    by_cases hc : c = 0
    · exact ⟨0, by simp [hc], fun i hi => absurd hi (Nat.not_lt_zero _)⟩
    · obtain ⟨k, h1, h2⟩ := ih (by
        rcases List.mem_cons.mp h with h | h
        · exact absurd h.symm hc
        · exact h)
      refine ⟨k + 1, by simpa using h1, fun i hi => ?_⟩
      cases i with
      | zero => simpa using hc
      | succ i => simpa using h2 i (by omega)

theorem strlen_eq {b : Bytes} {k : Nat} (h : Ends b k) : strlen b = .ok k := by
  induction b generalizing k with
  | nil => simp [Ends] at h
  | cons c cs ih =>
    unfold strlen
    cases k with
    | zero =>
      have hc : c = 0 := by simpa using h.1
      simp only [hc, ne_eq, not_true_eq_false, if_false]
      rfl
    | succ k =>
      obtain ⟨hc, h⟩ := h.tail
      simp only [hc, ne_eq, not_false_eq_true, if_true, ih h]
      rfl

/-- `strcpy` copies up to the first zero, and that with it. -/
theorem strcpy_spec {src : Bytes} : ∀ {k d : Nat} {dst : Bytes}, Ends src k → d + k < dst.length →
    ∃ b, strcpy dst d src = .ok b ∧ b.length = dst.length ∧
      ∀ i, b[i]? = if d ≤ i ∧ i ≤ d + k then src[i - d]? else dst[i]? := by
  induction src with
  | nil => intro k d dst h; simp [Ends] at h
  | cons c cs ih =>
    intro k d dst h hd
    unfold strcpy write
    cases k with
    | zero =>
      have hc : c = 0 := by simpa using h.1
      rw [Nat.add_zero] at hd ⊢
      rw [if_neg (by simpa using hc), if_pos hd]
      refine ⟨_, rfl, List.length_set, fun i => ?_⟩
      rw [getElem?_set_of_lt hd]
      by_cases hi : i = d
      · rw [if_pos hi, if_pos (by omega), hi, Nat.sub_self, hc]
        rfl
      · rw [if_neg hi, if_neg (by omega)]
    | succ k =>
      obtain ⟨hc, h⟩ := h.tail
      have hd' : d + 1 + k < (dst.set d c).length := by
        rw [List.length_set]
        omega
      obtain ⟨b, h1, h2, h3⟩ := ih h hd'
      rw [if_pos hc, if_pos (by omega)]
      refine ⟨b, h1, by simpa using h2, fun i => ?_⟩
      rw [h3, getElem?_set_of_lt (by omega)]
      by_cases hi : i = d
      · rw [if_neg (by omega), if_pos hi, if_pos (by omega), hi, Nat.sub_self]
        rfl
      · rw [if_neg hi]
        by_cases hj : d + 1 ≤ i ∧ i ≤ d + 1 + k
        · rw [if_pos hj, if_pos (by omega), show i - d = i - (d + 1) + 1 by omega]
          rfl
        · rw [if_neg hj, if_neg (by omega)]

theorem safe_strcpy {src dst : Bytes} {k d : Nat} (h : Ends src k) (hd : d + k < dst.length) :
    Safe (strcpy dst d src) fun b => b.length = dst.length ∧ b[d + k]? = some 0 ∧ ∀ i, d + k < i → b[i]? = dst[i]? := by
  obtain ⟨b, h1, h2, h3⟩ := strcpy_spec h hd
  rw [h1]
  refine ⟨h2, ?_, fun i hi => ?_⟩
  · rw [h3, if_pos (by omega), Nat.add_sub_cancel_left]
    exact h.1
  · rw [h3, if_neg (by omega)]

theorem safe_strcpyWithin : ∀ {n k d s : Nat} {b : Bytes}, (∀ i < k, ∃ c, b[s + i]? = some c ∧ c ≠ 0) →
    b[s + k]? = some 0 →
    s + k < d → d + k < b.length → k < n →
    Safe (strcpyWithin b d s n) fun e => e.length = b.length ∧ ∀ i, d + k < i → e[i]? = b[i]? := by
  intro n
  induction n with
  | zero => intro k _ _ _ _ _ _ _ h; cases h
  | succ n ih =>
    intro k d s b hne hz hsd hd hn
    unfold strcpyWithin
    cases k with
    | zero =>
      have hr : read b s = .ok 0 := read_of_some hz
      rw [hr]
      refine (safe_write hd 0).mono ?_
      rintro c rfl
      exact ⟨List.length_set, fun i hi => List.getElem?_set_ne (by omega)⟩
    | succ k =>
      obtain ⟨c, hc, hc0⟩ := hne 0 (Nat.succ_pos _)
      have hr : read b s = .ok c := read_of_some hc
      rw [hr]
      show Safe (if c ≠ 0 then _ else _) _
      rw [if_pos hc0]
      refine (safe_write (by omega) c).bind ?_
      rintro b' rfl
      have hset : ∀ i, i ≠ d → (b.set d c)[i]? = b[i]? := fun i hi => List.getElem?_set_ne (Ne.symm hi)
      refine (ih (k := k) (fun i hi => ?_) ?_ (by omega) (by simp; omega) (by omega)).mono ?_
      · rw [hset _ (by omega), show s + 1 + i = s + (i + 1) by omega]
        exact hne (i + 1) (by omega)
      · rw [hset _ (by omega), show s + 1 + k = s + (k + 1) by omega]
        exact hz
      · intro e ⟨h1, h2⟩
        refine ⟨by simpa using h1, fun i hi => ?_⟩
        rw [h2 i (by omega), hset i (by omega)]

/-- What a list reads when `n` elements from `d` on are those of `src` from `s` on. -/
def Copied (b src dst : Bytes) (d s n : Nat) : Prop :=
  b.length = dst.length ∧ ∀ i, b[i]? = if d ≤ i ∧ i < d + n then src[s + (i - d)]? else dst[i]?

theorem Copied.none (src dst : Bytes) (d s : Nat) : Copied dst src dst d s 0 :=
  ⟨rfl, fun i => by rw [if_neg (by omega)]⟩

/-- One more at the end. -/
theorem Copied.set {b src dst : Bytes} {d s n : Nat} {c : UInt8} (h : Copied b src dst d s n) (hd : d + n < dst.length)
    (hc : src[s + n]? = some c) : Copied (b.set (d + n) c) src dst d s (n + 1) := by
  refine ⟨by rw [List.length_set, h.1], fun i => ?_⟩
  rw [getElem?_set_of_lt (by rw [h.1]; exact hd), h.2]
  by_cases hi : i = d + n
  · rw [if_pos hi, if_pos (by omega), hi, Nat.add_sub_cancel_left, hc]
  · rw [if_neg hi]
    by_cases hin : d ≤ i ∧ i < d + n
    · rw [if_pos hin, if_pos (by omega)]
    · rw [if_neg hin, if_neg (by omega)]

theorem memcpy_spec {dst src : Bytes} {d s n : Nat} (hs : s + n ≤ src.length) (hd : d + n ≤ dst.length) :
    ∃ b, memcpy dst d src s n = .ok b ∧ Copied b src dst d s n := by
  induction n with
  | zero => exact ⟨dst, rfl, Copied.none src dst d s⟩
  | succ n ih =>
    obtain ⟨b, hb, hcopied⟩ := ih (by omega) (by omega)
    have hget : src[s + n]? = some src[s + n] := List.getElem?_eq_getElem (by omega)
    have hlt : d + n < b.length := by
      rw [hcopied.1]
      omega
    refine ⟨b.set (d + n) src[s + n], ?_, hcopied.set (by omega) hget⟩
    unfold memcpy
    rw [ok_bind hb, ok_bind (read_of_some hget)]
    exact if_pos hlt

/-- Upwards, what is read lies behind what is written. -/
theorem moveUp_spec {b : Bytes} {d s n : Nat} (hds : d ≤ s) (hs : s + n ≤ b.length) :
    ∃ r, moveUp b d s n = .ok r ∧ Copied r b b d s n := by
  induction n with
  | zero => exact ⟨b, rfl, Copied.none b b d s⟩
  | succ n ih =>
    obtain ⟨r, hc, hcopied⟩ := ih (by omega)
    have hget : b[s + n]? = some b[s + n] := List.getElem?_eq_getElem (by omega)
    have hsame : r[s + n]? = some b[s + n] := by rw [hcopied.2, if_neg (by omega), hget]
    have hlt : d + n < r.length := by
      rw [hcopied.1]
      omega
    refine ⟨r.set (d + n) b[s + n], ?_, hcopied.set (by omega) hget⟩
    unfold moveUp
    rw [ok_bind hc, ok_bind (read_of_some hsame)]
    exact if_pos hlt

/-- Downwards, it lies in front. -/
theorem moveDown_spec {b : Bytes} {d s n : Nat} (hsd : s ≤ d) (hd : d + n ≤ b.length) :
    ∃ c, moveDown b d s n = .ok c ∧ Copied c b b d s n := by
  induction n generalizing b with
  | zero => exact ⟨b, rfl, Copied.none b b d s⟩
  | succ n ih =>
    have hget : b[s + n]? = some b[s + n] := List.getElem?_eq_getElem (by omega)
    have hwrite : write b (d + n) b[s + n] = .ok (b.set (d + n) b[s + n]) := if_pos (by omega)
    obtain ⟨c, hc, hlen, hcget⟩ := ih (b := b.set (d + n) b[s + n]) (by rw [List.length_set]; omega)
    refine ⟨c, ?_, by rw [hlen, List.length_set], fun i => ?_⟩
    · unfold moveDown
      rw [ok_bind (read_of_some hget), ok_bind hwrite, hc]
    · rw [hcget, getElem?_set_of_lt (by omega), getElem?_set_of_lt (by omega)]
      by_cases hi : i = d + n
      · rw [if_neg (by omega), if_pos hi, if_pos (by omega), hi, Nat.add_sub_cancel_left, hget]
      · rw [if_neg hi]
        by_cases hin : d ≤ i ∧ i < d + n
        · rw [if_pos hin, if_neg (by omega), if_pos (by omega)]
        · rw [if_neg hin, if_neg (by omega)]

theorem memmove_spec {b : Bytes} {d s n : Nat} (hs : s + n ≤ b.length) (hd : d + n ≤ b.length) :
    ∃ c, memmove b d s n = .ok c ∧ Copied c b b d s n := by
  unfold memmove
  by_cases h : d < s
  · rw [if_pos h]
    exact moveUp_spec (Nat.le_of_lt h) hs
  · rw [if_neg h]
    exact moveDown_spec (Nat.le_of_not_lt h) hd

theorem safe_memcpy {dst src : Bytes} {d s n : Nat} (hs : s + n ≤ src.length) (hd : d + n ≤ dst.length) :
    Safe (memcpy dst d src s n) fun b => b.length = dst.length ∧ ∀ i < n, b[d + i]? = src[s + i]? := by
  obtain ⟨b, hb, hlen, hget⟩ := memcpy_spec hs hd
  rw [hb]
  refine ⟨hlen, fun i hi => ?_⟩
  rw [hget, if_pos (by omega), Nat.add_sub_cancel_left]

theorem safe_memmove {b : Bytes} {d s n : Nat} (hs : s + n ≤ b.length) (hd : d + n ≤ b.length) :
    Safe (memmove b d s n) fun c => c.length = b.length := by
  obtain ⟨c, hc, hlen, -⟩ := memmove_spec hs hd
  rw [hc]
  exact hlen

end Rodvin.Libc
