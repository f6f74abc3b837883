/-
  Rodvin.Libc.Iteration — iterating a string of arbitrary bytes, as `cat` does with the
  content of a file.

  `++` stops at the terminator at the latest (`increment_step`). `*` believes the byte it
  stands on, which may announce more bytes than there are (`value_cases`), so the walk from
  `begin()` to `end()` stays in the buffer exactly when no byte that it stops at does
  (`iterates_iff`).
-/

import Mathlib.Data.List.TakeWhile
import Rodvin.Libc.Utf8Proofs

namespace Rodvin.Libc

open Rodvin.Lib

namespace Str

/-- How many more bytes `*` reads. -/
def follows (c : UInt8) : Nat := if c < 0x80 then 0 else if c < 0xE0 then 1 else if c < 0xF0 then 2 else 3

/-- A walk from `o` on stops there and at every lead byte behind it. Each of them has its
    bytes before the end, the terminator counting as one. -/
def CompleteFrom (bs : Bytes) (o : Nat) : Prop :=
  ∀ p, ∀ h : p < bs.length, o ≤ p → (p = o ∨ continues bs[p] = false) → p + follows bs[p] ≤ bs.length

def Complete (bs : Bytes) : Prop := CompleteFrom bs 0

variable {fresh : Nat → UInt8} {s : Str} {bs r : Bytes} {o : Nat}

/-! ## The string -/

theorem ends_append_zero (h0 : 0 ∉ bs) (r : Bytes) : Ends (bs ++ 0 :: r) bs.length := by
  refine ⟨by simp, fun i hi e => h0 ?_⟩
  rw [List.getElem?_append_left hi] at e
  exact List.mem_of_getElem? e

/-- Copying needs room for the terminator. -/
theorem strcpy_room {src : Bytes} : ∀ {k d : Nat} {dst b : Bytes}, Ends src k → strcpy dst d src = .ok b →
    d + k < dst.length := by
  have hwrite {dst b : Bytes} {d : Nat} {c : UInt8} (h : write dst d c = .ok b) : d < dst.length ∧ b = dst.set d c := by
    unfold write at h
    by_cases hd : d < dst.length
    · rw [if_pos hd] at h
      exact ⟨hd, (Except.ok.inj h).symm⟩
    · rw [if_neg hd] at h
      cases h
  induction src with
  | nil => exact fun h => absurd h.1 (by simp)
  | cons c cs ih =>
    intro k d dst b hk h
    unfold strcpy at h
    cases k with
    | zero =>
      have hc : c = 0 := by simpa using hk.1
      rw [if_neg (by simpa using hc)] at h
      exact (hwrite h).1
    | succ k =>
      obtain ⟨hc, hk⟩ := hk.tail
      rw [if_pos hc] at h
      obtain ⟨e, he, h⟩ := bind_eq_ok.mp h
      have := ih hk h
      rw [(hwrite he).2, List.length_set] at this
      omega

/-- The buffer of a string made of a C string holds its bytes and the terminator. -/
theorem ofCString_eq (h0 : 0 ∉ bs) (h : ofCString fresh (bs ++ 0 :: r) = .ok s) :
    s.storage = some (bs ++ [0]) ∧ s.size_ = bs.length := by
  have hends := ends_append_zero h0 r
  unfold ofCString at h
  rw [ok_bind (strlen_eq hends)] at h
  obtain ⟨d, hd, h⟩ := bind_eq_ok.mp h
  obtain ⟨b, hb, h⟩ := bind_eq_ok.mp h
  obtain rfl := Except.ok.inj h
  have hroom := strcpy_room hends hb
  have hdlen : d.length = add64 bs.length 1 := by
    unfold new at hd
    by_cases hn : add64 bs.length 1 ≤ heapLimit
    · rw [if_pos hn] at hd
      obtain rfl := Except.ok.inj hd
      rw [List.length_map, List.length_range]
    · rw [if_neg hn] at hd
      cases hd
  have hfit : d.length = bs.length + 1 := by
    have hle : add64 bs.length 1 ≤ bs.length + 1 := Nat.mod_le _ _
    omega
  obtain ⟨e, he, helen, hget⟩ := strcpy_spec hends hroom
  obtain rfl := Except.ok.inj (he.symm.trans hb)
  refine ⟨congrArg some (List.ext_getElem? fun i => ?_), rfl⟩
  rw [hget]
  by_cases hi : i ≤ bs.length
  · rw [if_pos (by omega), Nat.sub_zero, List.getElem?_append, List.getElem?_append]
    split
    · rfl
    · rw [show i - bs.length = 0 by omega]
      rfl
  · rw [if_neg (by omega), List.getElem?_eq_none (by omega), List.getElem?_eq_none (by simp; omega)]

/-! ## One turn -/

theorem getByte_inside (hs : s.storage = some (bs ++ [0])) {k : Nat} (hk : k ≤ bs.length) :
    ∃ c, getByte s k = .ok c := by
  have hlt : k < (bs ++ [0]).length := by
    rw [List.length_append, List.length_singleton]
    omega
  refine ⟨(bs ++ [0])[k], ?_⟩
  unfold getByte
  rw [hs]
  exact read_of_some (List.getElem?_eq_getElem hlt)

theorem getByte_outside (hs : s.storage = some (bs ++ [0])) {k : Nat} (hk : bs.length < k) :
    getByte s k = .error .fault := by
  have hnone : (bs ++ [0])[k]? = none := List.getElem?_eq_none (by simp; omega)
  have hr : Lib.read (bs ++ [0]) k = .error .fault := by
    unfold Lib.read
    rw [hnone]
    rfl
  unfold getByte
  rw [hs]
  exact hr

theorem getByte_lead (hs : s.storage = some (bs ++ [0])) (ho : o < bs.length) : getByte s o = .ok bs[o] := by
  unfold getByte
  rw [hs]
  exact read_of_some (by rw [List.getElem?_append_left ho, List.getElem?_eq_getElem ho])

/-- `*` reads the bytes announced, or faults on the first one behind the buffer. -/
theorem value_cases (hs : s.storage = some (bs ++ [0])) (ho : o < bs.length) :
    (o + follows bs[o] ≤ bs.length ∧ ∃ v, (⟨s, o⟩ : ConstIterator).value = .ok v) ∨
      (bs.length < o + follows bs[o] ∧ (⟨s, o⟩ : ConstIterator).value = .error .fault) := by
  have h0 : getByte s (o + 0) = .ok bs[o] := getByte_lead hs ho
  have hbyte {k : Nat} {c : UInt8} (h : getByte s (o + k) = .ok c) :
      (do pure (← getByte s (o + k)).toUInt32 : Checked UInt32) = .ok c.toUInt32 := ok_bind h
  have hfault {k : Nat} (h : bs.length < o + k) : (do pure (← getByte s (o + k)).toUInt32 : Checked UInt32) = .error .fault := by
    rw [getByte_outside hs h]
    rfl
  have hstop {f : UInt32 → Checked UInt32} : (.error .fault : Checked UInt32) >>= f = .error .fault := rfl
  obtain ⟨c1, h1⟩ := getByte_inside hs (k := o + 1) ho
  have h80 : bs[o].toUInt32 < 0x80 ↔ bs[o] < 0x80 := Iff.rfl
  have hE0 : bs[o].toUInt32 < 0xE0 ↔ bs[o] < 0xE0 := Iff.rfl
  have hF0 : bs[o].toUInt32 < 0xF0 ↔ bs[o] < 0xF0 := Iff.rfl
  unfold ConstIterator.value follows
  simp only [ok_bind (hbyte h0), h80, hE0, hF0]
  by_cases ha : bs[o] < 0x80
  · simp only [if_pos ha]
    exact .inl ⟨by omega, _, rfl⟩
  · simp only [if_neg ha]
    by_cases hb : bs[o] < 0xE0
    · simp only [if_pos hb, ok_bind (hbyte h1)]
      exact .inl ⟨by omega, _, rfl⟩
    · simp only [if_neg hb, ok_bind (hbyte h1)]
      by_cases h2 : o + 2 ≤ bs.length
      · obtain ⟨c2, h2'⟩ := getByte_inside hs h2
        by_cases hc : bs[o] < 0xF0
        · simp only [if_pos hc, ok_bind (hbyte h2')]
          exact .inl ⟨h2, _, rfl⟩
        · simp only [if_neg hc, ok_bind (hbyte h2')]
          by_cases h3 : o + 3 ≤ bs.length
          · obtain ⟨c3, h3'⟩ := getByte_inside hs h3
            simp only [ok_bind (hbyte h3')]
            exact .inl ⟨h3, _, rfl⟩
          · simp only [hfault (k := 3) (by omega), hstop]
            exact .inr ⟨by omega, trivial⟩
      · refine .inr ⟨?_, ?_⟩
        · split <;> omega
        · simp only [hfault (k := 2) (by omega), hstop, ite_self]

/-- The bytes skipped continue a code point, the one behind them does not. -/
theorem skipUp_stops {l : Bytes} (h : ∃ x ∈ l, continues x = false) (offset : Nat) :
    ∃ n m, skipUp l offset = .ok (offset + n) ∧ l[n]? = some m ∧ continues m = false ∧
      ∀ k < n, ∀ x, l[k]? = some x → continues x = true := by
  have hparts : l.takeWhile continues ++ l.dropWhile continues = l := List.takeWhile_append_dropWhile
  have hhead := List.head?_dropWhile_not continues l
  have hskip := skipUp_eq h offset
  cases hrest : l.dropWhile continues with
  | nil =>
    obtain ⟨x, hx, hcont⟩ := h
    rw [hrest, List.append_nil] at hparts
    rw [← hparts] at hx
    exact absurd (List.mem_takeWhile_imp hx) (by simp [hcont])
  | cons m q =>
    rw [hrest] at hparts hhead
    have hstop : (l.takeWhile continues ++ m :: q)[(l.takeWhile continues).length]? = some m := by
      rw [List.getElem?_append_right (Nat.le_refl _), Nat.sub_self]
      rfl
    rw [hparts] at hstop
    refine ⟨(l.takeWhile continues).length, m, hskip, hstop, by simpa using hhead, fun k hk x hx => ?_⟩
    have hin : (l.takeWhile continues ++ m :: q)[k]? = some x := by rwa [hparts]
    rw [List.getElem?_append_left hk] at hin
    exact List.mem_takeWhile_imp (List.mem_of_getElem? hin)

/-- `++` goes to the next lead byte, or to the terminator. -/
theorem increment_step (hs : s.storage = some (bs ++ [0])) (ho : o < bs.length) :
    ∃ o', (⟨s, o⟩ : ConstIterator).increment = .ok ⟨s, o'⟩ ∧ o < o' ∧ o' ≤ bs.length ∧
      (∀ h : o' < bs.length, continues bs[o'] = false) ∧
      ∀ p, ∀ h : p < bs.length, o < p → p < o' → continues bs[p] = true := by
  have hlast : (0 : UInt8) ∈ (bs ++ [0]).drop (o + 1) := by
    rw [List.drop_append_of_le_length ho]
    exact List.mem_append_right _ List.mem_cons_self
  obtain ⟨n, m, h1, h2, h3, h4⟩ := skipUp_stops ⟨0, hlast, rfl⟩ (o + 1)
  rw [List.getElem?_drop] at h2
  have hend := (List.getElem?_eq_some_iff.mp h2).1
  rw [List.length_append, List.length_singleton] at hend
  refine ⟨o + 1 + n, ?_, by omega, by omega, fun h => ?_, fun p h hop hpn => ?_⟩
  · unfold ConstIterator.increment
    simp only [hs]
    show (skipUp ((bs ++ [0]).drop (o + 1)) (o + 1) >>= fun offset => pure (⟨s, offset⟩ : ConstIterator)) = _
    rw [ok_bind h1]
    rfl
  · rw [List.getElem?_append_left h, List.getElem?_eq_getElem h] at h2
    rw [Option.some.inj h2]
    exact h3
  · refine h4 (p - (o + 1)) (by omega) _ ?_
    rw [List.getElem?_drop, show o + 1 + (p - (o + 1)) = p by omega, List.getElem?_append_left h,
      List.getElem?_eq_getElem h]

/-! ## The walk -/

/-- One stop after the other. -/
theorem completeFrom_next {o' : Nat} (ho : o < bs.length) (hlt : o < o')
    (hlead : ∀ h : o' < bs.length, continues bs[o'] = false)
    (hskip : ∀ p, ∀ h : p < bs.length, o < p → p < o' → continues bs[p] = true) :
    CompleteFrom bs o ↔ o + follows bs[o] ≤ bs.length ∧ CompleteFrom bs o' := by
  constructor
  · intro h
    refine ⟨h o ho (Nat.le_refl _) (.inl rfl), fun p hp hle hstop => h p hp (by omega) (.inr ?_)⟩
    rcases hstop with rfl | hstop
    · exact hlead hp
    · exact hstop
  · intro ⟨h1, h2⟩ p hp hle hstop
    rcases Nat.eq_or_lt_of_le hle with rfl | hlt'
    · exact h1
    · have hc : continues bs[p] = false := hstop.resolve_left (by omega)
      have hge : o' ≤ p := by
        by_contra hge
        rw [hskip p hp hlt' (by omega)] at hc
        cases hc
      exact h2 p hp hge (.inr hc)

/-- The walk from `o` on ends at `end()`, or leaves the buffer. -/
theorem valuesFrom_cases (hs : s.storage = some (bs ++ [0])) (hsize : s.size_ = bs.length) {fuel : Nat}
    (ho : o ≤ bs.length)
    (hfuel : bs.length - o ≤ fuel) :
    (CompleteFrom bs o ∧ ∃ vs, valuesFrom fuel ⟨s, o⟩ = .ok vs) ∨
      (¬ CompleteFrom bs o ∧ valuesFrom fuel ⟨s, o⟩ = .error .fault) := by
  induction fuel generalizing o with
  | zero =>
    have hend : o = bs.length := by omega
    refine .inl ⟨fun p hp hle => absurd hp (by omega), [], ?_⟩
    unfold valuesFrom
    simp only [hsize, if_pos hend]
    rfl
  | succ fuel ih =>
    unfold valuesFrom
    by_cases hend : o = bs.length
    · refine .inl ⟨fun p hp hle => absurd hp (by omega), [], ?_⟩
      simp only [hsize, if_pos hend]
      rfl
    · have hlt : o < bs.length := by omega
      obtain ⟨o', hinc, hoo', ho', hlead, hskip⟩ := increment_step hs hlt
      have hnext := completeFrom_next hlt hoo' hlead hskip
      simp only [hsize, if_neg hend]
      rcases value_cases hs hlt with ⟨hle, v, hv⟩ | ⟨hgt, hv⟩
      · rw [ok_bind hv, ok_bind hinc]
        rcases ih ho' (by omega) with ⟨hc, vs, hvs⟩ | ⟨hc, hf⟩
        · exact .inl ⟨hnext.mpr ⟨hle, hc⟩, v :: vs, by rw [ok_bind hvs]; rfl⟩
        · exact .inr ⟨fun h => hc (hnext.mp h).2, by rw [hf]; rfl⟩
      · exact .inr ⟨fun h => absurd (hnext.mp h).1 (by omega), by rw [hv]; rfl⟩

/-- A C string whose lead bytes announce no more bytes than stand before the end, with the
    terminator as one of them, is iterated to its end inside its buffer of as many bytes
    and the terminator. For any other the walk leaves the buffer. -/
theorem iterates_iff (fresh : Nat → UInt8) (r : Bytes) (h0 : 0 ∉ bs) (h : ofCString fresh (bs ++ 0 :: r) = .ok s) :
    ((∃ vs, values s = .ok vs) ↔ Complete bs) ∧ (¬ Complete bs → values s = .error .fault) := by
  obtain ⟨hs, hsize⟩ := ofCString_eq h0 h
  have hwalk := valuesFrom_cases hs hsize (Nat.zero_le _) (show bs.length - 0 ≤ s.size_ by omega)
  unfold values begin_
  rcases hwalk with ⟨hc, vs, hvs⟩ | ⟨hc, hf⟩
  · exact ⟨⟨fun _ => hc, fun _ => ⟨vs, hvs⟩⟩, fun hn => absurd hc hn⟩
  · refine ⟨⟨fun ⟨vs, hvs⟩ => ?_, fun h => absurd h hc⟩, fun _ => hf⟩
    rw [hf] at hvs
    cases hvs

/-- A byte that announces one more in front of the terminator. -/
theorem iterates_iff_truncated :
    ((∃ vs, values ⟨some [0x41, 0xC3, 0], 2, 2⟩ = .ok vs) ↔ Complete [0x41, 0xC3]) ∧
      (¬ Complete [0x41, 0xC3] → values ⟨some [0x41, 0xC3, 0], 2, 2⟩ = .error .fault) :=
  iterates_iff (fun _ => 0) [] (by decide) (by decide +kernel)

/-- `*` on the single byte `F0` reads two bytes behind the terminator. -/
theorem lead_byte_overruns : ¬ ∀ (fresh : Nat → UInt8) (bs r : Bytes) (s : Str), 0 ∉ bs →
    ofCString fresh (bs ++ 0 :: r) = .ok s → ∃ vs, values s = .ok vs := by
  intro h
  obtain ⟨vs, hvs⟩ := h (fun _ => 0) [0xF0] [] ⟨some [0xF0, 0], 1, 1⟩ (by decide) (by decide +kernel)
  have hf : values ⟨some [0xF0, 0], 1, 1⟩ = .error .fault := by decide +kernel
  rw [hf] at hvs
  cases hvs

end Str

end Rodvin.Libc
