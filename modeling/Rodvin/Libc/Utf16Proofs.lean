/-
  Rodvin.Libc.Utf16Proofs — a `rodvin::string` made of UTF-16 data.

  `utf16` says which code points the units up to the terminator stand for. The constructor
  makes the string of their encoding (`ofUtf16_makes`), which an iterator reads back
  (`utf16_iterates`); from data without a terminator it makes none (`ofUtf16_unterminated`).
  Assigning that string to another copies it (`assign_makes`).
-/

import Rodvin.Libc.Utf8Proofs

namespace Rodvin.Libc

open Rodvin.Lib

namespace Str

/-! ## UTF-16 -/

/-- The first half of a surrogate pair. -/
def isHigh (u : UInt16) : Bool := 0xD800 ≤ u && u ≤ 0xDBFF

/-- The second half. -/
def isLow (u : UInt16) : Bool := 0xDC00 ≤ u && u ≤ 0xDFFF

/-- A unit by itself; half a pair stands for U+FFFD. -/
def single (u : UInt16) : UInt32 := if isHigh u || isLow u then 0xFFFD else u.toUInt32

def pair (u v : UInt16) : UInt32 := UInt32.ofNat (0x10000 + (u.toNat - 0xD800) * 0x400 + (v.toNat - 0xDC00))

/-- The code points of a sequence of units. -/
def utf16 : List UInt16 → List UInt32
  | [] => []
  | [u] => [single u]
  | u :: v :: us => if isHigh u && isLow v then pair u v :: utf16 us else single u :: utf16 (v :: us)

variable {fresh : Nat → Nat → UInt8} {s : Str} {u v : UInt16} {name us vs r data : List UInt16} {n : Nat}

theorem isHigh_iff : isHigh u = true ↔ 0xD800 ≤ u ∧ u ≤ 0xDBFF := by simp [isHigh]

theorem isLow_iff : isLow u = true ↔ 0xDC00 ≤ u ∧ u ≤ 0xDFFF := by simp [isLow]

theorem length_utf16 (us : List UInt16) : (utf16 us).length ≤ us.length := by
  fun_induction utf16 us with
  | case1 => exact Nat.le_refl _
  | case2 u => exact Nat.le_refl _
  | case3 u v us h ih => simp only [List.length_cons]; omega
  | case4 u v us h ih => simpa using ih

/-- The two halves hold ten bits each. -/
theorem toNat_pair (hu : isHigh u = true) (hv : isLow v = true) :
    (pair u v).toNat = 0x10000 + (u.toNat - 0xD800) * 0x400 + (v.toNat - 0xDC00) := by
  have h1 : u.toNat ≤ 0xDBFF := (isHigh_iff.mp hu).2
  have h2 : v.toNat ≤ 0xDFFF := (isLow_iff.mp hv).2
  unfold pair
  rw [UInt32.toNat_ofNat']
  exact Nat.mod_eq_of_lt (by omega)

theorem utf16_ne_zero (h0 : 0 ∉ us) : 0 ∉ utf16 us := by
  have hsingle {u : UInt16} (hu : 0 ≠ u) : 0 ≠ single u := by
    unfold single
    split
    · decide
    · intro e
      have e' := congrArg UInt32.toNat e
      rw [UInt16.toNat_toUInt32] at e'
      exact hu (UInt16.toNat_inj.mp e')
  fun_induction utf16 us with
  | case1 => exact List.not_mem_nil
  | case2 u =>
    rw [List.mem_singleton]
    exact hsingle (by simpa using h0)
  | case3 u v us h ih =>
    rw [Bool.and_eq_true] at h
    simp only [List.mem_cons, not_or] at h0 ⊢
    refine ⟨fun e => ?_, ih h0.2.2⟩
    have e' := congrArg UInt32.toNat e
    rw [toNat_pair h.1 h.2, UInt32.toNat_zero] at e'
    omega
  | case4 u v us h ih =>
    simp only [List.mem_cons, not_or] at h0 ih ⊢
    exact ⟨hsingle h0.1, ih h0.2⟩

/-! ## `getUtf16Char` -/

/-- The bits that it puts together are the pair. -/
theorem joined_eq_pair (hu : isHigh u = true) (hv : isLow v = true) :
    (((u.toUInt32 <<< 10) &&& 0xFFC00) ||| (v.toUInt32 &&& 0x3FF)) + 0x10000 = pair u v := by
  have h1 : 0xD800 ≤ u.toNat := (isHigh_iff.mp hu).1
  have h2 : u.toNat ≤ 0xDBFF := (isHigh_iff.mp hu).2
  have h3 : 0xDC00 ≤ v.toNat := (isLow_iff.mp hv).1
  have h4 : v.toNat ≤ 0xDFFF := (isLow_iff.mp hv).2
  have hshift : (u.toUInt32 <<< 10).toNat = 2 ^ 10 * u.toNat :=
    toNat_shiftLeft _ rfl (by rw [UInt16.toNat_toUInt32]; omega)
  have hhigh : ((u.toUInt32 <<< 10) &&& 0xFFC00).toNat = 2 ^ 10 * (u.toNat - 0xD800) := by
    have hmask : (2 ^ 10 * u.toNat) &&& 0xFFC00 = 2 ^ 10 * (u.toNat &&& 0x3FF) := by
      have := Nat.shiftLeft_and_distrib (a := u.toNat) (b := 0x3FF) (i := 10)
      rw [Nat.shiftLeft_eq, Nat.shiftLeft_eq, Nat.shiftLeft_eq, Nat.mul_comm, Nat.mul_comm u.toNat] at this
      exact this.symm
    rw [UInt32.toNat_and, hshift]
    show (2 ^ 10 * u.toNat) &&& 0xFFC00 = _
    rw [hmask, show (0x3FF : Nat) = 2 ^ 10 - 1 from rfl, Nat.and_two_pow_sub_one_eq_mod]
    omega
  have hlow : (v.toUInt32 &&& 0x3FF).toNat = v.toNat - 0xDC00 := by
    rw [UInt32.toNat_and]
    show v.toUInt32.toNat &&& (2 ^ 10 - 1) = _
    rw [Nat.and_two_pow_sub_one_eq_mod, UInt16.toNat_toUInt32]
    omega
  have hten : (0x10000 : UInt32).toNat = 0x10000 := rfl
  refine UInt32.toNat_inj.mp ?_
  rw [UInt32.toNat_add, toNat_or_low hhigh (by omega), hlow, toNat_pair hu hv, hten]
  omega

/-- It takes the first code point off the units in front of a terminator. -/
theorem getUtf16Char_spec (u : UInt16) (us : List UInt16) : ∃ vs, vs <:+ us ∧ ∃ c, utf16 (u :: us) = c :: utf16 vs ∧
    ∀ r, getUtf16Char (u :: us ++ 0 :: r) = .ok (c, vs ++ 0 :: r) := by
  have hlow0 : ¬ (0xDC00 ≤ (0 : UInt16) ∧ (0 : UInt16) ≤ 0xDFFF) := by decide
  by_cases hu : isHigh u = true
  · have hsingle : single u = 0xFFFD := if_pos (by rw [hu]; rfl)
    cases us with
    | nil =>
      refine ⟨[], List.suffix_rfl, 0xFFFD, by simp [utf16, hsingle], fun r => ?_⟩
      simp only [getUtf16Char, List.cons_append, List.nil_append, if_pos (isHigh_iff.mp hu), if_neg hlow0]
      rfl
    | cons v us =>
      by_cases hv : isLow v = true
      · refine ⟨us, List.suffix_cons v us, pair u v, by simp [utf16, hu, hv], fun r => ?_⟩
        simp only [getUtf16Char, List.cons_append, if_pos (isHigh_iff.mp hu), if_pos (isLow_iff.mp hv),
          joined_eq_pair hu hv]
        rfl
      · refine ⟨v :: us, List.suffix_rfl, 0xFFFD, by simp [utf16, hv, hsingle], fun r => ?_⟩
        simp only [getUtf16Char, List.cons_append, if_pos (isHigh_iff.mp hu), if_neg (isLow_iff.not.mp hv)]
        rfl
  · have hdec : utf16 (u :: us) = single u :: utf16 us := by
      cases us with
      | nil => rfl
      | cons v us => simp [utf16, hu]
    refine ⟨us, List.suffix_rfl, single u, hdec, fun r => ?_⟩
    by_cases hl : isLow u = true
    · have hsingle : single u = 0xFFFD := if_pos (by rw [hl, Bool.or_true])
      simp only [getUtf16Char, List.cons_append, if_neg (isHigh_iff.not.mp hu), if_pos (isLow_iff.mp hl), hsingle]
      rfl
    · have hsingle : single u = u.toUInt32 := if_neg (by simp [hu, hl])
      simp only [getUtf16Char, List.cons_append, if_neg (isHigh_iff.not.mp hu), if_neg (isLow_iff.not.mp hl), hsingle]
      rfl

/-- Whatever it takes off, the rest stands behind it. -/
theorem getUtf16Char_suffix {c : UInt32} (h : getUtf16Char data = .ok (c, vs)) : vs <:+ data := by
  unfold getUtf16Char at h
  split at h
  · cases h
  · split at h
    · split at h
      · cases h
      · split at h
        · obtain ⟨-, rfl⟩ := Prod.mk.inj (Except.ok.inj h)
          exact (List.suffix_cons _ _).trans (List.suffix_cons _ _)
        · obtain ⟨-, rfl⟩ := Prod.mk.inj (Except.ok.inj h)
          exact List.suffix_cons _ _
    · split at h
      · obtain ⟨-, rfl⟩ := Prod.mk.inj (Except.ok.inj h)
        exact List.suffix_cons _ _
      · obtain ⟨-, rfl⟩ := Prod.mk.inj (Except.ok.inj h)
        exact List.suffix_cons _ _

/-! ## The constructor -/

theorem pushUtf16_makes (fresh : Nat → Nat → UInt8) (r : List UInt16) (h0 : 0 ∉ name) (hs : Held s)
    (hn : name.length < n) :
    Makes (pushUtf16 fresh s n (name ++ 0 :: r)) (bytes s ++ encoding (utf16 name)) := by
  induction n generalizing s name with
  | zero => exact absurd hn (Nat.not_lt_zero _)
  | succ n ih =>
    cases name with
    | nil => exact .inl ⟨s, rfl, hs, (List.append_nil _).symm⟩
    | cons u us =>
      obtain ⟨vs, hsuffix, c, hc, hget⟩ := getUtf16Char_spec u us
      have hu : u ≠ 0 := fun e => h0 (e ▸ List.mem_cons_self ..)
      have hvs : 0 ∉ vs := fun hm => h0 (List.mem_cons_of_mem _ (hsuffix.subset hm))
      have hlen : vs.length < n := Nat.lt_of_le_of_lt hsuffix.length_le (Nat.lt_of_succ_lt_succ hn)
      have henc : bytes s ++ encoding (utf16 (u :: us)) = bytes s ++ utf8 c ++ encoding (utf16 vs) := by
        rw [hc, encoding, List.flatMap_cons, List.append_assoc]
        rfl
      have hget := hget r
      rw [List.cons_append] at hget ⊢
      rw [henc, pushUtf16, if_pos hu, ok_bind hget]
      rcases pushBack_makes (fresh n) c hs with ⟨t, ht, hheld, hbytes⟩ | ⟨he, hlim⟩
      · rw [ok_bind ht, ← hbytes]
        exact ih hvs hheld hlen
      · rw [he]
        refine .inr ⟨rfl, ?_⟩
        rw [List.length_append]
        omega

theorem roomForEight_eq (fresh : Nat → UInt8) : ∃ s, roomForEight fresh = .ok s ∧ Held s ∧ bytes s = [] := by
  have hnew : new fresh 9 = .ok ((List.range 9).map fresh) := if_pos (by decide)
  have hwrite : write ((List.range 9).map fresh) 0 0 = .ok (((List.range 9).map fresh).set 0 0) :=
    if_pos (by rw [List.length_map, List.length_range]; decide)
  have he : roomForEight fresh = .ok ⟨some (((List.range 9).map fresh).set 0 0), 0, 8⟩ := by
    unfold roomForEight
    rw [ok_bind hnew, ok_bind hwrite]
    rfl
  have hsafe : Safe (roomForEight fresh) Held := safe_roomForEight
  rw [he] at hsafe
  exact ⟨_, he, hsafe, rfl⟩

theorem ofUtf16_makes (fresh : Nat → Nat → UInt8) (r : List UInt16) (h0 : 0 ∉ name) :
    Makes (ofUtf16 fresh (name ++ 0 :: r)) (encoding (utf16 name)) := by
  obtain ⟨s, hs, hheld, hnil⟩ := roomForEight_eq (fresh (name ++ 0 :: r).length)
  have hlen : name.length < (name ++ 0 :: r).length := by simp
  have hm := pushUtf16_makes fresh r h0 hheld hlen
  rw [hnil, List.nil_append] at hm
  unfold ofUtf16
  rwa [ok_bind hs]

theorem pushUtf16_unterminated (h0 : 0 ∉ data) {t : Str} : pushUtf16 fresh s n data ≠ .ok t := by
  induction n generalizing s data with
  | zero => cases data <;> exact nofun
  | succ n ih =>
    cases data with
    | nil => exact nofun
    | cons u us =>
      have hu : u ≠ 0 := fun e => h0 (e ▸ List.mem_cons_self ..)
      intro h
      rw [pushUtf16, if_pos hu] at h
      obtain ⟨⟨c, vs⟩, hget, h⟩ := bind_eq_ok.mp h
      obtain ⟨s', -, h⟩ := bind_eq_ok.mp h
      exact ih (fun hm => h0 ((getUtf16Char_suffix hget).subset hm)) h

/-- Without a terminator the data is read on and on. -/
theorem ofUtf16_unterminated (h0 : 0 ∉ data) {t : Str} : ofUtf16 fresh data ≠ .ok t := by
  intro h
  obtain ⟨s, -, h⟩ := bind_eq_ok.mp h
  exact pushUtf16_unterminated h0 h

/-! ## Reading it back -/

/-- The pair by masks: ten bits of each half. -/
theorem pair_masks (hu : isHigh u = true) (hv : isLow v = true) :
    pair u v = (0x10000 : UInt32) + ((u.toUInt32 &&& 0x3FF) <<< 10) + (v.toUInt32 &&& 0x3FF) := by
  have h1 : 0xD800 ≤ u.toNat := (isHigh_iff.mp hu).1
  have h2 : u.toNat ≤ 0xDBFF := (isHigh_iff.mp hu).2
  have h3 : 0xDC00 ≤ v.toNat := (isLow_iff.mp hv).1
  have h4 : v.toNat ≤ 0xDFFF := (isLow_iff.mp hv).2
  have hmask (w : UInt16) : (w.toUInt32 &&& 0x3FF).toNat = w.toNat % 0x400 := by
    rw [UInt32.toNat_and]
    show w.toUInt32.toNat &&& (2 ^ 10 - 1) = _
    rw [Nat.and_two_pow_sub_one_eq_mod, UInt16.toNat_toUInt32]
  have hhigh : ((u.toUInt32 &&& 0x3FF) <<< 10).toNat = 2 ^ 10 * (u.toNat - 0xD800) := by
    rw [toNat_shiftLeft (k := 10) _ rfl (by rw [hmask]; omega), hmask]
    omega
  have hten : (0x10000 : UInt32).toNat = 0x10000 := rfl
  refine UInt32.toNat_inj.mp ?_
  rw [UInt32.toNat_add, UInt32.toNat_add, hhigh, hmask, toNat_pair hu hv, hten]
  omega

/-- Four bytes are enough for all of them. -/
theorem utf16_lt (us : List UInt16) : ∀ c ∈ utf16 us, c < 0x200000 := by
  have hsingle (u : UInt16) : single u < 0x200000 := by
    unfold single
    split
    · decide
    · show u.toUInt32.toNat < 0x200000
      have := u.toNat_lt
      rw [UInt16.toNat_toUInt32]
      omega
  fun_induction utf16 us with
  | case1 => exact fun c hc => absurd hc List.not_mem_nil
  | case2 u =>
    intro c hc
    rw [List.mem_singleton.mp hc]
    exact hsingle u
  | case3 u v us h ih =>
    rw [Bool.and_eq_true] at h
    intro c hc
    rcases List.mem_cons.mp hc with hc | hc
    · have h1 := u.toNat_lt
      have h2 := v.toNat_lt
      have h3 : u.toNat ≤ 0xDBFF := (isHigh_iff.mp h.1).2
      have h4 : v.toNat ≤ 0xDFFF := (isLow_iff.mp h.2).2
      show c.toNat < 0x200000
      rw [hc, toNat_pair h.1 h.2]
      omega
    · exact ih c hc
  | case4 u v us h ih =>
    intro c hc
    rcases List.mem_cons.mp hc with hc | hc
    · rw [hc]
      exact hsingle u
    · exact ih c hc

/-- Iterating the string made of units in front of a terminator gives their decoding. The
    memory `r` behind the terminator may be none at all, so nothing of it is read. Only
    units that the heap has no room for make no string. -/
theorem utf16_iterates (fresh : Nat → Nat → UInt8) (r : List UInt16) (h0 : 0 ∉ us) :
    ((∃ s, ofUtf16 fresh (us ++ 0 :: r) = .ok s ∧ values s = .ok (utf16 us)) ∨
      (ofUtf16 fresh (us ++ 0 :: r) = .error .noReturn ∧ heapLimit < (encoding (utf16 us)).length + 9)) ∧
    ∀ u v, isHigh u = true → isLow v = true →
      pair u v = (0x10000 : UInt32) + ((u.toUInt32 &&& 0x3FF) <<< 10) + (v.toUInt32 &&& 0x3FF) := by
  refine ⟨?_, fun _ _ hu hv => pair_masks hu hv⟩
  rcases ofUtf16_makes fresh r h0 with ⟨s, hs, hheld, hbytes⟩ | h
  · obtain ⟨junk, h⟩ := hheld.spells hbytes
    exact .inl ⟨s, hs, (spells_roundTrips (utf16_lt us) h).values⟩
  · exact .inr h

/-- A pair, the second half of one, and a first half in front of the terminator. -/
theorem utf16_iterates_halves :
    ((∃ s, ofUtf16 (fun _ _ => 0) ([0xD83D, 0xDE00, 0xDC00, 0x41, 0xD800] ++ [0]) = .ok s ∧
        values s = .ok (utf16 [0xD83D, 0xDE00, 0xDC00, 0x41, 0xD800])) ∨
      (ofUtf16 (fun _ _ => 0) ([0xD83D, 0xDE00, 0xDC00, 0x41, 0xD800] ++ [0]) = .error .noReturn ∧
        heapLimit < (encoding (utf16 [0xD83D, 0xDE00, 0xDC00, 0x41, 0xD800])).length + 9)) ∧
    ∀ u v, isHigh u = true → isLow v = true →
      pair u v = (0x10000 : UInt32) + ((u.toUInt32 &&& 0x3FF) <<< 10) + (v.toUInt32 &&& 0x3FF) :=
  utf16_iterates (fun _ _ => 0) [] (by simp)

/-! ## Assignment -/

theorem zero_not_mem_encoding {cs : List UInt32} (h : 0 ∉ cs) : 0 ∉ encoding cs := by
  intro hm
  obtain ⟨c, hc, hm⟩ := List.mem_flatMap.mp hm
  have hne : c.toNat ≠ 0 := fun e => h ((UInt32.toNat_inj.mp (e.trans UInt32.toNat_zero.symm)) ▸ hc)
  have he := encodes_utf8 c
  generalize utf8 c = bs at he hm
  have hpos {b : UInt8} (hb : 0 < b.toNat) : 0 ≠ b := fun e => by rw [← e] at hb; exact absurd hb (by decide)
  cases he with
  | one _ ha => exact hpos (by omega) (List.mem_singleton.mp hm)
  | two _ _ ha hb =>
    simp only [List.mem_cons, List.not_mem_nil, or_false] at hm
    rcases hm with hm | hm
    · exact hpos (by omega) hm
    · exact hpos (by omega) hm
  | three _ _ ha hb hc =>
    simp only [List.mem_cons, List.not_mem_nil, or_false] at hm
    rcases hm with hm | hm | hm
    · exact hpos (by omega) hm
    · exact hpos (by omega) hm
    · exact hpos (by omega) hm
  | four _ ha hb hc hd =>
    simp only [List.mem_cons, List.not_mem_nil, or_false] at hm
    rcases hm with hm | hm | hm | hm
    · exact hpos (by omega) hm
    · exact hpos (by omega) hm
    · exact hpos (by omega) hm
    · exact hpos (by omega) hm

/-- `operator=` copies a string that has no zero among its bytes. -/
theorem assign_makes (fresh : Nat → UInt8) (self : Str) (h : Held s) (h0 : 0 ∉ bytes s) :
    Makes (assign fresh self s) (bytes s) := by
  have hlen := h.length_bytes
  have hlt := h.size_lt
  obtain ⟨⟨b, hb⟩, -⟩ := h
  unfold assign
  simp only [add_one (lt_of_lt_heapLimit hlt)]
  have hnew : new fresh (s.size_ + 1) = .ok ((List.range (s.size_ + 1)).map fresh) := if_pos hlt
  have hroom : 0 + s.size_ < ((List.range (s.size_ + 1)).map fresh).length := by simp
  obtain ⟨d, hd, hdlen, hdget⟩ := strcpy_spec (hb.ends h0) hroom
  rw [ok_bind hnew, ok_bind (deref_some hb), ok_bind hd]
  have hget : ∀ i ≤ s.size_, d[i]? = b[i]? := fun i hi => (hdget i).trans (if_pos (by omega))
  have howns : Owns ⟨some d, s.size_, s.size_⟩ d :=
    ⟨rfl, by rw [hdlen, List.length_map, List.length_range], Nat.le_refl _, (hget _ (Nat.le_refl _)).trans hb.terminated⟩
  refine .inl ⟨_, rfl, ⟨⟨d, howns⟩, hlt⟩, ?_⟩
  rw [howns.bytes_eq, hb.bytes_eq]
  refine List.ext_getElem? fun i => ?_
  rw [List.getElem?_take, List.getElem?_take]
  by_cases hi : i < s.size_
  · rw [if_pos hi, if_pos hi, hget i (Nat.le_of_lt hi)]
  · rw [if_neg hi, if_neg hi]

end Str

end Rodvin.Libc
