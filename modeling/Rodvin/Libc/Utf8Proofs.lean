/-
  Rodvin.Libc.Utf8Proofs — code points put into a string come out again.

  `push_back` appends the encoding of a code point to the bytes of a string
  (`safe_pushBack_bytes`). An encoding is a lead byte and bytes that continue it
  (`utf8_marked`), `*` inverts it (`value_spec`), and `++` and `--` go from one lead byte to
  the next (`increment_spec`, `decrement_spec`). Over a list of code points this gives
  `utf8_round_trip`.
-/

import Rodvin.Lib.Marked
import Rodvin.Libc.StrProofs
import Rodvin.Libc.Utf8

namespace Rodvin.Libc

open Rodvin.Lib

namespace Str

variable {s : Str} {b pre post : Bytes} {c : UInt32} {cs : List UInt32}

/-! ## Encoding one code point -/

/-- A byte that takes its lowest `k` bits from `x` and the others from `t`. -/
theorem toNat_marked (x : UInt32) {m t : UInt32} {k q : Nat} (hm : m.toNat = 2 ^ k - 1) (ht : t.toNat = 2 ^ k * q)
    (hlt : 2 ^ k * q + 2 ^ k ≤ 256) : ((x &&& m) ||| t).toUInt8.toNat = 2 ^ k * q + x.toNat % 2 ^ k := by
  have hmod : x.toNat % 2 ^ k < 2 ^ k := Nat.mod_lt _ (Nat.two_pow_pos k)
  have hor : x.toNat % 2 ^ k ||| 2 ^ k * q = 2 ^ k * q + x.toNat % 2 ^ k := by
    rw [Nat.or_comm, ← Nat.two_pow_add_eq_or_of_lt hmod]
  rw [UInt32.toNat_toUInt8, UInt32.toNat_or, UInt32.toNat_and, hm, Nat.and_two_pow_sub_one_eq_mod, ht, hor]
  exact Nat.mod_eq_of_lt (by omega)

/-- A byte behind the lead byte, with the low bits of `x`. -/
theorem toNat_tail (x : UInt32) : ((x &&& 0x3F) ||| 0x80).toUInt8.toNat = 0x80 + x.toNat % 64 :=
  toNat_marked (k := 6) (q := 2) x rfl rfl (by decide)

theorem toNat_shiftRight (x : UInt32) {n : UInt32} {k : Nat} (hn : n.toNat % 32 = k) :
    (x >>> n).toNat = x.toNat / 2 ^ k := by
  rw [UInt32.toNat_shiftRight, hn, Nat.shiftRight_eq_div_pow]

/-- The four classes of code points, as numbers. -/
inductive Encodes (n : Nat) : Bytes → Prop
  | one {a : UInt8} : n < 0x80 → a.toNat = n → Encodes n [a]
  | two {a b : UInt8} : 0x80 ≤ n → n < 0x800 → a.toNat = 0xC0 + n / 64 % 32 → b.toNat = 0x80 + n % 64 → Encodes n [a, b]
  | three {a b c : UInt8} : 0x800 ≤ n → n < 0x10000 → a.toNat = 0xE0 + n / 4096 % 16 → b.toNat = 0x80 + n / 64 % 64 →
      c.toNat = 0x80 + n % 64 → Encodes n [a, b, c]
  | four {a b c d : UInt8} : 0x10000 ≤ n → a.toNat = 0xF0 + n / 262144 % 8 → b.toNat = 0x80 + n / 4096 % 64 →
      c.toNat = 0x80 + n / 64 % 64 → d.toNat = 0x80 + n % 64 → Encodes n [a, b, c, d]

theorem encodes_utf8 (c : UInt32) : Encodes c.toNat (utf8 c) := by
  have h6 : (c >>> 6).toNat = c.toNat / 64 := toNat_shiftRight c (k := 6) rfl
  have h12 : (c >>> 12).toNat = c.toNat / 4096 := toNat_shiftRight c (k := 12) rfl
  have h18 : (c >>> 18).toNat = c.toNat / 262144 := toNat_shiftRight c (k := 18) rfl
  have hb := toNat_tail c
  have hb6 := toNat_tail (c >>> 6)
  have hb12 := toNat_tail (c >>> 12)
  rw [h6] at hb6
  rw [h12] at hb12
  unfold utf8
  by_cases h1 : c ≤ 0x7F
  · have h1' : c.toNat ≤ 127 := h1
    rw [if_pos h1]
    refine .one (by omega) ?_
    rw [UInt32.toNat_toUInt8]
    exact Nat.mod_eq_of_lt (by omega)
  · have h1' : ¬ c.toNat ≤ 127 := h1
    rw [if_neg h1]
    by_cases h2 : c ≤ 0x7FF
    · have h2' : c.toNat ≤ 2047 := h2
      have ha : (((c >>> 6) &&& 0x1F) ||| 0xC0).toUInt8.toNat = 0xC0 + c.toNat / 64 % 32 :=
        h6 ▸ toNat_marked (k := 5) (q := 6) _ rfl rfl (by decide)
      rw [if_pos h2]
      exact .two (by omega) (by omega) ha hb
    · have h2' : ¬ c.toNat ≤ 2047 := h2
      rw [if_neg h2]
      by_cases h3 : c ≤ 0xFFFF
      · have h3' : c.toNat ≤ 65535 := h3
        have ha : (((c >>> 12) &&& 0x0F) ||| 0xE0).toUInt8.toNat = 0xE0 + c.toNat / 4096 % 16 :=
          h12 ▸ toNat_marked (k := 4) (q := 14) _ rfl rfl (by decide)
        rw [if_pos h3]
        exact .three (by omega) (by omega) ha hb6 hb
      · have h3' : ¬ c.toNat ≤ 65535 := h3
        have ha : (((c >>> 18) &&& 0x07) ||| 0xF0).toUInt8.toNat = 0xF0 + c.toNat / 262144 % 8 :=
          h18 ▸ toNat_marked (k := 3) (q := 30) _ rfl rfl (by decide)
        rw [if_neg h3]
        exact .four (by omega) ha hb12 hb6 hb

theorem continues_iff {x : UInt8} : continues x = true ↔ 0x80 ≤ x.toNat ∧ x.toNat < 0xC0 := by
  have hall : ∀ n < 256, n &&& 0xC0 = 0x80 ↔ 0x80 ≤ n ∧ n < 0xC0 := by decide +kernel
  rw [← hall x.toNat x.toNat_lt]
  unfold continues
  rw [beq_iff_eq, ← UInt8.toNat_inj, UInt8.toNat_and]
  rfl

theorem not_continues {x : UInt8} (h : x.toNat < 0x80 ∨ 0xC0 ≤ x.toNat) : continues x = false := by
  rw [Bool.eq_false_iff, Ne, continues_iff]
  omega

/-- A lead byte is never mistaken for a byte that continues a code point. -/
theorem utf8_marked : Marked continues utf8 := by
  intro c
  have hc {n : Nat} {x : UInt8} (h : x.toNat = 0x80 + n % 64) : continues x = true := continues_iff.mpr (by omega)
  have he := encodes_utf8 c
  generalize utf8 c = bs at he
  cases he with
  | one h ha => exact ⟨_, _, rfl, not_continues (by omega), nofun⟩
  | two _ _ ha hb =>
    refine ⟨_, _, rfl, not_continues (by omega), fun x hx => ?_⟩
    rw [List.mem_singleton.mp hx, hc hb]
  | three _ _ ha hb hc' =>
    refine ⟨_, _, rfl, not_continues (by omega), fun x hx => ?_⟩
    simp only [List.mem_cons, List.not_mem_nil, or_false] at hx
    rcases hx with rfl | rfl
    · exact hc hb
    · exact hc hc'
  | four _ ha hb hc' hd =>
    refine ⟨_, _, rfl, not_continues (by omega), fun x hx => ?_⟩
    simp only [List.mem_cons, List.not_mem_nil, or_false] at hx
    rcases hx with rfl | rfl | rfl
    · exact hc hb
    · exact hc hc'
    · exact hc hd

/-! ## Decoding one -/

/-- The bytes of a string, and what its buffer holds from there on. -/
theorem getByte_at {k : Nat} {x : UInt8} (hb : s.storage = some (pre ++ (b ++ post))) (hk : b[k]? = some x) :
    getByte s (pre.length + k) = .ok x := by
  have hlt := (List.getElem?_eq_some_iff.mp hk).1
  unfold getByte
  rw [hb]
  refine read_of_some ?_
  rw [List.getElem?_append_right (Nat.le_add_right ..), Nat.add_sub_cancel_left, List.getElem?_append_left hlt, hk]

theorem toNat_shiftLeft (x : UInt32) {n : UInt32} {k : Nat} (hn : n.toNat % 32 = k) (hx : 2 ^ k * x.toNat < 2 ^ 32) :
    (x <<< n).toNat = 2 ^ k * x.toNat := by
  rw [UInt32.toNat_shiftLeft, hn, Nat.shiftLeft_eq, Nat.mul_comm, Nat.mod_eq_of_lt hx]

/-- The or of numbers without a common bit. -/
theorem toNat_or_low {x y : UInt32} {k q : Nat} (hx : x.toNat = 2 ^ k * q) (hy : y.toNat < 2 ^ k) :
    (x ||| y).toNat = 2 ^ k * q + y.toNat := by
  rw [UInt32.toNat_or, hx, Nat.two_pow_add_eq_or_of_lt hy]

/-- The low bits of a byte. -/
theorem toNat_low (x : UInt8) {m : UInt32} {k n : Nat} (hm : m.toNat = 2 ^ k - 1) (hx : x.toNat % 2 ^ k = n) :
    (x.toUInt32 &&& m).toNat = n := by
  rw [UInt32.toNat_and, hm, Nat.and_two_pow_sub_one_eq_mod, UInt8.toNat_toUInt32, hx]

/-- The low bits of a byte behind the lead byte. -/
theorem toNat_tail_low {x : UInt8} {n : Nat} (hx : x.toNat = 0x80 + n % 64) : (x.toUInt32 &&& 0x3F).toNat = n % 64 :=
  toNat_low x (k := 6) rfl (by omega)

/-- Six more bits behind those in `x`. -/
theorem toNat_join {x n : UInt32} {y : UInt8} {k m q : Nat} (hx : x.toNat = 2 ^ (k + 6) * q)
    (hy : y.toNat = 0x80 + m % 64)
    (hn : n.toNat % 32 = k) (hk : k ≤ 26) :
    (x ||| ((y.toUInt32 &&& 0x3F) <<< n)).toNat = 2 ^ k * (64 * q + m % 64) := by
  have hm : m % 64 < 2 ^ 6 := Nat.mod_lt _ (by decide)
  have hlt : 2 ^ k * (m % 64) < 2 ^ (k + 6) := by
    rw [Nat.pow_add]
    exact Nat.mul_lt_mul_of_pos_left hm (Nat.two_pow_pos k)
  have hword : 2 ^ (k + 6) ≤ 2 ^ 32 := Nat.pow_le_pow_right (by decide) (by omega)
  have hs : ((y.toUInt32 &&& 0x3F) <<< n).toNat = 2 ^ k * (m % 64) := by
    rw [toNat_shiftLeft _ hn (by rw [toNat_tail_low hy]; omega), toNat_tail_low hy]
  rw [toNat_or_low hx (by rw [hs]; exact hlt), hs, Nat.pow_add, Nat.mul_add, Nat.mul_assoc]

/-- The last six bits. -/
theorem toNat_join_last {x : UInt32} {y : UInt8} {m q : Nat} (hx : x.toNat = 64 * q) (hy : y.toNat = 0x80 + m % 64) :
    (x ||| (y.toUInt32 &&& 0x3F)).toNat = 64 * q + m % 64 := by
  have hlt : (y.toUInt32 &&& 0x3F).toNat < 2 ^ 6 := by
    rw [toNat_tail_low hy]
    exact Nat.mod_lt _ (by decide)
  rw [toNat_or_low (k := 6) hx hlt, toNat_tail_low hy]
  rfl

theorem value_spec (hb : s.storage = some (pre ++ (utf8 c ++ post))) (hc : c < 0x200000) :
    (⟨s, pre.length⟩ : ConstIterator).value = .ok c := by
  have hc : c.toNat < 2097152 := hc
  have he := encodes_utf8 c
  have hbyte {k : Nat} {x : UInt8} (hk : (utf8 c)[k]? = some x) :
      (do pure (← getByte s (pre.length + k)).toUInt32 : Checked UInt32) = .ok x.toUInt32 :=
    ok_bind (getByte_at hb hk)
  have h80 (x : UInt8) : x.toUInt32 < 0x80 ↔ x.toNat < 0x80 := Iff.rfl
  have hE0 (x : UInt8) : x.toUInt32 < 0xE0 ↔ x.toNat < 0xE0 := Iff.rfl
  have hF0 (x : UInt8) : x.toUInt32 < 0xF0 ↔ x.toNat < 0xF0 := Iff.rfl
  unfold ConstIterator.value
  simp only
  generalize utf8 c = bs at he hbyte
  cases he with
  | @one a h ha =>
    rw [ok_bind (hbyte (k := 0) rfl), if_pos ((h80 a).mpr (by omega))]
    refine congrArg Except.ok (UInt32.toNat_inj.mp ?_)
    rw [UInt8.toNat_toUInt32, ha]
  | @two a b _ h ha hb' =>
    have hav : (a.toUInt32 &&& 0x1F).toNat = c.toNat / 64 := toNat_low a (k := 5) rfl (by omega)
    have hs := toNat_shiftLeft (a.toUInt32 &&& 0x1F) (n := 6) (k := 6) rfl (by omega)
    rw [ok_bind (hbyte (k := 0) rfl), if_neg (by rw [h80]; omega), if_pos ((hE0 a).mpr (by omega)),
      ok_bind (hbyte (k := 1) rfl)]
    refine congrArg Except.ok (UInt32.toNat_inj.mp ?_)
    rw [toNat_join_last hs hb', hav]
    omega
  | @three a b d _ h ha hb' hd =>
    have hav : (a.toUInt32 &&& 0x0F).toNat = c.toNat / 4096 := toNat_low a (k := 4) rfl (by omega)
    have hs := toNat_shiftLeft (a.toUInt32 &&& 0x0F) (n := 12) (k := 12) rfl (by omega)
    have hab := toNat_join (k := 6) (n := 6) hs hb' rfl (by decide)
    rw [ok_bind (hbyte (k := 0) rfl), if_neg (by rw [h80]; omega), if_neg (by rw [hE0]; omega),
      if_pos ((hF0 a).mpr (by omega)), ok_bind (hbyte (k := 1) rfl), ok_bind (hbyte (k := 2) rfl)]
    refine congrArg Except.ok (UInt32.toNat_inj.mp ?_)
    rw [toNat_join_last hab hd, hav]
    omega
  | @four a b d e h ha hb' hd he' =>
    have hav : (a.toUInt32 &&& 0x07).toNat = c.toNat / 262144 := toNat_low a (k := 3) rfl (by omega)
    have hs := toNat_shiftLeft (a.toUInt32 &&& 0x07) (n := 18) (k := 18) rfl (by omega)
    have hab := toNat_join (k := 12) (n := 12) hs hb' rfl (by decide)
    have habd := toNat_join (k := 6) (n := 6) hab hd rfl (by decide)
    rw [ok_bind (hbyte (k := 0) rfl), if_neg (by rw [h80]; omega), if_neg (by rw [hE0]; omega),
      if_neg (by rw [hF0]; omega),
      ok_bind (hbyte (k := 1) rfl), ok_bind (hbyte (k := 2) rfl), ok_bind (hbyte (k := 3) rfl)]
    refine congrArg Except.ok (UInt32.toNat_inj.mp ?_)
    rw [toNat_join_last habd he', hav]
    omega

/-! ## Stepping over one -/

theorem skipUp_eq {l : Bytes} (h : ∃ x ∈ l, continues x = false) (offset : Nat) :
    skipUp l offset = .ok (offset + (l.takeWhile continues).length) := by
  induction l generalizing offset with
  | nil => exact absurd h (by simp)
  | cons x l ih =>
    unfold skipUp
    by_cases hx : continues x = true
    · obtain ⟨y, hy, hy'⟩ := h
      have hrest : ∃ y ∈ l, continues y = false := by
        rcases List.mem_cons.mp hy with rfl | hy
        · exact absurd hx (by simp [hy'])
        · exact ⟨y, hy, hy'⟩
      rw [if_pos hx, ih hrest, List.takeWhile_cons_of_pos hx, List.length_cons]
      congr 1
      omega
    · rw [if_neg hx, List.takeWhile_cons_of_neg hx]
      rfl

/-- Down from behind the bytes `t` to the lead byte in front of them. -/
theorem popScan_lead {m : UInt8} {t : Bytes} (hm : continues m = false) (ht : ∀ x ∈ t, continues x = true) :
    popScan (pre ++ (m :: (t ++ post))) (pre.length + t.length + 1) = .ok pre.length := by
  induction t using List.reverseRecOn generalizing post with
  | nil =>
    have hr : read (pre ++ (m :: ([] ++ post))) pre.length = .ok m := read_of_some (by simp)
    rw [List.length_nil, Nat.add_zero, popScan, ok_bind hr, if_neg (by simpa [continues] using hm)]
    rfl
  | append_singleton t x ih =>
    have hx : continues x = true := ht x (by simp)
    have hr : read (pre ++ (m :: (t ++ [x] ++ post))) (pre.length + t.length + 1) = .ok x := by
      refine read_of_some ?_
      rw [List.getElem?_append_right (by omega), show pre.length + t.length + 1 - pre.length = t.length + 1 by omega]
      simp
    have hsame : pre ++ (m :: (t ++ [x] ++ post)) = pre ++ (m :: (t ++ ([x] ++ post))) := by simp
    rw [List.length_append, List.length_singleton, ← Nat.add_assoc, popScan, ok_bind hr,
      if_pos (by simpa [continues] using hx), hsame]
    exact ih fun y hy => ht y (by simp [hy])

theorem increment_spec (hb : s.storage = some (pre ++ (utf8 c ++ post))) (hne : post ≠ [])
    (hp : ∀ x ∈ post.head?, continues x = false) :
    (⟨s, pre.length⟩ : ConstIterator).increment = .ok ⟨s, pre.length + (utf8 c).length⟩ := by
  have htail := utf8_marked.takeWhile hp c
  obtain ⟨m, t, he, -⟩ := utf8_marked c
  rw [he, List.tail_cons] at htail
  obtain ⟨x, xs, rfl⟩ := List.exists_cons_of_ne_nil hne
  have hdrop : (pre ++ (utf8 c ++ x :: xs)).drop (pre.length + 1) = t ++ x :: xs := by
    rw [he, ← List.drop_drop, List.drop_left]
    rfl
  have hskip : skipUp (t ++ x :: xs) (pre.length + 1) = .ok (pre.length + (utf8 c).length) := by
    rw [skipUp_eq ⟨x, by simp, hp x rfl⟩, htail, he, List.length_cons]
    congr 1
    omega
  have hderef : deref s.storage = .ok (pre ++ (utf8 c ++ x :: xs)) := by rw [hb]; rfl
  unfold ConstIterator.increment
  simp only [ok_bind hderef, hdrop, ok_bind hskip]
  rfl

theorem decrement_spec (hb : s.storage = some (pre ++ (utf8 c ++ post))) :
    (⟨s, pre.length + (utf8 c).length⟩ : ConstIterator).decrement = .ok ⟨s, pre.length⟩ := by
  obtain ⟨m, t, he, hm, ht⟩ := utf8_marked c
  have hscan : popScan (pre ++ (utf8 c ++ post)) (pre.length + (utf8 c).length) = .ok pre.length := by
    rw [he, List.length_cons, ← Nat.add_assoc, List.cons_append]
    exact popScan_lead hm ht
  have hderef : deref s.storage = .ok (pre ++ (utf8 c ++ post)) := by rw [hb]; rfl
  unfold ConstIterator.decrement
  simp only [ok_bind hderef, ok_bind hscan]
  rfl

/-! ## Appending -/

theorem Held.length_bytes (h : Held s) : (bytes s).length = s.size_ := by
  obtain ⟨⟨b, hb⟩, -⟩ := h
  have hlen := hb.length
  have hsize := hb.size
  rw [hb.bytes_eq, List.length_take]
  omega

/-- A string of the bytes `bs`, unless the heap cannot hold them. -/
def Makes (m : Checked Str) (bs : Bytes) : Prop :=
  (∃ t, m = .ok t ∧ Held t ∧ bytes t = bs) ∨ (m = .error .noReturn ∧ heapLimit < bs.length + 9)

theorem pushBack_makes (fresh : Nat → UInt8) (c : UInt32) (h : Held s) :
    Makes (pushBack fresh s c) (bytes s ++ utf8 c) := by
  have hlen := h.length_bytes
  obtain ⟨⟨b, hb⟩, hl⟩ := h
  rcases pushBack_cases fresh c hb.storage hb.length hb.size hl with ⟨t, ht, hheld, hbytes⟩ | ⟨he, hfull⟩
  · exact .inl ⟨t, ht, hheld, by rw [hbytes, hb.bytes_eq]⟩
  · refine .inr ⟨he, ?_⟩
    rw [List.length_append]
    omega

theorem pushAll_makes {fresh : Nat → Nat → UInt8} : ∀ {cs : List UInt32} {s : Str}, Held s →
    Makes (pushAll fresh s cs) (bytes s ++ encoding cs) := by
  intro cs
  induction cs with
  | nil => exact fun hs => .inl ⟨_, rfl, hs, (List.append_nil _).symm⟩
  | cons c cs ih =>
    intro s hs
    have henc : bytes s ++ encoding (c :: cs) = bytes s ++ utf8 c ++ encoding cs := by
      rw [encoding, List.flatMap_cons, List.append_assoc]
      rfl
    rw [henc, pushAll]
    rcases pushBack_makes (fresh cs.length) c hs with ⟨t, ht, hheld, hbytes⟩ | ⟨he, hlim⟩
    · rw [ok_bind ht, ← hbytes]
      exact ih hheld
    · rw [he]
      refine .inr ⟨rfl, ?_⟩
      rw [List.length_append]
      omega

theorem ofCodePoints_makes (fresh : Nat → Nat → UInt8) (cs : List UInt32) :
    Makes (ofCodePoints fresh cs) (encoding cs) := by
  have hnew : ∃ s, ofCString (fresh cs.length) [0] = .ok s ∧ s.size_ = 0 ∧ Held s := by
    refine ⟨⟨some [0], 0, 0⟩, rfl, rfl, ⟨[0], rfl, rfl, Nat.le_refl _, rfl⟩, ?_⟩
    show 0 < heapLimit
    decide
  obtain ⟨s, hs, hsize, hheld⟩ := hnew
  have hnil : bytes s = [] := List.length_eq_zero_iff.mp (hheld.length_bytes.trans hsize)
  have hpush : Makes (pushAll fresh s cs) (bytes s ++ encoding cs) := pushAll_makes hheld
  rw [hnil, List.nil_append] at hpush
  unfold ofCodePoints
  rwa [ok_bind hs]

/-! ## Walking over all -/

theorem lengthFrom_eq {n : Nat} (hb : Owns s b) : ∀ {offset : Nat}, offset + n ≤ b.length →
    lengthFrom s offset n = .ok (((b.drop offset).take n).countP fun x => !continues x) := by
  induction n with
  | zero => intro offset _; rfl
  | succ n ih =>
    intro offset h
    have hget : getByte s offset = .ok b[offset] := by
      unfold getByte
      rw [ok_bind (deref_some hb)]
      exact read_of_some (List.getElem?_eq_getElem (by omega))
    rw [lengthFrom, ok_bind hget, ok_bind (ih (by omega)),
      List.drop_eq_getElem_cons (show offset < b.length by omega), List.take_succ_cons,
      List.countP_cons]
    cases continues b[offset] with
    | true => rfl
    | false => rfl

/-- The buffer of a string of code points: their encoding and a terminator. -/
structure Spells (s : Str) (cs : List UInt32) (junk : Bytes) : Prop where
  owns : Owns s (encoding cs ++ 0 :: junk)
  size : s.size_ = (encoding cs).length

/-- What a walk over the code points relies on: behind them stands a byte that continues
    none, the terminator or another. -/
structure Reads (s : Str) (cs : List UInt32) (x : UInt8) (junk : Bytes) : Prop where
  storage : s.storage = some (encoding cs ++ x :: junk)
  size : s.size_ = (encoding cs).length
  lead : continues x = false

theorem Spells.reads {junk : Bytes} (h : Spells s cs junk) : Reads s cs 0 junk := ⟨h.owns.storage, h.size, rfl⟩

theorem Held.spells (h : Held s) (hc : bytes s = encoding cs) : ∃ junk, Spells s cs junk := by
  have hsize := h.length_bytes
  obtain ⟨⟨b, hb⟩, -⟩ := h
  have hlt := (List.getElem?_eq_some_iff.mp hb.terminated).1
  have hz : b[s.size_] = 0 := by
    have := hb.terminated
    rw [List.getElem?_eq_getElem hlt] at this
    exact Option.some.inj this
  refine ⟨b.drop (s.size_ + 1), ?_, by rw [← hsize, hc]⟩
  have hsplit : encoding cs ++ 0 :: b.drop (s.size_ + 1) = b := by
    rw [← hc, hb.bytes_eq, ← hz, ← List.drop_eq_getElem_cons hlt, List.take_append_drop]
  rwa [hsplit]

theorem length_encoding_cons (c : UInt32) (cs : List UInt32) :
    (encoding (c :: cs)).length = (utf8 c).length + (encoding cs).length := by
  rw [encoding, List.flatMap_cons, List.length_append]
  rfl

theorem encoding_append (cs ds : List UInt32) : encoding (cs ++ ds) = encoding cs ++ encoding ds := List.flatMap_append

/-- At a boundary before the end stands a code point, and a byte that continues none behind
    it. -/
theorem Reads.split {p q : List UInt32} {x : UInt8} {junk : Bytes} (h : Reads s (p ++ c :: q) x junk) :
    s.storage = some (encoding p ++ (utf8 c ++ (encoding q ++ x :: junk))) ∧
      (∀ y ∈ (encoding q ++ x :: junk).head?, continues y = false) ∧
      (encoding p).length + (utf8 c).length = (encoding (p ++ [c])).length := by
  refine ⟨?_, utf8_marked.head (fun y hy => by rw [← Option.some.inj hy]; exact h.lead) q, ?_⟩
  · have hsame : encoding (p ++ c :: q) ++ x :: junk = encoding p ++ (utf8 c ++ (encoding q ++ x :: junk)) := by
      rw [encoding_append]
      simp [encoding]
    exact hsame ▸ h.storage
  · rw [encoding_append, List.length_append]
    simp [encoding]

theorem boundary_increment {p q : List UInt32} {x : UInt8} {junk : Bytes} (h : Reads s (p ++ c :: q) x junk) :
    (boundary s p).increment = .ok (boundary s (p ++ [c])) := by
  obtain ⟨h1, h2, h3⟩ := h.split
  unfold boundary
  rw [← h3]
  exact increment_spec h1 (by simp) h2

theorem boundary_decrement {p q : List UInt32} {x : UInt8} {junk : Bytes} (h : Reads s (p ++ c :: q) x junk) :
    (boundary s (p ++ [c])).decrement = .ok (boundary s p) := by
  obtain ⟨h1, -, h3⟩ := h.split
  unfold boundary
  rw [← h3]
  exact decrement_spec h1

theorem boundary_value {p q : List UInt32} {x : UInt8} {junk : Bytes} (h : Reads s (p ++ c :: q) x junk)
    (hc : c < 0x200000) :
    (boundary s p).value = .ok c := value_spec h.split.1 hc

/-- The boundary in front of a code point is not the end. -/
theorem boundary_ne_end {p q : List UInt32} {x : UInt8} {junk : Bytes} (h : Reads s (p ++ c :: q) x junk) :
    ¬ (boundary s p).offset = (boundary s p).str.size_ := by
  have hlead : 0 < (utf8 c).length := List.length_pos_iff.mpr (utf8_marked.ne_nil c)
  show ¬ (encoding p).length = s.size_
  rw [h.size, encoding_append, List.length_append, length_encoding_cons]
  omega

theorem boundary_end {x : UInt8} {junk : Bytes} (h : Reads s cs x junk) :
    (boundary s cs).offset = (boundary s cs).str.size_ := h.size.symm

/-- The walk from a boundary on. -/
theorem valuesFrom_eq {x : UInt8} {junk : Bytes} (hc : ∀ c ∈ cs, c < 0x200000) (h : Reads s cs x junk) :
    ∀ {q p : List UInt32} {fuel : Nat}, cs = p ++ q → q.length ≤ fuel → valuesFrom fuel (boundary s p) = .ok q := by
  intro q
  induction q with
  | nil =>
    intro p fuel hpq _
    rw [hpq, List.append_nil] at h
    unfold valuesFrom
    rw [if_pos (boundary_end h)]
    rfl
  | cons c q ih =>
    intro p fuel hpq hfuel
    rw [hpq] at h hc
    have hvalue : (boundary s p).value = .ok c := boundary_value h (hc c (by simp))
    cases fuel with
    | zero => exact absurd hfuel (by simp)
    | succ fuel =>
      have hrest : valuesFrom fuel (boundary s (p ++ [c])) = .ok q := ih (by rw [hpq]; simp) (by simpa using hfuel)
      unfold valuesFrom
      simp only [if_neg (boundary_ne_end h)]
      rw [ok_bind hvalue, ok_bind (boundary_increment h), ok_bind hrest]
      rfl

theorem length_le_encoding (cs : List UInt32) : cs.length ≤ (encoding cs).length := by
  have := utf8_marked.countP cs
  have hle := List.countP_le_length (l := encoding cs) (p := fun x => !continues x)
  unfold encoding at hle ⊢
  omega

theorem spells_roundTrips {junk : Bytes} (hc : ∀ c ∈ cs, c < 0x200000) (h : Spells s cs junk) : RoundTrips cs s where
  values := valuesFrom_eq hc h.reads (p := []) rfl (by rw [h.size]; exact length_le_encoding cs)
  length := by
    unfold length
    rw [lengthFrom_eq h.owns (by rw [h.size, List.length_append]; omega), List.drop_zero, h.size, List.take_left]
    exact congrArg Except.ok (utf8_marked.countP cs)
  bounds := ⟨rfl, by unfold boundary end_; rw [h.size]⟩
  down := by
    intro p q hpq hne
    obtain ⟨c, q, rfl⟩ := List.exists_cons_of_ne_nil hne
    rw [hpq] at h
    rw [ok_bind (boundary_increment h.reads)]
    exact boundary_decrement h.reads
  up := by
    intro p q hpq hne
    obtain ⟨p, c, rfl⟩ := (List.eq_nil_or_concat p).resolve_left hne
    rw [List.concat_eq_append] at hpq ⊢
    have h' : Spells s (p ++ c :: q) junk := by
      rw [hpq, List.append_assoc] at h
      exact h
    rw [ok_bind (boundary_decrement h'.reads)]
    exact boundary_increment h'.reads

/-- Code points below `0x200000` pushed onto `string("")` are read back by an iterator and
    counted by `length`, and `++` and `--` undo each other at every boundary. Only a list that
    the heap has no room for is never finished. -/
theorem utf8_round_trip (fresh : Nat → Nat → UInt8) (cs : List UInt32) (hc : ∀ c ∈ cs, c < 0x200000) :
    (∃ s, ofCodePoints fresh cs = .ok s ∧ RoundTrips cs s) ∨
      (ofCodePoints fresh cs = .error .noReturn ∧ heapLimit < (encoding cs).length + 9) := by
  rcases ofCodePoints_makes fresh cs with ⟨s, hs, hheld, hbytes⟩ | h
  · obtain ⟨junk, h⟩ := hheld.spells hbytes
    exact .inl ⟨s, hs, spells_roundTrips hc h⟩
  · exact .inr h

/-- The last code point of each of the four classes. -/
theorem utf8_round_trip_classes :
    (∃ s, ofCodePoints (fun _ _ => 0) [0x7F, 0x7FF, 0xFFFF, 0x1FFFFF] = .ok s ∧ RoundTrips [0x7F, 0x7FF, 0xFFFF, 0x1FFFFF] s) ∨
      (ofCodePoints (fun _ _ => 0) [0x7F, 0x7FF, 0xFFFF, 0x1FFFFF] = .error .noReturn ∧
        heapLimit < (encoding [0x7F, 0x7FF, 0xFFFF, 0x1FFFFF]).length + 9) :=
  utf8_round_trip (fun _ _ => 0) [0x7F, 0x7FF, 0xFFFF, 0x1FFFFF] (by simp)

end Str

end Rodvin.Libc
