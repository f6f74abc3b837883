/-
  Rodvin.Libc.StrProofs — when `rodvin::string` keeps its representation.

  One lemma per operation: from strings with a good representation, and under the
  operation's own condition, it touches no byte outside the buffers and what it leaves is
  good again. `reserve` is the common step: it keeps the bytes up to the capacity
  (`safe_reserve`), so the terminator moves along.

  The run theorem collects them (`strings_good`).
-/

import Rodvin.Libc.Str

namespace Rodvin.Libc

open Rodvin.Lib

namespace Str

/-- A good string that the heap could hold. -/
def Held (s : Str) : Prop := Good s ∧ s.capacity_ < heapLimit

theorem safe_new {fresh : Nat → UInt8} {n : Nat} : Safe (new fresh n) fun b => b.length = n ∧ n ≤ heapLimit := by
  unfold new
  by_cases h : n ≤ heapLimit
  · rw [if_pos h]
    exact ⟨by simp, h⟩
  · rw [if_neg h]
    exact Safe.noReturn

theorem deref_some {s : Str} {b : Bytes} (h : Owns s b) : deref s.storage = .ok b := by
  rw [h.storage]
  rfl

theorem add_one {n : Nat} (h : n < 2 ^ 63) : add64 n 1 = n + 1 := add64_eq (by omega)

theorem Held.size_lt {s : Str} (h : Held s) : s.size_ < heapLimit := by
  obtain ⟨⟨b, hb⟩, hl⟩ := h
  exact Nat.lt_of_le_of_lt hb.size hl

theorem lt_of_lt_heapLimit {n : Nat} (h : n < heapLimit) : n < 2 ^ 63 :=
  Nat.lt_trans h (by decide)

theorem Owns.bytes_eq {s : Str} {b : Bytes} (h : Owns s b) : bytes s = b.take s.size_ := by
  unfold bytes
  rw [h.storage]
  rfl

/-- The bytes of a string end where its first zero is. -/
theorem Owns.ends {s : Str} {b : Bytes} (h : Owns s b) (h0 : 0 ∉ bytes s) : Ends b s.size_ := by
  refine ⟨h.terminated, fun i hi e => h0 ?_⟩
  rw [h.bytes_eq]
  exact List.mem_of_getElem? (i := i) (by rw [List.getElem?_take, if_pos hi, e])

/-! ## Construction -/

/-- A fresh buffer that a string is copied into. -/
theorem safe_filled {n : Nat} {fill : Bytes → Checked Bytes} {fresh : Nat → UInt8} (hn : n < 2 ^ 63)
    (hfill : ∀ b : Bytes, b.length = n + 1 → Safe (fill b) fun e => e.length = n + 1 ∧ e[n]? = some 0) :
    Safe (do let b ← new fresh (add64 n 1); let b ← fill b; pure (⟨some b, n, n⟩ : Str)) Held := by
  rw [add_one hn]
  refine safe_new.bind fun b ⟨hb, hl⟩ => (hfill b hb).bind fun c ⟨hc, hz⟩ => Safe.pure ?_
  exact ⟨⟨c, rfl, hc, Nat.le_refl _, hz⟩, hl⟩

theorem safe_copy {fresh : Nat → UInt8} {str : Str} (h : Held str) (h0 : 0 ∉ bytes str) :
    Safe (copy fresh str) Held := by
  obtain ⟨⟨b, hb⟩, -⟩ := id h
  unfold copy
  rw [deref_some hb]
  refine safe_filled (lt_of_lt_heapLimit h.size_lt) fun c hc => ?_
  refine (safe_strcpy (hb.ends h0) (by omega)).mono fun e ⟨h1, h2, _⟩ => ?_
  rw [Nat.zero_add] at h2
  exact ⟨h1.trans hc, h2⟩

theorem safe_assign {fresh : Nat → UInt8} {self str : Str} (h : Held str) (h0 : 0 ∉ bytes str) :
    Safe (assign fresh self str) Held := safe_copy h h0

theorem safe_ofCString {fresh : Nat → UInt8} {data : Bytes} (h : 0 ∈ data) (hl : data.length < objectLimit) :
    Safe (ofCString fresh data) Held := by
  obtain ⟨k, hk⟩ := Ends.exists h
  have hlt : k < data.length := (List.getElem?_eq_some_iff.mp hk.1).1
  unfold ofCString
  rw [strlen_eq hk]
  refine safe_filled (Nat.lt_trans hlt hl) fun c hc => ?_
  refine (safe_strcpy hk (by omega)).mono fun e ⟨h1, h2, _⟩ => ?_
  rw [Nat.zero_add] at h2
  exact ⟨h1.trans hc, h2⟩

theorem safe_ofRange {fresh : Nat → UInt8} {data : Bytes} (hl : data.length < objectLimit) :
    Safe (ofRange fresh data) Held := by
  unfold ofRange
  simp only
  rw [add_one hl]
  refine safe_new.bind fun b ⟨hb, hlim⟩ => ?_
  refine (safe_memcpy (by omega) (by omega)).bind fun c ⟨hc, _⟩ => ?_
  refine (safe_write (by omega) 0).bind ?_
  rintro e rfl
  exact Safe.pure ⟨⟨_, rfl, by rw [List.length_set, hc, hb], Nat.le_refl _, List.getElem?_set_self (by omega)⟩, hlim⟩

/-! ## Growing and shrinking -/

/-- `t` is `s` in a buffer with room for `n` bytes, the old one's at the front. -/
structure Grown (s t : Str) (n : Nat) (b d : Bytes) : Prop where
  owns : Owns t d
  limit : t.capacity_ < heapLimit
  size : t.size_ = s.size_
  room : n ≤ t.capacity_
  kept : ∀ i ≤ s.capacity_, d[i]? = b[i]?

/-- `t` is `s` in a buffer with room for `n` bytes, whatever stands behind its bytes. -/
structure Moved (s t : Str) (n : Nat) (b d : Bytes) : Prop where
  storage : t.storage = some d
  length : d.length = t.capacity_ + 1
  limit : s.capacity_ < heapLimit → t.capacity_ < heapLimit
  size : t.size_ = s.size_
  room : n ≤ t.capacity_
  larger : s.capacity_ ≤ t.capacity_
  kept : ∀ i ≤ s.capacity_, d[i]? = b[i]?

theorem lt_npos {n : Nat} (h : n < 2 ^ 63) : n < npos := by
  unfold npos
  omega

theorem new_cases (fresh : Nat → UInt8) (n : Nat) :
    (∃ c, new fresh n = .ok c ∧ c.length = n ∧ n ≤ heapLimit) ∨ (new fresh n = .error .noReturn ∧ heapLimit < n) := by
  unfold new
  by_cases h : n ≤ heapLimit
  · rw [if_pos h]
    exact .inl ⟨_, rfl, by rw [List.length_map, List.length_range], h⟩
  · rw [if_neg h]
    exact .inr ⟨rfl, Nat.lt_of_not_le h⟩

/-- `reserve` keeps the bytes of the old buffer, or the heap has no block of the size. -/
theorem reserve_cases {s : Str} {n : Nat} {b : Bytes} (fresh : Nat → UInt8) (hs : s.storage = some b)
    (hl : b.length = s.capacity_ + 1) (hn : n < npos) :
    (∃ t c, reserve fresh s n = .ok t ∧ Moved s t n b c) ∨
    (reserve fresh s n = .error .noReturn ∧ heapLimit < n + 1) := by
  unfold reserve
  by_cases hsmall : n < s.capacity_
  · rw [if_pos hsmall]
    exact .inl ⟨s, b, rfl, hs, hl, id, rfl, Nat.le_of_lt hsmall, Nat.le_refl _, fun _ _ => rfl⟩
  · have hadd {k : Nat} (hk : k ≤ n) : add64 k 1 = k + 1 := add64_eq (by unfold npos at hn; omega)
    rw [if_neg hsmall, hadd (Nat.le_refl _), hadd (Nat.le_of_not_lt hsmall), hs]
    rcases new_cases fresh (n + 1) with ⟨c, hc, hclen, hlim⟩ | ⟨hc, hlim⟩
    · have hcopy : ∃ e, memcpy c 0 b 0 (s.capacity_ + 1) = .ok e ∧ Copied e b c 0 0 (s.capacity_ + 1) :=
        memcpy_spec (by omega) (by omega)
      obtain ⟨e, he, helen, heget⟩ := hcopy
      rw [ok_bind hc]
      show (∃ t c', (memcpy c 0 b 0 (s.capacity_ + 1) >>= fun buf => pure (⟨some buf, s.size_, n⟩ : Str)) = .ok t ∧ _) ∨ _
      rw [ok_bind he]
      refine .inl ⟨_, e, rfl, rfl, helen.trans hclen, fun _ => hlim, rfl, Nat.le_refl _, Nat.le_of_not_lt hsmall, fun i hi => ?_⟩
      rw [heget, if_pos (by omega), Nat.zero_add, Nat.sub_zero]
    · rw [hc]
      exact .inr ⟨rfl, hlim⟩

/-- Growing only if there is no room, as `resize` and `replace` do. -/
theorem reserveIf_cases {s : Str} {n : Nat} {b : Bytes} (fresh : Nat → UInt8) (hs : s.storage = some b)
    (hl : b.length = s.capacity_ + 1) (hn : n < npos) :
    (∃ t c, reserveIf fresh s n = .ok t ∧ Moved s t n b c) ∨
    (reserveIf fresh s n = .error .noReturn ∧ heapLimit < n + 1) := by
  unfold reserveIf
  by_cases hroom : s.capacity_ < n
  · rw [if_pos hroom]
    exact reserve_cases fresh hs hl hn
  · rw [if_neg hroom]
    exact .inl ⟨s, b, rfl, hs, hl, id, rfl, Nat.le_of_not_lt hroom, Nat.le_refl _, fun _ _ => rfl⟩

/-- The terminator moves along. -/
theorem Moved.grown {s t : Str} {n : Nat} {b c : Bytes} (hm : Moved s t n b c) (h : Owns s b)
    (hl : s.capacity_ < heapLimit) :
    Grown s t n b c where
  owns := ⟨hm.storage, hm.length, by rw [hm.size]; exact Nat.le_trans h.size hm.larger,
    by rw [hm.size, hm.kept _ h.size]; exact h.terminated⟩
  limit := hm.limit hl
  size := hm.size
  room := hm.room
  kept := hm.kept

theorem safe_reserve {fresh : Nat → UInt8} {s : Str} {n : Nat} {b : Bytes} (h : Owns s b) (hl : s.capacity_ < heapLimit)
    (hn : n < npos) : Safe (reserve fresh s n) fun t => ∃ c, Grown s t n b c := by
  rcases reserve_cases fresh h.storage h.length hn with ⟨t, c, ht, hm⟩ | ⟨he, -⟩
  · rw [ht]
    exact ⟨c, hm.grown h hl⟩
  · rw [he]
    exact Safe.noReturn

theorem safe_reserveIf {fresh : Nat → UInt8} {s : Str} {n : Nat} {b : Bytes} (h : Owns s b)
    (hl : s.capacity_ < heapLimit)
    (hn : n < npos) : Safe (reserveIf fresh s n) fun t => ∃ c, Grown s t n b c := by
  rcases reserveIf_cases fresh h.storage h.length hn with ⟨t, c, ht, hm⟩ | ⟨he, -⟩
  · rw [ht]
    exact ⟨c, hm.grown h hl⟩
  · rw [he]
    exact Safe.noReturn

theorem fillZero_spec {b : Bytes} {size n : Nat} (h : size + n ≤ b.length) :
    ∃ d, fillZero b size n = .ok d ∧ d.length = b.length ∧
      ∀ i, d[i]? = if size ≤ i ∧ i < size + n then some 0 else b[i]? := by
  induction n generalizing b size with
  | zero => exact ⟨b, rfl, rfl, fun i => by rw [if_neg (by omega)]⟩
  | succ n ih =>
    have hwrite : write b size 0 = .ok (b.set size 0) := if_pos (by omega)
    have hroom : size + 1 + n ≤ (b.set size 0).length := by
      rw [List.length_set]
      omega
    obtain ⟨d, hc, hlen, hget⟩ := ih hroom
    refine ⟨d, ?_, by rw [hlen, List.length_set], fun i => ?_⟩
    · unfold fillZero
      rw [ok_bind hwrite, hc]
    · rw [hget, getElem?_set_of_lt (by omega)]
      by_cases hi : i = size
      · rw [if_neg (by omega), if_pos hi, if_pos (by omega)]
      · rw [if_neg hi]
        by_cases hin : size + 1 ≤ i ∧ i < size + 1 + n
        · rw [if_pos hin, if_pos (by omega)]
        · rw [if_neg hin, if_neg (by omega)]

/-- The buffer need not hold a terminator before. -/
theorem resize_cases {s : Str} {b : Bytes} {n : Nat} (fresh : Nat → UInt8) (hs : s.storage = some b)
    (hl : b.length = s.capacity_ + 1) (hsize : s.size_ ≤ s.capacity_) (hn : n < npos) :
    (∃ t d, resize fresh s n = .ok t ∧ Owns t d ∧ (s.capacity_ < heapLimit → t.capacity_ < heapLimit) ∧ t.size_ = n ∧
        ∀ i < n, d[i]? = if i < s.size_ then b[i]? else some 0) ∨
      (resize fresh s n = .error .noReturn ∧ heapLimit < n + 1) := by
  unfold resize
  rcases reserveIf_cases fresh hs hl hn with ⟨t, r, ht, hm⟩ | ⟨he, hlim⟩
  · have hclen := hm.length
    have hroom := hm.room
    have hfill : ∃ e, fillZero r s.size_ (n - s.size_) = .ok e ∧ e.length = r.length ∧
        ∀ i, e[i]? = if s.size_ ≤ i ∧ i < s.size_ + (n - s.size_) then some 0 else r[i]? := by
      by_cases hle : n ≤ s.size_
      · rw [Nat.sub_eq_zero_of_le hle]
        exact ⟨r, rfl, rfl, fun i => by rw [if_neg (by omega)]⟩
      · exact fillZero_spec (by omega)
    obtain ⟨e, he, helen, heget⟩ := hfill
    have hwrite : write e n 0 = .ok (e.set n 0) := if_pos (by omega)
    rw [ok_bind ht, hm.storage, hm.size]
    show (∃ t' d, (fillZero r s.size_ (n - s.size_) >>= fun storage => write storage n 0 >>= fun storage =>
      pure (⟨some storage, n, t.capacity_⟩ : Str)) = .ok t' ∧ _) ∨ _
    rw [ok_bind he, ok_bind hwrite]
    refine .inl ⟨_, e.set n 0, rfl, ⟨rfl, by rw [List.length_set, helen, hclen], hroom, List.getElem?_set_self (by omega)⟩,
      hm.limit, rfl, fun i hi => ?_⟩
    rw [List.getElem?_set_ne (by omega), heget]
    by_cases his : i < s.size_
    · rw [if_neg (by omega), if_pos his, hm.kept i (by omega)]
    · rw [if_pos (by omega), if_neg his]
  · rw [he]
    exact .inr ⟨rfl, hlim⟩

theorem safe_resize {fresh : Nat → UInt8} {s : Str} {n : Nat} (h : Held s) (hn : n < npos) :
    Safe (resize fresh s n) Held := by
  obtain ⟨⟨b, hb⟩, hl⟩ := h
  rcases resize_cases fresh hb.storage hb.length hb.size hn with ⟨t, d, ht, howns, hlim, -⟩ | ⟨he, -⟩
  · rw [ht]
    exact ⟨⟨d, howns⟩, hlim hl⟩
  · rw [he]
    exact Safe.noReturn

theorem safe_clear {fresh : Nat → UInt8} {s : Str} (h : Held s) : Safe (clear fresh s) Held := safe_resize h (by decide)

theorem length_utf8 (wchar : UInt32) : (utf8 wchar).length ≤ 4 := by
  unfold utf8
  split
  · simp
  · split
    · simp
    · split <;> simp

theorem store_eq {cs : Bytes} : ∀ {size : Nat} {b : Bytes}, size + cs.length ≤ b.length →
    store b size cs = .ok (b.take size ++ cs ++ b.drop (size + cs.length)) := by
  induction cs with
  | nil =>
    intro size b _
    rw [List.length_nil, Nat.add_zero, List.append_nil, List.take_append_drop]
    rfl
  | cons x cs ih =>
    intro size b h
    rw [List.length_cons] at h
    have hwrite : write b size x = .ok (b.set size x) := if_pos (by omega)
    have htake : (b.set size x).take (size + 1) = b.take size ++ [x] := by
      rw [List.take_add_one, List.take_set_of_le (Nat.le_refl _), List.getElem?_set_self (by omega)]
      rfl
    unfold store
    rw [ok_bind hwrite, ih (by rw [List.length_set]; omega), htake, List.drop_set_of_lt (by omega), List.length_cons,
      show size + 1 + cs.length = size + (cs.length + 1) by omega]
    simp

/-- The bytes of the string are still there. -/
theorem Moved.take {s t : Str} {n : Nat} {b d : Bytes} (hm : Moved s t n b d) (hsize : s.size_ ≤ s.capacity_) :
    d.take t.size_ = b.take s.size_ := by
  rw [hm.size]
  refine List.ext_getElem? fun i => ?_
  rw [List.getElem?_take, List.getElem?_take]
  by_cases hi : i < s.size_
  · rw [if_pos hi, if_pos hi]
    exact hm.kept i (Nat.le_trans (Nat.le_of_lt hi) hsize)
  · rw [if_neg hi, if_neg hi]

/-- `push_back` writes the encoding and a terminator behind the bytes of the string, which
    needs none before. -/
theorem pushBack_cases {s : Str} {b : Bytes} (fresh : Nat → UInt8) (wchar : UInt32) (hs : s.storage = some b)
    (hl : b.length = s.capacity_ + 1) (hsize : s.size_ ≤ s.capacity_) (hlim : s.capacity_ < heapLimit) :
    (∃ t, pushBack fresh s wchar = .ok t ∧ Held t ∧ bytes t = b.take s.size_ ++ utf8 wchar) ∨
      (pushBack fresh s wchar = .error .noReturn ∧ heapLimit < s.size_ + 9) := by
  have hadd : add64 s.size_ 8 = s.size_ + 8 := add64_eq (by unfold heapLimit at hlim; omega)
  have hutf := length_utf8 wchar
  unfold pushBack
  rw [hadd]
  rcases reserve_cases fresh hs hl (n := s.size_ + 8) (by unfold heapLimit npos at *; omega) with ⟨t, d, ht, hm⟩ | ⟨he, hfull⟩
  · have hlen := hm.length
    have htsize := hm.size
    have hroom := hm.room
    have hfit : t.size_ + (utf8 wchar).length ≤ d.length := by omega
    have hwhole := store_eq hfit
    have htake : (d.take t.size_ ++ utf8 wchar ++ d.drop (t.size_ + (utf8 wchar).length)).take (t.size_ + (utf8 wchar).length) =
        b.take s.size_ ++ utf8 wchar := by
      rw [← hm.take hsize, List.take_left']
      rw [List.length_append, List.length_take]
      omega
    have helen : (d.take t.size_ ++ utf8 wchar ++ d.drop (t.size_ + (utf8 wchar).length)).length = d.length := by
      simp only [List.length_append, List.length_take, List.length_drop]
      omega
    generalize d.take t.size_ ++ utf8 wchar ++ d.drop (t.size_ + (utf8 wchar).length) = e at hwhole htake helen
    have hwrite : write e (t.size_ + (utf8 wchar).length) 0 = .ok (e.set (t.size_ + (utf8 wchar).length) 0) :=
      if_pos (by omega)
    rw [ok_bind ht, hm.storage]
    show (∃ t', (store d t.size_ (utf8 wchar) >>= fun storage => write storage (t.size_ + (utf8 wchar).length) 0 >>= fun storage =>
      pure (⟨some storage, t.size_ + (utf8 wchar).length, t.capacity_⟩ : Str)) = .ok t' ∧ _) ∨ _
    rw [ok_bind hwhole, ok_bind hwrite]
    have hout : Owns ⟨some (e.set (t.size_ + (utf8 wchar).length) 0), t.size_ + (utf8 wchar).length, t.capacity_⟩
        (e.set (t.size_ + (utf8 wchar).length) 0) :=
      ⟨rfl, by rw [List.length_set, helen, hlen], by simp only; omega, List.getElem?_set_self (by omega)⟩
    refine .inl ⟨_, rfl, ⟨⟨_, hout⟩, hm.limit hlim⟩, ?_⟩
    rw [hout.bytes_eq, List.take_set_of_le (Nat.le_refl _), htake]
  · rw [he]
    exact .inr ⟨rfl, hfull⟩

theorem safe_pushBack {fresh : Nat → UInt8} {s : Str} {wchar : UInt32} (h : Held s) :
    Safe (pushBack fresh s wchar) fun t => Held t ∧ bytes t = bytes s ++ utf8 wchar := by
  obtain ⟨⟨b, hb⟩, hl⟩ := h
  rcases pushBack_cases fresh wchar hb.storage hb.length hb.size hl with ⟨t, ht, hheld, hbytes⟩ | ⟨he, -⟩
  · rw [ht, hb.bytes_eq]
    exact ⟨hheld, hbytes⟩
  · rw [he]
    exact Safe.noReturn

/-! ## Taking a character off -/

/-- The byte the loop of `pop_back` stops at. -/
theorem popScan_eq {b : Bytes} {c : UInt8} : ∀ {n : Nat}, n ≤ b.length →
    (b.take n).reverse.find? (fun c => c &&& 0xC0 ≠ 0x80) = some c → ∃ k < n, popScan b n = .ok k ∧ b[k]? = some c := by
  intro n
  induction n with
  | zero => intro _ h; simp at h
  | succ n ih =>
    intro hn h
    have hget : b[n]? = some b[n] := List.getElem?_eq_getElem (by omega)
    rw [List.take_add_one, hget, Option.toList_some, List.reverse_append, List.reverse_singleton, List.singleton_append,
      List.find?_cons] at h
    unfold popScan
    rw [read_of_some hget]
    show ∃ k < n + 1, (if b[n] &&& 0xC0 = 0x80 then popScan b n else pure n) = .ok k ∧ _
    by_cases hc : b[n] &&& 0xC0 = 0x80
    · rw [if_pos hc]
      simp only [hc, ne_eq, not_true_eq_false, decide_false] at h
      obtain ⟨k, hk, h1, h2⟩ := ih (by omega) h
      exact ⟨k, by omega, h1, h2⟩
    · rw [if_neg hc]
      simp only [hc, ne_eq, not_false_eq_true, decide_true, Option.some.injEq] at h
      exact ⟨n, by omega, rfl, h ▸ hget⟩

theorem safe_popBack {s : Str} (h : Held s) (hc : (bytes s).reverse.find? (fun c => c &&& 0xC0 ≠ 0x80) = some 0) :
    Safe (popBack s) Held := by
  obtain ⟨⟨b, hb⟩, hl⟩ := h
  have hsize := hb.size
  have hlen := hb.length
  rw [hb.bytes_eq] at hc
  obtain ⟨k, hk, h1, h2⟩ := popScan_eq (by omega) hc
  unfold popBack
  rw [deref_some hb]
  show Safe (do let size ← popScan b s.size_; pure { s with size_ := size }) Held
  rw [h1]
  exact ⟨⟨b, hb.storage, hlen, by simp only; omega, h2⟩, hl⟩

/-! ## UTF-16 and UTF-32 data -/

theorem safe_roomForEight {fresh : Nat → UInt8} : Safe (roomForEight fresh) Held := by
  unfold roomForEight
  refine safe_new.bind fun b ⟨hb, hl⟩ => (safe_write (by omega) 0).bind ?_
  rintro c rfl
  have hroom : 8 < heapLimit := by decide
  exact Safe.pure ⟨⟨_, rfl, by rw [List.length_set, hb], Nat.zero_le _, List.getElem?_set_self (by omega)⟩, hroom⟩

/-- A character takes units off the data, and not the zero behind them. -/
theorem safe_getUtf16Char {u : UInt16} {us : List UInt16} (hu : u ≠ 0) (h : 0 ∈ u :: us) :
    Safe (getUtf16Char (u :: us)) fun c => 0 ∈ c.2 ∧ c.2.length ≤ us.length := by
  have hus : 0 ∈ us := by
    rcases List.mem_cons.mp h with h | h
    · exact absurd h.symm hu
    · exact h
  unfold getUtf16Char
  dsimp only
  by_cases hhigh : 0xD800 ≤ u ∧ u ≤ 0xDBFF
  · rw [if_pos hhigh]
    cases us with
    | nil => cases hus
    | cons v vs =>
      by_cases hlow : 0xDC00 ≤ v ∧ v ≤ 0xDFFF
      · have hvs : 0 ∈ vs := by
          rcases List.mem_cons.mp hus with h0 | h0
          · exact absurd (h0 ▸ hlow.1) (by decide)
          · exact h0
        simp only [if_pos hlow]
        exact Safe.pure ⟨hvs, Nat.le_succ _⟩
      · simp only [if_neg hlow]
        exact Safe.pure ⟨hus, Nat.le_refl _⟩
  · rw [if_neg hhigh]
    by_cases hlow : 0xDC00 ≤ u ∧ u ≤ 0xDFFF
    · rw [if_pos hlow]
      exact Safe.pure ⟨hus, Nat.le_refl _⟩
    · rw [if_neg hlow]
      exact Safe.pure ⟨hus, Nat.le_refl _⟩

theorem safe_pushUtf16 {fresh : Nat → Nat → UInt8} : ∀ {n : Nat} {s : Str} {data : List UInt16}, Held s → 0 ∈ data →
    data.length ≤ n → Safe (pushUtf16 fresh s n data) Held := by
  intro n
  induction n with
  | zero =>
    intro s data _ h0 hn
    rw [List.length_eq_zero_iff.mp (Nat.le_zero.mp hn)] at h0
    cases h0
  | succ n ih =>
    intro s data hs h0 hn
    cases data with
    | nil => cases h0
    | cons u us =>
      rw [List.length_cons] at hn
      unfold pushUtf16
      by_cases hu : u = 0
      · rw [if_neg (not_not.mpr hu)]
        exact Safe.pure hs
      · rw [if_pos hu]
        refine (safe_getUtf16Char hu h0).bind fun c ⟨hc, hlen⟩ => ?_
        exact (safe_pushBack hs).bind fun t ht => ih ht.1 hc (by omega)

theorem safe_ofUtf16 {fresh : Nat → Nat → UInt8} {data : List UInt16} (h : 0 ∈ data) : Safe (ofUtf16 fresh data) Held :=
  safe_roomForEight.bind fun _ hs => safe_pushUtf16 hs h (Nat.le_refl _)

theorem safe_pushUtf32 {fresh : Nat → Nat → UInt8} : ∀ {data : List UInt32} {s : Str}, Held s → 0 ∈ data →
    Safe (pushUtf32 fresh s data) Held := by
  intro data
  induction data with
  | nil => intro s _ h; cases h
  | cons c cs ih =>
    intro s hs h0
    unfold pushUtf32
    by_cases hc : c = 0
    · rw [if_neg (not_not.mpr hc)]
      exact Safe.pure hs
    · rw [if_pos hc]
      refine (safe_pushBack hs).bind fun t ht => ih ht.1 ?_
      rcases List.mem_cons.mp h0 with h0 | h0
      · exact absurd h0.symm hc
      · exact h0

theorem safe_ofUtf32 {fresh : Nat → Nat → UInt8} {data : List UInt32} (h : 0 ∈ data) : Safe (ofUtf32 fresh data) Held :=
  safe_roomForEight.bind fun _ hs => safe_pushUtf32 hs h

/-! ## Appending and replacing -/

/-- A string with a zero among its bytes ends there for `strcpy`. -/
theorem Owns.ends_inside {s : Str} {b : Bytes} (h : Owns s b) (h0 : 0 ∈ bytes s) : ∃ k < s.size_, Ends b k := by
  rw [h.bytes_eq] at h0
  obtain ⟨k, h1, h2⟩ := Ends.exists h0
  have hk : k < s.size_ := by
    have := (List.getElem?_eq_some_iff.mp h1).1
    rw [List.length_take] at this
    omega
  refine ⟨k, hk, by rwa [List.getElem?_take, if_pos hk] at h1, fun i hi => ?_⟩
  have := h2 i hi
  rwa [List.getElem?_take, if_pos (by omega)] at this

theorem append_sizes {s str : Str} (h : Held s) (hr : Held str) :
    add64 s.size_ str.size_ = s.size_ + str.size_ ∧ s.size_ + str.size_ < npos := by
  have h1 := h.size_lt
  have h2 := hr.size_lt
  unfold heapLimit at h1 h2
  exact ⟨add64_eq (by omega), by unfold npos; omega⟩

/-- Appending another string. -/
theorem safe_append_other {fresh : Nat → UInt8} {s str : Str} (h : Held s) (hr : Held str)
    (hok : 0 ∉ bytes str ∨ 0 ∈ bytes str ∧ (s.storage.getD [])[s.size_ + str.size_]? = some 0) :
    Safe (append fresh s (some str)) Held := by
  obtain ⟨hadd, hlt⟩ := append_sizes h hr
  obtain ⟨⟨b, hb⟩, hl⟩ := h
  obtain ⟨⟨r, hrb⟩, -⟩ := hr
  unfold append
  simp only [Option.getD_some, hadd]
  refine (safe_reserve hb hl hlt).bind fun t ⟨d, hg⟩ => ?_
  rw [deref_some hg.owns]
  have hlen := hg.owns.length
  have hsize := hg.size
  have hroom := hg.room
  obtain ⟨k, hk, hends, hnew⟩ : ∃ k ≤ str.size_, Ends r k ∧ (k < str.size_ → d[s.size_ + str.size_]? = some 0) := by
    rcases hok with h0 | ⟨h0, hz⟩
    · exact ⟨str.size_, Nat.le_refl _, hrb.ends h0, fun h => absurd h (Nat.lt_irrefl _)⟩
    · obtain ⟨k, hk, hends⟩ := hrb.ends_inside h0
      refine ⟨k, Nat.le_of_lt hk, hends, fun _ => ?_⟩
      have hin : (s.storage.getD [])[s.size_ + str.size_]? = b[s.size_ + str.size_]? := by rw [hb.storage]; rfl
      rw [hin] at hz
      have hle := (List.getElem?_eq_some_iff.mp hz).1
      rw [hb.length] at hle
      rw [hg.kept _ (by omega), hz]
  show Safe (do let b ← putString d t.size_ (some str)
                pure (⟨some b, add64 t.size_ str.size_, t.capacity_⟩ : Str)) Held
  rw [hsize, hadd, putString, deref_some hrb]
  refine Safe.bind (safe_strcpy hends (show s.size_ + k < d.length by omega)) fun e ⟨he, hz, hrest⟩ => Safe.pure ?_
  refine ⟨⟨e, rfl, he.trans hlen, hroom, ?_⟩, hg.limit⟩
  show e[s.size_ + str.size_]? = some 0
  rcases Nat.lt_or_eq_of_le hk with hk | hk
  · rw [hrest _ (by omega)]
    exact hnew hk
  · rw [← hk]
    exact hz

/-- Appending the string to itself: it is empty, or `strcpy` stops at a zero inside it. -/
theorem safe_append_self {fresh : Nat → UInt8} {s : Str} (h : Held s)
    (hok : s.size_ = 0 ∨ 0 ∈ bytes s ∧ (s.storage.getD [])[s.size_ + s.size_]? = some 0) :
    Safe (append fresh s none) Held := by
  obtain ⟨hadd, hlt⟩ := append_sizes h h
  obtain ⟨⟨b, hb⟩, hl⟩ := h
  unfold append
  simp only [Option.getD_none, hadd]
  refine (safe_reserve hb hl hlt).bind fun t ⟨d, hg⟩ => ?_
  rw [deref_some hg.owns]
  have hlen := hg.owns.length
  have hsize := hg.size
  have hroom := hg.room
  show Safe (do let b ← putString d t.size_ none
                pure (⟨some b, add64 t.size_ s.size_, t.capacity_⟩ : Str)) Held
  rw [hsize, hadd, putString]
  rcases hok with h0 | ⟨h0, hz⟩
  · -- nothing but the terminator is copied, onto itself
    have hzero : d[0]? = some 0 := by
      rw [hg.kept 0 (Nat.zero_le _), ← h0]
      exact hb.terminated
    have hn : d.length - s.size_ = t.capacity_ + 1 := by omega
    rw [hn, h0]
    show Safe (do let b ← (do let x ← read d 0; if x ≠ 0 then _ else _); _) Held
    rw [read_of_some hzero]
    refine (safe_write (show 0 < d.length by omega) 0).bind ?_
    rintro e rfl
    exact Safe.pure ⟨⟨_, rfl, by rw [List.length_set, hlen], Nat.zero_le _, List.getElem?_set_self (by omega)⟩, hg.limit⟩
  · obtain ⟨k, hk, hends⟩ := hb.ends_inside h0
    have hsz := hb.size
    have hkept : ∀ i ≤ k, d[i]? = b[i]? := fun i hi => hg.kept i (by omega)
    have hin : (s.storage.getD [])[s.size_ + s.size_]? = b[s.size_ + s.size_]? := by rw [hb.storage]; rfl
    rw [hin] at hz
    have hle := (List.getElem?_eq_some_iff.mp hz).1
    rw [hb.length] at hle
    refine (safe_strcpyWithin (k := k) (fun i hi => ?_) ?_ (by omega) (by omega) (by omega)).bind
      fun e ⟨he, hrest⟩ => Safe.pure ?_
    · rw [Nat.zero_add, hkept i (by omega)]
      have hib : i < b.length := by rw [hb.length]; omega
      exact ⟨b[i], List.getElem?_eq_getElem hib, fun e => hends.2 i hi (by rw [List.getElem?_eq_getElem hib, e])⟩
    · rw [Nat.zero_add, hkept k (Nat.le_refl _)]
      exact hends.1
    · refine ⟨⟨e, rfl, he.trans hlen, hroom, ?_⟩, hg.limit⟩
      show e[s.size_ + s.size_]? = some 0
      rw [hrest _ (by omega), hg.kept _ (by omega), hz]

theorem safe_replace {fresh : Nat → UInt8} {s : Str} {start length : Nat} {r : Option Str} (h : Held s)
    (hr : ∀ str ∈ r, Held str) (hrange : start + length ≤ s.size_) : Safe (replace fresh s start length r) Held := by
  have hn : (r.getD s).size_ < heapLimit := by
    cases r with
    | none => exact h.size_lt
    | some str => exact (hr str rfl).size_lt
  have hlt := h.size_lt
  obtain ⟨⟨b, hb⟩, hl⟩ := h
  have hnew : add64 s.size_ (int32 (sub64 (r.getD s).size_ length)) = s.size_ + (r.getD s).size_ - length := by
    unfold heapLimit at hn hlt
    rw [int32_sub64 (by omega) (by omega)]
    exact add64_sub64 (by omega) (by omega) (by omega)
  have hrest : sub64 (sub64 s.size_ length) start = s.size_ - length - start := by
    unfold heapLimit at hlt
    have h1 : sub64 s.size_ length = s.size_ - length := sub64_eq (by omega) (by omega)
    rw [h1, sub64_eq (by omega) (by omega)]
  unfold replace
  simp only [hnew]
  refine (safe_reserveIf hb hl (by unfold heapLimit npos at *; omega)).bind fun t ⟨c, hg⟩ => ?_
  rw [deref_some hg.owns]
  have hlen := hg.owns.length
  have hsize := hg.size
  have hroom := hg.room
  have hfit := hg.owns.size
  have hput : ∀ d : Bytes, d.length = c.length →
      Safe (putBytes d start (r.getD s).size_ r) fun e => e.length = c.length := by
    intro d hd
    cases r with
    | none =>
      simp only [Option.getD_none] at hroom ⊢
      exact (safe_memmove (by omega) (by omega)).mono fun e he => he.trans hd
    | some str =>
      obtain ⟨⟨q, hq⟩, -⟩ := hr str rfl
      have hqs := hq.size
      have hql := hq.length
      simp only [Option.getD_some, putBytes, deref_some hq] at hroom ⊢
      exact (safe_memcpy (show 0 + str.size_ ≤ q.length by omega) (by omega)).mono fun e he => he.1.trans hd
  show Safe (memmove c _ _ (sub64 (sub64 t.size_ length) start) >>= _) Held
  rw [hsize, hrest]
  refine (safe_memmove (by omega) (by omega)).bind fun d hd => (hput d hd).bind fun e he => ?_
  refine (safe_write (by omega) 0).bind ?_
  rintro f rfl
  exact Safe.pure ⟨⟨_, rfl, by rw [List.length_set, he, hlen], hroom, List.getElem?_set_self (by omega)⟩, hg.limit⟩

/-! ## Runs -/

theorem held_append {ss : List Str} {s : Str} (h : ∀ t ∈ ss, Held t) (hs : Held s) : ∀ t ∈ ss ++ [s], Held t := by
  intro t ht
  rcases List.mem_append.mp ht with ht | ht
  · exact h t ht
  · rw [List.mem_singleton.mp ht]
    exact hs

theorem held_set {ss : List Str} {s : Str} (i : Nat) (h : ∀ t ∈ ss, Held t) (hs : Held s) :
    ∀ t ∈ ss.set i s, Held t := by
  intro t ht
  rcases List.mem_or_eq_of_mem_set ht with ht | rfl
  · exact h t ht
  · exact hs

theorem held_obj {ss : List Str} {i : Nat} (h : ∀ t ∈ ss, Held t) (hi : i < ss.length) : Held (obj ss i) := by
  have e : obj ss i = ss[i] := by simp [obj, hi]
  rw [e]
  exact h _ (List.getElem_mem hi)

theorem held_other {ss : List Str} {i j : Nat} (h : ∀ t ∈ ss, Held t) (hj : j < ss.length) :
    ∀ str ∈ other ss i j, Held str := by
  intro str hs
  unfold other at hs
  by_cases hij : i = j
  · rw [if_pos hij] at hs
    cases hs
  · rw [if_neg hij] at hs
    obtain rfl := Option.some.inj hs
    exact held_obj h hj

theorem safe_append {fresh : Nat → UInt8} {ss : List Str} {i j : Nat} (h : ∀ t ∈ ss, Held t)
    (hv : Valid ss (.append i j))
    (hok : StepOk ss (.append i j)) : Safe (append fresh (obj ss i) (other ss i j)) Held := by
  obtain ⟨hi, hj⟩ := hv
  unfold other
  by_cases hij : i = j
  · subst hij
    rw [if_pos rfl]
    refine safe_append_self (held_obj h hi) ?_
    rcases hok with hok | hok | hok
    · exact absurd rfl hok.1
    · exact Or.inl hok
    · exact Or.inr hok
  · rw [if_neg hij]
    refine safe_append_other (held_obj h hi) (held_obj h hj) ?_
    rcases hok with hok | hok | hok
    · exact Or.inl hok.2
    · refine Or.inl ?_
      unfold bytes
      rw [hok, List.take_zero]
      exact List.not_mem_nil
    · exact Or.inr hok

/-- One operation under its condition. -/
theorem safe_apply {fresh : Nat → Nat → UInt8} {ss : List Str} {op : Op} (h : ∀ t ∈ ss, Held t) (hv : Valid ss op)
    (hok : StepOk ss op) : Safe (apply fresh ss op) fun ts => ∀ t ∈ ts, Held t := by
  have hput : ∀ {m : Checked Str} (i : Nat), Safe m Held → Safe (do pure (ss.set i (← m))) fun ts => ∀ t ∈ ts, Held t :=
    fun i hm => hm.bind fun _ hs => Safe.pure (held_set i h hs)
  have hadd : ∀ {m : Checked Str}, Safe m Held → Safe (do pure (ss ++ [← m])) fun ts => ∀ t ∈ ts, Held t :=
    fun hm => hm.bind fun _ hs => Safe.pure (held_append h hs)
  cases op with
  | default => exact absurd hok id
  | cstring data => exact hadd (safe_ofCString hv.1 hv.2)
  | range data => exact hadd (safe_ofRange hv)
  | utf16 data => exact hadd (safe_ofUtf16 hv)
  | utf32 data => exact hadd (safe_ofUtf32 hv)
  | copy j => exact hadd (safe_copy (held_obj h hv) hok)
  | assign i j => exact hput i (safe_assign (held_obj h hv.2.1) hok)
  | append i j => exact hput i (safe_append h hv hok)
  | pushBack i wchar => exact hput i ((safe_pushBack (held_obj h hv)).mono fun _ ht => ht.1)
  | popBack i => exact hput i (safe_popBack (held_obj h hv.1) hok)
  | reserve i size =>
    obtain ⟨⟨b, hb⟩, hl⟩ := held_obj h hv.1
    have hn : size < npos := by
      have h1 := hv.2
      have h2 : size ≠ npos := hok
      unfold npos at *
      omega
    exact hput i ((safe_reserve hb hl hn).mono fun t ⟨c, hg⟩ => ⟨⟨c, hg.owns⟩, hg.limit⟩)
  | resize i size =>
    have hn : size < npos := by
      have h1 := hv.2
      have h2 : size ≠ npos := hok
      unfold npos at *
      omega
    exact hput i (safe_resize (held_obj h hv.1) hn)
  | clear i => exact hput i (safe_clear (held_obj h hv))
  | substr i start n => exact absurd hok id
  | replace i start length j => exact hput i (safe_replace (held_obj h hv.1) (held_other h hv.2.1) hv.2.2)

theorem step_held {ss ts : List Str} {op : Op} (hi : ∀ s ∈ ss, Held s) (h : OkStep ss op ts) : ∀ t ∈ ts, Held t := by
  obtain ⟨hok, hv, fresh, ha⟩ := h
  exact (safe_iff.mp (safe_apply hi hv hok)).2 ts ha

/-- In every run whose operations meet `StepOk` the strings keep their representation, and
    no further operation that meets it leaves the buffers. -/
theorem strings_good {ops : List Op} {ss : List Str} (h : Run OkStep [] ops ss) :
    (∀ s ∈ ss, Good s) ∧ ∀ op fresh, Valid ss op → StepOk ss op → apply fresh ss op ≠ .error .fault := by
  have hi : ∀ s ∈ ss, Held s :=
    h.invariant (I := fun ss => ∀ s ∈ ss, Held s) (fun _ _ _ => step_held) (fun s hs => absurd hs List.not_mem_nil)
  exact ⟨fun s hs => (hi s hs).1, fun op fresh hv hok => (safe_iff.mp (safe_apply hi hv hok)).1⟩

/-- Memory that was never zeroed. -/
def dirty : Nat → Nat → UInt8 := fun _ _ => 0xAA

/-- "hi", an exclamation mark and a copy. -/
theorem strings_good_hi : ∃ ss, Run OkStep [] [.cstring [0x68, 0x69, 0], .pushBack 0 0x21, .copy 0] ss ∧
    ∀ s ∈ ss, Good s := by
  have e : (([.cstring [0x68, 0x69, 0], .pushBack 0 0x21, .copy 0] : List Op).foldlM
      (guarded (fun ss op => StepOk ss op ∧ Valid ss op) fun ss op => (apply dirty ss op).toOption) []).isSome = true := by
    decide +kernel
  obtain ⟨ss, hs⟩ := Option.isSome_iff_exists.mp e
  have h := run_of_foldlM OkStep (fun s op t h => by
    obtain ⟨⟨h1, h2⟩, h3⟩ := guarded_eq_some.mp h
    refine ⟨h1, h2, dirty, ?_⟩
    match hr : apply dirty s op with
    | .ok a => rw [hr] at h3; exact congrArg Except.ok (Option.some.inj h3)
    | .error e => rw [hr] at h3; cases h3) _ _ hs
  exact ⟨ss, h, (strings_good h).1⟩

/-- "ab" without its last character has no terminator. -/
theorem pop_back_leaves_no_terminator : ¬ ∀ ops ss, Run Step [] ops ss →
    (∀ s ∈ ss, Good s) ∧ ∀ op fresh, Valid ss op → apply fresh ss op ≠ .error .fault := by
  intro h
  have h1 : Step [] (.cstring [0x61, 0x62, 0]) [⟨some [0x61, 0x62, 0], 2, 2⟩] :=
    ⟨by decide, dirty, by decide +kernel⟩
  have h2 : Step [⟨some [0x61, 0x62, 0], 2, 2⟩] (.popBack 0) [⟨some [0x61, 0x62, 0], 1, 2⟩] :=
    ⟨by decide, dirty, by decide +kernel⟩
  obtain ⟨b, hb⟩ := (h _ _ (.cons h1 (.single h2))).1 _ List.mem_cons_self
  obtain rfl := Option.some.inj hb.storage
  exact absurd hb.terminated (by decide)

end Str

end Rodvin.Libc
