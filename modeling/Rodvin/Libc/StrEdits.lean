/-
  Rodvin.Libc.StrEdits — what the editing operations of `rodvin::string` compute, and
  `operator==`.

  Every operation first sees to its room (`reserve_cases`); the rest copies within the
  buffer, and the result is read off byte by byte. `edits_are_list_operations` collects
  them.
-/

import Rodvin.Libc.StrProofs

namespace Rodvin.Libc

open Rodvin.Lib

namespace Str

/-! ## Comparing, and a part taken into a given string -/

/-- `while (a.storage[n] == b.storage[n] && n < b.size_) n++`, with `k` bytes to `b.size_`. -/
def matchFrom (a b : Bytes) (n : Nat) : Nat → Checked Nat
  | 0 => do
    let _ ← read a n
    let _ ← read b n
    pure n
  | k + 1 => do
    let x ← read a n
    let y ← read b n
    if x = y then matchFrom a b (n + 1) k else pure n

/-- `operator==`. -/
def equal (a b : Str) : Checked Bool :=
  if a.size_ ≠ b.size_ then pure false
  else do
    let n ← matchFrom (← deref a.storage) (← deref b.storage) 0 b.size_
    pure (n == b.size_)

/-- `substr`, with what its `rv` starts from. -/
def substrInto (fresh : Nat → UInt8) (rv s : Str) (start n : Nat) : Checked Str := do
  let bytesToCopy := if n = npos then sub64 s.size_ start else n
  let rv ← resize fresh rv bytesToCopy
  let b ← memcpy (← deref rv.storage) 0 (← deref s.storage) start bytesToCopy
  let b ← write b bytesToCopy 0
  pure { rv with storage := some b }

/-- `string()` where `NULL` can be read, with the byte that lies there. -/
def emptyOver (null : UInt8) : Str := ⟨some [null], 0, 0⟩

theorem substr_eq_substrInto (fresh : Nat → UInt8) (s : Str) (start n : Nat) :
    substr fresh s start n = substrInto fresh empty s start n := rfl

/-- A good string of the bytes `bs`, unless the heap has no block for them. -/
def Becomes (m : Checked Str) (bs : Bytes) : Prop :=
  (∃ t, m = .ok t ∧ Good t ∧ bytes t = bs) ∨ (m = .error .noReturn ∧ heapLimit < bs.length + 1)

variable {fresh : Nat → UInt8} {s t str : Str} {b c d r bs : Bytes} {n m start : Nat}

/-! ## Reading the result off -/

theorem Owns.getElem?_bytes (h : Owns s b) (i : Nat) : (bytes s)[i]? = if i < s.size_ then b[i]? else none := by
  rw [h.bytes_eq, List.getElem?_take]

theorem Owns.length_bytes (h : Owns s b) : (bytes s).length = s.size_ := by
  have hlen := h.length
  have hsize := h.size
  rw [h.bytes_eq, List.length_take]
  omega

/-- A buffer with room and a zero behind the bytes `bs` is a good string of them. -/
theorem Becomes.stored (hl : d.length = n + 1) (hroom : bs.length ≤ n) (hz : d[bs.length]? = some 0)
    (hget : ∀ i < bs.length, d[i]? = bs[i]?) : Becomes (.ok ⟨some d, bs.length, n⟩) bs := by
  have howns : Owns ⟨some d, bs.length, n⟩ d := ⟨rfl, hl, hroom, hz⟩
  refine .inl ⟨_, rfl, ⟨d, howns⟩, List.ext_getElem? fun i => ?_⟩
  rw [howns.getElem?_bytes]
  by_cases hi : i < bs.length
  · rw [if_pos hi, hget i hi]
  · rw [if_neg hi, List.getElem?_eq_none (Nat.le_of_not_lt hi)]

/-! ## `+=` -/

theorem append_becomes (fresh : Nat → UInt8) (hs : Good s) (ht : Good str) (h0 : 0 ∉ bytes str)
    (hs31 : s.size_ < 2 ^ 31)
    (ht31 : str.size_ < 2 ^ 31) : Becomes (append fresh s (some str)) (bytes s ++ bytes str) := by
  obtain ⟨b, hb⟩ := hs
  obtain ⟨r, hr⟩ := ht
  have hsize := hb.size
  have hadd : add64 s.size_ str.size_ = s.size_ + str.size_ := add64_eq (by omega)
  have hlen : (bytes s ++ bytes str).length = s.size_ + str.size_ := by
    rw [List.length_append, hb.length_bytes, hr.length_bytes]
  unfold append
  simp only [Option.getD_some, hadd]
  rcases reserve_cases fresh hb.storage hb.length (n := s.size_ + str.size_) (lt_npos (by omega)) with ⟨t, c, ht, hm⟩ | ⟨hn, hlim⟩
  · have hclen := hm.length
    have hroom := hm.room
    obtain ⟨e, he, helen, heget⟩ := strcpy_spec (hr.ends h0) (show s.size_ + str.size_ < c.length by omega)
    rw [ok_bind ht, hm.storage, hm.size]
    simp only [putString, hr.storage]
    show Becomes (strcpy c s.size_ r >>= fun b => pure (⟨some b, add64 s.size_ str.size_, t.capacity_⟩ : Str)) _
    rw [ok_bind he, hadd, ← hlen]
    refine Becomes.stored (helen.trans hclen) (by omega) ?_ fun i hi => ?_
    · rw [hlen, heget, if_pos (by omega), Nat.add_sub_cancel_left]
      exact hr.terminated
    · rw [heget, List.getElem?_append, hb.length_bytes, hb.getElem?_bytes, hr.getElem?_bytes]
      by_cases his : i < s.size_
      · rw [if_neg (by omega), if_pos his, if_pos his, hm.kept i (by omega)]
      · rw [if_pos (by omega), if_neg his, if_pos (by omega)]
  · rw [hn]
    exact .inr ⟨rfl, by omega⟩

/-! ## `resize` and `substr` -/

theorem resize_becomes (fresh : Nat → UInt8) (hs : Good s) (hn : n < 2 ^ 31) :
    Becomes (resize fresh s n) ((bytes s).take n ++ List.replicate (n - s.size_) 0) := by
  obtain ⟨b, hb⟩ := hs
  have hlen : ((bytes s).take n ++ List.replicate (n - s.size_) (0 : UInt8)).length = n := by
    rw [List.length_append, List.length_take, List.length_replicate, hb.length_bytes]
    omega
  rcases resize_cases fresh hb.storage hb.length hb.size (n := n) (lt_npos (by omega)) with
    ⟨t, d, ht, howns, -, hsize, hget⟩ | ⟨he, hlim⟩
  · refine .inl ⟨t, ht, ⟨d, howns⟩, List.ext_getElem? fun i => ?_⟩
    rw [howns.getElem?_bytes, hsize]
    by_cases hi : i < n
    · rw [if_pos hi, hget i hi, List.getElem?_append, List.length_take, hb.length_bytes, List.getElem?_take, if_pos hi,
        hb.getElem?_bytes, List.getElem?_replicate]
      by_cases his : i < s.size_
      · rw [if_pos his, if_pos (by omega), if_pos his]
      · rw [if_neg his, if_neg (by omega), if_pos (by omega)]
    · rw [if_neg hi, List.getElem?_eq_none (by omega)]
  · exact .inr ⟨he, by omega⟩

theorem substrInto_becomes (fresh : Nat → UInt8) (null : UInt8) (hs : Good s) (hs31 : s.size_ < 2 ^ 31)
    (hn : start + n ≤ s.size_) :
    Becomes (substrInto fresh (emptyOver null) s start n) (((bytes s).drop start).take n) := by
  obtain ⟨b, hb⟩ := hs
  have hblen := hb.length
  have hsize := hb.size
  have hlen : (((bytes s).drop start).take n).length = n := by
    rw [List.length_take, List.length_drop, hb.length_bytes]
    omega
  have hnpos : ¬ n = npos := by unfold npos; omega
  unfold substrInto
  simp only [if_neg hnpos]
  rcases resize_cases fresh (s := emptyOver null) (b := [null]) rfl rfl (Nat.le_refl _) (n := n) (lt_npos (by omega)) with
    ⟨t, d, ht, howns, -, htsize, -⟩ | ⟨he, hlim⟩
  · have hdlen := howns.length
    have hroom := howns.size
    have hcopy : ∃ e, memcpy d 0 b start n = .ok e ∧ Copied e b d 0 start n := memcpy_spec (by omega) (by omega)
    obtain ⟨e, he, helen, heget⟩ := hcopy
    have hwrite : write e n 0 = .ok (e.set n 0) := if_pos (by omega)
    rw [ok_bind ht, howns.storage, hb.storage]
    show Becomes (memcpy d 0 b start n >>= fun b => write b n 0 >>= fun b => pure ({ t with storage := some b } : Str)) _
    rw [ok_bind he, ok_bind hwrite]
    show Becomes (.ok ⟨some (e.set n 0), t.size_, t.capacity_⟩) _
    rw [htsize]
    have hstored : Becomes (.ok ⟨some (e.set n 0), (((bytes s).drop start).take n).length, t.capacity_⟩)
        (((bytes s).drop start).take n) := by
      refine Becomes.stored (by rw [List.length_set, helen, hdlen]) (by omega) ?_ fun i hi => ?_
      · rw [hlen]
        exact List.getElem?_set_self (by omega)
      · rw [List.getElem?_set_ne (by omega), heget, if_pos (by omega), List.getElem?_take, if_pos (by omega),
          List.getElem?_drop,
          hb.getElem?_bytes, if_pos (by omega), Nat.sub_zero]
    rwa [hlen] at hstored
  · rw [he]
    exact .inr ⟨rfl, by omega⟩

/-! ## `replace` -/

theorem replace_becomes (fresh : Nat → UInt8) (hs : Good s) (ht : Good str) (hs31 : s.size_ < 2 ^ 31)
    (ht31 : str.size_ < 2 ^ 31)
    (hn : start + n ≤ s.size_) :
    Becomes (replace fresh s start n (some str)) ((bytes s).take start ++ bytes str ++ (bytes s).drop (start + n)) := by
  obtain ⟨b, hb⟩ := hs
  obtain ⟨r, hr⟩ := ht
  have hblen := hb.length
  have hsize := hb.size
  have hrlen := hr.length
  have hrsize := hr.size
  have hnew : add64 s.size_ (int32 (sub64 str.size_ n)) = s.size_ + str.size_ - n := by
    rw [int32_sub64 ht31 (by omega)]
    exact add64_sub64 (by omega) (by omega) (by omega)
  have hrest : sub64 (sub64 s.size_ n) start = s.size_ - n - start := by
    rw [sub64_eq (b := n) (by omega) (by omega), sub64_eq (by omega) (by omega)]
  have htake : ((bytes s).take start).length = start := by
    rw [List.length_take, hb.length_bytes]
    omega
  have hfront : ((bytes s).take start ++ bytes str).length = start + str.size_ := by
    rw [List.length_append, htake, hr.length_bytes]
  have hlen : ((bytes s).take start ++ bytes str ++ (bytes s).drop (start + n)).length = s.size_ + str.size_ - n := by
    rw [List.length_append, hfront, List.length_drop, hb.length_bytes]
    omega
  unfold replace
  simp only [Option.getD_some, hnew]
  rcases reserveIf_cases fresh hb.storage hblen (n := s.size_ + str.size_ - n) (lt_npos (by omega)) with ⟨t, c, ht, hm⟩ | ⟨he, hlim⟩
  · have hclen := hm.length
    have hroom := hm.room
    have hlarger := hm.larger
    have hmove : ∃ d, memmove c (start + str.size_) (start + n) (s.size_ - n - start) = .ok d ∧
        Copied d c c (start + str.size_) (start + n) (s.size_ - n - start) := memmove_spec (by omega) (by omega)
    obtain ⟨d, hd, hdlen, hdget⟩ := hmove
    have hcopy : ∃ e, memcpy d start r 0 str.size_ = .ok e ∧ Copied e r d start 0 str.size_ :=
      memcpy_spec (by omega) (by omega)
    obtain ⟨e, he, helen, heget⟩ := hcopy
    have hend : s.size_ + str.size_ - n < e.length := by omega
    have hwrite : write e (s.size_ + str.size_ - n) 0 = .ok (e.set (s.size_ + str.size_ - n) 0) := if_pos hend
    rw [ok_bind ht, hm.storage, hm.size, hrest]
    simp only [putBytes, hr.storage]
    show Becomes (memmove c (start + str.size_) (start + n) (s.size_ - n - start) >>= fun b =>
      memcpy b start r 0 str.size_ >>= fun b =>
      write b (s.size_ + str.size_ - n) 0 >>= fun b => pure (⟨some b, s.size_ + str.size_ - n, t.capacity_⟩ : Str)) _
    rw [ok_bind hd, ok_bind he, ok_bind hwrite, ← hlen]
    refine Becomes.stored (by rw [List.length_set, helen, hdlen, hclen]) (by omega)
      (by rw [hlen]; exact List.getElem?_set_self hend) fun i hi => ?_
    rw [List.getElem?_set_ne (by omega), heget, hdget, List.getElem?_append, hfront, List.getElem?_append, htake,
      List.getElem?_take,
      List.getElem?_drop, hb.getElem?_bytes, hr.getElem?_bytes, hb.getElem?_bytes]
    by_cases h1 : i < start
    · -- in front of the replaced part
      rw [if_neg (by omega), if_neg (by omega), if_pos (by omega), if_pos h1, if_pos h1, if_pos (by omega),
        hm.kept i (by omega)]
    · by_cases h2 : i < start + str.size_
      · rw [if_pos (by omega), if_pos h2, if_neg h1, if_pos (by omega), Nat.zero_add]
      · -- behind it, from where it lay before
        rw [if_neg (by omega), if_pos (by omega), if_neg h2, if_pos (by omega), hm.kept _ (by omega)]
  · rw [he]
    exact .inr ⟨rfl, by omega⟩

/-! ## `operator==` -/

/-- The loop stops at the first difference, or at the end. -/
theorem matchFrom_spec {k : Nat} (hc : n + k < b.length) (hd : n + k < d.length) :
    ∃ m ≤ n + k, matchFrom b d n k = .ok m ∧ (∀ i, n ≤ i → i < m → b[i]? = d[i]?) ∧ (m < n + k → b[m]? ≠ d[m]?) := by
  have hread {x : Bytes} {i : Nat} (hi : i < x.length) : read x i = .ok x[i] :=
    read_of_some (List.getElem?_eq_getElem hi)
  induction k generalizing n with
  | zero =>
    refine ⟨n, Nat.le_refl _, ?_, fun i h1 h2 => absurd h1 (by omega), fun h => absurd h (Nat.lt_irrefl _)⟩
    have hn : n < b.length ∧ n < d.length := ⟨hc, hd⟩
    unfold matchFrom
    rw [ok_bind (hread hn.1), ok_bind (hread hn.2)]
    rfl
  | succ k ih =>
    unfold matchFrom
    rw [ok_bind (hread (show n < b.length by omega)), ok_bind (hread (show n < d.length by omega))]
    by_cases hx : b[n] = d[n]
    · obtain ⟨m, hm, h1, h2, h3⟩ := ih (n := n + 1) (by omega) (by omega)
      rw [if_pos hx]
      refine ⟨m, by omega, h1, fun i hni him => ?_, fun h => h3 (by omega)⟩
      rcases Nat.eq_or_lt_of_le hni with rfl | hni
      · rw [List.getElem?_eq_getElem (by omega), List.getElem?_eq_getElem (by omega), hx]
      · exact h2 i hni him
    · rw [if_neg hx]
      refine ⟨n, by omega, rfl, fun i h1 h2 => absurd h1 (by omega), fun _ e => hx ?_⟩
      rw [List.getElem?_eq_getElem (by omega), List.getElem?_eq_getElem (by omega)] at e
      exact Option.some.inj e

theorem equal_spec (hs : Good s) (ht : Good t) : ∃ r, equal s t = .ok r ∧ (r = true ↔ bytes s = bytes t) := by
  obtain ⟨b, hb⟩ := hs
  obtain ⟨c, hc⟩ := ht
  have hblen := hb.length
  have hbsize := hb.size
  have hclen := hc.length
  have hcsize := hc.size
  unfold equal
  by_cases hne : s.size_ = t.size_
  · rw [if_neg (not_not.mpr hne), hb.storage, hc.storage]
    obtain ⟨m, hm, h1, h2, h3⟩ := matchFrom_spec (b := b) (d := c) (n := 0) (k := t.size_) (by omega) (by omega)
    refine ⟨m == t.size_, ?_, ?_⟩
    · show (matchFrom b c 0 t.size_ >>= fun n => pure (n == t.size_)) = _
      rw [ok_bind h1]
      rfl
    · rw [beq_iff_eq]
      constructor
      · intro e
        refine List.ext_getElem? fun i => ?_
        rw [hb.getElem?_bytes, hc.getElem?_bytes, hne]
        by_cases hi : i < t.size_
        · rw [if_pos hi, if_pos hi, h2 i (Nat.zero_le _) (by omega)]
        · rw [if_neg hi, if_neg hi]
      · intro e
        by_contra hlt
        have hmt : m < t.size_ := by omega
        have he := congrArg (fun l : Bytes => l[m]?) e
        simp only [hb.getElem?_bytes, hc.getElem?_bytes, hne, if_pos hmt] at he
        exact h3 (by omega) he
  · rw [if_pos hne]
    refine ⟨false, rfl, fun h => absurd h (by decide), fun e => absurd ?_ hne⟩
    rw [← hb.length_bytes, ← hc.length_bytes, e]

/-! ## All of them -/

/-- On strings below 2 GiB the operations compute those of lists, and `==` compares the
    bytes. Only what is appended must have no zero among its bytes. The byte that `reserve`
    copies for the empty string inside `substr` is `null`. -/
theorem edits_are_list_operations (fresh : Nat → UInt8) (null : UInt8) (hs : Good s) (ht : Good t) (ht0 : 0 ∉ bytes t)
    (hs31 : s.size_ < 2 ^ 31) (ht31 : t.size_ < 2 ^ 31) :
    Becomes (append fresh s (some t)) (bytes s ++ bytes t) ∧
    (∀ a n, a + n ≤ s.size_ → Becomes (replace fresh s a n (some t)) ((bytes s).take a ++ bytes t ++ (bytes s).drop (a + n))) ∧
    (∀ a n, 0 < n → a + n ≤ s.size_ → Becomes (substrInto fresh (emptyOver null) s a n) (((bytes s).drop a).take n)) ∧
    (∀ m < 2 ^ 31, Becomes (resize fresh s m) ((bytes s).take m ++ List.replicate (m - s.size_) 0)) ∧
    ∃ r, equal s t = .ok r ∧ (r = true ↔ bytes s = bytes t) :=
  ⟨append_becomes fresh hs ht ht0 hs31 ht31, fun _ _ h => replace_becomes fresh hs ht hs31 ht31 h,
    fun _ _ _ h => substrInto_becomes fresh null hs hs31 h, fun _ h => resize_becomes fresh hs h, equal_spec hs ht⟩

/-- "ab" and "c". -/
theorem edits_are_list_operations_ab :
    Becomes (append (fun _ => 0xAA) ⟨some [0x61, 0x62, 0], 2, 2⟩ (some ⟨some [0x63, 0], 1, 1⟩)) [0x61, 0x62, 0x63] ∧
      Becomes (replace (fun _ => 0xAA) ⟨some [0x61, 0x62, 0], 2, 2⟩ 0 1 (some ⟨some [0x63, 0], 1, 1⟩)) [0x63, 0x62] ∧
      Becomes (substrInto (fun _ => 0xAA) (emptyOver 7) ⟨some [0x61, 0x62, 0], 2, 2⟩ 1 1) [0x62] ∧
      Becomes (resize (fun _ => 0xAA) ⟨some [0x61, 0x62, 0], 2, 2⟩ 3) [0x61, 0x62, 0] := by
  have hab : Good ⟨some [0x61, 0x62, 0], 2, 2⟩ := ⟨_, rfl, rfl, Nat.le_refl _, rfl⟩
  have hc : Good ⟨some [0x63, 0], 1, 1⟩ := ⟨_, rfl, rfl, Nat.le_refl _, rfl⟩
  obtain ⟨h1, h2, h3, h4, -⟩ := edits_are_list_operations (fun _ => 0xAA) 7 hab hc (by decide) (by decide) (by decide)
  exact ⟨h1, h2 0 1 (by decide), h3 1 1 (by decide) (by decide), h4 3 (by decide)⟩

end Str

end Rodvin.Libc
