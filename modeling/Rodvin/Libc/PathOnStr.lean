/-
  Rodvin.Libc.PathOnStr — `path::canonical` (`kernel/src/libc/path`) over the buffers of
  `rodvin::string`.

  `Rodvin.Libc.Path` computes on the bytes of the strings. Here every `find`, `replace` and
  `getByte` goes to the buffer, and `canonical_follows` says that the two agree, step by
  step, as far as `s.substr` at the end: that starts from a string without a buffer and
  reads or writes address 0, so `canonical` never returns inside its strings
  (`canonical_never`). Where address 0 can be read and written, it is lexical normalisation
  for the paths that `Resolved` describes (`canonical_over_null_iff`).
-/

import Rodvin.Libc.PathLaws
import Rodvin.Libc.Search

namespace Rodvin.Libc.PathOnStr

open Rodvin.Lib Rodvin.Libc.Path Rodvin.Libc.Str

/-! ## `canonical` -/

/-- A literal as the functions of `string` take it. -/
def literal (fresh : Nat → UInt8) (bs : Bytes) : Checked Str := ofCString fresh (bs ++ [0])

/-- `operator+`. -/
def plus (fresh : Nat → Nat → UInt8) (s str : Str) : Checked Str := do
  let c ← copy (fresh 0) s
  append (fresh 1) c (some str)

/-- `s.replace(start, length, "/")`. -/
def replaceBySlash (fresh : Nat → Nat → UInt8) (s : Str) (start length : Nat) : Checked Str := do
  let replaceant ← literal (fresh 0) [slash]
  replace (fresh 1) s start length (some replaceant)

/-- The first two loops. -/
def squeeze (fresh : Nat → Nat → UInt8) (pattern : Bytes) : Nat → Str → Checked Str
  | 0, _ => .error .noReturn
  | fuel + 1, s => do
    let start ← findBytes s (pattern ++ [0]) 0
    if start = npos then pure s
    else do
      let s ← replaceBySlash fresh s start pattern.length
      squeeze fresh pattern fuel s

/-- `while (start != 0 && s.getByte(start) != '/') { start--; length++; }`. -/
def back (storage : Bytes) : Nat → Nat → Checked (Nat × Nat)
  | 0, length => pure (0, length)
  | start + 1, length => do
    let c ← read storage (start + 1)
    if c ≠ slash then back storage start (length + 1) else pure (start + 1, length)

/-- The third loop. -/
def dropParents (fresh : Nat → Nat → UInt8) : Nat → Str → Checked Str
  | 0, _ => .error .noReturn
  | fuel + 1, s => do
    let start ← findBytes s ([slash, period, period, slash] ++ [0]) 0
    if start = npos then pure s
    else if start = 0 then fault        -- `--start` wraps, and `getByte` reads in front of the buffer
    else do
      let (start, length) ← back (← deref s.storage) (start - 1) 5
      let s ← replaceBySlash fresh s start length
      dropParents fresh fuel s

/-- `canonical`, with what the result of `substr` starts from. -/
def canonicalFrom (fresh : Nat → Nat → UInt8) (rv str : Str) : Checked Str := do
  let s ← plus fresh str (← literal (fresh 2) [slash])
  let s ← squeeze fresh [slash, period, slash] (s.size_ + 1) s
  let s ← squeeze fresh [slash, slash] (s.size_ + 1) s
  let s ← dropParents fresh (s.size_ + 1) s
  substrInto (fresh 3) rv s 0 (sub64 s.size_ 1)

def canonical (fresh : Nat → Nat → UInt8) (str : Str) : Checked Str := canonicalFrom fresh empty str

variable {fresh : Nat → Nat → UInt8} {s str t : Str} {p q : Text} {b c : Bytes} {start n spare : Nat}

/-! ## Address 0 -/

/-- Every part of a string is begun at address 0: there is a byte to copy, or a zero to write. -/
theorem substr_never (fresh : Nat → UInt8) (s : Str) (start n : Nat) (t : Str) : substr fresh s start n ≠ .ok t := by
  intro h
  rw [substr_eq_substrInto] at h
  obtain ⟨rv, hrv, -⟩ := bind_eq_ok.mp h
  obtain ⟨grown, hgrown, hrest⟩ := bind_eq_ok.mp hrv
  unfold reserveIf reserve at hgrown
  by_cases hroom : empty.capacity_ < if n = npos then sub64 s.size_ start else n
  · rw [if_pos hroom, if_neg (Nat.not_lt_of_lt hroom)] at hgrown
    obtain ⟨buf, -, hgrown⟩ := bind_eq_ok.mp hgrown
    obtain ⟨old, hold, -⟩ := bind_eq_ok.mp hgrown
    cases hold
  · rw [if_neg hroom] at hgrown
    obtain rfl := Except.ok.inj hgrown
    obtain ⟨storage, hstorage, -⟩ := bind_eq_ok.mp hrest
    cases hstorage

/-- `canonical` never returns without touching it. -/
theorem canonical_never (fresh : Nat → Nat → UInt8) (str t : Str) : canonical fresh str ≠ .ok t := by
  intro h
  obtain ⟨tail, -, h⟩ := bind_eq_ok.mp h
  obtain ⟨s1, -, h⟩ := bind_eq_ok.mp h
  obtain ⟨s2, -, h⟩ := bind_eq_ok.mp h
  obtain ⟨s3, -, h⟩ := bind_eq_ok.mp h
  obtain ⟨s4, -, h⟩ := bind_eq_ok.mp h
  exact substr_never (fresh 3) s4 0 (sub64 s4.size_ 1) t h

/-- `/a`. -/
theorem canonical_of_a_touches_null : ¬ ∀ (fresh : Nat → Nat → UInt8) (str : Str) (s : Text), Good str →
    bytes str = slash :: s → 0 ∉ s → ∃ t, canonical fresh str = .ok t ∧ bytes t = lexical s := by
  intro h
  obtain ⟨t, ht, -⟩ := h (fun _ _ => 0) ⟨some [slash, 0x61, 0], 2, 2⟩ [0x61] ⟨_, rfl, rfl, Nat.le_refl _, rfl⟩ rfl (by decide)
  exact canonical_never _ _ t ht

/-! ## The same step by step -/

/-- `s` is a string of the bytes `p`, with no zero among them, and the heap has blocks of `spare`
    bytes more. -/
structure Holds (spare : Nat) (s : Str) (p : Text) : Prop where
  good : Good s
  bytes : bytes s = p
  nonzero : 0 ∉ p
  room : p.length + spare ≤ heapLimit

theorem Holds.size (h : Holds spare s p) : s.size_ = p.length := by
  obtain ⟨b, hb⟩ := h.good
  rw [← hb.length_bytes, h.bytes]

theorem Holds.lt (h : Holds spare s p) : s.size_ < 2 ^ 31 := by
  have hroom := h.room
  rw [h.size]
  unfold heapLimit at hroom
  omega

/-- `m` returns a string of what `r` gives, or neither gives anything. -/
def Follows (spare : Nat) (m : Checked Str) (r : Checked Text) : Prop :=
  (∀ p, r = .ok p → ∃ s, m = .ok s ∧ Holds spare s p) ∧ ∀ s, m = .ok s → ∃ p, r = .ok p

theorem Follows.bind {m : Checked Str} {r : Checked Text} {f : Str → Checked Str} {g : Text → Checked Text}
    (h : Follows n m r) (hf : ∀ s p, Holds n s p → Follows spare (f s) (g p)) : Follows spare (m >>= f) (r >>= g) := by
  constructor
  · intro q hq
    obtain ⟨p, hp, hq⟩ := bind_eq_ok.mp hq
    obtain ⟨s, hs, hheld⟩ := h.1 p hp
    obtain ⟨t, ht, hres⟩ := (hf s p hheld).1 q hq
    exact ⟨t, bind_eq_ok.mpr ⟨s, hs, ht⟩, hres⟩
  · intro t ht
    obtain ⟨s, hs, ht⟩ := bind_eq_ok.mp ht
    obtain ⟨p, hp⟩ := h.2 s hs
    obtain ⟨s', hs', hheld⟩ := h.1 p hp
    obtain rfl := Except.ok.inj (hs.symm.trans hs')
    obtain ⟨q, hq⟩ := (hf s p hheld).2 t ht
    exact ⟨q, bind_eq_ok.mpr ⟨p, hp, hq⟩⟩

theorem Follows.holds {m : Checked Str} (hm : m = .ok s) (h : Holds spare s p) : Follows spare m (.ok p) := by
  refine ⟨fun q hq => ?_, fun _ _ => ⟨p, rfl⟩⟩
  obtain rfl := Except.ok.inj hq
  exact ⟨s, hm, h⟩

theorem Follows.error (e e' : Stop) : Follows spare (.error e) (.error e') := by
  constructor
  · intro p hp
    cases hp
  · intro s hs
    cases hs

/-- With room in the heap an editing operation gives its list. -/
theorem Becomes.holds {m : Checked Str} (h : Becomes m p) (h0 : 0 ∉ p) (hone : 1 ≤ spare)
    (hroom : p.length + spare ≤ heapLimit) : ∃ s, m = .ok s ∧ Holds spare s p := by
  rcases h with ⟨s, hs, hgood, hbytes⟩ | ⟨-, hfull⟩
  · exact ⟨s, hs, hgood, hbytes, h0, hroom⟩
  · omega

/-- A new buffer with the characters of `p` copied into it is a string of them. -/
theorem strcpy_fills (fresh : Nat → UInt8) (hends : Ends b p.length) (hget : ∀ i < p.length, b[i]? = p[i]?)
    (hroom : p.length + 1 ≤ heapLimit) :
    ∃ d, (new fresh (add64 p.length 1) >>= fun storage => strcpy storage 0 b) = .ok d ∧
      Becomes (.ok ⟨some d, p.length, p.length⟩) p := by
  have hadd : add64 p.length 1 = p.length + 1 := add64_eq (by unfold heapLimit at hroom; omega)
  have hnew : new fresh (p.length + 1) = .ok ((List.range (p.length + 1)).map fresh) := if_pos hroom
  have hfits : 0 + p.length < ((List.range (p.length + 1)).map fresh).length := by simp
  obtain ⟨d, hd, hdlen, hdget⟩ := strcpy_spec hends hfits
  have hcopied {i : Nat} (hi : i ≤ p.length) : d[i]? = b[i]? := (hdget i).trans (if_pos (by omega))
  refine ⟨d, by rw [hadd, ok_bind hnew]; exact hd, ?_⟩
  refine Becomes.stored (by rw [hdlen, List.length_map, List.length_range]) (Nat.le_refl _) ?_ fun i hi => ?_
  · rw [hcopied (Nat.le_refl _)]
    exact hends.1
  · rw [hcopied (Nat.le_of_lt hi), hget i hi]

theorem literal_holds (fresh : Nat → UInt8) (h0 : 0 ∉ p) (hroom : p.length + 1 ≤ heapLimit) :
    ∃ s, literal fresh p = .ok s ∧ Holds 1 s p := by
  have hget : ∀ i < p.length, (p ++ [0])[i]? = p[i]? := fun i hi => List.getElem?_append_left hi
  have hends : Ends (p ++ [0]) p.length := by
    refine ⟨by rw [List.getElem?_append_right (Nat.le_refl _), Nat.sub_self]; rfl, fun i hi he => h0 ?_⟩
    rw [hget i hi] at he
    exact List.mem_of_getElem? he
  obtain ⟨d, hd, hstored⟩ := strcpy_fills fresh hends hget hroom
  obtain ⟨storage, hnew, hcopy⟩ := bind_eq_ok.mp hd
  have hlit : literal fresh p = .ok ⟨some d, p.length, p.length⟩ := by
    unfold literal ofCString
    rw [ok_bind (strlen_eq hends), ok_bind hnew, ok_bind hcopy]
    rfl
  rw [hlit]
  exact Becomes.holds hstored h0 (Nat.le_refl 1) hroom

theorem copy_holds (fresh : Nat → UInt8) (h : Holds 2 s p) : ∃ t, copy fresh s = .ok t ∧ Holds 2 t p := by
  have hroom := h.room
  obtain ⟨b, hb⟩ := h.good
  have hends : Ends b p.length := h.size ▸ hb.ends (h.bytes ▸ h.nonzero)
  have hget : ∀ i < p.length, b[i]? = p[i]? := by
    intro i hi
    have hbyte := hb.getElem?_bytes i
    rwa [if_pos (h.size ▸ hi), h.bytes, eq_comm] at hbyte
  obtain ⟨d, hd, hstored⟩ := strcpy_fills fresh hends hget (by omega)
  obtain ⟨storage, hnew, hcopy⟩ := bind_eq_ok.mp hd
  have hrun : copy fresh s = .ok ⟨some d, p.length, p.length⟩ := by
    unfold copy
    simp only [h.size, hb.storage]
    rw [ok_bind hnew, ok_bind (show deref (some b) = .ok b from rfl), ok_bind hcopy]
    rfl
  rw [hrun]
  exact Becomes.holds hstored h.nonzero (by omega) hroom

/-- `strstr` on the buffers is `strstr` on the bytes. -/
theorem findBytes_eq (h : Holds 1 s p) (hq0 : 0 ∉ q) : ∃ r, findBytes s (q ++ [0]) 0 = .ok r ∧
    match Path.strstr p q with
    | none => r = npos
    | some k => r = k ∧ k ≠ npos := by
  obtain ⟨b, hb⟩ := h.good
  have hneedle : Owns ⟨some (q ++ [0]), q.length, q.length⟩ (q ++ [0]) :=
    ⟨rfl, by simp, Nat.le_refl _, by rw [List.getElem?_append_right (Nat.le_refl _), Nat.sub_self]; rfl⟩
  have hneedleBytes : Str.bytes ⟨some (q ++ [0]), q.length, q.length⟩ = q := by
    rw [hneedle.bytes_eq, List.take_left]
  have hspec := strstr_spec hb hneedle (h.bytes ▸ h.nonzero) (by rw [hneedleBytes]; exact hq0) (Nat.zero_le s.size_)
  rw [hneedleBytes, h.bytes, h.size] at hspec
  simp only [List.drop_zero, Nat.zero_add, Nat.zero_le, true_implies] at hspec
  have hrun : findBytes s (q ++ [0]) 0 = Str.strstr b (q ++ [0]) >>= fun r =>
      match r with
      | none => pure npos
      | some v => pure (0 + v) := by
    unfold findBytes
    rw [hb.storage]
    rfl
  have hroom := h.room
  unfold heapLimit at hroom
  unfold Occurs at hspec
  rw [hrun]
  rcases hspec with ⟨he, hnone⟩ | ⟨v, he, hlt, hocc, hfirst⟩
  · refine ⟨npos, by rw [ok_bind he]; rfl, ?_⟩
    cases hs : Path.strstr p q with
    | none => rfl
    | some k =>
      unfold Path.strstr at hs
      split at hs
      · cases hs
      · obtain ⟨h1, h2, -⟩ := search_some hs
        exact absurd h2 (hnone k (by omega))
  · refine ⟨v, by rw [ok_bind he]; exact congrArg Except.ok (Nat.zero_add v), ?_⟩
    cases hs : Path.strstr p q with
    | none =>
      unfold Path.strstr at hs
      rw [if_neg (by omega)] at hs
      exact absurd hocc (search_none hs v (by omega))
    | some k =>
      unfold Path.strstr at hs
      split at hs
      · cases hs
      · obtain ⟨h1, h2, h3⟩ := search_some hs
        have hvk : ¬ v < k := fun hlt' => h3 v hlt' hocc
        have hkv : ¬ k < v := fun hlt' => hfirst k hlt' h2
        refine ⟨by omega, ?_⟩
        unfold npos
        omega

theorem replaceBySlash_follows (fresh : Nat → Nat → UInt8) (h : Holds 1 s p) (hn : 1 ≤ n) :
    start + n ≤ p.length → Follows 1 (replaceBySlash fresh s start n) (Path.replace p start n [slash]) := by
  intro hfit
  obtain ⟨t, ht, hslash⟩ := literal_holds (fresh 0) (p := [slash]) (by decide) (by decide)
  have hbecomes := replace_becomes (fresh 1) h.good hslash.good h.lt hslash.lt (h.size ▸ hfit)
  rw [h.bytes, hslash.bytes] at hbecomes
  have hres : Path.replace p start n [slash] = .ok (p.take start ++ [slash] ++ p.drop (start + n)) := if_pos hfit
  have hlen : (p.take start ++ [slash] ++ p.drop (start + n)).length ≤ p.length := by
    simp only [List.length_append, List.length_take, List.length_drop, List.length_singleton]
    omega
  have h0 : 0 ∉ p.take start ++ [slash] ++ p.drop (start + n) := by
    simp only [List.mem_append, List.mem_singleton, not_or]
    exact ⟨⟨fun hm => h.nonzero (List.mem_of_mem_take hm), by decide⟩, fun hm => h.nonzero (List.mem_of_mem_drop hm)⟩
  obtain ⟨u, hu, hheld⟩ := Becomes.holds hbecomes h0 (Nat.le_refl 1) (Nat.le_trans (Nat.add_le_add_right hlen 1) h.room)
  rw [hres]
  refine .holds ?_ hheld
  unfold replaceBySlash
  rw [ok_bind ht]
  exact hu

/-- An occurrence that is found lies inside. -/
theorem strstr_fits {k : Nat} (h : Path.strstr p q = some k) : k + q.length ≤ p.length := by
  unfold Path.strstr at h
  split at h
  · cases h
  · obtain ⟨h1, -, -⟩ := search_some h
    omega

theorem squeeze_follows (fresh : Nat → Nat → UInt8) (hq : q ≠ []) (hq0 : 0 ∉ q) (fuel : Nat) (h : Holds 1 s p) :
    Follows 1 (squeeze fresh q fuel s) (Path.squeeze q fuel p) := by
  induction fuel generalizing s p with
  | zero => exact .error _ _
  | succ fuel ih =>
    obtain ⟨r, hr, hmatch⟩ := findBytes_eq h hq0
    have hfind : find p q 0 = .ok (Path.strstr p q) := find_zero p q
    unfold squeeze Path.squeeze
    rw [ok_bind hr, ok_bind hfind]
    cases hs : Path.strstr p q with
    | none =>
      rw [hs] at hmatch
      rw [if_pos hmatch]
      exact .holds rfl h
    | some k =>
      rw [hs] at hmatch
      obtain ⟨rfl, hne⟩ := hmatch
      rw [if_neg hne]
      exact (replaceBySlash_follows fresh h (List.length_pos_iff.mpr hq) (strstr_fits hs)).bind fun _ _ => ih

theorem back_eq (h : Holds 1 s p) (hb : Owns s b) (hstart : start ≤ p.length) (n : Nat) :
    back b start n = Path.back p start n := by
  induction start generalizing n with
  | zero => rfl
  | succ start ih =>
    have hread : read b (start + 1) = .ok (p.getD (start + 1) 0) := by
      refine read_of_some ?_
      have hget := hb.getElem?_bytes (start + 1)
      rw [h.bytes] at hget
      by_cases hlt : start + 1 < p.length
      · rw [if_pos (by rw [h.size]; exact hlt)] at hget
        rw [← hget, List.getD_eq_getElem?_getD, List.getElem?_eq_getElem hlt]
        rfl
      · rw [List.getD_eq_getElem?_getD, List.getElem?_eq_none (Nat.le_of_not_lt hlt)]
        have hend := hb.terminated
        rwa [h.size, show p.length = start + 1 by omega] at hend
    have hbyte : getByte p (start + 1) = .ok (p.getD (start + 1) 0) := if_pos hstart
    unfold back Path.back
    rw [ok_bind hread, ok_bind hbyte]
    by_cases hc : p.getD (start + 1) 0 ≠ slash
    · rw [if_pos hc, if_pos hc]
      exact ih (by omega) (n + 1)
    · rw [if_neg hc, if_neg hc]

/-- Going back, the part only grows to the front. -/
theorem back_sum {a m : Nat} (h : Path.back p start n = .ok (a, m)) : a + m = start + n ∧ n ≤ m := by
  induction start generalizing n with
  | zero =>
    obtain ⟨rfl, rfl⟩ := Prod.mk.inj (Except.ok.inj h)
    exact ⟨rfl, Nat.le_refl _⟩
  | succ start ih =>
    unfold Path.back at h
    obtain ⟨c, -, h⟩ := bind_eq_ok.mp h
    by_cases hc : c ≠ slash
    · rw [if_pos hc] at h
      obtain ⟨h1, h2⟩ := ih h
      omega
    · rw [if_neg hc] at h
      obtain ⟨rfl, rfl⟩ := Prod.mk.inj (Except.ok.inj h)
      exact ⟨rfl, Nat.le_refl _⟩

theorem dropParents_follows (fresh : Nat → Nat → UInt8) (fuel : Nat) (h : Holds 1 s p) :
    Follows 1 (dropParents fresh fuel s) (Path.dropParents fuel p) := by
  induction fuel generalizing s p with
  | zero => exact .error _ _
  | succ fuel ih =>
    obtain ⟨r, hr, hmatch⟩ := findBytes_eq h (q := [slash, period, period, slash]) (by decide)
    have hfind := find_zero p [slash, period, period, slash]
    obtain ⟨b, hb⟩ := h.good
    unfold dropParents Path.dropParents
    rw [ok_bind hr, ok_bind hfind]
    cases hs : Path.strstr p [slash, period, period, slash] with
    | none =>
      rw [hs] at hmatch
      rw [if_pos hmatch]
      exact .holds rfl h
    | some k =>
      rw [hs] at hmatch
      obtain ⟨rfl, hne⟩ := hmatch
      have hfits : r + 4 ≤ p.length := strstr_fits hs
      rw [if_neg hne]
      cases r with
      | zero => exact .error _ _
      | succ k =>
        have hback : back b k 5 = Path.back p k 5 := back_eq h hb (by omega) 5
        rw [if_neg (Nat.succ_ne_zero k), hb.storage]
        change Follows 1 (back b k 5 >>= _) (Path.back p k 5 >>= _)
        rw [hback]
        cases hres : Path.back p k 5 with
        | error e => exact .error _ _
        | ok part =>
          obtain ⟨a, m⟩ := part
          obtain ⟨hsum, hm⟩ := back_sum hres
          exact (replaceBySlash_follows fresh h (by omega) (by omega)).bind fun _ _ => ih

theorem plus_slash_follows (fresh : Nat → Nat → UInt8) (h : Holds 2 str p) :
    ∃ s, (literal (fresh 2) [slash] >>= plus fresh str) = .ok s ∧ Holds 1 s (p ++ [slash]) := by
  have hroom := h.room
  obtain ⟨t, ht, hslash⟩ := literal_holds (fresh 2) (p := [slash]) (by decide) (by decide)
  obtain ⟨c, hc, hcopied⟩ := copy_holds (fresh 0) h
  have happend := append_becomes (fresh 1) hcopied.good hslash.good (hslash.bytes ▸ hslash.nonzero) hcopied.lt hslash.lt
  rw [hcopied.bytes, hslash.bytes] at happend
  have h0 : 0 ∉ p ++ [slash] := by
    simp only [List.mem_append, List.mem_singleton, not_or]
    exact ⟨h.nonzero, by decide⟩
  obtain ⟨s, hs, hheld⟩ := Becomes.holds happend h0 (Nat.le_refl 1)
    (by rw [List.length_append, List.length_singleton]; omega)
  refine ⟨s, ?_, hheld⟩
  rw [ok_bind ht]
  unfold plus
  rw [ok_bind hc]
  exact hs

/-- Dropping the slash at the end again. -/
theorem substrInto_follows (fresh : Nat → UInt8) (null : UInt8) (h : Holds 1 s p) :
    Follows 2 (substrInto fresh (emptyOver null) s 0 (sub64 s.size_ 1)) (Path.substr p 0 (p.length - 1)) := by
  have hroom := h.room
  have hpart : substrInto fresh (emptyOver null) s 0 (sub64 s.size_ 1) = substrInto fresh (emptyOver null) s 0 (p.length - 1) := by
    by_cases hp : p.length = 0
    · -- `size() - 1` wraps to `npos`, and all of nothing is taken
      rw [h.size, hp]
      unfold substrInto
      rw [h.size, hp]
      rfl
    · rw [h.size, sub64_eq (by unfold heapLimit at hroom; omega) (by omega)]
  have hinside : 0 + (p.length - 1) ≤ s.size_ := by
    rw [h.size]
    omega
  have hbecomes := substrInto_becomes fresh null h.good h.lt hinside
  rw [h.bytes] at hbecomes
  have hlen : ((p.drop 0).take (p.length - 1)).length = p.length - 1 := by
    rw [List.length_take, List.length_drop]
    omega
  have hres : Path.substr p 0 (p.length - 1) = .ok ((p.drop 0).take (p.length - 1)) := if_pos (by omega)
  have h0 : 0 ∉ (p.drop 0).take (p.length - 1) := fun hm => h.nonzero (List.mem_of_mem_drop (List.mem_of_mem_take hm))
  rw [hpart, hres]
  have hshort : ((p.drop 0).take (p.length - 1)).length + 2 ≤ heapLimit := by
    rw [hlen]
    unfold heapLimit at *
    omega
  obtain ⟨t, ht, hheld⟩ := Becomes.holds hbecomes h0 (by omega) hshort
  exact .holds ht hheld

/-- Where address 0 can be read and written, `canonical` does on the buffers what it does on the bytes. -/
theorem canonicalFrom_follows (fresh : Nat → Nat → UInt8) (null : UInt8) (h : Holds 2 str p) :
    Follows 2 (canonicalFrom fresh (emptyOver null) str) (Path.canonical p) := by
  obtain ⟨s, hs, hheld⟩ := plus_slash_follows fresh h
  have hrun : canonicalFrom fresh (emptyOver null) str = (do
      let s ← squeeze fresh [slash, period, slash] (s.size_ + 1) s
      let s ← squeeze fresh [slash, slash] (s.size_ + 1) s
      let s ← dropParents fresh (s.size_ + 1) s
      substrInto (fresh 3) (emptyOver null) s 0 (sub64 s.size_ 1)) := by
    obtain ⟨tail, htail, hs⟩ := bind_eq_ok.mp hs
    unfold canonicalFrom
    rw [ok_bind htail, ok_bind hs]
  rw [hrun, hheld.size]
  refine (squeeze_follows fresh (List.cons_ne_nil _ _) (by decide) _ hheld).bind fun s p h => ?_
  rw [h.size]
  refine (squeeze_follows fresh (List.cons_ne_nil _ _) (by decide) _ h).bind fun s p h => ?_
  rw [h.size]
  refine (dropParents_follows fresh _ h).bind fun s p h => ?_
  exact substrInto_follows (fresh 3) null h

/-- Where address 0 can be read and written, `canonical` of an absolute path without zeros is
    lexical normalisation, and idempotent, exactly for the paths that are `Resolved`. -/
theorem canonical_over_null_iff (fresh fresh' : Nat → Nat → UInt8) (null null' : UInt8) {s : Text}
    (h : Holds 2 str (slash :: s)) :
    (∃ t, canonicalFrom fresh (emptyOver null) str = .ok t ∧ Holds 2 t (lexical s) ∧
      ∃ u, canonicalFrom fresh' (emptyOver null') t = .ok u ∧ bytes u = lexical s) ↔ Resolved s := by
  rw [← canonical_is_lexical_iff]
  constructor
  · rintro ⟨t, ht, hheld, u, hu, hbytes⟩
    obtain ⟨hreturns, hgives⟩ := canonicalFrom_follows fresh null h
    obtain ⟨hreturns', hgives'⟩ := canonicalFrom_follows fresh' null' hheld
    obtain ⟨p, hp⟩ := hgives t ht
    obtain ⟨q, hq⟩ := hgives' u hu
    obtain ⟨t', ht', hp'⟩ := hreturns p hp
    obtain ⟨u', hu', hq'⟩ := hreturns' q hq
    obtain rfl := Except.ok.inj (ht.symm.trans ht')
    obtain rfl := Except.ok.inj (hu.symm.trans hu')
    obtain rfl : p = lexical s := hp'.bytes.symm.trans hheld.bytes
    obtain rfl : q = lexical s := hq'.bytes.symm.trans hbytes
    exact ⟨hp, hq⟩
  · rintro ⟨honce, htwice⟩
    obtain ⟨t, ht, hheld⟩ := (canonicalFrom_follows fresh null h).1 _ honce
    obtain ⟨u, hu, hagain⟩ := (canonicalFrom_follows fresh' null' hheld).1 _ htwice
    exact ⟨t, ht, hheld, u, hu, hagain.bytes⟩

/-- `/./a/../b`. -/
theorem canonical_over_null_iff_b :
    ∃ t, canonicalFrom (fun _ _ => 0xAA) (emptyOver 7)
        ⟨some [0x2F, 0x2E, 0x2F, 0x61, 0x2F, 0x2E, 0x2E, 0x2F, 0x62, 0], 9, 9⟩ = .ok t ∧
      Holds 2 t (lexical [0x2E, 0x2F, 0x61, 0x2F, 0x2E, 0x2E, 0x2F, 0x62]) ∧
      ∃ u, canonicalFrom (fun _ _ => 0xBB) (emptyOver 8) t = .ok u ∧
        bytes u = lexical [0x2E, 0x2F, 0x61, 0x2F, 0x2E, 0x2E, 0x2F, 0x62] := by
  refine (canonical_over_null_iff (fun _ _ => 0xAA) (fun _ _ => 0xBB) 7 8 ⟨⟨_, rfl, rfl, Nat.le_refl _, rfl⟩, rfl, ?_, ?_⟩).mpr
    ⟨[], ?_, .inl ?_⟩
  · decide
  · decide
  · decide
  · decide

end Rodvin.Libc.PathOnStr
