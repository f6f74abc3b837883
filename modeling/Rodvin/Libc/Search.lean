/-
  Rodvin.Libc.Search — `memcmp`, `strstr` (`kernel/src/libc/string.cpp`) and
  `rodvin::string::find` on bytes.

  `strstr` looks at the offsets below `strlen(haystack) - strlen(needle)`. At that offset
  the needle would end where the haystack does, so an occurrence there is never found
  (`strstr_spec`), and `find` is right exactly when the first occurrence is not that one
  (`find_iff`).
-/

import Rodvin.Libc.StrEdits

namespace Rodvin.Libc

open Rodvin.Lib

namespace Str

/-- The loop of `memcmp`, over `k` bytes from `i` on. -/
def memcmpFrom (t1 t2 : Bytes) (i : Nat) : Nat → Checked Int
  | 0 => pure 0
  | k + 1 => do
    let x ← read t1 i
    let y ← read t2 i
    if x ≠ y then pure ((y.toNat : Int) - x.toNat) else memcmpFrom t1 t2 (i + 1) k

/-- `memcmp` of the memory from the two pointers on. -/
def memcmp (s1 s2 : Bytes) (n : Nat) : Checked Int := memcmpFrom s1 s2 0 n

/-- The loop of `strstr`, over `k` offsets. -/
def strstrFrom (haystack needle : Bytes) (offset : Nat) : Nat → Checked (Option Nat)
  | 0 => pure none
  | k + 1 => do
    let c ← memcmp (haystack.drop offset) needle (← strlen needle)
    if c = 0 then pure (some offset) else strstrFrom haystack needle (offset + 1) k

def strstr (haystack needle : Bytes) : Checked (Option Nat) := do
  if (← strlen needle) > (← strlen haystack) then pure none
  else
    let lim := (← strlen haystack) - (← strlen needle)
    strstrFrom haystack needle 0 lim

/-- `find(const char*, size_t)`. -/
def findBytes (s : Str) (c : Bytes) (pos : Nat) : Checked Nat := do
  match ← strstr ((← deref s.storage).drop pos) c with
  | none => pure npos
  | some v => pure (pos + v)

/-- `find(const string&, size_t)`. -/
def find (s str : Str) (pos : Nat) : Checked Nat := do findBytes s (← deref str.storage) pos

/-- What `find` is to return. -/
def Occurs (hay needle : Bytes) (o : Nat) : Prop := needle <+: hay.drop o

def Found (hay needle : Bytes) (pos r : Nat) : Prop :=
  (r = npos ∧ ∀ o, pos ≤ o → ¬ Occurs hay needle o) ∨
    (r ≠ npos ∧ pos ≤ r ∧ Occurs hay needle r ∧ ∀ o, pos ≤ o → o < r → ¬ Occurs hay needle o)

/-- The first occurrence ends at the end. -/
def FirstAtEnd (hay needle : Bytes) (pos : Nat) : Prop :=
  ∃ o, pos ≤ o ∧ o + needle.length = hay.length ∧ Occurs hay needle o ∧ ∀ p, pos ≤ p → p < o → ¬ Occurs hay needle p

variable {s t : Str} {b c d hay needle : Bytes} {k n o pos : Nat}

/-! ## `memcmp` -/

theorem memcmpFrom_spec {i : Nat} (hb : i + k ≤ b.length) (hc : i + k ≤ d.length) :
    ∃ r, memcmpFrom b d i k = .ok r ∧ (r = 0 ↔ ∀ j, i ≤ j → j < i + k → b[j]? = d[j]?) := by
  induction k generalizing i with
  | zero => exact ⟨0, rfl, fun _ j h1 h2 => absurd h1 (by omega), fun _ => rfl⟩
  | succ k ih =>
    have hbi : b[i]? = some b[i] := List.getElem?_eq_getElem (by omega)
    have hci : d[i]? = some d[i] := List.getElem?_eq_getElem (by omega)
    unfold memcmpFrom
    rw [ok_bind (read_of_some hbi), ok_bind (read_of_some hci)]
    by_cases hx : b[i] = d[i]
    · obtain ⟨r, hr, hiff⟩ := ih (i := i + 1) (by omega) (by omega)
      rw [if_neg (not_not.mpr hx)]
      refine ⟨r, hr, hiff.trans ⟨fun h j h1 h2 => ?_, fun h j h1 h2 => h j (by omega) (by omega)⟩⟩
      rcases Nat.eq_or_lt_of_le h1 with rfl | h1
      · rw [hbi, hci, hx]
      · exact h j h1 (by omega)
    · rw [if_pos hx]
      refine ⟨_, rfl, fun e => absurd (UInt8.toNat_inj.mp (by omega)) hx, fun h => absurd ?_ hx⟩
      have he := h i (Nat.le_refl _) (by omega)
      rw [hbi, hci] at he
      exact Option.some.inj he

/-- At an offset with room for the needle it compares with the haystack there. -/
theorem memcmp_occurs (hs : Owns s b) (ht : Owns t c) (ho : o + t.size_ ≤ s.size_) :
    ∃ r, memcmp (b.drop o) c t.size_ = .ok r ∧ (r = 0 ↔ Occurs (bytes s) (bytes t) o) := by
  have hblen := hs.length
  have hbsize := hs.size
  have hclen := ht.length
  have hcsize := ht.size
  have hdrop : (b.drop o).length = b.length - o := List.length_drop
  obtain ⟨r, hr, hiff⟩ := memcmpFrom_spec (b := b.drop o) (d := c) (i := 0) (k := t.size_) (by omega) (by omega)
  refine ⟨r, hr, hiff.trans ?_⟩
  unfold Occurs
  rw [List.prefix_iff_getElem?]
  constructor
  · intro h i hi
    rw [ht.length_bytes] at hi
    have he := h i (Nat.zero_le _) (by omega)
    rw [List.getElem?_drop] at he ⊢
    rw [hs.getElem?_bytes, if_pos (by omega), he, ← List.getElem?_eq_getElem, ht.getElem?_bytes, if_pos hi]
  · intro h j _ hj
    have hlt : j < (bytes t).length := by
      rw [ht.length_bytes]
      omega
    have he := h j hlt
    rw [List.getElem?_drop, hs.getElem?_bytes, if_pos (by omega), ← List.getElem?_eq_getElem, ht.getElem?_bytes,
      if_pos (by omega)] at he
    rw [List.getElem?_drop, he]

theorem Occurs.fits (h : Occurs hay needle o) (hne : needle ≠ []) : o + needle.length ≤ hay.length := by
  have hle := h.length_le
  have hpos := List.length_pos_iff.mpr hne
  rw [List.length_drop] at hle
  omega

/-! ## `strstr` -/

/-- The loop gives the first offset at which `memcmp` says that they are the same. -/
theorem strstrFrom_spec {P : Nat → Prop} (hn : strlen c = .ok n) {offset : Nat}
    (hcmp : ∀ o < offset + k, ∃ r, memcmp (b.drop o) c n = .ok r ∧ (r = 0 ↔ P o)) :
    (strstrFrom b c offset k = .ok none ∧ ∀ o, offset ≤ o → o < offset + k → ¬ P o) ∨
      ∃ o, strstrFrom b c offset k = .ok (some o) ∧ offset ≤ o ∧ o < offset + k ∧ P o ∧ ∀ p, offset ≤ p → p < o →
        ¬ P p := by
  induction k generalizing offset with
  | zero => exact .inl ⟨rfl, fun o h1 h2 => absurd h1 (by omega)⟩
  | succ k ih =>
    obtain ⟨r, hr, hiff⟩ := hcmp offset (by omega)
    unfold strstrFrom
    rw [ok_bind hn, ok_bind hr]
    by_cases hz : r = 0
    · rw [if_pos hz]
      exact .inr ⟨offset, rfl, Nat.le_refl _, by omega, hiff.mp hz, fun p h1 h2 => absurd h1 (by omega)⟩
    · have hnot : ¬ P offset := fun h => hz (hiff.mpr h)
      have hfirst {p : Nat} (hp : offset ≤ p) (h : offset + 1 ≤ p → ¬ P p) : ¬ P p := by
        rcases Nat.eq_or_lt_of_le hp with rfl | hp
        · exact hnot
        · exact h hp
      rw [if_neg hz]
      rcases ih (show ∀ o < offset + 1 + k, _ from fun o ho => hcmp o (by omega)) with ⟨he, h⟩ | ⟨o, he, h1, h2, h3, h4⟩
      · exact .inl ⟨he, fun o ho hlt => hfirst ho fun h' => h o h' (by omega)⟩
      · exact .inr ⟨o, he, by omega, by omega, h3, fun p hp hlt => hfirst hp fun h' => h4 p h' hlt⟩

theorem Owns.strlen_drop (h : Owns s b) (h0 : 0 ∉ bytes s) (hp : pos ≤ s.size_) :
    strlen (b.drop pos) = .ok (s.size_ - pos) := by
  have hends := h.ends h0
  refine strlen_eq ⟨?_, fun i hi => ?_⟩
  · rw [List.getElem?_drop, Nat.add_sub_cancel' hp]
    exact hends.1
  · rw [List.getElem?_drop]
    exact hends.2 _ (by omega)

/-- From `pos` on it finds the first occurrence that ends before the end. -/
theorem strstr_spec (hs : Owns s b) (ht : Owns t c) (hs0 : 0 ∉ bytes s) (ht0 : 0 ∉ bytes t) (hp : pos ≤ s.size_) :
    (strstr (b.drop pos) c = .ok none ∧ ∀ o, pos ≤ o → o + t.size_ < s.size_ → ¬ Occurs (bytes s) (bytes t) o) ∨
      ∃ v, strstr (b.drop pos) c = .ok (some v) ∧ pos + v + t.size_ < s.size_ ∧ Occurs (bytes s) (bytes t) (pos + v) ∧
        ∀ o, pos ≤ o → o < pos + v → ¬ Occurs (bytes s) (bytes t) o := by
  have hhay := hs.strlen_drop hs0 hp
  have hneedle : strlen c = .ok t.size_ := strlen_eq (ht.ends ht0)
  unfold strstr
  rw [ok_bind hneedle, ok_bind hhay]
  by_cases hlong : t.size_ > s.size_ - pos
  · rw [if_pos hlong]
    exact .inl ⟨rfl, fun o h1 h2 => absurd h1 (by omega)⟩
  · rw [if_neg hlong, ok_bind hhay, ok_bind hneedle]
    have hcmp : ∀ o < 0 + (s.size_ - pos - t.size_), ∃ r, memcmp ((b.drop pos).drop o) c t.size_ = .ok r ∧
        (r = 0 ↔ Occurs (bytes s) (bytes t) (pos + o)) := by
      intro o ho
      rw [List.drop_drop]
      exact memcmp_occurs hs ht (by omega)
    rcases strstrFrom_spec hneedle hcmp with ⟨he, h⟩ | ⟨v, he, -, h2, h3, h4⟩
    · refine .inl ⟨he, fun o h1 h2 => ?_⟩
      have := h (o - pos) (Nat.zero_le _) (by omega)
      rwa [Nat.add_sub_cancel' h1] at this
    · refine .inr ⟨v, he, by omega, h3, fun o h1 h2 => ?_⟩
      have := h4 (o - pos) (Nat.zero_le _) (by omega)
      rwa [Nat.add_sub_cancel' h1] at this

/-! ## `find` -/

/-- `find` gives the first occurrence from `pos` on, or `npos` for none, exactly when the
    first is not at the very end. -/
theorem find_iff (hs : Good s) (ht : Good t) (hs0 : 0 ∉ bytes s) (ht0 : 0 ∉ bytes t) (hword : s.size_ < 2 ^ 64)
    (hne : bytes t ≠ []) (hp : pos ≤ s.size_) :
    ∃ r, find s t pos = .ok r ∧ (Found (bytes s) (bytes t) pos r ↔ ¬ FirstAtEnd (bytes s) (bytes t) pos) := by
  obtain ⟨b, hb⟩ := hs
  obtain ⟨c, hc⟩ := ht
  have hpos := List.length_pos_iff.mpr hne
  rw [hc.length_bytes] at hpos
  have hfits {o : Nat} (h : Occurs (bytes s) (bytes t) o) : o + t.size_ ≤ s.size_ := by
    have := h.fits hne
    rwa [hb.length_bytes, hc.length_bytes] at this
  have hfind : find s t pos = (do match ← strstr (b.drop pos) c with | none => pure npos | some v => pure (pos + v)) := by
    unfold find findBytes
    rw [hb.storage, hc.storage]
    rfl
  have hend {o : Nat} (h : o + (bytes t).length = (bytes s).length) : o + t.size_ = s.size_ := by
    rwa [hb.length_bytes, hc.length_bytes] at h
  rw [hfind]
  rcases strstr_spec hb hc hs0 ht0 hp with ⟨he, hnone⟩ | ⟨v, he, hlt, hocc, hfirst⟩
  · refine ⟨npos, by rw [he]; rfl, ?_⟩
    constructor
    · rintro (⟨-, h⟩ | ⟨h, -⟩) ⟨o, h1, -, h3, -⟩
      · exact h o h1 h3
      · exact h rfl
    · intro h
      refine .inl ⟨rfl, fun o h1 ho => h ⟨o, h1, ?_, ho, fun p hp hpo => ?_⟩⟩
      · rw [hb.length_bytes, hc.length_bytes]
        by_contra hne'
        exact hnone o h1 (by have := hfits ho; omega) ho
      · exact hnone p hp (by have := hfits ho; omega)
  · refine ⟨pos + v, by rw [he]; rfl, ?_⟩
    constructor
    · rintro - ⟨o, h1, h2, -, h4⟩
      have hle := hend h2
      exact h4 (pos + v) (by omega) (by omega) hocc
    · intro _
      exact .inr ⟨by unfold npos; omega, by omega, hocc, hfirst⟩

/-- "aab" and "a" from the second byte on. -/
theorem find_iff_aab : ∃ r, find ⟨some [0x61, 0x61, 0x62, 0], 3, 3⟩ ⟨some [0x61, 0], 1, 1⟩ 1 = .ok r ∧
    (Found [0x61, 0x61, 0x62] [0x61] 1 r ↔ ¬ FirstAtEnd [0x61, 0x61, 0x62] [0x61] 1) :=
  find_iff (s := ⟨some [0x61, 0x61, 0x62, 0], 3, 3⟩) (t := ⟨some [0x61, 0], 1, 1⟩) ⟨_, rfl, rfl, Nat.le_refl _, rfl⟩
    ⟨_, rfl, rfl, Nat.le_refl _, rfl⟩ (by decide) (by decide) (by decide) (by decide) (by decide)

/-- "ab" is not found in itself. -/
theorem find_misses_the_end : ¬ ∀ s t pos, Good s → Good t → 0 ∉ bytes s → 0 ∉ bytes t → bytes t ≠ [] → pos ≤ s.size_ →
    ∃ r, find s t pos = .ok r ∧ Found (bytes s) (bytes t) pos r := by
  intro h
  have hab : Good ⟨some [0x61, 0x62, 0], 2, 2⟩ := ⟨_, rfl, rfl, Nat.le_refl _, rfl⟩
  obtain ⟨r, hr, hfound⟩ := h ⟨some [0x61, 0x62, 0], 2, 2⟩ ⟨some [0x61, 0x62, 0], 2, 2⟩ 0 hab hab (by decide) (by decide) (by decide)
    (by decide)
  have hn : find ⟨some [0x61, 0x62, 0], 2, 2⟩ ⟨some [0x61, 0x62, 0], 2, 2⟩ 0 = .ok npos := by decide +kernel
  obtain rfl := Except.ok.inj (hn.symm.trans hr)
  rcases hfound with ⟨-, h⟩ | ⟨h, -⟩
  · exact h 0 (Nat.le_refl _) (List.prefix_refl _)
  · exact h rfl

end Str

end Rodvin.Libc
