/-
  Rodvin.Kernel.XmlProgress — when reading XML ends (`kernel/src/common/Xml.cpp`:
  `XmlTok`, `XmlRead`).

  A call that starts at a `'` gives a `String` of no byte and leaves `index` where it is, so
  an attribute loop that meets one asks for it again and again (`quote_never_returns`).
  Behind the buffer, where a look-ahead or a loop over a gap can leave `index`, every byte
  that is not punctuation has the same effect, and the end is never reached.
  - `advances_iff`: of one call, from any index.
  - `ends_of_good`: if no call starts at a `'` or behind the buffer, `XmlRead` returns.
  - `ends_iff`: whatever lies behind the buffer, all calls advance and `XmlRead` returns,
    iff no call starts there.
-/

import Rodvin.Kernel.XmlMemory

namespace Rodvin.Kernel.XmlMemory

open Rodvin.Lib Rodvin.Libc
open Rodvin.Kernel.Xml (XmlToken TokenType Text XmlRead XmlRead_congr XmlRead_returns Measured calls calls_invariant)
open Rodvin.Kernel.XmlTokens (Cursor next advance next_index advance_index IsWhitespace IsValidString copied single)

variable {fresh : Nat → Nat → UInt8} {mem mem' : Nat → UInt8} {length : Nat} {cur cur' : Cursor} {c : UInt8} {n : Nat}

/-! ## One call -/

/-- The call does not give `EndOfFile` unless it moves `index`. -/
def Advances (fresh : Nat → Nat → UInt8) (mem : Nat → UInt8) (length : Nat) (cur : Cursor) : Prop :=
  (source fresh mem length cur).1.type = .EndOfFile ∨ cur.index < (source fresh mem length cur).2.index

/-- A `'` in the buffer; behind it, a byte that no case of the `switch` takes. -/
def Stuck (mem : Nat → UInt8) (length : Nat) (cur : Cursor) : Prop :=
  (cur.index < length ∧ mem cur.index = 0x27) ∨
    (length < cur.index ∧ mem cur.index ∉ [0x3C, 0x3E, 0x3D, 0x2F, 0x22])

theorem word_advances_iff :
    cur.index < (word fresh mem length cur).2.index ↔ cur.index < length ∧ IsValidString (mem cur.index) = true := by
  have hskip : (word fresh mem length cur).2 = skipWhile mem length IsValidString (length - cur.index) cur := rfl
  rw [hskip]
  cases hn : length - cur.index with
  | zero =>
    refine iff_of_false (Nat.lt_irrefl _) fun h => ?_
    omega
  | succ n =>
    unfold skipWhile
    by_cases hgo : cur.index < length ∧ IsValidString (mem cur.index) = true
    · rw [if_pos hgo]
      refine iff_of_true ?_ hgo
      have hle : (next (mem cur.index) cur).index ≤
          (skipWhile mem length IsValidString n (next (mem cur.index) cur)).index := skipWhile_index_le
      rw [next_index] at hle
      omega
    · rw [if_neg hgo]
      exact iff_of_false (Nat.lt_irrefl _) hgo

/-- Where the `switch` is at no whitespace and no `<`. -/
theorem token_advances_iff (hs : cur.index < length → IsWhitespace (mem cur.index) = false) (hend : cur.index ≠ length)
    (hopen : mem cur.index ≠ 0x3C) : cur.index < (token fresh mem length cur).2.index ↔ ¬ Stuck mem length cur := by
  have hsingle : ∀ type c, cur.index < (single type c cur).2.index := fun type c => by simp [single]
  have hnot : mem cur.index ∈ [0x3E, 0x3D, 0x2F, 0x22] → ¬ Stuck mem length cur := by
    intro hm hst
    rcases hst with ⟨-, h⟩ | ⟨-, h⟩
    · rw [h] at hm
      exact absurd hm (by decide)
    · exact h (List.mem_cons_of_mem _ hm)
  unfold token
  simp only
  split_ifs with h1 h2 h3 h4
  · exact iff_of_true (hsingle _ _) (hnot (by simp [h1]))
  · exact iff_of_true (hsingle _ _) (hnot (by simp [h2]))
  · exact iff_of_true (hsingle _ _) (hnot (by simp [h3]))
  · exact iff_of_true quoted_index (hnot (by simp [h4]))
  · rw [word_advances_iff]
    unfold Stuck IsValidString
    by_cases hl : cur.index < length
    · simp [hl, hs hl, hopen, h1, h2, h3, h4]
      omega
    · have hgt : length < cur.index := by omega
      simp [hl, hgt, hopen, h1, h2, h3, h4]

/-- A string without its closing quote is read to the end. -/
theorem token_endOfFile (h : (token fresh mem length cur).1.type = .EndOfFile) :
    cur.index < (token fresh mem length cur).2.index := by
  unfold token at h ⊢
  simp only at h ⊢
  split_ifs at h ⊢
  · cases h
  · cases h
  · cases h
  · exact quoted_index
  · cases h

theorem XmlTok_advances_iff {r : XmlToken × Cursor} (h : XmlTok fresh mem length (n + 1) cur = some r) :
    (r.1.type = .EndOfFile ∨ cur.index < r.2.index) ↔ ¬ Stuck mem length cur := by
  rcases space_or_not mem length cur with ⟨hl, hs⟩ | hs
  · rw [XmlTok_space hl hs] at h
    have hle := XmlTok_index_le _ _ h
    rw [next_index] at hle
    refine iff_of_true (Or.inr hle) fun hst => ?_
    rcases hst with ⟨-, hq⟩ | ⟨hgt, -⟩
    · rw [hq] at hs
      exact absurd hs (by decide)
    · omega
  · rw [XmlTok_at hs] at h
    have hopenNot : mem cur.index = 0x3C → ¬ Stuck mem length cur := by
      intro hm hst
      rcases hst with ⟨-, hq⟩ | ⟨-, hq⟩
      · rw [hq] at hm
        exact absurd hm (by decide)
      · exact hq (by simp [hm])
    split_ifs at h with hend hopen hinstr hcomment
    · obtain rfl := Option.some.inj h
      refine iff_of_true (Or.inl rfl) fun hst => ?_
      unfold Stuck at hst
      omega
    · have h1 := XmlTok_index_le _ _ h
      have h2 := skipInstruction_index mem length cur
      exact iff_of_true (Or.inr (by omega)) (hopenNot hopen)
    · have h1 := XmlTok_index_le _ _ h
      have h2 := skipComment_index mem length cur
      exact iff_of_true (Or.inr (by omega)) (hopenNot hopen)
    · obtain rfl := Option.some.inj h
      exact iff_of_true (Or.inr (by simp [single])) (hopenNot hopen)
    · obtain rfl := Option.some.inj h
      rw [← token_advances_iff hs hend hopen]
      exact ⟨fun h => h.elim token_endOfFile id, Or.inr⟩

/-- A call advances, or gives `EndOfFile`, unless it starts at such a byte. -/
theorem advances_iff : Advances fresh mem length cur ↔ ¬ Stuck mem length cur :=
  XmlTok_advances_iff (source_eq cur)

/-! ## A run -/

/-- Neither at a `'` nor behind the buffer. -/
def Good (mem : Nat → UInt8) (length : Nat) (cur : Cursor) : Prop :=
  cur.index ≤ length ∧ (cur.index < length → mem cur.index ≠ 0x27)

instance : Decidable (Good mem length cur) := inferInstanceAs (Decidable (_ ∧ _))

theorem Good.advances (h : Good mem length cur) : Advances fresh mem length cur := by
  refine advances_iff.mpr fun hst => ?_
  rcases hst with ⟨hl, hq⟩ | ⟨hgt, -⟩
  · exact h.2 hl hq
  · exact absurd h.1 (Nat.not_le_of_lt hgt)

/-- The calls that start well; any other gives the end of the file. -/
def guarded (fresh : Nat → Nat → UInt8) (mem : Nat → UInt8) (length : Nat) (cur : Cursor) : XmlToken × Cursor :=
  if Good mem length cur then source fresh mem length cur else (⟨.EndOfFile, [], cur.line, cur.chr⟩, cur)

theorem guarded_measured (fresh : Nat → Nat → UInt8) (mem : Nat → UInt8) (length : Nat) :
    Measured (guarded fresh mem length) fun cur => length + 1 - cur.index := by
  have hle : ∀ cur, cur.index ≤ (source fresh mem length cur).2.index := fun cur => XmlTok_index_le _ _ (source_eq cur)
  refine ⟨fun cur => ?_, fun cur hne => ?_⟩
  · unfold guarded
    split
    · have := hle cur
      omega
    · exact Nat.le_refl _
  · unfold guarded at hne ⊢
    split at hne
    · rename_i hgood
      rw [if_pos hgood]
      have hlt := hgood.advances.resolve_left hne
      have := hgood.1
      omega
    · exact absurd rfl hne

/-- `XmlRead` returns if no call starts at a `'` or behind the buffer. -/
theorem ends_of_good (line chr : Int)
    (h : ∀ fuel, ∀ cur ∈ calls (source fresh mem length) fuel ⟨0, line, chr⟩, Good mem length cur) :
    ∃ fuel r s, XmlRead (source fresh mem length) fuel ⟨⟨0, line, chr⟩, 0, []⟩ = some (r, s) := by
  have hfuel : 2 * (length + 1 - 0) + 4 ≤ 2 * length + 6 := by omega
  obtain ⟨r, s, hr⟩ := XmlRead_returns (guarded_measured fresh mem length) ⟨⟨0, line, chr⟩, 0, []⟩ hfuel
  refine ⟨2 * length + 6, r, s, ?_⟩
  rw [← hr]
  refine XmlRead_congr fun u hu => ?_
  unfold guarded
  rw [if_pos (h _ u hu)]

/-! ## Other bytes behind the buffer -/

/-- `mem` with the letter `a` from `i` on. -/
def spoil (mem : Nat → UInt8) (i k : Nat) : UInt8 := if k < i then mem k else 0x61

variable {i : Nat} {bs : Bytes}

theorem spoil_of_lt {k : Nat} (h : k < i) : spoil mem i k = mem k := if_pos h

theorem spoil_of_ge {k : Nat} (h : i ≤ k) : spoil mem i k = 0x61 := if_neg (Nat.not_lt_of_le h)

theorem skipWhile_spoil {p : UInt8 → Bool} (hi : length ≤ i) :
    skipWhile (spoil mem i) length p n cur = skipWhile mem length p n cur := by
  induction n generalizing cur with
  | zero => rfl
  | succ n ih =>
    unfold skipWhile
    by_cases hl : cur.index < length
    · rw [spoil_of_lt (by omega), ih]
    · rw [if_neg fun h => hl h.1, if_neg fun h => hl h.1]

/-- A match that is found with the other bytes lies in front of them. -/
theorem matchesAt_of_spoil (hbs : 0x61 ∉ bs) :
    ∀ {a : Nat}, matchesAt (spoil mem i) a bs = true → matchesAt mem a bs = true := by
  induction bs with
  | nil => exact fun _ => rfl
  | cons b bs ih =>
    intro a h
    rw [List.mem_cons, not_or] at hbs
    unfold matchesAt at h ⊢
    rw [Bool.and_eq_true, beq_iff_eq] at h ⊢
    refine ⟨?_, ih hbs.2 h.2⟩
    by_cases ha : a < i
    · rw [spoil_of_lt ha] at h
      exact h.1
    · rw [spoil_of_ge (by omega)] at h
      exact absurd h.1 hbs.1

theorem matchesAt_spoil_of_le : ∀ {a : Nat}, a + bs.length ≤ i → matchesAt (spoil mem i) a bs = matchesAt mem a bs := by
  induction bs with
  | nil => exact fun _ => rfl
  | cons b bs ih =>
    intro a h
    rw [List.length_cons] at h
    unfold matchesAt
    rw [spoil_of_lt (by omega), ih (by omega)]

theorem matchesAt_spoil {a : Nat} (hbs : 0x61 ∉ bs) (h : matchesAt mem a bs = true → a + bs.length ≤ i) :
    matchesAt (spoil mem i) a bs = matchesAt mem a bs := by
  cases hm : matchesAt mem a bs with
  | true => rw [matchesAt_spoil_of_le (h hm), hm]
  | false =>
    rw [← Bool.not_eq_true] at hm ⊢
    exact fun hs => hm (matchesAt_of_spoil hbs hs)

theorem opens_spoil {slack a : Nat} (hbs : 0x61 ∉ bs) (h : opens mem length slack a bs = true → a + 1 + bs.length ≤ i) :
    opens (spoil mem i) length slack a bs = opens mem length slack a bs := by
  unfold opens at h ⊢
  by_cases ha : a < length + slack
  · rw [decide_eq_true ha, Bool.true_and] at h ⊢
    exact matchesAt_spoil hbs h
  · rw [decide_eq_false ha, Bool.false_and, Bool.false_and]

theorem skipUntil_spoil {close : Bytes} {slack : Nat} {move : UInt8 → Cursor → Cursor}
    (hm : ∀ c cur, (move c cur).index = cur.index + 1) (hclose : 0x61 ∉ close) :
    ∀ {cur : Cursor}, (skipUntil mem length close slack move n cur).index + close.length ≤ i →
      skipUntil (spoil mem i) length close slack move n cur = skipUntil mem length close slack move n cur := by
  induction n with
  | zero => exact fun _ => rfl
  | succ n ih =>
    intro cur h
    unfold skipUntil at h ⊢
    by_cases hgo : cur.index < length + slack ∧ matchesAt mem cur.index close = false
    · rw [if_pos hgo] at h ⊢
      have hle : (move (mem cur.index) cur).index ≤
          (skipUntil mem length close slack move n (move (mem cur.index) cur)).index := skipUntil_index_le hm
      rw [hm] at hle
      rw [spoil_of_lt (by omega), matchesAt_spoil hclose (fun h => by rw [hgo.2] at h; cases h), if_pos hgo, ih h]
    · rw [if_neg hgo] at h ⊢
      rw [matchesAt_spoil hclose fun _ => h, if_neg hgo]

theorem skip_spoil : ∀ {cur : Cursor}, cur.index + n ≤ i → skip (spoil mem i) n cur = skip mem n cur := by
  induction n with
  | zero => exact fun _ => rfl
  | succ n ih =>
    intro cur h
    unfold skip
    rw [spoil_of_lt (by omega), ih (by rw [next_index]; omega)]

theorem skipInstruction_spoil (h : (skipInstruction mem length cur).index ≤ i) :
    skipInstruction (spoil mem i) length cur = skipInstruction mem length cur := by
  unfold skipInstruction at h ⊢
  simp only at h ⊢
  rw [skipUntil_spoil advance_index (by decide) h]

theorem skipComment_spoil (h : (skipComment mem length cur).index ≤ i) :
    skipComment (spoil mem i) length cur = skipComment mem length cur := by
  have hfirst : cur.index + 4 ≤ i := by
    have := skipComment_index mem length cur
    omega
  unfold skipComment at h ⊢
  simp only [skip_spoil hfirst] at h ⊢
  have hloop := h
  rw [skip_index] at hloop
  rw [skipUntil_spoil next_index (by decide) hloop, skip_spoil hloop]

theorem text_spoil {start stop : Nat} (h : stop ≤ i) :
    text fresh (spoil mem i) start stop = text fresh mem start stop := by
  unfold text
  rw [slice_congr fun k hk => spoil_of_lt (by omega)]

theorem quoted_spoil (hi : length ≤ i) (h : (quoted fresh mem length cur).2.index ≤ i) :
    quoted fresh (spoil mem i) length cur = quoted fresh mem length cur := by
  have hlt : cur.index < (quoted fresh mem length cur).2.index := quoted_index
  have hfirst : spoil mem i cur.index = mem cur.index := spoil_of_lt (by omega)
  unfold quoted at h ⊢
  simp only [skipWhile_spoil hi, hfirst] at h ⊢
  generalize skipWhile mem length (fun c => c != 0x22) _ _ = stop at h ⊢
  by_cases hend : stop.index = length
  · rw [if_pos hend, if_pos hend]
  · rw [if_neg hend] at h
    have hstop : stop.index + 1 ≤ i := by
      rw [← next_index (mem stop.index) stop]
      exact h
    rw [if_neg hend, if_neg hend, spoil_of_lt hstop, text_spoil (by omega)]

theorem word_spoil (hi : length ≤ i) (h : (word fresh mem length cur).2.index ≤ i) :
    word fresh (spoil mem i) length cur = word fresh mem length cur := by
  unfold word at h ⊢
  simp only [skipWhile_spoil hi] at h ⊢
  rw [text_spoil h]

theorem token_spoil (hi : length ≤ i) (h : (token fresh mem length cur).2.index ≤ i) :
    token fresh (spoil mem i) length cur = token fresh mem length cur := by
  have hle : cur.index ≤ (token fresh mem length cur).2.index := token_index_le
  by_cases hlt : cur.index < i
  · unfold token at h ⊢
    simp only [spoil_of_lt hlt] at h ⊢
    split_ifs at h ⊢
    · rfl
    · rfl
    · rfl
    · exact quoted_spoil hi h
    · exact word_spoil hi h
  · -- nothing was read: only a word of no byte ends where it starts
    have hge : spoil mem i cur.index = 0x61 := spoil_of_ge (Nat.le_of_not_lt hlt)
    have hword : token fresh (spoil mem i) length cur = word fresh (spoil mem i) length cur := by
      unfold token
      simp only [hge]
      rfl
    rw [hword]
    unfold token at h ⊢
    simp only at h ⊢
    split_ifs at h with h1 h2 h3 h4
    · simp only [single, next_index] at h
      omega
    · simp only [single, next_index] at h
      omega
    · simp only [single, next_index] at h
      omega
    · have hlt : cur.index < (quoted fresh mem length cur).2.index := quoted_index
      omega
    · rw [if_neg h1, if_neg h2, if_neg h3, if_neg h4]
      exact word_spoil hi h

/-- A call does not see the bytes from where it ends on. -/
theorem XmlTok_spoil (hi : length < i) : ∀ (n : Nat) (cur : Cursor) {r : XmlToken × Cursor},
    XmlTok fresh mem length n cur = some r → r.2.index ≤ i → XmlTok fresh (spoil mem i) length n cur = some r := by
  refine call_induction mem length (fun cur r h => by cases h) (fun n cur hl hs ih r h hr => ?_) (fun n cur hs ih r h hr => ?_)
  · have hsame : spoil mem i cur.index = mem cur.index := spoil_of_lt (by omega)
    rw [XmlTok_space hl hs] at h
    rw [XmlTok_space hl (by rw [hsame]; exact hs), hsame]
    exact ih h hr
  · have hs' : cur.index < length → IsWhitespace (spoil mem i cur.index) = false := fun hl => by
      rw [spoil_of_lt (by omega)]
      exact hs hl
    have hle := XmlTok_index_le _ _ h
    rw [XmlTok_at hs] at h
    rw [XmlTok_at hs']
    by_cases hend : cur.index = length
    · rw [if_pos hend] at h ⊢
      exact h
    · rw [if_neg hend] at h ⊢
      by_cases hopen : mem cur.index = 0x3C
      · rw [if_pos hopen] at h
        have hlt : cur.index < r.2.index := by
          split_ifs at h
          · have h1 := XmlTok_index_le _ _ h
            have h2 := skipInstruction_index mem length cur
            omega
          · have h1 := XmlTok_index_le _ _ h
            have h2 := skipComment_index mem length cur
            omega
          · obtain rfl := Option.some.inj h
            simp [single]
        rw [spoil_of_lt (show cur.index < i by omega), if_pos hopen]
        have hinstr : opens mem length 1 cur.index [0x3F] = true → cur.index + 1 + [(0x3F : UInt8)].length ≤ i := by
          intro ho
          rw [if_pos ho] at h
          have h1 := XmlTok_index_le _ _ h
          have h2 := skipInstruction_index mem length cur
          simp only [List.length_cons, List.length_nil]
          omega
        rw [opens_spoil (by decide) hinstr]
        split_ifs at h with ho hc
        · rw [if_pos ho]
          have h1 := XmlTok_index_le _ _ h
          rw [skipInstruction_spoil (by omega)]
          exact ih _ h hr
        · rw [if_neg ho]
          have h1 := XmlTok_index_le _ _ h
          have h2 := skipComment_index mem length cur
          have hcomment : cur.index + 1 + [(0x21 : UInt8), 0x2D, 0x2D].length ≤ i := by
            simp only [List.length_cons, List.length_nil]
            omega
          rw [opens_spoil (by decide) fun _ => hcomment, if_pos hc, skipComment_spoil (by omega)]
          exact ih _ h hr
        · rw [if_neg ho, opens_spoil (by decide) fun hc' => absurd hc' hc, if_neg hc]
          exact h
      · rw [if_neg hopen] at h
        have htok : token fresh mem length cur = r := Option.some.inj h
        have hnot : spoil mem i cur.index ≠ 0x3C := by
          by_cases hlt : cur.index < i
          · rw [spoil_of_lt hlt]
            exact hopen
          · rw [spoil_of_ge (Nat.le_of_not_lt hlt)]
            decide
        rw [if_neg hnot, token_spoil (Nat.le_of_lt hi) (by rw [htok]; exact hr), htok]

/-! ## Whatever lies behind the buffer -/

/-- The calls of `XmlRead` on a buffer, on some fuel. -/
def callsOf (fresh : Nat → Nat → UInt8) (mem : Nat → UInt8) (length fuel : Nat) : List Cursor :=
  calls (source fresh mem length) fuel ⟨0, 1, 1⟩

/-- Every call advances or gives `EndOfFile`, and `XmlRead` returns. -/
def Ends (fresh : Nat → Nat → UInt8) (mem : Nat → UInt8) (length : Nat) : Prop :=
  (∀ fuel, ∀ cur ∈ callsOf fresh mem length fuel, Advances fresh mem length cur) ∧
    ∃ fuel r s, XmlRead (source fresh mem length) fuel ⟨⟨0, 1, 1⟩, 0, []⟩ = some (r, s)

theorem source_index_le (cur : Cursor) : cur.index ≤ (source fresh mem length cur).2.index :=
  XmlTok_index_le _ _ (source_eq cur)

theorem source_spoil (hi : length < i) (h : (source fresh mem length cur).2.index ≤ i) :
    source fresh (spoil mem i) length cur = source fresh mem length cur := by
  have hs := XmlTok_spoil hi _ cur (source_eq cur) h
  rw [source_eq] at hs
  exact Option.some.inj hs

/-- Where a call starts behind the buffer, other bytes there make one that does not advance. -/
theorem stuck_behind {fuel : Nat} (hcur : cur ∈ callsOf fresh mem length fuel) (hgt : length < cur.index) :
    ∃ i > length, ∃ t ∈ callsOf fresh (spoil mem i) length fuel, ¬ Advances fresh (spoil mem i) length t := by
  have hsome : ((callsOf fresh mem length fuel).find? fun u => decide (length < u.index)).isSome :=
    List.find?_isSome.mpr ⟨cur, hcur, decide_eq_true hgt⟩
  obtain ⟨t, ht⟩ := Option.isSome_iff_exists.mp hsome
  obtain ⟨hbehind, us, vs, hsplit, hbefore⟩ := List.find?_eq_some_iff_append.mp ht
  have hbehind : length < t.index := by simpa using hbehind
  have hsame : ∀ u ∈ us, source fresh mem length u = source fresh (spoil mem t.index) length u := by
    intro u hu
    refine (source_spoil hbehind ?_).symm
    exact Ask.asked_between (fun cur => cur.index) source_index_le hsplit u hu
  obtain ⟨ws, hws⟩ := Ask.asked_prefix hsplit hsame
  refine ⟨t.index, hbehind, t, ?_, fun ha => advances_iff.mp ha (Or.inr ⟨hbehind, ?_⟩)⟩
  · unfold callsOf calls
    rw [hws]
    simp
  · rw [spoil_of_ge (Nat.le_refl _)]
    decide

/-- Whatever lies behind the buffer, all calls advance and `XmlRead` returns: iff no call, with
    whatever lies there, starts at a `'` or behind the buffer. -/
theorem ends_iff (fresh : Nat → Nat → UInt8) (file : Bytes) :
    (∀ mem, Holds mem file → Ends fresh mem file.length) ↔
      ∀ mem, Holds mem file → ∀ fuel, ∀ cur ∈ callsOf fresh mem file.length fuel, Good mem file.length cur := by
  constructor
  · intro h mem hmem fuel cur hcur
    refine ⟨?_, fun hl hq => advances_iff.mp ((h mem hmem).1 fuel cur hcur) (Or.inl ⟨hl, hq⟩)⟩
    by_contra hgt
    obtain ⟨i, hi, t, ht, hnot⟩ := stuck_behind hcur (Nat.lt_of_not_le hgt)
    have hholds : Holds (spoil mem i) file := fun k hk => by
      rw [spoil_of_lt (by omega)]
      exact hmem k hk
    exact hnot ((h _ hholds).1 fuel t ht)
  · intro h mem hmem
    exact ⟨fun fuel cur hcur => (h mem hmem fuel cur hcur).advances, ends_of_good 1 1 fun fuel => h mem hmem fuel⟩

/-- An attribute loop whose source gives a `String` and stays where it is. -/
theorem attributes_stuck {σ : Type} {f : σ → XmlToken × σ} {s : σ} (htype : (f s).1.type = .String)
    (hstay : (f s).2 = s) :
    ∀ (fuel : Nat) (token : XmlToken) (attrs : List (Text × Text)) (e : Xml.Env σ), e.src = s → token.type = .String →
      Xml.attributes f fuel token attrs e = none := by
  intro fuel
  induction fuel with
  | zero => intros; rfl
  | succ fuel ih =>
    intro token attrs e he htok
    have hnext : (Xml.next f e).1.type = .String := by
      unfold Xml.next
      rw [he]
      exact htype
    have hsrc : (Xml.next f e).2.src = s := by
      unfold Xml.next
      rw [he]
      exact hstay
    have hne : ¬ (Xml.next f e).1.type = .Equals := by
      rw [hnext]
      decide
    unfold Xml.attributes
    rw [if_pos htok]
    simp only [hne, if_false]
    exact ih _ _ _ hsrc hnext

/-- `<a '`. -/
def quoteFile : Bytes := [0x3C, 0x61, 0x20, 0x27]

/-- Its attribute loop never ends, whatever lies behind it. -/
theorem quote_never_returns : ¬ ∀ fresh mem file, Holds mem file → Ends fresh mem file.length := by
  intro h
  have hmem : Holds (fun k => quoteFile.getD k 0) quoteFile := by
    intro k hk
    simp only [List.getD_eq_getElem?_getD, List.getElem?_eq_getElem hk, Option.getD_some]
  obtain ⟨-, fuel, r, s, hr⟩ := h (fun _ _ => 0) _ quoteFile hmem
  have h4 : (source (fun _ _ => 0) (fun k => quoteFile.getD k 0) quoteFile.length ⟨3, 1, 4⟩) =
    (⟨.String, [], 1, 4⟩, ⟨3, 1, 4⟩) := by decide +kernel
  have hnone : ∀ token e, e.src = (⟨3, 1, 4⟩ : Cursor) → token.type = .String →
      Xml.attributes (source (fun _ _ => 0) (fun k => quoteFile.getD k 0) quoteFile.length) fuel token [] e = none :=
    fun token e => attributes_stuck (by rw [h4]) (by rw [h4]) fuel token [] e
  have h1 : (source (fun _ _ => 0) (fun k => quoteFile.getD k 0) quoteFile.length ⟨0, 1, 1⟩) =
    (⟨.Open, [0x3C], 1, 1⟩, ⟨1, 1, 2⟩) := by decide +kernel
  have h2 : (source (fun _ _ => 0) (fun k => quoteFile.getD k 0) quoteFile.length ⟨1, 1, 2⟩) =
    (⟨.String, [0x61], 1, 2⟩, ⟨2, 1, 3⟩) := by decide +kernel
  have h3 : (source (fun _ _ => 0) (fun k => quoteFile.getD k 0) quoteFile.length ⟨2, 1, 3⟩) =
    (⟨.String, [], 1, 4⟩, ⟨3, 1, 4⟩) := by decide +kernel
  generalize source (fun _ _ => 0) (fun k => quoteFile.getD k 0) quoteFile.length = f at *
  unfold XmlRead at hr
  simp only [Xml.next, Xml.Env.construct, h1, h2, h3] at hr
  rw [hnone _ _ rfl rfl] at hr
  cases hr

end Rodvin.Kernel.XmlMemory
