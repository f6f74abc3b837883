/-
  Rodvin.Kernel.XmlMemory — the tokeniser on a buffer in memory
  (`kernel/src/common/Xml.cpp`: `XmlTok`).

  `XmlTokens.XmlTok` stops where the buffer is left. Here the reads go on: `mem` gives
  every byte at `file`, those behind `length` too. Where the checked tokeniser returns,
  this one returns the same (`XmlTok_agrees`), so a document in which nothing is cut off is
  read alike whatever lies behind it (`reads_alike`). And it returns from every index
  (`XmlTok_returns`): what is skipped begins before `length + 3`.
-/

import Rodvin.Kernel.XmlBounds

namespace Rodvin.Kernel.XmlMemory

open Rodvin.Lib Rodvin.Libc
open Rodvin.Kernel.Xml (XmlToken TokenType Text XmlRead XmlRead_congr calls)
open Rodvin.Kernel.XmlTokens (Cursor next advance next_index advance_index IsWhitespace IsValidString copied single)

section Tokeniser

variable (fresh : Nat → Nat → UInt8) (mem : Nat → UInt8) (length : Nat)

def skipWhile (p : UInt8 → Bool) : Nat → Cursor → Cursor
  | 0, cur => cur
  | n + 1, cur =>
    if cur.index < length ∧ p (mem cur.index) = true then skipWhile p n (next (mem cur.index) cur) else cur

def matchesAt (i : Nat) : Bytes → Bool
  | [] => true
  | b :: bs => mem i == b && matchesAt (i + 1) bs

def opens (slack index : Nat) (bs : Bytes) : Bool := decide (index < length + slack) && matchesAt mem (index + 1) bs

def skipUntil (close : Bytes) (slack : Nat) (move : UInt8 → Cursor → Cursor) : Nat → Cursor → Cursor
  | 0, cur => cur
  | n + 1, cur =>
    if cur.index < length + slack ∧ matchesAt mem cur.index close = false then
      skipUntil close slack move n (move (mem cur.index) cur)
    else cur

def skip : Nat → Cursor → Cursor
  | 0, cur => cur
  | n + 1, cur => skip n (next (mem cur.index) cur)

def skipInstruction (cur : Cursor) : Cursor :=
  let cur := skipUntil mem length [0x3F, 0x3E] 1 advance (length + 1 - cur.index) cur
  { cur with index := cur.index + 2 }

def skipComment (cur : Cursor) : Cursor :=
  let cur := skip mem 4 cur
  let cur := skipUntil mem length [0x2D, 0x2D, 0x3E] 2 next (length + 2 - cur.index) cur
  skip mem 3 cur

def text (start stop : Nat) : Text := copied (fresh start) (slice mem start (stop - start))

def quoted (cur : Cursor) : XmlToken × Cursor :=
  let start := next (mem cur.index) cur
  let stop := skipWhile mem length (fun c => c != 0x22) (length - start.index) start
  if stop.index = length then (⟨.EndOfFile, [], cur.line, cur.chr⟩, stop)
  else (⟨.String, text fresh mem start.index stop.index, cur.line, cur.chr⟩, next (mem stop.index) stop)

def word (cur : Cursor) : XmlToken × Cursor :=
  let stop := skipWhile mem length IsValidString (length - cur.index) cur
  (⟨.String, text fresh mem cur.index stop.index, cur.line, cur.chr⟩, stop)

/-- The `switch` behind its first case. -/
def token (cur : Cursor) : XmlToken × Cursor :=
  let c := mem cur.index
  if c = 0x3E then single .Close c cur
  else if c = 0x3D then single .Equals c cur
  else if c = 0x2F then single .Slash c cur
  else if c = 0x22 then quoted fresh mem length cur
  else word fresh mem length cur

def XmlTok : Nat → Cursor → Option (XmlToken × Cursor)
  | 0, _ => none
  | fuel + 1, cur =>
    let cur := skipWhile mem length IsWhitespace (length - cur.index) cur
    let c := mem cur.index
    if cur.index = length then some (⟨.EndOfFile, [], cur.line, cur.chr⟩, cur)
    else if c = 0x3C then
      if opens mem length 1 cur.index [0x3F] then XmlTok fuel (skipInstruction mem length cur)
      else if opens mem length 3 cur.index [0x21, 0x2D, 0x2D] then XmlTok fuel (skipComment mem length cur)
      else some (single .Open c cur)
    else some (token fresh mem length cur)

/-- The calls of a run. -/
def source (cur : Cursor) : XmlToken × Cursor :=
  (XmlTok fresh mem length (length + 4) cur).getD (⟨.EndOfFile, [], cur.line, cur.chr⟩, cur)

end Tokeniser

variable {fresh : Nat → Nat → UInt8} {mem : Nat → UInt8} {length : Nat} {cur cur' : Cursor} {c : UInt8} {n : Nat}

/-! ## The index never goes back -/

theorem skipWhile_index_le {p : UInt8 → Bool} : cur.index ≤ (skipWhile mem length p n cur).index := by
  induction n generalizing cur with
  | zero => exact Nat.le_refl _
  | succ n ih =>
    unfold skipWhile
    split
    · have hle : (next (mem cur.index) cur).index ≤ _ := ih
      rw [next_index] at hle
      omega
    · exact Nat.le_refl _

theorem skipUntil_index_le {close : Bytes} {slack : Nat} {move : UInt8 → Cursor → Cursor}
    (hm : ∀ c cur, (move c cur).index = cur.index + 1) : cur.index ≤ (skipUntil mem length close slack move n cur).index := by
  induction n generalizing cur with
  | zero => exact Nat.le_refl _
  | succ n ih =>
    unfold skipUntil
    split
    · have hle : (move (mem cur.index) cur).index ≤ _ := ih
      rw [hm] at hle
      omega
    · exact Nat.le_refl _

@[simp] theorem skip_index : (skip mem n cur).index = cur.index + n := by
  induction n generalizing cur with
  | zero => rfl
  | succ n ih =>
    rw [skip, ih, next_index]
    omega

theorem skipInstruction_index (mem : Nat → UInt8) (length : Nat) (cur : Cursor) :
    cur.index + 2 ≤ (skipInstruction mem length cur).index :=
  Nat.add_le_add_right (skipUntil_index_le advance_index) 2

theorem skipComment_index (mem : Nat → UInt8) (length : Nat) (cur : Cursor) :
    cur.index + 7 ≤ (skipComment mem length cur).index := by
  have hloop : ∀ n, (skip mem 4 cur).index ≤ (skipUntil mem length [0x2D, 0x2D, 0x3E] 2 next n (skip mem 4 cur)).index :=
    fun n => skipUntil_index_le next_index
  have hloop := hloop (length + 2 - (skip mem 4 cur).index)
  unfold skipComment
  simp only [skip_index] at hloop ⊢
  omega

theorem quoted_index : cur.index < (quoted fresh mem length cur).2.index := by
  have hloop : (next (mem cur.index) cur).index ≤ (skipWhile mem length (fun c => c != 0x22)
      (length - (next (mem cur.index) cur).index) (next (mem cur.index) cur)).index := skipWhile_index_le
  unfold quoted
  simp only [next_index] at hloop ⊢
  split
  · exact hloop
  · simp only [next_index]
    omega

theorem word_index_le : cur.index ≤ (word fresh mem length cur).2.index := skipWhile_index_le

theorem token_index_le : cur.index ≤ (token fresh mem length cur).2.index := by
  have hsingle : ∀ type c, cur.index ≤ (single type c cur).2.index := fun type c => by
    simp only [single, next_index]
    omega
  unfold token
  simp only
  split_ifs
  · exact hsingle _ _
  · exact hsingle _ _
  · exact hsingle _ _
  · exact Nat.le_of_lt quoted_index
  · exact word_index_le

/-- Whitespace in front changes nothing. -/
theorem XmlTok_space (hl : cur.index < length) (hs : IsWhitespace (mem cur.index) = true) (n : Nat) :
    XmlTok fresh mem length n cur = XmlTok fresh mem length n (next (mem cur.index) cur) := by
  have hskip : skipWhile mem length IsWhitespace (length - cur.index) cur =
      skipWhile mem length IsWhitespace (length - (next (mem cur.index) cur).index) (next (mem cur.index) cur) := by
    obtain ⟨m, hm⟩ : ∃ m, length - cur.index = m + 1 := ⟨length - cur.index - 1, by omega⟩
    rw [next_index, show length - (cur.index + 1) = m by omega, hm, skipWhile, if_pos ⟨hl, hs⟩]
  cases n with
  | zero => rfl
  | succ n => rw [XmlTok, hskip, XmlTok]

/-- The first byte that is not skipped as whitespace decides. -/
theorem XmlTok_at (hs : cur.index < length → IsWhitespace (mem cur.index) = false) (n : Nat) :
    XmlTok fresh mem length (n + 1) cur =
      if cur.index = length then some (⟨.EndOfFile, [], cur.line, cur.chr⟩, cur)
      else if mem cur.index = 0x3C then
        if opens mem length 1 cur.index [0x3F] then XmlTok fresh mem length n (skipInstruction mem length cur)
        else if opens mem length 3 cur.index [0x21, 0x2D, 0x2D] then XmlTok fresh mem length n (skipComment mem length cur)
        else some (single .Open (mem cur.index) cur)
      else some (token fresh mem length cur) := by
  have hskip : skipWhile mem length IsWhitespace (length - cur.index) cur = cur := by
    cases hn : length - cur.index with
    | zero => rfl
    | succ m => rw [skipWhile, if_neg fun h => by rw [hs h.1] at h; exact absurd h.2 (by simp)]
  rw [XmlTok, hskip]

/-- Either whitespace is skipped, or the first byte decides. -/
theorem space_or_not (mem : Nat → UInt8) (length : Nat) (cur : Cursor) :
    (cur.index < length ∧ IsWhitespace (mem cur.index) = true) ∨
      (cur.index < length → IsWhitespace (mem cur.index) = false) := by
  by_cases hl : cur.index < length
  · cases IsWhitespace (mem cur.index)
    · exact Or.inr fun _ => rfl
    · exact Or.inl ⟨hl, rfl⟩
  · exact Or.inr fun h => absurd h hl

/-- Induction along a call: over the whitespace, and a turn for each gap. -/
theorem call_induction (mem : Nat → UInt8) (length : Nat) {P : Nat → Cursor → Prop} (zero : ∀ cur, P 0 cur)
    (space : ∀ n cur, cur.index < length → IsWhitespace (mem cur.index) = true →
      P (n + 1) (next (mem cur.index) cur) → P (n + 1) cur)
    (turn : ∀ n cur, (cur.index < length → IsWhitespace (mem cur.index) = false) → (∀ cur, P n cur) → P (n + 1) cur) :
    ∀ n cur, P n cur := by
  intro n
  induction n with
  | zero => exact zero
  | succ n ih =>
    intro cur
    obtain ⟨m, hm⟩ : ∃ m, length - cur.index = m := ⟨_, rfl⟩
    induction m generalizing cur with
    | zero => exact turn n cur (fun h => absurd hm (by omega)) ih
    | succ m ihm =>
      rcases space_or_not mem length cur with ⟨hl, hs⟩ | hs
      · exact space n cur hl hs (ihm _ (by rw [next_index]; omega))
      · exact turn n cur hs ih

theorem XmlTok_index_le : ∀ (n : Nat) (cur : Cursor) {r : XmlToken × Cursor},
    XmlTok fresh mem length n cur = some r → cur.index ≤ r.2.index := by
  refine call_induction mem length (fun cur r h => by cases h) (fun n cur hl hs ih r h => ?_) (fun n cur hs ih r h => ?_)
  · rw [XmlTok_space hl hs] at h
    have := ih h
    rw [next_index] at this
    omega
  · rw [XmlTok_at hs] at h
    split_ifs at h
    · obtain rfl := Option.some.inj h
      exact Nat.le_refl _
    · have h1 := ih _ h
      have h2 := skipInstruction_index mem length cur
      omega
    · have h1 := ih _ h
      have h2 := skipComment_index mem length cur
      omega
    · obtain rfl := Option.some.inj h
      simp [single]
    · obtain rfl := Option.some.inj h
      exact token_index_le

/-- A call returns: every turn moves on, and none skips anything from `length + 3` on. -/
theorem XmlTok_returns (fresh : Nat → Nat → UInt8) (mem : Nat → UInt8) (length : Nat) :
    ∀ (n : Nat) (cur : Cursor), 0 < n → length + 4 ≤ cur.index + n →
    ∃ r, XmlTok fresh mem length n cur = some r := by
  refine call_induction mem length (fun cur h => absurd h (Nat.lt_irrefl 0)) (fun n cur hl hs ih hn hle => ?_)
    (fun n cur hs ih _ hle => ?_)
  · rw [XmlTok_space hl hs]
    exact ih hn (by rw [next_index]; omega)
  · rw [XmlTok_at hs]
    split_ifs with hend hopen hinstr hcomment
    · exact ⟨_, rfl⟩
    · have hlt : cur.index < length + 1 := by simpa using (Bool.and_eq_true_iff.mp hinstr).1
      have := skipInstruction_index mem length cur
      exact ih _ (by omega) (by omega)
    · have hlt : cur.index < length + 3 := by simpa using (Bool.and_eq_true_iff.mp hcomment).1
      have := skipComment_index mem length cur
      exact ih _ (by omega) (by omega)
    · exact ⟨_, rfl⟩
    · exact ⟨_, rfl⟩

theorem source_eq (cur : Cursor) : XmlTok fresh mem length (length + 4) cur = some (source fresh mem length cur) := by
  obtain ⟨r, hr⟩ := XmlTok_returns fresh mem length (length + 4) cur (by omega) (by omega)
  unfold source
  rw [hr]
  rfl

/-! ## The checked tokeniser -/

/-- `file` is in memory. -/
def Holds (mem : Nat → UInt8) (file : Bytes) : Prop := ∀ k < file.length, file[k]? = some (mem k)

section Agrees

variable {file : Bytes} {r : XmlToken × Cursor} {b : Bool}

theorem read_agrees (hmem : Holds mem file) {i : Nat} (h : Lib.read file i = .ok c) :
    i < file.length ∧ mem i = c := by
  have hi : i < file.length := by
    by_contra hge
    unfold Lib.read at h
    rw [List.getElem?_eq_none (Nat.le_of_not_lt hge)] at h
    cases h
  rw [read_of_some (hmem i hi)] at h
  exact ⟨hi, Except.ok.inj h⟩

theorem skipWhile_agrees (hmem : Holds mem file) {p : UInt8 → Bool}
    (h : XmlTokens.skipWhile file p n cur = .ok cur') : skipWhile mem file.length p n cur = cur' := by
  induction n generalizing cur with
  | zero => exact Except.ok.inj h
  | succ n ih =>
    unfold XmlTokens.skipWhile at h
    unfold skipWhile
    by_cases hl : cur.index < file.length
    · rw [if_pos hl] at h
      obtain ⟨c, hc, h⟩ := bind_eq_ok.mp h
      obtain ⟨-, rfl⟩ := read_agrees hmem hc
      by_cases hp : p (mem cur.index) = true
      · rw [if_pos hp] at h
        rw [if_pos ⟨hl, hp⟩]
        exact ih h
      · rw [if_neg hp] at h
        rw [if_neg fun h => hp h.2]
        exact Except.ok.inj h
    · rw [if_neg hl] at h
      rw [if_neg fun h => hl h.1]
      exact Except.ok.inj h

theorem matchesAt_agrees (hmem : Holds mem file) {bs : Bytes} : ∀ {i : Nat},
    XmlTokens.matchesAt file i bs = .ok b → matchesAt mem i bs = b := by
  induction bs with
  | nil => exact fun h => Except.ok.inj h
  | cons d bs ih =>
    intro i h
    obtain ⟨c, hc, h⟩ := bind_eq_ok.mp h
    obtain ⟨-, rfl⟩ := read_agrees hmem hc
    unfold matchesAt
    by_cases hd : mem i = d
    · rw [if_pos hd] at h
      rw [ih h, beq_iff_eq.mpr hd, Bool.true_and]
    · rw [if_neg hd] at h
      rw [beq_eq_false_iff_ne.mpr hd, Bool.false_and]
      exact Except.ok.inj h

theorem opens_agrees (hmem : Holds mem file) {slack i : Nat} {bs : Bytes}
    (h : XmlTokens.opens file slack i bs = .ok b) : opens mem file.length slack i bs = b := by
  unfold XmlTokens.opens at h
  unfold opens
  by_cases hi : i < file.length + slack
  · rw [if_pos hi] at h
    rw [decide_eq_true hi, Bool.true_and]
    exact matchesAt_agrees hmem h
  · rw [if_neg hi] at h
    rw [decide_eq_false hi, Bool.false_and]
    exact Except.ok.inj h

theorem skipUntil_agrees (hmem : Holds mem file) {close : Bytes} {slack : Nat}
    {move : UInt8 → Cursor → Cursor} (h : XmlTokens.skipUntil file close slack move n cur = .ok cur') :
    skipUntil mem file.length close slack move n cur = cur' := by
  induction n generalizing cur with
  | zero => exact Except.ok.inj h
  | succ n ih =>
    unfold XmlTokens.skipUntil at h
    unfold skipUntil
    by_cases hi : cur.index < file.length + slack
    · rw [if_pos hi] at h
      obtain ⟨found, hf, h⟩ := bind_eq_ok.mp h
      rw [matchesAt_agrees hmem hf]
      cases found with
      | true =>
        rw [if_neg (by simp)]
        exact Except.ok.inj h
      | false =>
        rw [if_neg (by decide)] at h
        obtain ⟨c, hc, h⟩ := bind_eq_ok.mp h
        obtain ⟨-, rfl⟩ := read_agrees hmem hc
        rw [if_pos ⟨hi, rfl⟩]
        exact ih h
    · rw [if_neg hi] at h
      rw [if_neg fun h => hi h.1]
      exact Except.ok.inj h

theorem skip_agrees (hmem : Holds mem file) (h : XmlTokens.skip file n cur = .ok cur') :
    skip mem n cur = cur' := by
  induction n generalizing cur with
  | zero => exact Except.ok.inj h
  | succ n ih =>
    obtain ⟨c, hc, h⟩ := bind_eq_ok.mp h
    obtain ⟨-, rfl⟩ := read_agrees hmem hc
    exact ih h

theorem skipInstruction_agrees (hmem : Holds mem file)
    (h : XmlTokens.skipInstruction file cur = .ok cur') : skipInstruction mem file.length cur = cur' := by
  obtain ⟨stop, hstop, h⟩ := bind_eq_ok.mp h
  unfold skipInstruction
  rw [skipUntil_agrees hmem hstop]
  exact Except.ok.inj h

theorem skipComment_agrees (hmem : Holds mem file)
    (h : XmlTokens.skipComment file cur = .ok cur') : skipComment mem file.length cur = cur' := by
  obtain ⟨start, hstart, h⟩ := bind_eq_ok.mp h
  obtain ⟨stop, hstop, h⟩ := bind_eq_ok.mp h
  unfold skipComment
  simp only [skip_agrees hmem hstart, skipUntil_agrees hmem hstop, skip_agrees hmem h]

theorem text_agrees (hmem : Holds mem file) {start stop : Nat} (hs : stop ≤ file.length) :
    text fresh mem start stop = XmlTokens.text fresh file start stop := by
  unfold text XmlTokens.text
  congr 1
  refine List.ext_getElem (by simp; omega) fun i h1 h2 => ?_
  have hi : start + i < file.length := by
    rw [length_slice] at h1
    omega
  have := hmem _ hi
  rw [List.getElem?_eq_getElem hi, Option.some.injEq] at this
  simp [slice, this]

theorem quoted_agrees (hmem : Holds mem file) (h : XmlTokens.quoted fresh file cur = .ok r) :
    quoted fresh mem file.length cur = r := by
  obtain ⟨c, hc, h⟩ := bind_eq_ok.mp h
  obtain ⟨-, rfl⟩ := read_agrees hmem hc
  obtain ⟨stop, hstop, h⟩ := bind_eq_ok.mp h
  have hstop := skipWhile_agrees hmem hstop
  unfold quoted
  simp only [hstop]
  by_cases hend : stop.index = file.length
  · rw [if_pos hend] at h ⊢
    exact Except.ok.inj h
  · rw [if_neg hend] at h ⊢
    obtain ⟨d, hd, h⟩ := bind_eq_ok.mp h
    obtain ⟨hlt, rfl⟩ := read_agrees hmem hd
    rw [text_agrees hmem (Nat.le_of_lt hlt)]
    exact Except.ok.inj h

/-- The end of a loop that did not begin behind the buffer is not behind it. -/
theorem skipWhile_le {p : UInt8 → Bool} (h : cur.index ≤ length) : (skipWhile mem length p n cur).index ≤ length := by
  induction n generalizing cur with
  | zero => exact h
  | succ n ih =>
    unfold skipWhile
    split_ifs with hgo
    · exact ih (by rw [next_index]; exact hgo.1)
    · exact h

theorem word_agrees (hmem : Holds mem file) (hl : cur.index ≤ file.length)
    (h : XmlTokens.word fresh file cur = .ok r) : word fresh mem file.length cur = r := by
  obtain ⟨stop, hstop, h⟩ := bind_eq_ok.mp h
  have hstop := skipWhile_agrees hmem hstop
  have hle : stop.index ≤ file.length := hstop ▸ skipWhile_le hl
  unfold word
  simp only [hstop, text_agrees hmem hle]
  exact Except.ok.inj h

/-- Where the checked tokeniser returns, the reads behind the buffer do not matter. -/
theorem XmlTok_agrees (hmem : Holds mem file) : ∀ {cur : Cursor},
    XmlTokens.XmlTok fresh file n cur = .ok r → XmlTok fresh mem file.length n cur = some r := by
  induction n with
  | zero => exact fun h => nomatch h
  | succ n ih =>
    intro cur h
    obtain ⟨start, hstart, h⟩ := bind_eq_ok.mp h
    unfold XmlTok
    simp only [skipWhile_agrees hmem hstart]
    by_cases hend : start.index = file.length
    · rw [if_pos hend] at h ⊢
      exact congrArg some (Except.ok.inj h)
    · rw [if_neg hend] at h ⊢
      obtain ⟨c, hc, h⟩ := bind_eq_ok.mp h
      obtain ⟨hlt, rfl⟩ := read_agrees hmem hc
      by_cases hopen : mem start.index = 0x3C
      · rw [if_pos hopen] at h ⊢
        obtain ⟨instr, hinstr, h⟩ := bind_eq_ok.mp h
        rw [opens_agrees hmem hinstr]
        cases instr with
        | true =>
          rw [if_pos rfl] at h ⊢
          obtain ⟨cur1, hskip, h⟩ := bind_eq_ok.mp h
          rw [skipInstruction_agrees hmem hskip]
          exact ih h
        | false =>
          rw [if_neg (by decide)] at h ⊢
          obtain ⟨com, hcom, h⟩ := bind_eq_ok.mp h
          rw [opens_agrees hmem hcom]
          cases com with
          | true =>
            rw [if_pos rfl] at h ⊢
            obtain ⟨cur1, hskip, h⟩ := bind_eq_ok.mp h
            rw [skipComment_agrees hmem hskip]
            exact ih h
          | false =>
            rw [if_neg (by decide)] at h ⊢
            exact congrArg some (Except.ok.inj h)
      · rw [if_neg hopen] at h ⊢
        refine congrArg some ?_
        unfold token
        simp only
        split_ifs at h ⊢
        · exact Except.ok.inj h
        · exact Except.ok.inj h
        · exact Except.ok.inj h
        · exact quoted_agrees hmem h
        · exact word_agrees hmem (Nat.le_of_lt hlt) h

/-- More turns change nothing. -/
theorem XmlTok_mono : ∀ {n : Nat} {cur : Cursor}, XmlTok fresh mem length n cur = some r →
    XmlTok fresh mem length (n + 1) cur = some r := by
  intro n
  induction n with
  | zero => exact fun h => nomatch h
  | succ n ih =>
    intro cur h
    unfold XmlTok at h ⊢
    simp only at h ⊢
    split_ifs at h ⊢
    · exact h
    · exact ih h
    · exact ih h
    · exact h
    · exact h

/-- A call that stays inside the buffer gives the same. -/
theorem source_agrees (hmem : Holds mem file) (h : XmlTokens.InBounds fresh file cur) :
    XmlTokens.source fresh file cur = source fresh mem file.length cur := by
  obtain ⟨r, hr, -⟩ := h
  have hsome := XmlTok_mono (XmlTok_mono (XmlTok_mono (XmlTok_agrees hmem hr)))
  have hsame := (source_eq cur).symm.trans hsome
  unfold XmlTokens.source
  rw [hr]
  exact (Option.some.inj hsame).symm

/-- A document in which nothing is cut off is read alike, whatever lies behind the buffer. -/
theorem reads_alike {fuel : Nat} {line chr : Int} (hmem : Holds mem file)
    (h : ∀ cur ∈ calls (XmlTokens.source fresh file) fuel ⟨0, line, chr⟩, XmlTokens.Decided (file.drop cur.index)) :
    XmlRead (source fresh mem file.length) fuel ⟨⟨0, line, chr⟩, 0, []⟩ =
      XmlRead (XmlTokens.source fresh file) fuel ⟨⟨0, line, chr⟩, 0, []⟩ :=
  (XmlRead_congr fun cur hcur => source_agrees hmem (XmlTokens.inBounds_of_decided h cur hcur)).symm

/-- `<a></a>`. -/
def elementFile : Bytes := [0x3C, 0x61, 0x3E, 0x3C, 0x2F, 0x61, 0x3E]

/-- With a `<` at every index behind it. -/
theorem reads_alike_element :
    XmlRead (source (fun _ _ => 0) (fun k => elementFile.getD k 0x3C) elementFile.length) 4 ⟨⟨0, 1, 1⟩, 0, []⟩ =
      XmlRead (XmlTokens.source (fun _ _ => 0) elementFile) 4 ⟨⟨0, 1, 1⟩, 0, []⟩ := by
  have hcalls : ∀ cur ∈ calls (XmlTokens.source (fun _ _ => 0) elementFile) 4 ⟨0, 1, 1⟩, cur.index ≤ 7 ∧
      (XmlTokens.XmlTok (fun _ _ => 0) elementFile 8 cur).toOption.any (fun r => decide (r.2.index ≤ 7)) = true := by
    decide
  refine reads_alike (fun k hk => ?_) fun cur hcur => ?_
  · rw [List.getD_eq_getElem?_getD, List.getElem?_eq_getElem hk]
    rfl
  · obtain ⟨hle, hin⟩ := hcalls cur hcur
    refine (XmlTokens.XmlTok_inBounds_iff (fun _ _ => 0) hle).mp ?_
    cases hr : XmlTokens.XmlTok (fun _ _ => 0) elementFile 8 cur with
    | ok r =>
      rw [hr] at hin
      exact ⟨r, hr, of_decide_eq_true hin⟩
    | error e =>
      rw [hr] at hin
      cases hin

end Agrees

end Rodvin.Kernel.XmlMemory
