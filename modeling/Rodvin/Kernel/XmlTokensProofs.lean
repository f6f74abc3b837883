/-
  Rodvin.Kernel.XmlTokensProofs — reading back what a document renders to.

  A cursor is `At` what is still to be read. One lemma a loop says where it ends, one
  lemma a kind of gap that it is skipped, one lemma a kind of token that it is read
  (`reads_tok`). By induction over the tiles the calls give the tokens of the document,
  with texts that went through a copy (`reads_tiles`), and nothing is read at or beyond
  `length`. A copy keeps a text exactly when no zero stands before its last byte, which a
  bare word may contain: hence the condition of `reads_back_iff`.
-/

import Rodvin.Lib.Bytes
import Rodvin.Kernel.XmlTokens

namespace Rodvin.Kernel.XmlTokens

open Rodvin.Lib Rodvin.Libc
open Rodvin.Kernel.Xml (XmlToken TokenType Text)

/-! ## Copies -/

theorem copied_of_no_zero {fresh : Nat → UInt8} {bs : Text} (h : 0 ∉ bs.dropLast) : copied fresh bs = bs := by
  refine List.ext_getElem (by simp [copied]) fun i h1 h2 => ?_
  have hi : 0 ∉ bs.take i := by
    intro h0
    refine h ?_
    rw [List.dropLast_eq_take]
    exact List.take_subset_take_left bs (by omega) h0
  simp [copied, hi, h2]

/-- Fresh memory that differs everywhere from what was to be copied. -/
def spoiled (bs : Text) (i : Nat) : UInt8 := bs.getD i 0 + 1

theorem no_zero_of_copied {bs : Text} (h : copied (spoiled bs) bs = bs) : 0 ∉ bs.dropLast := by
  intro h0
  have hl : bs.length - 1 < bs.length := by
    have := List.length_pos_of_mem h0
    rw [List.length_dropLast] at this
    omega
  have he : (copied (spoiled bs) bs)[bs.length - 1]? = bs[bs.length - 1]? := by rw [h]
  rw [List.dropLast_eq_take] at h0
  simp [copied, spoiled, h0, hl] at he

/-! ## Positions -/

/-- `rest` is still to be read. -/
def At (file : Bytes) (cur : Cursor) (rest : Bytes) : Prop :=
  file.drop cur.index = rest ∧ cur.index + rest.length = file.length

@[simp] theorem next_index (c : UInt8) (cur : Cursor) : (next c cur).index = cur.index + 1 := by
  unfold next
  split <;> rfl

@[simp] theorem advance_index (c : UInt8) (cur : Cursor) : (advance c cur).index = cur.index + 1 := rfl

variable {file rest : Bytes} {cur : Cursor} {c : UInt8}

theorem At.lt (h : At file cur (c :: rest)) : cur.index < file.length := by
  have := h.2
  simp only [List.length_cons] at this
  omega

theorem At.getElem? (h : At file cur rest) (i : Nat) : file[cur.index + i]? = rest[i]? := by
  rw [← h.1, List.getElem?_drop]

theorem At.read (h : At file cur (c :: rest)) : read file cur.index = .ok c :=
  read_of_some (by simpa using h.getElem? 0)

theorem At.drop {b : Bytes} {cur' : Cursor} (h : At file cur (b ++ rest)) (hi : cur'.index = cur.index + b.length) :
    At file cur' rest := by
  refine ⟨?_, ?_⟩
  · rw [hi, ← List.drop_drop, h.1, List.drop_left]
  · have := h.2
    rw [List.length_append] at this
    omega

theorem At.tail {cur' : Cursor} (h : At file cur (c :: rest)) (hi : cur'.index = cur.index + 1) : At file cur' rest :=
  At.drop (b := [c]) h hi

/-! ## The loops -/

theorem skipWhile_cons {p : UInt8 → Bool} (h : At file cur (c :: rest)) (hp : p c = true) :
    skipWhile file p (file.length - cur.index) cur =
      skipWhile file p (file.length - (next c cur).index) (next c cur) := by
  obtain ⟨n, hn⟩ : ∃ n, file.length - cur.index = n + 1 := ⟨file.length - cur.index - 1, by have := h.lt; omega⟩
  rw [show file.length - (next c cur).index = n from by rw [next_index]; omega, hn, skipWhile, if_pos h.lt,
    ok_bind h.read,
    if_pos hp]

theorem skipWhile_stop {p : UInt8 → Bool} (h : At file cur rest) (hp : ∀ c, rest.head? = some c → p c = false) :
    skipWhile file p (file.length - cur.index) cur = .ok cur := by
  cases rest with
  | nil =>
    have := h.2
    rw [show file.length - cur.index = 0 from by simp at this; omega]
    rfl
  | cons c rest =>
    obtain ⟨n, hn⟩ : ∃ n, file.length - cur.index = n + 1 := ⟨file.length - cur.index - 1, by have := h.lt; omega⟩
    rw [hn, skipWhile, if_pos h.lt, ok_bind h.read, if_neg (by simp [hp c rfl])]
    rfl

theorem skipWhile_spec {p : UInt8 → Bool} {bs : Bytes} : ∀ {cur : Cursor}, At file cur (bs ++ rest) →
    (∀ c ∈ bs, p c = true) → (∀ c, rest.head? = some c → p c = false) →
    ∃ cur', skipWhile file p (file.length - cur.index) cur = .ok cur' ∧ cur'.index = cur.index + bs.length := by
  induction bs with
  | nil =>
    intro cur h _ hs
    exact ⟨cur, skipWhile_stop h hs, rfl⟩
  | cons c bs ih =>
    intro cur h hp hs
    obtain ⟨cur', h1, h2⟩ := ih (h.tail (next_index c cur)) (fun d hd => hp d (List.mem_cons_of_mem _ hd)) hs
    refine ⟨cur', ?_, ?_⟩
    · rw [skipWhile_cons h (hp c List.mem_cons_self), h1]
    · rw [h2, next_index, List.length_cons]
      omega

/-- The closing bytes are compared until one differs. -/
theorem matchesAt_eq {bs : Bytes} : ∀ {i : Nat} {rest : Bytes}, file.drop i = rest →
    bs.length ≤ rest.length → matchesAt file i bs = .ok (decide (bs <+: rest)) := by
  induction bs with
  | nil =>
    intro i rest _ _
    simp [matchesAt, pure, Except.pure]
  | cons b bs ih =>
    intro i rest h hl
    cases rest with
    | nil => simp at hl
    | cons c rest =>
      have hr : read file i = .ok c := read_of_some (by
        have := congrArg (·[0]?) h
        simpa [List.getElem?_drop] using this)
      have ht : file.drop (i + 1) = rest := by rw [← List.drop_drop, h]; rfl
      rw [matchesAt, ok_bind hr]
      by_cases hc : c = b
      · rw [if_pos hc, ih ht (by simpa using hl)]
        simp [hc]
      · rw [if_neg hc]
        simp [Ne.symm hc, pure, Except.pure]

theorem matchesAt_ne {b : UInt8} {bs : Bytes} {i : Nat} (h : file[i]? = some c) (hc : c ≠ b) :
    matchesAt file i (b :: bs) = .ok false := by
  rw [matchesAt, ok_bind (read_of_some h), if_neg hc]
  rfl

theorem skipUntil_spec (slack : Nat) {close : Bytes} {move : UInt8 → Cursor → Cursor}
    (hm : ∀ c cur, (move c cur).index = cur.index + 1) (hc : close ≠ []) {body : Bytes} :
    ∀ {cur : Cursor}, At file cur (body ++ (close ++ rest)) →
      (∀ j < body.length, ¬ close <+: (body ++ (close ++ rest)).drop j) →
      ∃ cur', skipUntil file close slack move (file.length + slack - cur.index) cur = .ok cur' ∧
        cur'.index = cur.index + body.length := by
  induction body with
  | nil =>
    intro cur h _
    have hl := h.2
    have hp := List.length_pos_iff.mpr hc
    rw [List.nil_append, List.length_append] at hl
    obtain ⟨n, hn⟩ : ∃ n, file.length + slack - cur.index = n + 1 := ⟨file.length + slack - cur.index - 1, by omega⟩
    have hma : matchesAt file cur.index close = .ok true := by
      rw [matchesAt_eq h.1 (by simp)]
      simp
    refine ⟨cur, ?_, rfl⟩
    rw [hn, skipUntil, if_pos (by omega), ok_bind hma]
    rfl
  | cons c body ih =>
    intro cur h hno
    have hl := h.lt
    obtain ⟨n, hn⟩ : ∃ n, file.length + slack - cur.index = n + 1 := ⟨file.length + slack - cur.index - 1, by omega⟩
    have hma : matchesAt file cur.index close = .ok false := by
      rw [matchesAt_eq h.1 (by simp; omega)]
      have := hno 0 (by simp)
      simpa using this
    have hat : At file (move c cur) (body ++ (close ++ rest)) := h.tail (hm c cur)
    obtain ⟨cur', h1, h2⟩ := ih hat (fun j hj => by
      have := hno (j + 1) (by simpa using hj)
      simpa using this)
    refine ⟨cur', ?_, ?_⟩
    · rw [hm, show file.length + slack - (cur.index + 1) = n from by omega] at h1
      rw [hn, skipUntil, if_pos (by omega), ok_bind hma]
      simp only [Bool.false_eq_true, if_false]
      rw [ok_bind (At.read h), h1]
    · rw [h2, hm, List.length_cons]
      omega

theorem skip_spec {bs : Bytes} : ∀ {cur : Cursor}, At file cur (bs ++ rest) →
    ∃ cur', skip file bs.length cur = .ok cur' ∧ cur'.index = cur.index + bs.length := by
  induction bs with
  | nil =>
    intro cur _
    exact ⟨cur, rfl, rfl⟩
  | cons c bs ih =>
    intro cur h
    obtain ⟨cur', h1, h2⟩ := ih (h.tail (next_index c cur))
    refine ⟨cur', ?_, ?_⟩
    · rw [List.length_cons, skip, ok_bind (At.read h), h1]
    · rw [h2, next_index, List.length_cons]
      omega

/-! ## What is skipped -/

/-- Whitespace in front changes nothing. -/
theorem XmlTok_space {fresh : Nat → Nat → UInt8} (h : At file cur (c :: rest)) (hc : IsWhitespace c = true) (n : Nat) :
    XmlTok fresh file n cur = XmlTok fresh file n (next c cur) := by
  cases n with
  | zero => rfl
  | succ n => rw [XmlTok, skipWhile_cons h hc, XmlTok]

/-- The first byte that is not whitespace decides. -/
theorem XmlTok_at {fresh : Nat → Nat → UInt8} (h : At file cur (c :: rest)) (hc : IsWhitespace c = false) (n : Nat) :
    XmlTok fresh file (n + 1) cur =
      (if c = 0x3C then do
        if ← opens file 1 cur.index [0x3F] then do
          let cur ← skipInstruction file cur
          XmlTok fresh file n cur
        else do
          if ← opens file 3 cur.index [0x21, 0x2D, 0x2D] then do
            let cur ← skipComment file cur
            XmlTok fresh file n cur
          else pure (single .Open c cur)
      else if c = 0x3E then pure (single .Close c cur)
      else if c = 0x3D then pure (single .Equals c cur)
      else if c = 0x2F then pure (single .Slash c cur)
      else if c = 0x22 then quoted fresh file cur
      else word fresh file cur) := by
  have hs : skipWhile file IsWhitespace (file.length - cur.index) cur = .ok cur :=
    skipWhile_stop h (by rintro d ⟨⟩; exact hc)
  have hl := h.lt
  rw [XmlTok, ok_bind hs, if_neg (by omega), ok_bind h.read]

theorem opens_of_prefix {bs : Bytes} {slack : Nat} (h : At file cur (c :: (bs ++ rest))) :
    opens file slack cur.index bs = .ok true := by
  have hl := h.lt
  have hd : file.drop (cur.index + 1) = bs ++ rest := by rw [← List.drop_drop, h.1]; rfl
  rw [opens, if_pos (by omega), matchesAt_eq hd (by simp)]
  simp

theorem opens_of_ne {b d : UInt8} {bs : Bytes} {slack : Nat} (h : At file cur (c :: d :: rest)) (hd : d ≠ b) :
    opens file slack cur.index (b :: bs) = .ok false := by
  have hl := h.lt
  rw [opens, if_pos (by omega), matchesAt_ne (by simpa using h.getElem? 1) hd]

/-- `close` stands behind `body` and nowhere before. -/
def EndsFirst (close body : Bytes) : Prop := ∀ j < body.length, ¬ close <+: (body ++ close).drop j

/-- What follows does not matter. -/
theorem EndsFirst.append {close body : Bytes} (h : EndsFirst close body) {j : Nat} (hj : j < body.length) :
    ¬ close <+: (body ++ (close ++ rest)).drop j := by
  intro hp
  refine h j hj ?_
  rw [← List.append_assoc, List.drop_append_of_le_length (by simp; omega)] at hp
  exact List.prefix_of_prefix_length_le hp (List.prefix_append _ _) (by simp; omega)

/-- The end of a comment is not found inside it. -/
theorem comment_ends_once {body : Bytes} (h : ¬ [0x2D, 0x2D] <:+: body) : EndsFirst [0x2D, 0x2D, 0x3E] body := by
  intro j hj hp
  rw [List.drop_append_of_le_length (by omega)] at hp
  rcases hd : body.drop j with _ | ⟨a, _ | ⟨b, bs⟩⟩
  · have := congrArg List.length hd
    simp at this
    omega
  · rw [hd] at hp
    simp at hp
  · rw [hd, List.cons_append, List.cons_append, List.cons_prefix_cons, List.cons_prefix_cons] at hp
    obtain ⟨ha, hb, -⟩ := hp
    have hi : body.drop j <:+: body := (List.drop_suffix j body).isInfix
    rw [hd, ← ha, ← hb] at hi
    exact h (List.IsInfix.trans ⟨[], bs, rfl⟩ hi)

theorem instruction_ends_once {body : Bytes} (h : 0x3F ∉ body) (hh : body.head? ≠ some 0x3E) :
    EndsFirst [0x3F, 0x3E] (0x3C :: 0x3F :: body) := by
  intro j hj hp
  match j with
  | 0 => simp at hp
  | 1 =>
    cases body with
    | nil => simp at hp
    | cons b body => simp at hp hh; exact hh hp.symm
  | j + 2 =>
    have hj : j < body.length := by simpa using hj
    have hd : ((0x3C :: 0x3F :: body) ++ [0x3F, 0x3E]).drop (j + 2) = (body ++ [0x3F, 0x3E]).drop j := rfl
    rw [hd, List.drop_append_of_le_length (by omega), List.drop_eq_getElem_cons hj, List.cons_append,
      List.cons_prefix_cons] at hp
    exact h (hp.1 ▸ List.getElem_mem hj)

theorem skipInstruction_spec {body : Bytes} (hb : EndsFirst [0x3F, 0x3E] body)
    (h : At file cur (body ++ ([0x3F, 0x3E] ++ rest))) : ∃ cur', skipInstruction file cur = .ok cur' ∧
      At file cur' rest := by
  obtain ⟨cur', h1, h2⟩ := skipUntil_spec 1 advance_index (by simp) h fun j hj => hb.append hj
  refine ⟨_, ok_bind h1, At.drop (b := [0x3F, 0x3E]) (h.drop h2) rfl⟩

theorem skipComment_spec {body : Bytes} (hb : EndsFirst [0x2D, 0x2D, 0x3E] body)
    (h : At file cur ([0x3C, 0x21, 0x2D, 0x2D] ++ (body ++ ([0x2D, 0x2D, 0x3E] ++ rest)))) :
    ∃ cur', skipComment file cur = .ok cur' ∧ At file cur' rest := by
  obtain ⟨cur1, h1, hi1⟩ := skip_spec h
  have hat := h.drop hi1
  obtain ⟨cur2, h2, hi2⟩ := skipUntil_spec 2 next_index (by simp) hat fun j hj => hb.append hj
  obtain ⟨cur3, h3, hi3⟩ := skip_spec (hat.drop hi2)
  refine ⟨cur3, ?_, (hat.drop hi2).drop hi3⟩
  have h1 : skip file 4 cur = .ok cur1 := h1
  rw [skipComment, ok_bind h1, ok_bind h2]
  exact h3

/-- One gap: a call goes on behind it, with at most one turn less. -/
theorem gap_skipped (fresh : Nat → Nat → UInt8) {g : Gap} (hg : g.Ok) (h : At file cur (g.bytes ++ rest)) :
    ∃ k cur', k ≤ g.bytes.length ∧ At file cur' rest ∧
      ∀ n, XmlTok fresh file (n + k) cur = XmlTok fresh file n cur' := by
  cases g with
  | space c => exact ⟨0, next c cur, Nat.zero_le _, At.tail h (next_index c cur), XmlTok_space h hg⟩
  | comment body =>
    simp only [Gap.bytes, List.append_assoc] at h
    obtain ⟨cur', h1, h2⟩ := skipComment_spec (comment_ends_once hg) h
    refine ⟨1, cur', by simp [Gap.bytes], h2, fun n => ?_⟩
    have ho : opens file 1 cur.index [0x3F] = .ok false := opens_of_ne h (by decide)
    have hc : opens file 3 cur.index [0x21, 0x2D, 0x2D] = .ok true := opens_of_prefix h
    rw [XmlTok_at h (by decide), if_pos rfl, ok_bind ho, if_neg (by decide), ok_bind hc, if_pos rfl, ok_bind h1]
  | instruction body =>
    simp only [Gap.bytes, List.append_assoc] at h
    obtain ⟨cur', h1, h2⟩ := skipInstruction_spec (instruction_ends_once hg.1 hg.2) h
    refine ⟨1, cur', by simp [Gap.bytes], h2, fun n => ?_⟩
    have ho : opens file 1 cur.index [0x3F] = .ok true := opens_of_prefix h
    rw [XmlTok_at h (by decide), if_pos rfl, ok_bind ho, if_pos rfl, ok_bind h1]

theorem gaps_skipped (fresh : Nat → Nat → UInt8) {gap : List Gap} : ∀ {cur : Cursor}, (∀ g ∈ gap, g.Ok) →
    At file cur (gapBytes gap ++ rest) → ∃ k cur', k ≤ (gapBytes gap).length ∧ At file cur' rest ∧
      ∀ n, XmlTok fresh file (n + k) cur = XmlTok fresh file n cur' := by
  induction gap with
  | nil =>
    intro cur _ h
    exact ⟨0, cur, Nat.zero_le _, h, fun _ => rfl⟩
  | cons g gap ih =>
    intro cur hg h
    simp only [gapBytes, List.flatMap_cons, List.append_assoc] at h
    obtain ⟨k1, cur1, hk1, hat1, h1⟩ := gap_skipped fresh (hg g List.mem_cons_self) h
    obtain ⟨k2, cur2, hk2, hat2, h2⟩ := ih (fun x hx => hg x (List.mem_cons_of_mem _ hx)) hat1
    refine ⟨k2 + k1, cur2, ?_, hat2, fun n => ?_⟩
    · simp only [gapBytes, List.flatMap_cons, List.length_append] at hk2 ⊢
      omega
    · rw [← Nat.add_assoc, h1, h2]

/-! ## Tokens -/

/-- What stands behind a token: a word ends there, and an `Open` stays one. -/
def Tok.EndsAt (rest : Bytes) : Tok → Prop
  | .open_ => ∃ c, rest.head? = some c ∧ c ≠ 0x3F ∧ c ≠ 0x21
  | .word _ => ∀ c, rest.head? = some c → IsValidString c = false
  | _ => True

/-- `x` is what is to be read for `t`, with a text that went through a copy. -/
def Reads (fresh : Nat → Nat → UInt8) (t : Tok) (x : XmlToken) : Prop :=
  ∃ i, (x.type, x.text) = (t.read.1, copied (fresh i) t.read.2)

theorem reads_single {fresh : Nat → Nat → UInt8} {t : Tok} {type : TokenType} (h : t.read = (type, [c])) :
    Reads fresh t (single type c cur).1 := by
  refine ⟨0, ?_⟩
  rw [h, copied_of_no_zero (by simp)]
  rfl

theorem text_eq {fresh : Nat → Nat → UInt8} {bs : Bytes} {start : Cursor} {stop : Nat} (h : At file start (bs ++ rest))
    (hs : stop = start.index + bs.length) : text fresh file start.index stop = copied (fresh start.index) bs := by
  rw [text, h.1, hs, Nat.add_sub_cancel_left, List.take_left]

theorem reads_quoted (fresh : Nat → Nat → UInt8) {bs : Bytes} (hb : 0x22 ∉ bs)
    (h : At file cur ((Tok.quoted bs).bytes ++ rest)) :
    ∃ x cur', quoted fresh file cur = .ok (x, cur') ∧ At file cur' rest ∧ Reads fresh (.quoted bs) x := by
  have h : At file cur (0x22 :: (bs ++ (0x22 :: rest))) := by simpa [Tok.bytes] using h
  have hat := h.tail (next_index 0x22 cur)
  have hne : ∀ c ∈ bs, (c != 0x22) = true := by
    intro c hc
    rw [bne_iff_ne]
    rintro rfl
    exact hb hc
  obtain ⟨stop, h1, h2⟩ := skipWhile_spec (p := fun c => c != 0x22) hat hne (by rintro c ⟨⟩; rfl)
  have hst : At file stop (0x22 :: rest) := hat.drop h2
  have hlt := hst.lt
  refine ⟨⟨.String, text fresh file (next 0x22 cur).index stop.index, cur.line, cur.chr⟩, next 0x22 stop, ?_,
    hst.tail (next_index 0x22 stop), (next 0x22 cur).index, ?_⟩
  · rw [quoted, ok_bind h.read, ok_bind h1, if_neg (by omega), ok_bind hst.read]
    rfl
  · rw [text_eq hat h2]
    rfl

theorem reads_word (fresh : Nat → Nat → UInt8) {bs : Bytes} (hb : ∀ c ∈ bs, IsValidString c = true)
    (hr : ∀ c, rest.head? = some c → IsValidString c = false) (h : At file cur (bs ++ rest)) :
    ∃ x cur', word fresh file cur = .ok (x, cur') ∧ At file cur' rest ∧ Reads fresh (.word bs) x := by
  obtain ⟨stop, h1, h2⟩ := skipWhile_spec h hb hr
  refine ⟨⟨.String, text fresh file cur.index stop.index, cur.line, cur.chr⟩, stop, ?_, h.drop h2, cur.index, ?_⟩
  · rw [word, ok_bind h1]
    rfl
  · rw [text_eq h h2]
    rfl

/-- What a valid character is not. -/
theorem valid_ne (h : IsValidString c = true) :
    IsWhitespace c = false ∧ c ≠ 0x3C ∧ c ≠ 0x3E ∧ c ≠ 0x3D ∧ c ≠ 0x2F ∧ c ≠ 0x22 := by
  simp only [IsValidString, Bool.and_eq_true, Bool.not_eq_true', bne_iff_ne] at h
  tauto

/-- One token. -/
theorem reads_tok (fresh : Nat → Nat → UInt8) {t : Tok} (ht : t.Ok) (he : t.EndsAt rest)
    (h : At file cur (t.bytes ++ rest)) :
    ∃ x cur', (∀ n, XmlTok fresh file (n + 1) cur = .ok (x, cur')) ∧ At file cur' rest ∧ Reads fresh t x := by
  cases t with
  | open_ =>
    obtain ⟨d, hd, h1, h2⟩ := he
    cases rest with
    | nil => cases hd
    | cons e rest =>
      cases hd
      refine ⟨(single .Open 0x3C cur).1, next 0x3C cur, fun n => ?_, At.tail h (next_index _ cur), reads_single rfl⟩
      have ho : opens file 1 cur.index [0x3F] = .ok false := opens_of_ne h h1
      have hc : opens file 3 cur.index [0x21, 0x2D, 0x2D] = .ok false := opens_of_ne h h2
      rw [XmlTok_at h (by decide), if_pos rfl, ok_bind ho, if_neg (by decide), ok_bind hc, if_neg (by decide)]
      rfl
  | close =>
    refine ⟨(single .Close 0x3E cur).1, next 0x3E cur, fun n => ?_, At.tail h (next_index _ cur), reads_single rfl⟩
    exact XmlTok_at h (by decide) n
  | equals =>
    refine ⟨(single .Equals 0x3D cur).1, next 0x3D cur, fun n => ?_, At.tail h (next_index _ cur), reads_single rfl⟩
    exact XmlTok_at h (by decide) n
  | slash =>
    refine ⟨(single .Slash 0x2F cur).1, next 0x2F cur, fun n => ?_, At.tail h (next_index _ cur), reads_single rfl⟩
    exact XmlTok_at h (by decide) n
  | quoted bs =>
    obtain ⟨x, cur', h1, h2, h3⟩ := reads_quoted fresh ht.1 h
    refine ⟨x, cur', fun n => ?_, h2, h3⟩
    rw [← h1]
    simp only [Tok.bytes, List.append_assoc] at h
    exact XmlTok_at h (by decide) n
  | word bs =>
    obtain ⟨x, cur', h1, h2, h3⟩ := reads_word fresh ht.2 he h
    refine ⟨x, cur', fun n => ?_, h2, h3⟩
    cases bs with
    | nil => exact absurd rfl ht.1
    | cons c bs =>
      obtain ⟨hw, ho, hc, hq, hs, hd⟩ := valid_ne (ht.2 c List.mem_cons_self)
      rw [XmlTok_at h hw, if_neg ho, if_neg hc, if_neg hq, if_neg hs, if_neg hd, h1]

/-! ## Documents -/

theorem render_cons (t : Tile) (ts : List Tile) (trailing : List Gap) :
    render (t :: ts) trailing = gapBytes t.gap ++ (t.tok.bytes ++ render ts trailing) := by
  simp [render]

/-- A tile starts with a byte of no word, unless it is a word with nothing in front. -/
theorem tile_head (rest : Bytes) {t : Tile} (hg : ∀ g ∈ t.gap, g.Ok) (ht : t.tok.Ok) :
    ∃ c, (gapBytes t.gap ++ (t.tok.bytes ++ rest)).head? = some c ∧
      (IsValidString c = false ∨ t.gap = [] ∧ ∃ bs, t.tok = .word bs ∧ bs.head? = some c) := by
  obtain ⟨gap, tok⟩ := t
  cases gap with
  | cons g gap =>
    cases g with
    | space c =>
      have hc : IsWhitespace c = true := hg (.space c) List.mem_cons_self
      exact ⟨c, rfl, .inl (by simp [IsValidString, hc])⟩
    | comment body => exact ⟨0x3C, rfl, .inl rfl⟩
    | instruction body => exact ⟨0x3C, rfl, .inl rfl⟩
  | nil =>
    cases tok with
    | open_ => exact ⟨0x3C, rfl, .inl rfl⟩
    | close => exact ⟨0x3E, rfl, .inl rfl⟩
    | equals => exact ⟨0x3D, rfl, .inl rfl⟩
    | slash => exact ⟨0x2F, rfl, .inl rfl⟩
    | quoted bs => exact ⟨0x22, rfl, .inl rfl⟩
    | word bs =>
      cases bs with
      | nil => exact absurd rfl ht.1
      | cons c bs => exact ⟨c, rfl, .inr ⟨rfl, _, rfl, rfl⟩⟩

theorem endsAt_of_follows {t u : Tile} (h : Follows t u) (hg : ∀ g ∈ u.gap, g.Ok) (hu : u.tok.Ok) :
    t.tok.EndsAt (gapBytes u.gap ++ (u.tok.bytes ++ rest)) := by
  obtain ⟨c, hc, hv⟩ := tile_head rest hg hu
  cases ht : t.tok with
  | open_ =>
    refine ⟨c, hc, ?_⟩
    rcases hv with hv | ⟨-, bs, hb, hh⟩
    · refine ⟨?_, ?_⟩
      · rintro rfl
        cases hv
      · rintro rfl
        cases hv
    · have := (h bs hb).2 ht
      rw [hh] at this
      simpa using this
  | word as =>
    intro d hd
    rw [hc] at hd
    cases hd
    rcases hv with hv | ⟨hn, bs, hb, -⟩
    · exact hv
    · exact absurd hn ((h bs hb).1 ⟨as, ht⟩)
  | _ => trivial

/-- The calls on the bytes of tiles that end with a `Close`. -/
theorem reads_tiles (fresh : Nat → Nat → UInt8) {trailing : List Gap} (htr : ∀ g ∈ trailing, g.Ok) {tiles : List Tile} :
    ∀ {cur : Cursor}, (∀ t ∈ tiles, ∀ g ∈ t.gap, g.Ok) → (∀ t ∈ tiles, t.tok.Ok) → tiles.IsChain Follows →
      (∀ t, tiles.getLast? = some t → t.tok = .close) → At file cur (render tiles trailing) →
      ∃ xs e, tokens fresh file (tiles.length + 1) cur = .ok (xs ++ [e]) ∧
        List.Forall₂ (fun t x => Reads fresh t.tok x) tiles xs ∧ (e.type, e.text) = (.EndOfFile, []) := by
  induction tiles with
  | nil =>
    intro cur _ _ _ _ h
    have h : At file cur (gapBytes trailing ++ []) := by simpa [render] using h
    obtain ⟨k, cur', hk, hat, hx⟩ := gaps_skipped fresh htr h
    have hl := h.2
    rw [List.append_nil] at hl
    have hend := hat.2
    have hx := hx (file.length - k + 1)
    rw [show file.length - k + 1 + k = file.length + 1 by omega] at hx
    have hs : skipWhile file IsWhitespace (file.length - cur'.index) cur' = .ok cur' := skipWhile_stop hat nofun
    refine ⟨[], ⟨.EndOfFile, [], cur'.line, cur'.chr⟩, ?_, .nil, rfl⟩
    rw [List.length_nil, tokens, hx, XmlTok, ok_bind hs, if_pos (by simpa using hend)]
    rfl
  | cons t ts ih =>
    intro cur hg ht hc hl h
    rw [render_cons] at h
    obtain ⟨k, cur1, hk, hat1, hx⟩ := gaps_skipped fresh (hg t List.mem_cons_self) h
    have he : t.tok.EndsAt (render ts trailing) := by
      cases ts with
      | nil =>
        rw [hl t rfl]
        trivial
      | cons u us =>
        rw [render_cons]
        exact endsAt_of_follows (List.isChain_cons_cons.mp hc).1 (hg u (by simp)) (ht u (by simp))
    obtain ⟨x, cur2, hr, hat2, hreads⟩ := reads_tok fresh (ht t List.mem_cons_self) he hat1
    obtain ⟨xs, e, h1, h2, h3⟩ := ih (fun u hu => hg u (List.mem_cons_of_mem _ hu))
      (fun u hu => ht u (List.mem_cons_of_mem _ hu)) hc.tail (fun u hu => hl u (by
        cases ts with
        | nil => cases hu
        | cons v vs => simpa using hu)) hat2
    have hlen := h.2
    rw [List.length_append] at hlen
    have hx := hx (file.length - k + 1)
    rw [show file.length - k + 1 + k = file.length + 1 by omega, hr] at hx
    refine ⟨x :: xs, e, ?_, .cons hreads h2, h3⟩
    rw [List.length_cons, tokens, ok_bind hx]
    exact ok_bind h1

/-- What successive calls from the start are to return. -/
def expected (d : Document) : List (TokenType × Text) := d.tiles.map (fun t => t.tok.read) ++ [(.EndOfFile, [])]

/-- The calls return the tokens of the document, then `EndOfFile`. -/
def ReadsBack (d : Document) : Prop :=
  ∀ fresh line chr, ∃ xs, tokens fresh (render d.tiles d.trailing) (d.tiles.length + 1) ⟨0, line, chr⟩ = .ok xs ∧
    xs.map (fun x => (x.type, x.text)) = expected d

theorem reads_document (d : Document) (fresh : Nat → Nat → UInt8) (line chr : Int) :
    ∃ xs e, tokens fresh (render d.tiles d.trailing) (d.tiles.length + 1) ⟨0, line, chr⟩ = .ok (xs ++ [e]) ∧
      List.Forall₂ (fun t x => Reads fresh t.tok x) d.tiles xs ∧ (e.type, e.text) = (.EndOfFile, []) := by
  refine reads_tiles fresh d.trail d.gaps d.toks d.follows (fun t ht => ?_) ⟨rfl, by simp⟩
  obtain ⟨u, hu, hc⟩ := d.closed
  rw [hu] at ht
  cases ht
  exact hc

/-- Only the texts of bare words can suffer. -/
theorem read_of_no_zero {t : Tok} (ht : t.Ok) (h : ∀ bs, t = .word bs → 0 ∉ bs.dropLast) : 0 ∉ t.read.2.dropLast := by
  cases t with
  | word bs => exact h bs rfl
  | quoted bs => exact fun h0 => ht.2 (List.mem_of_mem_dropLast h0)
  | _ => exact List.not_mem_nil

/-- A document is read back token by token, whatever is skipped between the tokens, exactly
    when no bare word has a zero before its last byte. -/
theorem reads_back_iff (d : Document) : ReadsBack d ↔ ∀ t ∈ d.tiles, ∀ bs, t.tok = .word bs → 0 ∉ bs.dropLast := by
  constructor
  · intro h t ht bs hb
    -- fresh memory that shows what the copy of this word leaves out
    obtain ⟨xs, hx, he⟩ := h (fun _ => spoiled bs) 1 1
    obtain ⟨ys, e, hy, hf, -⟩ := reads_document d (fun _ => spoiled bs) 1 1
    rw [hy] at hx
    cases hx
    have hm : ys.map (fun x => (x.type, x.text)) = d.tiles.map (fun t => t.tok.read) := by
      rw [List.map_append] at he
      exact List.append_inj_left he (by simp [hf.length_eq])
    obtain ⟨i, hi, rfl⟩ := List.getElem_of_mem ht
    have hi' : i < ys.length := hf.length_eq ▸ hi
    obtain ⟨j, hj⟩ := hf.get hi hi'
    have hm := congrArg (·[i]?) hm
    simp only [List.getElem?_map, List.getElem?_eq_getElem hi, List.getElem?_eq_getElem hi', Option.map_some,
      Option.some.injEq] at hm
    simp only [List.get_eq_getElem] at hj
    rw [hm, hb] at hj
    exact no_zero_of_copied (congrArg Prod.snd hj).symm
  · intro h fresh line chr
    obtain ⟨xs, e, hx, hf, he⟩ := reads_document d fresh line chr
    refine ⟨xs ++ [e], hx, ?_⟩
    rw [expected, List.map_append, List.map_cons, he]
    congr 1
    refine List.ext_getElem (by simp [hf.length_eq]) fun i h1 h2 => ?_
    simp only [List.length_map] at h1 h2
    obtain ⟨j, hj⟩ := hf.get h2 h1
    simp only [List.get_eq_getElem] at hj
    have hmem : d.tiles[i] ∈ d.tiles := List.getElem_mem h2
    rw [List.getElem_map, List.getElem_map, hj, copied_of_no_zero (read_of_no_zero (d.toks _ hmem) (h _ hmem))]

/-- `<a␀b>` has the word `a␀b`, of valid characters. -/
def zeroWord : Document where
  tiles := [⟨[], .open_⟩, ⟨[], .word [0x61, 0, 0x62]⟩, ⟨[], .close⟩]
  trailing := []
  gaps := by simp
  toks := by simp [Tok.Ok, IsValidString, IsWhitespace]
  follows := by simp [Follows]
  closed := ⟨⟨[], .close⟩, rfl, rfl⟩
  trail := by simp

/-- Its text does not come back. -/
theorem zero_word_is_cut : ¬ ∀ d, ReadsBack d := by
  intro h
  obtain ⟨xs, hx, he⟩ := h zeroWord (fun _ _ => 0) 1 1
  have hx : tokens (fun _ _ => 0) [0x3C, 0x61, 0, 0x62, 0x3E] 4 ⟨0, 1, 1⟩ = .ok xs := hx
  have hr : tokens (fun _ _ => 0) [0x3C, 0x61, 0, 0x62, 0x3E] 4 ⟨0, 1, 1⟩ =
      .ok [⟨.Open, [0x3C], 1, 1⟩, ⟨.String, [0x61, 0, 0], 1, 2⟩, ⟨.Close, [0x3E], 1, 5⟩, ⟨.EndOfFile, [], 1, 6⟩] := by
    decide +kernel
  rw [hr] at hx
  cases hx
  exact absurd he (by decide)

end Rodvin.Kernel.XmlTokens
