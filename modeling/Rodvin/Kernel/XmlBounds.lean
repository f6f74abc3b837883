/-
  Rodvin.Kernel.XmlBounds — where the tokeniser leaves the buffer
  (`kernel/src/common/Xml.cpp`: `XmlTok`).

  The look-ahead for `?` and for `!--`, and the loops to the end of an instruction and of
  a comment, are bounded by `length + 1`, `length + 3` and `length + 2`: the bounds let
  them read at `length` and beyond. A call stays inside the buffer exactly when, behind
  whitespace and complete instructions and comments, nothing is cut off (`Decided`):
  - `XmlTok_inBounds_iff`: of one call, from any index in the buffer.
  - `reads_in_bounds_iff`: of all calls that `XmlRead` makes.
  - `open_at_the_end_is_read_past`: a buffer that is the byte `<`.
-/

import Mathlib.Data.List.TakeWhile
import Rodvin.Kernel.XmlCalls
import Rodvin.Kernel.XmlTokensProofs

namespace Rodvin.Kernel.XmlTokens

open Rodvin.Lib Rodvin.Libc
open Rodvin.Kernel.Xml (XmlToken TokenType Text calls calls_invariant)

/-- What a call skips: a byte of whitespace, `<? ... ?>`, `<!-- ... -->`. The end of an
    instruction is looked for from its `<` on. -/
inductive Skips : Bytes → Prop
  | space {c : UInt8} : IsWhitespace c = true → Skips [c]
  | instruction {body : Bytes} :
    EndsFirst [0x3F, 0x3E] body → [0x3C, 0x3F] <+: body ++ [0x3F, 0x3E] → Skips (body ++ [0x3F, 0x3E])
  | comment {body : Bytes} :
    EndsFirst [0x2D, 0x2D, 0x3E] body → Skips ([0x3C, 0x21, 0x2D, 0x2D] ++ (body ++ [0x2D, 0x2D, 0x3E]))

/-- Nothing is skipped in front of `tail`, and it is no beginning of an instruction or of a comment. -/
structure Clear (tail : Bytes) : Prop where
  noSpace : ∀ c, tail.head? = some c → IsWhitespace c = false
  noCut : tail ≠ [] → ¬ tail <+: [0x3C, 0x21, 0x2D, 0x2D]
  noInstruction : ¬ [0x3C, 0x3F] <+: tail
  noComment : ¬ [0x3C, 0x21, 0x2D, 0x2D] <+: tail

/-- Behind what is skipped, nothing is cut off. -/
def Decided (rest : Bytes) : Prop := ∃ gaps tail, rest = List.flatten gaps ++ tail ∧ (∀ g ∈ gaps, Skips g) ∧ Clear tail

variable {fresh : Nat → Nat → UInt8} {file rest tail : Bytes} {cur : Cursor} {c : UInt8}

/-- The call reads inside the buffer and leaves `index` there. -/
def InBounds (fresh : Nat → Nat → UInt8) (file : Bytes) (cur : Cursor) : Prop :=
  ∃ r, XmlTok fresh file (file.length + 1) cur = .ok r ∧ r.2.index ≤ file.length

/-- The calls of a run, which is over at the first byte read outside the buffer. -/
def source (fresh : Nat → Nat → UInt8) (file : Bytes) (cur : Cursor) : XmlToken × Cursor :=
  match XmlTok fresh file (file.length + 1) cur with
  | .ok r => r
  | .error _ => (⟨.EndOfFile, [], cur.line, cur.chr⟩, cur)

/-! ## The look-ahead -/

/-- The comparison leaves the buffer iff the buffer ends before it is decided. -/
theorem matchesAt_spec {bs : Bytes} : ∀ {i : Nat} {rest : Bytes}, file.drop i = rest →
    matchesAt file i bs = if bs <+: rest then .ok true else if rest <+: bs then fault else .ok false := by
  induction bs with
  | nil =>
    intro i rest _
    simp [matchesAt, pure, Except.pure]
  | cons b bs ih =>
    intro i rest h
    cases rest with
    | nil =>
      have hr : read file i = fault := by
        have hlen : file.length ≤ i := List.drop_eq_nil_iff.mp h
        unfold Lib.read
        rw [List.getElem?_eq_none hlen]
      rw [matchesAt, hr]
      simp [fault, bind, Except.bind]
    | cons d rest =>
      have hr : read file i = .ok d := read_of_some (by
        have := congrArg (·[0]?) h
        simpa [List.getElem?_drop] using this)
      have ht : file.drop (i + 1) = rest := by rw [← List.drop_drop, h]; rfl
      rw [matchesAt, ok_bind hr]
      by_cases hd : d = b
      · rw [if_pos hd, ih ht, hd]
        simp only [List.cons_prefix_cons, true_and]
      · rw [if_neg hd]
        simp [hd, Ne.symm hd, pure, Except.pure]

theorem At.drop_succ (h : At file cur (c :: rest)) : file.drop (cur.index + 1) = rest := by
  rw [← List.drop_drop, h.1]
  rfl

theorem opens_spec {bs : Bytes} {slack : Nat} (h : At file cur (c :: rest)) : opens file slack cur.index bs =
    if bs <+: rest then .ok true else if rest <+: bs then fault else .ok false := by
  have hl := h.lt
  rw [opens, if_pos (by omega), matchesAt_spec h.drop_succ]

/-! ## What is skipped -/

/-- The loop to the end of what is skipped leaves the buffer unless the end is in it. -/
theorem skipUntil_ok {close : Bytes} {slack : Nat} {move : UInt8 → Cursor → Cursor} (hc : close ≠ []) (hs : 0 < slack)
    (hm : ∀ c cur, (move c cur).index = cur.index + 1) : ∀ {rest : Bytes} {cur cur' : Cursor}, At file cur rest →
      skipUntil file close slack move (file.length + slack - cur.index) cur = .ok cur' →
      ∃ body rest', rest = body ++ (close ++ rest') ∧ EndsFirst close body ∧ cur'.index = cur.index + body.length := by
  intro rest
  induction rest with
  | nil =>
    intro cur cur' h hu
    have hl := h.2
    simp only [List.length_nil] at hl
    obtain ⟨n, hn⟩ : ∃ n, file.length + slack - cur.index = n + 1 := ⟨file.length + slack - cur.index - 1, by omega⟩
    rw [hn, skipUntil, if_pos (by omega), matchesAt_spec h.1, if_neg (by simpa using hc), if_pos List.nil_prefix] at hu
    cases hu
  | cons d rest ih =>
    intro cur cur' h hu
    have hl := h.lt
    obtain ⟨n, hn⟩ : ∃ n, file.length + slack - cur.index = n + 1 := ⟨file.length + slack - cur.index - 1, by omega⟩
    rw [hn, skipUntil, if_pos (by omega), matchesAt_spec h.1] at hu
    by_cases hfound : close <+: d :: rest
    · rw [if_pos hfound] at hu
      obtain rfl : cur = cur' := Except.ok.inj hu
      obtain ⟨rest', hr⟩ := hfound
      exact ⟨[], rest', hr.symm, fun j hj => absurd hj (Nat.not_lt_zero j), rfl⟩
    · rw [if_neg hfound] at hu
      by_cases hcut : d :: rest <+: close
      · rw [if_pos hcut] at hu
        cases hu
      · rw [if_neg hcut] at hu
        have hat : At file (move d cur) rest := h.tail (hm d cur)
        have hu : skipUntil file close slack move n (move d cur) = .ok cur' := by
          simpa [At.read h, bind, Except.bind] using hu
        rw [show n = file.length + slack - (move d cur).index by rw [hm]; omega] at hu
        obtain ⟨body, rest', rfl, hends, hindex⟩ := ih hat hu
        refine ⟨d :: body, rest', rfl, fun j hj hp => ?_, by rw [hindex, hm, List.length_cons]; omega⟩
        cases j with
        | zero =>
          refine hfound (hp.trans ?_)
          rw [List.drop_zero, List.cons_append]
          exact (List.prefix_cons_inj d).mpr ((List.prefix_append_right_inj body).mpr (List.prefix_append close rest'))
        | succ j => exact hends j (by simpa using hj) hp

/-- One gap: a call goes on behind it, with at most one turn less. -/
theorem Skips.turn {gap : Bytes} (fresh : Nat → Nat → UInt8) (hg : Skips gap) (h : At file cur (gap ++ rest)) :
    ∃ k cur', k ≤ gap.length ∧ At file cur' rest ∧ ∀ n, XmlTok fresh file (n + k) cur = XmlTok fresh file n cur' := by
  cases hg with
  | space hc => exact ⟨0, next _ cur, Nat.zero_le _, At.tail h (next_index _ cur), XmlTok_space h hc⟩
  | @instruction body hends hopen =>
    rw [List.append_assoc] at h
    obtain ⟨cur', h1, h2⟩ := skipInstruction_spec hends h
    obtain ⟨as, has⟩ := hopen
    have hat : At file cur (0x3C :: ([0x3F] ++ (as ++ rest))) := by
      rw [← List.append_assoc, ← has] at h
      simpa using h
    have ho : opens file 1 cur.index [0x3F] = .ok true := opens_of_prefix hat
    refine ⟨1, cur', by simp, h2, fun n => ?_⟩
    rw [XmlTok_at hat (by decide), if_pos rfl, ok_bind ho, if_pos rfl, ok_bind h1]
  | @comment body hends =>
    simp only [List.append_assoc] at h
    obtain ⟨cur', h1, h2⟩ := skipComment_spec hends h
    have ho : opens file 1 cur.index [0x3F] = .ok false := opens_of_ne h (by decide)
    have hc : opens file 3 cur.index [0x21, 0x2D, 0x2D] = .ok true := opens_of_prefix h
    refine ⟨1, cur', by simp, h2, fun n => ?_⟩
    rw [XmlTok_at h (by decide), if_pos rfl, ok_bind ho, if_neg (by decide), ok_bind hc, if_pos rfl, ok_bind h1]

theorem skips_turns (fresh : Nat → Nat → UInt8) {gaps : List Bytes} : ∀ {cur : Cursor}, (∀ g ∈ gaps, Skips g) →
    At file cur (gaps.flatten ++ rest) → ∃ k cur', k ≤ gaps.flatten.length ∧ At file cur' rest ∧
      ∀ n, XmlTok fresh file (n + k) cur = XmlTok fresh file n cur' := by
  induction gaps with
  | nil => exact fun _ h => ⟨0, _, Nat.zero_le _, h, fun _ => rfl⟩
  | cons g gaps ih =>
    intro cur hg h
    rw [List.flatten_cons, List.append_assoc] at h
    obtain ⟨k1, cur1, hk1, hat1, h1⟩ := (hg g List.mem_cons_self).turn fresh h
    obtain ⟨k2, cur2, hk2, hat2, h2⟩ := ih (fun x hx => hg x (List.mem_cons_of_mem _ hx)) hat1
    refine ⟨k2 + k1, cur2, ?_, hat2, fun n => ?_⟩
    · rw [List.flatten_cons, List.length_append]
      omega
    · rw [← Nat.add_assoc, h1, h2]

/-! ## One call -/

/-- The two loops of a string end at the first byte they do not take, or at the end. -/
theorem skipWhile_split (p : UInt8 → Bool) (h : At file cur rest) :
    ∃ cur' rest', skipWhile file p (file.length - cur.index) cur = .ok cur' ∧ At file cur' rest' ∧
      ∀ c, rest'.head? = some c → p c = false := by
  have hstop : ∀ c, (rest.dropWhile p).head? = some c → p c = false := by
    intro c hc
    have := List.head?_dropWhile_not p rest
    rw [hc] at this
    simpa using this
  have hat : At file cur (rest.takeWhile p ++ rest.dropWhile p) := by rwa [List.takeWhile_append_dropWhile]
  obtain ⟨cur', h1, h2⟩ := skipWhile_spec hat (fun c hc => List.mem_takeWhile_imp hc) hstop
  exact ⟨cur', _, h1, hat.drop h2, hstop⟩

theorem At.index_le (h : At file cur rest) : cur.index ≤ file.length := by
  have := h.2
  omega

theorem quoted_inside (fresh : Nat → Nat → UInt8) (h : At file cur (c :: rest)) :
    ∃ r, quoted fresh file cur = .ok r ∧ r.2.index ≤ file.length := by
  have hat := h.tail (next_index c cur)
  obtain ⟨stop, rest', h1, hst, -⟩ := skipWhile_split (fun c => c != 0x22) hat
  rw [quoted, ok_bind h.read, ok_bind h1]
  by_cases hend : stop.index = file.length
  · rw [if_pos hend]
    exact ⟨_, rfl, Nat.le_of_eq hend⟩
  · rw [if_neg hend]
    cases rest' with
    | nil => exact absurd hst.2 (by simpa using hend)
    | cons d rest' =>
      rw [ok_bind hst.read]
      exact ⟨_, rfl, (hst.tail (next_index d stop)).index_le⟩

theorem word_inside (fresh : Nat → Nat → UInt8) (h : At file cur rest) :
    ∃ r, word fresh file cur = .ok r ∧ r.2.index ≤ file.length := by
  obtain ⟨stop, rest', h1, hst, -⟩ := skipWhile_split IsValidString h
  rw [word, ok_bind h1]
  exact ⟨_, rfl, hst.index_le⟩

/-- What decides the two look-aheads behind a `<` that is a token. -/
theorem Clear.look_ahead (hc : Clear (0x3C :: rest)) : ¬ [0x3F] <+: rest ∧ ¬ rest <+: [0x3F] ∧
    ¬ [0x21, 0x2D, 0x2D] <+: rest ∧ ¬ rest <+: [0x21, 0x2D, 0x2D] := by
  have hcut := hc.noCut (by simp)
  have hins := hc.noInstruction
  have hcom := hc.noComment
  simp only [List.cons_prefix_cons, true_and] at hcut hins hcom
  refine ⟨hins, fun hr => ?_, hcom, hcut⟩
  rcases rest with _ | ⟨d, _ | ⟨e, rest⟩⟩
  · exact hcut List.nil_prefix
  · rw [List.cons_prefix_cons] at hr
    exact hins (by rw [hr.1])
  · simp at hr

theorem Clear.token (fresh : Nat → Nat → UInt8) (hc : Clear tail) (h : At file cur tail) (n : Nat) :
    ∃ r, XmlTok fresh file (n + 1) cur = .ok r ∧ r.2.index ≤ file.length := by
  cases tail with
  | nil =>
    have hs : skipWhile file IsWhitespace (file.length - cur.index) cur = .ok cur := skipWhile_stop h nofun
    have hend : cur.index = file.length := by simpa using h.2
    rw [XmlTok, ok_bind hs, if_pos hend]
    exact ⟨_, rfl, Nat.le_of_eq hend⟩
  | cons c rest =>
    have hstep : (next c cur).index ≤ file.length := (At.tail h (next_index c cur)).index_le
    rw [XmlTok_at h (hc.noSpace c rfl)]
    by_cases hopen : c = 0x3C
    · rw [hopen] at hc
      obtain ⟨h1, h2, h3, h4⟩ := hc.look_ahead
      have ho : opens file 1 cur.index [0x3F] = .ok false := by rw [opens_spec h, if_neg h1, if_neg h2]
      have hm : opens file 3 cur.index [0x21, 0x2D, 0x2D] = .ok false := by rw [opens_spec h, if_neg h3, if_neg h4]
      rw [if_pos hopen, ok_bind ho, if_neg (by decide), ok_bind hm, if_neg (by decide)]
      exact ⟨_, rfl, hstep⟩
    · rw [if_neg hopen]
      split_ifs
      · exact ⟨_, rfl, hstep⟩
      · exact ⟨_, rfl, hstep⟩
      · exact ⟨_, rfl, hstep⟩
      · exact quoted_inside fresh h
      · exact word_inside fresh h

theorem Decided.skip {gap : Bytes} (hg : Skips gap) (hd : Decided rest) : Decided (gap ++ rest) := by
  obtain ⟨gaps, tail, rfl, hgaps, hc⟩ := hd
  refine ⟨gap :: gaps, tail, by rw [List.flatten_cons, List.append_assoc], fun g hmem => ?_, hc⟩
  rcases List.mem_cons.mp hmem with rfl | hmem
  · exact hg
  · exact hgaps g hmem

theorem Clear.decided (hc : Clear rest) : Decided rest := ⟨[], rest, rfl, fun _ h => absurd h List.not_mem_nil, hc⟩

theorem clear_of_ne (hs : IsWhitespace c = false) (hc : c ≠ 0x3C) : Clear (c :: rest) := by
  refine ⟨fun d hd => ?_, fun _ h => ?_, fun h => ?_, fun h => ?_⟩
  · cases hd
    exact hs
  · exact hc (List.cons_prefix_cons.mp h).1
  · exact hc (List.cons_prefix_cons.mp h).1.symm
  · exact hc (List.cons_prefix_cons.mp h).1.symm

/-- The part of `rest` up to a closing that was found. -/
theorem prefix_found {bs body close : Bytes} (h : bs <+: body ++ (close ++ rest))
    (hl : bs.length ≤ body.length + close.length) :
    bs <+: body ++ close := by
  rw [← List.append_assoc] at h
  exact List.prefix_of_prefix_length_le h (List.prefix_append _ _) (by simpa using hl)

theorem skip_ok {n : Nat} : ∀ {rest : Bytes} {cur cur' : Cursor}, At file cur rest → n ≤ rest.length →
    skip file n cur = .ok cur' → cur'.index = cur.index + n := by
  induction n with
  | zero =>
    intro rest cur cur' _ _ hs
    rw [← Except.ok.inj hs]
    rfl
  | succ n ih =>
    intro rest cur cur' h hn hs
    cases rest with
    | nil => simp at hn
    | cons d rest =>
      rw [skip, ok_bind h.read] at hs
      have := ih (h.tail (next_index d cur)) (by simpa using hn) hs
      rw [this, next_index]
      omega

/-- A `<` that was not cut off and opens nothing. -/
theorem clear_open (h1 : ¬ [0x3F] <+: rest) (h2 : ¬ [0x21, 0x2D, 0x2D] <+: rest) (h3 : ¬ rest <+: [0x21, 0x2D, 0x2D]) :
    Clear (0x3C :: rest) := by
  refine ⟨fun d hd => ?_, fun _ h => ?_, fun h => ?_, fun h => ?_⟩
  · cases hd
    rfl
  · exact h3 (List.cons_prefix_cons.mp h).2
  · exact h1 (List.cons_prefix_cons.mp h).2
  · exact h2 (List.cons_prefix_cons.mp h).2

/-- An instruction whose end was found. -/
theorem skipInstruction_ok {cur' : Cursor} (hopen : [0x3F] <+: rest) (h : At file cur (0x3C :: rest))
    (hs : skipInstruction file cur = .ok cur') :
    ∃ gap rest', 0x3C :: rest = gap ++ rest' ∧ Skips gap ∧ gap ≠ [] ∧ At file cur' rest' := by
  obtain ⟨stop, hstop, hcur⟩ := bind_eq_ok.mp hs
  obtain ⟨body, rest', hrest, hends, hindex⟩ := skipUntil_ok (by simp) (by decide) advance_index h hstop
  have hbody : 0 < body.length := by
    rw [List.length_pos_iff]
    rintro rfl
    simp at hrest
  refine ⟨body ++ [0x3F, 0x3E], rest', by simpa using hrest, .instruction hends ?_, by simp, ?_⟩
  · have hp : [0x3C, 0x3F] <+: body ++ ([0x3F, 0x3E] ++ rest') := by
      rw [← hrest]
      exact (List.prefix_cons_inj 0x3C).mpr hopen
    exact prefix_found hp (by simp)
  · rw [hrest, ← List.append_assoc] at h
    refine h.drop ?_
    rw [← Except.ok.inj hcur]
    simp [hindex]
    omega

/-- A comment whose end was found. -/
theorem skipComment_ok {cur' : Cursor} (hopen : [0x21, 0x2D, 0x2D] <+: rest) (h : At file cur (0x3C :: rest))
    (hs : skipComment file cur = .ok cur') :
    ∃ gap rest', 0x3C :: rest = gap ++ rest' ∧ Skips gap ∧ gap ≠ [] ∧ At file cur' rest' := by
  obtain ⟨inner, rfl⟩ := hopen
  have h : At file cur ([0x3C, 0x21, 0x2D, 0x2D] ++ inner) := h
  obtain ⟨start, hstart, hs⟩ := bind_eq_ok.mp hs
  obtain ⟨stop, hstop, hend⟩ := bind_eq_ok.mp hs
  have hat := h.drop (skip_ok h (by simp) hstart)
  obtain ⟨body, rest', rfl, hends, hindex⟩ := skipUntil_ok (by simp) (by decide) next_index hat hstop
  have hclose := hat.drop hindex
  refine ⟨_, rest', ?_, .comment hends, by simp, hclose.drop (skip_ok hclose (by simp) hend)⟩
  simp

/-- A call that does not leave the buffer found everything it looked for. -/
theorem decided_of_ok : ∀ {m : Nat} {rest : Bytes} {n : Nat} {cur : Cursor} {r : XmlToken × Cursor}, rest.length ≤ m →
    At file cur rest → XmlTok fresh file n cur = .ok r → Decided rest := by
  intro m
  induction m with
  | zero =>
    intro rest n cur r hm _ _
    rw [List.length_eq_zero_iff.mp (Nat.le_zero.mp hm)]
    exact Clear.decided ⟨nofun, fun h => absurd rfl h, by simp, by simp⟩
  | succ m ih =>
    intro rest n cur r hm h hr
    cases rest with
    | nil => exact Clear.decided ⟨nofun, fun h => absurd rfl h, by simp, by simp⟩
    | cons c rest =>
      by_cases hs : IsWhitespace c = true
      · rw [XmlTok_space h hs] at hr
        exact Decided.skip (.space hs) (ih (by simpa using hm) (h.tail (next_index c cur)) hr)
      · have hs : IsWhitespace c = false := by simpa using hs
        by_cases hopen : c = 0x3C
        · subst hopen
          -- a gap that was skipped, and what the next turn found behind it
          have hgap : ∀ {n : Nat} {cur' : Cursor}, (∃ gap rest', 0x3C :: rest = gap ++ rest' ∧ Skips gap ∧ gap ≠ [] ∧
              At file cur' rest') → XmlTok fresh file n cur' = .ok r → Decided (0x3C :: rest) := by
            intro n cur' hg hr
            obtain ⟨gap, rest', he, hg, hne, hat⟩ := hg
            have hlen := congrArg List.length he
            have hpos := List.length_pos_iff.mpr hne
            simp only [List.length_append, List.length_cons] at hlen hm
            rw [he]
            exact Decided.skip hg (ih (by omega) hat hr)
          cases n with
          | zero => cases hr
          | succ n =>
            rw [XmlTok_at h hs, if_pos rfl] at hr
            obtain ⟨instr, hinstr, hr⟩ := bind_eq_ok.mp hr
            rw [opens_spec h] at hinstr
            by_cases hi : [0x3F] <+: rest
            · rw [if_pos hi] at hinstr
              rw [← Except.ok.inj hinstr, if_pos rfl] at hr
              obtain ⟨cur', hskip, hr⟩ := bind_eq_ok.mp hr
              exact hgap (skipInstruction_ok hi h hskip) hr
            · rw [if_neg hi] at hinstr
              by_cases hcut : rest <+: [0x3F]
              · rw [if_pos hcut] at hinstr
                cases hinstr
              · rw [if_neg hcut] at hinstr
                rw [← Except.ok.inj hinstr, if_neg (by decide)] at hr
                obtain ⟨com, hcom, hr⟩ := bind_eq_ok.mp hr
                rw [opens_spec h] at hcom
                by_cases hc : [0x21, 0x2D, 0x2D] <+: rest
                · rw [if_pos hc] at hcom
                  rw [← Except.ok.inj hcom, if_pos rfl] at hr
                  obtain ⟨cur', hskip, hr⟩ := bind_eq_ok.mp hr
                  exact hgap (skipComment_ok hc h hskip) hr
                · rw [if_neg hc] at hcom
                  by_cases hcut' : rest <+: [0x21, 0x2D, 0x2D]
                  · rw [if_pos hcut'] at hcom
                    cases hcom
                  · exact (clear_open hi hc hcut').decided
        · exact (clear_of_ne hs hopen).decided

/-- A call from an index in the buffer. -/
theorem XmlTok_inBounds_iff (fresh : Nat → Nat → UInt8) (h : cur.index ≤ file.length) :
    InBounds fresh file cur ↔ Decided (file.drop cur.index) := by
  have hat : At file cur (file.drop cur.index) := ⟨rfl, by rw [List.length_drop]; omega⟩
  constructor
  · intro ⟨r, hr, _⟩
    exact decided_of_ok (Nat.le_refl _) hat hr
  · intro ⟨gaps, tail, he, hgaps, hc⟩
    rw [he] at hat
    obtain ⟨k, cur', hk, hat', hturn⟩ := skips_turns fresh hgaps hat
    have hlen := hat.2
    rw [List.length_append] at hlen
    have hturn := hturn (file.length - k + 1)
    rw [show file.length - k + 1 + k = file.length + 1 by omega] at hturn
    obtain ⟨r, hr, hindex⟩ := hc.token fresh hat' (file.length - k)
    exact ⟨r, hturn.trans hr, hindex⟩

/-! ## All calls -/

theorem InBounds.source (h : InBounds fresh file cur) : (source fresh file cur).2.index ≤ file.length := by
  obtain ⟨r, hr, hindex⟩ := h
  unfold XmlTokens.source
  rw [hr]
  exact hindex

theorem inBounds_of_decided {fuel : Nat} {line chr : Int}
    (h : ∀ cur ∈ calls (source fresh file) fuel ⟨0, line, chr⟩, Decided (file.drop cur.index)) :
    ∀ cur ∈ calls (source fresh file) fuel ⟨0, line, chr⟩, InBounds fresh file cur := by
  have hle : ∀ cur ∈ calls (source fresh file) fuel ⟨0, line, chr⟩, cur.index ≤ file.length :=
    calls_invariant (fun cur => cur.index ≤ file.length) (Nat.zero_le _) fun cur hcur hle =>
      ((XmlTok_inBounds_iff fresh hle).mpr (h cur hcur)).source
  exact fun cur hcur => (XmlTok_inBounds_iff fresh (hle cur hcur)).mpr (h cur hcur)

/-- Every call of a run stays inside the buffer iff each starts where nothing is cut off. -/
theorem reads_in_bounds_iff (fresh : Nat → Nat → UInt8) (file : Bytes) (fuel : Nat) (line chr : Int) :
    (∀ cur ∈ calls (source fresh file) fuel ⟨0, line, chr⟩, InBounds fresh file cur) ↔
      ∀ cur ∈ calls (source fresh file) fuel ⟨0, line, chr⟩, Decided (file.drop cur.index) := by
  constructor
  · intro h
    have hle : ∀ cur ∈ calls (source fresh file) fuel ⟨0, line, chr⟩, cur.index ≤ file.length :=
      calls_invariant (fun cur => cur.index ≤ file.length) (Nat.zero_le _) fun cur hcur _ => (h cur hcur).source
    exact fun cur hcur => (XmlTok_inBounds_iff fresh (hle cur hcur)).mp (h cur hcur)
  · exact inBounds_of_decided

/-- A buffer that is the byte `<`: the first call reads at `length`. -/
theorem open_at_the_end_is_read_past :
    ¬ ∀ (fresh : Nat → Nat → UInt8) (file : Bytes) (fuel : Nat), ∀ cur ∈ calls (source fresh file) fuel ⟨0, 1, 1⟩,
      InBounds fresh file cur := by
  intro h
  have hfirst : (⟨0, 1, 1⟩ : Cursor) ∈ calls (source (fun _ _ => 0) [0x3C]) 1 ⟨0, 1, 1⟩ := List.mem_cons_self
  obtain ⟨r, hr, -⟩ := h (fun _ _ => 0) [0x3C] 1 _ hfirst
  have hfault : XmlTok (fun _ _ => 0) [0x3C] 2 ⟨0, 1, 1⟩ = fault := by decide
  cases hr.symm.trans hfault

end Rodvin.Kernel.XmlTokens
