/-
  Rodvin.Libc.FormatScan — how `printf` reads its format (see `Rodvin.Libc.Printf`).

  A format is a list of bytes that stand for themselves and of conversion specifications:
  `%`, a zero or a blank, a digit, and a conversion character, of which the second and the
  third may be missing (`parse`). `printf` writes what the items give, in their order,
  exactly when no specification is cut short by the end of the format
  (`printf_scans_iff`): there it takes the terminator for the conversion character and
  reads on behind it.
-/

import Rodvin.Libc.PrintfNumbers

namespace Rodvin.Libc.Printf

open Rodvin.Lib

/-! ## Formats -/

inductive Item where
  | byte (c : UInt8)
  | conversion (fill : UInt8) (minLen : Nat) (c : UInt8)
  deriving DecidableEq, Repr

/-- Where in a format the next byte stands: in the text, behind `%`, behind the fill character, or
    behind the width. -/
inductive Scan where
  | text
  | percent
  | filled (fill : UInt8)
  | sized (fill : UInt8) (minLen : Nat)
  deriving DecidableEq, Repr

def Scan.sizedStep (fill : UInt8) (minLen : Nat) (c : UInt8) : Option Item × Scan :=
  (some (.conversion fill minLen c), .text)

def Scan.filledStep (fill c : UInt8) : Option Item × Scan :=
  if IsDigit c then (none, .sized fill (c - 0x30).toNat) else sizedStep fill 1 c

def Scan.step : Scan → UInt8 → Option Item × Scan
  | .text, c => if c = 0x25 then (none, .percent) else (some (.byte c), .text)
  | .percent, c =>
    if c = 0x30 then (none, .filled 0x30)
    else if c = 0x20 then (none, .filled 0x20)
    else filledStep 0x30 c
  | .filled fill, c => filledStep fill c
  | .sized fill minLen, c => sizedStep fill minLen c

/-- The items of a format, and where its end stands. -/
def parse : Scan → Bytes → List Item × Scan
  | s, [] => ([], s)
  | s, c :: cs => ((s.step c).1.toList ++ (parse (s.step c).2 cs).1, (parse (s.step c).2 cs).2)

/-- No specification is cut short by the end. -/
def Complete (fmt : Bytes) : Prop := (parse .text fmt).2 = .text

instance (fmt : Bytes) : Decidable (Complete fmt) := inferInstanceAs (Decidable (_ = _))

/-- The arguments that the items take, each of the type that its conversion reads. -/
def Matches : List Item → List Arg → Prop
  | [], _ => True
  | .byte _ :: items, args => Matches items args
  | .conversion _ _ c :: items, args =>
    if c = 0x75 then match args with
      | .uint32 _ :: args => Matches items args
      | _ => False
    else if c = 0x64 then match args with
      | .int32 _ :: args => Matches items args
      | _ => False
    else if c = 0x58 ∨ c = 0x70 then match args with
      | .uint64 _ :: args => Matches items args
      | _ => False
    else if c = 0x63 then match args with
      | .int _ :: args => Matches items args
      | _ => False
    else if c = 0x73 then match args with
      | .str p :: args => 0 ∈ p ∧ Matches items args
      | _ => False
    else Matches items args

/-- What the items give, one after the other. -/
def render (stack : Nat → UInt8) : List Item → List Arg → Checked Bytes
  | [], _ => pure []
  | .byte c :: items, args => do return c :: (← render stack items args)
  | .conversion fill minLen c :: items, args => do
    let (converted, args) ← convert stack fill minLen c args
    return converted ++ (← render stack items args)

/-- A text for each item, in their order; a byte is its own text. -/
def Emits (items : List Item) (out : Bytes) : Prop :=
  ∃ texts, List.Forall₂ (fun item text => ∀ c, item = Item.byte c → text = [c]) items texts ∧ out = texts.flatten

/-- `printf` stays inside the format, returns, and emits every byte outside the specifications
    once and in order. -/
def Scans (stack : Nat → UInt8) (fmt : Bytes) (args : List Arg) : Prop :=
  ∃ out, printf stack (fmt ++ [0]) args = .ok out ∧ Emits (parse .text fmt).1 out

/-! ## One specification -/

variable {stack : Nat → UInt8} {b q rest : Bytes} {start len minLen i : Nat} {fill c : UInt8} {args : List Arg}

/-- From `start` on the buffer holds `q` and its terminator. -/
def Stands (b : Bytes) (start : Nat) (q : Bytes) : Prop := b.drop start = q ++ [0] ∧ 0 ∉ q

theorem Stands.read_nil (h : Stands b start []) : Lib.read b start = .ok 0 := by
  refine read_of_some ?_
  rw [← List.head?_drop, h.1]
  rfl

theorem Stands.read_cons (h : Stands b start (c :: q)) : Lib.read b start = .ok c := by
  refine read_of_some ?_
  rw [← List.head?_drop, h.1]
  rfl

theorem Stands.tail (h : Stands b start (c :: q)) : Stands b (start + 1) q := by
  refine ⟨?_, fun hm => h.2 (List.mem_cons_of_mem c hm)⟩
  rw [← List.drop_drop, h.1]
  rfl

theorem Stands.length (h : Stands b start q) : b.length = start + q.length + 1 := by
  have hlen := congrArg List.length h.1
  simp only [List.length_drop, List.length_append, List.length_singleton] at hlen
  omega

/-- How the scan of a specification ends: behind its conversion character, or behind the buffer. -/
def Scanned (b q : Bytes) (items : List Item × Scan) (r : UInt8 × Nat × UInt8 × Nat) : Prop :=
  (∃ rest, Stands b r.2.2.2 rest ∧ rest.length < q.length ∧
    items = (.conversion r.1 r.2.1 r.2.2.1 :: (parse .text rest).1, (parse .text rest).2)) ∨
  (r.2.2.2 = b.length ∧ r.2.2.1 = 0 ∧ items.2 ≠ .text)

theorem scan_sized (h : Stands b start q) (fill : UInt8) (minLen : Nat) :
    ∃ c, Lib.read b start = .ok c ∧ Scanned b q (parse (.sized fill minLen) q) (fill, minLen, c, start + 1) := by
  cases q with
  | nil => exact ⟨0, h.read_nil, .inr ⟨by simp [h.length], rfl, nofun⟩⟩
  | cons c q => exact ⟨c, h.read_cons, .inl ⟨q, h.tail, Nat.lt_succ_self _, rfl⟩⟩

theorem Scanned.longer {q' : Bytes} {items : List Item × Scan} {r : UInt8 × Nat × UInt8 × Nat}
    (h : Scanned b q items r) (hle : q.length ≤ q'.length) : Scanned b q' items r := by
  rcases h with ⟨rest, hs, hlt, he⟩ | h
  · exact .inl ⟨rest, hs, Nat.lt_of_lt_of_le hlt hle, he⟩
  · exact .inr h

/-- A byte that is not consumed is what the next test reads. -/
theorem parse_filled (hc : ¬ IsDigit c) : parse (.filled fill) (c :: q) = parse (.sized fill 1) (c :: q) := by
  simp [parse, Scan.step, Scan.filledStep, hc]

theorem parse_percent (h0 : c ≠ 0x30) (h1 : c ≠ 0x20) : parse .percent (c :: q) = parse (.filled 0x30) (c :: q) := by
  simp [parse, Scan.step, h0, h1]

theorem scan_filled (h : Stands b start q) (fill : UInt8) :
    ∃ minLen start' c, scanWidth b start = .ok (minLen, start') ∧ Lib.read b start' = .ok c ∧
      Scanned b q (parse (.filled fill) q) (fill, minLen, c, start' + 1) := by
  cases q with
  | nil =>
    refine ⟨1, start, 0, ?_, h.read_nil, .inr ⟨by simp [h.length], rfl, nofun⟩⟩
    rw [scanWidth, ok_bind h.read_nil]
    rfl
  | cons c q =>
    by_cases hc : IsDigit c
    · obtain ⟨d, hd, hs⟩ := scan_sized h.tail fill (c - 0x30).toNat
      refine ⟨(c - 0x30).toNat, start + 1, d, ?_, hd, ?_⟩
      · rw [scanWidth, ok_bind h.read_cons]
        exact if_pos hc
      · have hp : parse (.filled fill) (c :: q) = parse (.sized fill (c - 0x30).toNat) q := by
          simp [parse, Scan.step, Scan.filledStep, hc]
        rw [hp]
        exact hs.longer (Nat.le_succ _)
    · obtain ⟨d, hd, hs⟩ := scan_sized h fill 1
      refine ⟨1, start, d, ?_, hd, by rwa [parse_filled hc]⟩
      rw [scanWidth, ok_bind h.read_cons]
      exact if_neg hc

theorem scanFill_cases (h : Stands b start q) :
    ∃ fill start' q', scanFill b start = .ok (fill, start') ∧ Stands b start' q' ∧
    q'.length ≤ q.length ∧ (parse .percent q = parse (.filled fill) q' ∨ q = [] ∧ q' = []) := by
  cases q with
  | nil =>
    refine ⟨0x30, start, [], ?_, h, Nat.le_refl _, .inr ⟨rfl, rfl⟩⟩
    rw [scanFill, ok_bind h.read_nil]
    rfl
  | cons c q =>
    by_cases h0 : c = 0x30
    · refine ⟨0x30, start + 1, q, ?_, h.tail, Nat.le_succ _, .inl ?_⟩
      · rw [scanFill, ok_bind h.read_cons]
        exact if_pos h0
      · simp [parse, Scan.step, h0]
    · by_cases h1 : c = 0x20
      · refine ⟨0x20, start + 1, q, ?_, h.tail, Nat.le_succ _, .inl ?_⟩
        · rw [scanFill, ok_bind h.read_cons]
          exact (if_neg h0).trans (if_pos h1)
        · simp [parse, Scan.step, h1]
      · refine ⟨0x30, start, c :: q, ?_, h, Nat.le_refl _, .inl (parse_percent h0 h1)⟩
        rw [scanFill, ok_bind h.read_cons]
        exact (if_neg h0).trans (if_neg h1)

theorem scanSpec_scanned (h : Stands b start q) : ∃ r, scanSpec b start = .ok r ∧ Scanned b q (parse .percent q) r := by
  obtain ⟨fill, start1, q', hfill, hs, hle, hp⟩ := scanFill_cases h
  obtain ⟨minLen, start2, c, hwidth, hread, hscan⟩ := scan_filled hs fill
  refine ⟨(fill, minLen, c, start2 + 1), ?_, ?_⟩
  · rw [scanSpec, ok_bind hfill]
    simp only
    rw [ok_bind hwidth]
    simp only
    rw [ok_bind hread]
    rfl
  · rcases hp with hp | ⟨rfl, rfl⟩
    · rw [hp]
      exact hscan.longer hle
    · rcases hscan with ⟨rest, _, hlt, _⟩ | ⟨hend, hc, _⟩
      · exact absurd hlt (Nat.not_lt_zero _)
      · exact .inr ⟨hend, hc, nofun⟩

/-! ## The loop -/

theorem drawText_eq (h : start + len ≤ b.length) : drawText b start len = .ok ((b.drop start).take len) := if_pos h

/-- Behind the buffer the loop faults. -/
theorem printfFrom_behind {fuel : Nat} {out : Bytes} (h : b.length ≤ start + len) :
    printfFrom stack b fuel start len args ≠ .ok out := by
  intro he
  cases fuel with
  | zero => exact nomatch he
  | succ fuel =>
    obtain ⟨c, hc, -⟩ := bind_eq_ok.mp he
    unfold Lib.read at hc
    rw [List.getElem?_eq_none h] at hc
    exact nomatch hc

/-- From a place in the text, the loop gives the bytes it has passed and what the items give. -/
theorem printfFrom_iff : ∀ {fuel start len : Nat} {q : Bytes} {args : List Arg} {out : Bytes},
    Stands b (start + len) q → q.length < fuel → (printfFrom stack b fuel start len args = .ok out ↔
      (parse .text q).2 = .text ∧
        ∃ r, render stack (parse .text q).1 args = .ok r ∧ out = (b.drop start).take len ++ r) := by
  intro fuel
  induction fuel with
  | zero => exact fun _ h => absurd h (Nat.not_lt_zero _)
  | succ fuel ih =>
    intro start len q args out h hfuel
    have hdraw : drawText b start len = .ok ((b.drop start).take len) := drawText_eq (by have := h.length; omega)
    unfold printfFrom
    cases q with
    | nil =>
      rw [ok_bind h.read_nil, if_pos rfl, hdraw]
      constructor
      · intro he
        exact ⟨rfl, [], rfl, by rw [List.append_nil]; exact (Except.ok.inj he).symm⟩
      · intro ⟨_, r, hr, he⟩
        obtain rfl : [] = r := Except.ok.inj hr
        rw [he, List.append_nil]
    | cons c q =>
      have hc0 : c ≠ 0 := fun e => h.2 (e ▸ List.mem_cons_self ..)
      rw [ok_bind h.read_cons, if_neg hc0]
      by_cases hc : c = 0x25
      · obtain ⟨⟨fill, minLen, d, start'⟩, hspec, hscan⟩ := scanSpec_scanned h.tail
        have hp : parse .text (c :: q) = parse .percent q := by simp [parse, Scan.step, hc]
        rw [if_pos hc, ok_bind hdraw, ok_bind hspec, hp]
        simp only
        rcases hscan with ⟨rest, hs, hlt, hitems⟩ | ⟨hend, rfl, hcut⟩
        · have hlt : rest.length < fuel := by
            simp only [List.length_cons] at hfuel hlt
            omega
          have hnext {args : List Arg} {out : Bytes} : printfFrom stack b fuel start' 0 args = .ok out ↔ _ := ih hs hlt
          rw [hitems, bind_eq_ok]
          constructor
          · intro ⟨⟨converted, args'⟩, hconv, hrest⟩
            obtain ⟨others, hothers, he⟩ := bind_eq_ok.mp hrest
            obtain ⟨hend, r, hr, ho⟩ := hnext.mp hothers
            refine ⟨hend, converted ++ r, ?_, ?_⟩
            · rw [render, ok_bind hconv]
              simp only
              rw [ok_bind hr]
              rfl
            · rw [← Except.ok.inj he, ho, List.take_zero, List.nil_append, List.append_assoc]
          · intro ⟨hend, r, hr, he⟩
            obtain ⟨⟨converted, args'⟩, hconv, hr⟩ := bind_eq_ok.mp hr
            obtain ⟨r', hr', hr⟩ := bind_eq_ok.mp hr
            refine ⟨(converted, args'), hconv, ?_⟩
            simp only
            rw [ok_bind (hnext.mpr ⟨hend, r', hr', rfl⟩), he, ← Except.ok.inj hr, List.take_zero, List.nil_append,
              ← List.append_assoc]
            rfl
        · -- the terminator was taken for the conversion character
          refine ⟨fun he => ?_, fun he => absurd he.1 hcut⟩
          obtain ⟨_, _, hrest⟩ := bind_eq_ok.mp he
          obtain ⟨others, hothers, -⟩ := bind_eq_ok.mp hrest
          exact absurd hothers (printfFrom_behind (by simp only at hend; omega))
      · rw [if_neg hc]
        have hs : Stands b (start + (len + 1)) q := h.tail
        have hp : parse .text (c :: q) = (.byte c :: (parse .text q).1, (parse .text q).2) := by
          simp [parse, Scan.step, hc]
        have htake : (b.drop start).take (len + 1) = (b.drop start).take len ++ [c] := by
          have hget : (b.drop start)[len]? = some c := by
            rw [List.getElem?_drop, ← List.head?_drop, h.1]
            rfl
          rw [List.take_add_one, hget]
          rfl
        rw [ih hs (by simp only [List.length_cons] at hfuel; omega), hp, htake]
        refine and_congr_right fun _ => ?_
        constructor
        · intro ⟨r, hr, he⟩
          exact ⟨c :: r, by rw [render, ok_bind hr]; rfl, by rw [he, List.append_assoc]; rfl⟩
        · intro ⟨r, hr, he⟩
          obtain ⟨r', hr', hr⟩ := bind_eq_ok.mp hr
          obtain rfl : c :: r' = r := Except.ok.inj hr
          exact ⟨r', hr', by rw [he, List.append_assoc]; rfl⟩

/-! ## The conversions -/

/-- A width has one digit. -/
def Item.Narrow : Item → Prop
  | .byte _ => True
  | .conversion _ minLen _ => minLen ≤ 9

/-- So has the width that the scan has read. -/
def Scan.Narrow : Scan → Prop
  | .sized _ minLen => minLen ≤ 9
  | _ => True

theorem IsDigit.le_nine (h : IsDigit c) : (c - 0x30).toNat ≤ 9 := by
  have h1 : 0x30 ≤ c.toNat := UInt8.le_iff_toNat_le.mp h.1
  have h2 : c.toNat ≤ 0x39 := UInt8.le_iff_toNat_le.mp h.2
  rw [UInt8.toNat_sub_of_le c 0x30 h.1]
  exact Nat.sub_le_of_le_add h2

theorem Scan.filledStep_narrow : (∀ item ∈ (filledStep fill c).1, item.Narrow) ∧ (filledStep fill c).2.Narrow := by
  unfold filledStep
  by_cases hc : IsDigit c
  · rw [if_pos hc]
    exact ⟨nofun, hc.le_nine⟩
  · rw [if_neg hc]
    refine ⟨?_, trivial⟩
    intro item h
    obtain rfl := Option.some.inj h
    exact show 1 ≤ 9 by decide

theorem Scan.step_narrow {s : Scan} (h : s.Narrow) (c : UInt8) :
    (∀ item ∈ (s.step c).1, item.Narrow) ∧ (s.step c).2.Narrow := by
  cases s with
  | text =>
    by_cases hc : c = 0x25
    · rw [step, if_pos hc]
      exact ⟨nofun, trivial⟩
    · rw [step, if_neg hc]
      refine ⟨?_, trivial⟩
      intro item hi
      obtain rfl := Option.some.inj hi
      trivial
  | percent =>
    by_cases h0 : c = 0x30
    · rw [step, if_pos h0]
      exact ⟨nofun, trivial⟩
    · by_cases h1 : c = 0x20
      · rw [step, if_neg h0, if_pos h1]
        exact ⟨nofun, trivial⟩
      · rw [step, if_neg h0, if_neg h1]
        exact filledStep_narrow
  | filled fill => exact filledStep_narrow
  | sized fill minLen =>
    refine ⟨?_, trivial⟩
    intro item hi
    obtain rfl := Option.some.inj hi
    exact h

theorem parse_narrow {s : Scan} (h : s.Narrow) : ∀ item ∈ (parse s q).1, item.Narrow := by
  induction q generalizing s with
  | nil => exact nofun
  | cons c q ih =>
    obtain ⟨hitem, hs⟩ := Scan.step_narrow h c
    intro item hm
    rcases List.mem_append.mp hm with hm | hm
    · exact hitem item (Option.mem_toList.mp hm)
    · exact ih hs item hm

theorem number_ok (negative : Bool) {radix val : Nat} (hr : 10 ≤ radix) (hv : val < 2 ^ 64) (hmin : minLen ≤ 9) :
    ∃ text, number stack radix fill minLen negative val = .ok text := by
  have hpow : 10 ^ 29 ≤ radix ^ 29 := Nat.pow_le_pow_left hr 29
  exact ⟨_, number_eq (by omega) (Nat.lt_of_lt_of_le (Nat.lt_trans hv (by decide)) hpow) hmin⟩

/-- A string argument is copied up to its terminator. -/
theorem drawText_strlen {p : Bytes} (h : 0 ∈ p) : ∃ len text, strlen p = .ok len ∧ drawText p 0 len = .ok text := by
  obtain ⟨len, hends⟩ := Ends.exists h
  have hlt : len < p.length := (List.getElem?_eq_some_iff.mp hends.1).1
  exact ⟨len, _, strlen_eq hends, drawText_eq (by omega)⟩

/-- A conversion with its argument. -/
theorem convert_ok {items : List Item} (hmin : minLen ≤ 9) (h : Matches (.conversion fill minLen c :: items) args) :
    ∃ text args', convert stack fill minLen c args = .ok (text, args') ∧ Matches items args' := by
  have h32 (x : UInt32) : x.toNat < 2 ^ 64 := Nat.lt_trans x.toNat_lt (by decide)
  unfold Matches at h
  unfold convert
  by_cases hu : c = 0x75
  · rw [if_pos hu] at h ⊢
    rcases args with _ | ⟨val | _ | _ | _ | _, args⟩
    case cons.uint32 =>
      obtain ⟨text, ht⟩ := number_ok false (Nat.le_refl 10) (h32 val) hmin
      exact ⟨text, args, by simp only; rw [ok_bind ht]; rfl, h⟩
    all_goals exact h.elim
  rw [if_neg hu] at h ⊢
  by_cases hd : c = 0x64
  · rw [if_pos hd] at h ⊢
    rcases args with _ | ⟨_ | ival | _ | _ | _, args⟩
    case cons.int32 =>
      obtain ⟨text, ht⟩ := number_ok (decide (ival < 0)) (Nat.le_refl 10) (h32 _) hmin
      exact ⟨text, args, by simp only; rw [ok_bind ht]; rfl, h⟩
    all_goals exact h.elim
  rw [if_neg hd] at h ⊢
  by_cases hx : c = 0x58 ∨ c = 0x70
  · rw [if_pos hx] at h ⊢
    rcases args with _ | ⟨_ | _ | val | _ | _, args⟩
    case cons.uint64 =>
      obtain ⟨text, ht⟩ := number_ok false (show 10 ≤ 16 by decide) val.toNat_lt hmin
      exact ⟨text, args, by simp only; rw [ok_bind ht]; rfl, h⟩
    all_goals exact h.elim
  rw [if_neg hx] at h ⊢
  by_cases hc : c = 0x63
  · rw [if_pos hc] at h ⊢
    rcases args with _ | ⟨_ | _ | _ | val | _, args⟩
    case cons.int => exact ⟨_, args, rfl, h⟩
    all_goals exact h.elim
  rw [if_neg hc] at h ⊢
  by_cases hs : c = 0x73
  · rw [if_pos hs] at h ⊢
    rcases args with _ | ⟨_ | _ | _ | _ | p, args⟩
    case cons.str =>
      obtain ⟨len, text, hlen, ht⟩ := drawText_strlen h.1
      exact ⟨text, args, by simp only; rw [ok_bind hlen, ok_bind ht]; rfl, h.2⟩
    all_goals exact h.elim
  rw [if_neg hs] at h ⊢
  exact ⟨[], args, rfl, h⟩

/-- With matching arguments every item gives its text, a byte itself. -/
theorem render_ok (stack : Nat → UInt8) {items : List Item} (hmin : ∀ item ∈ items, item.Narrow)
    (h : Matches items args) :
    ∃ r, render stack items args = .ok r ∧ Emits items r := by
  induction items generalizing args with
  | nil => exact ⟨[], rfl, [], .nil, rfl⟩
  | cons item items ih =>
    have hrest := fun item hm => hmin item (List.mem_cons_of_mem _ hm)
    cases item with
    | byte c =>
      obtain ⟨r, hr, texts, htexts, hout⟩ := ih hrest h
      refine ⟨c :: r, by rw [render, ok_bind hr]; rfl, [c] :: texts, .cons ?_ htexts, by rw [hout]; rfl⟩
      intro d hd
      rw [Item.byte.inj hd]
    | conversion fill minLen c =>
      obtain ⟨text, args', hconv, hargs⟩ := convert_ok (hmin _ (List.mem_cons_self ..)) h
      obtain ⟨r, hr, texts, htexts, hout⟩ := ih hrest hargs
      refine ⟨text ++ r, ?_, text :: texts, .cons nofun htexts, by rw [hout]; rfl⟩
      rw [render, ok_bind hconv]
      simp only
      rw [ok_bind hr]
      rfl

theorem stands_format {fmt : Bytes} (h : 0 ∉ fmt) : Stands (fmt ++ [0]) (0 + 0) fmt := ⟨rfl, h⟩

/-! ## The format -/

/-- With matching arguments `printf` stays inside the format, returns, and emits every byte outside
    the specifications once and in order, exactly when the format does not end inside one. -/
theorem printf_scans_iff (stack : Nat → UInt8) (fmt : Bytes) (args : List Arg) (hfmt : 0 ∉ fmt)
    (hargs : Matches (parse .text fmt).1 args) : Scans stack fmt args ↔ Complete fmt := by
  have hloop {out : Bytes} : printf stack (fmt ++ [0]) args = .ok out ↔ _ :=
    printfFrom_iff (stands_format hfmt) (by rw [List.length_append]; exact Nat.lt_succ_of_lt (Nat.lt_succ_self _))
  constructor
  · intro ⟨out, hout, _⟩
    exact (hloop.mp hout).1
  · intro hcomplete
    obtain ⟨r, hr, hemits⟩ := render_ok stack (parse_narrow (s := .text) trivial) hargs
    exact ⟨r, hloop.mpr ⟨hcomplete, r, hr, rfl⟩, hemits⟩

theorem printf_scans_text_and_number : Scans (fun _ => 0) [0x25, 0x75, 0x21] [.uint32 7] ↔
    Complete [0x25, 0x75, 0x21] :=
  printf_scans_iff _ _ _ (by decide) trivial

/-- `printf("%")` takes the terminator for the conversion character and reads behind the format. -/
theorem lone_percent_reads_behind_the_format : ¬ ∀ stack fmt args, 0 ∉ fmt → Matches (parse .text fmt).1 args →
    Scans stack fmt args := by
  intro h
  obtain ⟨out, hout, -⟩ := h (fun _ => 0) [0x25] [] (by decide) trivial
  exact nomatch hout

end Rodvin.Libc.Printf
