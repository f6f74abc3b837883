/-
  Rodvin.Kernel.Typing — from the bytes of the keyboard to the shell's queue
  (`kernel/src/x8664/ps2keyboard.cpp`, `kernel/src/common/Keyboard.cpp`, `Qwerty.cpp`).

  An interrupt brings a byte to `PS2Keyboard::onInterrupt`; a scan code that is complete goes
  on to `Keyboard::onInput`. Turns of the shell come between the interrupts, anywhere. Above
  this a key is down when the last event about it was its make, and a make types what the
  layout has for the keys that are down (`typed`).

  (1) `produced_is_typed`: in every run the keys held to be down and the code points produced
      are those of the events whose bytes have all come; the layout is never read past its
      table (`qwerty_eq`).
  (2) `text_is_typed`: `typing` gives for a text of printable characters the events of a
      typist, and what these produce is the text. As long as the shell takes its turns only
      with a key waiting, it is also what the shell was handed and what is queued.
-/

import Mathlib.Data.Nat.Bitwise
import Rodvin.Kernel.Keyboard
import Rodvin.Kernel.Ps2Keyboard

namespace Rodvin.Kernel.Typing

open Rodvin.Lib Rodvin.Libc
open Rodvin.Kernel.Keyboard (Layout qwerty mapping cells toupper press codePoint onInput)
open Rodvin.Kernel.Ps2Keyboard (Event Key ScanCodesTable ScanCodesTableE0 feed released)

/-! ## The two devices -/

structure St where
  ps2 : Ps2Keyboard.St
  keyboard : Keyboard.St

inductive Ev where
  | interrupt (status data : UInt8)
  | turn (junk : UInt8)

def boot (buffer : Nat → UInt8) : St := ⟨⟨buffer, 0⟩, Keyboard.init⟩

def apply (layout : Layout) (s : St) : Ev → Option St
  | .interrupt status data => do
    let r ← Ps2Keyboard.onInterrupt s.ps2 status data
    let keyboard ← r.2.foldlM (onInput layout) s.keyboard
    return ⟨r.1, keyboard⟩
  | .turn junk => do
    let keyboard ← Keyboard.run s.keyboard junk
    return { s with keyboard := keyboard }

def Step (layout : Layout) (s : St) (e : Ev) (t : St) : Prop := apply layout s e = some t

/-- What is read from the data port: nothing unless the status says that a byte is there. -/
def Ev.bytes : Ev → List UInt8
  | .interrupt status data => if status &&& 1 = 0 then [] else [data]
  | .turn _ => []

/-- A key that goes into the queue fits it, and a turn finds one waiting. -/
def StepOk (layout : Layout) (s : St) : Ev → Prop
  | .interrupt status data =>
    ∀ r ∈ Ps2Keyboard.onInterrupt s.ps2 status data, ∀ sc ∈ r.2, Keyboard.StepOk layout s.keyboard (.input sc)
  | .turn junk => Keyboard.StepOk layout s.keyboard (.run junk)

instance (layout : Layout) (s : St) (ev : Ev) : Decidable (StepOk layout s ev) :=
  match ev with
  | .interrupt status data => inferInstanceAs (Decidable
      (∀ r ∈ Ps2Keyboard.onInterrupt s.ps2 status data, ∀ sc ∈ r.2, Keyboard.StepOk layout s.keyboard (.input sc)))
  | .turn junk => inferInstanceAs (Decidable (Keyboard.StepOk layout s.keyboard (.run junk)))

def OkStep (layout : Layout) (s : St) (e : Ev) (t : St) : Prop := StepOk layout s e ∧ Step layout s e t

/-! ## What the keys type -/

/-- The key of an event, by its code. -/
def keyOf : Event → Nat
  | .make k => k.code
  | .break_ k => k.code
  | .makeE0 k => k.code
  | .breakE0 k => k.code
  | .pauseMake => ScanCodes.Pause.code
  | .pauseBreak => ScanCodes.Pause.code

def isMake : Event → Bool
  | .make _ => true
  | .makeE0 _ => true
  | .pauseMake => true
  | _ => false

/-- The last event about the key was its make. -/
def down (es : List Event) (k : Nat) : Bool := ((es.filter fun e => keyOf e == k).getLast?).any isMake

/-- What the layout has for a key; nothing behind its last row. -/
def symbol (k : Nat) (shifted altgr : Bool) : Nat :=
  ((mapping.getD k []).getD (altgr.toNat * 2 + shifted.toNat) '\x00').toNat

/-- Shift makes a letter a capital. -/
def printed (k : Nat) (shifted altgr : Bool) : Nat :=
  if shifted then toupper (symbol k shifted altgr) else symbol k shifted altgr

def stroke (es : List Event) (e : Event) : List Nat :=
  let keys := down (es ++ [e])
  let c := printed (keyOf e) (keys ScanCodes.ShiftLeft.code || keys ScanCodes.ShiftRight.code)
    (keys ScanCodes.AltRight.code)
  if isMake e = true ∧ c ≠ 0 then [c] else []

/-- What the events type behind the ones before them. -/
def typedFrom (es : List Event) : List Event → List Nat
  | [] => []
  | e :: rest => stroke es e ++ typedFrom (es ++ [e]) rest

def typed (es : List Event) : List Nat := typedFrom [] es

variable {past : Nat} {layout : Layout} {s t : St} {k k' : Keyboard.St} {es fs : List Event} {e : Event} {evs : List Ev}
  {sc : Nat} {scs : List Nat} {bs cs : List UInt8}

@[simp] theorem keyOf_make (k : Key ScanCodesTable) : keyOf (.make k) = k.code := rfl
@[simp] theorem keyOf_break (k : Key ScanCodesTable) : keyOf (.break_ k) = k.code := rfl

theorem down_concat (es : List Event) (e : Event) (k : Nat) :
    down (es ++ [e]) k = if keyOf e = k then isMake e else down es k := by
  unfold down
  rw [List.filter_append]
  by_cases h : keyOf e = k
  · simp [h]
  · simp [h]

/-! ## The tables -/

/-- A key's code leaves the highest bit free. -/
theorem tables_agree :
    cells.length = 272 ∧ mapping.length = 68 ∧ (∀ row ∈ mapping, row.length = 4) ∧
    (∀ sc ∈ ScanCodesTable, sc.code < 2 ^ 15) ∧ (∀ sc ∈ ScanCodesTableE0, sc.code < 2 ^ 15) := by
  decide +kernel

theorem getElem?_flatten {rows : List (List Char)} (h : ∀ row ∈ rows, row.length = 4) (k : Nat) {i : Nat} (hi : i < 4) :
    rows.flatten[k * 4 + i]? = (rows[k]?).bind fun row => row[i]? := by
  induction rows generalizing k with
  | nil => rfl
  | cons row rows ih =>
    obtain ⟨hrow, hrows⟩ := List.forall_mem_cons.mp h
    rw [List.flatten_cons]
    cases k with
    | zero =>
      rw [Nat.zero_mul, Nat.zero_add, List.getElem?_append_left (by omega)]
      rfl
    | succ k =>
      rw [List.getElem?_append_right (by omega), show (k + 1) * 4 + i - row.length = k * 4 + i by omega, ih hrows]
      rfl

/-- Each row has its place in the table. -/
theorem cells_place {k i : Nat} (hi : i < 4) (past : Nat) (hk : k < 68) :
    cells.getD (k * 4 + i) past = ((mapping.getD k []).getD i '\x00').toNat := by
  obtain ⟨-, hrows, hfour, -⟩ := tables_agree
  have hlt : k < mapping.length := by omega
  have hlen := hfour _ (List.getElem_mem hlt)
  unfold cells
  simp only [List.getD_eq_getElem?_getD, List.getElem?_map, getElem?_flatten hfour k hi, List.getElem?_eq_getElem hlt,
    Option.bind_some, List.getElem?_eq_getElem (hlen.symm ▸ hi), Option.map_some, Option.getD_some]

theorem column_lt (shifted altgr : Bool) : altgr.toNat * 2 + shifted.toNat < 4 := by
  cases shifted <;> cases altgr <;> decide

/-- There is no row for the shift keys and those behind them. -/
theorem symbol_past (h : ScanCodes.ShiftLeft.code ≤ sc) (shifted altgr : Bool) : symbol sc shifted altgr = 0 := by
  have hnone : mapping[sc]? = none := List.getElem?_eq_none (Nat.le_trans (Nat.le_of_eq tables_agree.2.1) h)
  unfold symbol
  rw [show mapping.getD sc [] = [] by rw [List.getD_eq_getElem?_getD, hnone]; rfl]
  rfl

/-- The check lets one index through that is past the table. No key leads there: it would be
    the left shift key, which is down when it is looked up. -/
theorem qwerty_eq {shifted altgr : Bool} (h : sc = ScanCodes.ShiftLeft.code → shifted = true) :
    qwerty past sc shifted altgr = symbol sc shifted altgr := by
  obtain ⟨hcells, -⟩ := tables_agree
  have hcol := column_lt shifted altgr
  unfold qwerty
  dsimp only
  rw [hcells]
  by_cases hk : sc < 68
  · rw [if_neg (by omega), Nat.add_assoc, cells_place hcol past hk]
    rfl
  · have hpast : 272 < sc * 4 + altgr.toNat * 2 + shifted.toNat := by
      by_cases hs : sc = 68
      · rw [hs, h hs]
        have hone : true.toNat = 1 := rfl
        omega
      · omega
    rw [if_pos hpast, symbol_past (Nat.le_of_not_lt hk)]

theorem keyOf_lt (e : Event) : keyOf e < 2 ^ 15 := by
  obtain ⟨-, -, -, h, h0⟩ := tables_agree
  have key {table : List ScanCodes} (ht : ∀ sc ∈ table, sc.code < 2 ^ 15) (k : Key table) :
      k.code < 2 ^ 15 := by
    obtain ⟨sc, hsc, -⟩ := k.known
    have hcode : k.code = sc.code := by
      unfold Key.code Ps2Keyboard.lookup
      rw [hsc]
      rfl
    rw [hcode]
    exact ht sc (List.mem_of_getElem? hsc)
  cases e with
  | make k => exact key h k
  | break_ k => exact key h k
  | makeE0 k => exact key h0 k
  | breakE0 k => exact key h0 k
  | pauseMake => decide
  | pauseBreak => decide

/-! ## One event -/

/-- The fields that the turns leave alone, after a scan code. -/
def tap (layout : Layout) (k : Keyboard.St) (sc : Nat) : Keyboard.St :=
  { k with
    keys := press k sc
    produced := k.produced ++
      if sc &&& ScanCodes.KeyReleased = 0 ∧ codePoint layout k sc ≠ 0 then [codePoint layout k sc] else [] }

/-- The two agree but for the queue and what went through it. -/
def Same (k k' : Keyboard.St) : Prop := k.keys = k'.keys ∧ k.produced = k'.produced

theorem Same.tap (h : Same k k') (sc : Nat) : Same (tap layout k sc) (tap layout k' sc) := by
  obtain ⟨hkeys, hproduced⟩ := h
  have hpress : press k sc = press k' sc := by unfold press; rw [hkeys]
  have hcode : codePoint layout k sc = codePoint layout k' sc := by unfold codePoint; rw [hpress]
  refine ⟨hpress, ?_⟩
  unfold Typing.tap
  rw [hcode, hproduced]

theorem same_foldl (h : Same k k') (scs : List Nat) : Same (scs.foldl (tap layout) k) (scs.foldl (tap layout) k') := by
  induction scs generalizing k k' with
  | nil => exact h
  | cons sc scs ih => exact ih (h.tap sc)

theorem same_onInput (h : onInput layout k sc = some k') : Same k' (tap layout k sc) := by
  unfold onInput at h
  dsimp only at h
  split at h
  next hr =>
    obtain rfl := Option.some.inj h
    refine ⟨rfl, ?_⟩
    unfold tap
    rw [if_neg (fun hc => hr hc.1), List.append_nil]
  next hr =>
    have hr := not_not.mp hr
    split at h
    next hc =>
      obtain ⟨d, -, hd⟩ := Option.bind_eq_some_iff.mp h
      obtain rfl := Option.some.inj hd
      refine ⟨rfl, ?_⟩
      unfold tap
      rw [if_pos ⟨hr, hc⟩]
    next hc =>
      obtain rfl := Option.some.inj h
      refine ⟨rfl, ?_⟩
      unfold tap
      rw [if_neg (fun h => hc h.2), List.append_nil]

theorem same_foldlM (h : scs.foldlM (onInput layout) k = some k') : Same k' (scs.foldl (tap layout) k) := by
  induction scs generalizing k with
  | nil =>
    obtain rfl := Option.some.inj h
    exact ⟨rfl, rfl⟩
  | cons sc scs ih =>
    rw [List.foldlM_cons] at h
    obtain ⟨k1, h1, h2⟩ := Option.bind_eq_some_iff.mp h
    have hrest := ih h2
    have hfirst : Same (scs.foldl (tap layout) k1) _ := same_foldl (same_onInput h1) scs
    exact ⟨hrest.1.trans hfirst.1, hrest.2.trans hfirst.2⟩

theorem same_turn {junk : UInt8} (h : Keyboard.run k junk = some k') : Same k' k := by
  obtain ⟨d, -, hd⟩ := Option.bind_eq_some_iff.mp h
  obtain rfl := Option.some.inj hd
  exact ⟨rfl, rfl⟩

/-- `keys` holds which keys are down after these events. -/
def Tracks (k : Keyboard.St) (es : List Event) : Prop := ∀ i < 2 ^ 15, k.keys i = down es i

theorem released_spec {c : Nat} (h : c < 2 ^ 15) :
    released c &&& 0x7FFF = c ∧ released c &&& ScanCodes.KeyReleased ≠ 0 ∧
    c &&& 0x7FFF = c ∧ c &&& ScanCodes.KeyReleased = 0 := by
  have hor : released c = 2 ^ 15 + c := by
    unfold released
    rw [Nat.or_comm, show ScanCodes.KeyReleased = 2 ^ 15 * 1 from rfl, ← Nat.two_pow_add_eq_or_of_lt h,
      Nat.mul_one]
  have hlow : ∀ x, x &&& 0x7FFF = x % 2 ^ 15 := fun x => Nat.and_two_pow_sub_one_eq_mod x 15
  have hbit : ∀ x, x &&& ScanCodes.KeyReleased = 0 ↔ x.testBit 15 = false := by
    intro x
    rw [show ScanCodes.KeyReleased = 2 ^ 15 from rfl, Nat.and_two_pow]
    cases x.testBit 15 <;> decide
  refine ⟨?_, ?_, ?_, ?_⟩
  · rw [hlow, hor, Nat.add_mod_left, Nat.mod_eq_of_lt h]
  · rw [ne_eq, hbit, hor, Nat.testBit_two_pow_add_eq, Nat.testBit_lt_two_pow h]
    decide
  · rw [hlow, Nat.mod_eq_of_lt h]
  · rw [hbit, Nat.testBit_lt_two_pow h]

/-- A scan code that is an event's marks its key and types its stroke. -/
theorem tap_event (past : Nat) (h : Tracks k es) (e : Event) :
    Tracks (tap (qwerty past) k e.input) (es ++ [e]) ∧
    (tap (qwerty past) k e.input).produced = k.produced ++ stroke es e := by
  obtain ⟨hrk, hrr, hmk, hmr⟩ := released_spec (keyOf_lt e)
  have hinput : (e.input &&& 0x7FFF = keyOf e) ∧
      (isMake e = true → e.input = keyOf e) ∧ ((e.input &&& ScanCodes.KeyReleased == 0) = isMake e) := by
    cases e with
    | make k => exact ⟨hmk, fun _ => rfl, beq_iff_eq.mpr hmr⟩
    | break_ k => exact ⟨hrk, nofun, beq_eq_false_iff_ne.mpr hrr⟩
    | makeE0 k => exact ⟨hmk, fun _ => rfl, beq_iff_eq.mpr hmr⟩
    | breakE0 k => exact ⟨hrk, nofun, beq_eq_false_iff_ne.mpr hrr⟩
    | pauseMake => exact ⟨hmk, fun _ => rfl, beq_iff_eq.mpr hmr⟩
    | pauseBreak => exact ⟨hrk, nofun, beq_eq_false_iff_ne.mpr hrr⟩
  obtain ⟨hcode, hmake, hrel⟩ := hinput
  have hpress : ∀ i < 2 ^ 15, press k e.input i = down (es ++ [e]) i := by
    intro i hi
    unfold press
    rw [hcode, hrel, down_concat, Function.update_apply]
    by_cases he : keyOf e = i
    · rw [if_pos he.symm, if_pos he]
    · rw [if_neg (Ne.symm he), if_neg he]
      exact h i hi
  refine ⟨hpress, ?_⟩
  unfold tap stroke
  dsimp only
  congr 1
  have hdown (i : Nat) (hi : i < 2 ^ 15) := hpress i hi
  by_cases hm : isMake e = true
  · have hshift : keyOf e = ScanCodes.ShiftLeft.code →
        (down (es ++ [e]) ScanCodes.ShiftLeft.code || down (es ++ [e]) ScanCodes.ShiftRight.code) = true := by
      intro hk
      rw [down_concat, if_pos hk, hm]
      rfl
    have hpoint : codePoint (qwerty past) k e.input = printed (keyOf e)
        (down (es ++ [e]) ScanCodes.ShiftLeft.code || down (es ++ [e]) ScanCodes.ShiftRight.code)
        (down (es ++ [e]) ScanCodes.AltRight.code) := by
      unfold codePoint printed
      dsimp only
      rw [hdown _ (by decide), hdown _ (by decide), hdown _ (by decide), hmake hm, qwerty_eq hshift]
    rw [hpoint, hm]
    rw [hm, beq_iff_eq] at hrel
    simp only [hrel, true_and]
  · have hm := Bool.eq_false_iff.mpr hm
    rw [hm, beq_eq_false_iff_ne] at hrel
    rw [hm, if_neg (fun hc => hrel hc.1), if_neg (fun hc => Bool.false_ne_true hc.1)]

theorem tap_events (past : Nat) (h : Tracks k es) (fs : List Event) :
    Tracks ((fs.map Event.input).foldl (tap (qwerty past)) k) (es ++ fs) ∧
    ((fs.map Event.input).foldl (tap (qwerty past)) k).produced = k.produced ++ typedFrom es fs := by
  induction fs generalizing k es with
  | nil => exact ⟨by rwa [List.append_nil], (List.append_nil _).symm⟩
  | cons e fs ih =>
    obtain ⟨h1, h2⟩ := tap_event past h e
    obtain ⟨h3, h4⟩ := ih h1
    rw [List.append_assoc] at h3
    refine ⟨h3, h4.trans ?_⟩
    rw [h2, List.append_assoc]
    rfl

/-! ## Runs -/

/-- What `feed` has said of a part of the bytes it says first of all of them. -/
theorem feed_append (p : Ps2Keyboard.St) (bs cs : List UInt8) :
    feed p (bs ++ cs) = (feed p bs).bind fun r => (feed r.1 cs).map fun q => (q.1, r.2 ++ q.2) := by
  induction bs generalizing p with
  | nil => simp [feed]
  | cons b bs ih =>
    simp only [List.cons_append, feed, ih]
    cases Ps2Keyboard.onInterrupt p 1 b with
    | none => rfl
    | some r =>
      cases h : feed r.1 bs with
      | none => simp [h]
      | some q => simp [h, Function.comp_def]

theorem onInterrupt_status {p : Ps2Keyboard.St} {status data : UInt8} :
    Ps2Keyboard.onInterrupt p status data = feed p (Ev.bytes (.interrupt status data)) := by
  have hbytes : Ev.bytes (.interrupt status data) = if status &&& 1 = 0 then [] else [data] := rfl
  by_cases h : status &&& 1 = 0
  · rw [hbytes, if_pos h]
    unfold Ps2Keyboard.onInterrupt
    rw [if_pos h]
    rfl
  · have hone : ¬ (1 : UInt8) &&& 1 = 0 := by decide
    rw [hbytes, if_neg h]
    unfold feed feed Ps2Keyboard.onInterrupt
    rw [if_neg h, if_neg hone]
    split
    · cases Ps2Keyboard.decode ⟨Function.update p.buffer p.offset data, p.offset + 1⟩ with
      | none => rfl
      | some r => simp
    · rfl

/-- A run feeds its bytes to the decoder and the scan codes to the keyboard. -/
theorem run_feeds (h : Run (Step layout) s evs t) :
    ∃ scs, feed s.ps2 (evs.flatMap Ev.bytes) = some (t.ps2, scs) ∧
      Same t.keyboard (scs.foldl (tap layout) s.keyboard) := by
  induction h with
  | nil s => exact ⟨[], rfl, rfl, rfl⟩
  | @cons s u t ev evs hs _ ih =>
    obtain ⟨scs, hfeed, hsame⟩ := ih
    rw [List.flatMap_cons, feed_append]
    cases ev with
    | interrupt status data =>
      obtain ⟨r, hr, hk⟩ := Option.bind_eq_some_iff.mp hs
      obtain ⟨k, hfold, hu⟩ := Option.bind_eq_some_iff.mp hk
      obtain rfl := Option.some.inj hu
      rw [← onInterrupt_status, hr, Option.bind_some, hfeed]
      refine ⟨r.2 ++ scs, rfl, ?_⟩
      have hfirst : Same (scs.foldl (tap layout) k) _ := same_foldl (same_foldlM hfold) scs
      rw [List.foldl_append]
      exact ⟨hsame.1.trans hfirst.1, hsame.2.trans hfirst.2⟩
    | turn junk =>
      obtain ⟨k, hk, hu⟩ := Option.bind_eq_some_iff.mp hs
      obtain rfl := Option.some.inj hu
      have hfirst : Same (scs.foldl (tap layout) k) _ := same_foldl (same_turn hk) scs
      refine ⟨scs, ?_, hsame.1.trans hfirst.1, hsame.2.trans hfirst.2⟩
      simp [Ev.bytes, feed, hfeed]

/-- The bytes of an event give no scan code until its last. -/
theorem feed_begun {p q : Ps2Keyboard.St} (hp : p.Idle) (hbs : bs <+: e.bytes) (hne : bs ≠ e.bytes)
    (h : feed p bs = some (q, scs)) : scs = [] := by
  have hnil {u v : Ps2Keyboard.St} {out : List Nat} (h : feed u [] = some (v, out)) : out = [] :=
    ((Prod.mk.inj (Option.some.inj h)).2).symm
  have hone {b : UInt8} (hb : b = 0xE0 ∨ b = 0xE1 ∨ b = 0xF0) :
      ∃ t, Ps2Keyboard.Holds t [b] ∧ ∀ cs, feed p (b :: cs) = feed t cs :=
    Ps2Keyboard.feed_waits (Ps2Keyboard.holds_nil.mpr hp) (by decide) b fun t ht => Ps2Keyboard.decode_prefix ht hb
  have htwo {b x : UInt8} (hb : b = 0xE0 ∧ x = 0xF0 ∨ b = 0xE1) : ∃ t, ∀ cs, feed p (b :: x :: cs) = feed t cs := by
    obtain ⟨t, ht, h1⟩ := hone (b := b) (hb.elim (fun h => .inl h.1) fun h => .inr (.inl h))
    obtain ⟨u, -, h2⟩ := Ps2Keyboard.feed_waits ht (by simp) x fun u hu => Ps2Keyboard.decode_two hu hb
    exact ⟨u, fun cs => (h1 _).trans (h2 cs)⟩
  cases e with
  | make k =>
    simp only [Event.bytes, List.prefix_cons_iff, List.prefix_nil] at hbs
    rcases hbs with rfl | ⟨_, rfl, rfl⟩
    · exact hnil h
    · exact absurd rfl hne
  | break_ k =>
    simp only [Event.bytes, List.prefix_cons_iff, List.prefix_nil] at hbs
    rcases hbs with rfl | ⟨_, rfl, rfl | ⟨_, rfl, rfl⟩⟩
    · exact hnil h
    · obtain ⟨t, -, ht⟩ := hone (b := 0xF0) (by decide)
      exact hnil ((ht _).symm.trans h)
    · exact absurd rfl hne
  | makeE0 k =>
    simp only [Event.bytes, List.prefix_cons_iff, List.prefix_nil] at hbs
    rcases hbs with rfl | ⟨_, rfl, rfl | ⟨_, rfl, rfl⟩⟩
    · exact hnil h
    · obtain ⟨t, -, ht⟩ := hone (b := 0xE0) (by decide)
      exact hnil ((ht _).symm.trans h)
    · exact absurd rfl hne
  | breakE0 k =>
    simp only [Event.bytes, List.prefix_cons_iff, List.prefix_nil] at hbs
    rcases hbs with rfl | ⟨_, rfl, rfl | ⟨_, rfl, rfl | ⟨_, rfl, rfl⟩⟩⟩
    · exact hnil h
    · obtain ⟨t, -, ht⟩ := hone (b := 0xE0) (by decide)
      exact hnil ((ht _).symm.trans h)
    · obtain ⟨t, ht⟩ := htwo (b := 0xE0) (x := 0xF0) (by decide)
      exact hnil ((ht _).symm.trans h)
    · exact absurd rfl hne
  | pauseMake =>
    simp only [Event.bytes, List.prefix_cons_iff, List.prefix_nil] at hbs
    rcases hbs with rfl | ⟨_, rfl, rfl | ⟨_, rfl, rfl | ⟨_, rfl, rfl⟩⟩⟩
    · exact hnil h
    · obtain ⟨t, -, ht⟩ := hone (b := 0xE1) (by decide)
      exact hnil ((ht _).symm.trans h)
    · obtain ⟨t, ht⟩ := htwo (b := 0xE1) (x := 0x14) (by decide)
      exact hnil ((ht _).symm.trans h)
    · exact absurd rfl hne
  | pauseBreak =>
    simp only [Event.bytes, List.prefix_cons_iff, List.prefix_nil] at hbs
    rcases hbs with rfl | ⟨_, rfl, rfl | ⟨_, rfl, rfl | ⟨_, rfl, hrest⟩⟩⟩
    · exact hnil h
    · obtain ⟨t, -, ht⟩ := hone (b := 0xE1) (by decide)
      exact hnil ((ht _).symm.trans h)
    · obtain ⟨t, ht⟩ := htwo (b := 0xE1) (x := 0xF0) (by decide)
      exact hnil ((ht _).symm.trans h)
    · obtain ⟨t, ht, hfeed⟩ := Ps2Keyboard.feed_E1F0 hp 0x14
      rw [hfeed] at h
      rcases hrest with rfl | ⟨_, rfl, -⟩
      · exact hnil h
      · rw [Ps2Keyboard.feed_full ht] at h
        cases h

/-- The scan codes of whole events, and of one that has begun. -/
theorem feed_events {p q : Ps2Keyboard.St} (hp : p.Idle) (hbs : bs <+: e.bytes) (hne : bs ≠ e.bytes)
    (h : feed p (es.flatMap Event.bytes ++ bs) = some (q, scs)) : scs = es.map Event.input := by
  induction es generalizing p scs with
  | nil => exact feed_begun hp hbs hne h
  | cons f es ih =>
    rw [List.flatMap_cons, List.append_assoc] at h
    cases hf : f.isPauseBreak with
    | true =>
      obtain rfl : f = .pauseBreak := by cases f <;> first | rfl | cases hf
      rw [Ps2Keyboard.feed_pauseBreak hp] at h
      cases h
    | false =>
      obtain ⟨t, ht, hfeed⟩ := Ps2Keyboard.feed_event hp f hf
      rw [hfeed] at h
      obtain ⟨⟨u, out⟩, hr, hout⟩ := Option.map_eq_some_iff.mp h
      obtain ⟨rfl, rfl⟩ := Prod.mk.inj hout
      rw [ih ht hr]
      rfl

/-- A run of the bytes of events, and of one that has begun, hands these events to the keyboard. -/
theorem run_taps {buffer : Nat → UInt8} (hrun : Run (Step layout) (boot buffer) evs s)
    (hb : evs.flatMap Ev.bytes = es.flatMap Event.bytes ++ bs) (hbs : bs <+: e.bytes) (hne : bs ≠ e.bytes) :
    Same s.keyboard ((es.map Event.input).foldl (tap layout) Keyboard.init) := by
  obtain ⟨scs, hfeed, hsame⟩ := run_feeds hrun
  have hidle : (boot buffer).ps2.Idle := rfl
  rw [hb] at hfeed
  rw [feed_events hidle hbs hne hfeed] at hsame
  exact hsame

theorem tracks_init : Tracks Keyboard.init [] := fun _ _ => rfl

/-- In every run the keys held to be down and the code points produced are those of the events
    whose bytes have all come, wherever the turns of the shell were. -/
theorem produced_is_typed {buffer : Nat → UInt8} (hrun : Run (Step (qwerty past)) (boot buffer) evs s)
    (hb : evs.flatMap Ev.bytes = es.flatMap Event.bytes ++ bs) (hbs : bs <+: e.bytes) (hne : bs ≠ e.bytes) :
    (∀ i < 2 ^ 15, s.keyboard.keys i = down es i) ∧ s.keyboard.produced = typed es := by
  obtain ⟨hkeys, hproduced⟩ := run_taps hrun hb hbs hne
  obtain ⟨htracks, htyped⟩ := tap_events past tracks_init es
  refine ⟨fun i hi => ?_, hproduced.trans htyped⟩
  rw [hkeys]
  exact htracks i hi

/-! ## A typist -/

/-- The key with a byte of the table, if there is one. -/
def keyAt (b : UInt8) : Option (Key ScanCodesTable) :=
  if h : ∃ sc ∈ ScanCodesTable[b.toNat]?, sc ≠ .Invalid then some ⟨b, h⟩ else none

def leftShift : Key ScanCodesTable := ⟨0x12, .ShiftLeft, by decide, by decide⟩

/-- Without a shift key or with one. -/
def ways : List (Key ScanCodesTable × Bool) :=
  (((List.range 0x84).filterMap fun i => keyAt (UInt8.ofNat i)).flatMap fun k => [(k, false), (k, true)])

/-- The key that has a character on it, and whether shift is needed. -/
def keyFor (c : Char) : Option (Key ScanCodesTable × Bool) :=
  ways.find? fun w => w.1.code < ScanCodes.ShiftLeft.code ∧ printed w.1.code w.2 false = c.toNat ∧ c.toNat ≠ 0

def strokes (w : Key ScanCodesTable × Bool) : List Event :=
  if w.2 then [.make leftShift, .make w.1, .break_ w.1, .break_ leftShift] else [.make w.1, .break_ w.1]

/-- Each character's key is pressed and released, with shift where it is needed. -/
def typing (text : List Char) : List Event := text.flatMap fun c => ((keyFor c).map strokes).getD []

/-- What can be read on the keys: the printable characters, and backspace, tab and enter. -/
def Typeable (c : Char) : Prop := 32 ≤ c.toNat ∧ c.toNat < 127 ∨ c.toNat = 8 ∨ c.toNat = 9 ∨ c.toNat = 10

instance (c : Char) : Decidable (Typeable c) := inferInstanceAs (Decidable (_ ∨ _))

/-- Each of these is on some key. -/
theorem ways_cover : ∀ n < 127, 32 ≤ n ∨ n = 8 ∨ n = 9 ∨ n = 10 →
    n ∈ (ways.filter fun w => w.1.code < ScanCodes.ShiftLeft.code).map fun w => printed w.1.code w.2 false := by
  decide +kernel

theorem keyFor_isSome {c : Char} (h : Typeable c) : (keyFor c).isSome = true := by
  have hlt : c.toNat < 127 := by
    unfold Typeable at h
    omega
  have hne : c.toNat ≠ 0 := by
    unfold Typeable at h
    omega
  obtain ⟨w, hw, hprinted⟩ := List.mem_map.mp (ways_cover c.toNat hlt (h.imp_left And.left))
  obtain ⟨hmem, hcode⟩ := List.mem_filter.mp hw
  exact List.find?_isSome.mpr ⟨w, hmem, decide_eq_true ⟨of_decide_eq_true hcode, hprinted, hne⟩⟩

/-- No key is down that changes what another one types. -/
def Plain (es : List Event) : Prop :=
  down es ScanCodes.ShiftLeft.code = false ∧ down es ScanCodes.ShiftRight.code = false ∧
    down es ScanCodes.AltRight.code = false

theorem stroke_break (h : isMake e = false) : stroke es e = [] := by
  unfold stroke
  dsimp only
  rw [h, if_neg fun hc => Bool.false_ne_true hc.1]

/-- A key that is no shift key types what the keys before it make of it. -/
theorem stroke_make (hk : keyOf e < ScanCodes.ShiftLeft.code) (hm : isMake e = true) :
    stroke es e =
      let c := printed (keyOf e) (down es ScanCodes.ShiftLeft.code || down es ScanCodes.ShiftRight.code)
        (down es ScanCodes.AltRight.code)
      if c ≠ 0 then [c] else [] := by
  have hother {i : Nat} (hi : ScanCodes.ShiftLeft.code ≤ i) : down (es ++ [e]) i = down es i := by
    rw [down_concat, if_neg (by omega)]
  unfold stroke
  dsimp only
  rw [hother (Nat.le_refl _), hother (by decide), hother (by decide), hm]
  simp only [true_and]

@[simp] theorem leftShift_code : leftShift.code = ScanCodes.ShiftLeft.code := rfl

/-- The layout has nothing for the shift key itself. -/
theorem stroke_shift : stroke es (.make leftShift) = [] := by
  have hprinted (a b : Bool) : printed ScanCodes.ShiftLeft.code a b = 0 := by
    unfold printed
    rw [symbol_past (Nat.le_refl _)]
    cases a <;> rfl
  unfold stroke
  dsimp only
  rw [keyOf_make, leftShift_code, hprinted, if_neg fun hc => hc.2 rfl]

/-- The keys from the shift key on are as they were once another key is up again. -/
theorem down_strokes {k : Key ScanCodesTable} {i : Nat} (hk : k.code < ScanCodes.ShiftLeft.code)
    (hi : ScanCodes.ShiftLeft.code ≤ i) : down (es ++ strokes (k, false)) i = down es i := by
  have hne : k.code ≠ i := by omega
  have hstrokes : es ++ strokes (k, false) = es ++ [.make k] ++ [.break_ k] := by simp [strokes]
  rw [hstrokes, down_concat, down_concat, keyOf_break, keyOf_make, if_neg hne, if_neg hne]

/-- With shift, the shift key is up behind them. -/
theorem down_strokes_shift {k : Key ScanCodesTable} {i : Nat} (hk : k.code < ScanCodes.ShiftLeft.code)
    (hi : ScanCodes.ShiftLeft.code ≤ i) :
    down (es ++ strokes (k, true)) i = if ScanCodes.ShiftLeft.code = i then false else down es i := by
  have hne : k.code ≠ i := by omega
  have hstrokes : es ++ strokes (k, true) =
      es ++ [.make leftShift] ++ [.make k] ++ [.break_ k] ++ [.break_ leftShift] := by simp [strokes]
  rw [hstrokes, down_concat, down_concat, down_concat, down_concat]
  rw [keyOf_break, keyOf_break, keyOf_make, keyOf_make, leftShift_code]
  by_cases hs : ScanCodes.ShiftLeft.code = i
  · rw [if_pos hs, if_pos hs]
    rfl
  · rw [if_neg hs, if_neg hne, if_neg hne, if_neg hs, if_neg hs]

/-- One character is typed, and the keys are up again. -/
theorem typedFrom_strokes {w : Key ScanCodesTable × Bool} {c : Char} (h : Plain es) (hw : keyFor c = some w)
    (fs : List Event) :
    typedFrom es (strokes w ++ fs) = c.toNat :: typedFrom (es ++ strokes w) fs ∧ Plain (es ++ strokes w) := by
  obtain ⟨hleft, hright, halt⟩ := h
  unfold keyFor at hw
  have hfound := List.find?_some hw
  obtain ⟨hcode, hprinted, hc⟩ := of_decide_eq_true hfound
  obtain ⟨k, shifted⟩ := w
  dsimp only at hcode hprinted
  cases shifted with
  | false =>
    have hmake : stroke es (.make k) = [c.toNat] := by
      rw [stroke_make (e := .make k) hcode rfl]
      dsimp only
      rw [hleft, hright, halt, keyOf_make, Bool.or_false, hprinted, if_pos hc]
    refine ⟨?_, (down_strokes hcode (Nat.le_refl _)).trans hleft, (down_strokes hcode (by decide)).trans hright,
      (down_strokes hcode (by decide)).trans halt⟩
    simp only [strokes, Bool.false_eq_true, if_false, List.cons_append, List.nil_append, typedFrom]
    rw [hmake, stroke_break rfl]
    simp
  | true =>
    have hshift : down (es ++ [.make leftShift]) ScanCodes.ShiftLeft.code = true :=
      (down_concat ..).trans (if_pos rfl)
    have hother {i : Nat} (hi : ScanCodes.ShiftLeft.code < i) : down (es ++ [.make leftShift]) i = down es i :=
      (down_concat ..).trans (if_neg (Nat.ne_of_lt hi))
    have hmake : stroke (es ++ [.make leftShift]) (.make k) = [c.toNat] := by
      rw [stroke_make (e := .make k) hcode rfl]
      dsimp only
      rw [hshift, hother (by decide), hother (by decide), hright, halt, keyOf_make, Bool.or_false, hprinted, if_pos hc]
    refine ⟨?_, (down_strokes_shift hcode (Nat.le_refl _)).trans (if_pos rfl), ?_, ?_⟩
    · simp only [strokes, if_true, List.cons_append, List.nil_append, typedFrom]
      rw [stroke_shift, hmake, stroke_break rfl, stroke_break rfl]
      simp
    · rw [down_strokes_shift hcode (by decide), if_neg (by decide)]
      exact hright
    · rw [down_strokes_shift hcode (by decide), if_neg (by decide)]
      exact halt

theorem typedFrom_typing {text : List Char} (h : Plain es) (ht : ∀ c ∈ text, Typeable c) :
    typedFrom es (typing text) = text.map Char.toNat := by
  induction text generalizing es with
  | nil => rfl
  | cons c text ih =>
    obtain ⟨hc, htext⟩ := List.forall_mem_cons.mp ht
    obtain ⟨w, hw⟩ := Option.isSome_iff_exists.mp (keyFor_isSome hc)
    have hcons : typing (c :: text) = strokes w ++ typing text := by
      unfold typing
      rw [List.flatMap_cons, hw]
      rfl
    obtain ⟨hfirst, hplain⟩ := typedFrom_strokes h hw (typing text)
    rw [hcons, hfirst, ih hplain htext]
    rfl

/-! ## The queue -/

theorem onInterrupt_one {p : Ps2Keyboard.St} {status data : UInt8} {r : Ps2Keyboard.St × List Nat}
    (h : Ps2Keyboard.onInterrupt p status data = some r) : r.2 = [] ∨ ∃ sc, r.2 = [sc] := by
  unfold Ps2Keyboard.onInterrupt at h
  split at h
  · obtain rfl := Option.some.inj h
    exact .inl rfl
  · split at h
    · obtain ⟨d, -, rfl⟩ := Option.map_eq_some_iff.mp h
      dsimp only
      unfold Ps2Keyboard.inputs
      split
      · exact .inr ⟨_, rfl⟩
      · exact .inl rfl
    · cases h

theorem step_inv {ev : Ev} (hi : Keyboard.Inv s.keyboard) (h : OkStep layout s ev t) : Keyboard.Inv t.keyboard := by
  obtain ⟨hok, hs⟩ := h
  cases ev with
  | interrupt status data =>
    obtain ⟨r, hr, hk⟩ := Option.bind_eq_some_iff.mp hs
    obtain ⟨k, hfold, ht⟩ := Option.bind_eq_some_iff.mp hk
    obtain rfl := Option.some.inj ht
    rcases onInterrupt_one hr with hnone | ⟨sc, hsc⟩
    · rw [hnone] at hfold
      obtain rfl := Option.some.inj hfold
      exact hi
    · rw [hsc, List.foldlM_cons] at hfold
      obtain ⟨k1, h1, h2⟩ := Option.bind_eq_some_iff.mp hfold
      obtain rfl := Option.some.inj h2
      exact Keyboard.onInput_inv hi (hok r (Option.mem_def.mpr hr) sc (hsc ▸ List.mem_singleton_self sc)) h1
  | turn junk =>
    obtain ⟨k, hk, ht⟩ := Option.bind_eq_some_iff.mp hs
    obtain rfl := Option.some.inj ht
    exact Keyboard.run_inv hi hok hk

/-- A text that is typed is produced as it is, wherever the turns of the shell were. As long as
    these find a key waiting, what the shell was handed and what is queued are the text. -/
theorem text_is_typed {buffer : Nat → UInt8} {text : List Char} (ht : ∀ c ∈ text, Typeable c)
    (hrun : Run (Step (qwerty past)) (boot buffer) evs s)
    (hb : evs.flatMap Ev.bytes = (typing text).flatMap Event.bytes) :
    s.keyboard.produced = text.map Char.toNat ∧
    (Run (OkStep (qwerty past)) (boot buffer) evs s →
      ∃ q ps, Deque.Rep s.keyboard.inputs q ps ∧ s.keyboard.delivered ++ q.map UInt8.toNat = text.map Char.toNat) := by
  have hnone : ([] : List UInt8) ≠ (Event.make leftShift).bytes := nofun
  obtain ⟨-, hproduced⟩ := run_taps hrun (hb.trans (List.append_nil _).symm) List.nil_prefix hnone
  obtain ⟨-, htyped⟩ := tap_events past tracks_init (typing text)
  have htext : s.keyboard.produced = text.map Char.toNat := by
    rw [hproduced, htyped]
    exact typedFrom_typing ⟨rfl, rfl, rfl⟩ ht
  refine ⟨htext, fun hok => ?_⟩
  have hinv : Keyboard.Inv s.keyboard :=
    hok.invariant (I := fun s => Keyboard.Inv s.keyboard) (fun _ _ _ => step_inv) Keyboard.init_inv
  obtain ⟨q, ps, hrep, hqueue⟩ := hinv.queue
  exact ⟨q, ps, hrep, hqueue.symm.trans htext⟩

/-! ## A line -/

/-- "A" and enter, the shell's turn in the middle of a release. -/
def sampleEvs : List Ev :=
  [.interrupt 1 0x12, .interrupt 1 0x1C, .interrupt 1 0xF0, .turn 0, .interrupt 0 0, .interrupt 1 0x1C,
    .interrupt 1 0xF0, .interrupt 1 0x12, .interrupt 1 0x5A, .interrupt 1 0xF0, .interrupt 1 0x5A]

def keyA : Key ScanCodesTable := ⟨0x1C, .A, by decide, by decide⟩

theorem sample_evaluates :
    (sampleEvs.foldlM (guarded (StepOk (qwerty 0)) (apply (qwerty 0))) (boot fun _ => 0)).map
      (fun s => s.keyboard.delivered) = some [65] ∧
    sampleEvs.flatMap Ev.bytes = (typing ['A', '\n']).flatMap Event.bytes ∧
    ((sampleEvs.take 4).foldlM (apply (qwerty 0)) (boot fun _ => 0)).isSome = true ∧
    typed [.make leftShift, .make keyA] = [65] := by
  decide +kernel

/-- With shift down and the release of the other key begun. -/
theorem produced_is_typed_begun : ∃ s, Run (Step (qwerty 0)) (boot fun _ => 0) (sampleEvs.take 4) s ∧
    s.keyboard.keys ScanCodes.ShiftLeft.code = true ∧ s.keyboard.produced = [65] := by
  obtain ⟨-, -, hruns, htyped⟩ := sample_evaluates
  obtain ⟨s, hs⟩ := Option.isSome_iff_exists.mp hruns
  have hrun := run_of_foldlM (Step (qwerty 0)) (fun _ _ _ h => h) _ _ hs
  have hbegun : ([0xF0] : List UInt8) <+: (Event.break_ keyA).bytes := ⟨[keyA.byte], rfl⟩
  obtain ⟨hkeys, hproduced⟩ :=
    (produced_is_typed hrun rfl hbegun (by decide) : (∀ i < 2 ^ 15, _ = down [.make leftShift, .make keyA] i) ∧ _)
  exact ⟨s, hrun, hkeys _ (by decide), hproduced.trans htyped⟩

/-- The first turn is in the middle of a release. -/
theorem text_is_typed_line : ∃ s, Run (OkStep (qwerty 0)) (boot fun _ => 0) sampleEvs s ∧
    s.keyboard.delivered = [65] ∧ ∃ q ps, Deque.Rep s.keyboard.inputs q ps ∧ [65] ++ q.map UInt8.toNat = [65, 10] := by
  obtain ⟨hruns, hbytes, -⟩ := sample_evaluates
  obtain ⟨s, hs, hdelivered⟩ := Option.map_eq_some_iff.mp hruns
  have hok := run_of_foldlM (OkStep (qwerty 0)) (fun _ _ _ => guarded_eq_some.mp) _ _ hs
  have htypeable : ∀ c ∈ ['A', '\n'], Typeable c := by
    intro c hc
    rcases List.mem_pair.mp hc with rfl | rfl
    · exact .inl ⟨by decide, by decide⟩
    · exact .inr (.inr (.inr rfl))
  obtain ⟨-, hqueue⟩ := text_is_typed htypeable (hok.mono fun _ _ _ h => h.2) hbytes
  obtain ⟨q, ps, hrep, htext⟩ := hqueue hok
  rw [hdelivered] at htext
  exact ⟨s, hok, hdelivered, q, ps, hrep, htext⟩

end Rodvin.Kernel.Typing
