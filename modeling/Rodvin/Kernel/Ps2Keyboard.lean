/-
  Rodvin.Kernel.Ps2Keyboard — the scan code decoder of the PS/2 keyboard
  (`kernel/src/x8664/ps2keyboard.cpp`, `ps2.h`).

  `onInterrupt` collects the bytes of one key event in `buffer[3]` and calls `onInput` when
  it knows the key. A store behind the buffer or a look behind the end of a table is
  `none`.

  The break of Pause has five bytes, so its fourth is stored behind the buffer; and a byte
  is looked up in `ScanCodesTable` without a look at the table's length. Every other
  event is decoded (`feed_events`), and the streams that stay in bounds are exactly those
  without these two (`feed_isSome_iff`).
-/

import Mathlib.Tactic
import Rodvin.Kernel.Scancodes

namespace Rodvin.Kernel.Ps2Keyboard

/-! ## The tables -/

def ScanCodesTable : List ScanCodes :=
  [.Invalid, .F9, .Invalid, .F5, .F3, .F1, .F2, .F12, .Invalid, .F10, .F8, .F6, .F4, .Tab, .BackTick, .Invalid,
   .Invalid, .AltLeft, .ShiftLeft, .Invalid, .CtrlLeft, .Q, .N1, .Invalid, .Invalid, .Invalid, .Z, .S, .A, .W, .N2,
   .Invalid, .Invalid, .C, .X, .D, .E, .N4, .N3, .Invalid, .Invalid, .Space, .V, .F, .T, .R, .N5, .Invalid, .Invalid,
   .N, .B, .H, .G, .Y, .N6, .Invalid, .Invalid, .Invalid, .M, .J, .U, .N7, .N8, .Invalid, .Invalid, .Comma, .K, .I,
   .O, .N0, .N9, .Invalid, .Invalid, .Dot, .Slash, .L, .Semicolon, .P, .Dash, .Invalid, .Invalid, .Invalid,
   .Apostrophe, .Invalid, .BracketOpen, .Equals, .Invalid, .Invalid, .CapsLock, .ShiftRight, .Enter, .BracketClose,
   .Invalid, .Backslash, .Invalid, .Invalid, .Invalid, .Invalid, .Invalid, .Invalid, .Invalid, .Invalid, .Backspace,
   .Invalid, .Invalid, .N1K, .Invalid, .N4K, .N7K, .Invalid, .Invalid, .Invalid, .N0K, .DotK, .N2K, .N5K, .N6K, .N8K,
   .Escape, .NumLock, .F11, .PlusK, .N3K, .DashK, .MultiplyK, .N9K, .ScrollLock, .Invalid, .Invalid, .Invalid,
   .Invalid, .F7]

def ScanCodesTableE0 : List ScanCodes :=
  [.Invalid, .Invalid, .Invalid, .Invalid, .Invalid, .Invalid, .Invalid, .Invalid, .Invalid, .Invalid, .Invalid,
   .Invalid, .Invalid, .Invalid, .Invalid, .Invalid, .MultimediaInternetSearch, .AltRight, .PrintScreen, .Invalid,
   .CtrlRight, .PreviousTrack, .Invalid, .Invalid, .MultimediaInternetFavorites, .Invalid, .Invalid, .Invalid,
   .Invalid, .Invalid, .Invalid, .PlatformLeft, .MultimediaInternetRefresh, .VolumeDown, .Invalid, .Mute, .Invalid,
   .Invalid, .Invalid, .PlatformRight, .MultimediaInternetStop, .Invalid, .Invalid, .ProgramsCalculator, .Invalid,
   .Invalid, .Invalid, .Menu, .MultimediaInternetForward, .Invalid, .VolumeUp, .Invalid, .PlayPause, .Invalid,
   .Invalid, .AcpiPower, .MultimediaInternetBack, .Invalid, .MultimediaInternetHomepage, .MultimediaStop, .Invalid,
   .Invalid, .Invalid, .AcpiSleep, .ProgramsExplorer, .Invalid, .Invalid, .Invalid, .Invalid, .Invalid, .Invalid,
   .Invalid, .ProgramsEmail, .Invalid, .SlashK, .Invalid, .Invalid, .NextTrack, .Invalid, .Invalid,
   .MultimediaMediaSelect, .Invalid, .Invalid, .Invalid, .Invalid, .Invalid, .Invalid, .Invalid, .Invalid, .Invalid,
   .EnterK, .Invalid, .Invalid, .Invalid, .AcpiWake, .Invalid, .Invalid, .Invalid, .Invalid, .Invalid, .Invalid,
   .Invalid, .Invalid, .Invalid, .Invalid, .End, .Invalid, .ArrowLeft, .Home, .Invalid, .Invalid, .Invalid, .Insert,
   .Delete, .ArrowDown, .Invalid, .ArrowRight, .ArrowUp, .Invalid, .Invalid, .Invalid, .Invalid, .PageDown, .Invalid,
   .Invalid, .PageUp, .Invalid, .Invalid]

/-! ## The decoder -/

structure St where
  buffer : Nat → UInt8
  offset : Nat

/-- `PS2Keyboard::PS2Keyboard`. -/
def St.Idle (s : St) : Prop := s.offset = 0

def lookup (table : List ScanCodes) (i : UInt8) : Option Nat := (table[i.toNat]?).map ScanCodes.code

def released (sc : Nat) : Nat := sc ||| ScanCodes.KeyReleased

/-- The `switch` on `buffer[0]`: the state and `sc`. -/
def decode (s : St) : Option (St × Nat) :=
  let idle : St := { s with offset := 0 }
  if s.buffer 0 = 0xE0 then
    if s.offset = 2 ∧ s.buffer 1 ≠ 0xF0 then (lookup ScanCodesTableE0 (s.buffer 1 &&& 0x7F)).map fun sc => (idle, sc)
    else if s.offset = 3 ∧ s.buffer 1 = 0xF0 then
      (lookup ScanCodesTableE0 (s.buffer 2 &&& 0x7F)).map fun sc => (idle, released sc)
    else some (s, ScanCodes.Invalid.code)
  else if s.buffer 0 = 0xE1 then
    if s.offset = 3 ∧ s.buffer 1 ≠ 0xF0 then some (idle, ScanCodes.Pause.code)
    else if s.offset = 5 ∧ s.buffer 1 = 0xF0 then some (idle, released ScanCodes.Pause.code)
    else some (s, ScanCodes.Invalid.code)
  else if s.buffer 0 = 0xF0 then
    if s.offset = 2 then (lookup ScanCodesTable (s.buffer 1)).map fun sc => (idle, released sc)
    else some (s, ScanCodes.Invalid.code)
  else (lookup ScanCodesTable (s.buffer 0)).map fun sc => (idle, sc)

/-- What is passed to `onInput`. -/
def inputs (sc : Nat) : List Nat := if sc ≠ ScanCodes.Invalid.code then [sc] else []

def onInterrupt (s : St) (status data : UInt8) : Option (St × List Nat) :=
  if status &&& 1 = 0 then some (s, [])
  else if s.offset < 3 then
    (decode ⟨Function.update s.buffer s.offset data, s.offset + 1⟩).map fun r => (r.1, inputs r.2)
  else none

/-- One interrupt for each byte. -/
def feed (s : St) : List UInt8 → Option (St × List Nat)
  | [] => some (s, [])
  | b :: bs => (onInterrupt s 1 b).bind fun r => (feed r.1 bs).map fun q => (q.1, r.2 ++ q.2)

/-! ## Key events -/

/-- A key with a code in the table. -/
structure Key (table : List ScanCodes) where
  byte : UInt8
  known : ∃ sc, table[byte.toNat]? = some sc ∧ sc ≠ .Invalid

def Key.code {table : List ScanCodes} (k : Key table) : Nat := (lookup table k.byte).getD 0

inductive Event where
  | make (k : Key ScanCodesTable)
  | break_ (k : Key ScanCodesTable)
  | makeE0 (k : Key ScanCodesTableE0)
  | breakE0 (k : Key ScanCodesTableE0)
  | pauseMake
  | pauseBreak

/-- The bytes of scan code set 2. -/
def Event.bytes : Event → List UInt8
  | make k => [k.byte]
  | break_ k => [0xF0, k.byte]
  | makeE0 k => [0xE0, k.byte]
  | breakE0 k => [0xE0, 0xF0, k.byte]
  | pauseMake => [0xE1, 0x14, 0x77]
  | pauseBreak => [0xE1, 0xF0, 0x14, 0xF0, 0x77]

def Event.input : Event → Nat
  | make k => k.code
  | break_ k => released k.code
  | makeE0 k => k.code
  | breakE0 k => released k.code
  | pauseMake => ScanCodes.Pause.code
  | pauseBreak => released ScanCodes.Pause.code

/-- The events come out as the calls of `onInput`, in order, and the decoder is idle again. -/
def Decodes (s : St) (es : List Event) : Prop :=
  ∃ t, feed s (es.flatMap Event.bytes) = some (t, es.map Event.input) ∧ t.Idle

def Event.isPauseBreak : Event → Bool
  | pauseBreak => true
  | _ => false

/-- The byte streams, from an idle decoder, that stay inside the buffer and the table: no
    byte from 0x84 on where a key is expected, and not two bytes after `E1 F0`. -/
def InBounds : List UInt8 → Prop
  | [] => True
  | b :: bs =>
    if b = 0xE0 then
      match bs with
      | x :: y :: bs => if x = 0xF0 then InBounds bs else InBounds (y :: bs)
      | _ => True
    else if b = 0xE1 then
      match bs with
      | x :: _ :: bs => if x = 0xF0 then bs = [] else InBounds bs
      | _ => True
    else if b = 0xF0 then
      match bs with
      | x :: bs => x < 0x84 ∧ InBounds bs
      | [] => True
    else b < 0x84 ∧ InBounds bs

/-! ## One event -/

variable {s t : St} {b x y : UInt8} {bs cs : List UInt8} {n : Nat}

/-- A byte that arrives while the buffer has room. -/
theorem onInterrupt_of_lt (h : s.offset < 3) (b : UInt8) :
    onInterrupt s 1 b =
      (decode ⟨Function.update s.buffer s.offset b, s.offset + 1⟩).map fun r => (r.1, inputs r.2) := by
  unfold onInterrupt
  rw [if_neg (by decide), if_pos h]

theorem lookup_isSome_iff {table : List ScanCodes} {i : UInt8} : (lookup table i).isSome ↔ i.toNat < table.length := by
  simp [lookup, Option.isSome_iff_exists, List.getElem?_eq_some_iff]

theorem length_ScanCodesTable : ScanCodesTable.length = 0x84 := by decide +kernel

theorem length_ScanCodesTableE0 : ScanCodesTableE0.length = 0x80 := by decide +kernel

theorem lookup_E0 (x : UInt8) : ∃ sc, lookup ScanCodesTableE0 (x &&& 0x7F) = some sc := by
  rw [← Option.isSome_iff_exists, lookup_isSome_iff, UInt8.toNat_and, length_ScanCodesTableE0]
  exact Nat.lt_of_le_of_lt Nat.and_le_right (by decide)

theorem lookup_isSome_iff_lt : (lookup ScanCodesTable x).isSome ↔ x < 0x84 := by
  rw [lookup_isSome_iff, UInt8.lt_iff_toNat_lt, length_ScanCodesTable]
  rfl

/-- The bytes of a prefix wait in the buffer. -/
structure Holds (s : St) (bs : List UInt8) : Prop where
  offset : s.offset = bs.length
  bytes : ∀ i (h : i < bs.length), s.buffer i = bs[i]

theorem holds_nil : Holds s [] ↔ s.Idle := ⟨fun h => h.offset, fun h => ⟨h, fun _ hi => absurd hi (Nat.not_lt_zero _)⟩⟩

/-- What a byte makes of the bytes that wait. -/
theorem onInterrupt_of_holds (h : Holds s bs) (hn : bs.length < 3) (b : UInt8) :
    ∃ t, Holds t (bs ++ [b]) ∧ onInterrupt s 1 b = (decode t).map fun r => (r.1, inputs r.2) := by
  have ho := h.offset
  refine ⟨_, ⟨?_, fun i hi => ?_⟩, onInterrupt_of_lt (by omega) b⟩
  · simp [ho]
  · show Function.update s.buffer s.offset b i = _
    rw [List.length_append, List.length_singleton] at hi
    by_cases hlt : i < bs.length
    · rw [Function.update_of_ne (by omega), List.getElem_append_left hlt]
      exact h.bytes i hlt
    · obtain rfl : i = s.offset := by omega
      rw [Function.update_self, List.getElem_append_right (by omega)]
      simp [ho]

/-- `onInterrupt` with the bytes `bs` before it and `b`, in terms of `decode`. -/
theorem feed_of_holds (h : Holds s bs) (hn : bs.length < 3) (b : UInt8) :
    ∃ t, Holds t (bs ++ [b]) ∧ ∀ cs, feed s (b :: cs) =
      (decode t).bind fun r => (feed r.1 cs).map fun q => (q.1, inputs r.2 ++ q.2) := by
  obtain ⟨t, ht, e⟩ := onInterrupt_of_holds h hn b
  refine ⟨t, ht, fun cs => ?_⟩
  rw [feed, e]
  cases decode t <;> rfl

/-- A prefix byte, or `F0` after a prefix, is only stored. -/
theorem feed_waits (h : Holds s bs) (hn : bs.length < 3) (b : UInt8)
    (hd : ∀ t, Holds t (bs ++ [b]) → decode t = some (t, ScanCodes.Invalid.code)) :
    ∃ t, Holds t (bs ++ [b]) ∧ ∀ cs, feed s (b :: cs) = feed t cs := by
  obtain ⟨t, ht, e⟩ := feed_of_holds h hn b
  refine ⟨t, ht, fun cs => ?_⟩
  rw [e, hd t ht]
  show (feed t cs).map (fun q => (q.1, [] ++ q.2)) = _
  simp

theorem decode_prefix (ht : Holds t [b]) (hb : b = 0xE0 ∨ b = 0xE1 ∨ b = 0xF0) :
    decode t = some (t, ScanCodes.Invalid.code) := by
  have h0 : t.buffer 0 = b := ht.bytes 0 (by simp)
  have ho : t.offset = 1 := ht.offset
  rcases hb with rfl | rfl | rfl <;> simp [decode, h0, ho]

theorem decode_two (ht : Holds t [b, x]) (hb : b = 0xE0 ∧ x = 0xF0 ∨ b = 0xE1) :
    decode t = some (t, ScanCodes.Invalid.code) := by
  have h0 : t.buffer 0 = b := ht.bytes 0 (by simp)
  have h1 : t.buffer 1 = x := ht.bytes 1 (by simp)
  have ho : t.offset = 2 := ht.offset
  rcases hb with ⟨rfl, rfl⟩ | rfl <;> simp [decode, h0, h1, ho]

/-- One byte of a key. -/
theorem feed_key (hs : s.Idle) (h0 : b ≠ 0xE0) (h1 : b ≠ 0xE1) (hf : b ≠ 0xF0) :
    ∃ t, t.Idle ∧ ∀ cs, feed s (b :: cs) =
      (lookup ScanCodesTable b).bind fun sc => (feed t cs).map fun q => (q.1, inputs sc ++ q.2) := by
  obtain ⟨t, ht, e⟩ := feed_of_holds (holds_nil.mpr hs) (by decide) b
  have hb : t.buffer 0 = b := ht.bytes 0 (by simp)
  refine ⟨{ t with offset := 0 }, rfl, fun cs => ?_⟩
  rw [e]
  unfold decode
  rw [if_neg (by rw [hb]; exact h0), if_neg (by rw [hb]; exact h1), if_neg (by rw [hb]; exact hf), hb]
  cases lookup ScanCodesTable b <;> rfl

theorem feed_F0 (hs : s.Idle) (x : UInt8) :
    ∃ t, t.Idle ∧ ∀ cs, feed s (0xF0 :: x :: cs) =
      (lookup ScanCodesTable x).bind fun sc => (feed t cs).map fun q => (q.1, inputs (released sc) ++ q.2) := by
  obtain ⟨t, ht, e⟩ := feed_waits (holds_nil.mpr hs) (by decide) 0xF0 fun t ht => decode_prefix ht (by simp)
  obtain ⟨u, hu, e'⟩ := feed_of_holds ht (by decide) x
  have h0 : u.buffer 0 = 0xF0 := hu.bytes 0 (by simp)
  have h1 : u.buffer 1 = x := hu.bytes 1 (by simp)
  have ho : u.offset = 2 := hu.offset
  refine ⟨{ u with offset := 0 }, rfl, fun cs => ?_⟩
  rw [e, e']
  unfold decode
  rw [if_neg (by rw [h0]; decide), if_neg (by rw [h0]; decide), if_pos h0, if_pos ho, h1]
  cases lookup ScanCodesTable x <;> rfl

theorem feed_E0 (hs : s.Idle) (hx : x ≠ 0xF0) :
    ∃ t, t.Idle ∧ ∀ cs, feed s (0xE0 :: x :: cs) =
      (lookup ScanCodesTableE0 (x &&& 0x7F)).bind fun sc => (feed t cs).map fun q => (q.1, inputs sc ++ q.2) := by
  obtain ⟨t, ht, e⟩ := feed_waits (holds_nil.mpr hs) (by decide) 0xE0 fun t ht => decode_prefix ht (by simp)
  obtain ⟨u, hu, e'⟩ := feed_of_holds ht (by decide) x
  have h0 : u.buffer 0 = 0xE0 := hu.bytes 0 (by simp)
  have h1 : u.buffer 1 = x := hu.bytes 1 (by simp)
  have ho : u.offset = 2 := hu.offset
  refine ⟨{ u with offset := 0 }, rfl, fun cs => ?_⟩
  rw [e, e']
  unfold decode
  rw [if_pos h0, if_pos ⟨ho, by rw [h1]; exact hx⟩, h1]
  cases lookup ScanCodesTableE0 (x &&& 0x7F) <;> rfl

theorem feed_E0F0 (hs : s.Idle) (y : UInt8) :
    ∃ t, t.Idle ∧ ∀ cs, feed s (0xE0 :: 0xF0 :: y :: cs) =
      (lookup ScanCodesTableE0 (y &&& 0x7F)).bind fun sc =>
        (feed t cs).map fun q => (q.1, inputs (released sc) ++ q.2) := by
  obtain ⟨t, ht, e⟩ := feed_waits (holds_nil.mpr hs) (by decide) 0xE0 fun t ht => decode_prefix ht (by simp)
  obtain ⟨u, hu, e'⟩ := feed_waits ht (by decide) 0xF0 fun u hu => decode_two hu (by simp)
  obtain ⟨w, hw, e''⟩ := feed_of_holds hu (by simp) y
  have h0 : w.buffer 0 = 0xE0 := hw.bytes 0 (by simp)
  have h1 : w.buffer 1 = 0xF0 := hw.bytes 1 (by simp)
  have h2 : w.buffer 2 = y := hw.bytes 2 (by simp)
  have ho : w.offset = 3 := hw.offset
  refine ⟨{ w with offset := 0 }, rfl, fun cs => ?_⟩
  rw [e, e', e'']
  unfold decode
  rw [if_pos h0, if_neg (by rw [ho]; simp), if_pos ⟨ho, h1⟩, h2]
  cases lookup ScanCodesTableE0 (y &&& 0x7F) <;> rfl

theorem feed_E1 (hs : s.Idle) (hx : x ≠ 0xF0) (y : UInt8) :
    ∃ t, t.Idle ∧ ∀ cs, feed s (0xE1 :: x :: y :: cs) =
      (feed t cs).map fun q => (q.1, ScanCodes.Pause.code :: q.2) := by
  obtain ⟨t, ht, e⟩ := feed_waits (holds_nil.mpr hs) (by decide) 0xE1 fun t ht => decode_prefix ht (by simp)
  obtain ⟨u, hu, e'⟩ := feed_waits ht (by simp) x fun u hu => decode_two hu (by simp)
  obtain ⟨w, hw, e''⟩ := feed_of_holds hu (by simp) y
  have h0 : w.buffer 0 = 0xE1 := hw.bytes 0 (by simp)
  have h1 : w.buffer 1 = x := hw.bytes 1 (by simp)
  have ho : w.offset = 3 := hw.offset
  refine ⟨{ w with offset := 0 }, rfl, fun cs => ?_⟩
  rw [e, e', e'']
  unfold decode
  rw [if_neg (by rw [h0]; decide), if_pos h0, if_pos ⟨ho, by rw [h1]; exact hx⟩]
  rfl

/-- Three bytes of the break of Pause are stored; the decoder is at the end of its buffer. -/
theorem feed_E1F0 (hs : s.Idle) (y : UInt8) :
    ∃ t, t.offset = 3 ∧ ∀ cs, feed s (0xE1 :: 0xF0 :: y :: cs) = feed t cs := by
  obtain ⟨t, ht, e⟩ := feed_waits (holds_nil.mpr hs) (by decide) 0xE1 fun t ht => decode_prefix ht (by simp)
  obtain ⟨u, hu, e'⟩ := feed_waits ht (by decide) 0xF0 fun u hu => decode_two hu (by simp)
  obtain ⟨w, hw, e''⟩ := feed_waits hu (by decide) y fun w hw => by
    have h0 : w.buffer 0 = 0xE1 := hw.bytes 0 (by simp)
    have h1 : w.buffer 1 = 0xF0 := hw.bytes 1 (by simp)
    have ho : w.offset = 3 := hw.offset
    simp [decode, h0, h1, ho]
  exact ⟨w, hw.offset, fun cs => by rw [e, e', e'']⟩

theorem feed_full (h : s.offset = 3) (b : UInt8) (cs : List UInt8) : feed s (b :: cs) = none := by
  have hb : onInterrupt s 1 b = none := by
    unfold onInterrupt
    rw [if_neg (by decide), if_neg (by omega)]
  rw [feed, hb]
  rfl

/-! ## Streams -/

theorem isSome_lookup_bind {table : List ScanCodes} {i : UInt8} {f : Nat → List Nat} :
    ((lookup table i).bind fun sc => (feed t cs).map fun q => (q.1, f sc ++ q.2)).isSome ↔
      (lookup table i).isSome ∧ (feed t cs).isSome := by
  cases lookup table i <;> simp

/-- From an idle decoder, exactly the streams of `InBounds` are decoded without a store behind
    the buffer or a look behind a table. -/
theorem feed_isSome_iff (hs : s.Idle) : (feed s bs).isSome ↔ InBounds bs := by
  induction hn : bs.length using Nat.strong_induction_on generalizing s bs with
  | _ n ih =>
    subst hn
    rcases bs with _ | ⟨b, bs⟩
    · simp [feed, InBounds]
    · unfold InBounds
      by_cases h0 : b = 0xE0
      · subst h0
        rw [if_pos rfl]
        rcases bs with _ | ⟨x, _ | ⟨y, bs⟩⟩ <;> dsimp only
        · obtain ⟨t, -, e⟩ := feed_waits (holds_nil.mpr hs) (by decide) 0xE0 fun t ht => decode_prefix ht (by simp)
          rw [e]
          simp [feed]
        · by_cases hx : x = 0xF0
          · subst hx
            obtain ⟨t, ht, e⟩ := feed_waits (holds_nil.mpr hs) (by decide) 0xE0 fun t ht => decode_prefix ht (by simp)
            obtain ⟨u, hu, e'⟩ := feed_waits ht (by decide) 0xF0 fun u hu => decode_two hu (by simp)
            rw [e, e']
            simp [feed]
          · obtain ⟨t, ht, e⟩ := feed_E0 hs hx
            obtain ⟨sc, hsc⟩ := lookup_E0 x
            rw [e, hsc]
            simp [feed]
        · by_cases hx : x = 0xF0
          · subst hx
            obtain ⟨t, ht, e⟩ := feed_E0F0 hs y
            rw [e, isSome_lookup_bind, if_pos rfl, Option.isSome_iff_exists, and_iff_right (lookup_E0 y)]
            exact ih _ (by simp; omega) ht rfl
          · obtain ⟨t, ht, e⟩ := feed_E0 hs hx
            rw [e, isSome_lookup_bind, if_neg hx, Option.isSome_iff_exists, and_iff_right (lookup_E0 x)]
            exact ih _ (by simp) ht rfl
      · rw [if_neg h0]
        by_cases h1 : b = 0xE1
        · subst h1
          rw [if_pos rfl]
          rcases bs with _ | ⟨x, _ | ⟨y, bs⟩⟩ <;> dsimp only
          · obtain ⟨t, -, e⟩ := feed_waits (holds_nil.mpr hs) (by decide) 0xE1 fun t ht => decode_prefix ht (by simp)
            rw [e]
            simp [feed]
          · obtain ⟨t, ht, e⟩ := feed_waits (holds_nil.mpr hs) (by decide) 0xE1 fun t ht => decode_prefix ht (by simp)
            obtain ⟨u, hu, e'⟩ := feed_waits ht (by simp) x fun u hu => decode_two hu (by simp)
            rw [e, e']
            simp [feed]
          · by_cases hx : x = 0xF0
            · subst hx
              obtain ⟨t, ht, e⟩ := feed_E1F0 hs y
              rw [e, if_pos rfl]
              rcases bs with _ | ⟨z, bs⟩
              · simp [feed]
              · simp [feed_full ht]
            · obtain ⟨t, ht, e⟩ := feed_E1 hs hx y
              rw [e, if_neg hx, Option.isSome_map]
              exact ih _ (by simp; omega) ht rfl
        · rw [if_neg h1]
          by_cases hf : b = 0xF0
          · subst hf
            rw [if_pos rfl]
            rcases bs with _ | ⟨x, bs⟩ <;> dsimp only
            · obtain ⟨t, -, e⟩ := feed_waits (holds_nil.mpr hs) (by decide) 0xF0 fun t ht => decode_prefix ht (by simp)
              rw [e]
              simp [feed]
            · obtain ⟨t, ht, e⟩ := feed_F0 hs x
              rw [e, isSome_lookup_bind, lookup_isSome_iff_lt, ih _ (by simp) ht rfl]
          · obtain ⟨t, ht, e⟩ := feed_key hs h0 h1 hf
            rw [if_neg hf, e, isSome_lookup_bind, lookup_isSome_iff_lt, ih _ (by simp) ht rfl]

/-! ## Events -/

theorem Key.lookup_eq {table : List ScanCodes} (k : Key table) : lookup table k.byte = some k.code := by
  obtain ⟨sc, h, -⟩ := k.known
  unfold Key.code lookup
  rw [h]
  rfl

theorem Key.byte_lt {table : List ScanCodes} (k : Key table) : k.byte.toNat < table.length := by
  obtain ⟨sc, h, -⟩ := k.known
  exact (List.getElem?_eq_some_iff.mp h).1

theorem code_eq_zero {sc : ScanCodes} (h : sc.code = ScanCodes.Invalid.code) : sc = .Invalid := by
  cases sc <;> first | rfl | cases h

theorem Key.inputs_eq {table : List ScanCodes} (k : Key table) : inputs k.code = [k.code] := by
  obtain ⟨sc, h, hne⟩ := k.known
  refine if_pos fun e => hne (code_eq_zero ?_)
  rw [← e]
  unfold Key.code lookup
  rw [h]
  rfl

theorem inputs_released (sc : Nat) : inputs (released sc) = [released sc] := by
  refine if_pos fun e => ?_
  have hb : (released sc).testBit 15 = true := by
    unfold released
    rw [Nat.testBit_or, show ScanCodes.KeyReleased.testBit 15 = true by decide, Bool.or_true]
  rw [e] at hb
  exact absurd hb (by decide)

theorem Key.byte_ne (k : Key ScanCodesTable) : k.byte ≠ 0xE0 ∧ k.byte ≠ 0xE1 ∧ k.byte ≠ 0xF0 := by
  have h := k.byte_lt
  rw [length_ScanCodesTable] at h
  refine ⟨?_, ?_, ?_⟩ <;> intro e <;> rw [e] at h <;> exact absurd h (by decide)

theorem Key.byteE0 (k : Key ScanCodesTableE0) : k.byte &&& 0x7F = k.byte ∧ k.byte ≠ 0xF0 := by
  have h := k.byte_lt
  rw [length_ScanCodesTableE0] at h
  refine ⟨?_, fun e => by rw [e] at h; exact absurd h (by decide)⟩
  rw [← UInt8.toNat_inj, UInt8.toNat_and, show (0x7F : UInt8).toNat = 2 ^ 7 - 1 from rfl,
    Nat.and_two_pow_sub_one_eq_mod]
  exact Nat.mod_eq_of_lt h

/-- Every event but the break of Pause is decoded, and the decoder is idle again. -/
theorem feed_event (hs : s.Idle) (e : Event) (he : e.isPauseBreak = false) :
    ∃ t, t.Idle ∧ ∀ cs, feed s (e.bytes ++ cs) = (feed t cs).map fun q => (q.1, e.input :: q.2) := by
  cases e with
  | make k =>
    obtain ⟨h0, h1, hf⟩ := k.byte_ne
    obtain ⟨t, ht, h⟩ := feed_key hs h0 h1 hf
    refine ⟨t, ht, fun cs => (h cs).trans ?_⟩
    rw [k.lookup_eq, Option.bind_some, k.inputs_eq]
    rfl
  | break_ k =>
    obtain ⟨t, ht, h⟩ := feed_F0 hs k.byte
    refine ⟨t, ht, fun cs => (h cs).trans ?_⟩
    rw [k.lookup_eq, Option.bind_some, inputs_released]
    rfl
  | makeE0 k =>
    obtain ⟨hk, hf⟩ := k.byteE0
    obtain ⟨t, ht, h⟩ := feed_E0 hs hf
    refine ⟨t, ht, fun cs => (h cs).trans ?_⟩
    rw [hk, k.lookup_eq, Option.bind_some, k.inputs_eq]
    rfl
  | breakE0 k =>
    obtain ⟨t, ht, h⟩ := feed_E0F0 hs k.byte
    refine ⟨t, ht, fun cs => (h cs).trans ?_⟩
    rw [k.byteE0.1, k.lookup_eq, Option.bind_some, inputs_released]
    rfl
  | pauseMake =>
    obtain ⟨t, ht, h⟩ := feed_E1 hs (by decide : (0x14 : UInt8) ≠ 0xF0) 0x77
    exact ⟨t, ht, fun cs => h cs⟩
  | pauseBreak => cases he

theorem feed_pauseBreak (hs : s.Idle) (cs : List UInt8) : feed s (Event.pauseBreak.bytes ++ cs) = none := by
  obtain ⟨t, ht, h⟩ := feed_E1F0 hs 0x14
  exact (h _).trans (feed_full ht _ _)

theorem decodes_iff (hs : s.Idle) (es : List Event) : Decodes s es ↔ ∀ e ∈ es, e.isPauseBreak = false := by
  induction es generalizing s with
  | nil => exact ⟨fun _ _ h => absurd h List.not_mem_nil, fun _ => ⟨s, rfl, hs⟩⟩
  | cons e es ih =>
    rw [List.forall_mem_cons]
    cases he : e.isPauseBreak with
    | true =>
      obtain rfl : e = .pauseBreak := by cases e <;> first | rfl | cases he
      unfold Decodes
      rw [List.flatMap_cons, feed_pauseBreak hs]
      simp
    | false =>
      obtain ⟨t, ht, h⟩ := feed_event hs e he
      rw [and_iff_right rfl, ← ih ht]
      unfold Decodes
      rw [List.flatMap_cons, h]
      constructor
      · rintro ⟨u, hu, hidle⟩
        rw [Option.map_eq_some_iff] at hu
        obtain ⟨⟨u', outs⟩, hf, e'⟩ := hu
        rw [List.map_cons, Prod.mk.injEq, List.cons.injEq] at e'
        obtain ⟨rfl, -, rfl⟩ := e'
        exact ⟨u', hf, hidle⟩
      · rintro ⟨u, hu, hidle⟩
        exact ⟨u, by rw [hu]; rfl, hidle⟩

/-- Events are decoded if and only if none is the break of Pause, and a stream of bytes stays
    inside the buffer and the tables if and only if `InBounds` holds of it. -/
theorem scan_codes_iff (buffer : Nat → UInt8) :
    (∀ es, Decodes ⟨buffer, 0⟩ es ↔ ∀ e ∈ es, e.isPauseBreak = false) ∧
    (∀ bs, (feed ⟨buffer, 0⟩ bs).isSome ↔ InBounds bs) :=
  have idle : St.Idle ⟨buffer, 0⟩ := rfl
  ⟨fun es => decodes_iff idle es, fun _ => feed_isSome_iff idle⟩

/-- The break of Pause is not decoded: its fourth byte is stored behind the buffer. -/
theorem pause_break_overruns_the_buffer :
    ¬ ((∀ es, Decodes ⟨fun _ => 0, 0⟩ es) ∧ ∀ bs, (feed ⟨fun _ => 0, 0⟩ bs).isSome) := by
  rintro ⟨h, -⟩
  have idle : St.Idle ⟨fun _ => 0, 0⟩ := rfl
  exact absurd ((decodes_iff idle _).mp (h [.pauseBreak]) _ List.mem_cons_self) (by decide)

end Rodvin.Kernel.Ps2Keyboard
