/-
  Rodvin.Libc.Utf8 — a `rodvin::string` as code points (`kernel/src/libc/string`): `length`,
  `const_iterator` with `++`, `--` and `*`, and appending with `push_back`.

  An iterator is a string and an offset into its bytes. It reads bytes and knows no ends:
  `++` and `--` step over the bytes `10xxxxxx`, and outside the buffer they fault.
-/

import Rodvin.Libc.Str

namespace Rodvin.Libc

open Rodvin.Lib

namespace Str

def getByte (s : Str) (offset : Nat) : Checked UInt8 := do read (← deref s.storage) offset

/-- The byte continues a code point. -/
def continues (c : UInt8) : Bool := c &&& 0xC0 == 0x80

/-- The loop of `length` over the last `n` bytes, from `offset` on. -/
def lengthFrom (s : Str) (offset : Nat) : Nat → Checked Nat
  | 0 => pure 0
  | n + 1 => do
    let c ← getByte s offset
    let len ← lengthFrom s (offset + 1) n
    pure (if continues c then len else len + 1)

def length (s : Str) : Checked Nat := lengthFrom s 0 s.size_

structure ConstIterator where
  str : Str
  offset : Nat

def begin_ (s : Str) : ConstIterator := ⟨s, 0⟩

def end_ (s : Str) : ConstIterator := ⟨s, s.size_⟩

/-- `while ((getByte(offset) & 0xC0) == 0x80) offset++`, in the memory from `offset` on. -/
def skipUp : Bytes → Nat → Checked Nat
  | [], _ => fault
  | c :: cs, offset => if continues c then skipUp cs (offset + 1) else pure offset

/-- `operator++`. -/
def ConstIterator.increment (it : ConstIterator) : Checked ConstIterator := do
  let b ← deref it.str.storage
  let offset ← skipUp (b.drop (it.offset + 1)) (it.offset + 1)
  pure { it with offset := offset }

/-- `operator--`, which scans as `pop_back` does. -/
def ConstIterator.decrement (it : ConstIterator) : Checked ConstIterator := do
  let b ← deref it.str.storage
  let offset ← popScan b it.offset
  pure { it with offset := offset }

/-- `operator*`. -/
def ConstIterator.value (it : ConstIterator) : Checked UInt32 := do
  let byte (k : Nat) : Checked UInt32 := do pure (← getByte it.str (it.offset + k)).toUInt32
  let v ← byte 0
  if v < 0x80 then pure v
  else if v < 0xE0 then
    pure (((v &&& 0x1F) <<< 6) ||| ((← byte 1) &&& 0x3F))
  else if v < 0xF0 then
    pure (((v &&& 0x0F) <<< 12) ||| (((← byte 1) &&& 0x3F) <<< 6) ||| ((← byte 2) &&& 0x3F))
  else
    pure (((v &&& 0x07) <<< 18) ||| (((← byte 1) &&& 0x3F) <<< 12) ||| (((← byte 2) &&& 0x3F) <<< 6) |||
      ((← byte 3) &&& 0x3F))

/-- What `*` gives from an iterator on until `end()`. Every `++` goes up, so as many turns as
    the string has bytes are enough for a walk that ends. -/
def valuesFrom : Nat → ConstIterator → Checked (List UInt32)
  | fuel, it =>
    if it.offset = it.str.size_ then pure []
    else
      match fuel with
      | 0 => .error .noReturn
      | fuel + 1 => do
        let v ← it.value
        let it ← it.increment
        let vs ← valuesFrom fuel it
        pure (v :: vs)

def values (s : Str) : Checked (List UInt32) := valuesFrom s.size_ (begin_ s)

/-- Appending code points one by one. -/
def pushAll (fresh : Nat → Nat → UInt8) (s : Str) : List UInt32 → Checked Str
  | [] => pure s
  | c :: cs => do
    let s ← pushBack (fresh cs.length) s c
    pushAll fresh s cs

/-- `string("")` and the code points behind it. -/
def ofCodePoints (fresh : Nat → Nat → UInt8) (cs : List UInt32) : Checked Str := do
  let s ← ofCString (fresh cs.length) [0]
  pushAll fresh s cs

/-- The bytes of the code points. -/
def encoding (cs : List UInt32) : Bytes := cs.flatMap utf8

/-- The iterator behind the code points `pre`. -/
def boundary (s : Str) (pre : List UInt32) : ConstIterator := ⟨s, (encoding pre).length⟩

/-- The string gives the code points back, and `++` and `--` undo each other between them. -/
structure RoundTrips (cs : List UInt32) (s : Str) : Prop where
  values : values s = .ok cs
  length : s.length = .ok cs.length
  bounds : boundary s [] = begin_ s ∧ boundary s cs = end_ s
  down : ∀ pre post, cs = pre ++ post → post ≠ [] →
    (boundary s pre).increment >>= ConstIterator.decrement = .ok (boundary s pre)
  up : ∀ pre post, cs = pre ++ post → pre ≠ [] →
    (boundary s pre).decrement >>= ConstIterator.increment = .ok (boundary s pre)

end Str

end Rodvin.Libc
