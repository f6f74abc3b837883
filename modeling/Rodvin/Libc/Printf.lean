/-
  Rodvin.Libc.Printf — `printf` (`kernel/src/libc/printf.cpp`) and `strtol`
  (`kernel/src/libc/stdlib.cpp`).

  The format is a buffer that ends with its terminator, so a read behind it is a fault; so
  is an access outside the 40 bytes that a number is written into. `stack` is what these
  bytes hold before. The result is what `platform_draw_text` was given, piece by piece.
  A pointer has 64 bits.
-/

import Rodvin.Lib.Bytes
import Rodvin.Lib.Words
import Rodvin.Libc.CString

namespace Rodvin.Libc.Printf

open Rodvin.Lib

/-! ## Arguments -/

/-- What `va_arg` finds. A string is the memory its pointer leads to. -/
inductive Arg where
  | uint32 (val : UInt32)
  | int32 (val : Int32)
  | uint64 (val : UInt64)
  | int (val : Int32)
  | str (p : Bytes)

/-- The `len` bytes from `start` on that `platform_draw_text` reads. -/
def drawText (b : Bytes) (start len : Nat) : Checked Bytes :=
  if start + len ≤ b.length then .ok ((b.drop start).take len) else fault

/-! ## Numbers -/

/-- `'0' + (val % radix)`, and seven more behind `'9'`. -/
def digit (d : Nat) : UInt8 :=
  let c := 0x30 + UInt8.ofNat d
  if 0x39 < c then c + (0x41 - 0x39 - 1) else c

/-- The loop over the digits; `fuel` is more than there are. -/
def putDigits (radix : Nat) : Nat → Bytes → Nat → Nat → Checked (Bytes × Nat)
  | 0, _, _, _ => .error .noReturn
  | fuel + 1, buf, offs, val =>
    if 0 < val then do
      let buf ← write buf offs (digit (val % radix))
      putDigits radix fuel buf (sub64 offs 1) (val / radix)
    else return (buf, offs)

/-- The loop that fills up to the width. -/
def putFill (fill : UInt8) (low : Nat) (buf : Bytes) : Nat → Checked (Bytes × Nat)
  | 0 => return (buf, 0)
  | offs + 1 =>
    if low < offs + 1 then do
      let buf ← write buf (offs + 1) fill
      putFill fill low buf offs
    else return (buf, offs + 1)

def putSign (negative : Bool) (buf : Bytes) (offs : Nat) : Checked (Bytes × Nat) :=
  if negative then do
    let buf ← write buf offs 0x2D
    return (buf, sub64 offs 1)
  else return (buf, offs)

/-- The text of a number; `fill` is the `prefix` of the source. -/
def number (stack : Nat → UInt8) (radix : Nat) (fill : UInt8) (minLen : Nat) (negative : Bool) (val : Nat) :
    Checked Bytes := do
  let buf ← write (slice stack 0 40) 39 0
  let (buf, offs) ← putDigits radix 65 buf 39 val
  let (buf, offs) ← putFill fill (39 - minLen) buf offs
  let (buf, offs) ← putSign negative buf offs
  drawText buf (offs + 1) (39 - offs)

/-! ## Conversions -/

/-- The case of the conversion character: the text, and the arguments that are left. -/
def convert (stack : Nat → UInt8) (fill : UInt8) (minLen : Nat) (c : UInt8) (args : List Arg) :
    Checked (Bytes × List Arg) :=
  if c = 0x75 then                                        -- 'u'
    match args with
    | .uint32 val :: args => do return (← number stack 10 fill minLen false val.toNat, args)
    | _ => fault
  else if c = 0x64 then                                   -- 'd'
    match args with
    | .int32 ival :: args => do
      let negative := decide (ival < 0)
      let val := (if negative then -ival else ival).toUInt32
      return (← number stack 10 fill minLen negative val.toNat, args)
    | _ => fault
  else if c = 0x58 ∨ c = 0x70 then                        -- 'X', 'p'
    match args with
    | .uint64 val :: args => do return (← number stack 16 fill minLen false val.toNat, args)
    | _ => fault
  else if c = 0x63 then                                   -- 'c'
    match args with
    | .int val :: args => return ([UInt8.ofNat val.toUInt32.toNat], args)
    | _ => fault
  else if c = 0x73 then                                   -- 's'
    match args with
    | .str p :: args => do
      let len ← strlen p
      return (← drawText p 0 len, args)
    | _ => fault
  else return ([], args)

def IsDigit (c : UInt8) : Prop := 0x30 ≤ c ∧ c ≤ 0x39

instance (c : UInt8) : Decidable (IsDigit c) := inferInstanceAs (Decidable (_ ∧ _))

/-- The fill character, and where the scan goes on. -/
def scanFill (fmt : Bytes) (start : Nat) : Checked (UInt8 × Nat) := do
  let c ← read fmt start
  if c = 0x30 then return (0x30, start + 1)
  else if c = 0x20 then return (0x20, start + 1)
  else return (0x30, start)

def scanWidth (fmt : Bytes) (start : Nat) : Checked (Nat × Nat) := do
  let c ← read fmt start
  if IsDigit c then return ((c - 0x30).toNat, start + 1)
  else return (1, start)

/-- A conversion specification behind its `%`: fill character, width, conversion character, and
    where the text goes on. -/
def scanSpec (fmt : Bytes) (start : Nat) : Checked (UInt8 × Nat × UInt8 × Nat) := do
  let (fill, start) ← scanFill fmt start
  let (minLen, start) ← scanWidth fmt start
  let c ← read fmt start
  return (fill, minLen, c, start + 1)

/-- The loop of `printf`; every turn reads on, so the length of the format is enough fuel. -/
def printfFrom (stack : Nat → UInt8) (fmt : Bytes) : Nat → Nat → Nat → List Arg → Checked Bytes
  | 0, _, _, _ => .error .noReturn
  | fuel + 1, start, len, args => do
    let c ← read fmt (start + len)
    if c = 0 then drawText fmt start len
    else if c = 0x25 then                                 -- '%'
      let drawn ← drawText fmt start len
      let (fill, minLen, c, start) ← scanSpec fmt (start + len + 1)
      let (converted, args) ← convert stack fill minLen c args
      let others ← printfFrom stack fmt fuel start 0 args
      return drawn ++ converted ++ others
    else printfFrom stack fmt fuel start (len + 1) args

def printf (stack : Nat → UInt8) (fmt : Bytes) (args : List Arg) : Checked Bytes :=
  printfFrom stack fmt (fmt.length + 1) 0 0 args

/-! ## `strtol` -/

/-- A number as a `long`. -/
def long (x : Int) : Int := Int.bmod x (2 ^ 64)

/-- The loop of `strtol` on the memory that starts at `nptr`, `k` bytes behind its start. -/
def strtolFrom (base : Int) : Bytes → Nat → Bool → Int → Checked (Int × Nat)
  | [], _, _, _ => fault
  | c :: cs, k, negative, val =>
    if c = 0 then return (if negative then long (-val) else val, k)
    else if c = 0x2D then strtolFrom base cs (k + 1) true val
    else if IsDigit c then strtolFrom base cs (k + 1) negative (long (val * base + c.toNat - 0x30))
    else return (if negative then long (-val) else val, k)

/-- The value, and the offset of `*endptr`. -/
def strtol (nptr : Bytes) (base : Int) : Checked (Int × Nat) := strtolFrom base nptr 0 false 0

end Rodvin.Libc.Printf
