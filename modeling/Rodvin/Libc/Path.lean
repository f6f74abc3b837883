/-
  Rodvin.Libc.Path — `rodvin::path` (`kernel/src/libc/path`): `operator/`, `parent_path` and
  `canonical`, with the parts of `rodvin::string` and `strstr` (`string`, `string.cpp`) they are made of.

  A string is its bytes without the terminator, and accesses outside it fault. What the
  string functions do with their buffers is `Rodvin.Libc.Str`; `Rodvin.Libc.PathOnStr` is
  `canonical` over these.

  `strstr` compares below `strlen(haystack) - strlen(needle)` and leaves that offset
  itself out: it misses an occurrence at the very end. `canonical_eq` says what
  `canonical` makes of a path because of that: it resolves every component but the last.
-/

import Rodvin.Lib.Checked
import Rodvin.Lib.Separated

namespace Rodvin.Libc

open Rodvin.Lib

namespace Path

abbrev Text := List UInt8

/-- `'/'`. -/
abbrev slash : UInt8 := 0x2F

/-- `'.'`. -/
abbrev period : UInt8 := 0x2E

/-! ## Strings -/

/-- The loop of `strstr`, over `n` offsets from the start of `haystack` on. -/
def search (needle : Text) : Nat → Text → Option Nat
  | 0, _ => none
  | n + 1, haystack => if needle <+: haystack then some 0 else (search needle n haystack.tail).map (· + 1)

def strstr (haystack needle : Text) : Option Nat :=
  if needle.length > haystack.length then none else search needle (haystack.length - needle.length) haystack

def find (s c : Text) (pos : Nat) : Checked (Option Nat) :=
  if pos ≤ s.length then pure ((strstr (s.drop pos) c).map (· + pos)) else fault

/-- `getByte`; behind the last character stands the terminator. -/
def getByte (s : Text) (offset : Nat) : Checked UInt8 :=
  if offset ≤ s.length then pure (s.getD offset 0) else fault

def substr (s : Text) (start n : Nat) : Checked Text :=
  if start + n ≤ s.length then pure ((s.drop start).take n) else fault

/-- `substr(start)`; from behind the end, `size_ - start` wraps. -/
def substrFrom (s : Text) (start : Nat) : Checked Text := if start ≤ s.length then pure (s.drop start) else fault

def replace (s : Text) (start length : Nat) (replaceant : Text) : Checked Text :=
  if start + length ≤ s.length then pure (s.take start ++ replaceant ++ s.drop (start + length)) else fault

/-! ## Paths -/

/-- `operator/`. -/
def div (l r : Text) : Text := l ++ [slash] ++ r

def parentPath (str : Text) : Checked Text := do
  match ← find str [slash] 0 with
  | none => pure [slash]
  | some pos => substr str 0 pos

/-- The first two loops of `canonical`: `pattern`, as long as it is found, becomes `/`. -/
def squeeze (pattern : Text) : Nat → Text → Checked Text
  | 0, _ => .error .noReturn
  | fuel + 1, s => do
    match ← find s pattern 0 with
    | none => pure s
    | some start => do
      let s ← replace s start pattern.length [slash]
      squeeze pattern fuel s

/-- `while (start != 0 && s.getByte(start) != '/') { start--; length++; }`. -/
def back (s : Text) : Nat → Nat → Checked (Nat × Nat)
  | 0, length => pure (0, length)
  | start + 1, length => do
    let c ← getByte s (start + 1)
    if c ≠ slash then back s start (length + 1) else pure (start + 1, length)

/-- The third loop: a component goes with the `..` behind it. -/
def dropParents : Nat → Text → Checked Text
  | 0, _ => .error .noReturn
  | fuel + 1, s => do
    match ← find s [slash, period, period, slash] 0 with
    | none => pure s
    | some 0 => fault                   -- `--start` wraps, and `getByte` reads in front of the buffer
    | some (start + 1) => do
      let (start, length) ← back s start 5
      let s ← replace s start length [slash]
      dropParents fuel s

/-- Each turn of a loop shortens the string. -/
def canonical (str : Text) : Checked Text := do
  let s := str ++ [slash]
  let s ← squeeze [slash, period, slash] (s.length + 1) s
  let s ← squeeze [slash, slash] (s.length + 1) s
  let s ← dropParents (s.length + 1) s
  substr s 0 (s.length - 1)

/-! ## Components -/

def dot : Text := [period]

def dotdot : Text := [period, period]

/-- Where the components lead from a directory, itself given by its components; `none` is
    above the root. -/
def resolve (base : List Text) : List Text → Option (List Text)
  | [] => some base
  | c :: cs =>
    if c = [] ∨ c = dot then resolve base cs
    else if c = dotdot then if base = [] then none else resolve base.dropLast cs
    else resolve (base ++ [c]) cs

def Normal (cs : List Text) : Prop := ∀ c ∈ cs, c ≠ [] ∧ c ≠ dot ∧ c ≠ dotdot ∧ slash ∉ c

end Path

end Rodvin.Libc
