/-
  Rodvin.Kernel.XmlTokens — the tokens of the XML reader (`kernel/src/common/Xml.cpp`:
  `next`, `IsWhitespace`, `IsValidString`, `XmlTok`), and the documents they are read from.

  `file` is the `length` bytes of the buffer; every byte is read through `read`, so that
  a read at or beyond `length` faults. The two loops to the end of what is skipped are one
  definition: they differ in the closing bytes, in the bound and in how the cursor moves.

  A text is a string made of a range of the file and then copied, at least into the
  token: `strcpy` ends at the first zero, and what lies behind it stays as the fresh
  memory was. `fresh` gives that content, for a text that starts at a given index.

  The documents are the other side: tokens, each with what is skipped in front of it,
  and their bytes.
-/

import Rodvin.Libc.Str
import Rodvin.Kernel.Xml

namespace Rodvin.Kernel.XmlTokens

open Rodvin.Lib Rodvin.Libc
open Rodvin.Kernel.Xml (XmlToken TokenType Text)

/-- `index`, `line` and `chr`. -/
structure Cursor where
  index : Nat
  line : Int
  chr : Int
  deriving DecidableEq, Repr

def next (c : UInt8) (cur : Cursor) : Cursor :=
  if c = 0x0A then ⟨cur.index + 1, cur.line + 1, 1⟩ else ⟨cur.index + 1, cur.line, cur.chr + 1⟩

/-- `index++`. -/
def advance (_c : UInt8) (cur : Cursor) : Cursor := { cur with index := cur.index + 1 }

def IsWhitespace (c : UInt8) : Bool := c == 0x20 || c == 0x09 || c == 0x0D || c == 0x0A

def IsValidString (c : UInt8) : Bool :=
  !IsWhitespace c && c != 0x3C && c != 0x3E && c != 0x2F && c != 0x22 && c != 0x27 && c != 0x3D

/-- The bytes of a string that was copied: what follows the first zero is not. -/
def copied (fresh : Nat → UInt8) (bs : Text) : Text :=
  (List.range bs.length).map fun i => if 0 ∈ bs.take i then fresh i else bs.getD i 0

/-- `while (index < length && p(file[index])) next(file[index], ...)`. -/
def skipWhile (file : Bytes) (p : UInt8 → Bool) : Nat → Cursor → Checked Cursor
  | 0, cur => pure cur
  | n + 1, cur =>
    if cur.index < file.length then do
      let c ← read file cur.index
      if p c then skipWhile file p n (next c cur) else pure cur
    else pure cur

/-- `file[i] == b && file[i + 1] == ...`: a byte is read when those before it match. -/
def matchesAt (file : Bytes) (i : Nat) : Bytes → Checked Bool
  | [] => pure true
  | b :: bs => do
    let c ← read file i
    if c = b then matchesAt file (i + 1) bs else pure false

/-- Whether `bs` follows the byte at `index`. -/
def opens (file : Bytes) (slack index : Nat) (bs : Bytes) : Checked Bool :=
  if index < file.length + slack then matchesAt file (index + 1) bs else pure false

/-- The loops to the end of an instruction and of a comment. -/
def skipUntil (file close : Bytes) (slack : Nat) (move : UInt8 → Cursor → Cursor) : Nat → Cursor → Checked Cursor
  | 0, cur => pure cur
  | n + 1, cur =>
    if cur.index < file.length + slack then do
      if ← matchesAt file cur.index close then pure cur
      else do
        let c ← read file cur.index
        skipUntil file close slack move n (move c cur)
    else pure cur

/-- `for (int i = 0; i < n; i++) next(file[index], ...)`. -/
def skip (file : Bytes) : Nat → Cursor → Checked Cursor
  | 0, cur => pure cur
  | n + 1, cur => do
    let c ← read file cur.index
    skip file n (next c cur)

/-- From `<?` on, to behind `?>`. -/
def skipInstruction (file : Bytes) (cur : Cursor) : Checked Cursor := do
  let cur ← skipUntil file [0x3F, 0x3E] 1 advance (file.length + 1 - cur.index) cur
  pure { cur with index := cur.index + 2 }

/-- From `<!--` on, to behind `-->`. -/
def skipComment (file : Bytes) (cur : Cursor) : Checked Cursor := do
  let cur ← skip file 4 cur
  let cur ← skipUntil file [0x2D, 0x2D, 0x3E] 2 next (file.length + 2 - cur.index) cur
  skip file 3 cur

/-- The string between two indices. -/
def text (fresh : Nat → Nat → UInt8) (file : Bytes) (start stop : Nat) : Text :=
  copied (fresh start) ((file.drop start).take (stop - start))

/-- A token of the one byte `c`, which is the byte at the cursor. -/
def single (type : TokenType) (c : UInt8) (cur : Cursor) : XmlToken × Cursor :=
  (⟨type, [c], cur.line, cur.chr⟩, next c cur)

/-- The string that starts with the quote at the cursor. -/
def quoted (fresh : Nat → Nat → UInt8) (file : Bytes) (cur : Cursor) : Checked (XmlToken × Cursor) := do
  let c ← read file cur.index
  let start := next c cur
  let stop ← skipWhile file (fun c => c != 0x22) (file.length - start.index) start
  if stop.index = file.length then pure (⟨.EndOfFile, [], cur.line, cur.chr⟩, stop)
  else do
    let c ← read file stop.index
    pure (⟨.String, text fresh file start.index stop.index, cur.line, cur.chr⟩, next c stop)

def word (fresh : Nat → Nat → UInt8) (file : Bytes) (cur : Cursor) : Checked (XmlToken × Cursor) := do
  let stop ← skipWhile file IsValidString (file.length - cur.index) cur
  pure (⟨.String, text fresh file cur.index stop.index, cur.line, cur.chr⟩, stop)

def XmlTok (fresh : Nat → Nat → UInt8) (file : Bytes) : Nat → Cursor → Checked (XmlToken × Cursor)
  | 0, _ => .error .noReturn
  | fuel + 1, cur => do
    let cur ← skipWhile file IsWhitespace (file.length - cur.index) cur
    if cur.index = file.length then pure (⟨.EndOfFile, [], cur.line, cur.chr⟩, cur)
    else do
      let c ← read file cur.index
      if c = 0x3C then do
        if ← opens file 1 cur.index [0x3F] then do
          let cur ← skipInstruction file cur
          XmlTok fresh file fuel cur
        else do
          if ← opens file 3 cur.index [0x21, 0x2D, 0x2D] then do
            let cur ← skipComment file cur
            XmlTok fresh file fuel cur
          else pure (single .Open c cur)
      else if c = 0x3E then pure (single .Close c cur)
      else if c = 0x3D then pure (single .Equals c cur)
      else if c = 0x2F then pure (single .Slash c cur)
      else if c = 0x22 then quoted fresh file cur
      else word fresh file cur

/-- The tokens of `n` calls, one after the other. What is skipped takes at least two bytes
    a turn, so that `length + 1` turns are enough for each. -/
def tokens (fresh : Nat → Nat → UInt8) (file : Bytes) : Nat → Cursor → Checked (List XmlToken)
  | 0, _ => pure []
  | n + 1, cur => do
    let (tok, cur) ← XmlTok fresh file (file.length + 1) cur
    pure (tok :: (← tokens fresh file n cur))

/-! ## Documents -/

/-- What is skipped. -/
inductive Gap where
  | space (c : UInt8)
  | comment (body : Bytes)
  | instruction (body : Bytes)
  deriving DecidableEq, Repr

def Gap.bytes : Gap → Bytes
  | .space c => [c]
  | .comment body => [0x3C, 0x21, 0x2D, 0x2D] ++ body ++ [0x2D, 0x2D, 0x3E]
  | .instruction body => [0x3C, 0x3F] ++ body ++ [0x3F, 0x3E]

/-- No `--` in a comment; no `?` in an instruction, and no `>` at its start. -/
def Gap.Ok : Gap → Prop
  | .space c => IsWhitespace c = true
  | .comment body => ¬ [0x2D, 0x2D] <:+: body
  | .instruction body => 0x3F ∉ body ∧ body.head? ≠ some 0x3E

inductive Tok where
  | open_
  | close
  | equals
  | slash
  | quoted (bs : Bytes)
  | word (bs : Bytes)
  deriving DecidableEq, Repr

def Tok.bytes : Tok → Bytes
  | .open_ => [0x3C]
  | .close => [0x3E]
  | .equals => [0x3D]
  | .slash => [0x2F]
  | .quoted bs => [0x22] ++ bs ++ [0x22]
  | .word bs => bs

def Tok.Ok : Tok → Prop
  | .quoted bs => 0x22 ∉ bs ∧ 0 ∉ bs
  | .word bs => bs ≠ [] ∧ ∀ c ∈ bs, IsValidString c = true
  | _ => True

/-- What is to be read for a token. -/
def Tok.read : Tok → TokenType × Text
  | .open_ => (.Open, [0x3C])
  | .close => (.Close, [0x3E])
  | .equals => (.Equals, [0x3D])
  | .slash => (.Slash, [0x2F])
  | .quoted bs => (.String, bs)
  | .word bs => (.String, bs)

/-- A token and what is skipped in front of it. -/
structure Tile where
  gap : List Gap
  tok : Tok
  deriving DecidableEq, Repr

def gapBytes (gap : List Gap) : Bytes := gap.flatMap Gap.bytes

/-- What may follow what: words are kept apart, and a word behind an `Open` does not make it
    an instruction or a comment. -/
def Follows (a b : Tile) : Prop :=
  ∀ bs, b.tok = .word bs →
    ((∃ as, a.tok = .word as) → b.gap ≠ []) ∧ (a.tok = .open_ → bs.head? ≠ some 0x3F ∧ bs.head? ≠ some 0x21)

structure Document where
  tiles : List Tile
  trailing : List Gap
  gaps : ∀ t ∈ tiles, ∀ g ∈ t.gap, g.Ok
  toks : ∀ t ∈ tiles, t.tok.Ok
  follows : tiles.IsChain Follows
  closed : ∃ t, tiles.getLast? = some t ∧ t.tok = .close
  trail : ∀ g ∈ trailing, g.Ok

def render (tiles : List Tile) (trailing : List Gap) : Bytes :=
  tiles.flatMap (fun t => gapBytes t.gap ++ t.tok.bytes) ++ gapBytes trailing

end Rodvin.Kernel.XmlTokens
