/-
  Rodvin.Libc.Str — `rodvin::string` (`kernel/src/libc/string`): the constructors,
  assignment, `+=`, `substr`, `replace`, `reserve`, `resize`, `clear`, `pop_back` and
  `push_back`.

  A string is its three fields. `storage` is the buffer it owns, or nothing for `NULL`;
  every access to a buffer is checked. `new char[n]` gives `n` bytes of unknown content
  and does not return when the heap cannot hold them (`malloc` then searches for ever).
  The content of fresh memory is a parameter, `fresh`, of each operation.

  A run works on a growing list of strings, named by their position. Where the argument
  of `+=` and of `replace` can be the string itself, that case is spelled out: its bytes
  are then read from the buffer being written.
-/

import Rodvin.Lib.Runs
import Rodvin.Lib.Words
import Rodvin.Libc.CString

namespace Rodvin.Libc

open Rodvin.Lib

structure Str where
  storage : Option Bytes
  size_ : Nat
  capacity_ : Nat
  deriving DecidableEq

namespace Str

/-- More than the heap can ever hold in one block. -/
def heapLimit : Nat := 1024 * 1024 * 32

def new (fresh : Nat → UInt8) (n : Nat) : Checked Bytes :=
  if n ≤ heapLimit then pure ((List.range n).map fresh) else .error .noReturn

def deref : Option Bytes → Checked Bytes
  | none => fault
  | some b => pure b

/-! ## Construction and assignment -/

/-- `string()`. -/
def empty : Str := ⟨none, 0, 0⟩

/-- `string(const string&)`. -/
def copy (fresh : Nat → UInt8) (str : Str) : Checked Str := do
  let size := str.size_
  let storage ← new fresh (add64 size 1)
  let storage ← strcpy storage 0 (← deref str.storage)
  pure ⟨some storage, size, size⟩

/-- `string(const char*)`, of the memory from the pointer on. -/
def ofCString (fresh : Nat → UInt8) (data : Bytes) : Checked Str := do
  let size ← strlen data
  let storage ← new fresh (add64 size 1)
  let storage ← strcpy storage 0 data
  pure ⟨some storage, size, size⟩

/-- `string(const char* begin, const char* end)`, of the bytes between them. -/
def ofRange (fresh : Nat → UInt8) (data : Bytes) : Checked Str := do
  let size := data.length
  let storage ← new fresh (add64 size 1)
  let storage ← memcpy storage 0 data 0 size
  let storage ← write storage size 0
  pure ⟨some storage, size, size⟩

/-- `operator=` from another string; what the fields held before is dropped. -/
def assign (fresh : Nat → UInt8) (_self str : Str) : Checked Str := do
  let size := str.size_
  let storage ← new fresh (add64 size 1)
  let storage ← strcpy storage 0 (← deref str.storage)
  pure ⟨some storage, size, size⟩

/-! ## Growing and shrinking -/

def reserve (fresh : Nat → UInt8) (s : Str) (size : Nat) : Checked Str :=
  if size < s.capacity_ then pure s
  else do
    let buf ← new fresh (add64 size 1)
    let buf ← memcpy buf 0 (← deref s.storage) 0 (add64 s.capacity_ 1)
    pure ⟨some buf, s.size_, size⟩

/-- `if (size > capacity_) reserve(size);` -/
def reserveIf (fresh : Nat → UInt8) (s : Str) (size : Nat) : Checked Str :=
  if s.capacity_ < size then reserve fresh s size else pure s

/-- `while (size_ < size) storage[size_++] = 0`, `n` times. -/
def fillZero (b : Bytes) (size_ : Nat) : Nat → Checked Bytes
  | 0 => pure b
  | n + 1 => do
    let b ← write b size_ 0
    fillZero b (size_ + 1) n

def resize (fresh : Nat → UInt8) (s : Str) (size : Nat) : Checked Str := do
  let s ← reserveIf fresh s size
  let storage ← fillZero (← deref s.storage) s.size_ (size - s.size_)
  let storage ← write storage size 0
  pure ⟨some storage, size, s.capacity_⟩

def clear (fresh : Nat → UInt8) (s : Str) : Checked Str := resize fresh s 0

/-- The loop of `pop_back` and the decrement behind it, from a given `size_`; at 0 it reads
    in front of the buffer. -/
def popScan (b : Bytes) : Nat → Checked Nat
  | 0 => fault
  | n + 1 => do
    let c ← read b n
    if c &&& 0xC0 = 0x80 then popScan b n else pure n

def popBack (s : Str) : Checked Str := do
  let size ← popScan (← deref s.storage) s.size_
  pure { s with size_ := size }

/-- The bytes `push_back` stores for a code point. -/
def utf8 (wchar : UInt32) : Bytes :=
  if wchar ≤ 0x7F then [wchar.toUInt8]
  else if wchar ≤ 0x7FF then [(((wchar >>> 6) &&& 0x1F) ||| 0xC0).toUInt8, ((wchar &&& 0x3F) ||| 0x80).toUInt8]
  else if wchar ≤ 0xFFFF then
    [(((wchar >>> 12) &&& 0x0F) ||| 0xE0).toUInt8, (((wchar >>> 6) &&& 0x3F) ||| 0x80).toUInt8,
      ((wchar &&& 0x3F) ||| 0x80).toUInt8]
  else
    [(((wchar >>> 18) &&& 0x07) ||| 0xF0).toUInt8, (((wchar >>> 12) &&& 0x3F) ||| 0x80).toUInt8,
      (((wchar >>> 6) &&& 0x3F) ||| 0x80).toUInt8, ((wchar &&& 0x3F) ||| 0x80).toUInt8]

/-- `storage[size_++] = c` for each of the bytes. -/
def store (b : Bytes) (size_ : Nat) : Bytes → Checked Bytes
  | [] => pure b
  | c :: cs => do
    let b ← write b size_ c
    store b (size_ + 1) cs

def pushBack (fresh : Nat → UInt8) (s : Str) (wchar : UInt32) : Checked Str := do
  let s ← reserve fresh s (add64 s.size_ 8)
  let storage ← store (← deref s.storage) s.size_ (utf8 wchar)
  let size := s.size_ + (utf8 wchar).length
  let storage ← write storage size 0
  pure ⟨some storage, size, s.capacity_⟩

/-! ## UTF-16 and UTF-32 data -/

/-- The empty string with room for eight bytes, from which both constructors start. -/
def roomForEight (fresh : Nat → UInt8) : Checked Str := do
  let storage ← new fresh 9
  let storage ← write storage 0 0
  pure ⟨some storage, 0, 8⟩

/-- `getUtf16Char`, with the data behind the character. -/
def getUtf16Char : List UInt16 → Checked (UInt32 × List UInt16)
  | [] => fault
  | u :: us =>
    if 0xD800 ≤ u ∧ u ≤ 0xDBFF then
      match us with
      | [] => fault
      | v :: vs =>
        if 0xDC00 ≤ v ∧ v ≤ 0xDFFF then
          pure ((((u.toUInt32 <<< 10) &&& 0xFFC00) ||| (v.toUInt32 &&& 0x3FF)) + 0x10000, vs)
        else pure (0xFFFD, us)
    else if 0xDC00 ≤ u ∧ u ≤ 0xDFFF then pure (0xFFFD, us)
    else pure (u.toUInt32, us)

/-- `while (*data) push_back(getUtf16Char(data))`; `n` bounds the turns by the data. -/
def pushUtf16 (fresh : Nat → Nat → UInt8) (s : Str) : Nat → List UInt16 → Checked Str
  | _, [] => fault
  | 0, _ => fault
  | n + 1, u :: us =>
    if u ≠ 0 then do
      let c ← getUtf16Char (u :: us)
      let s ← pushBack (fresh n) s c.1
      pushUtf16 fresh s n c.2
    else pure s

/-- `string(uint16_t*)`, of the memory from the pointer on. -/
def ofUtf16 (fresh : Nat → Nat → UInt8) (data : List UInt16) : Checked Str := do
  let s ← roomForEight (fresh data.length)
  pushUtf16 fresh s data.length data

def pushUtf32 (fresh : Nat → Nat → UInt8) (s : Str) : List UInt32 → Checked Str
  | [] => fault
  | c :: cs =>
    if c ≠ 0 then do
      let s ← pushBack (fresh cs.length) s c
      pushUtf32 fresh s cs
    else pure s

/-- `string(uint32_t*)`, of the memory from the pointer on. -/
def ofUtf32 (fresh : Nat → Nat → UInt8) (data : List UInt32) : Checked Str := do
  let s ← roomForEight (fresh data.length)
  pushUtf32 fresh s data

/-! ## Appending, parts and replacing -/

/-- `strcpy(storage + size_, str.data())`; `str` is nothing for the string itself. -/
def putString (b : Bytes) (size_ : Nat) : Option Str → Checked Bytes
  | some str => do strcpy b size_ (← deref str.storage)
  | none => strcpyWithin b size_ 0 (b.length - size_)

/-- `operator+=`. -/
def append (fresh : Nat → UInt8) (s : Str) (str : Option Str) : Checked Str := do
  let n := (str.getD s).size_
  let s ← reserve fresh s (add64 s.size_ n)
  let b ← deref s.storage
  let b ← putString b s.size_ str
  pure ⟨some b, add64 s.size_ n, s.capacity_⟩

def npos : Nat := 2 ^ 64 - 1

def substr (fresh : Nat → UInt8) (s : Str) (start n : Nat) : Checked Str := do
  let bytesToCopy := if n = npos then sub64 s.size_ start else n
  let rv ← resize fresh empty bytesToCopy
  let b ← memcpy (← deref rv.storage) 0 (← deref s.storage) start bytesToCopy
  let b ← write b bytesToCopy 0
  pure { rv with storage := some b }

/-- `memcpy(storage + start, replaceant.data(), n)`; `replaceant` is nothing for the string
    itself. -/
def putBytes (b : Bytes) (start n : Nat) : Option Str → Checked Bytes
  | some replaceant => do memcpy b start (← deref replaceant.storage) 0 n
  | none => memmove b start 0 n

/-- `replace`, with `delta` an `int`. -/
def replace (fresh : Nat → UInt8) (s : Str) (start length : Nat) (replaceant : Option Str) : Checked Str := do
  let n := (replaceant.getD s).size_
  let newSize := add64 s.size_ (int32 (sub64 n length))
  let s ← reserveIf fresh s newSize
  let b ← deref s.storage
  let b ← memmove b (start + n) (start + length) (sub64 (sub64 s.size_ length) start)
  let b ← putBytes b start n replaceant
  let b ← write b newSize 0
  pure ⟨some b, newSize, s.capacity_⟩

/-! ## Runs -/

inductive Op where
  | default
  | cstring (data : Bytes)
  | range (data : Bytes)
  | utf16 (data : List UInt16)
  | utf32 (data : List UInt32)
  | copy (j : Nat)
  | assign (i j : Nat)
  | append (i j : Nat)
  | pushBack (i : Nat) (wchar : UInt32)
  | popBack (i : Nat)
  | reserve (i size : Nat)
  | resize (i size : Nat)
  | clear (i : Nat)
  | substr (i start n : Nat)
  | replace (i start length j : Nat)
  deriving Repr

/-- The string at a position that is taken (`Valid`). -/
def obj (ss : List Str) (i : Nat) : Str := ss.getD i empty

/-- The argument of an operation that may be the string itself. -/
def other (ss : List Str) (i j : Nat) : Option Str := if i = j then none else some (obj ss j)

def apply (fresh : Nat → Nat → UInt8) (ss : List Str) : Op → Checked (List Str)
  | .default => pure (ss ++ [empty])
  | .cstring data => do pure (ss ++ [← ofCString (fresh 0) data])
  | .range data => do pure (ss ++ [← ofRange (fresh 0) data])
  | .utf16 data => do pure (ss ++ [← ofUtf16 fresh data])
  | .utf32 data => do pure (ss ++ [← ofUtf32 fresh data])
  | .copy j => do pure (ss ++ [← copy (fresh 0) (obj ss j)])
  | .assign i j => do pure (ss.set i (← assign (fresh 0) (obj ss i) (obj ss j)))
  | .append i j => do pure (ss.set i (← append (fresh 0) (obj ss i) (other ss i j)))
  | .pushBack i wchar => do pure (ss.set i (← pushBack (fresh 0) (obj ss i) wchar))
  | .popBack i => do pure (ss.set i (← popBack (obj ss i)))
  | .reserve i size => do pure (ss.set i (← reserve (fresh 0) (obj ss i) size))
  | .resize i size => do pure (ss.set i (← resize (fresh 0) (obj ss i) size))
  | .clear i => do pure (ss.set i (← clear (fresh 0) (obj ss i)))
  | .substr i start n => do pure (ss ++ [← substr (fresh 0) (obj ss i) start n])
  | .replace i start length j => do pure (ss.set i (← replace (fresh 0) (obj ss i) start length (other ss i j)))

/-- No object is larger than the largest difference of two pointers. -/
def objectLimit : Nat := 2 ^ 63

/-- Strings are named that exist, data ends with a zero, ranges lie inside the string. -/
def Valid (ss : List Str) : Op → Prop
  | .default => True
  | .cstring data => 0 ∈ data ∧ data.length < objectLimit
  | .range data => data.length < objectLimit
  | .utf16 data => 0 ∈ data
  | .utf32 data => 0 ∈ data
  | .copy j => j < ss.length
  | .assign i j => i < ss.length ∧ j < ss.length ∧ i ≠ j
  | .append i j => i < ss.length ∧ j < ss.length
  | .pushBack i _ => i < ss.length
  | .popBack i => i < ss.length ∧ 0 < (obj ss i).size_
  | .reserve i size => i < ss.length ∧ size < 2 ^ 64
  | .resize i size => i < ss.length ∧ size < 2 ^ 64
  | .clear i => i < ss.length
  | .substr i start n =>
    i < ss.length ∧ start ≤ (obj ss i).size_ ∧ (n = npos ∨ start + n ≤ (obj ss i).size_)
  | .replace i start length j => i < ss.length ∧ j < ss.length ∧ start + length ≤ (obj ss i).size_

/-- The representation: a buffer of `capacity_ + 1` bytes with a zero at `size_`. -/
structure Owns (s : Str) (b : Bytes) : Prop where
  storage : s.storage = some b
  length : b.length = s.capacity_ + 1
  size : s.size_ ≤ s.capacity_
  terminated : b[s.size_]? = some 0

def Good (s : Str) : Prop := ∃ b, Owns s b

/-- The bytes of a string. -/
def bytes (s : Str) : Bytes := (s.storage.getD []).take s.size_

/-- When an operation keeps the representation: no string is default-constructed and no
    part taken; what is copied or assigned has no zero among its bytes; what is appended is
    another string without one, or empty, or it has one and the byte at the new size is
    zero already; the character taken off is a zero byte; and no capacity of `npos` is
    asked for. -/
def StepOk (ss : List Str) : Op → Prop
  | .default => False
  | .cstring _ => True
  | .range _ => True
  | .utf16 _ => True
  | .utf32 _ => True
  | .copy j => 0 ∉ bytes (obj ss j)
  | .assign _ j => 0 ∉ bytes (obj ss j)
  | .append i j =>
    (i ≠ j ∧ 0 ∉ bytes (obj ss j)) ∨ (obj ss j).size_ = 0 ∨
      (0 ∈ bytes (obj ss j) ∧ ((obj ss i).storage.getD [])[(obj ss i).size_ + (obj ss j).size_]? = some 0)
  | .pushBack _ _ => True
  | .popBack i => (bytes (obj ss i)).reverse.find? (fun c => c &&& 0xC0 ≠ 0x80) = some 0
  | .reserve _ size => size ≠ npos
  | .resize _ size => size ≠ npos
  | .clear _ => True
  | .substr _ _ _ => False
  | .replace _ _ _ _ => True

def Step (ss : List Str) (op : Op) (ts : List Str) : Prop := Valid ss op ∧ ∃ fresh, apply fresh ss op = .ok ts

def OkStep (ss : List Str) (op : Op) (ts : List Str) : Prop := StepOk ss op ∧ Step ss op ts

instance (ss : List Str) (op : Op) : Decidable (Valid ss op) :=
  match op with
  | .default => isTrue trivial
  | .cstring _ => inferInstanceAs (Decidable (_ ∧ _ < _))
  | .range _ => inferInstanceAs (Decidable (_ < _))
  | .utf16 _ => inferInstanceAs (Decidable (_ ∈ _))
  | .utf32 _ => inferInstanceAs (Decidable (_ ∈ _))
  | .copy _ => inferInstanceAs (Decidable (_ < _))
  | .assign _ _ => inferInstanceAs (Decidable (_ < _ ∧ _ < _ ∧ _ ≠ _))
  | .append _ _ => inferInstanceAs (Decidable (_ < _ ∧ _ < _))
  | .pushBack _ _ => inferInstanceAs (Decidable (_ < _))
  | .popBack _ => inferInstanceAs (Decidable (_ < _ ∧ _ < _))
  | .reserve _ _ => inferInstanceAs (Decidable (_ < _ ∧ _ < _))
  | .resize _ _ => inferInstanceAs (Decidable (_ < _ ∧ _ < _))
  | .clear _ => inferInstanceAs (Decidable (_ < _))
  | .substr _ _ _ => inferInstanceAs (Decidable (_ < _ ∧ _ ≤ _ ∧ (_ = _ ∨ _ ≤ _)))
  | .replace _ _ _ _ => inferInstanceAs (Decidable (_ < _ ∧ _ < _ ∧ _ ≤ _))

instance (ss : List Str) (op : Op) : Decidable (StepOk ss op) :=
  match op with
  | .default => isFalse id
  | .cstring _ => isTrue trivial
  | .range _ => isTrue trivial
  | .utf16 _ => isTrue trivial
  | .utf32 _ => isTrue trivial
  | .copy _ => inferInstanceAs (Decidable (_ ∉ _))
  | .assign _ _ => inferInstanceAs (Decidable (_ ∉ _))
  | .append _ _ => inferInstanceAs (Decidable ((_ ≠ _ ∧ _ ∉ _) ∨ _ = _ ∨ (_ ∈ _ ∧ _ = _)))
  | .pushBack _ _ => isTrue trivial
  | .popBack _ => inferInstanceAs (Decidable (_ = _))
  | .reserve _ _ => inferInstanceAs (Decidable (_ ≠ _))
  | .resize _ _ => inferInstanceAs (Decidable (_ ≠ _))
  | .clear _ => isTrue trivial
  | .substr _ _ _ => isFalse id
  | .replace _ _ _ _ => isTrue trivial

end Str

end Rodvin.Libc
