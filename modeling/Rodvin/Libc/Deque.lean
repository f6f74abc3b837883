/-
  Rodvin.Libc.Deque — `std::deque` (`kernel/src/libc/deque`), a doubly linked list of
  strides of 255 slots with 8-bit cursors.
-/

import Mathlib.Algebra.Group.Nat.Defs
import Mathlib.Data.List.Basic
import Mathlib.Data.List.Chain
import Mathlib.Logic.Function.Basic

namespace Rodvin.Libc

variable {T : Type}

/-- `struct stride`. A slot of `buf` is `none` while it is raw memory: nothing was
    constructed in it, or what was has been destroyed. -/
structure Stride (T : Type) where
  next : Option Nat
  prev : Option Nat
  buf : Nat → Option T
  first : Nat
  last : Nat

/-- `buf[i]`, for an index computed as an `int`; `none` outside the buffer. -/
def Stride.slot (s : Stride T) (i : Int) : Option T :=
  if 0 ≤ i ∧ i < 255 then s.buf i.toNat else none

/-- `heap` holds the strides that `new` returned and `delete` has not taken yet;
    `fresh` is the next address. -/
structure Deque (T : Type) where
  heap : Nat → Option (Stride T)
  fresh : Nat
  first : Nat
  last : Nat
  /-- What each destructor call was applied to: `none` for a slot with no live
      element in it (or no slot at all). -/
  destroyed : List (Option T)

namespace Deque

/-- The default constructor. -/
def init : Deque T where
  heap := Function.update (fun _ => none) 0 (some ⟨none, none, fun _ => none, 0, 0⟩)
  fresh := 1
  first := 0
  last := 0
  destroyed := []

def empty (d : Deque T) : Option Bool := do
  let f ← d.heap d.first
  return d.first == d.last && f.first == f.last

/-- The loop of `size`; `fuel` bounds the strides it walks. -/
def sizeFrom (d : Deque T) : Nat → Nat → Nat → Option Nat
  | 0, _, _ => none
  | fuel + 1, s, n => do
    let st ← d.heap s
    let n := (n + (2 ^ 64 + st.last - st.first)) % 2 ^ 64
    if s = d.last then return n
    else sizeFrom d fuel (← st.next) n

/-- `size()`. No more strides are chained than were ever allocated. -/
def size (d : Deque T) : Option Nat := sizeFrom d d.fresh d.first 0

def front (d : Deque T) : Option T := do
  let f ← d.heap d.first
  f.slot f.first

def back (d : Deque T) : Option T := do
  let l ← d.heap d.last
  l.slot ((l.last : Int) - 1)

def reserve1AtBegin (d : Deque T) : Option (Deque T) := do
  let f ← d.heap d.first
  if f.first = 0 then
    let n := d.fresh
    let heap := Function.update d.heap n (some ⟨some d.first, none, fun _ => none, 255, 255⟩)
    return { d with heap := Function.update heap d.first (some { f with prev := some n })
                    fresh := n + 1
                    first := n }
  else return d

def reserve1AtEnd (d : Deque T) : Option (Deque T) := do
  let l ← d.heap d.last
  if l.last = 255 then
    let n := d.fresh
    let heap := Function.update d.heap n (some ⟨none, some d.last, fun _ => none, 0, 0⟩)
    return { d with heap := Function.update heap d.last (some { l with next := some n })
                    fresh := n + 1
                    last := n }
  else return d

def pushBack (d : Deque T) (v : T) : Option (Deque T) := do
  let d ← reserve1AtEnd d
  let l ← d.heap d.last
  let l : Stride T := { l with buf := Function.update l.buf l.last (some v), last := (l.last + 1) % 256 }
  return { d with heap := Function.update d.heap d.last (some l) }

def pushFront (d : Deque T) (v : T) : Option (Deque T) := do
  let d ← reserve1AtBegin d
  let f ← d.heap d.first
  let i := (f.first + 255) % 256
  let f : Stride T := { f with buf := Function.update f.buf i (some v), first := i }
  return { d with heap := Function.update d.heap d.first (some f) }

/-- The destructor is applied to the slot at `last->last`, before the decrement. -/
def popBack (d : Deque T) : Option (Deque T) := do
  let l ← d.heap d.last
  let destroyed := d.destroyed ++ [l.slot l.last]
  let l : Stride T := { l with buf := Function.update l.buf l.last none, last := (l.last + 255) % 256 }
  let d : Deque T := { d with heap := Function.update d.heap d.last (some l), destroyed := destroyed }
  if l.last = 0 ∧ d.first ≠ d.last then
    let n := d.last
    let p ← l.prev
    let pl ← d.heap p
    let heap := Function.update d.heap p (some { pl with next := none })
    return { d with heap := Function.update heap n none, last := p }
  else return d

def popFront (d : Deque T) : Option (Deque T) := do
  let f ← d.heap d.first
  let destroyed := d.destroyed ++ [f.slot f.first]
  let f : Stride T := { f with buf := Function.update f.buf f.first none, first := (f.first + 1) % 256 }
  let d : Deque T := { d with heap := Function.update d.heap d.first (some f), destroyed := destroyed }
  if f.first = 255 ∧ d.first ≠ d.last then
    let n := d.first
    let q ← f.next
    let qf ← d.heap q
    let heap := Function.update d.heap q (some { qf with prev := none })
    return { d with heap := Function.update heap n none, first := q }
  else return d

end Deque

end Rodvin.Libc
