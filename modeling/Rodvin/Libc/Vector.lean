/-
  Rodvin.Libc.Vector — `std::vector` (`kernel/src/libc/vector`).

  A buffer is the slots that a call of `malloc` has room for; a slot holds an element
  from its construction to its destruction. Constructing outside the buffer and reading,
  assigning or destroying a slot without element are faults. `NULL` is the buffer without
  room. `malloc` never returns when no free block is large enough, so each operation comes
  with the requests that are served while it runs. The result of `operator=`, which returns
  nothing, is not used.
-/

import Mathlib.Data.PNat.Basic
import Mathlib.Logic.Function.Basic
import Rodvin.Lib.Checked
import Rodvin.Lib.Words

namespace Rodvin.Libc

open Rodvin.Lib

variable {T : Type}

structure Buf (T : Type) where
  room : Nat
  slot : Nat → Option T

namespace Buf

def load (b : Buf T) (i : Nat) : Checked T :=
  match b.slot i with
  | some x => .ok x
  | none => fault

/-- `new(&buf[i]) T(x)`. -/
def construct (b : Buf T) (i : Nat) (x : T) : Checked (Buf T) :=
  if i < b.room then .ok { b with slot := Function.update b.slot i (some x) } else fault

/-- `buf[i] = x`. -/
def assign (b : Buf T) (i : Nat) (x : T) : Checked (Buf T) :=
  if (b.slot i).isSome then .ok { b with slot := Function.update b.slot i (some x) } else fault

/-- `buf[i].~T()`. -/
def destroy (b : Buf T) (i : Nat) : Checked (Buf T) :=
  if (b.slot i).isSome then .ok { b with slot := Function.update b.slot i none } else fault

/-- Copies of the elements `n`, `n + 1`, .. of `old`, `k` of them. -/
def copyFrom (old : Buf T) : Nat → Nat → Buf T → Checked (Buf T)
  | 0, _, b => pure b
  | k + 1, n, b => do
    let x ← old.load n
    let b ← b.construct n x
    copyFrom old k (n + 1) b

def destroyFrom : Nat → Nat → Buf T → Checked (Buf T)
  | 0, _, b => pure b
  | k + 1, n, b => do
    let b ← b.destroy n
    destroyFrom k (n + 1) b

end Buf

/-- What an operation has to do with `malloc`: the size of an element, and the requests for which
    a free block is found. No operation makes the same request twice. -/
structure Alloc where
  sizeof : ℕ+
  gives : Nat → Bool

structure Vec (T : Type) where
  buf : Buf T
  size : Nat
  capacity : Nat

namespace Vec

variable (a : Alloc)

def init : Vec T := ⟨⟨0, fun _ => none⟩, 0, 0⟩

/-- `malloc(n * sizeof(T))`; the product is a `size_t`. -/
def malloc (n : Nat) : Checked (Buf T) :=
  if a.gives (n * a.sizeof % 2 ^ 64) then pure ⟨n * a.sizeof % 2 ^ 64 / a.sizeof, fun _ => none⟩
  else .error .noReturn

def reserve (newCapacity : Nat) (v : Vec T) : Checked (Vec T) :=
  if newCapacity < v.capacity then pure v
  else do
    let newbuf ← malloc a newCapacity
    let newbuf ← v.buf.copyFrom v.size 0 newbuf
    let _ ← v.buf.destroyFrom v.size 0
    pure { v with buf := newbuf, capacity := newCapacity }

/-- The first two lines of `push_back` and `emplace_back`. -/
def makeRoom (v : Vec T) : Checked (Vec T) := do
  let v ← if v.capacity < 8 then v.reserve a 8 else pure v
  if v.capacity < add64 v.size 1 then v.reserve a (v.capacity * 2 % 2 ^ 64) else pure v

/-- `push_back` and `emplace_back`, once the element is there. -/
def append (x : T) (v : Vec T) : Checked (Vec T) := do
  let v ← v.makeRoom a
  let buf ← v.buf.construct v.size x
  pure { v with buf := buf, size := add64 v.size 1 }

def pushBack (elem : T) : Vec T → Checked (Vec T) := append a elem

def emplaceBack (elem : T) : Vec T → Checked (Vec T) := append a elem

def popBack (v : Vec T) : Checked (Vec T) := do
  let size := sub64 v.size 1
  let buf ← v.buf.destroy size
  pure { v with buf := buf, size := size }

/-- `while (size() > n) pop_back()`, in at most as many turns as there are elements. -/
def popDown (n : Nat) : Nat → Vec T → Checked (Vec T)
  | 0, v => pure v
  | k + 1, v => if n < v.size then do popDown n k (← v.popBack) else pure v

def clear (v : Vec T) : Checked (Vec T) := popDown 0 v.size v

/-- `k` more elements `T()`. -/
def fill [Inhabited T] : Nat → Vec T → Checked (Vec T)
  | 0, v => pure v
  | k + 1, v => do
    let buf ← v.buf.construct v.size default
    fill k { v with buf := buf, size := add64 v.size 1 }

def resize [Inhabited T] (newSize : Nat) (v : Vec T) : Checked (Vec T) :=
  if newSize < v.size then popDown newSize v.size v
  else do
    let v ← if newSize < v.capacity then v.reserve a newSize else pure v
    fill (newSize - v.size) v

/-- `push_back` of the elements `n`, `n + 1`, .. of `w`, `k` of them. -/
def pushFrom (w : Vec T) : Nat → Nat → Vec T → Checked (Vec T)
  | 0, _, v => pure v
  | k + 1, n, v => do
    let x ← w.buf.load n
    let v ← v.pushBack a x
    pushFrom w k (n + 1) v

/-- The copy constructor. -/
def copy (w : Vec T) : Checked (Vec T) := do
  let v ← init.reserve a w.size
  pushFrom a w w.size 0 v

/-- `n < size() < v.size() ? size() : v.size()`, the condition of the first loop of
    `operator=`: the comparison on the right is with a `bool`. -/
def goesOn (n size vsize : Nat) : Nat := if (if n < size then 1 else 0) < vsize then size else vsize

/-- That loop: it goes on while the condition is not zero. -/
def overwrite (w : Vec T) : Nat → Nat → Vec T → Checked (Nat × Vec T)
  | 0, _, _ => .error .noReturn
  | fuel + 1, n, v =>
    if goesOn n v.size w.size ≠ 0 then do
      let x ← w.buf.load n
      let buf ← v.buf.assign n x
      overwrite w fuel (n + 1) { v with buf := buf }
    else pure (n, v)

/-- `operator=` before its loops. -/
def adapt (w v : Vec T) : Checked (Vec T) := do
  let v ← popDown w.size v.size v
  if v.capacity < w.size then do
    let v ← v.clear
    v.reserve a w.size
  else pure v

/-- `v = w`; the fuel lets the loop read past the last element of `w`. -/
def assign (w v : Vec T) : Checked (Vec T) := do
  let v ← adapt a w v
  let (n, v) ← overwrite w (w.size + 1) 0 v
  pushFrom a w (w.size - n) n v

/-! ## Sequences -/

/-- An operation on the vectors of a program, by number. -/
inductive Op (T : Type) where
  | construct
  | copy (j : Nat)
  | assign (i j : Nat)
  | pushBack (i : Nat) (elem : T)
  | emplaceBack (i : Nat) (elem : T)
  | popBack (i : Nat)
  | reserve (i newCapacity : Nat)
  | resize (i newSize : Nat)
  | clear (i : Nat)

def on (vs : List (Vec T)) (i : Nat) (f : Vec T → Checked (Vec T)) : Checked (List (Vec T)) := do
  let v ← read vs i
  let v ← f v
  pure (vs.set i v)

def apply [Inhabited T] (vs : List (Vec T)) : Op T → Checked (List (Vec T))
  | .construct => pure (vs ++ [init])
  | .copy j => do
    let w ← read vs j
    let v ← copy a w
    pure (vs ++ [v])
  | .assign i j => do
    let w ← read vs j
    on vs i (assign a w)
  | .pushBack i elem => on vs i (pushBack a elem)
  | .emplaceBack i elem => on vs i (emplaceBack a elem)
  | .popBack i => on vs i popBack
  | .reserve i newCapacity => on vs i (reserve a newCapacity)
  | .resize i newSize => on vs i (resize a newSize)
  | .clear i => on vs i clear

/-- The list operations; `none` where the vector must not be called so. -/
def listOp [Inhabited T] (ls : List (List T)) : Op T → Option (List (List T))
  | .construct => some (ls ++ [[]])
  | .copy j => ls[j]?.map fun l => ls ++ [l]
  | .assign i j => if i < ls.length ∧ i ≠ j then ls[j]?.map fun l => ls.set i l else none
  | .pushBack i elem => ls[i]?.map fun l => ls.set i (l ++ [elem])
  | .emplaceBack i elem => ls[i]?.map fun l => ls.set i (l ++ [elem])
  | .popBack i => ls[i]?.bind fun l => if l = [] then none else some (ls.set i l.dropLast)
  | .reserve i newCapacity => if i < ls.length ∧ newCapacity < 2 ^ 64 then some ls else none
  | .resize i newSize => if newSize < 2 ^ 64 then
      ls[i]?.map fun l => ls.set i (l.take newSize ++ List.replicate (newSize - l.length) default) else none
  | .clear i => ls[i]?.map fun _ => ls.set i []

/-- A vector and the list of its elements. -/
structure Agrees (v : Vec T) (l : List T) : Prop where
  size : v.size = l.length
  capacity : v.size ≤ v.capacity
  room : v.capacity ≤ v.buf.room
  contents : ∀ i < l.length, v.buf.slot i = l[i]?

/-- Every operation of the sequence, each with the requests it is served, ends without a fault and
    does what it does to the lists. -/
def Refines [Inhabited T] (sizeof : ℕ+) (vs : List (Vec T)) (ls : List (List T)) : List ((Nat → Bool) × Op T) → Prop
  | [] => True
  | (gives, op) :: ops => ∀ ls', listOp ls op = some ls' →
      ∃ vs', apply ⟨sizeof, gives⟩ vs op = .ok vs' ∧ List.Forall₂ Agrees vs' ls' ∧ Refines sizeof vs' ls' ops

/-- `n` elements have a size in bytes that a `size_t` holds. -/
def Sized (sizeof : ℕ+) (n : Nat) : Prop := n * sizeof < 2 ^ 64

/-- And a block for them is found. -/
def Fits (n : Nat) : Prop := Sized a.sizeof n ∧ a.gives (n * a.sizeof) = true

/-- The capacity that `push_back` asks for, if any. -/
def needed (v : Vec T) : Option Nat :=
  if v.capacity < 8 then some 8 else if v.size = v.capacity then some (v.capacity * 2) else none

/-- A copy of `size` elements into `capacity` slots asks for eight where there are fewer. -/
def PushOk (size capacity : Nat) : Prop := size ≠ 0 → capacity < 8 → Fits a 8

/-- The condition on two vectors for `operator=`. -/
def AssignOk (w v : Vec T) : Prop :=
  (v.capacity < w.size → Fits a w.size) ∧ (w.size = 0 ∨ v.size = 0 ∨ v.capacity < w.size) ∧
    PushOk a w.size (max v.capacity w.size)

def StepOk (vs : List (Vec T)) : Op T → Prop
  | .copy j => ∀ w, vs[j]? = some w → Fits a w.size ∧ PushOk a w.size w.size
  | .assign i j => ∀ v w, vs[i]? = some v → vs[j]? = some w → AssignOk a w v
  | .pushBack i _ => ∀ v, vs[i]? = some v → ∀ n ∈ v.needed, Fits a n
  | .emplaceBack i _ => ∀ v, vs[i]? = some v → ∀ n ∈ v.needed, Fits a n
  | .reserve i newCapacity => ∀ v, vs[i]? = some v → newCapacity < v.capacity ∨ Fits a newCapacity
  | .resize i newSize => ∀ v, vs[i]? = some v → newSize ≤ v.capacity
  | _ => True

def Meets [Inhabited T] (sizeof : ℕ+) (vs : List (Vec T)) (ls : List (List T)) : List ((Nat → Bool) × Op T) → Prop
  | [] => True
  | (gives, op) :: ops => ∀ ls', listOp ls op = some ls' →
      StepOk ⟨sizeof, gives⟩ vs op ∧ ∀ vs', apply ⟨sizeof, gives⟩ vs op = .ok vs' → Meets sizeof vs' ls' ops

end Vec

end Rodvin.Libc
