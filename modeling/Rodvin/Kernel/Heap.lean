/-
  Rodvin.Kernel.Heap — the kernel heap (`kernel/src/common/mem.cpp`: `malloc_entry`,
  `malloc_reserve`, `malloc`, `free`).

  Memory is a map from addresses to 8-byte words; a `malloc_entry` is the four words at
  its address, a pointer is an address and arithmetic on both is `size_t` arithmetic.
  The search of `malloc` runs on fuel: a result is the result of a search that ends.
  `free` has no result where the source prints a message and stops.

  A run calls `malloc` and `free` and writes words into live payloads. `live` lists the
  pointers returned and not freed, with the sizes asked for.
-/

import Rodvin.Lib.Runs
import Rodvin.Lib.Words

namespace Rodvin.Kernel.Heap

open Rodvin.Lib

/-- The fields of `malloc_entry`. -/
inductive Field where
  | next
  | prev
  | length
  | free
  deriving DecidableEq, Repr

def Field.offset : Field → Nat
  | .next => 0
  | .prev => 8
  | .length => 16
  | .free => 24

/-- `sizeof(malloc_entry)`. -/
def entrySize : Nat := 32

/-- `sizeof(malloc_reserve.reserve)`. -/
def reserveSize : Nat := 1024 * 1024 * 32

/-- Where `malloc_reserve` lies: not at `NULL`, and with its end in the address space. -/
structure Reserve where
  base : Nat
  pos : 0 < base
  fits : base + (entrySize + reserveSize) < 2 ^ 64

structure Mem where
  word : Nat → Nat
  lastUsed : Nat

def get (h : Mem) (p : Nat) (f : Field) : Nat := h.word (p + f.offset)

def put (h : Mem) (p : Nat) (f : Field) (v : Nat) : Mem :=
  { h with word := Function.update h.word (p + f.offset) v }

/-- `malloc_reserve` all zero and `last_used` at its entry. -/
def init (r : Reserve) : Mem := ⟨fun _ => 0, r.base⟩

/-- The first lines of `malloc`: the first call makes the reserve one free block. -/
def ready (h : Mem) : Mem :=
  let cur := h.lastUsed
  if get h cur .prev = 0 then
    let h := put h cur .next cur
    let h := put h cur .prev (get h cur .next)
    let h := put h cur .length reserveSize
    put h cur .free 1
  else h

/-- `while (!cur->free || cur->length < size) cur = cur->next;` -/
def search (h : Mem) (size : Nat) : Nat → Nat → Option Nat
  | 0, _ => none
  | fuel + 1, cur =>
    if get h cur .free = 0 ∨ get h cur .length < size then search h size fuel (get h cur .next) else some cur

/-- Where the entry behind an allocation of `size` bytes in `cur` goes. -/
def splitPoint (cur size : Nat) : Nat := add64 (add64 cur (add64 size 15 &&& 0xFFFFFFF0)) entrySize

/-- The body of the `if` of `malloc`: `cur` is cut at `next`. -/
def split (h : Mem) (cur next : Nat) : Mem :=
  let h := put h next .free 1
  let h := put h next .length (sub64 (get h cur .length) (sub64 next cur))
  let h := put h cur .length (sub64 (sub64 next cur) entrySize)
  let h := put h next .prev cur
  let h := put h next .next (get h cur .next)
  let h := put h (get h next .next) .prev next
  let h := put h (get h next .prev) .next next
  { h with lastUsed := next }

def malloc (fuel size : Nat) (h : Mem) : Option (Nat × Mem) :=
  let h := ready h
  (search h size fuel h.lastUsed).map fun cur =>
    let h := put h cur .free 0
    let h := if add64 size entrySize ≤ get h cur .length then split h cur (splitPoint cur size) else h
    (add64 cur entrySize, h)

/-- `prev` takes in `cur`, the block behind it. -/
def mergePrev (h : Mem) (cur : Nat) : Mem :=
  let h := put h (get h cur .prev) .length (add64 (get h (get h cur .prev) .length) (add64 (get h cur .length) entrySize))
  let h := put h (get h cur .prev) .next (get h cur .next)
  put h (get h cur .next) .prev (get h cur .prev)

/-- `cur` takes in `next`, the block behind it. -/
def mergeNext (h : Mem) (cur : Nat) : Mem :=
  let h := put h cur .length (add64 (get h cur .length) (add64 (get h (get h cur .next) .length) entrySize))
  let h := put h cur .next (get h (get h cur .next) .next)
  put h (get h cur .next) .prev cur

/-- `b` begins where the block `a` ends. -/
def Contiguous (h : Mem) (a b : Nat) : Prop := add64 (add64 a (get h a .length)) entrySize = b

instance (h : Mem) (a b : Nat) : Decidable (Contiguous h a b) := inferInstanceAs (Decidable (_ = _))

/-- The first `if` of `free`, with the block `cur` names afterwards. -/
def coalescePrev (h : Mem) (cur : Nat) : Mem × Nat :=
  if get h (get h cur .prev) .free ≠ 0 ∧ Contiguous h (get h cur .prev) cur then
    (mergePrev h cur, get (mergePrev h cur) cur .prev)
  else (h, cur)

/-- The second `if` of `free`. -/
def coalesceNext (h : Mem) (cur : Nat) : Mem :=
  if get h (get h cur .next) .free ≠ 0 ∧ Contiguous h cur (get h cur .next) then mergeNext h cur else h

/-- `free` from the entry in front of the payload on. -/
def freeEntry (cur : Nat) (h : Mem) : Option Mem :=
  if 1 < get h cur .free then none              -- "MEMORY CORRUPTION", while(1)
  else if get h cur .free ≠ 0 then none         -- "DOUBLE FREE!", while(1)
  else
    let h := put h cur .free 1
    let (h, cur) := coalescePrev h cur
    let h := coalesceNext h cur
    some { h with lastUsed := cur }

def free (p : Nat) (h : Mem) : Option Mem :=
  if p = 0 then some h else freeEntry (sub64 p entrySize) h

/-! ## Runs -/

structure St where
  heap : Mem
  live : List (Nat × Nat)

inductive Ev where
  | malloc (fuel size : Nat)
  | free (p : Nat)
  | store (p i v : Nat)
  deriving Repr

def initSt (r : Reserve) : St := ⟨init r, []⟩

def apply (s : St) : Ev → Option St
  | .malloc fuel size => (malloc fuel size s.heap).map fun r => ⟨r.2, (r.1, size) :: s.live⟩
  | .free p => (free p s.heap).map fun h => ⟨h, s.live.filter fun a => a.1 ≠ p⟩
  | .store p i v => some { s with heap := { s.heap with word := Function.update s.heap.word (p + 8 * i) v } }

/-- Sizes are `size_t`; what is freed is live; a word written starts inside the bytes that
    were asked for. -/
def Valid (s : St) : Ev → Prop
  | .malloc _ size => size < 2 ^ 64
  | .free p => ∃ a ∈ s.live, a.1 = p
  | .store p i _ => ∃ a ∈ s.live, a.1 = p ∧ 8 * i < a.2

def Step (s : St) (e : Ev) (t : St) : Prop := Valid s e ∧ apply s e = some t

instance (s : St) (e : Ev) : Decidable (Valid s e) :=
  match e with
  | .malloc _ _ => inferInstanceAs (Decidable (_ < _))
  | .free _ => inferInstanceAs (Decidable (∃ a ∈ s.live, _ = _))
  | .store _ _ _ => inferInstanceAs (Decidable (∃ a ∈ s.live, _ ∧ _))

/-! ## Blocks -/

structure Block where
  addr : Nat
  length : Nat
  free : Bool
  deriving DecidableEq, Repr

/-- The address behind a block. -/
def Block.stop (b : Block) : Nat := b.addr + entrySize + b.length

/-- The blocks cover the addresses from `lo` to `hi`, one directly behind the other. -/
def Tiles (lo : Nat) : List Block → Nat → Prop
  | [], hi => lo = hi
  | b :: bs, hi => b.addr = lo ∧ Tiles b.stop bs hi

/-- A heap whose blocks, from the first entry on, are `bs`. -/
structure HeapOk (r : Reserve) (s : St) (bs : List Block) : Prop where
  /-- The entries hold what the list says. -/
  entries : ∀ b ∈ bs, get s.heap b.addr .length = b.length ∧ get s.heap b.addr .free = b.free.toNat
  /-- Following `next` visits the blocks in the order of the list and comes back. -/
  visits : ∀ i (hi : i < bs.length), (fun p => get s.heap p .next)^[i] r.base = bs[i].addr
  returns : (fun p => get s.heap p .next)^[bs.length] r.base = r.base
  increasing : bs.Pairwise fun a b => a.addr < b.addr
  tiles : Tiles r.base bs (r.base + entrySize + reserveSize)
  inverse : ∀ b ∈ bs, get s.heap (get s.heap b.addr .next) .prev = b.addr
  rounded : ∀ b ∈ bs, b.length % 16 = 0
  coalesced : bs.IsChain fun a b => ¬ (a.free = true ∧ b.free = true)
  lastUsed : ∃ b ∈ bs, b.addr = s.heap.lastUsed
  payload : ∀ a ∈ s.live, ∃ b ∈ bs, b.addr + entrySize = a.1 ∧ b.free = false ∧ a.2 ≤ b.length
  disjoint : s.live.Pairwise fun a b => a.1 + a.2 ≤ b.1 ∨ b.1 + b.2 ≤ a.1
  allFree : s.live = [] → bs = [⟨r.base, reserveSize, true⟩]

/-- No subtraction wraps when the block that `malloc` finds is split. -/
def SplitFits (h : Mem) (size : Nat) : Prop :=
  ∀ fuel cur, search (ready h) size fuel (ready h).lastUsed = some cur → add64 size entrySize ≤ get (ready h) cur .length →
    cur ≤ splitPoint cur size ∧ splitPoint cur size - cur ≤ get (ready h) cur .length ∧
      entrySize ≤ splitPoint cur size - cur

end Rodvin.Kernel.Heap
