/-
  Rodvin.Kernel.Paging — the x86-64 page tables (`kernel/src/x8664/map.cpp`).

  `platform_map` and `platform_unmap` reach every table through the virtual addresses
  that PML4 entry 511, which points to the PML4 itself, gives the tables. All their
  loads and stores go through the same four-level walk the hardware makes of any other
  address (`walk`); an address the walk does not resolve, or a store to a page that is
  not writable, is a page fault. Physical memory is a function from the number of a
  64-bit word to the word; the entry `i` of the table in frame `f` is word `512 * f + i`.

  Translations cached by the processor are not modelled (`invlpg` does nothing), nor are
  the accessed and dirty bits it sets in present entries.
-/

import Rodvin.Lib.BitField
import Rodvin.Lib.Runs

namespace Rodvin.Kernel.Paging

open Rodvin.Lib

/-! ## The hardware walk -/

/-- What the processor makes of a virtual page. -/
structure Translation where
  frame : Nat
  writable : Bool
  user : Bool
  executable : Bool
  deriving DecidableEq, Repr

/-- The index of `va` in its table of level `l`: 3 is the PML4, 0 the page table. -/
def index (l va : Nat) : Nat := va >>> (12 + 9 * l) &&& 0x1FF

def present (e : Nat) : Bool := e.testBit 0

def pageSize (e : Nat) : Bool := e.testBit 7

/-- Bits 12 to 51 of an entry. -/
def frameOf (e : Nat) : Nat := e >>> 12 % 2 ^ 40

/-- What an entry permits. -/
def permits (e frame : Nat) : Translation := ⟨frame, e.testBit 1, e.testBit 2, !e.testBit 63⟩

/-- An access has to be permitted at every level. -/
def Translation.under (t : Translation) (e : Nat) : Translation :=
  { t with
    writable := t.writable && e.testBit 1
    user := t.user && e.testBit 2
    executable := t.executable && !e.testBit 63 }

/-- The walk from the table of level `l` in frame `f`. Bit 7 makes an entry of level 1 or 2
    a large page; at level 3 it is reserved. -/
def walkFrom (mem : Nat → Nat) (va : Nat) : Nat → Nat → Option Translation
  | 0, f =>
    let e := mem (512 * f + index 0 va)
    if present e then some (permits e (frameOf e)) else none
  | l + 1, f =>
    let e := mem (512 * f + index (l + 1) va)
    if !present e then none
    else if pageSize e then
      if l + 1 = 3 then none
      else
        let size := 2 ^ (9 * (l + 1))
        some (permits e (frameOf e / size * size + va / 4096 % size))
    else (walkFrom mem va l (frameOf e)).map (·.under e)

/-! ## The kernel's accesses -/

/-- Physical memory, the frame of the PML4 and what the coming calls of `get_free_page` return. -/
structure Machine where
  mem : Nat → Nat
  cr3 : Nat
  free : List Nat

inductive Fault where
  | pageFault (va : Nat)
  | outOfPages
  deriving DecidableEq, Repr

abbrev Exec := StateT Machine (Except Fault)

def walk (m : Machine) (va : Nat) : Option Translation := walkFrom m.mem va 3 m.cr3

/-- The word that a translation of `va` reaches. -/
def wordOf (t : Translation) (va : Nat) : Nat := 512 * t.frame + va % 4096 / 8

def load (va : Nat) : Exec Nat := fun m =>
  match walk m va with
  | some t => .ok (m.mem (wordOf t va), m)
  | none => .error (.pageFault va)

def Machine.put (m : Machine) (a w : Nat) : Machine := { m with mem := Function.update m.mem a w }

def store (va w : Nat) : Exec Unit := fun m =>
  match walk m va with
  | some t => if t.writable then .ok ((), m.put (wordOf t va) w) else .error (.pageFault va)
  | none => .error (.pageFault va)

def getFreePage : Exec Nat := fun m =>
  match m.free with
  | page :: rest => .ok (page, { m with free := rest })
  | [] => .error .outOfPages

/-- `memset(s, 0, 8 * n)`. -/
def memset (s : Nat) : Nat → Exec Unit
  | 0 => pure ()
  | n + 1 => do
    store s 0
    memset (s + 8) n

/-! ## `struct pte` -/

namespace Pte

def p : BitField := ⟨0, 1⟩
def rw : BitField := ⟨1, 1⟩
def us : BitField := ⟨2, 1⟩
def pwt : BitField := ⟨3, 1⟩
def pcd : BitField := ⟨4, 1⟩
def pat : BitField := ⟨7, 1⟩
def g : BitField := ⟨8, 1⟩
def addr : BitField := ⟨12, 40⟩
def nx : BitField := ⟨63, 1⟩

end Pte

/-- Assignments to fields of the entry at `va`, one after the other. -/
def assign (va : Nat) : List (BitField × Nat) → Exec Unit
  | [] => pure ()
  | (b, v) :: fs => do
    let w ← load va
    store va (b.set v w)
    assign va fs

/-! ## `map.cpp` -/

inductive MappingUse where
  | DeviceRegisters
  | DeviceMemory
  | ReadWriteMemory
  | ReadOnlyMemory
  | CopyOnWriteMemory
  | ExecutableMemory
  deriving DecidableEq, Repr

/-- The fields of an entry for a new table. -/
def tableFields (page : Nat) : List (BitField × Nat) :=
  [(Pte.addr, page >>> 12), (Pte.p, 1), (Pte.rw, 1), (Pte.us, 1), (Pte.pwt, 1), (Pte.pcd, 1)]

/-- The block of `platform_map` for one upper level: `entries` is where its tables appear,
    `tables` where the tables of the next level do. -/
def ensure (entries tables t : Nat) : Exec Unit := do
  let w ← load (entries + 8 * t)
  if Pte.p.get w = 0 then
    let page ← getFreePage
    assign (entries + 8 * t) (tableFields page)
    memset (tables + t <<< 12) 512

/-- The fields of the leaf before the `switch`. -/
def leafFields (physaddr : Nat) : List (BitField × Nat) :=
  [(Pte.addr, physaddr >>> 12), (Pte.p, 1), (Pte.rw, 1), (Pte.us, 0), (Pte.nx, 1), (Pte.g, 1), (Pte.pcd, 0),
    (Pte.pwt, 0), (Pte.pat, 0)]

/-- The `switch (use)`. -/
def useFields : MappingUse → List (BitField × Nat)
  | .DeviceRegisters | .DeviceMemory | .ReadWriteMemory => []
  | .ReadOnlyMemory | .CopyOnWriteMemory => [(Pte.rw, 0)]
  | .ExecutableMemory => [(Pte.nx, 0)]

def platformMap (virt_addr physaddr : Nat) (use : MappingUse) : Exec Unit := do
  ensure 0xFFFFFFFFFFFFF000 0xFFFFFFFFFFE00000 (virt_addr >>> (12 + 9 * 3) &&& 0x1FF)
  ensure 0xFFFFFFFFFFE00000 0xFFFFFFFFC0000000 (virt_addr >>> (12 + 9 * 2) &&& 0x3FFFF)
  ensure 0xFFFFFFFFC0000000 0xFFFFFF8000000000 (virt_addr >>> (12 + 9 * 1) &&& 0x7FFFFFF)
  let entry := 0xFFFFFF8000000000 + 8 * (virt_addr >>> (12 + 9 * 0) &&& 0xFFFFFFFFF)
  assign entry (leafFields physaddr)
  assign entry (useFields use)

def platformUnmap (addr : Nat) : Exec Nat := do
  let w ← load (0xFFFFFFFFFFFFF000 + 8 * (addr >>> (12 + 9 * 3) &&& 0x1FF))
  if Pte.p.get w = 0 then return 0
  let w ← load (0xFFFFFFFFFFE00000 + 8 * (addr >>> (12 + 9 * 2) &&& 0x3FFFF))
  if Pte.p.get w = 0 then return 0
  let w ← load (0xFFFFFFFFC0000000 + 8 * (addr >>> (12 + 9 * 1) &&& 0x7FFFFFF))
  if Pte.p.get w = 0 then return 0
  let entry := 0xFFFFFF8000000000 + 8 * (addr >>> (12 + 9 * 0) &&& 0xFFFFFFFFF)
  let w ← load entry
  if Pte.p.get w = 0 then return 0
  let w ← load entry
  let p := Pte.addr.get w <<< 12
  assign entry [(Pte.p, 0)]
  return p

/-! ## Runs -/

inductive Op where
  | map (virt_addr physaddr : Nat) (use : MappingUse)
  | unmap (addr : Nat)
  deriving DecidableEq, Repr

def exec : Op → Exec Nat
  | .map v p use => do
    platformMap v p use
    return 0
  | .unmap v => platformUnmap v

/-- Addresses outside the recursive window, physical addresses of 52 bits. -/
def Valid : Op → Prop
  | .map v p _ => index 3 v ≠ 511 ∧ p < 2 ^ 52
  | .unmap v => index 3 v ≠ 511

instance : (op : Op) → Decidable (Valid op)
  | .map v p _ => inferInstanceAs (Decidable (index 3 v ≠ 511 ∧ p < 2 ^ 52))
  | .unmap v => inferInstanceAs (Decidable (index 3 v ≠ 511))

def Step (m : Machine) (op : Op) (m' : Machine) : Prop := Valid op ∧ ∃ r, exec op m = .ok (r, m')

/-! ## Page tables in order -/

/-- The tables that `root` reaches without its entry 511: `Table mem root π f` when the
    indices `π`, the last one first, lead to the table in frame `f`. -/
inductive Table (mem : Nat → Nat) (root : Nat) : List Nat → Nat → Prop
  | root : Table mem root [] root
  | child {π : List Nat} {f i : Nat} : Table mem root π f → π.length < 3 → i < 512 → (π = [] → i ≠ 511) →
      present (mem (512 * f + i)) → Table mem root (i :: π) (frameOf (mem (512 * f + i)))

/-- An entry of an upper level that is present: writable, executable, no large page. -/
def Upper (e : Nat) : Prop := present e ∧ e.testBit 1 ∧ pageSize e = false ∧ e.testBit 63 = false

structure Tables (mem : Nat → Nat) (root : Nat) : Prop where
  recursive : present (mem (512 * root + 511)) ∧ frameOf (mem (512 * root + 511)) = root
  once : ∀ {π π' f}, Table mem root π f → Table mem root π' f → π = π'
  upper : ∀ {π f i}, Table mem root π f → π.length < 3 → i < 512 → present (mem (512 * f + i)) →
    Upper (mem (512 * f + i))
  absent : ∀ {π f i}, Table mem root π f → π.length < 3 → i < 512 → present (mem (512 * f + i)) = false →
    mem (512 * f + i) = 0

/-- The pages that `get_free_page` returns: aligned, below 2^52, each once, none a page table. -/
structure Fresh (m : Machine) : Prop where
  aligned : ∀ page ∈ m.free, page % 4096 = 0 ∧ page < 2 ^ 52
  nodup : m.free.Nodup
  apart : ∀ {π f}, Table m.mem m.cr3 π f → 4096 * f ∉ m.free

structure WellFormed (m : Machine) : Prop where
  tables : Tables m.mem m.cr3
  fresh : Fresh m

/-- The mapping that `platform_map(_, physaddr, use)` asks for. -/
def mapping (physaddr : Nat) (use : MappingUse) : Translation where
  frame := physaddr >>> 12
  writable := !(use == .ReadOnlyMemory || use == .CopyOnWriteMemory)
  user := false
  executable := use == .ExecutableMemory

/-- Two addresses of one page (bits 12 to 47). -/
def SamePage (v v' : Nat) : Prop := v / 4096 % 2 ^ 36 = v' / 4096 % 2 ^ 36

instance (v v' : Nat) : Decidable (SamePage v v') := inferInstanceAs (Decidable (_ = _))

end Rodvin.Kernel.Paging
