/-
  Rodvin.Boot.Memory — the loader's page tables (`boot/loader/src/mem.cpp`) and its stores.

  `map_page_to` sees the tables of each level as one array of entries, which the entry
  511 of the top level makes appear at fixed addresses; `entries l` is the array of level
  `l` (3 is the top, 0 the pages). An address is translated when all four of its entries
  are present, and a store anywhere else is a fault, from which the loader does not
  return. Physical memory is a function from addresses to bytes.

  The machine starts as the boot sector leaves it: the first 16 MB under large pages, the
  top entry 511 for the tables themselves. `Target` is the rest of the address space.
-/

import Rodvin.Lib.Checked
import Rodvin.Lib.Words

namespace Rodvin.Boot

open Rodvin.Lib

/-- `struct pte`: the fields the loader sets. -/
structure Pte where
  p : Bool
  rw : Bool
  us : Bool
  pwt : Bool
  pcd : Bool
  g : Bool
  nx : Bool
  addr : Nat
  deriving DecidableEq

def Pte.zero : Pte := ⟨false, false, false, false, false, false, false, 0⟩

/-- `mapped` records what `map_page_to` was called with; the code keeps no such list. -/
structure Machine where
  gfp_cur : Nat
  entries : Nat → Nat → Pte
  phys : Nat → UInt8
  mapped : List Nat

/-- Where the entry for an address stands in the array of level `l`. -/
def index (l va : Nat) : Nat := va >>> (12 + 9 * l) &&& (2 ^ (9 * (4 - l)) - 1)

/-- The addresses whose bits 47 to 63 agree. -/
def Canonical (va : Nat) : Prop := va < 2 ^ 47 ∨ 2 ^ 64 - 2 ^ 47 ≤ va ∧ va < 2 ^ 64

instance (va : Nat) : Decidable (Canonical va) := inferInstanceAs (Decidable (_ < _ ∨ _ ≤ _ ∧ _ < _))

/-- All four entries of the address are present. -/
def Reached (m : Machine) (va : Nat) : Prop :=
  (m.entries 3 (index 3 va)).p ∧ (m.entries 2 (index 2 va)).p ∧ (m.entries 1 (index 1 va)).p ∧ (m.entries 0 (index 0 va)).p

instance (m : Machine) (va : Nat) : Decidable (Reached m va) := inferInstanceAs (Decidable (_ ∧ _ ∧ _ ∧ _))

def translate (m : Machine) (va : Nat) : Option Nat :=
  if Canonical va ∧ Reached m va then some (4096 * (m.entries 0 (index 0 va)).addr + va % 4096) else none

def store (m : Machine) (va : Nat) (b : UInt8) : Checked Machine :=
  match translate m va with
  | some pa => pure { m with phys := Function.update m.phys pa b }
  | none => fault

/-- A store to each of the addresses in turn. -/
def storeAll (vas : List Nat) (b : Nat → UInt8) (m : Machine) : Checked Machine :=
  vas.foldlM (fun m va => store m va (b va)) m

/-- `clearpage`, each of its stores as the eight bytes it consists of. -/
def clearpage (page : Nat) (m : Machine) : Checked Machine :=
  storeAll ((List.range 4096).map (page + ·)) (fun _ => 0) m

/-! ## `map_page_to` -/

def Machine.setEntry (m : Machine) (l t : Nat) (e : Pte) : Machine :=
  { m with entries := fun l' t' => if l' = l ∧ t' = t then e else m.entries l' t' }

/-- `clearpage` of a table of level `l`, the one with the entries from `512 * t` on. -/
def Machine.clearTable (m : Machine) (l t : Nat) : Machine :=
  { m with entries := fun l' t' => if l' = l ∧ t' / 512 = t then Pte.zero else m.entries l' t' }

/-- The block for one upper level. -/
def mapTable (l t : Nat) (m : Machine) : Machine :=
  if (m.entries l t).p = false then
    let page := m.gfp_cur
    let e := m.entries l t
    let m := { m with gfp_cur := page + 4096 }
    let m := m.setEntry l t { e with addr := page >>> 12, p := true, rw := true, us := true, pwt := true, pcd := true }
    m.clearTable (l - 1) t
  else m

/-- The block for the page itself. -/
def mapLeaf (todovirt : Nat) (m : Machine) : Checked Machine :=
  let t := todovirt >>> (12 + 9 * 0) &&& 0xFFFFFFFFF
  if (m.entries 0 t).p = false then
    let page := m.gfp_cur
    let e := m.entries 0 t
    let m := { m with gfp_cur := page + 4096 }
    let m := m.setEntry 0 t
      { e with addr := page >>> 12, p := true, rw := true, us := false, g := true, nx := false, pwt := true, pcd := true }
    clearpage todovirt m
  else pure m

def mapPageTo (todovirt : Nat) (m : Machine) : Checked Machine := do
  let m := mapTable 3 (todovirt >>> (12 + 9 * 3) &&& 0x1FF) m
  let m := mapTable 2 (todovirt >>> (12 + 9 * 2) &&& 0x3FFFF) m
  let m := mapTable 1 (todovirt >>> (12 + 9 * 1) &&& 0x7FFFFFF) m
  let m ← mapLeaf todovirt m
  pure { m with mapped := m.mapped ++ [todovirt] }

/-! ## The start -/

/-- What the boot sector's tables give: the upper entries of the first 16 MB and entry 511. -/
def bootPresent (l t : Nat) : Bool :=
  (l == 3 && (t == 0 || t == 511)) || (l == 2 && t == 0) || (l == 1 && t < 8)

def bootAddr (l t : Nat) : Nat :=
  if l = 3 then (if t = 511 then 1 else 2) else if l = 2 then 3 else 512 * t

def boot (phys : Nat → UInt8) : Machine where
  gfp_cur := 0x100000
  entries l t := if bootPresent l t then ⟨true, true, true, false, false, false, false, bootAddr l t⟩ else Pte.zero
  phys := phys
  mapped := []

/-- What an image can be loaded to: canonical, behind the first 16 MB, in front of the tables. -/
def Target (va : Nat) : Prop := 2 ^ 24 ≤ va ∧ va < 2 ^ 47 ∨ 2 ^ 64 - 2 ^ 47 ≤ va ∧ va < 2 ^ 64 - 2 ^ 39

end Rodvin.Boot
