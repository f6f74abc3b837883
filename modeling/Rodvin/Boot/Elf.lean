/-
  Rodvin.Boot.Elf — `elf_check` and `elf_load` (`boot/loader/src/elf.cpp`) for x86-64.

  The image is the bytes from the header on; it lies in the memory of the loader, which
  no store of `elf_load` to a `Target` address reaches.

  `elf_load_right_iff`, for images in reach: when `elf_load` returns, every page of a
  segment was mapped before the segment was stored. The bytes are right exactly when no
  page that is mapped for an unaligned segment is cleared into the page behind it over an
  earlier segment: `map_page_to` clears 4096 bytes from the address it is given, not from
  the start of its page. In the first 16 MB, which lie under large pages, it takes memory
  for the entries of a table; segments there are out of reach (`SegmentsInReach`).
-/

import Rodvin.Lib.Bytes
import Rodvin.Boot.Memory

namespace Rodvin.Boot

open Rodvin.Lib

/-! ## The image -/

def field (file : Nat → UInt8) (offset n : Nat) : Nat := ofLE (slice file offset n)

def eType (file : Nat → UInt8) : Nat := field file 16 2
def eMachine (file : Nat → UInt8) : Nat := field file 18 2
def eVersion (file : Nat → UInt8) : Nat := field file 20 4
def ePhoff (file : Nat → UInt8) : Nat := field file 32 8
def ePhentsize (file : Nat → UInt8) : Nat := field file 54 2
def ePhnum (file : Nat → UInt8) : Nat := field file 56 2

def elfCheck (file : Nat → UInt8) : Bool :=
  if eType file ≠ 2 then false
  else if eVersion file ≠ 1 then false
  else if eMachine file ≠ 0x3E then false
  else true

/-- `struct elf_program_header`: the fields that are read. -/
structure ProgramHeader where
  p_offset : Nat
  p_vaddr : Nat
  p_filesz : Nat
  p_memsz : Nat
  deriving DecidableEq

def programHeader (file : Nat → UInt8) (entry : Nat) : ProgramHeader where
  p_offset := field file (entry + 8) 8
  p_vaddr := field file (entry + 16) 8
  p_filesz := field file (entry + 32) 8
  p_memsz := field file (entry + 40) 8

/-- The headers that `entry` points to, one after the other. -/
def phdrs (file : Nat → UInt8) : List ProgramHeader :=
  (List.range (ePhnum file)).map fun i => programHeader file (ePhoff file + i * ePhentsize file)

/-! ## `elf_load` -/

/-- `(entry->p_memsz + 4096 - 1) >> 12`. -/
def pageCount (s : ProgramHeader) : Nat := add64 s.p_memsz 4095 >>> 12

def mapPages (vaddr : Nat) : Nat → Machine → Checked Machine
  | 0, m => pure m
  | n + 1, m => do
    let m ← mapPages vaddr n m
    mapPageTo (vaddr + n <<< 12) m

/-- `while (bytecount > 0) { bytecount--; dst[bytecount] = ...; }`. -/
def fill (dst bytecount : Nat) (b : Nat → UInt8) (m : Machine) : Checked Machine :=
  storeAll ((List.range bytecount).reverse.map (dst + ·)) (fun va => b (va - dst)) m

def loadSegment (file : Nat → UInt8) (m : Machine) (entry : ProgramHeader) : Checked Machine := do
  let m ← mapPages entry.p_vaddr (pageCount entry) m
  let m ← fill entry.p_vaddr entry.p_filesz (fun i => file (entry.p_offset + i)) m
  fill (entry.p_vaddr + entry.p_filesz) (entry.p_memsz - entry.p_filesz) (fun _ => 0) m

def ProgramHeader.Has (s : ProgramHeader) (va : Nat) : Prop := s.p_vaddr ≤ va ∧ va < s.p_vaddr + s.p_memsz

/-- An image that is accepted, with segments of proper sizes and disjoint. -/
structure Image where
  file : Nat → UInt8
  accepted : elfCheck file = true
  sizes : ∀ s ∈ phdrs file, s.p_filesz ≤ s.p_memsz
  disjoint : (phdrs file).Pairwise fun s t => ∀ va, ¬ (s.Has va ∧ t.Has va)

/-- The byte that belongs at `va`. -/
def wanted (file : Nat → UInt8) (s : ProgramHeader) (va : Nat) : UInt8 :=
  if va < s.p_vaddr + s.p_filesz then file (s.p_offset + (va - s.p_vaddr)) else 0

/-- The pages mapped for the segments. -/
def Called (pre : List ProgramHeader) (page : Nat) : Prop := ∃ s ∈ pre, ∃ j < pageCount s, page = s.p_vaddr / 4096 + j

/-- The call for page `j` of `s` maps it, and so clears 4096 bytes. -/
def Opens (pre : List ProgramHeader) (s : ProgramHeader) (j : Nat) : Prop :=
  j < pageCount s ∧ ¬ Called pre (s.p_vaddr / 4096 + j)

/-- `va` is among the bytes cleared when the pages of `s` are mapped. -/
def Clears (pre : List ProgramHeader) (s : ProgramHeader) (va : Nat) : Prop :=
  ∃ j, Opens pre s j ∧ s.p_vaddr + 4096 * j ≤ va ∧ va < s.p_vaddr + 4096 * j + 4096

/-- The segment loads without a fault: what is cleared and stored is mapped by then. -/
def Fits (pre : List ProgramHeader) (s : ProgramHeader) : Prop :=
  (∀ j, Opens pre s j → s.p_vaddr % 4096 = 0 ∨ Called pre (s.p_vaddr / 4096 + j + 1)) ∧
    ∀ va, s.Has va → Called (pre ++ [s]) (va / 4096)

def Returns (file : Nat → UInt8) : Prop := ∀ pre s post, phdrs file = pre ++ s :: post → Fits pre s

end Rodvin.Boot
