/-
  Rodvin.Starfs.Ownership — who has which blocks of a volume.

  An inode in use has the blocks of its extent; inode 4 has the free ones. `Owned` says
  that each has them for itself. The requests that change a volume write inodes
  (`Writes`), and `WriteOk` is the condition on such a write: what it needs where the file
  stands belongs to nobody else, and the inode table is not written as a file.
-/

import Rodvin.Lib.Runs
import Rodvin.Starfs.Operations

namespace Rodvin.Starfs.Ownership

open Rodvin.Lib

/-! ## Blocks -/

/-- Block `b` lies in the extent of inode `n`. -/
def Holds (s : Fs) (n b : Nat) : Prop :=
  (s.ino n).ext.startblock ≤ b ∧ b < (s.ino n).ext.startblock + (s.ino n).ext.length

/-- Inode `n` is in use and has blocks. -/
structure Used (s : Fs) (n : Nat) : Prop where
  lt : n < (s.ino 2).filesize / 32
  linked : (s.ino n).linkcount ≠ 0
  placed : (s.ino n).ext.startblock ≠ INVALID_BLOCK

/-- The extents of the inodes in use are disjoint and lie on a disk of `blocks` blocks. -/
structure Owned (blocks : Nat) (s : Fs) : Prop where
  disjoint : ∀ n k, Used s n → Used s k → n ≠ k → ∀ b, Holds s n b → ¬ Holds s k b
  inside : ∀ n, Used s n → (s.ino n).ext.startblock + (s.ino n).ext.length ≤ blocks

/-- `length` blocks from `start` on lie on the disk, and none is one of another inode in use. -/
structure Clear (blocks : Nat) (s : Fs) (n start length : Nat) : Prop where
  inside : start + length ≤ blocks
  apart : ∀ k, Used s k → k ≠ n → ∀ b, start ≤ b → b < start + length → ¬ Holds s k b

/-! ## Requests -/

inductive Request where
  | create (path : Path)
  | mkdir (path : Path)
  | write (path : Path) (buf : List UInt8) (offset : Nat)
  | truncate (path : Path) (size : Nat)
  | unlink (path : Path)
  deriving Repr

def Request.run : Request → Fuse Int
  | create path => do return (← Starfs.create path).1
  | mkdir path => Starfs.mkdir path
  | write path buf offset => writeFile path buf offset
  | truncate path size => Starfs.truncate path size
  | unlink path => Starfs.unlink path

/-- A request that returns, and found an inode and blocks where it needed them. -/
def Step (s : Fs) (req : Request) (t : Fs) : Prop := (∃ r, req.run s = .ok (r, t)) ∧ t.exhausted = false

/-- The request may hand `size` bytes for inode `ino` to `writeinode`: `create` and `mkdir` one
    more entry, if the directory does not have the name, `unlink` a content that is not longer.
    What `mkdir` writes for the new inode is left out. -/
inductive Writes (s : Fs) : Request → Nat → Nat → Prop
  | create {path npath : Path} {name : Name} {ino : Nat} {t : Fs} : getparentinode path s = .ok (ino, t) →
      splitLast path = some (npath, name) → (s.ino ino).flags &&& INO_DIRECTORY ≠ 0 →
      Writes s (.create path) ino (7 + name.length + (s.ino ino).filesize)
  | mkdir {path npath : Path} {name : Name} {ino : Nat} {t : Fs} : getparentinode path s = .ok (ino, t) →
      splitLast path = some (npath, name) → (s.ino ino).flags &&& INO_DIRECTORY ≠ 0 →
      Writes s (.mkdir path) ino (7 + name.length + (s.ino ino).filesize)
  | write {path : Path} {buf : List UInt8} {offset ino : Nat} {t : Fs} : getinode path s = .ok (ino, t) →
      Writes s (.write path buf offset) ino (max (s.ino ino).filesize (add64 buf.length offset))
  | truncate {path : Path} {size ino : Nat} {t : Fs} : getinode path s = .ok (ino, t) →
      (s.ino ino).flags &&& INO_SYSTEM = 0 → size < (s.ino ino).filesize → Writes s (.truncate path size) ino size
  | unlink {path : Path} {file size ino : Nat} {t u : Fs} : getinode path s = .ok (file, t) →
      (s.ino file).flags &&& (INO_DIRECTORY ||| INO_SYSTEM) = 0 → getparentinode path t = .ok (ino, u) →
      (s.ino ino).flags &&& INO_DIRECTORY ≠ 0 → size ≤ (s.ino ino).filesize → Writes s (.unlink path) ino size

/-! ## When blocks stay owned -/

/-- The blocks of inode `i` when it holds `size` bytes where it stands. -/
def span (i : Inode) (size : Nat) : Nat := max i.ext.length ((size + 4095) / 4096)

/-- Writing `size` bytes for inode `ino` does not take blocks of another inode. -/
inductive WriteOk (blocks : Nat) (s : Fs) (ino size : Nat) : Prop
  | nothing : size = 0 → WriteOk blocks s ino size
  | refused : (s.ino ino).flags &&& INO_SYSTEM ≠ 0 → (s.ino ino).filesize < size → WriteOk blocks s ino size
  | first : (s.ino ino).flags &&& INO_SYSTEM = 0 → (s.ino ino).ext = ⟨INVALID_BLOCK, 0⟩ → size < 2 ^ 63 → WriteOk blocks s ino size
  | own : ino ≠ 2 → Clear blocks s ino (s.ino ino).ext.startblock (span (s.ino ino) size) → WriteOk blocks s ino size

def Request.Meets (blocks : Nat) (s : Fs) (req : Request) : Prop :=
  ∀ ino size, Writes s req ino size → WriteOk blocks s ino size

def OkStep (blocks : Nat) (s : Fs) (req : Request) (t : Fs) : Prop := req.Meets blocks s ∧ Step s req t

end Rodvin.Starfs.Ownership
