/-
  Rodvin.Starfs.LinkCounts — the operations that touch link counts, and what the counts
  are to be: the entries that name an inode, and the open handles on it.

  `create` and `open` hand out a handle, `release` takes one back. What an operation
  needs for the counts to stay right is in `Op.Meets`, about the state before it and the
  lookups it makes first.
-/

import Rodvin.Starfs.DirectoryMaps

namespace Rodvin.Starfs

open Rodvin.Lib

/-! ## Operations and handles -/

structure World where
  fs : Fs
  handles : List Nat

inductive Op where
  | create (path : Path)
  | mkdir (path : Path)
  | openFile (path : Path)
  | release (fh : Nat)
  | unlink (path : Path)
  | rmdir (path : Path)
  | link (source target : Path)

namespace Op

def run (w : World) : Op → Checked World
  | create path => (Starfs.create path w.fs).map fun r => ⟨r.2, r.1.2.toList ++ w.handles⟩
  | mkdir path => (Starfs.mkdir path w.fs).map fun r => ⟨r.2, w.handles⟩
  | openFile path => (Starfs.openFile path w.fs).map fun r => ⟨r.2, r.1.2.toList ++ w.handles⟩
  | release fh => (Starfs.release fh w.fs).map fun r => ⟨r.2, w.handles.erase fh⟩
  | unlink path => (Starfs.unlink path w.fs).map fun r => ⟨r.2, w.handles⟩
  | rmdir path => (Starfs.rmdir path w.fs).map fun r => ⟨r.2, w.handles⟩
  | link source target => (Starfs.link source target w.fs).map fun r => ⟨r.2, w.handles⟩

/-- The paths are C strings. -/
def Terminated : Op → Prop
  | create path | mkdir path | openFile path | unlink path | rmdir path => (0 : UInt8) ∉ path
  | release _ => True
  | link source target => (0 : UInt8) ∉ source ∧ (0 : UInt8) ∉ target

end Op

/-! ## The counts -/

/-- The inodes that `alloc_inode` looks through. -/
def Fs.inodes (s : Fs) : Nat := (s.ino 2).filesize / 32

/-- A directory in use. -/
def Fs.IsDir (s : Fs) (d : Nat) : Prop :=
  d < s.inodes ∧ (s.ino d).flags &&& INO_DIRECTORY ≠ 0 ∧ (s.ino d).linkcount ≠ 0

instance (s : Fs) (d : Nat) : Decidable (s.IsDir d) := inferInstanceAs (Decidable (_ ∧ _))

/-- The inodes that the records name. -/
def inodesIn (b : Buf) : Nat → Nat → List Nat
  | 0, _ => []
  | k + 1, o => inodeno b o :: inodesIn b k (nextEntry b o)

def Fs.entries (s : Fs) (d : Nat) : List Nat :=
  let b : Buf := ⟨s.content d, fun _ => 0⟩
  inodesIn b (entrycount b) 8

/-- How many directory entries name inode `n`. -/
def Fs.named (s : Fs) (n : Nat) : Nat :=
  (Finset.range s.inodes).sum fun d => if s.IsDir d then (s.entries d).count n else 0

/-- Every link count is right, and what is named is kept. -/
structure LinkCounts (w : World) : Prop where
  count : ∀ n < w.fs.inodes, (w.fs.ino n).linkcount = w.fs.named n + w.handles.count n
  kept : ∀ n < w.fs.inodes, w.fs.named n ≠ 0 → (w.fs.ino n).linkcount ≠ 0 ∧ ∀ t, allocInode w.fs ≠ .ok (n, t)

/-! ## When they stay right -/

/-- The loop of `add_to_dir` and `remove_from_dir` finds the name. -/
def Finds (s : Fs) (d : Nat) (name : Name) : Prop :=
  (s.ino d).flags &&& INO_DIRECTORY ≠ 0 ∧ seekEntry (s.buffer d) name (entrycount (s.buffer d)) 8 ≠ none

/-- `n` bytes at `a` of the disk hold nothing of a directory other than `d`. -/
def Clear (s : Fs) (d a n : Nat) : Prop :=
  ∀ k, s.IsDir k → k ≠ d → a + n ≤ 4096 * (s.ino k).ext.startblock ∨
    4096 * (s.ino k).ext.startblock + (s.ino k).filesize ≤ a

/-- `parent` takes one more entry, for an inode that is free. -/
structure Enters (s : Fs) (parent : Nat) (name : Name) : Prop where
  exist : parent ≠ INVALID_INODE
  directory : (s.ino parent).flags &&& INO_DIRECTORY ≠ 0
  unseen : ¬ Finds s parent name
  fits : name.length + 1 < 2 ^ 16
  count : entrycount (s.buffer parent) + 1 < 2 ^ 32
  free : ∃ n < s.inodes, n < 2 ^ 32 ∧ (s.ino n).linkcount = 0
  clear : Clear s parent (4096 * (s.ino parent).ext.startblock) ((s.ino parent).filesize + (name.length + 7))

/-- The free extent starts with a block for a new directory, and has more. -/
structure HasBlock (s : Fs) (parent : Nat) (name : Name) : Prop where
  enough : 1 < (s.ino 4).ext.length
  clear : Clear s parent (4096 * (s.ino 4).ext.startblock) 8
  parent : 4096 * (s.ino 4).ext.startblock + 8 ≤ 4096 * (s.ino parent).ext.startblock ∨
    4096 * (s.ino parent).ext.startblock + ((s.ino parent).filesize + (name.length + 7)) ≤ 4096 * (s.ino 4).ext.startblock

/-- The last component is found in its directory, `P` of both, after the lookup. -/
def AtParent (s : Fs) (path : Path) (P : Fs → Nat → Name → Prop) : Prop :=
  ∃ npath name parent t, splitLast path = some (npath, name) ∧ getinode npath s = .ok (parent, t) ∧ P t parent name

/-- Removing the name from that directory finds nothing. -/
def RemovesNothing (s : Fs) (d : Nat) (name : Name) : Prop := d ≠ INVALID_INODE ∧ ¬ Finds s d name

/-- `add_to_dir` refuses the name. -/
def AddsNothing (s : Fs) (d : Nat) (name : Name) : Prop := (s.ino d).flags &&& INO_DIRECTORY = 0 ∨ Finds s d name

namespace Op

/-- What `unlink` and `rmdir` need, which differ in what they refuse. -/
def MeetsRemoval (s : Fs) (path : Path) (refused : Inode → Prop) : Prop :=
  ∃ ino t, getinode path s = .ok (ino, t) ∧ ino ≠ INVALID_INODE ∧
    (refused (t.ino ino) ∨ AtParent t path fun u parent name => RemovesNothing u parent name)

def Meets (w : World) : Op → Prop
  | create path => AtParent w.fs path Enters
  | mkdir path => AtParent w.fs path fun t parent name => Enters t parent name ∧ HasBlock t parent name
  | openFile path => ∀ ino t, getinode path w.fs = .ok (ino, t) → ino ≠ INVALID_INODE → (t.ino ino).linkcount + 1 < 2 ^ 32
  | release fh => fh ∈ w.handles
  | unlink path => MeetsRemoval w.fs path fun i => i.flags &&& (INO_DIRECTORY ||| INO_SYSTEM) ≠ 0
  | rmdir path => MeetsRemoval w.fs path fun i =>
      i.filesize ≠ 8 ∨ i.flags &&& INO_SYSTEM ≠ 0 ∨ i.flags &&& INO_DIRECTORY ≠ INO_DIRECTORY
  | link source target =>
    AtParent w.fs source fun t pf fn => AtParent t target fun u pt tn =>
      ∃ ino v, getinode source u = .ok (ino, v) ∧ RemovesNothing v pt tn ∧
        ∀ v', removeFromDir pt tn v = .ok (false, v') → AddsNothing v' pt tn ∧
          ∀ v'', addToDir pt tn ino v' = .ok (false, v'') → RemovesNothing v'' pf fn

end Op

/-- Every operation of the run meets its condition. -/
def AllOpsMeet : World → List Op → Prop
  | _, [] => True
  | w, op :: ops => op.Meets w ∧ ∀ w', op.run w = .ok w' → AllOpsMeet w' ops

end Rodvin.Starfs
