/-
  Rodvin.Starfs.Directory — directory contents (`find_in_dir`, `remove_from_dir`,
  `add_to_dir` of `tools/fuse_starfs/main.c`; `dirformat` and `direntry` of `starfs.h`).

  A directory is a header `{formatid, entrycount}` and packed records
  `{inodeno, filenamelength, filename}`. `find_in_dir` compares a record and then moves on
  (`findEntry`); the other two move on first (`seekEntry`), so they never look at the
  first record and compare what lies behind the last.
-/

import Rodvin.Starfs.Volume

namespace Rodvin.Starfs

open Rodvin.Lib

abbrev Name := List UInt8

/-- `strcmp` of the string at `o` and `name` is zero. -/
def sameName (m : Nat → UInt8) (o : Nat) (name : Name) : Bool := slice m o (name.length + 1) == name ++ [0]

def formatid (b : Buf) : Nat := leAt b.at 0 4
def entrycount (b : Buf) : Nat := leAt b.at 4 4
def inodeno (b : Buf) (o : Nat) : Nat := leAt b.at o 4
def filenamelength (b : Buf) (o : Nat) : Nat := leAt b.at (o + 4) 2

/-- The record behind the one at `o`. -/
def nextEntry (b : Buf) (o : Nat) : Nat := o + filenamelength b o + 6

/-- The loop of `find_in_dir`. -/
def findEntry (b : Buf) (name : Name) : Nat → Nat → Option Nat
  | 0, _ => none
  | k + 1, o => if sameName b.at (o + 6) name then some (inodeno b o) else findEntry b name k (nextEntry b o)

def findInDir (ino : Nat) (name : Name) : Fuse Nat := do
  let i ← inodetab ino
  if i.flags &&& INO_DIRECTORY = 0 then return INVALID_INODE
  else
    let buffer ← readinode ino
    if formatid buffer ≠ 1 then return INVALID_INODE
    else return (findEntry buffer name (entrycount buffer) 8).getD INVALID_INODE

/-- The loop of `remove_from_dir` and `add_to_dir`: where the record of that name stands. -/
def seekEntry (b : Buf) (name : Name) : Nat → Nat → Option Nat
  | 0, _ => none
  | k + 1, o => if sameName b.at (nextEntry b o + 6) name then some (nextEntry b o) else seekEntry b name k (nextEntry b o)

/-- The content without the record at `o`: `memmove`, and the size `writeinode` is given. -/
def cutEntry (b : Buf) (o : Nat) : Checked (List UInt8) :=
  if nextEntry b o ≤ b.bytes.length then pure (b.bytes.take o ++ b.bytes.drop (nextEntry b o)) else .error .fault

def removeFromDir (ino : Nat) (name : Name) : Fuse Bool := do
  let i ← inodetab ino
  if i.flags &&& INO_DIRECTORY = 0 then return false
  else
    let buffer ← readinode ino
    if formatid buffer ≠ 1 then return false
    else
      match seekEntry buffer name (entrycount buffer) 8 with
      | none => return false
      | some o =>
        let content ← (cutEntry buffer o : Checked (List UInt8))
        let _ ← writeinode ino content
        assign ino fun i => { i with linkcount := (i.linkcount + 2 ^ 32 - 1) % 2 ^ 32 }
        let i ← inodetab ino
        if i.linkcount = 0 then freeInode ino
        return true

/-- `struct direntry`. -/
def direntry (name : Name) (newino : Nat) : List UInt8 := le 4 newino ++ (le 2 (name.length + 1) ++ (name ++ [0]))

/-- The copy of the content with one more entry: `newbuffer` holds the old content. -/
def appendEntry (newbuffer : Buf) (filesize : Nat) (name : Name) (newino : Nat) : Checked Buf := do
  let newbuffer ← newbuffer.put 4 (le 4 (entrycount newbuffer + 1))
  newbuffer.put filesize (direntry name newino)

def addToDir (ino : Nat) (name : Name) (newino : Nat) : Fuse Bool := do
  let i ← inodetab ino
  if i.flags &&& INO_DIRECTORY = 0 then return false
  else
    let buffer ← readinode ino
    if formatid buffer ≠ 1 then return false
    else
      match seekEntry buffer name (entrycount buffer) 8 with
      | some _ => return false
      | none =>
        let newbuffer ← malloc (7 + name.length + i.filesize)
        let newbuffer ← (newbuffer.put 0 buffer.bytes : Checked Buf)
        let newbuffer ← (appendEntry newbuffer i.filesize name newino : Checked Buf)
        let _ ← writeinode ino newbuffer.bytes
        return true

end Rodvin.Starfs
