/-
  Rodvin.Starfs.Mkfs — the image `mkfs_starfs` lays out
  (`tools/mkfs_starfs/main.c`) and mounting it (`main` of `tools/fuse_starfs/main.c`).

  With a size argument the target is created anew, all zero; otherwise the size is that
  of the target and what is not written keeps its content.
-/

import Rodvin.Starfs.Directory

namespace Rodvin.Starfs

open Rodvin.Lib

structure Image where
  disk : Nat → UInt8
  size : Nat

def Image.write (img : Image) (pos : Nat) (bs : List UInt8) : Image :=
  ⟨splice img.disk pos bs, max img.size (pos + bs.length)⟩

/-- The target that `mkfs_starfs target size` creates. -/
def created (disksize : Nat) : Image := ⟨fun _ => 0, disksize⟩

def systemInode (filesize startblock length : Nat) : Inode :=
  ⟨INO_SYSTEM ||| INO_READONLY, 1, filesize, ⟨startblock, length⟩⟩

def bootInode : Inode := systemInode 32768 0 8

def headerInode : Inode := systemInode 4096 8 1

def tableInode (disksize : Nat) : Inode := systemInode (disksize / 16384 * 32) 9 ((disksize / 16384 + 127) / 128)

/-- The block of the root directory. -/
def rootBlock (disksize : Nat) : Nat := 9 + (disksize / 16384 + 127) / 128

def rootInode (disksize : Nat) : Inode :=
  ⟨INO_DIRECTORY, 1, 8 + 17 + 14 + 14 + 21 + 12 + 17, ⟨rootBlock disksize, 1⟩⟩

def freeInode4 (disksize : Nat) : Inode :=
  let startblock := rootBlock disksize + 1
  systemInode (sub64 disksize (startblock * 4096)) startblock (sub64 (disksize / 4096) startblock)

def badInode : Inode := systemInode 0 INVALID_BLOCK 0

def inodetbl (disksize : Nat) : List Inode :=
  [bootInode, headerInode, tableInode disksize, rootInode disksize, freeInode4 disksize, badInode] ++
    List.replicate 122 ⟨0, 0, 0, ⟨0, 0⟩⟩

def bootblockName : Name := [0x24, 0x62, 0x6f, 0x6f, 0x74, 0x62, 0x6c, 0x6f, 0x63, 0x6b]
def headerName : Name := [0x24, 0x68, 0x65, 0x61, 0x64, 0x65, 0x72]
def inodesName : Name := [0x24, 0x69, 0x6e, 0x6f, 0x64, 0x65, 0x73]
def rootdirectoryName : Name := [0x24, 0x72, 0x6f, 0x6f, 0x74, 0x64, 0x69, 0x72, 0x65, 0x63, 0x74, 0x6f, 0x72, 0x79]
def freeName : Name := [0x24, 0x66, 0x72, 0x65, 0x65]
def badblocksName : Name := [0x24, 0x62, 0x61, 0x64, 0x62, 0x6c, 0x6f, 0x63, 0x6b, 0x73]

def rootEntries : List (Name × Nat) :=
  [(bootblockName, 0), (headerName, 1), (inodesName, 2), (rootdirectoryName, 3), (freeName, 4), (badblocksName, 5)]

/-- The content of a directory with these entries. -/
def dirContent (es : List (Name × Nat)) : List UInt8 :=
  le 4 1 ++ (le 4 es.length ++ es.flatMap fun e => direntry e.1 e.2)

/-- Names without NUL, each once, and fields that fit. -/
structure ValidEntries (es : List (Name × Nat)) : Prop where
  terminated : ∀ e ∈ es, (0 : UInt8) ∉ e.1
  namelength : ∀ e ∈ es, e.1.length + 1 < 2 ^ 16
  inodeno : ∀ e ∈ es, e.2 < 2 ^ 32
  nodup : (es.map Prod.fst).Nodup
  count : es.length < 2 ^ 32

/-- Format 1, as many entries as counted, and nothing behind them. -/
def WellFormedDir (content : List UInt8) : Prop := ∃ es, ValidEntries es ∧ content = dirContent es

/-- The block written for the root directory: its content and zeros behind it. -/
def rootBuffer : List UInt8 := dirContent rootEntries ++ List.replicate (4096 - (dirContent rootEntries).length) 0

def mkfs (img : Image) (disksize : Nat) : Image :=
  let img := img.write 0 (List.replicate 32768 0)
  let img := img.write 0x8000 (le 8 STARFS_SIGNATURE ++ le 8 (disksize / 4096))
  let img := img.write (32768 + 4096) ((inodetbl disksize).flatMap encode)
  img.write (4096 * rootBlock disksize) rootBuffer

def Image.ino (img : Image) (n : Nat) : Inode := decode img.disk (inodeAddr n)

/-- The blocks of inode `n`. -/
def Image.Owns (img : Image) (n b : Nat) : Prop :=
  (img.ino n).ext.startblock ≤ b ∧ b < (img.ino n).ext.startblock + (img.ino n).ext.length

/-- No unsigned computation of `mkfs_starfs` leaves its range. -/
structure NoWrap (disksize : Nat) : Prop where
  inodes : disksize / 16384 + 127 < 2 ^ 64 ∧ disksize / 16384 * 32 < 2 ^ 64
  root : rootBlock disksize + 1 < 2 ^ 64 ∧ 4096 * (rootBlock disksize + 1) < 2 ^ 64
  filesize : (rootBlock disksize + 1) * 4096 ≤ disksize
  length : rootBlock disksize + 1 ≤ disksize / 4096

/-- What `mkfs_starfs` has to establish. -/
structure LaidOut (img : Image) (disksize : Nat) : Prop where
  noWrap : NoWrap disksize
  disjoint : ∀ n < 5, ∀ k < 5, n ≠ k → ∀ b, img.Owns n b → ¬ img.Owns k b
  cover : ∀ b, b < disksize / 4096 ↔ ∃ n < 5, img.Owns n b
  root : WellFormedDir (slice img.disk (4096 * (img.ino 3).ext.startblock) (img.ino 3).filesize)
  linked : ∀ n, n < disksize / 16384 ∧ (img.ino n).linkcount ≠ 0 ↔ n < 6

/-- The part of `main` before `fuse_main`; the count of files it makes is for `statfs` only. -/
def mount (img : Image) (junk : Nat → Nat → UInt8) : Option Fs :=
  if leAt img.disk 0x8000 8 ≠ STARFS_SIGNATURE then none
  else some ⟨img.disk, img.size, 0x9000, (decode img.disk (0x9000 + 32 * 2)).filesize, junk, 0, false⟩

end Rodvin.Starfs
