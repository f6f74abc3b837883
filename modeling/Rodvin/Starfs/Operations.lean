/-
  Rodvin.Starfs.Operations — path resolution and the FUSE operations
  (`tools/fuse_starfs/main.c` from `getinode` to `starfs_truncate`).

  A path is the bytes of a C string. An operation returns 0 or a negative error, or the
  count it was given; `create` and `open` also return the handle they put in `fi->fh`.
-/

import Rodvin.Starfs.Mkfs

namespace Rodvin.Starfs

open Rodvin.Lib

abbrev Path := List UInt8

def slash : UInt8 := 0x2F

def EEXIST : Int := 17
def ENOENT : Int := 2
def EACCES : Int := 13
def EINVAL : Int := 22

/-! ## Paths -/

/-- The loop of `getinode`; `acc` is the component read so far. -/
def resolve (ino : Nat) (acc : Name) : Path → Fuse Nat
  | [] => if acc = [] then pure ino else findInDir ino acc
  | x :: xs =>
    if x = slash then do
      let ino ← findInDir ino acc
      if ino = INVALID_INODE then pure INVALID_INODE else resolve ino [] xs
    else resolve ino (acc ++ [x]) xs

def getinode : Path → Fuse Nat
  | [] => pure 3
  | _ :: p => resolve 3 [] p

/-- What stands before the last slash, and what behind it (`strrchr`). -/
def splitLast (path : Path) : Option (Path × Name) :=
  match path.reverse.findIdx? (· = slash) with
  | some k => some (path.take (path.length - 1 - k), path.drop (path.length - k))
  | none => none

def getparentinode (path : Path) : Fuse Nat :=
  match splitLast path with
  | some (npath, _) => getinode npath
  | none => halt .fault

/-- `strrchr(path, '/') + 1`. -/
def lastName (path : Path) : Fuse Name :=
  match splitLast path with
  | some (_, name) => pure name
  | none => halt .fault

/-! ## Operations -/

def S_IFREG : Nat := 0x8000

/-- `struct stat`, as far as it is filled. -/
structure Stat where
  dev : Nat
  ino : Nat
  mode : Nat
  nlink : Nat
  uid : Nat
  gid : Nat
  rdev : Nat
  size : Nat
  blksize : Nat
  blocks : Nat
  atime : Nat
  mtime : Nat
  ctime : Nat
  deriving DecidableEq, Repr

/-- `struct starfs_dirp`; `i` is the number of the inode it points to. -/
structure Dirp where
  i : Nat
  offset : Nat
  entryleft : Nat
  deriving DecidableEq, Repr

def opendir (path : Path) : Fuse (Int × Option Dirp) := do
  let ino ← getinode path
  if ino = INVALID_INODE then return (-ENOENT, none)
  else
    let _ ← malloc 24
    let i ← inodetab ino
    let fmt ← malloc 8                                    -- `fmt` is on the stack, not initialised
    lseek (shl64 i.ext.startblock 12)
    let bs ← read 8
    let fmt ← (fmt.put 0 bs : Checked Buf)
    if formatid fmt ≠ 1 then return (-EINVAL, none)
    else return (0, some ⟨ino, 8, entrycount fmt⟩)

def mkdir (path : Path) : Fuse Int := do
  let ino ← getparentinode path
  let newino ← allocInode
  let newname ← lastName path
  if !(← addToDir ino newname newino) then
    freeInode newino
    return -EEXIST
  else
    assign newino fun i => { i with flags := INO_DIRECTORY }
    let _ ← writeinode newino (le 4 1 ++ le 4 0)
    return 0

def create (path : Path) : Fuse (Int × Option Nat) := do
  let ino ← getparentinode path
  let newino ← allocInode
  let newname ← lastName path
  if !(← addToDir ino newname newino) then
    freeInode newino
    return (-EEXIST, none)
  else
    assign newino fun i => { i with flags := 0, linkcount := (i.linkcount + 1) % 2 ^ 32 }
    return (0, some newino)

def unlink (path : Path) : Fuse Int := do
  let ino ← getinode path
  let i ← inodetab ino
  if i.flags &&& (INO_DIRECTORY ||| INO_SYSTEM) ≠ 0 then return -EACCES
  else
    let parent ← getparentinode path
    let filename ← lastName path
    let _ ← removeFromDir parent filename
    return 0

def rmdir (path : Path) : Fuse Int := do
  let ino ← getinode path
  let i ← inodetab ino
  if i.filesize ≠ 8 ∨ i.flags &&& INO_SYSTEM ≠ 0 ∨ i.flags &&& INO_DIRECTORY ≠ INO_DIRECTORY then return -EACCES
  else
    let parent ← getparentinode path
    let filename ← lastName path
    let _ ← removeFromDir parent filename
    return 0

def link (source target : Path) : Fuse Int := do
  let pf ← getparentinode source
  let pt ← getparentinode target
  let fn ← lastName source
  let tn ← lastName target
  let ino ← getinode source
  let _ ← removeFromDir pt tn
  let _ ← addToDir pt tn ino
  let _ ← removeFromDir pf fn
  return 0

def openFile (path : Path) : Fuse (Int × Option Nat) := do
  let ino ← getinode path
  if ino = INVALID_INODE then return (-ENOENT, none)
  else
    assign ino fun i => { i with linkcount := (i.linkcount + 1) % 2 ^ 32 }
    return (0, some ino)

/-- The value returned is `size` as an `int`; the bytes are what arrives in the caller's buffer. -/
def readFile (fh size offset : Nat) : Fuse (Int × List UInt8) := do
  let i ← inodetab fh
  let bs ← readfromextent i.ext offset size
  return (Int.bmod size (2 ^ 32), bs)

def release (fh : Nat) : Fuse Int := do
  assign fh fun i => { i with linkcount := (i.linkcount + 2 ^ 32 - 1) % 2 ^ 32 }
  return 0

/-- The buffer of `starfs_write` before `buf` is copied in: the content, in a new block where
    the file gets longer. -/
def writeBuffer (buffer : Buf) (filesize newsize : Nat) : Fuse Buf :=
  if filesize < newsize then do
    let newbuf ← malloc newsize
    (newbuf.put 0 buffer.bytes : Checked Buf)
  else pure buffer

/-- The value returned is `size` as an `int`. -/
def writeFile (path : Path) (buf : List UInt8) (offset : Nat) : Fuse Int := do
  let ino ← getinode path
  let buffer ← readinode ino
  let i ← inodetab ino
  let newsize := max i.filesize (add64 buf.length offset)
  let buffer ← writeBuffer buffer i.filesize newsize
  let buffer ← (buffer.put offset buf : Checked Buf)
  let _ ← writeinode ino buffer.bytes
  return Int.bmod buf.length (2 ^ 32)

def rename (source target : Path) : Fuse Int := do
  if (← link source target) ≠ 0 then return -EACCES
  else if (← unlink source) ≠ 0 then return -EACCES
  else return 0

def truncate (path : Path) (size : Nat) : Fuse Int := do
  let ino ← getinode path
  if ino = INVALID_INODE then return -ENOENT
  else
    let i ← inodetab ino
    if i.flags &&& INO_SYSTEM ≠ 0 then return 0
    else if size < i.filesize ∧ i.filesize < 2 ^ 63 then
      let buf ← readinode ino
      let _ ← writeinode ino (buf.bytes.take size)
      return 0
    else return 0

end Rodvin.Starfs
