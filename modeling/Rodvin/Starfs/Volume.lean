/-
  Rodvin.Starfs.Volume — a mounted StarFS volume: inodes, extents, block allocation
  (`tools/fuse_starfs/main.c` from `readfromextent` to `writeinode`,
  `tools/fuse_starfs/starfs.h`).

  The inode table is mapped from the disk file (`mmap` at 0x9000, shared), so an inode is
  32 bytes of the file and a write to the file can change it. Memory from `malloc` holds
  whatever was there before, inside and behind the block (`junk`); what a loop reads
  behind a buffer is junk too. An access outside the mapped pages, a store outside a
  buffer and an extent list without terminator are faults; `abort()` does not return.
  `read` and `write` deliver the whole count, except at the end of the file.
-/

import Rodvin.Lib.Bytes
import Rodvin.Lib.Checked
import Rodvin.Lib.Words

namespace Rodvin.Starfs

open Rodvin.Lib

/-! ## `starfs.h` -/

def STARFS_SIGNATURE : Nat := 0x2A5346726174532A
def INVALID_INODE : Nat := 0xFFFFFFFFFFFFFFFF
def INVALID_BLOCK : Nat := 0xFFFFFFFFFFFFFFFF
def INO_EXTENT_INDIRECTION : Nat := 0x00000003
def INO_SYSTEM : Nat := 0x00000004
def INO_READONLY : Nat := 0x00000020
def INO_DIRECTORY : Nat := 0x00000040

structure Extent where
  startblock : Nat
  length : Nat
  deriving DecidableEq, Repr

structure Inode where
  flags : Nat
  linkcount : Nat
  filesize : Nat
  ext : Extent
  deriving DecidableEq, Repr

def encodeExtent (e : Extent) : List UInt8 := le 8 e.startblock ++ le 8 e.length

def encode (i : Inode) : List UInt8 := le 4 i.flags ++ (le 4 i.linkcount ++ (le 8 i.filesize ++ encodeExtent i.ext))

/-- The number in `n` bytes at `a`. -/
def leAt (m : Nat → UInt8) (a n : Nat) : Nat := ofLE (slice m a n)

def extentAt (m : Nat → UInt8) (a : Nat) : Extent := ⟨leAt m a 8, leAt m (a + 8) 8⟩

def decode (m : Nat → UInt8) (a : Nat) : Inode := ⟨leAt m a 4, leAt m (a + 4) 4, leAt m (a + 8) 8, extentAt m (a + 16)⟩

/-! ## The mounted volume -/

/-- The disk file with its length and the position of `fd`, the length of the mapping, and the
    memory `malloc` hands out. `exhausted` records that an allocation of blocks or of an inode
    found nothing; no function of the program reads it. -/
structure Fs where
  disk : Nat → UInt8
  size : Nat
  pos : Nat
  maplen : Nat
  junk : Nat → Nat → UInt8
  mallocs : Nat
  exhausted : Bool

abbrev Fuse := StateT Fs Checked

def halt {α : Type} (e : Stop) : Fuse α := fun _ => .error e

/-- `lseek64(fd, off, SEEK_SET)`: an offset that is negative as `off64_t` is refused. -/
def lseek (off : Nat) : Fuse Unit := modify fun s => if off < 2 ^ 63 then { s with pos := off } else s

def read (count : Nat) : Fuse (List UInt8) := fun s =>
  let n := min count (s.size - s.pos)
  .ok (slice s.disk s.pos n, { s with pos := s.pos + n })

def write (bs : List UInt8) : Fuse Unit := modify fun s =>
  if bs = [] then s
  else { s with
    disk := splice s.disk s.pos bs
    size := max s.size (s.pos + bs.length)
    pos := s.pos + bs.length }

/-- A block of memory: its bytes, and what lies behind it. -/
structure Buf where
  bytes : List UInt8
  behind : Nat → UInt8

def Buf.at (b : Buf) (i : Nat) : UInt8 := b.bytes.getD i (b.behind i)

def malloc (n : Nat) : Fuse Buf := fun s =>
  .ok (⟨slice (s.junk s.mallocs) 0 n, s.junk s.mallocs⟩, { s with mallocs := s.mallocs + 1 })

/-- `memcpy` to offset `i` of a block. -/
def Buf.put (b : Buf) (i : Nat) (bs : List UInt8) : Checked Buf :=
  if i + bs.length ≤ b.bytes.length then
    .ok { b with bytes := b.bytes.take i ++ bs ++ b.bytes.drop (i + bs.length) }
  else .error .fault

def inodeAddr (n : Nat) : Nat := 0x9000 + 32 * n

def Fs.ino (s : Fs) (n : Nat) : Inode := decode s.disk (inodeAddr n)

/-- The pages of the mapping hold `inodetab[n]`. -/
def Fs.Mapped (s : Fs) (n : Nat) : Prop := 32 * n + 32 ≤ (s.maplen + 4095) / 4096 * 4096

instance (s : Fs) (n : Nat) : Decidable (s.Mapped n) := inferInstanceAs (Decidable (_ ≤ _))

/-- `inodetab[n]`. -/
def inodetab (n : Nat) : Fuse Inode := fun s => if s.Mapped n then .ok (s.ino n, s) else .error .fault

def Fs.putIno (s : Fs) (n : Nat) (i : Inode) : Fs := { s with disk := splice s.disk (inodeAddr n) (encode i) }

/-- Assignments to fields of `inodetab[n]`. -/
def assign (n : Nat) (f : Inode → Inode) : Fuse Unit := fun s =>
  if s.Mapped n then .ok ((), s.putIno n (f (s.ino n))) else .error .fault

/-! ## Extents -/

def shl64 (a k : Nat) : Nat := a * 2 ^ k % 2 ^ 64

/-- `readfromextent`: the bytes that arrive in the buffer. -/
def readfromextent (ext : Extent) (offset size : Nat) : Fuse (List UInt8) := do
  lseek (add64 offset (shl64 ext.startblock 12))
  read size

/-- `readfromextents` into `buf` from its byte `i` on; the list is without its terminator. -/
def readfromextents : List Extent → Buf → Nat → Nat → Nat → Fuse Buf
  | [], buf, _, _, _ => pure buf
  | ext :: exts, buf, i, offset, size =>
    if size = 0 then pure buf
    else
      let n := shl64 ext.length 12
      if offset < n then do
        let fromthis := min size (n - offset)
        let bs ← readfromextent ext offset fromthis
        let buf ← (buf.put i bs : Checked Buf)
        readfromextents exts buf (i + fromthis) 0 (size - fromthis)
      else readfromextents exts buf i (offset - n) size

def sizefromextents (exts : List Extent) : Nat :=
  exts.foldl (fun size ext => add64 size (shl64 ext.length 12)) 0

/-- The extents in a block of `n` of them, up to the terminator. -/
def extentsIn (m : Nat → UInt8) : Nat → Nat → Checked (List Extent)
  | 0, _ => .error .fault
  | n + 1, a =>
    if (extentAt m a).length = 0 then pure []
    else do
      let exts ← extentsIn m n (a + 16)
      pure (extentAt m a :: exts)

/-- The loop of `readbottomextents`. -/
def followIndirections : Nat → List Extent → Fuse (List Extent)
  | 0, exts => pure exts
  | indirs + 1, exts => do
    let newext ← malloc (sizefromextents exts)
    let newext ← readfromextents exts newext 0 0 (sizefromextents exts)
    let exts ← (extentsIn newext.at (newext.bytes.length / 16) 0 : Checked (List Extent))
    followIndirections indirs exts

def readbottomextents (ino : Nat) : Fuse (List Extent) := do
  let _ ← malloc 32
  let i ← inodetab ino
  followIndirections (i.flags &&& INO_EXTENT_INDIRECTION) (if i.ext.length = 0 then [] else [i.ext])

def setFileExtents (ino : Nat) (exts : List Extent) : Fuse Unit :=
  match exts.takeWhile fun ext => ext.length ≠ 0 with
  | [ext] => assign ino fun i => { i with ext := ext }
  | _ => halt .noReturn

def readinode (ino : Nat) : Fuse Buf := do
  let i ← inodetab ino
  let buf ← malloc i.filesize
  let ext ← readbottomextents ino
  readfromextents ext buf 0 0 i.filesize

/-! ## Allocation -/

def giveUp : Fuse Unit := modify fun s => { s with exhausted := true }

/-- Take `blockcount` blocks from the front of free extent `n`. -/
def takeFrom (exts : List Extent) (n blockcount : Nat) : Fuse Nat := do
  let ext := exts.getD n ⟨0, 0⟩
  setFileExtents 4 (exts.set n ⟨add64 ext.startblock blockcount, sub64 ext.length blockcount⟩)
  return ext.startblock

def allocSpace (blockcount : Nat) : Fuse Nat := do
  let exts ← readbottomextents 4
  match exts.findIdx? fun ext => blockcount ≤ ext.length with
  | some n => takeFrom exts n blockcount
  | none =>
    giveUp
    return INVALID_BLOCK

def allocAdjacentSpace (location blockcount : Nat) : Fuse Nat := do
  let exts ← readbottomextents 4
  match exts.findIdx? fun ext =>
      ext.startblock ≤ location ∧ add64 location blockcount ≤ add64 ext.startblock ext.length with
  | some n => if (exts.getD n ⟨0, 0⟩).startblock ≠ location then halt .noReturn else takeFrom exts n blockcount
  | none => return INVALID_BLOCK

def freeSpace (_block _length : Nat) : Fuse Unit := pure ()

/-- The search of `alloc_inode` through `k` inodes from `n` on. -/
def freeInodeFrom : Nat → Nat → Fuse (Option Nat)
  | 0, _ => pure none
  | k + 1, n => do
    let i ← inodetab n
    if i.linkcount = 0 then pure (some n) else freeInodeFrom k (n + 1)

def newInode : Inode := ⟨0, 1, 0, ⟨INVALID_BLOCK, 0⟩⟩

def allocInode : Fuse Nat := do
  let tab ← inodetab 2
  match ← freeInodeFrom (tab.filesize / 32) 0 with
  | some n =>
    assign n fun _ => newInode
    return n
  | none =>
    giveUp
    return INVALID_INODE

/-- `free_inode` reads the extents level by level as `readbottomextents` does; the inode stays. -/
def freeInode (ino : Nat) : Fuse Unit := do
  let exts ← readbottomextents ino
  exts.forM fun ext => freeSpace ext.startblock ext.length

/-! ## Writing -/

def blocksFor (size : Nat) : Nat := add64 size 4095 / 4096

/-- More blocks for an inode: the space right behind it, or a new chunk. -/
def grow (ino size : Nat) : Fuse Unit := do
  let i ← inodetab ino
  let addedspace := sub64 (blocksFor size) i.ext.length
  let adjacent ← if i.ext.startblock ≠ INVALID_BLOCK then allocAdjacentSpace i.ext.startblock addedspace else pure 0
  if adjacent ≠ 0 then
    assign ino fun i => { i with ext := { i.ext with length := add64 i.ext.length addedspace } }
  else
    let startblock ← allocSpace (blocksFor size)
    assign ino fun i => { i with ext := ⟨startblock, blocksFor size⟩ }

/-- The part of `writeinode` for files that are not system files. -/
def resize (ino size : Nat) : Fuse Unit := do
  let i ← inodetab ino
  if size = 0 then
    if i.filesize ≠ 0 then
      assign ino fun i => { i with ext := ⟨INVALID_BLOCK, 0⟩ }
  else if shl64 i.ext.length 12 < size then
    grow ino size
  assign ino fun i => { i with filesize := size }

/-- The end of `writeinode`. -/
def store (ino : Nat) (buffer : List UInt8) : Fuse Bool := do
  let i ← inodetab ino
  lseek (shl64 i.ext.startblock 12)
  write buffer
  return true

def writeinode (ino : Nat) (buffer : List UInt8) : Fuse Bool := do
  let i ← inodetab ino
  if i.flags &&& INO_SYSTEM ≠ 0 then
    if i.filesize < buffer.length then return false
    else store ino buffer
  else
    resize ino buffer.length
    store ino buffer

end Rodvin.Starfs
