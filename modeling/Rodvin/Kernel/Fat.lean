/-
  Rodvin.Kernel.Fat — the FAT file system (`kernel/src/common/fat.cpp`: `storageIsFat`, the
  constructor, `nextCluster`, `readCluster`, `FatDir`, `FatFile::read`).

  The disk is a memory of bytes and `readBlock` a copy of some of its sectors. A copy or
  an access outside a block, and a store below `utf16buf`, are faults. The sizes of the
  fields are those of the source: sums and products of `uint32_t` wrap.
-/

import Rodvin.Lib.Bytes
import Rodvin.Lib.Checked

namespace Rodvin.Kernel.Fat

open Rodvin.Lib

def u32 (n : Nat) : Nat := n % 2 ^ 32

/-! ## Blocks -/

abbrev Disk := Nat → UInt8

def readBlock (disk : Disk) (sector count : Nat) : List UInt8 := slice disk (512 * sector) (512 * count)

/-- `n` bytes at offset `i` of a block. -/
def bytesAt (b : List UInt8) (i n : Nat) : Checked (List UInt8) :=
  if i + n ≤ b.length then .ok ((b.drop i).take n) else fault

/-- A field of a structure that lies in a block. -/
def field (b : List UInt8) (i n : Nat) : Nat := ofLE ((b.drop i).take n)

/-- A storage is what its `readBlock` gives for a sector and a count. -/
abbrev Storage := Nat → Nat → List UInt8

def storageIsFat (s : Storage) : Bool :=
  let fb := s 0 1
  field fb 0 1 = 0xEB && field fb 2 1 = 0x90 && field fb 21 1 = 0xF8 && field fb 11 1 = 0 &&
    (field fb 12 1 = 2 || field fb 12 1 = 16) && (field fb 16 1 = 1 || field fb 16 1 = 2) &&
    !(field fb 32 4 < 65535 && field fb 32 4 ≠ 0) && !(field fb 20 1 < 15 && field fb 20 1 ≠ 0)

/-! ## `FatFilesystem` -/

inductive FatVersion where
  | Fat16
  | Fat32
  | ExFat
  deriving DecidableEq, Repr

structure FatFilesystem where
  disk : Disk
  fat_version : FatVersion
  rootDirCluster : Nat
  root_entry_count : Nat
  sect_per_clus : Nat
  reserved_sect : Nat
  root_directory : Nat
  first_sect : Nat

/-- The sector count of a boot sector. -/
def sectorsOf (boot : List UInt8) : Nat :=
  let sectors := field boot 19 1 + 256 * field boot 20 1
  if sectors = 0 then field boot 32 4 else sectors

/-- The constructor. -/
def FatFilesystem.new (disk : Disk) : FatFilesystem :=
  let boot := readBlock disk 0 1
  let sect_per_clus := field boot 13 1
  let reserved_sect := field boot 14 2
  let table_count := field boot 16 1
  let table_size := field boot 22 2
  let table_size2 := field boot 36 4
  if sectorsOf boot < 65525 then
    let root_entry_count := field boot 17 1 + 256 * field boot 18 1
    { disk := disk
      fat_version := .Fat16
      rootDirCluster := 1
      root_entry_count := root_entry_count
      sect_per_clus := sect_per_clus
      reserved_sect := reserved_sect
      root_directory := reserved_sect + table_count * table_size
      first_sect := reserved_sect + table_count * table_size + root_entry_count / 16 }
  else
    { disk := disk
      fat_version := if sectorsOf boot < 268435445 then .Fat32 else .ExFat
      rootDirCluster := field boot 44 4
      root_entry_count := 0
      sect_per_clus := sect_per_clus
      reserved_sect := reserved_sect
      root_directory := 0
      first_sect := u32 (reserved_sect + table_count * table_size2) }

def nextCluster (fat : FatFilesystem) (cluster : Nat) : Checked Nat := do
  let entriesPerSector := 512 / (if fat.fat_version = .Fat16 then 2 else 4)
  let sector := u32 (cluster / entriesPerSector + fat.reserved_sect)
  let offset := cluster % entriesPerSector
  let block := readBlock fat.disk sector 1
  let size := if entriesPerSector = 2 then 2 else 4
  let newCluster ← bytesAt block (size * offset) size
  return if fat.fat_version = .Fat32 then ofLE newCluster &&& 0xFFFFFFF else ofLE newCluster

def readCluster (fat : FatFilesystem) (cluster : Nat) : List UInt8 :=
  if cluster = 1 then readBlock fat.disk fat.root_directory (fat.root_entry_count / 16)
  else readBlock fat.disk (u32 (fat.first_sect + u32 (cluster + 2 ^ 32 - 2) * fat.sect_per_clus)) fat.sect_per_clus

/-! ## `FatDir` -/

/-- `struct fat_dirent` and `struct fat_lfn_ent`: the 32 bytes of a slot. -/
abbrev Slot := List UInt8

def Slot.name0 (ent : Slot) : Nat := field ent 0 1
def Slot.attributes (ent : Slot) : Nat := field ent 11 1
def Slot.high_cluster (ent : Slot) : Nat := field ent 20 2
def Slot.low_cluster (ent : Slot) : Nat := field ent 26 2
def Slot.filesize (ent : Slot) : Nat := field ent 28 4

/-- `utfdata1`, `utfdata2` and `utfdata3`. -/
def Slot.utfdata (ent : Slot) : List UInt8 := (ent.drop 1).take 10 ++ ((ent.drop 14).take 12 ++ (ent.drop 28).take 4)

/-- `name` is what stands in `utf16buf` from `ptr` on; the string is made of it and of what
    follows until a zero. -/
structure DirEntry where
  inodeId : Nat
  flags : Bool
  size : Nat
  name : List UInt8
  deriving DecidableEq, Repr

/-- `reads` records the clusters that were read, first to last. -/
structure FatDir where
  fat : FatFilesystem
  cluster : Nat
  index : Nat
  db : Option (List UInt8)
  reads : List Nat

def FatDir.new (fat : FatFilesystem) (cluster : Nat) : FatDir := ⟨fat, cluster, 0, none, []⟩

def openrootdir (fat : FatFilesystem) : FatDir := FatDir.new fat fat.rootDirCluster

def opendir (fat : FatFilesystem) (ent : DirEntry) : FatDir := FatDir.new fat ent.inodeId

/-- What `get_next_entry` does when it needs the next cluster. -/
def advance (d : FatDir) : Checked FatDir := do
  let next ← nextCluster d.fat (u32 d.cluster)
  return { d with
    db := some (readCluster d.fat (u32 d.cluster))
    cluster := next
    index := 0
    reads := d.reads ++ [u32 d.cluster] }

def loaded (d : FatDir) : Checked FatDir :=
  if d.db = none ∨ d.index = u32 (d.fat.sect_per_clus * 512) / 32 then advance d else pure d

def get_next_entry (d : FatDir) : Checked (Slot × FatDir) := do
  let d ← loaded d
  let ent ← bytesAt (d.db.getD []) (32 * d.index) 32
  return (ent, { d with index := d.index + 1 })

def toEntry (ent : Slot) (name : List UInt8) : DirEntry where
  inodeId := u32 (ent.high_cluster * 65536 + ent.low_cluster)
  flags := ent.attributes &&& 0x10 != 0
  size := ent.filesize
  name := name

/-- The loop of `readdir` and what follows it; `utf16buf` has room for `k` more pieces of a
    name. -/
def longNames : Nat → List UInt8 → Slot → FatDir → Checked (Option DirEntry × FatDir)
  | k, name, ent, d =>
    if ent.attributes = 0xF then
      match k with
      | 0 => fault
      | k + 1 => do
        let (next, d) ← get_next_entry d
        if next.name0 = 0 then return (none, d)
        else longNames k (ent.utfdata ++ name) next d
    else pure (some (toEntry ent name), d)

def readdir (d : FatDir) : Checked (Option DirEntry × FatDir) := do
  let (ent, d) ← get_next_entry d
  if ent.name0 = 0 then return (none, d)
  else longNames 20 [] ent d

/-! ## `FatFile` -/

structure FatFile where
  fat : FatFilesystem
  size : Nat
  firstCluster : Nat
  currentCluster : Nat
  bytesLeftInCurrentCluster : Nat

def FatFile.new (fat : FatFilesystem) (cluster fileSize : Nat) : FatFile :=
  ⟨fat, fileSize, u32 cluster, u32 cluster, u32 (fat.sect_per_clus * 512)⟩

def openFile (fat : FatFilesystem) (ent : DirEntry) : FatFile := FatFile.new fat ent.inodeId ent.size

/-- One turn of the loop of `read`: the bytes it copies. -/
def readSome (f : FatFile) (amount : Nat) : Checked (List UInt8 × FatFile) := do
  let readFromThisCluster := min amount f.bytesLeftInCurrentCluster
  let db := readCluster f.fat f.currentCluster
  if db.length < f.bytesLeftInCurrentCluster then fault
  else
    let bs ← bytesAt db (db.length - f.bytesLeftInCurrentCluster) readFromThisCluster
    let left := f.bytesLeftInCurrentCluster - readFromThisCluster
    if left = 0 then
      let next ← nextCluster f.fat f.currentCluster
      return (bs, { f with currentCluster := next, bytesLeftInCurrentCluster := u32 (f.fat.sect_per_clus * 512) })
    else return (bs, { f with bytesLeftInCurrentCluster := left })

/-- That loop. Every turn but the first copies a byte, so `amount + 1` turns are enough for
    one that ends. -/
def readLoop : Nat → Nat → FatFile → Checked (List UInt8 × FatFile)
  | fuel, amount, f =>
    if amount = 0 then pure ([], f)
    else
      match fuel with
      | 0 => .error .noReturn
      | fuel + 1 => do
        let (bs, f) ← readSome f amount
        let (rest, f) ← readLoop fuel (amount - bs.length) f
        return (bs ++ rest, f)

/-- The result, what is put in the buffer, and the file afterwards. -/
def FatFile.read (f : FatFile) (amount : Nat) : Checked (Nat × List UInt8 × FatFile) := do
  let (bs, f) ← readLoop (amount + 1) amount f
  return (amount, bs, f)

end Rodvin.Kernel.Fat
