/-
  Rodvin.Kernel.Partitions — probing a disk for partitions (`kernel/src/common/Storage.cpp`
  and `mbr.cpp`).

  A partition is a storage again, probed in the same way; it reads its parent at a start
  sector taken from the table, and the sums wrap in the width of `size_t`. Memory for the
  objects and the stack suffices. `register_storage` ends on a disk exactly when no start
  sector that its tables lead to leads back to itself (`register_storage_ends_iff`).
-/

import Rodvin.Lib.Descent
import Rodvin.Kernel.FatVolume

namespace Rodvin.Kernel.Mbr

open Rodvin.Lib
open Relation
open Rodvin.Kernel.Fat (Storage Disk FatFilesystem readBlock field storageIsFat)

/-! ## Tables -/

def storageIsMbr (s : Storage) : Bool :=
  let b := s 0 1
  field b 0x1FE 1 = 0x55 && field b 0x1FF 1 = 0xAA

structure mbr_partition where
  type : Nat
  startsector : Nat
  deriving DecidableEq, Repr

/-- The four entries of a table. -/
def entries (db : List UInt8) : List mbr_partition :=
  (List.range 4).map fun n => ⟨field db (0x1BE + 16 * n + 4) 1, field db (0x1BE + 16 * n + 8) 4⟩

/-- What `readBlock` of an `MBRPartition` gives; `width` is that of `size_t`. The sector
    count bounds nothing. -/
def MBRPartition (width : Nat) (parent : Storage) (startSector : Nat) : Storage := fun sector count =>
  parent ((sector + startSector) % 2 ^ width) count

/-! ## Probing -/

/-- What is found on a storage. -/
inductive Registered where
  | fat (fs : FatFilesystem)
  | mbr (parts : List (Option Registered))
  | unknown

/-- The bytes of a storage. -/
def bytesOf (s : Storage) : Disk := fun a => (s (a / 512) 1).getD (a % 512) 0

/-- The constructor, which registers the partitions. -/
def MBRPartitioning (width : Nat) (register_storage : Storage → Checked Registered) (parent : Storage) :
    Checked Registered := do
  let parts ← (entries (parent 0 1)).mapM fun p =>
    if p.type ≠ 0 then do return some (← register_storage (MBRPartition width parent p.startsector))
    else pure none
  return .mbr parts

/-- `depth` bounds the calls that are open at a time. -/
def register_storage (width : Nat) : Nat → Storage → Checked Registered
  | 0, _ => .error .noReturn
  | depth + 1, storage =>
    if storageIsFat storage then pure (.fat (FatFilesystem.new (bytesOf storage)))
    else if storageIsMbr storage then MBRPartitioning width (register_storage width depth) storage
    else pure .unknown

/-- The probe of a disk returns. -/
def Ends (width : Nat) (disk : Disk) : Prop := ∃ depth r, register_storage width depth (readBlock disk) = .ok r

/-- The storage is probed as a table, with an entry that starts at `start`. -/
def HasEntry (s : Storage) (start : Nat) : Prop :=
  storageIsFat s = false ∧ storageIsMbr s = true ∧ ∃ p ∈ entries (s 0 1), p.type ≠ 0 ∧ p.startsector = start

/-- The disk from a sector on. -/
def fromSector (disk : Disk) (a : Nat) : Storage := fun sector count => readBlock disk (a + sector) count

/-- A table at sector `a` of the disk has a partition at sector `b`. -/
def Leads (width : Nat) (disk : Disk) (a b : Nat) : Prop :=
  ∃ start, HasEntry (fromSector disk a) start ∧ b = (a + start) % 2 ^ width

variable {width n start a b : Nat} {disk : Disk} {s t : Storage}

/-! ## One call -/

/-- The storages that a call probes in turn. -/
def Opens (width : Nat) (s t : Storage) : Prop := ∃ start, HasEntry s start ∧ t = MBRPartition width s start

theorem HasEntry.congr (h : s 0 1 = t 0 1) (hs : HasEntry s start) : HasEntry t start := by
  unfold HasEntry storageIsFat storageIsMbr at hs ⊢
  rwa [h] at hs

theorem finite_opens (width : Nat) (s : Storage) : {t | Opens width s t}.Finite := by
  refine Set.Finite.subset (List.finite_toSet ((entries (s 0 1)).map fun p => MBRPartition width s p.startsector)) ?_
  rintro t ⟨start, ⟨-, -, p, hp, -, rfl⟩, rfl⟩
  exact List.mem_map.mpr ⟨p, hp, rfl⟩

theorem MBRPartitioning_returns_iff {register : Storage → Checked Registered} :
    (∃ r, MBRPartitioning width register s = .ok r) ↔
      ∀ p ∈ entries (s 0 1), p.type ≠ 0 → ∃ r, register (MBRPartition width s p.startsector) = .ok r := by
  have hturn (p : mbr_partition) : (∃ o, (if p.type ≠ 0 then do return some (← register (MBRPartition width s p.startsector))
      else pure none : Checked (Option Registered)) = .ok o) ↔
        (p.type ≠ 0 → ∃ r, register (MBRPartition width s p.startsector) = .ok r) := by
    by_cases hp : p.type ≠ 0
    · rw [if_pos hp]
      constructor
      · rintro ⟨o, ho⟩ -
        obtain ⟨r, hr, -⟩ := bind_eq_ok.mp ho
        exact ⟨r, hr⟩
      · intro h
        obtain ⟨r, hr⟩ := h hp
        exact ⟨some r, by rw [ok_bind hr]; rfl⟩
    · rw [if_neg hp]
      exact ⟨fun _ h => absurd h hp, fun _ => ⟨none, rfl⟩⟩
  simp only [← hturn]
  rw [← mapM_returns_iff]
  constructor
  · rintro ⟨r, hr⟩
    obtain ⟨parts, hparts, -⟩ := bind_eq_ok.mp hr
    exact ⟨parts, hparts⟩
  · rintro ⟨parts, hparts⟩
    exact ⟨.mbr parts, by rw [MBRPartitioning, ok_bind hparts]; rfl⟩

/-- A call returns when those for its partitions do. -/
theorem register_storage_succ (s : Storage) : (∃ r, register_storage width (n + 1) s = .ok r) ↔
    ∀ t, Opens width s t → ∃ r, register_storage width n t = .ok r := by
  by_cases hf : storageIsFat s = true
  · have hreg : register_storage width (n + 1) s = .ok (.fat (FatFilesystem.new (bytesOf s))) := if_pos hf
    exact ⟨fun _ t ⟨_, ⟨h, _⟩, _⟩ => absurd hf (by simp [h]), fun _ => ⟨_, hreg⟩⟩
  · by_cases hm : storageIsMbr s = true
    · have hreg : register_storage width (n + 1) s = MBRPartitioning width (register_storage width n) s :=
        (if_neg hf).trans (if_pos hm)
      rw [hreg, MBRPartitioning_returns_iff]
      constructor
      · rintro h t ⟨start, ⟨-, -, p, hp, htype, rfl⟩, rfl⟩
        exact h p hp htype
      · intro h p hp htype
        exact h _ ⟨p.startsector, ⟨by simpa using hf, hm, p, hp, htype, rfl⟩, rfl⟩
    · have hreg : register_storage width (n + 1) s = .ok .unknown := (if_neg hf).trans (if_neg hm)
      exact ⟨fun _ t ⟨_, ⟨_, h, _⟩, _⟩ => absurd h hm, fun _ => ⟨_, hreg⟩⟩

/-! ## All calls -/

/-- The first sectors of a storage are those of the disk from `a` on. -/
def At (width : Nat) (disk : Disk) (s : Storage) (a : Nat) : Prop :=
  a < 2 ^ width ∧ ∀ sector < 2 ^ width, s sector 1 = readBlock disk ((sector + a) % 2 ^ width) 1

theorem At.block (h : At width disk s a) : s 0 1 = fromSector disk a 0 1 := by
  rw [h.2 0 (Nat.two_pow_pos width), Nat.zero_add, Nat.mod_eq_of_lt h.1]
  rfl

theorem At.partition (h : At width disk s a) (start : Nat) :
    At width disk (MBRPartition width s start) ((a + start) % 2 ^ width) := by
  refine ⟨Nat.mod_lt _ (Nat.two_pow_pos width), fun sector _ => ?_⟩
  unfold MBRPartition
  rw [h.2 _ (Nat.mod_lt _ (Nat.two_pow_pos width)), Nat.mod_add_mod, Nat.add_mod_mod, Nat.add_assoc, Nat.add_comm start]

theorem at_disk (width : Nat) (disk : Disk) : At width disk (readBlock disk) 0 :=
  ⟨Nat.two_pow_pos width, fun sector hs => by rw [Nat.add_zero, Nat.mod_eq_of_lt hs]⟩

/-- A storage opens others as the tables lead from its first sector. -/
theorem acc_opens_iff (h : At width disk s a) : Acc (flip (Opens width)) s ↔ Acc (flip (Leads width disk)) a := by
  constructor
  · refine acc_of_simulation (R := At width disk) (fun {s a b} hs hb => ?_) h
    obtain ⟨start, he, rfl⟩ := hb
    exact ⟨_, ⟨start, he.congr hs.block.symm, rfl⟩, hs.partition start⟩
  · refine acc_of_simulation (R := fun a s => At width disk s a) (fun {a s t} hs ht => ?_) h
    obtain ⟨start, he, rfl⟩ := ht
    exact ⟨_, ⟨start, he.congr hs.block, rfl⟩, hs.partition start⟩

theorem ends_iff_acc (width : Nat) (disk : Disk) : Ends width disk ↔ Acc (flip (Leads width disk)) 0 := by
  rw [← acc_opens_iff (at_disk width disk)]
  exact acc_iff_depth (P := fun n s => ∃ r, register_storage width n s = .ok r) (finite_opens width)
    (fun _ ⟨_, h⟩ => nomatch h) fun _ s => register_storage_succ s

theorem finite_reached (width : Nat) (disk : Disk) : {b | ReflTransGen (Leads width disk) 0 b}.Finite := by
  refine Set.Finite.subset (Set.finite_Iio (2 ^ width)) fun b hb => ?_
  rcases ReflTransGen.cases_tail hb with rfl | ⟨a, -, start, -, rfl⟩
  · exact Nat.two_pow_pos width
  · exact Nat.mod_lt _ (Nat.two_pow_pos width)

/-- The probe of a disk returns exactly when no sector that the tables lead to from sector 0
    leads back to itself. -/
theorem register_storage_ends_iff (width : Nat) (disk : Disk) :
    Ends width disk ↔ ∀ b, ReflTransGen (Leads width disk) 0 b → ¬ TransGen (Leads width disk) b b := by
  rw [ends_iff_acc]
  exact acc_iff_no_cycle (finite_reached width disk)

/-- A table whose first entry, of type 5, starts at sector 0. -/
def loopDisk : Disk := splice (splice (fun _ => 0) (0x1BE + 4) [5]) 0x1FE [0x55, 0xAA]

theorem loopDisk_leads : Leads 64 loopDisk 0 0 := by
  refine ⟨0, ⟨by decide +kernel, by decide +kernel, ?_⟩, rfl⟩
  have he : (entries (fromSector loopDisk 0 0 1)).head? = some ⟨5, 0⟩ := by decide +kernel
  exact ⟨_, List.mem_of_head? he, by decide, rfl⟩

/-- A partition that is its own table is probed for ever. -/
theorem table_in_itself_never_ends : ¬ ∀ disk, Ends 64 disk := fun h =>
  no_cycle_of_acc ((ends_iff_acc 64 loopDisk).mp (h loopDisk)) .refl (.single loopDisk_leads)

end Rodvin.Kernel.Mbr
