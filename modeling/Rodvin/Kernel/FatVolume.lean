/-
  Rodvin.Kernel.FatVolume — well-formed FAT32 volumes and cluster chains.

  A cluster of the data area is read where it lies and the table entry of it is found
  (`readCluster_eq`, `nextCluster_eq`); no computation in 32 bits wraps there.
-/

import Mathlib.Tactic
import Rodvin.Kernel.Fat

namespace Rodvin.Kernel.Fat

open Rodvin.Lib

/-! ## Volumes -/

def bootOf (disk : Disk) : List UInt8 := readBlock disk 0 1

/-- The first sector behind the tables. -/
def dataStart (disk : Disk) : Nat := field (bootOf disk) 14 2 + field (bootOf disk) 16 1 * field (bootOf disk) 36 4

def clusterSectors (disk : Disk) : Nat := field (bootOf disk) 13 1

def clusterSize (disk : Disk) : Nat := 512 * clusterSectors disk

structure WellFormed (disk : Disk) : Prop where
  fat32 : (FatFilesystem.new disk).fat_version = .Fat32
  nonempty : 0 < clusterSectors disk
  tables : dataStart disk ≤ sectorsOf (bootOf disk)

/-- A cluster of the data area. -/
structure Valid (disk : Disk) (c : Nat) : Prop where
  two_le : 2 ≤ c
  fits : dataStart disk + (c - 1) * clusterSectors disk ≤ sectorsOf (bootOf disk)

/-- The bytes of a cluster. -/
def cluster (disk : Disk) (c : Nat) : List UInt8 :=
  slice disk (512 * (dataStart disk + (c - 2) * clusterSectors disk)) (clusterSize disk)

/-- The lowest 28 bits of a table entry. -/
def fatEntry (disk : Disk) (c : Nat) : Nat := ofLE (slice disk (512 * field (bootOf disk) 14 2 + 4 * c) 4) % 2 ^ 28

/-- A table entry from here on ends a chain. -/
def endMark : Nat := 0xFFFFFF8

/-- The clusters of a file or directory, as the table links them. -/
def IsChain (disk : Disk) : List Nat → Prop
  | [] => True
  | [c] => Valid disk c ∧ endMark ≤ fatEntry disk c
  | c :: c' :: cs => Valid disk c ∧ fatEntry disk c = c' ∧ IsChain disk (c' :: cs)

/-- The content of a chain. -/
def content (disk : Disk) (cs : List Nat) : List UInt8 := cs.flatMap (cluster disk)

variable {disk : Disk} {c n : Nat} {cs : List Nat}

@[simp] theorem length_cluster (disk : Disk) (c : Nat) : (cluster disk c).length = clusterSize disk := length_slice ..

theorem length_content (disk : Disk) (cs : List Nat) : (content disk cs).length = cs.length * clusterSize disk := by
  unfold content
  rw [List.length_flatMap, List.map_congr_left fun c _ => length_cluster disk c, List.map_const', List.sum_replicate,
    smul_eq_mul]

/-! ## The constructor -/

theorem field_lt {b : List UInt8} {i n : Nat} : field b i n < 256 ^ n :=
  Nat.lt_of_lt_of_le (ofLE_lt _) (Nat.pow_le_pow_right (by decide) (List.length_take_le ..))

theorem WellFormed.new_eq (h : WellFormed disk) :
    FatFilesystem.new disk = ⟨disk, .Fat32, field (bootOf disk) 44 4, 0, clusterSectors disk, field (bootOf disk) 14 2, 0,
      dataStart disk⟩ ∧ sectorsOf (bootOf disk) < 268435445 := by
  have h32 := h.fat32
  have ht := h.tables
  unfold FatFilesystem.new at h32 ⊢
  simp only at h32 ⊢
  by_cases h16 : sectorsOf (readBlock disk 0 1) < 65525
  · rw [if_pos h16] at h32
    cases h32
  · rw [if_neg h16] at h32 ⊢
    by_cases hx : sectorsOf (readBlock disk 0 1) < 268435445
    · have hd : dataStart disk < 2 ^ 32 := Nat.lt_of_le_of_lt ht (Nat.lt_trans hx (by decide))
      rw [if_pos hx]
      refine ⟨?_, hx⟩
      show FatFilesystem.mk _ _ _ _ _ _ _ (u32 (dataStart disk)) = _
      unfold u32
      rw [Nat.mod_eq_of_lt hd]
      rfl
    · simp only [if_neg hx] at h32
      cases h32

/-- A valid cluster is not an end mark, and its number fits. -/
theorem Valid.lt (h : WellFormed disk) (hc : Valid disk c) : c < endMark := by
  have hs := h.new_eq.2
  have hf := hc.fits
  have hm : c - 1 ≤ (c - 1) * clusterSectors disk := Nat.le_mul_of_pos_right _ h.nonempty
  unfold endMark
  omega

theorem u32_clusterSize (h : WellFormed disk) :
    u32 ((FatFilesystem.new disk).sect_per_clus * 512) = clusterSize disk := by
  have hlt : clusterSectors disk < 256 ^ 1 := field_lt
  have hs : (FatFilesystem.new disk).sect_per_clus = clusterSectors disk := by rw [h.new_eq.1]
  rw [hs]
  unfold u32 clusterSize
  omega

theorem nextCluster_eq (h : WellFormed disk) (hc : Valid disk c) :
    nextCluster (FatFilesystem.new disk) c = .ok (fatEntry disk c) := by
  have hlt := hc.lt h
  have hr : field (bootOf disk) 14 2 < 256 ^ 2 := field_lt
  unfold endMark at hlt
  rw [h.new_eq.1]
  have hsect : u32 (c / 128 + field (bootOf disk) 14 2) = c / 128 + field (bootOf disk) 14 2 :=
    Nat.mod_eq_of_lt (by omega)
  have hb : bytesAt (readBlock disk (c / 128 + field (bootOf disk) 14 2) 1) (4 * (c % 128)) 4 =
      .ok (slice disk (512 * field (bootOf disk) 14 2 + 4 * c) 4) := by
    have hlen : 4 * (c % 128) + 4 ≤ (readBlock disk (c / 128 + field (bootOf disk) 14 2) 1).length := by
      unfold readBlock
      rw [length_slice]
      omega
    have haddr : 512 * (c / 128 + field (bootOf disk) 14 2) + 4 * (c % 128) = 512 * field (bootOf disk) 14 2 + 4 * c := by
      omega
    unfold bytesAt
    rw [if_pos hlen]
    unfold readBlock
    rw [take_drop_slice _ _ (by omega), haddr]
  unfold nextCluster
  simp only [reduceCtorEq, if_false, Nat.reduceDiv, Nat.reduceEqDiff, hsect, ok_bind hb, if_true]
  unfold fatEntry
  rw [show (0xFFFFFFF : Nat) = 2 ^ 28 - 1 from rfl, Nat.and_two_pow_sub_one_eq_mod]
  rfl

theorem readCluster_eq (h : WellFormed disk) (hc : Valid disk c) :
    readCluster (FatFilesystem.new disk) c = cluster disk c := by
  have hlt := hc.lt h
  have h2 := hc.two_le
  have hf := hc.fits
  have hs := h.new_eq.2
  unfold endMark at hlt
  have hsub : u32 (c + 2 ^ 32 - 2) = c - 2 := by
    unfold u32
    omega
  have hle : (c - 2) * clusterSectors disk ≤ (c - 1) * clusterSectors disk := Nat.mul_le_mul_right _ (by omega)
  have hsect : u32 (dataStart disk + (c - 2) * clusterSectors disk) = dataStart disk + (c - 2) * clusterSectors disk :=
    Nat.mod_eq_of_lt (by omega)
  rw [h.new_eq.1]
  unfold readCluster
  simp only
  rw [if_neg (by omega), hsub, hsect]
  rfl

/-! ## Chains -/

theorem IsChain.valid (h : IsChain disk cs) : ∀ c ∈ cs, Valid disk c := by
  induction cs with
  | nil => exact nofun
  | cons c cs ih =>
    intro x hx
    cases cs with
    | nil =>
      obtain rfl := List.mem_singleton.mp hx
      exact h.1
    | cons c' cs =>
      rcases List.mem_cons.mp hx with rfl | hx
      · exact h.1
      · exact ih h.2.2 x hx

/-- The cluster behind the `n`-th. -/
theorem IsChain.next (h : IsChain disk cs) (hn : cs[n]? = some c) :
    cs[n + 1]? = some (fatEntry disk c) ∨ n + 1 = cs.length ∧ endMark ≤ fatEntry disk c := by
  induction cs generalizing n with
  | nil => exact absurd hn (by simp)
  | cons x cs ih =>
    cases cs with
    | nil =>
      cases n with
      | zero =>
        obtain rfl : x = c := by simpa using hn
        exact .inr ⟨rfl, h.2⟩
      | succ n => exact absurd hn (by simp)
    | cons y cs =>
      cases n with
      | zero =>
        obtain rfl : x = c := by simpa using hn
        exact .inl (congrArg some h.2.1.symm)
      | succ n =>
        rcases ih h.2.2 (by simpa using hn) with h' | ⟨h', h''⟩
        · exact .inl (by simpa using h')
        · exact .inr ⟨by rw [List.length_cons, ← h'], h''⟩

/-! ## A small volume -/

/-- The boot sector from `sectpercluster` to `rootDirCluster`: one sector to a cluster, 32
    reserved sectors, one table of 1024 sectors, 131072 sectors. -/
def smallBoot : List UInt8 :=
  [1, 32, 0, 1, 0, 0, 0, 0, 0xF8, 0, 0, 0, 0, 0, 0, 0, 0, 0, 0, 0, 0, 2, 0, 0, 4, 0, 0, 0, 0, 0, 0, 2, 0, 0, 0]

/-- The clusters 2 and 3 form a chain; it begins with a slot that was deleted. -/
def smallVolume : Disk :=
  splice (splice (splice (fun _ => 0) 13 smallBoot) (512 * 32 + 8) (le 4 3 ++ le 4 0xFFFFFFF)) (512 * 1056)
    (0xE5 :: List.replicate 10 0x41 ++ [0x20])

theorem smallVolume_wellFormed : WellFormed smallVolume := ⟨by decide +kernel, by decide +kernel, by decide +kernel⟩

theorem smallVolume_chain : IsChain smallVolume [2, 3] :=
  ⟨⟨by decide, by decide +kernel⟩, by decide +kernel, ⟨by decide, by decide +kernel⟩, by decide +kernel⟩

end Rodvin.Kernel.Fat
