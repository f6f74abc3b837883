/-
  Rodvin.Kernel.FatGeometry — the layout of a FAT volume, and what the constructor and
  `nextCluster` make of it.

  The layout is that of the file system's specification: the number of clusters decides
  between 16 and 32 bits (`kind`), and says where a cluster and its table entry lie
  (`firstData`, `entry`). The constructor compares the number of sectors with the same
  thresholds. So it is right about the small volumes and about those that have too many
  clusters anyway (`geometry_right_iff`).

  `nextCluster` compares the entries of a sector, 256 or 128, with 2, and always takes four
  bytes; `Fetched` says when they hold the entry all the same (`nextCluster_entry_iff`).
-/

import Rodvin.Kernel.FatVolume

namespace Rodvin.Kernel.Fat

open Rodvin.Lib

/-! ## The layout -/

def reserved (disk : Disk) : Nat := field (bootOf disk) 14 2

def rootEntries (disk : Disk) : Nat := field (bootOf disk) 17 2

/-- The sectors of one table. -/
def tableSize (disk : Disk) : Nat :=
  if field (bootOf disk) 22 2 ≠ 0 then field (bootOf disk) 22 2 else field (bootOf disk) 36 4

def rootSectors (disk : Disk) : Nat := (32 * rootEntries disk + 511) / 512

/-- The first sector behind the tables. -/
def tablesEnd (disk : Disk) : Nat := reserved disk + field (bootOf disk) 16 1 * tableSize disk

def firstData (disk : Disk) : Nat := tablesEnd disk + rootSectors disk

def totalSectors (disk : Disk) : Nat := sectorsOf (bootOf disk)

def clusters (disk : Disk) : Nat := (totalSectors disk - firstData disk) / clusterSectors disk

def kind (disk : Disk) : FatVersion := if clusters disk < 65525 then .Fat16 else .Fat32

/-- A boot sector of a FAT16 or FAT32 volume with sectors of 512 bytes. The field of 16 bits
    for the table size is that of FAT16, and FAT32 has no root directory of its own. -/
structure IsVolume (disk : Disk) : Prop where
  sectorSize : field (bootOf disk) 11 2 = 512
  nonempty : 0 < clusterSectors disk
  fits : firstData disk ≤ totalSectors disk
  fat16 : clusters disk < 65525 → field (bootOf disk) 22 2 ≠ 0
  fat32 : 65525 ≤ clusters disk → field (bootOf disk) 22 2 = 0 ∧ rootEntries disk = 0 ∧ clusters disk < 0xFFFFFF5

/-- The sectors that `readCluster` reads: the first and how many. -/
def place (fat : FatFilesystem) (cluster : Nat) : Nat × Nat :=
  if cluster = 1 then (fat.root_directory, fat.root_entry_count / 16)
  else (u32 (fat.first_sect + u32 (cluster + 2 ^ 32 - 2) * fat.sect_per_clus), fat.sect_per_clus)

theorem place_one (fat : FatFilesystem) : place fat 1 = (fat.root_directory, fat.root_entry_count / 16) := if_pos rfl

/-- What the constructor has to find out. -/
structure GeometryRight (disk : Disk) : Prop where
  version : (FatFilesystem.new disk).fat_version = kind disk
  data : ∀ n, 2 ≤ n → n < clusters disk + 2 →
    place (FatFilesystem.new disk) n = (firstData disk + (n - 2) * clusterSectors disk, clusterSectors disk)
  root16 : kind disk = .Fat16 → (FatFilesystem.new disk).rootDirCluster = 1 ∧
    place (FatFilesystem.new disk) 1 = (tablesEnd disk, rootSectors disk)
  root32 : kind disk = .Fat32 → (FatFilesystem.new disk).rootDirCluster = field (bootOf disk) 44 4

variable {disk : Disk} {c n : Nat}

/-! ## The constructor -/

theorem field_two {b : List UInt8} {i : Nat} (h : i + 2 ≤ b.length) :
    field b i 2 = field b i 1 + 256 * field b (i + 1) 1 := by
  unfold field
  rw [List.drop_eq_getElem_cons (show i < b.length by omega),
    List.drop_eq_getElem_cons (show i + 1 < b.length by omega)]
  simp only [List.take_succ_cons, List.take_zero, ofLE]
  omega

theorem length_bootOf (disk : Disk) : (bootOf disk).length = 512 := length_slice ..

theorem totalSectors_lt (disk : Disk) : totalSectors disk < 2 ^ 32 := by
  have h1 : field (bootOf disk) 19 1 < 256 ^ 1 := field_lt
  have h2 : field (bootOf disk) 20 1 < 256 ^ 1 := field_lt
  have h3 : field (bootOf disk) 32 4 < 256 ^ 4 := field_lt
  unfold totalSectors sectorsOf
  simp only
  split
  · omega
  · omega

/-- The data area lies in the volume, cluster by cluster. -/
theorem IsVolume.data_fits (h : IsVolume disk) (hn : n < clusters disk + 2) (h2 : 2 ≤ n) :
    firstData disk + (n - 2) * clusterSectors disk < 2 ^ 32 := by
  have hlt := totalSectors_lt disk
  have hfits := h.fits
  have hle : (n - 2) * clusterSectors disk ≤ totalSectors disk - firstData disk := by
    have hmul : clusters disk * clusterSectors disk ≤ totalSectors disk - firstData disk := Nat.div_mul_le_self ..
    exact Nat.le_trans (Nat.mul_le_mul_right _ (by omega)) hmul
  omega

theorem clusters_le (disk : Disk) : clusters disk ≤ totalSectors disk :=
  Nat.le_trans (Nat.div_le_self ..) (Nat.sub_le ..)

/-- An address of the data area, computed in 32 bits. -/
theorem IsVolume.place_data (h : IsVolume disk) {fat : FatFilesystem} (hf : fat.first_sect = firstData disk)
    (hs : fat.sect_per_clus = clusterSectors disk) (h2 : 2 ≤ n) (hn : n < clusters disk + 2) :
    place fat n = (firstData disk + (n - 2) * clusterSectors disk, clusterSectors disk) := by
  have hlt := h.data_fits hn h2
  have hle := clusters_le disk
  have ht := totalSectors_lt disk
  have hm : n - 2 ≤ (n - 2) * clusterSectors disk := Nat.le_mul_of_pos_right _ h.nonempty
  have hsub : u32 (n + 2 ^ 32 - 2) = n - 2 := by
    unfold u32
    omega
  unfold place
  rw [if_neg (by omega), hsub, hf, hs]
  unfold u32
  rw [Nat.mod_eq_of_lt hlt]

theorem new_of_lt (h : totalSectors disk < 65525) :
    FatFilesystem.new disk = ⟨disk, .Fat16, 1, rootEntries disk, clusterSectors disk, reserved disk,
      reserved disk + field (bootOf disk) 16 1 * field (bootOf disk) 22 2,
      reserved disk + field (bootOf disk) 16 1 * field (bootOf disk) 22 2 + rootEntries disk / 16⟩ := by
  have h' : sectorsOf (readBlock disk 0 1) < 65525 := h
  have hroot : rootEntries disk = field (readBlock disk 0 1) 17 1 + 256 * field (readBlock disk 0 1) 18 1 :=
    field_two (by rw [length_bootOf]; omega)
  rw [hroot]
  unfold FatFilesystem.new
  simp only [if_pos h']
  rfl

theorem new_of_ge (h : 65525 ≤ totalSectors disk) :
    FatFilesystem.new disk = ⟨disk, if totalSectors disk < 268435445 then .Fat32 else .ExFat, field (bootOf disk) 44 4, 0,
      clusterSectors disk, reserved disk, 0,
      u32 (reserved disk + field (bootOf disk) 16 1 * field (bootOf disk) 36 4)⟩ := by
  have h' : ¬ sectorsOf (readBlock disk 0 1) < 65525 := Nat.not_lt.mpr h
  unfold FatFilesystem.new
  simp only [if_neg h']
  rfl

/-- Small volumes: the root directory must fill its sectors. -/
theorem geometry_of_lt (h : IsVolume disk) (ht : totalSectors disk < 65525) :
    GeometryRight disk ↔ rootEntries disk % 16 = 0 := by
  have hle := clusters_le disk
  have hkind : kind disk = .Fat16 := if_pos (by omega)
  have hsize : tableSize disk = field (bootOf disk) 22 2 := if_pos (h.fat16 (by omega))
  have hnew := new_of_lt ht
  rw [← hsize] at hnew
  have hcount : rootEntries disk / 16 = rootSectors disk ↔ rootEntries disk % 16 = 0 := by
    unfold rootSectors
    omega
  rw [← hcount]
  constructor
  · rintro ⟨-, -, hroot, -⟩
    have hplace := (hroot hkind).2
    rw [place_one, hnew, Prod.mk.injEq] at hplace
    simp only at hplace
    exact hplace.2
  · intro hroot
    have hf : (FatFilesystem.new disk).first_sect = firstData disk := by
      rw [hnew, hroot]
      rfl
    have hs : (FatFilesystem.new disk).sect_per_clus = clusterSectors disk := by rw [hnew]
    refine ⟨by rw [hnew, hkind], fun n hn hlt => h.place_data hf hs hn hlt, fun _ => ⟨by rw [hnew], ?_⟩, fun hk => ?_⟩
    · rw [place_one, hnew, hroot]
      rfl
    · rw [hkind] at hk
      cases hk

/-- The others: there must be enough clusters, and not too many sectors. -/
theorem geometry_of_ge (h : IsVolume disk) (ht : 65525 ≤ totalSectors disk) :
    GeometryRight disk ↔ 65525 ≤ clusters disk ∧ totalSectors disk < 268435445 := by
  have hnew := new_of_ge ht
  constructor
  · rintro ⟨hv, -, -, -⟩
    rw [hnew] at hv
    unfold kind at hv
    by_cases hlt : totalSectors disk < 268435445
    · by_cases hc : clusters disk < 65525
      · rw [if_pos hc, if_pos hlt] at hv
        cases hv
      · exact ⟨Nat.not_lt.mp hc, hlt⟩
    · rw [if_neg hlt] at hv
      split at hv
      · cases hv
      · cases hv
  · rintro ⟨hc, hlt⟩
    have hkind : kind disk = .Fat32 := if_neg (by omega)
    obtain ⟨hz, hr, -⟩ := h.fat32 hc
    have hsize : tableSize disk = field (bootOf disk) 36 4 := if_neg (by rw [hz]; exact fun hne => hne rfl)
    have hfirst : firstData disk = reserved disk + field (bootOf disk) 16 1 * field (bootOf disk) 36 4 := by
      unfold firstData tablesEnd rootSectors
      rw [hr, hsize]
      omega
    have hwrap : u32 (firstData disk) = firstData disk :=
      Nat.mod_eq_of_lt (Nat.lt_of_le_of_lt h.fits (totalSectors_lt disk))
    rw [if_pos hlt, ← hfirst, hwrap] at hnew
    have hf : (FatFilesystem.new disk).first_sect = firstData disk := by rw [hnew]
    have hs : (FatFilesystem.new disk).sect_per_clus = clusterSectors disk := by rw [hnew]
    refine ⟨by rw [hnew, hkind], fun n hn hlt => h.place_data hf hs hn hlt, fun hk => ?_, fun _ => by rw [hnew]⟩
    rw [hkind] at hk
    cases hk

/-- The constructor finds the layout of a volume exactly if there are fewer than 65525 sectors
    and a root directory of whole sectors, or as many clusters and fewer than 268435445 sectors. -/
theorem geometry_right_iff (h : IsVolume disk) :
    GeometryRight disk ↔ totalSectors disk < 65525 ∧ rootEntries disk % 16 = 0 ∨
      65525 ≤ clusters disk ∧ totalSectors disk < 268435445 := by
  have hle := clusters_le disk
  by_cases ht : totalSectors disk < 65525
  · rw [geometry_of_lt h ht]
    exact ⟨fun hr => .inl ⟨ht, hr⟩, fun ho => ho.elim And.right fun hc => absurd hc.1 (by omega)⟩
  · rw [geometry_of_ge h (by omega)]
    exact ⟨.inr, fun ho => ho.elim (fun hlt => absurd hlt.1 ht) id⟩

/-- The small volume, with the size of its sectors. -/
def fat32Volume : Disk := splice smallVolume 11 [0, 2]

theorem fat32Volume_isVolume : IsVolume fat32Volume :=
  ⟨by decide +kernel, by decide +kernel, by decide +kernel, fun h => absurd h (by decide +kernel), fun _ => by decide +kernel⟩

theorem geometry_right_iff_fat32 : GeometryRight fat32Volume ↔
    totalSectors fat32Volume < 65525 ∧ rootEntries fat32Volume % 16 = 0 ∨
    65525 ≤ clusters fat32Volume ∧ totalSectors fat32Volume < 268435445 :=
  geometry_right_iff fat32Volume_isVolume

/-- A FAT16 volume of `total` sectors: four sectors to a cluster, one reserved sector, one table
    of 128 sectors, 512 root entries. Cluster 3 follows 2. -/
def fat16Volume (total : Nat) : Disk :=
  splice (splice (fun _ => 0) 11 ([0, 2, 4, 1, 0, 1, 0, 2, 0, 0, 0xF8, 128, 0, 0, 0, 0, 0, 0, 0, 0, 0] ++ le 4 total))
    (512 * 1 + 4) (le 2 3 ++ le 2 0xFFFF)

/-- With 100000 sectors it has 24959 clusters, and is taken for FAT32. -/
theorem large_fat16_is_taken_for_fat32 :
    IsVolume (fat16Volume 100000) ∧ clusters (fat16Volume 100000) = 24959 ∧
      (FatFilesystem.new (fat16Volume 100000)).fat_version = .Fat32 ∧ ¬ GeometryRight (fat16Volume 100000) := by
  have hv : IsVolume (fat16Volume 100000) :=
    ⟨by decide +kernel, by decide +kernel, by decide +kernel, fun _ => by decide +kernel, fun h => absurd h (by decide +kernel)⟩
  refine ⟨hv, by decide +kernel, by decide +kernel, fun hg => ?_⟩
  have hbad : (FatFilesystem.new (fat16Volume 100000)).fat_version ≠ kind (fat16Volume 100000) := by decide +kernel
  exact hbad hg.version

/-! ## `nextCluster` -/

/-- `n` bytes of the first table. -/
def tableAt (disk : Disk) (i n : Nat) : Nat := ofLE (slice disk (512 * reserved disk + i) n)

/-- The entry of a cluster. -/
def entry (disk : Disk) (c : Nat) : Nat :=
  if kind disk = .Fat16 then tableAt disk (2 * c) 2 else tableAt disk (4 * c) 4 % 2 ^ 28

/-- When the four bytes that are fetched hold the entry: two entries of a small FAT16 volume, the
    first equal to it and the second 0, in the first half of a sector; the 32 bits of an entry of
    FAT32 in the place of those of a large FAT16 volume; and the entry of FAT32, with its upper
    four bits where there are too many sectors. -/
def Fetched (disk : Disk) (c : Nat) : Prop :=
  if totalSectors disk < 65525 then
    c % 256 < 128 ∧ tableAt disk (2 * (c + c % 256)) 2 = tableAt disk (2 * c) 2 ∧ tableAt disk (2 * (c + c % 256) + 2) 2 = 0
  else if clusters disk < 65525 then
    (if totalSectors disk < 268435445 then tableAt disk (4 * c) 4 % 2 ^ 28 else tableAt disk (4 * c) 4) = tableAt disk (2 * c) 2
  else totalSectors disk < 268435445 ∨ tableAt disk (4 * c) 4 < 2 ^ 28

/-- Four bytes of one sector of the table. -/
theorem bytesAt_table (disk : Disk) (sector i k : Nat) (hi : i + 4 ≤ 512)
    (hk : 512 * sector + i = 512 * reserved disk + k) :
    bytesAt (readBlock disk sector 1) i 4 = .ok (slice disk (512 * reserved disk + k) 4) := by
  unfold bytesAt readBlock
  rw [length_slice, if_pos (by omega), take_drop_slice _ _ (by omega), hk]

theorem reserved_lt (disk : Disk) : reserved disk < 2 ^ 16 := field_lt

theorem tableAt_lt (disk : Disk) (i n : Nat) : tableAt disk i n < 256 ^ n := by
  unfold tableAt
  exact Nat.lt_of_lt_of_eq (ofLE_lt _) (by rw [length_slice])

/-- Four bytes of the table are two entries of 16 bits. -/
theorem tableAt_four (disk : Disk) (i : Nat) :
    tableAt disk i 4 = tableAt disk i 2 + 65536 * tableAt disk (i + 2) 2 := by
  unfold tableAt
  rw [show (4 : Nat) = 2 + 2 from rfl, slice_add, ← Nat.add_assoc]
  simp only [slice, List.range_succ, List.range_zero, List.map_cons, List.map_nil, List.nil_append,
    List.cons_append, ofLE]
  omega

theorem next_of_lt (ht : totalSectors disk < 65525) (hc : c < 2 ^ 28) :
    nextCluster (FatFilesystem.new disk) c =
      if c % 256 < 128 then .ok (tableAt disk (2 * (c + c % 256)) 4) else fault := by
  have hr := reserved_lt disk
  have hsect : u32 (c / 256 + reserved disk) = c / 256 + reserved disk := Nat.mod_eq_of_lt (by omega)
  rw [new_of_lt ht]
  unfold nextCluster
  simp only [if_true, Nat.reduceDiv, Nat.reduceEqDiff, if_false, hsect, reduceCtorEq]
  by_cases hlow : c % 256 < 128
  · have hb := bytesAt_table disk (c / 256 + reserved disk) (4 * (c % 256)) (2 * (c + c % 256)) (by omega)
      (by omega)
    rw [if_pos hlow, ok_bind hb]
    rfl
  · have hb : bytesAt (readBlock disk (c / 256 + reserved disk) 1) (4 * (c % 256)) 4 = fault := by
      unfold bytesAt readBlock
      rw [length_slice, if_neg (by omega)]
    rw [if_neg hlow, hb]
    rfl

theorem next_of_ge (ht : 65525 ≤ totalSectors disk) (hc : c < 2 ^ 28) :
    nextCluster (FatFilesystem.new disk) c =
      .ok (if totalSectors disk < 268435445 then tableAt disk (4 * c) 4 % 2 ^ 28 else tableAt disk (4 * c) 4) := by
  have hr := reserved_lt disk
  have hsect : u32 (c / 128 + reserved disk) = c / 128 + reserved disk := Nat.mod_eq_of_lt (by omega)
  have hb := bytesAt_table disk (c / 128 + reserved disk) (4 * (c % 128)) (4 * c) (by omega) (by omega)
  rw [new_of_ge ht]
  unfold nextCluster
  by_cases hlt : totalSectors disk < 268435445
  · simp only [if_pos hlt, reduceCtorEq, if_false, Nat.reduceDiv, Nat.reduceEqDiff, hsect, ok_bind hb, if_true]
    rw [show (0xFFFFFFF : Nat) = 2 ^ 28 - 1 from rfl, Nat.and_two_pow_sub_one_eq_mod]
    rfl
  · simp only [if_neg hlt, reduceCtorEq, if_false, Nat.reduceDiv, Nat.reduceEqDiff, hsect, ok_bind hb]
    rfl

/-- For a cluster of a volume `nextCluster` returns its table entry, and reads no byte outside the
    sector it fetched, exactly if the bytes it takes hold the entry. -/
theorem nextCluster_entry_iff (h : IsVolume disk) (hc : c < clusters disk + 2) :
    nextCluster (FatFilesystem.new disk) c = .ok (entry disk c) ↔ Fetched disk c := by
  have hle := clusters_le disk
  have hc28 : c < 2 ^ 28 := by
    by_cases hk : clusters disk < 65525
    · omega
    · have := (h.fat32 (Nat.not_lt.mp hk)).2.2
      omega
  unfold Fetched entry kind
  by_cases ht : totalSectors disk < 65525
  · have hk : clusters disk < 65525 := by omega
    rw [if_pos ht, if_pos hk, if_pos rfl, next_of_lt ht hc28]
    have hlt := tableAt_lt disk (2 * c) 2
    have hsum := tableAt_four disk (2 * (c + c % 256))
    by_cases hlow : c % 256 < 128
    · rw [if_pos hlow, Except.ok.injEq, hsum]
      have hlt' := tableAt_lt disk (2 * (c + c % 256)) 2
      constructor
      · intro he
        exact ⟨hlow, by omega, by omega⟩
      · rintro ⟨-, h1, h2⟩
        omega
    · rw [if_neg hlow]
      exact ⟨nofun, fun hf => absurd hf.1 hlow⟩
  · rw [if_neg ht, next_of_ge (Nat.not_lt.mp ht) hc28, Except.ok.injEq]
    by_cases hk : clusters disk < 65525
    · rw [if_pos hk, if_pos hk, if_pos rfl]
    · have hne : ¬ FatVersion.Fat32 = FatVersion.Fat16 := nofun
      rw [if_neg hk, if_neg hk, if_neg hne]
      by_cases hlt : totalSectors disk < 268435445
      · rw [if_pos hlt]
        exact ⟨fun _ => .inl hlt, fun _ => rfl⟩
      · rw [if_neg hlt]
        constructor
        · intro he
          exact .inr (he ▸ Nat.mod_lt _ (by decide))
        · rintro (hlt' | hsmall)
          · exact absurd hlt' hlt
          · exact (Nat.mod_eq_of_lt hsmall).symm

theorem nextCluster_entry_iff_fat32 :
    nextCluster (FatFilesystem.new fat32Volume) 2 = .ok (entry fat32Volume 2) ↔ Fetched fat32Volume 2 :=
  nextCluster_entry_iff fat32Volume_isVolume (by decide +kernel)

/-- Cluster 3 follows 2 on a FAT16 volume, but the entries 4 and 5 are read; and behind cluster
    127 the bytes lie outside the sector. -/
theorem sixteen_bit_entry_is_misread :
    IsVolume (fat16Volume 60000) ∧ kind (fat16Volume 60000) = .Fat16 ∧ entry (fat16Volume 60000) 2 = 3 ∧
      nextCluster (FatFilesystem.new (fat16Volume 60000)) 2 = .ok 0 ∧
      200 < clusters (fat16Volume 60000) + 2 ∧ nextCluster (FatFilesystem.new (fat16Volume 60000)) 200 = fault := by
  have hv : IsVolume (fat16Volume 60000) :=
    ⟨by decide +kernel, by decide +kernel, by decide +kernel, fun _ => by decide +kernel, fun h => absurd h (by decide +kernel)⟩
  exact ⟨hv, by decide +kernel, by decide +kernel, by decide +kernel, by decide +kernel, by decide +kernel⟩

end Rodvin.Kernel.Fat
