/-
  Rodvin.Kernel.FatLoops — when the loops of `FatFile::read` and `FatFile::seek` end.

  What ends a loop are numbers it computes: the bytes still to read, or still to step over.
  The clusters do not matter, so here no access stops the loops: where `nextCluster` reads
  outside its sector, what it gives is a parameter (`wild`). A loop that returns in
  `Rodvin.Kernel.Fat` ends here in the same way (`readLoop_ends`, `seekLoop_ends`).

  `storageIsFat` does not look at `sectpercluster`. With 0 there, a turn takes nothing away
  (`loops_end_iff`).
-/

import Rodvin.Kernel.FatGeometry
import Rodvin.Kernel.FatSeek

namespace Rodvin.Kernel.Fat

open Rodvin.Lib

/-! ## The loops -/

def follow (wild : Nat → Nat) (fat : FatFilesystem) (cluster : Nat) : Nat :=
  match nextCluster fat cluster with
  | .ok next => next
  | .error _ => wild cluster

def clusterBytes (fat : FatFilesystem) : Nat := u32 (fat.sect_per_clus * 512)

/-- One turn of the loop of `read`: what is still to read, and the file. -/
def readTurn (wild : Nat → Nat) (f : FatFile) (amount : Nat) : Nat × FatFile :=
  let readFromThisCluster := min amount f.bytesLeftInCurrentCluster
  let left := f.bytesLeftInCurrentCluster - readFromThisCluster
  (amount - readFromThisCluster,
    if left = 0 then
      { f with currentCluster := follow wild f.fat f.currentCluster, bytesLeftInCurrentCluster := clusterBytes f.fat }
    else { f with bytesLeftInCurrentCluster := left })

inductive ReadEnds (wild : Nat → Nat) : FatFile → Nat → Prop
  | done (f : FatFile) : ReadEnds wild f 0
  | turn {f : FatFile} {amount : Nat} : amount ≠ 0 → ReadEnds wild (readTurn wild f amount).2 (readTurn wild f amount).1 →
      ReadEnds wild f amount

/-- The loop of `seek` from a cluster on. -/
inductive SeekEnds (wild : Nat → Nat) (fat : FatFilesystem) : Nat → Int → Prop
  | done {cluster : Nat} {deltaPosition : Int} : deltaPosition ≤ clusterBytes fat → SeekEnds wild fat cluster deltaPosition
  | turn {cluster : Nat} {deltaPosition : Int} : (clusterBytes fat : Int) < deltaPosition →
      SeekEnds wild fat (follow wild fat cluster) (deltaPosition - clusterBytes fat) → SeekEnds wild fat cluster deltaPosition

variable {wild : Nat → Nat} {disk : Disk} {fat : FatFilesystem} {f g : FatFile} {amount cluster : Nat} {deltaPosition : Int}

theorem follow_of_ok {next : Nat} (h : nextCluster fat cluster = .ok next) : follow wild fat cluster = next := by
  unfold follow
  rw [h]

/-- A turn that returns is this turn. -/
theorem readSome_turn {bs : List UInt8} (h : readSome f amount = .ok (bs, g)) :
    readTurn wild f amount = (amount - bs.length, g) := by
  unfold readSome at h
  simp only at h
  split at h
  · cases h
  · rename_i hle
    obtain ⟨bytes, hb, h⟩ := bind_eq_ok.mp h
    have hlen : bytes.length = min amount f.bytesLeftInCurrentCluster := by
      unfold bytesAt at hb
      split at hb
      · cases hb
        rw [List.length_take, List.length_drop]
        omega
      · cases hb
    unfold readTurn clusterBytes
    simp only
    rw [← hlen] at h ⊢
    by_cases hend : f.bytesLeftInCurrentCluster - bytes.length = 0
    · rw [if_pos hend] at h ⊢
      obtain ⟨next, hnext, h⟩ := bind_eq_ok.mp h
      cases h
      rw [follow_of_ok hnext]
    · rw [if_neg hend] at h ⊢
      cases h
      rfl

theorem readLoop_ends {fuel : Nat} {r : List UInt8 × FatFile} (h : readLoop fuel amount f = .ok r) :
    ReadEnds wild f amount := by
  induction fuel generalizing f amount r with
  | zero =>
    unfold readLoop at h
    split at h
    · rename_i ha
      rw [ha]
      exact .done f
    · cases h
  | succ fuel ih =>
    unfold readLoop at h
    split at h
    · rename_i ha
      rw [ha]
      exact .done f
    · rename_i ha
      obtain ⟨⟨bs, g⟩, h1, h⟩ := bind_eq_ok.mp h
      obtain ⟨⟨rest, g'⟩, h2, -⟩ := bind_eq_ok.mp h
      refine .turn ha ?_
      rw [readSome_turn h1]
      exact ih h2

theorem seekLoop_ends {fuel : Nat} {r : Nat × Int} (h : seekLoop fat fuel cluster deltaPosition = .ok r) :
    SeekEnds wild fat cluster deltaPosition := by
  induction fuel generalizing cluster deltaPosition r with
  | zero =>
    unfold seekLoop at h
    split at h
    · cases h
    · rename_i hd
      exact .done (Int.not_lt.mp hd)
  | succ fuel ih =>
    unfold seekLoop at h
    split at h
    · rename_i hd
      obtain ⟨next, h1, h2⟩ := bind_eq_ok.mp h
      refine .turn hd ?_
      rw [follow_of_ok h1]
      exact ih h2
    · rename_i hd
      exact .done (Int.not_lt.mp hd)

/-! ## When they end -/

/-- As long as something is left of the cluster, a turn reads something. -/
theorem readEnds_of_left (hpos : 0 < clusterBytes f.fat) (hleft : 0 < f.bytesLeftInCurrentCluster) :
    ReadEnds wild f amount := by
  induction amount using Nat.strong_induction_on generalizing f with
  | _ amount ih =>
    by_cases ha : amount = 0
    · rw [ha]
      exact .done f
    · refine .turn ha ?_
      unfold readTurn
      simp only
      by_cases hend : f.bytesLeftInCurrentCluster - min amount f.bytesLeftInCurrentCluster = 0
      · rw [if_pos hend]
        exact ih _ (by omega) hpos hpos
      · rw [if_neg hend]
        exact ih _ (by omega) hpos (Nat.pos_of_ne_zero hend)

theorem readEnds_iff : ReadEnds wild f amount ↔ clusterBytes f.fat ≠ 0 ∨ amount ≤ f.bytesLeftInCurrentCluster := by
  constructor
  · intro h
    induction h with
    | done f => exact .inr (Nat.zero_le _)
    | @turn f amount ha _ ih =>
      unfold readTurn at ih
      simp only at ih
      by_cases hend : f.bytesLeftInCurrentCluster - min amount f.bytesLeftInCurrentCluster = 0
      · rw [if_pos hend] at ih
        simp only at ih
        omega
      · rw [if_neg hend] at ih
        simp only at ih
        omega
  · intro h
    by_cases ha : amount = 0
    · rw [ha]
      exact .done f
    · by_cases hleft : f.bytesLeftInCurrentCluster = 0
      · -- the first turn only goes to the next cluster
        have hpos : 0 < clusterBytes f.fat := by omega
        refine .turn ha ?_
        unfold readTurn
        simp only
        rw [hleft, if_pos (Nat.zero_sub _)]
        exact readEnds_of_left hpos hpos
      · by_cases hpos : clusterBytes f.fat = 0
        · refine .turn ha ?_
          have hall : (readTurn wild f amount).1 = 0 := by
            unfold readTurn
            simp only
            omega
          rw [hall]
          exact .done _
        · exact readEnds_of_left (Nat.pos_of_ne_zero hpos) (Nat.pos_of_ne_zero hleft)

theorem seekEnds_iff : SeekEnds wild fat cluster deltaPosition ↔ clusterBytes fat ≠ 0 ∨ deltaPosition ≤ 0 := by
  constructor
  · intro h
    induction h with
    | done h => omega
    | turn h _ ih => omega
  · intro h
    obtain ⟨n, hn⟩ : ∃ n : Nat, deltaPosition ≤ n := ⟨deltaPosition.toNat, Int.self_le_toNat _⟩
    induction n generalizing cluster deltaPosition with
    | zero => exact .done (by omega)
    | succ n ih =>
      by_cases hd : (clusterBytes fat : Int) < deltaPosition
      · exact .turn hd (ih (by omega) (by omega))
      · exact .done (Int.not_lt.mp hd)

theorem clusterBytes_new (disk : Disk) : clusterBytes (FatFilesystem.new disk) = 512 * clusterSectors disk := by
  have hlt : clusterSectors disk < 256 ^ 1 := field_lt
  have hs : (FatFilesystem.new disk).sect_per_clus = clusterSectors disk := by
    by_cases ht : totalSectors disk < 65525
    · rw [new_of_lt ht]
    · rw [new_of_ge (Nat.not_lt.mp ht)]
  unfold clusterBytes u32
  rw [hs]
  omega

/-- On any medium, and whatever stands outside the sectors that are read: `read` ends exactly if
    there are sectors to a cluster or no more is read than is left, `seek` exactly if there are
    sectors to a cluster or it does not go forward; and where the loops that stop at an access
    outside return, these end. -/
theorem loops_end_iff (wild : Nat → Nat) (hf : f.fat = FatFilesystem.new disk) (amount : Nat) (delta : Int64) :
    (ReadEnds wild f amount ↔ clusterSectors disk ≠ 0 ∨ amount ≤ f.bytesLeftInCurrentCluster) ∧
      (SeekEnds wild f.fat f.firstCluster delta.toInt ↔ clusterSectors disk ≠ 0 ∨ delta.toInt ≤ 0) ∧
      (∀ fuel r, readLoop fuel amount f = .ok r → ReadEnds wild f amount) ∧
      ∀ fuel r, seekLoop f.fat fuel f.firstCluster delta.toInt = .ok r →
        SeekEnds wild f.fat f.firstCluster delta.toInt := by
  have hzero : clusterBytes f.fat ≠ 0 ↔ clusterSectors disk ≠ 0 := by
    rw [hf, clusterBytes_new]
    omega
  refine ⟨?_, ?_, fun _ _ => readLoop_ends, fun _ _ => seekLoop_ends⟩
  · rw [readEnds_iff, hzero]
  · rw [seekEnds_iff, hzero]

theorem loops_end_iff_small :
    (ReadEnds (fun _ => 0) (openFile (FatFilesystem.new smallVolume) smallFile) 600 ↔ clusterSectors smallVolume ≠ 0 ∨
      600 ≤ (openFile (FatFilesystem.new smallVolume) smallFile).bytesLeftInCurrentCluster) ∧
    (SeekEnds (fun _ => 0) (openFile (FatFilesystem.new smallVolume) smallFile).fat
      (openFile (FatFilesystem.new smallVolume) smallFile).firstCluster (Int64.toInt 600) ↔
        clusterSectors smallVolume ≠ 0 ∨ Int64.toInt 600 ≤ 0) := by
  obtain ⟨hread, hseek, -⟩ := loops_end_iff (fun _ => 0) (openFile_fat (FatFilesystem.new smallVolume) smallFile) 600 600
  exact ⟨hread, hseek⟩

/-- A boot sector with no sectors to a cluster: one reserved sector, one table, 100000 sectors. -/
def emptyClusters : Disk :=
  splice (fun _ => 0) 0 ([0xEB, 0, 0x90] ++ List.replicate 8 0 ++ [0, 2, 0, 1, 0, 1, 0, 0, 0, 0, 0xF8, 0, 0] ++
    List.replicate 8 0 ++ le 4 100000)

/-- It is accepted, and reading or stepping over one byte never ends. -/
theorem empty_clusters_are_read_for_ever :
    storageIsFat (readBlock emptyClusters) = true ∧ ∀ wild,
      ¬ ReadEnds wild (openFile (FatFilesystem.new emptyClusters) smallFile) 1 ∧
        ¬ SeekEnds wild (FatFilesystem.new emptyClusters) (openFile (FatFilesystem.new emptyClusters) smallFile).firstCluster 1 := by
  have hzero : clusterBytes (FatFilesystem.new emptyClusters) = 0 := by decide +kernel
  refine ⟨by decide +kernel, fun wild => ⟨?_, ?_⟩⟩
  · rw [readEnds_iff, openFile_fat, openFile_left]
    intro h
    rcases h with h | h
    · exact h hzero
    · exact absurd (Nat.le_trans h (Nat.le_of_eq hzero)) (by decide)
  · rw [seekEnds_iff]
    intro h
    rcases h with h | h
    · exact h hzero
    · exact absurd h (by decide)

end Rodvin.Kernel.Fat
