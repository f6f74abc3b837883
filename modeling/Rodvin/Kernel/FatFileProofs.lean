/-
  Rodvin.Kernel.FatFileProofs — reading a file front to back (`FatFile::read`).

  The cursor of a file stands at an offset of its content (`At`). One turn of the loop
  copies up to the end of a cluster and keeps that (`readSome_spec`), so every call does
  (`read_spec`), however the amounts cut the content (`sequential_reads`).
-/

import Rodvin.Kernel.FatVolume

namespace Rodvin.Kernel.Fat

open Rodvin.Lib

variable {disk : Disk} {cs : List Nat} {f : FatFile} {off amount : Nat}

/-- Consecutive calls of `read`. -/
def readMany : FatFile → List Nat → Checked (List (Nat × List UInt8 × FatFile))
  | _, [] => pure []
  | f, amount :: amounts => do
    let r ← f.read amount
    let rs ← readMany r.2.2 amounts
    return r :: rs

/-- The cluster of an offset, and what is left of it. -/
def Designates (disk : Disk) (cs : List Nat) (f : FatFile) (off : Nat) : Prop :=
  cs[off / clusterSize disk]? = some f.currentCluster ∧
    f.bytesLeftInCurrentCluster = clusterSize disk - off % clusterSize disk

structure At (disk : Disk) (cs : List Nat) (f : FatFile) (off : Nat) : Prop where
  fat : f.fat = FatFilesystem.new disk
  le : off ≤ cs.length * clusterSize disk
  cursor : off ≠ cs.length * clusterSize disk → Designates disk cs f off

theorem clusterSize_pos (h : WellFormed disk) : 0 < clusterSize disk := Nat.mul_pos (by decide) h.nonempty

/-! ## One call -/

/-- The copy that a turn makes: `n` bytes of a cluster from its byte `r` on. -/
theorem bytesAt_cluster {k r n c : Nat} (hk : cs[k]? = some c) (hn : r + n ≤ clusterSize disk) :
    bytesAt (cluster disk c) (clusterSize disk - (clusterSize disk - r)) n =
      .ok (((content disk cs).drop (clusterSize disk * k + r)).take n) := by
  have hpart := take_drop_flatMap (f := cluster disk) (fun c _ => length_cluster disk c) hn hk
  unfold bytesAt
  rw [Nat.sub_sub_self (by omega), length_cluster, if_pos hn, ← hpart]
  rfl

/-- A turn reads up to the end of the cluster; at the end it follows the chain. -/
theorem readSome_spec (h : WellFormed disk) (hc : IsChain disk cs) (hf : At disk cs f off) (ha : 0 < amount)
    (hle : off + amount ≤ cs.length * clusterSize disk) :
    ∃ n f', 0 < n ∧ n ≤ amount ∧ readSome f amount = .ok (((content disk cs).drop off).take n, f') ∧
      At disk cs f' (off + n) := by
  obtain ⟨hcur, hleft⟩ := hf.cursor (by omega)
  have hS := clusterSize_pos h
  have hr := Nat.mod_lt off hS
  have hoff := Nat.div_add_mod off (clusterSize disk)
  have hv := hc.valid _ (List.mem_of_getElem? hcur)
  have hread : readCluster f.fat f.currentCluster = cluster disk f.currentCluster := hf.fat ▸ readCluster_eq h hv
  have hnext : nextCluster f.fat f.currentCluster = .ok (fatEntry disk f.currentCluster) := hf.fat ▸ nextCluster_eq h hv
  have hspc : u32 (f.fat.sect_per_clus * 512) = clusterSize disk := hf.fat ▸ u32_clusterSize h
  have hfat := hf.fat
  generalize hk : off / clusterSize disk = k at hcur hoff
  generalize hr' : off % clusterSize disk = r at hr hoff hleft
  generalize hn' : min amount (clusterSize disk - r) = n
  have hn : r + n ≤ clusterSize disk := by omega
  have hbytes := bytesAt_cluster hcur hn
  rw [hoff] at hbytes
  refine ⟨n, ?_⟩
  unfold readSome
  simp only [hread, hleft, length_cluster, hn', ok_bind hbytes]
  rw [if_neg (by omega)]
  by_cases hend : clusterSize disk - r - n = 0
  · -- the last byte of the cluster was read
    have hto : off + n = clusterSize disk * (k + 1) := by
      rw [Nat.mul_succ]
      omega
    rw [if_pos hend, ok_bind hnext]
    refine ⟨_, by omega, by omega, rfl, hfat, by omega, fun hne => ⟨?_, ?_⟩⟩
    · rw [hto, Nat.mul_div_cancel_left _ hS]
      refine (hc.next hcur).resolve_right fun ⟨hlast, _⟩ => hne ?_
      rw [hto, hlast, Nat.mul_comm]
    · rw [hto, Nat.mul_mod_right, Nat.sub_zero]
      exact hspc
  · have hin : r + n < clusterSize disk := by omega
    have hto : off + n = r + n + clusterSize disk * k := by omega
    rw [if_neg hend]
    refine ⟨_, by omega, by omega, rfl, hfat, by omega, fun _ => ⟨?_, ?_⟩⟩
    · rw [hto, Nat.add_mul_div_left _ _ hS, Nat.div_eq_of_lt hin, Nat.zero_add]
      exact hcur
    · rw [hto, Nat.add_mul_mod_self_left, Nat.mod_eq_of_lt hin]
      exact Nat.sub_sub ..

theorem readLoop_spec {fuel : Nat} (h : WellFormed disk) (hc : IsChain disk cs) (hf : At disk cs f off)
    (hfuel : amount ≤ fuel) (hle : off + amount ≤ cs.length * clusterSize disk) :
    ∃ f', readLoop fuel amount f = .ok (((content disk cs).drop off).take amount, f') ∧
      At disk cs f' (off + amount) := by
  induction fuel generalizing f off amount with
  | zero =>
    obtain rfl := Nat.le_zero.mp hfuel
    exact ⟨f, by rw [List.take_zero]; rfl, hf⟩
  | succ fuel ih =>
    by_cases ha : amount = 0
    · subst ha
      exact ⟨f, by rw [List.take_zero]; rfl, hf⟩
    · obtain ⟨n, g, hn, hna, h1, hg⟩ := readSome_spec h hc hf (Nat.pos_of_ne_zero ha) hle
      have hlen : (((content disk cs).drop off).take n).length = n := by
        rw [List.length_take, List.length_drop, length_content]
        omega
      have hless : amount - n ≤ fuel := by omega
      obtain ⟨f', h2, hf'⟩ := ih hg hless (by omega)
      have hto : off + n + (amount - n) = off + amount := by omega
      refine ⟨f', ?_, hto ▸ hf'⟩
      unfold readLoop
      simp only [if_neg ha, ok_bind h1, hlen, ok_bind h2]
      rw [← List.drop_drop, ← List.take_add, Nat.add_sub_cancel' hna]
      rfl

theorem read_spec (h : WellFormed disk) (hc : IsChain disk cs) (hf : At disk cs f off)
    (hle : off + amount ≤ cs.length * clusterSize disk) :
    ∃ f', f.read amount = .ok (amount, ((content disk cs).drop off).take amount, f') ∧
      At disk cs f' (off + amount) := by
  obtain ⟨f', h1, h2⟩ := readLoop_spec h hc hf (Nat.le_succ amount) hle
  refine ⟨f', ?_, h2⟩
  unfold FatFile.read
  rw [ok_bind h1]
  rfl

/-! ## All calls -/

theorem openFile_fat (fat : FatFilesystem) (ent : DirEntry) : (openFile fat ent).fat = fat := rfl

theorem openFile_left (fat : FatFilesystem) (ent : DirEntry) :
    (openFile fat ent).bytesLeftInCurrentCluster = u32 (fat.sect_per_clus * 512) := rfl

theorem openFile_at {ent : DirEntry} (h : WellFormed disk) (hc : IsChain disk cs)
    (hfirst : ∀ c ∈ cs.head?, ent.inodeId = c) : At disk cs (openFile (FatFilesystem.new disk) ent) 0 := by
  refine ⟨openFile_fat .., Nat.zero_le _, fun hne => ?_⟩
  cases cs with
  | nil => exact absurd (Nat.zero_mul _).symm hne
  | cons c cs =>
    have hv := (hc.valid c (List.mem_cons_self ..)).lt h
    have hc32 : u32 ent.inodeId = c := by
      rw [hfirst c rfl]
      unfold endMark at hv
      exact Nat.mod_eq_of_lt (Nat.lt_trans hv (by decide))
    refine ⟨?_, ?_⟩
    · rw [Nat.zero_div]
      exact congrArg some hc32.symm
    · rw [Nat.zero_mod, Nat.sub_zero, openFile_left]
      exact u32_clusterSize h

theorem readMany_spec (h : WellFormed disk) (hc : IsChain disk cs) (amounts : List Nat) (hf : At disk cs f off)
    (hle : off + amounts.sum ≤ cs.length * clusterSize disk) :
    ∃ rs, readMany f amounts = .ok rs ∧ rs.map Prod.fst = amounts ∧ (rs.map fun r => r.2.1.length) = amounts ∧
      (rs.flatMap fun r => r.2.1) = ((content disk cs).drop off).take amounts.sum ∧
      ∀ i r, rs[i]? = some r → At disk cs r.2.2 (off + (amounts.take (i + 1)).sum) := by
  induction amounts generalizing f off with
  | nil => exact ⟨[], rfl, rfl, rfl, by rw [List.sum_nil, List.take_zero]; rfl, nofun⟩
  | cons amount amounts ih =>
    rw [List.sum_cons] at hle
    have hone : off + amount ≤ cs.length * clusterSize disk := by omega
    obtain ⟨g, h1, hg⟩ := read_spec h hc hf hone
    obtain ⟨rs, h2, h3, h4, h5, h6⟩ := ih hg (by omega)
    have hlen : (((content disk cs).drop off).take amount).length = amount := by
      rw [List.length_take, List.length_drop, length_content]
      omega
    refine ⟨(amount, ((content disk cs).drop off).take amount, g) :: rs, ?_, ?_, ?_, ?_, ?_⟩
    · unfold readMany
      simp only [ok_bind h1, ok_bind h2]
      rfl
    · rw [List.map_cons, h3]
    · rw [List.map_cons, h4, hlen]
    · rw [List.flatMap_cons, h5, List.sum_cons, List.take_add, List.drop_drop]
    · intro i r hr
      cases i with
      | zero =>
        obtain rfl := Option.some.inj hr
        simpa using hg
      | succ i =>
        have := h6 i r hr
        rwa [List.take_succ_cons, List.sum_cons, ← Nat.add_assoc]

/-- Consecutive reads of a freshly opened file return their amounts and fill the buffers
    with the beginning of the file; after each of them that does not end at the end of the
    chain the cursor stands at the offset reached. -/
theorem sequential_reads {ent : DirEntry} (h : WellFormed disk) (hc : IsChain disk cs)
    (hfirst : ∀ c ∈ cs.head?, ent.inodeId = c) (hsize : ent.size ≤ cs.length * clusterSize disk) (amounts : List Nat)
    (hsum : amounts.sum ≤ ent.size) :
    ∃ rs, readMany (openFile (FatFilesystem.new disk) ent) amounts = .ok rs ∧ rs.map Prod.fst = amounts ∧
      (rs.map fun r => r.2.1.length) = amounts ∧ (rs.flatMap fun r => r.2.1) = (content disk cs).take amounts.sum ∧
      ∀ i r, rs[i]? = some r → (amounts.take (i + 1)).sum ≠ cs.length * clusterSize disk →
        Designates disk cs r.2.2 (amounts.take (i + 1)).sum := by
  obtain ⟨rs, h1, h2, h3, h4, h5⟩ := readMany_spec h hc amounts (openFile_at h hc hfirst) (by omega)
  refine ⟨rs, h1, h2, h3, h4, fun i r hr hne => ?_⟩
  have hat := h5 i r hr
  rw [Nat.zero_add] at hat
  exact hat.cursor hne

/-- A file that fills the first cluster of `smallVolume` and a part of the second. -/
def smallFile : DirEntry := ⟨2, false, 600, []⟩

theorem sequential_reads_across_clusters : ∃ rs,
    readMany (openFile (FatFilesystem.new smallVolume) smallFile) [100, 500] = .ok rs ∧ rs.map Prod.fst = [100, 500] ∧
      (rs.map fun r => r.2.1.length) = [100, 500] ∧
      (rs.flatMap fun r => r.2.1) = (content smallVolume [2, 3]).take (List.sum [100, 500]) ∧
      ∀ i r, rs[i]? = some r → (List.take (i + 1) [100, 500]).sum ≠ [2, 3].length * clusterSize smallVolume →
        Designates smallVolume [2, 3] r.2.2 (List.take (i + 1) [100, 500]).sum := by
  have hfirst : ∀ c ∈ [2, 3].head?, smallFile.inodeId = c := fun c hc => Option.some.inj hc
  have hsize : smallFile.size ≤ [2, 3].length * clusterSize smallVolume := by decide +kernel
  exact sequential_reads smallVolume_wellFormed smallVolume_chain hfirst hsize [100, 500] (by decide)

end Rodvin.Kernel.Fat
