/-
  Rodvin.Kernel.FatSeek — the position of a file (`File`, `FatFile::read`, `FatFile::seek`).

  A file keeps its offset twice, as `position` and as a cluster with the bytes that are left
  of it (`Stands`). `read` moves only the cursor, and `seek` walks by the argument and not by
  the position it has computed. So the two stay in step over the runs in which nothing is
  read and every `seek` is to the offset that its argument names (`Lands`); over these
  `seek_law` holds.
-/

import Rodvin.Kernel.FatFileProofs

namespace Rodvin.Kernel.Fat

open Rodvin.Lib

/-! ## `File` -/

/-- A file with the position that the base class keeps. -/
structure File where
  position : Nat
  file : FatFile

inductive SeekPosition where
  | FromStartOfFile
  | FromCurrentPosition
  | FromEndOfFile
  deriving DecidableEq, Repr

/-- `open`. -/
def File.new (fat : FatFilesystem) (ent : DirEntry) : File := ⟨0, openFile fat ent⟩

def File.read (f : File) (amount : Nat) : Checked (Nat × List UInt8 × File) := do
  let (rv, bs, file) ← f.file.read amount
  return (rv, bs, { f with file := file })

/-- A 64-bit number as an `int64_t`. -/
def int64 (n : Int) : Int := n.bmod (2 ^ 64)

/-- `newPosition` after the `switch`: `position` and `size` are unsigned. -/
def newPosition (f : File) (deltaPosition : Int) : SeekPosition → Int
  | .FromStartOfFile => deltaPosition
  | .FromCurrentPosition => int64 (f.position + deltaPosition)
  | .FromEndOfFile => int64 (f.file.size - deltaPosition)

/-- The loop of `seek`. A turn takes a cluster off `deltaPosition`, so as many turns are enough for a
    loop that ends. -/
def seekLoop (fat : FatFilesystem) : Nat → Nat → Int → Checked (Nat × Int)
  | fuel, currentCluster, deltaPosition =>
    if (u32 (fat.sect_per_clus * 512) : Int) < deltaPosition then
      match fuel with
      | 0 => .error .noReturn
      | fuel + 1 => do
        let next ← nextCluster fat currentCluster
        seekLoop fat fuel next (deltaPosition - u32 (fat.sect_per_clus * 512))
    else pure (currentCluster, deltaPosition)

/-- The comparisons behind the `switch`. -/
def clamp (size newPosition : Int) : Int :=
  let newPosition := if size < newPosition then size else newPosition
  if newPosition < 0 then 0 else newPosition

/-- The position it returns, and the file afterwards. -/
def File.seek (f : File) (delta : Int64) (location : SeekPosition) : Checked (Nat × File) := do
  let position := (clamp (int64 f.file.size) (newPosition f delta.toInt location)).toNat
  let (cluster, left) ← seekLoop f.file.fat delta.toInt.toNat f.file.firstCluster delta.toInt
  let bytesLeft := ((u32 (f.file.fat.sect_per_clus * 512) - left) % 2 ^ 32).toNat
  return (position, ⟨position, { f.file with currentCluster := cluster, bytesLeftInCurrentCluster := bytesLeft }⟩)

/-! ## Offsets -/

/-- The clusters of a file; an empty one has a number for its first cluster and none there. -/
inductive IsFile (disk : Disk) (size : Nat) : List Nat → Prop
  | empty (c : Nat) : size = 0 → IsFile disk size [c]
  | chain {cs : List Nat} : IsChain disk cs → size ≤ cs.length * clusterSize disk → IsFile disk size cs

/-- The offset that the cursor designates: behind `k` clusters and the part of the next that is
    not left. -/
def Stands (disk : Disk) (cs : List Nat) (f : FatFile) (off : Nat) : Prop :=
  ∃ k, cs[k]? = some f.currentCluster ∧ f.bytesLeftInCurrentCluster ≤ clusterSize disk ∧
    off + f.bytesLeftInCurrentCluster = (k + 1) * clusterSize disk

/-- The position is the offset of the cursor, and the bytes there are read next. -/
structure InStep (disk : Disk) (cs : List Nat) (size : Nat) (f : File) : Prop where
  stands : Stands disk cs f.file f.position
  reads : ∀ n, f.position + n ≤ size →
    ∃ g, f.read n = .ok (n, (((content disk cs).take size).drop f.position).take n, g)

/-- Base and delta, or size and delta. -/
def wanted (size position : Nat) (delta : Int64) : SeekPosition → Int
  | .FromStartOfFile => delta.toInt
  | .FromCurrentPosition => position + delta.toInt
  | .FromEndOfFile => size - delta.toInt

/-- The position that `seek` shall return. -/
def target (size position : Nat) (delta : Int64) (location : SeekPosition) : Nat :=
  (max 0 (min (size : Int) (wanted size position delta location))).toNat

/-! ## Runs -/

inductive Op where
  | read (amount : Nat)
  | seek (delta : Int64) (location : SeekPosition)

def Op.run (f : File) : Op → Checked (Nat × File)
  | .read amount => do
    let (rv, _, f) ← f.read amount
    return (rv, f)
  | .seek delta location => f.seek delta location

def runOps : File → List Op → Checked (List Nat × File)
  | f, [] => pure ([], f)
  | f, op :: ops => do
    let (rv, f) ← op.run f
    let (rvs, f) ← runOps f ops
    return (rv :: rvs, f)

/-- The position after an operation, and what it returns. -/
def Op.after (size position : Nat) : Op → Nat
  | .read amount => position + amount
  | .seek delta location => target size position delta location

def Op.returns (size position : Nat) : Op → Nat
  | .read amount => amount
  | .seek delta location => target size position delta location

def returnsAll (size : Nat) : Nat → List Op → List Nat
  | _, [] => []
  | position, op :: ops => op.returns size position :: returnsAll size (op.after size position) ops

def afterAll (size position : Nat) (ops : List Op) : Nat := ops.foldl (Op.after size) position

/-- Nothing is read. `seek` computes no sum outside `int64_t`, and is to the offset that is its
    argument; a negative argument makes that offset of what is left of `clusterBytes` bytes, in
    32 bits. -/
def Op.Lands (clusterBytes size position : Nat) : Op → Prop
  | .read amount => amount = 0
  | .seek delta location =>
    (size = 0 ∨ wanted size position delta location < 2 ^ 63) ∧
      if 0 ≤ delta.toInt then delta.toInt = target size position delta location
      else (clusterBytes - delta.toInt) % 2 ^ 32 + target size position delta location = clusterBytes

def AllLand (clusterBytes size : Nat) : Nat → List Op → Prop
  | _, [] => True
  | position, op :: ops =>
    op.Lands clusterBytes size position ∧ AllLand clusterBytes size (op.after size position) ops

/-! ## The position -/

variable {disk : Disk} {cs : List Nat} {f : File} {g : FatFile} {size position off amount c k : Nat} {delta : Int64}
  {location : SeekPosition}

theorem int64_eq {n : Int} (h1 : -2 ^ 63 ≤ n) (h2 : n < 2 ^ 63) : int64 n = n := Int.bmod_eq_of_le (by omega) (by omega)

/-- From `2 ^ 63` on a sum is negative. -/
theorem int64_of_le {n : Int} (h1 : 2 ^ 63 ≤ n) (h2 : n < 2 ^ 64) : int64 n = n - 2 ^ 64 := by
  unfold int64
  rw [← Int.sub_bmod_right]
  exact Int.bmod_eq_of_le (by omega) (by omega)

theorem newPosition_eq (f : File) (delta : Int64) (location : SeekPosition) :
    newPosition f delta.toInt location = int64 (wanted f.file.size f.position delta location) := by
  cases location with
  | FromStartOfFile => exact (int64_eq delta.le_toInt delta.toInt_lt).symm
  | FromCurrentPosition => rfl
  | FromEndOfFile => rfl

theorem clamp_eq {n m : Int} (hn : 0 ≤ n) : clamp n m = max 0 (min n m) := by
  unfold clamp
  by_cases h : n < m
  · simp only [if_pos h]
    rw [if_neg (by omega)]
    omega
  · simp only [if_neg h]
    split
    · omega
    · omega

/-- The position that `seek` computes, where no sum wraps or the file is empty. -/
theorem clamp_newPosition (hsize : f.file.size < 2 ^ 32) (hpos : f.position ≤ f.file.size)
    (hr : f.file.size = 0 ∨ wanted f.file.size f.position delta location < 2 ^ 63) :
    (clamp (int64 f.file.size) (newPosition f delta.toInt location)).toNat =
      target f.file.size f.position delta location := by
  have hlo := delta.le_toInt
  have hhi := delta.toInt_lt
  have hs : int64 f.file.size = f.file.size := int64_eq (by omega) (by omega)
  have hw : -2 ^ 63 ≤ wanted f.file.size f.position delta location ∧
      wanted f.file.size f.position delta location < 2 ^ 64 := by
    cases location with
    | FromStartOfFile => exact ⟨hlo, Int.lt_trans hhi (by decide)⟩
    | FromCurrentPosition =>
      simp only [wanted]
      omega
    | FromEndOfFile =>
      simp only [wanted]
      omega
  rw [newPosition_eq, hs, clamp_eq (Int.natCast_nonneg _)]
  unfold target
  by_cases hin : wanted f.file.size f.position delta location < 2 ^ 63
  · rw [int64_eq hw.1 hin]
  · have hzero : f.file.size = 0 := hr.resolve_right hin
    rw [int64_of_le (by omega) hw.2, hzero]
    omega

theorem target_le (size position : Nat) (delta : Int64) (location : SeekPosition) :
    target size position delta location ≤ size := by
  unfold target
  omega

/-! ## The cursor -/

theorem IsFile.size_le (h : IsFile disk size cs) : size ≤ cs.length * clusterSize disk := by
  cases h with
  | empty c hs =>
    rw [hs]
    exact Nat.zero_le _
  | chain _ hs => exact hs

/-- Walking `d` bytes on from the cluster `k` of a chain. -/
theorem seekLoop_spec (h : WellFormed disk) (hc : IsChain disk cs) : ∀ {fuel k c d : Nat}, cs[k]? = some c → d ≤ fuel →
    k * clusterSize disk + d ≤ cs.length * clusterSize disk →
    ∃ k' c' d' : Nat, seekLoop (FatFilesystem.new disk) fuel c d = .ok (c', (d' : Int)) ∧ cs[k']? = some c' ∧
      d' ≤ clusterSize disk ∧ k' * clusterSize disk + d' = k * clusterSize disk + d := by
  have hS := clusterSize_pos h
  intro fuel
  induction fuel with
  | zero =>
    intro k c d hk hd _
    refine ⟨k, c, d, ?_, hk, by omega, rfl⟩
    unfold seekLoop
    rw [u32_clusterSize h, if_neg (by omega)]
    rfl
  | succ fuel ih =>
    intro k c d hk hd hle
    by_cases hlt : clusterSize disk < d
    · have hv := hc.valid c (List.mem_of_getElem? hk)
      have hnext := nextCluster_eq h hv
      have hsucc : (k + 1) * clusterSize disk + (d - clusterSize disk) = k * clusterSize disk + d := by
        rw [Nat.succ_mul]
        omega
      -- the chain goes on, or the walk would end behind it
      have hk' : cs[k + 1]? = some (fatEntry disk c) := by
        refine (hc.next hk).resolve_right fun hend => ?_
        rw [← hend.1, Nat.succ_mul] at hle
        omega
      obtain ⟨k', c', d', h1, h2, h3, h4⟩ := ih hk' (d := d - clusterSize disk) (by omega) (by rw [hsucc]; exact hle)
      refine ⟨k', c', d', ?_, h2, h3, by rw [h4, hsucc]⟩
      unfold seekLoop
      rw [u32_clusterSize h, if_pos (by omega)]
      simp only [ok_bind hnext]
      rw [show (d : Int) - (clusterSize disk : Nat) = ((d - clusterSize disk : Nat) : Int) by omega]
      exact h1
    · refine ⟨k, c, d, ?_, hk, Nat.not_lt.mp hlt, rfl⟩
      unfold seekLoop
      rw [u32_clusterSize h, if_neg (by omega)]
      rfl

/-- Where no cluster has to be taken off nothing is read. -/
theorem seekLoop_stay (h : WellFormed disk) {d : Int} (hd : d ≤ clusterSize disk) (fuel c : Nat) :
    seekLoop (FatFilesystem.new disk) fuel c d = .ok (c, d) := by
  unfold seekLoop
  rw [u32_clusterSize h, if_neg (by omega)]
  rfl

/-- A cursor inside a cluster is one of `At`. -/
theorem Stands.at (h : WellFormed disk) (hs : Stands disk cs g off) (hfat : g.fat = FatFilesystem.new disk)
    (hleft : 0 < g.bytesLeftInCurrentCluster) : At disk cs g off := by
  obtain ⟨k, hk, hle, hoff⟩ := hs
  have hS := clusterSize_pos h
  have hlen := (List.getElem?_eq_some_iff.mp hk).1
  have hdecomp : off = (clusterSize disk - g.bytesLeftInCurrentCluster) + clusterSize disk * k := by
    rw [Nat.succ_mul, Nat.mul_comm] at hoff
    omega
  have hin : clusterSize disk - g.bytesLeftInCurrentCluster < clusterSize disk := by omega
  refine ⟨hfat, ?_, fun _ => ⟨?_, ?_⟩⟩
  · have : (k + 1) * clusterSize disk ≤ cs.length * clusterSize disk := Nat.mul_le_mul_right _ hlen
    omega
  · rw [hdecomp, Nat.add_mul_div_left _ _ hS, Nat.div_eq_of_lt hin, Nat.zero_add]
    exact hk
  · rw [hdecomp, Nat.add_mul_mod_self_left, Nat.mod_eq_of_lt hin]
    omega

/-- From a cursor behind its cluster the first turn of `read` goes to the next and copies
    nothing. -/
theorem Stands.readSome (amount : Nat) (h : WellFormed disk) (hc : IsChain disk cs) (hs : Stands disk cs g off)
    (hfat : g.fat = FatFilesystem.new disk) (hleft : g.bytesLeftInCurrentCluster = 0) :
    ∃ g', Fat.readSome g amount = .ok ([], g') ∧ (off < cs.length * clusterSize disk → At disk cs g' off) := by
  obtain ⟨k, hk, -, hoff⟩ := hs
  have hS := clusterSize_pos h
  have hv := hc.valid _ (List.mem_of_getElem? hk)
  have hread : readCluster g.fat g.currentCluster = cluster disk g.currentCluster := hfat ▸ readCluster_eq h hv
  have hnext : nextCluster g.fat g.currentCluster = .ok (fatEntry disk g.currentCluster) := hfat ▸ nextCluster_eq h hv
  have hspc : u32 (g.fat.sect_per_clus * 512) = clusterSize disk := hfat ▸ u32_clusterSize h
  have hb : bytesAt (cluster disk g.currentCluster) (clusterSize disk) 0 = .ok [] := by
    unfold bytesAt
    rw [length_cluster, if_pos (by omega), List.take_zero]
  rw [hleft, Nat.add_zero] at hoff
  refine ⟨{ g with currentCluster := fatEntry disk g.currentCluster, bytesLeftInCurrentCluster := clusterSize disk }, ?_, ?_⟩
  · unfold Fat.readSome
    simp only [hread, hleft, length_cluster, Nat.min_zero, Nat.sub_zero, Nat.not_lt_zero, if_false, ok_bind hb, if_true,
      ok_bind hnext, hspc]
    rfl
  · intro hlt
    refine ⟨hfat, Nat.le_of_lt hlt, fun _ => ⟨?_, ?_⟩⟩
    · rw [hoff, Nat.mul_div_cancel _ hS]
      refine (hc.next hk).resolve_right fun hend => ?_
      rw [hoff, hend.1] at hlt
      exact Nat.lt_irrefl _ hlt
    · rw [hoff, Nat.mul_mod_left, Nat.sub_zero]

theorem FatFile.read_zero (g : FatFile) : g.read 0 = .ok (0, [], g) := rfl

/-- Reading inside the file from where the cursor stands. -/
theorem Stands.read (h : WellFormed disk) (hfile : IsFile disk size cs) (hs : Stands disk cs g off)
    (hfat : g.fat = FatFilesystem.new disk) (hle : off + amount ≤ size) :
    ∃ g', g.read amount = .ok (amount, ((content disk cs).drop off).take amount, g') := by
  by_cases ha : amount = 0
  · subst ha
    exact ⟨g, by rw [List.take_zero, FatFile.read_zero]⟩
  · cases hfile with
    | empty c hz => exact absurd hle (by omega)
    | chain hc hsize =>
      by_cases hleft : g.bytesLeftInCurrentCluster = 0
      · obtain ⟨g1, h1, h2⟩ := hs.readSome amount h hc hfat hleft
        obtain ⟨g2, h3, -⟩ := readLoop_spec h hc (h2 (by omega)) (Nat.le_refl amount) (by omega)
        refine ⟨g2, ?_⟩
        unfold FatFile.read readLoop
        simp only [if_neg ha, ok_bind h1, List.length_nil, Nat.sub_zero, ok_bind h3, List.nil_append]
        rfl
      · obtain ⟨g', h1, -⟩ := read_spec h hc (hs.at h hfat (Nat.pos_of_ne_zero hleft)) (Nat.le_trans hle (by omega))
        exact ⟨g', h1⟩

/-! ## Runs in step -/

/-- What the runs keep. -/
structure Kept (disk : Disk) (cs : List Nat) (size : Nat) (f : File) : Prop where
  fat : f.file.fat = FatFilesystem.new disk
  first : cs.head? = some f.file.firstCluster
  size_eq : f.file.size = size
  le : f.position ≤ size
  stands : Stands disk cs f.file f.position

theorem Kept.inStep (h : WellFormed disk) (hfile : IsFile disk size cs) (hk : Kept disk cs size f) :
    InStep disk cs size f := by
  refine ⟨hk.stands, fun n hn => ?_⟩
  obtain ⟨g, hg⟩ := hk.stands.read h hfile hk.fat hn
  have hcut : (((content disk cs).take size).drop f.position).take n = ((content disk cs).drop f.position).take n := by
    rw [List.drop_take, List.take_take, Nat.min_eq_left (by omega)]
  refine ⟨⟨f.position, g⟩, ?_⟩
  unfold File.read
  rw [ok_bind hg, hcut]
  rfl

/-- The cursor that `seek` leaves, when it is to the offset of its argument. -/
theorem seekLoop_stands (h : WellFormed disk) (hfile : IsFile disk size cs) (hc : cs.head? = some c) {t : Nat}
    (ht : t ≤ size)
    (hl : if 0 ≤ delta.toInt then delta.toInt = t
      else (clusterSize disk - delta.toInt) % 2 ^ 32 + t = clusterSize disk) :
    ∃ c' left, seekLoop (FatFilesystem.new disk) delta.toInt.toNat c delta.toInt = .ok (c', left) ∧
      ∃ k, cs[k]? = some c' ∧ ((clusterSize disk - left) % 2 ^ 32).toNat ≤ clusterSize disk ∧
        t + ((clusterSize disk - left) % 2 ^ 32).toNat = (k + 1) * clusterSize disk := by
  have hzero : cs[0]? = some c := by rw [← List.head?_eq_getElem?, hc]
  have hS : clusterSize disk < 2 ^ 32 := by
    have hlt : clusterSectors disk < 256 ^ 1 := field_lt
    unfold clusterSize
    omega
  by_cases hneg : 0 ≤ delta.toInt
  · rw [if_pos hneg] at hl
    rw [hl, Int.toNat_natCast]
    have hsize := hfile.size_le
    have hwalk : ∃ k' c' d' : Nat, seekLoop (FatFilesystem.new disk) t c t = .ok (c', (d' : Int)) ∧ cs[k']? = some c' ∧
        d' ≤ clusterSize disk ∧ k' * clusterSize disk + d' = t := by
      cases hfile with
      | empty c0 hs =>
        have ht0 : t = 0 := by omega
        exact ⟨0, c, 0, by rw [ht0]; exact seekLoop_stay h (by omega) 0 c, hzero, Nat.zero_le _,
          by rw [ht0, Nat.zero_mul]⟩
      | chain hch _ =>
        obtain ⟨k', c', d', h1, h2, h3, h4⟩ := seekLoop_spec h hch hzero (Nat.le_refl t) (by omega)
        exact ⟨k', c', d', h1, h2, h3, by rw [h4, Nat.zero_mul, Nat.zero_add]⟩
    obtain ⟨k', c', d', h1, h2, h3, h4⟩ := hwalk
    refine ⟨c', d', h1, k', h2, ?_, ?_⟩
    · omega
    · rw [← h4, Nat.succ_mul]
      omega
  · rw [if_neg hneg] at hl
    refine ⟨c, delta.toInt, seekLoop_stay h (by omega) _ c, 0, hzero, by omega, ?_⟩
    rw [Nat.zero_add, Nat.one_mul]
    omega

theorem Op.run_spec {op : Op} (h : WellFormed disk) (hfile : IsFile disk size cs) (h32 : size < 2 ^ 32)
    (hk : Kept disk cs size f) (hl : op.Lands (clusterSize disk) size f.position) :
    ∃ f', op.run f = .ok (op.returns size f.position, f') ∧ Kept disk cs size f' ∧
      f'.position = op.after size f.position := by
  cases op with
  | read amount =>
    obtain rfl : amount = 0 := hl
    exact ⟨f, rfl, hk, rfl⟩
  | seek delta location =>
    obtain ⟨hin, hland⟩ := hl
    have hpos : f.position ≤ f.file.size := hk.size_eq ▸ hk.le
    have htarget := clamp_newPosition (hk.size_eq ▸ h32) hpos (hk.size_eq ▸ hin)
    rw [hk.size_eq] at htarget
    obtain ⟨c', left, h1, hstands⟩ := seekLoop_stands h hfile hk.first (target_le size f.position delta location) hland
    refine ⟨⟨target size f.position delta location, { f.file with
      currentCluster := c', bytesLeftInCurrentCluster := ((clusterSize disk - left) % 2 ^ 32).toNat }⟩, ?_, ?_, rfl⟩
    · show File.seek f delta location = _
      unfold File.seek
      rw [hk.fat, u32_clusterSize h, ok_bind h1, hk.size_eq, htarget]
      rfl
    · exact ⟨hk.fat, hk.first, hk.size_eq, target_le .., hstands⟩

theorem runOps_spec {ops : List Op} (h : WellFormed disk) (hfile : IsFile disk size cs) (h32 : size < 2 ^ 32)
    (hk : Kept disk cs size f) (hl : AllLand (clusterSize disk) size f.position ops) :
    ∃ f', runOps f ops = .ok (returnsAll size f.position ops, f') ∧ Kept disk cs size f' ∧
      f'.position = afterAll size f.position ops := by
  induction ops generalizing f with
  | nil => exact ⟨f, rfl, hk, rfl⟩
  | cons op ops ih =>
    obtain ⟨hop, hops⟩ := hl
    obtain ⟨f1, h1, hk1, hp1⟩ := Op.run_spec h hfile h32 hk hop
    rw [← hp1] at hops
    obtain ⟨f2, h2, hk2, hp2⟩ := ih hk1 hops
    refine ⟨f2, ?_, hk2, by rw [hp2, hp1]; rfl⟩
    unfold runOps returnsAll
    simp only [ok_bind h1, ok_bind h2, hp1]
    rfl

theorem openFile_size (fat : FatFilesystem) (ent : DirEntry) : (openFile fat ent).size = ent.size := rfl

theorem File.new_kept {ent : DirEntry} (h : WellFormed disk) (hfirst : cs.head? = some ent.inodeId)
    (hi : ent.inodeId < 2 ^ 32) : Kept disk cs ent.size (File.new (FatFilesystem.new disk) ent) := by
  have hc : u32 ent.inodeId = ent.inodeId := Nat.mod_eq_of_lt hi
  have hcluster : (File.new (FatFilesystem.new disk) ent).file.firstCluster = u32 ent.inodeId := rfl
  have hcurrent : (File.new (FatFilesystem.new disk) ent).file.currentCluster = u32 ent.inodeId := rfl
  have hleft : (File.new (FatFilesystem.new disk) ent).file.bytesLeftInCurrentCluster = clusterSize disk :=
    u32_clusterSize h
  refine ⟨openFile_fat .., by rw [hcluster, hc, hfirst], openFile_size .., Nat.zero_le _, 0, ?_, Nat.le_of_eq hleft, ?_⟩
  · rw [hcurrent, hc, ← List.head?_eq_getElem?, hfirst]
  · rw [hleft]
    show 0 + _ = _
    omega

/-- Over every sequence of reads and seeks that land, `seek` returns the clamped sum or difference,
    the position is the offset that the cursor designates, and what is read next are the bytes
    of the file from there. -/
theorem seek_law {ent : DirEntry} (h : WellFormed disk) (hfile : IsFile disk ent.size cs)
    (hfirst : cs.head? = some ent.inodeId)
    (hi : ent.inodeId < 2 ^ 32) (h32 : ent.size < 2 ^ 32) (ops : List Op)
    (hl : AllLand (clusterSize disk) ent.size 0 ops) :
    ∃ f, runOps (File.new (FatFilesystem.new disk) ent) ops = .ok (returnsAll ent.size 0 ops, f) ∧
      f.position = afterAll ent.size 0 ops ∧ InStep disk cs ent.size f := by
  obtain ⟨f, h1, hk, hp⟩ := runOps_spec h hfile h32 (File.new_kept h hfirst hi) hl
  exact ⟨f, h1, hp, hk.inStep h hfile⟩

/-- To the middle of the second cluster, and to the end. -/
theorem seek_law_small : ∃ f, runOps (File.new (FatFilesystem.new smallVolume) smallFile)
      [.seek 550 .FromStartOfFile, .seek 600 .FromCurrentPosition] =
        .ok (returnsAll 600 0 [.seek 550 .FromStartOfFile, .seek 600 .FromCurrentPosition], f) ∧
      f.position = afterAll 600 0 [.seek 550 .FromStartOfFile, .seek 600 .FromCurrentPosition] ∧
      InStep smallVolume [2, 3] 600 f := by
  have hfile : IsFile smallVolume smallFile.size [2, 3] := .chain smallVolume_chain (by decide +kernel)
  have hl : AllLand (clusterSize smallVolume) smallFile.size 0
      [.seek 550 .FromStartOfFile, .seek 600 .FromCurrentPosition] := by
    refine ⟨⟨.inr ?_, ?_⟩, ⟨.inr ?_, ?_⟩, trivial⟩
    · decide +kernel
    · decide +kernel
    · decide +kernel
    · decide +kernel
  exact seek_law smallVolume_wellFormed hfile rfl (by decide) (by decide) _ hl

/-- A cursor in cluster 2 is in the first 512 bytes. -/
theorem not_stands_small {g : FatFile} (hc : g.currentCluster = 2) (ho : off + g.bytesLeftInCurrentCluster ≠ 512) :
    ¬ Stands smallVolume [2, 3] g off := by
  rintro ⟨k, hk, -, he⟩
  rw [hc] at hk
  have hS : clusterSize smallVolume = 512 := by decide +kernel
  have hzero : k = 0 := by
    cases k with
    | zero => rfl
    | succ k =>
      cases k with
      | zero => exact absurd (Option.some.inj hk) (by decide)
      | succ k => exact absurd hk (by simp)
  exact ho (by rw [he, hzero, hS])

/-- The position stays at 0 when 100 bytes are read, and the cursor there when `seek` goes to the end. -/
theorem position_and_cursor_part :
    (∃ f, runOps (File.new (FatFilesystem.new smallVolume) smallFile) [.read 100] = .ok ([100], f) ∧
      f.position = 0 ∧ ¬ Stands smallVolume [2, 3] f.file f.position) ∧
    ∃ f, runOps (File.new (FatFilesystem.new smallVolume) smallFile) [.seek 0 .FromEndOfFile] = .ok ([600], f) ∧
      f.position = 600 ∧ ¬ Stands smallVolume [2, 3] f.file f.position := by
  have seen (ops : List Op) (rvs : List Nat) (position left : Nat)
      (h : (runOps (File.new (FatFilesystem.new smallVolume) smallFile) ops).toOption.map (fun r =>
        (r.1, r.2.position, r.2.file.currentCluster, r.2.file.bytesLeftInCurrentCluster)) = some (rvs, position, 2, left))
      (ho : position + left ≠ 512) :
      ∃ f, runOps (File.new (FatFilesystem.new smallVolume) smallFile) ops = .ok (rvs, f) ∧ f.position = position ∧
        ¬ Stands smallVolume [2, 3] f.file f.position := by
    cases hr : runOps (File.new (FatFilesystem.new smallVolume) smallFile) ops with
    | error e => simp [hr, Except.toOption] at h
    | ok r =>
      rw [hr] at h
      have h : (r.1, r.2.position, r.2.file.currentCluster, r.2.file.bytesLeftInCurrentCluster) = (rvs, position, 2, left) :=
        Option.some.inj h
      simp only [Prod.mk.injEq] at h
      obtain ⟨h1, h2, h3, h4⟩ := h
      exact ⟨r.2, by rw [← h1], h2, not_stands_small h3 (by rw [h2, h4]; exact ho)⟩
  exact ⟨seen [.read 100] [100] 0 412 (by decide +kernel) (by decide),
    seen [.seek 0 .FromEndOfFile] [600] 600 512 (by decide +kernel) (by decide)⟩

end Rodvin.Kernel.Fat
