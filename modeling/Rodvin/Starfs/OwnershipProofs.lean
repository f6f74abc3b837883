/-
  Rodvin.Starfs.OwnershipProofs — what `writeinode` does to the blocks of a volume.

  `Inv` says that all blocks are owned and that the inode table and the free extent are
  where they belong. Then clear blocks miss the table (`Inv.outside`), blocks from the front
  of the free extent are clear (`Inv.take`), and `writeinode` keeps `Inv` when it meets
  `WriteOk` (`writeinode_written`), unless it found no blocks; that is not forgotten
  (`Sticky`).
-/

import Rodvin.Starfs.FileProofs
import Rodvin.Starfs.MkfsProofs
import Rodvin.Starfs.Ownership

namespace Rodvin.Starfs.Ownership

open Rodvin.Lib

variable {blocks n k a l : Nat} {s t u : Fs} {i : Inode}

/-! ## Extents -/

/-- The blocks of `e` are blocks of `e'`. -/
structure Sub (e e' : Extent) : Prop where
  start : e'.startblock ≤ e.startblock
  stop : e.startblock + e.length ≤ e'.startblock + e'.length

theorem Sub.refl (e : Extent) : Sub e e := ⟨le_refl _, le_refl _⟩

theorem Sub.of_eq {e e' : Extent} (h : e = e') : Sub e e' := h ▸ .refl e

/-- Where the inodes in use other than `n` have no blocks that they had not. -/
def Lessens (s t : Fs) (n : Nat) : Prop := ∀ k, Used t k → k ≠ n → Used s k ∧ Sub (t.ino k).ext (s.ino k).ext

theorem Sub.holds {b : Nat} (h : Sub (t.ino k).ext (s.ino k).ext) (hb : Holds t k b) : Holds s k b :=
  ⟨le_trans h.start hb.1, lt_of_lt_of_le hb.2 h.stop⟩

theorem Clear.of_lessens (h : Clear blocks s n a l) (hl : Lessens s t n) : Clear blocks t n a l := by
  refine ⟨h.inside, fun k hk hne b h1 h2 hb => ?_⟩
  obtain ⟨hs, hsub⟩ := hl k hk hne
  exact h.apart k hs hne b h1 h2 (hsub.holds hb)

/-- Part of what is clear is clear. -/
theorem Clear.mono {a' l' : Nat} (h : Clear blocks s n a l) (ha : a ≤ a') (hl : a' + l' ≤ a + l) :
    Clear blocks s n a' l' :=
  ⟨le_trans hl h.inside, fun k hk hne b h1 h2 => h.apart k hk hne b (le_trans ha h1) (lt_of_lt_of_le h2 hl)⟩

/-- In use or not, inode `n` has its blocks for itself. -/
def Settled (blocks : Nat) (s : Fs) (n : Nat) (e : Extent) : Prop :=
  e.startblock ≠ INVALID_BLOCK → Clear blocks s n e.startblock e.length

theorem Owned.clear (h : Owned blocks s) (hn : Used s n) :
    Clear blocks s n (s.ino n).ext.startblock (s.ino n).ext.length :=
  ⟨h.inside n hn, fun k hk hne b h1 h2 => h.disjoint n k hn hk (Ne.symm hne) b ⟨h1, h2⟩⟩

/-- One inode gets other blocks, the others keep theirs or have less. -/
theorem Owned.of_lessens (h : Owned blocks s) (hl : Lessens s t n)
    (hn : Used t n → Clear blocks t n (t.ino n).ext.startblock (t.ino n).ext.length) : Owned blocks t := by
  refine ⟨fun j k hj hk hne b hb hb' => ?_, fun j hj => ?_⟩
  · by_cases hjn : j = n
    · subst hjn
      exact (hn hj).apart k hk (Ne.symm hne) b hb.1 hb.2 hb'
    · by_cases hkn : k = n
      · subst hkn
        exact (hn hk).apart j hj hjn b hb'.1 hb'.2 hb
      · obtain ⟨hsj, hj'⟩ := hl j hj hjn
        obtain ⟨hsk, hk'⟩ := hl k hk hkn
        exact h.disjoint j k hsj hsk hne b (hj'.holds hb) (hk'.holds hb')
  · by_cases hjn : j = n
    · subst hjn
      exact (hn hj).inside
    · obtain ⟨hs, hsub⟩ := hl j hj hjn
      exact le_trans hsub.stop (h.inside j hs)

/-! ## The same inode table -/

structure SameTable (s t : Fs) : Prop where
  maplen : t.maplen = s.maplen
  exhausted : t.exhausted = s.exhausted
  ino : ∀ k, s.Mapped k → t.ino k = s.ino k

namespace SameTable

theorem mapped (h : SameTable s t) : t.Mapped k ↔ s.Mapped k := by
  unfold Fs.Mapped
  rw [h.maplen]

theorem tableEnd (h : SameTable s t) : t.tableEnd = s.tableEnd := by
  unfold Fs.tableEnd
  rw [h.maplen]

end SameTable

theorem sameTable_of_quiet (h : Quiet s t) : SameTable s t := ⟨h.maplen, h.exhausted, fun k _ => h.ino k⟩

/-! ## The invariant -/

/-- The inode table and the free extent are where they belong, and all blocks are owned. -/
structure Inv (blocks : Nat) (s : Fs) : Prop where
  owned : Owned blocks s
  small : blocks < 2 ^ 51
  mapped : ∀ n < (s.ino 2).filesize / 32, s.Mapped n
  table : Used s 2
  tableFlags : (s.ino 2).flags = INO_SYSTEM ||| INO_READONLY
  covered : (s.ino 2).ext.startblock = 9 ∧ s.tableEnd ≤ 4096 * (9 + (s.ino 2).ext.length)
  free : Used s 4
  freeFlags : (s.ino 4).flags = INO_SYSTEM ||| INO_READONLY
  behind : s.tableEnd ≤ 4096 * (s.ino 4).ext.startblock

namespace Inv

theorem mapped_two (h : Inv blocks s) : s.Mapped 2 := h.mapped 2 h.table.lt

theorem mapped_four (h : Inv blocks s) : s.Mapped 4 := h.mapped 4 h.free.lt

theorem direct (h : Inv blocks s) : (s.ino 4).Direct := by
  unfold Inode.Direct
  rw [h.freeFlags]
  decide

theorem used_congr (h : Inv blocks s) (hs : SameTable s t) : Used t k ↔ Used s k := by
  have h2 := hs.ino 2 h.mapped_two
  constructor
  · intro hk
    have hlt : k < (s.ino 2).filesize / 32 := h2 ▸ hk.lt
    have hino := hs.ino k (h.mapped k hlt)
    exact ⟨hlt, hino ▸ hk.linked, hino ▸ hk.placed⟩
  · intro hk
    have hino := hs.ino k (h.mapped k hk.lt)
    exact ⟨h2.symm ▸ hk.lt, hino.symm ▸ hk.linked, hino.symm ▸ hk.placed⟩

theorem lessens (h : Inv blocks s) (hs : SameTable s t) (n : Nat) : Lessens s t n := by
  intro k hk _
  have hk' := (h.used_congr hs).mp hk
  exact ⟨hk', .of_eq (congrArg Inode.ext (hs.ino k (h.mapped k hk'.lt)))⟩

theorem same (h : Inv blocks s) (hs : SameTable s t) : Inv blocks t := by
  have h2 := hs.ino 2 h.mapped_two
  have h4 := hs.ino 4 h.mapped_four
  refine ⟨h.owned.of_lessens (h.lessens hs 0) fun hn => ?_, h.small, fun n hn => ?_, (h.used_congr hs).mpr h.table, ?_, ?_,
    (h.used_congr hs).mpr h.free, ?_, ?_⟩
  · have hn' := (h.used_congr hs).mp hn
    rw [hs.ino 0 (h.mapped 0 hn'.lt)]
    exact (h.owned.clear hn').of_lessens (h.lessens hs 0)
  · rw [h2] at hn
    exact hs.mapped.mpr (h.mapped n hn)
  · rw [h2]
    exact h.tableFlags
  · rw [h2, hs.tableEnd]
    exact h.covered
  · rw [h4]
    exact h.freeFlags
  · rw [h4, hs.tableEnd]
    exact h.behind

/-- Clear blocks, other than the table's own, lie behind the table or before it. -/
theorem outside {size : Nat} (h : Inv blocks s) (hc : Clear blocks s n a l) (hn : n ≠ 2) (hl : 0 < l)
    (hs : size ≤ 4096 * l) : 4096 * a + size ≤ 0x9000 ∨ s.tableEnd ≤ 4096 * a := by
  obtain ⟨hstart, hend⟩ := h.covered
  have hlt : inodeAddr 2 + 32 ≤ s.tableEnd := h.mapped_two.addr_le
  have haddr : inodeAddr 2 = 0x9000 + 32 * 2 := rfl
  by_contra hno
  have hheld : Holds s 2 (max a 9) := ⟨by rw [hstart]; omega, by rw [hstart]; omega⟩
  exact hc.apart 2 h.table (Ne.symm hn) (max a 9) (le_max_left ..) (by omega) hheld

/-- The blocks of an inode in use are settled. -/
theorem settled (h : Inv blocks s) (hn : n < (s.ino 2).filesize / 32) (hl : (s.ino n).linkcount ≠ 0) :
    Settled blocks s n (s.ino n).ext := fun hp => h.owned.clear ⟨hn, hl, hp⟩

end Inv

/-! ## Changes of one inode -/

theorem lessens_putIno (hn : n ≠ 2) : Lessens s (s.putIno n i) n := by
  intro k hk hne
  have h2 : (s.putIno n i).ino 2 = s.ino 2 := ino_putIno_of_ne s i (Ne.symm hn)
  have hino : (s.putIno n i).ino k = s.ino k := ino_putIno_of_ne s i hne
  exact ⟨⟨h2 ▸ hk.lt, hino ▸ hk.linked, hino ▸ hk.placed⟩, .of_eq (congrArg Inode.ext hino)⟩

theorem Used.putIno (h : Used s k) (hn : n ≠ 2) (hne : k ≠ n) : Used (s.putIno n i) k := by
  have h2 : (s.putIno n i).ino 2 = s.ino 2 := ino_putIno_of_ne s i (Ne.symm hn)
  have hino : (s.putIno n i).ino k = s.ino k := ino_putIno_of_ne s i hne
  exact ⟨h2.symm ▸ h.lt, hino.symm ▸ h.linked, hino.symm ▸ h.placed⟩

/-- An inode other than the table and the free extent changes; if it is in use then, its blocks
    are settled. -/
theorem Inv.putIno (h : Inv blocks s) (hi : i.Wf) (h2 : n ≠ 2) (h4 : n ≠ 4)
    (hs : n < (s.ino 2).filesize / 32 → i.linkcount ≠ 0 → Settled blocks s n i.ext) : Inv blocks (s.putIno n i) := by
  have hself := ino_putIno_self s n hi
  have htwo : (s.putIno n i).ino 2 = s.ino 2 := ino_putIno_of_ne s i (Ne.symm h2)
  have hfour : (s.putIno n i).ino 4 = s.ino 4 := ino_putIno_of_ne s i (Ne.symm h4)
  refine ⟨h.owned.of_lessens (lessens_putIno h2) fun hn => ?_, h.small, fun k hk => ?_,
    h.table.putIno h2 (Ne.symm h2), ?_, ?_,
    h.free.putIno h2 (Ne.symm h4), ?_, ?_⟩
  · have hlt := hn.lt
    have hlinked := hn.linked
    have hplaced := hn.placed
    rw [htwo] at hlt
    rw [hself] at hlinked hplaced ⊢
    exact (hs hlt hlinked hplaced).of_lessens (lessens_putIno h2)
  · rw [htwo] at hk
    exact h.mapped k hk
  · rw [htwo]
    exact h.tableFlags
  · rw [htwo]
    exact h.covered
  · rw [hfour]
    exact h.freeFlags
  · rw [hfour]
    exact h.behind

theorem Settled.putIno {e : Extent} (h : Settled blocks s n e) (hn : n ≠ 2) : Settled blocks (s.putIno n i) n e :=
  fun hp => (h hp).of_lessens (lessens_putIno hn)

/-- Blocks from the front of the free extent are clear for any other inode. -/
theorem Inv.take (h : Inv blocks s) {c : Nat} (hc : c < (s.ino 4).ext.length) (n : Nat) :
    Inv blocks (s.putIno 4 ((s.ino 4).without c)) ∧
      Clear blocks (s.putIno 4 ((s.ino 4).without c)) n (s.ino 4).ext.startblock c := by
  have hin := h.owned.inside 4 h.free
  have hsmall := h.small
  have hplaced := h.free.placed
  have hbehind := h.behind
  have hwf : ((s.ino 4).without c).Wf := (ino_wf s 4).without (by omega)
  have hself := ino_putIno_self s 4 hwf
  have hother : ∀ k, k ≠ 4 → (s.putIno 4 ((s.ino 4).without c)).ino k = s.ino k := fun k hk => ino_putIno_of_ne s _ hk
  have htwo := hother 2 (by decide)
  have hless : Lessens s (s.putIno 4 ((s.ino 4).without c)) 4 := lessens_putIno (by decide)
  have hclear := h.owned.clear h.free
  have hfree : Used (s.putIno 4 ((s.ino 4).without c)) 4 := by
    refine ⟨htwo.symm ▸ h.free.lt, ?_, ?_⟩
    · rw [hself]
      exact h.free.linked
    · rw [hself]
      show (s.ino 4).ext.startblock + c ≠ 2 ^ 64 - 1
      omega
  refine ⟨⟨h.owned.of_lessens hless fun _ => ?_, hsmall, fun k hk => ?_, h.table.putIno (by decide) (by decide), ?_, ?_,
    hfree, ?_, ?_⟩, ?_, fun k hk hne b h1 h2 => ?_⟩
  · rw [hself]
    refine (hclear.of_lessens hless).mono ?_ ?_
    · show _ ≤ (s.ino 4).ext.startblock + c
      omega
    · show (s.ino 4).ext.startblock + c + ((s.ino 4).ext.length - c) ≤ _
      omega
  · rw [htwo] at hk
    exact h.mapped k hk
  · rw [htwo]
    exact h.tableFlags
  · rw [htwo]
    exact h.covered
  · rw [hself]
    exact h.freeFlags
  · rw [hself]
    show _ ≤ 4096 * ((s.ino 4).ext.startblock + c)
    exact le_trans hbehind (by omega)
  · omega
  · by_cases hk4 : k = 4
    · -- the free extent starts behind the blocks now
      rw [hk4]
      unfold Holds
      rw [hself]
      show ¬ ((s.ino 4).ext.startblock + c ≤ b ∧ _)
      omega
    · obtain ⟨hk', hsub⟩ := hless k hk hk4
      exact fun hb => hclear.apart k hk' hk4 b h1 (by omega) (hsub.holds hb)

/-! ## Storing the content -/

variable {buffer : List UInt8} {b : Bool}

theorem store_cases (h : store n buffer s = .ok (b, t)) :
    ∃ s', Quiet s s' ∧ (shl64 (s.ino n).ext.startblock 12 < 2 ^ 63 → s'.pos = shl64 (s.ino n).ext.startblock 12) ∧
      t = if buffer = [] then s' else { s' with
        disk := splice s'.disk s'.pos buffer
        size := max s'.size (s'.pos + buffer.length)
        pos := s'.pos + buffer.length } := by
  obtain ⟨x, s1, h1, h⟩ := bind_eq_ok.mp h
  obtain ⟨-, rfl, rfl⟩ := inodetab_eq_ok.mp h1
  obtain ⟨⟨⟩, s2, h2, h⟩ := bind_eq_ok.mp h
  obtain ⟨⟨⟩, s3, h3, h⟩ := bind_eq_ok.mp h
  obtain ⟨-, rfl⟩ := pure_eq_ok.mp h
  refine ⟨s2, (isQuiet_lseek _).quiet h2, fun ho => ?_, (Prod.mk.inj (Except.ok.inj h3)).2.symm⟩
  have hs2 : (if shl64 (s.ino n).ext.startblock 12 < 2 ^ 63 then { s with pos := shl64 (s.ino n).ext.startblock 12 } else s) = s2 :=
    (Prod.mk.inj (Except.ok.inj h2)).2
  rw [if_pos ho] at hs2
  rw [← hs2]

theorem store_nil (h : store n [] s = .ok (b, t)) : SameTable s t := by
  obtain ⟨s', hq, -, rfl⟩ := store_cases h
  exact sameTable_of_quiet hq

/-- Bytes that miss the inode table. -/
theorem store_outside (h : store n buffer s = .ok (b, t)) (ho : 4096 * (s.ino n).ext.startblock < 2 ^ 63)
    (hout : 4096 * (s.ino n).ext.startblock + buffer.length ≤ 0x9000 ∨ s.tableEnd ≤ 4096 * (s.ino n).ext.startblock) :
    SameTable s t := by
  obtain ⟨s', hq, hpos, rfl⟩ := store_cases h
  rw [shl64_eq (by omega)] at hpos
  split
  · exact sameTable_of_quiet hq
  · refine ⟨hq.maplen, hq.exhausted, fun k hk => ?_⟩
    have hend := hk.addr_le
    have haddr : inodeAddr k = 0x9000 + 32 * k := rfl
    unfold Fs.ino
    dsimp only
    rw [hpos ho, decode_splice_of_disjoint (by omega), hq.disk]

/-! ## Failed allocations -/

variable {α β : Type}

/-- A failed allocation is not forgotten. -/
structure Sticky (c : Fuse α) : Prop where
  sticky : ∀ {s x t}, c s = .ok (x, t) → s.exhausted = true → t.exhausted = true

theorem Sticky.of_quiet {c : Fuse α} (h : IsQuiet c) : Sticky c := ⟨fun hr hs => (h.quiet hr).exhausted.trans hs⟩

theorem Sticky.bind {c : Fuse α} {d : α → Fuse β} (h : Sticky c) (hd : ∀ x, Sticky (d x)) : Sticky (c >>= d) := by
  refine ⟨fun hb hs => ?_⟩
  obtain ⟨x, t, ht, hu⟩ := bind_eq_ok.mp hb
  exact (hd x).sticky hu (h.sticky ht hs)

theorem Sticky.ite {p : Prop} [Decidable p] {c d : Fuse α} (h : Sticky c) (h' : Sticky d) :
    Sticky (if p then c else d) := by
  split
  · exact h
  · exact h'

theorem Sticky.pure (x : α) : Sticky (Pure.pure x : Fuse α) := .of_quiet (.pure x)

theorem sticky_inodetab (n : Nat) : Sticky (inodetab n) := .of_quiet (isQuiet_inodetab n)

theorem sticky_assign (n : Nat) (f : Inode → Inode) : Sticky (assign n f) := by
  refine ⟨fun h hs => ?_⟩
  obtain ⟨-, rfl⟩ := assign_eq_ok.mp h
  exact hs

theorem sticky_giveUp : Sticky giveUp := by
  refine ⟨fun h _ => ?_⟩
  obtain ⟨-, rfl⟩ := Prod.mk.inj (Except.ok.inj h)
  rfl

theorem sticky_takeFrom (exts : List Extent) (n blockcount : Nat) : Sticky (takeFrom exts n blockcount) := by
  refine .bind ?_ fun _ => .pure _
  unfold setFileExtents
  split
  · exact sticky_assign _ _
  · exact .of_quiet (.halt _)

theorem sticky_allocSpace (blockcount : Nat) : Sticky (allocSpace blockcount) := by
  refine .bind (.of_quiet (isQuiet_readbottomextents 4)) fun exts => ?_
  split
  · exact sticky_takeFrom _ _ _
  · exact .bind sticky_giveUp fun _ => .pure _

theorem sticky_allocAdjacentSpace (location blockcount : Nat) : Sticky (allocAdjacentSpace location blockcount) := by
  refine .bind (.of_quiet (isQuiet_readbottomextents 4)) fun exts => ?_
  split
  · exact .ite (.of_quiet (.halt _)) (sticky_takeFrom _ _ _)
  · exact .pure _

theorem sticky_grow (n size : Nat) : Sticky (grow n size) := by
  refine .bind (sticky_inodetab n) fun i => .ite ?_ ?_
  · exact .bind (sticky_allocAdjacentSpace _ _) fun _ => .ite (sticky_assign _ _)
      (.bind (sticky_allocSpace _) fun _ => sticky_assign _ _)
  · exact .bind (.pure _) fun _ => .ite (sticky_assign _ _) (.bind (sticky_allocSpace _) fun _ => sticky_assign _ _)

theorem sticky_resize (n size : Nat) : Sticky (resize n size) := by
  refine .bind (sticky_inodetab n) fun i => .ite (.ite ?_ ?_) (.ite ?_ ?_)
  · exact .bind (sticky_assign _ _) fun _ => sticky_assign _ _
  · exact sticky_assign _ _
  · exact .bind (sticky_grow _ _) fun _ => sticky_assign _ _
  · exact sticky_assign _ _

theorem sticky_store (n : Nat) (buffer : List UInt8) : Sticky (store n buffer) := by
  refine ⟨fun h hs => ?_⟩
  obtain ⟨s', hq, -, rfl⟩ := store_cases h
  split
  · exact hq.exhausted.trans hs
  · exact hq.exhausted.trans hs

theorem sticky_writeinode (n : Nat) (buffer : List UInt8) : Sticky (writeinode n buffer) :=
  .bind (sticky_inodetab n) fun _ => .ite (.ite (.pure _) (sticky_store _ _))
    (.bind (sticky_resize _ _) fun _ => sticky_store _ _)

/-! ## More blocks, or none -/

/-- The blocks of inode `n` may be others, and those that it takes from the free extent. -/
structure Written (blocks : Nat) (s t : Fs) (n : Nat) : Prop where
  inv : Inv blocks t
  maplen : t.maplen = s.maplen
  exhausted : t.exhausted = s.exhausted
  others : ∀ k, s.Mapped k → k ≠ n → k ≠ 4 → t.ino k = s.ino k
  settled : Settled blocks s n (s.ino n).ext → Settled blocks t n (t.ino n).ext

theorem Settled.same {e : Extent} (h : Settled blocks s n e) (hi : Inv blocks s) (hs : SameTable s t) :
    Settled blocks t n e :=
  fun hp => (h hp).of_lessens (hi.lessens hs n)

theorem Written.same (h : Written blocks s t n) (hm : s.Mapped n) (hs : SameTable t u) : Written blocks s u n := by
  have hmapped : ∀ k, s.Mapped k → t.Mapped k := by
    intro k hk
    unfold Fs.Mapped
    rw [h.maplen]
    exact hk
  refine ⟨h.inv.same hs, hs.maplen.trans h.maplen, hs.exhausted.trans h.exhausted, fun k hk hn h4 => ?_, fun hset => ?_⟩
  · rw [hs.ino k (hmapped k hk)]
    exact h.others k hk hn h4
  · rw [hs.ino n (hmapped n hm)]
    exact (h.settled hset).same h.inv hs

theorem Inv.unwritten (h : Inv blocks s) (n : Nat) : Written blocks s s n := ⟨h, rfl, rfl, fun _ _ _ _ => rfl, id⟩

theorem Inv.ne_of_not_system (h : Inv blocks s) (hf : (s.ino n).flags &&& INO_SYSTEM = 0) : n ≠ 2 ∧ n ≠ 4 := by
  constructor
  · rintro rfl
    rw [h.tableFlags] at hf
    exact absurd hf (by decide)
  · rintro rfl
    rw [h.freeFlags] at hf
    exact absurd hf (by decide)

theorem Inv.ne_of_directory (h : Inv blocks s) (hf : (s.ino n).flags &&& INO_DIRECTORY ≠ 0) : n ≠ 2 ∧ n ≠ 4 := by
  constructor
  · rintro rfl
    rw [h.tableFlags] at hf
    exact hf (by decide)
  · rintro rfl
    rw [h.freeFlags] at hf
    exact hf (by decide)

/-- Another file has the blocks `e`, which are settled. -/
theorem Inv.rewritten (h : Inv blocks s) (h2 : n ≠ 2) (h4 : n ≠ 4) (hi : i.Wf)
    (hs : Settled blocks s n (s.ino n).ext → Settled blocks s n i.ext) (hl : i.linkcount = (s.ino n).linkcount) :
    Written blocks s (s.putIno n i) n := by
  refine ⟨h.putIno hi h2 h4 fun hn hlinked => hs (h.settled hn (hl ▸ hlinked)), rfl, rfl, fun k _ hk _ => ?_,
    fun hset => ?_⟩
  · exact ino_putIno_of_ne s i hk
  · rw [ino_putIno_self s n hi]
    exact (hs hset).putIno h2

theorem resize_zero (h : resize n 0 s = .ok ((), t)) :
    ∃ e, t = s.putIno n { s.ino n with filesize := 0, ext := e } ∧ (e = (s.ino n).ext ∨ e = ⟨INVALID_BLOCK, 0⟩) := by
  unfold resize at h
  obtain ⟨x, s1, h1, h⟩ := bind_eq_ok.mp h
  obtain ⟨-, rfl, rfl⟩ := inodetab_eq_ok.mp h1
  rw [if_pos rfl] at h
  have hi := ino_wf s n
  split at h
  · obtain ⟨⟨⟩, s2, h2, h⟩ := bind_eq_ok.mp h
    obtain ⟨-, rfl⟩ := assign_eq_ok.mp h2
    obtain ⟨-, rfl⟩ := assign_eq_ok.mp h
    refine ⟨⟨INVALID_BLOCK, 0⟩, ?_, .inr rfl⟩
    rw [putIno_putIno, ino_putIno_self]
    exact ⟨hi.flags, hi.linkcount, hi.filesize, show INVALID_BLOCK < 2 ^ 64 by decide, show 0 < 2 ^ 64 by decide⟩
  · obtain ⟨-, rfl⟩ := assign_eq_ok.mp h
    exact ⟨(s.ino n).ext, rfl, .inl rfl⟩

/-- The free extent is never taken as a whole. -/
theorem allocSpace_exhausted {c : Nat} (h : Inv blocks s) (hc : (s.ino 4).ext.length ≤ c)
    (hr : allocSpace c s = .ok (a, t)) : t.exhausted = true := by
  have hm4 := h.mapped_four
  unfold allocSpace at hr
  rw [bind_ok (readbottomextents_ok hm4 h.direct)] at hr
  unfold Inode.exts at hr
  by_cases hl : (s.ino 4).ext.length = 0
  · rw [if_pos hl] at hr
    obtain ⟨-, rfl⟩ := Prod.mk.inj (Except.ok.inj hr)
    rfl
  · rw [if_neg hl, List.findIdx?_cons] at hr
    by_cases he : c ≤ (s.ino 4).ext.length
    · -- `set_file_extents` is given an empty list
      have hsub : sub64 (s.ino 4).ext.length c = 0 := by
        rw [sub64_eq (ino_wf s 4).length he]
        omega
      rw [if_pos (decide_eq_true he)] at hr
      unfold takeFrom at hr
      dsimp only at hr
      rw [List.getD_cons_zero, hsub] at hr
      exact nomatch hr
    · rw [if_neg (by simpa using he)] at hr
      obtain ⟨-, rfl⟩ := Prod.mk.inj (Except.ok.inj hr)
      rfl

theorem resize_exhausted {size : Nat} (h : Inv blocks s) (he : (s.ino n).ext = ⟨INVALID_BLOCK, 0⟩) (h0 : size ≠ 0)
    (hs : size < 2 ^ 63) (hc : (s.ino 4).ext.length ≤ (size + 4095) / 4096) (hr : resize n size s = .ok ((), t)) :
    t.exhausted = true := by
  have hblocks : blocksFor size = (size + 4095) / 4096 := by
    unfold blocksFor
    rw [add64_eq (by omega)]
  have hlength : shl64 (s.ino n).ext.length 12 < size := by
    rw [he]
    exact Nat.pos_of_ne_zero h0
  unfold resize at hr
  obtain ⟨x, s1, h1, hr⟩ := bind_eq_ok.mp hr
  obtain ⟨hm, rfl, rfl⟩ := inodetab_eq_ok.mp h1
  rw [if_neg h0, if_pos hlength] at hr
  obtain ⟨⟨⟩, s2, hgrow, hr⟩ := bind_eq_ok.mp hr
  obtain ⟨-, rfl⟩ := assign_eq_ok.mp hr
  have hgrow' : (allocSpace (blocksFor size) >>= fun startblock => assign n fun i =>
      { i with ext := ⟨startblock, blocksFor size⟩ }) s = .ok ((), s2) := by
    unfold grow at hgrow
    rw [bind_ok (inodetab_ok hm), he, if_neg (not_not.mpr rfl)] at hgrow
    exact hgrow
  obtain ⟨startblock, s3, halloc, hgrow⟩ := bind_eq_ok.mp hgrow'
  obtain ⟨-, rfl⟩ := assign_eq_ok.mp hgrow
  rw [hblocks] at halloc
  have hexhausted : s3.exhausted = true := allocSpace_exhausted h hc halloc
  exact hexhausted

/-- The blocks are the inode's own, and hold `size` bytes. -/
structure Houses (blocks : Nat) (s : Fs) (n size : Nat) : Prop where
  clear : Clear blocks s n (s.ino n).ext.startblock (s.ino n).ext.length
  large : size ≤ 4096 * (s.ino n).ext.length

theorem resize_first_written {size : Nat} (h : Inv blocks s) (hm : s.Mapped n) (hf : (s.ino n).flags &&& INO_SYSTEM = 0)
    (he : (s.ino n).ext = ⟨INVALID_BLOCK, 0⟩) (h0 : size ≠ 0) (hs : size < 2 ^ 63)
    (hr : resize n size s = .ok ((), t)) :
    t.exhausted = true ∨ Written blocks s t n ∧ Houses blocks t n size := by
  obtain ⟨h2, h4⟩ := h.ne_of_not_system hf
  by_cases hc : (size + 4095) / 4096 < (s.ino 4).ext.length
  · right
    have hin := h.owned.inside 4 h.free
    have hsmall := h.small
    have hi := ino_wf s n
    obtain ⟨t', ht', hq⟩ := resize_first ⟨hm, hf, he, ⟨h.mapped_four, h.direct⟩, hc, by omega⟩ h0 h4
    obtain ⟨-, rfl⟩ := Prod.mk.inj (Except.ok.inj (ht'.symm.trans hr))
    obtain ⟨hinv, hclear⟩ := h.take hc n
    have hwf : ((s.ino n).placed (s.ino 4).ext.startblock size).Wf :=
      ⟨hi.flags, hi.linkcount, show size < 2 ^ 64 by omega, show (s.ino 4).ext.startblock < 2 ^ 64 by omega,
        show (size + 4095) / 4096 < 2 ^ 64 by omega⟩
    have hput : Inv blocks ((s.putIno 4 ((s.ino 4).without ((size + 4095) / 4096))).putIno n
        ((s.ino n).placed (s.ino 4).ext.startblock size)) := hinv.putIno hwf h2 h4 fun _ _ _ => hclear
    have hself : t'.ino n = (s.ino n).placed (s.ino 4).ext.startblock size := by
      rw [hq.ino, ino_putIno_self _ n hwf]
    have hclear' : Clear blocks t' n (t'.ino n).ext.startblock (t'.ino n).ext.length := by
      rw [hself]
      exact (hclear.of_lessens (lessens_putIno h2)).of_lessens (hput.lessens (sameTable_of_quiet hq) n)
    refine ⟨⟨hput.same (sameTable_of_quiet hq), hq.maplen, hq.exhausted, fun k _ hkn hk4 => ?_, fun _ _ => hclear'⟩,
      hclear', ?_⟩
    · rw [hq.ino, ino_putIno_of_ne _ _ hkn, ino_putIno_of_ne _ _ hk4]
    · rw [hself]
      show size ≤ 4096 * ((size + 4095) / 4096)
      omega
  · exact .inl (resize_exhausted h he h0 hs (by omega) hr)

theorem resize_own_written {size : Nat} (h : Inv blocks s) (hm : s.Mapped n) (hf : (s.ino n).flags &&& INO_SYSTEM = 0)
    (hc : Clear blocks s n (s.ino n).ext.startblock (span (s.ino n) size)) (h0 : size ≠ 0)
    (hr : resize n size s = .ok ((), t)) : Written blocks s t n ∧ Houses blocks t n size := by
  obtain ⟨h2, h4⟩ := h.ne_of_not_system hf
  have hsmall := h.small
  have hin := hc.inside
  have hspan : span (s.ino n) size = max (s.ino n).ext.length ((size + 4095) / 4096) := rfl
  -- the first block is not free, so the free extent does not matter
  have hout : (s.ino n).ext.startblock < (s.ino 4).ext.startblock ∨
      (s.ino 4).ext.startblock + (s.ino 4).ext.length ≤ (s.ino n).ext.startblock := by
    by_contra hno
    exact hc.apart 4 h.free (Ne.symm h4) (s.ino n).ext.startblock (le_refl _) (by omega) ⟨by omega, by omega⟩
  obtain ⟨t', ht', hq⟩ := resize_ok ⟨hm, hf, ⟨h.mapped_four, h.direct⟩, hout, by omega, by omega⟩ h0
  obtain ⟨-, rfl⟩ := Prod.mk.inj (Except.ok.inj (ht'.symm.trans hr))
  have hwf : ((s.ino n).grown size).Wf := (ino_wf s n).grown size (by omega)
  have hw : Written blocks s (s.putIno n ((s.ino n).grown size)) n := h.rewritten h2 h4 hwf (fun _ _ => hc) rfl
  have hself : t'.ino n = (s.ino n).grown size := by rw [hq.ino, ino_putIno_self _ n hwf]
  refine ⟨hw.same hm (sameTable_of_quiet hq), ?_, ?_⟩
  · rw [hself]
    exact (hc.of_lessens (lessens_putIno h2)).of_lessens (hw.inv.lessens (sameTable_of_quiet hq) n)
  · rw [hself]
    show size ≤ 4096 * span (s.ino n) size
    omega

/-- Clear blocks can be addressed, and to write them leaves the inode table. -/
theorem store_clear (h : Inv blocks s) (hc : Clear blocks s n (s.ino n).ext.startblock l)
    (hl : buffer.length ≤ 4096 * l)
    (h2 : n ≠ 2) (hr : store n buffer s = .ok (b, t)) : SameTable s t := by
  by_cases h0 : buffer = []
  · rw [h0] at hr
    exact store_nil hr
  · have hlen := List.length_pos_iff.mpr h0
    have hin := hc.inside
    have hsmall := h.small
    exact store_outside hr (by omega) (h.outside hc h2 (by omega) hl)

/-- What `writeinode` does to the inode table. -/
theorem writeinode_written (h : Inv blocks s) (hw : WriteOk blocks s n buffer.length)
    (hr : writeinode n buffer s = .ok (b, t)) : t.exhausted = true ∨ Written blocks s t n := by
  unfold writeinode at hr
  obtain ⟨x, s1, h1, hr⟩ := bind_eq_ok.mp hr
  obtain ⟨hm, rfl, rfl⟩ := inodetab_eq_ok.mp h1
  by_cases hf : (s.ino n).flags &&& INO_SYSTEM = 0
  · rw [if_neg (not_not.mpr hf)] at hr
    obtain ⟨⟨⟩, u, hresize, hr⟩ := bind_eq_ok.mp hr
    obtain ⟨h2, h4⟩ := h.ne_of_not_system hf
    by_cases h0 : buffer = []
    · right
      subst h0
      obtain ⟨e, rfl, he⟩ := resize_zero hresize
      have hi := ino_wf s n
      have hwf : ({ s.ino n with filesize := 0, ext := e } : Inode).Wf := by
        rcases he with rfl | rfl
        · exact ⟨hi.flags, hi.linkcount, show 0 < 2 ^ 64 by decide, hi.startblock, hi.length⟩
        · exact ⟨hi.flags, hi.linkcount, show 0 < 2 ^ 64 by decide, show INVALID_BLOCK < 2 ^ 64 by decide,
            show 0 < 2 ^ 64 by decide⟩
      have hset : Settled blocks s n (s.ino n).ext → Settled blocks s n e := by
        intro hs
        rcases he with rfl | rfl
        · exact hs
        · exact fun hp => absurd rfl hp
      exact (h.rewritten h2 h4 hwf hset rfl).same hm (store_nil hr)
    · have hsize : buffer.length ≠ 0 := fun hl => h0 (List.eq_nil_of_length_eq_zero hl)
      have hpost : u.exhausted = true ∨ Written blocks s u n ∧ Houses blocks u n buffer.length := by
        cases hw with
        | nothing hz => exact absurd hz hsize
        | refused hs _ => exact absurd hf hs
        | first _ he hlt => exact resize_first_written h hm hf he hsize hlt hresize
        | own _ hc => exact .inr (resize_own_written h hm hf hc hsize hresize)
      rcases hpost with hex | ⟨hu, hh⟩
      · exact .inl ((sticky_store n buffer).sticky hr hex)
      · exact .inr (hu.same hm (store_clear hu.inv hh.clear hh.large h2 hr))
  · right
    rw [if_pos hf] at hr
    split at hr
    · obtain ⟨-, rfl⟩ := pure_eq_ok.mp hr
      exact h.unwritten n
    · cases hw with
      | nothing hz =>
        rw [List.eq_nil_of_length_eq_zero hz] at hr
        exact (h.unwritten n).same hm (store_nil hr)
      | refused _ hlt => exact absurd hlt (by assumption)
      | first hs _ _ => exact absurd hs hf
      | own h2 hc =>
        have hspan : span (s.ino n) buffer.length = max (s.ino n).ext.length ((buffer.length + 4095) / 4096) := rfl
        exact (h.unwritten n).same hm (store_clear h hc (by omega) h2 hr)

end Rodvin.Starfs.Ownership
