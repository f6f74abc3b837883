/-
  Rodvin.Starfs.Extents — files that are scattered over the disk
  (`tools/fuse_starfs/main.c` from `readfromextent` to `readinode`).

  An extent list stands for the bytes of its blocks, one extent behind the other
  (`blocks`), and `positions` says where on the disk each of them lies. `readfromextents`
  delivers a run of these bytes:
  - `readfromextents_spec`: into the buffer, from any byte of it on.
  - `readfromextents_slice`: the bytes asked for, and at the end of the list what is left.

  The lists of an inode with indirections are such bytes again (`Bottom`), so what
  `readinode` delivers depends on the disk alone (`readinode_contains`).
-/

import Rodvin.Starfs.FileProofs

namespace Rodvin.Starfs

open Rodvin.Lib

variable {s t : Fs} {m : Nat → UInt8} {ext : Extent} {exts : List Extent}

/-! ## The bytes of an extent list -/

/-- Where the bytes of a list lie on the disk. -/
def positions (exts : List Extent) : List Nat :=
  exts.flatMap fun ext => List.range' (4096 * ext.startblock) (4096 * ext.length)

/-- The blocks of a list, one extent behind the other. -/
def blocks (m : Nat → UInt8) (exts : List Extent) : List UInt8 :=
  exts.flatMap fun ext => slice m (4096 * ext.startblock) (4096 * ext.length)

def byteCount (exts : List Extent) : Nat := 4096 * (exts.map Extent.length).sum

@[simp] theorem blocks_nil (m : Nat → UInt8) : blocks m [] = [] := rfl

@[simp] theorem blocks_cons (m : Nat → UInt8) (ext : Extent) (exts : List Extent) :
    blocks m (ext :: exts) = slice m (4096 * ext.startblock) (4096 * ext.length) ++ blocks m exts := rfl

@[simp] theorem positions_cons (ext : Extent) (exts : List Extent) :
    positions (ext :: exts) = List.range' (4096 * ext.startblock) (4096 * ext.length) ++ positions exts := rfl

@[simp] theorem byteCount_cons (ext : Extent) (exts : List Extent) :
    byteCount (ext :: exts) = 4096 * ext.length + byteCount exts := by
  simp [byteCount, Nat.mul_add]

@[simp] theorem length_blocks (m : Nat → UInt8) (exts : List Extent) : (blocks m exts).length = byteCount exts := by
  induction exts with
  | nil => rfl
  | cons ext exts ih => simp [ih]

@[simp] theorem length_positions (exts : List Extent) : (positions exts).length = byteCount exts := by
  induction exts with
  | nil => rfl
  | cons ext exts ih => simp [ih]

theorem blocks_eq_map (m : Nat → UInt8) (exts : List Extent) : blocks m exts = (positions exts).map m := by
  induction exts with
  | nil => rfl
  | cons ext exts ih => simp [ih, slice, List.range'_eq_map_range]

/-- No byte of the list lies behind the reach of `lseek64`. -/
def Addressed (exts : List Extent) : Prop := ∀ ext ∈ exts, 4096 * (ext.startblock + ext.length) ≤ 2 ^ 63

theorem sizefromextents_eq (h : byteCount exts < 2 ^ 64) : sizefromextents exts = byteCount exts := by
  have hfold : ∀ (l : List Extent) (n : Nat), n + byteCount l < 2 ^ 64 →
      l.foldl (fun size ext => add64 size (shl64 ext.length 12)) n = n + byteCount l := by
    intro l
    induction l with
    | nil => intro n _; rfl
    | cons ext l ih =>
      intro n hn
      rw [byteCount_cons] at hn ⊢
      rw [List.foldl_cons, shl64_eq (by omega), add64_eq (by omega), ih _ (by omega)]
      omega
  have h0 := hfold exts 0 (by omega)
  rw [Nat.zero_add] at h0
  exact h0

/-! ## Reading -/

/-- The buffer with `bs` from its byte `i` on. -/
def Buf.fill (b : Buf) (i : Nat) (bs : List UInt8) : Buf :=
  { b with bytes := b.bytes.take i ++ bs ++ b.bytes.drop (i + bs.length) }

theorem Buf.fill_nil (b : Buf) (i : Nat) : b.fill i [] = b := by
  unfold Buf.fill
  simp

theorem Buf.fill_fill (b : Buf) (i : Nat) (bs cs : List UInt8) (h : i + bs.length + cs.length ≤ b.bytes.length) :
    (b.fill i bs).fill (i + bs.length) cs = b.fill i (bs ++ cs) := by
  have htake : (b.bytes.take i ++ bs).length = i + bs.length := by simp; omega
  unfold Buf.fill
  dsimp only
  rw [List.take_left' htake, ← List.drop_drop, List.drop_left' htake, List.drop_drop, List.length_append,
    List.append_assoc, List.append_assoc, List.append_assoc, List.append_assoc, Nat.add_assoc]

theorem Buf.length_fill {b : Buf} {i : Nat} {bs : List UInt8} (h : i + bs.length ≤ b.bytes.length) :
    (b.fill i bs).bytes.length = b.bytes.length := by
  unfold Buf.fill
  simp
  omega

theorem Buf.put_eq_fill {b : Buf} {i : Nat} {bs : List UInt8} (h : i + bs.length ≤ b.bytes.length) :
    b.put i bs = .ok (b.fill i bs) := if_pos h

/-- One `read`, of which the file delivers all. -/
theorem readfromextent_eq {offset size : Nat} (hoff : 4096 * ext.startblock + offset < 2 ^ 63)
    (hend : 4096 * ext.startblock + offset + size ≤ s.size) :
    readfromextent ext offset size s = .ok (slice s.disk (4096 * ext.startblock + offset) size,
      { s with pos := 4096 * ext.startblock + offset + size }) := by
  have hpos : add64 offset (shl64 ext.startblock 12) = 4096 * ext.startblock + offset := by
    rw [shl64_eq (by omega), add64_eq (by omega), Nat.add_comm]
  have hn : min size (s.size - (4096 * ext.startblock + offset)) = size := by omega
  unfold readfromextent
  rw [hpos]
  show read size (if _ then { s with pos := 4096 * ext.startblock + offset } else s) = _
  rw [if_pos hoff]
  show Except.ok (slice s.disk _ (min size (s.size - (4096 * ext.startblock + offset))), _) = _
  rw [hn]

/-- The first extent's share of a run of bytes. -/
theorem take_drop_append {bs : List UInt8} {offset : Nat} (cs : List UInt8) (size : Nat) (h : offset < bs.length) :
    ((bs ++ cs).drop offset).take size =
      (bs.drop offset).take (min size (bs.length - offset)) ++ cs.take (size - min size (bs.length - offset)) := by
  have hsub : size - (bs.length - offset) = size - min size (bs.length - offset) := by omega
  have htake : (bs.drop offset).take size = (bs.drop offset).take (min size (bs.length - offset)) := by
    rw [List.take_eq_take_iff, List.length_drop]
    omega
  rw [List.drop_append_of_le_length (Nat.le_of_lt h), List.take_append, List.length_drop, hsub, htake]

theorem readfromextents_spec : ∀ {exts : List Extent} {buf : Buf} {i offset size : Nat} {s : Fs}, Addressed exts →
    (∀ p ∈ ((positions exts).drop offset).take size, p < s.size) →
    i + (((blocks s.disk exts).drop offset).take size).length ≤ buf.bytes.length →
    ∃ t, readfromextents exts buf i offset size s = .ok (buf.fill i (((blocks s.disk exts).drop offset).take size), t) ∧
      Quiet s t := by
  intro exts
  induction exts with
  | nil =>
    intro buf i offset size s _ _ _
    exact ⟨s, by simp [readfromextents, Buf.fill_nil]; rfl, .refl s⟩
  | cons ext exts ih =>
    intro buf i offset size s haddr hread hroom
    have hext : 4096 * (ext.startblock + ext.length) ≤ 2 ^ 63 := haddr ext List.mem_cons_self
    have hexts : Addressed exts := fun e he => haddr e (List.mem_cons_of_mem _ he)
    have hlen : (slice s.disk (4096 * ext.startblock) (4096 * ext.length)).length = 4096 * ext.length :=
      length_slice _ _ _
    unfold readfromextents
    dsimp only
    rw [shl64_eq (by omega)]
    by_cases h0 : size = 0
    · rw [if_pos h0, h0, List.take_zero, Buf.fill_nil]
      exact ⟨s, rfl, .refl s⟩
    · rw [if_neg h0]
      by_cases hlt : offset < 4096 * ext.length
      · -- the extent in which the bytes start: the others are read from their first byte on
        have hsplit := take_drop_append (blocks s.disk exts) size (hlen ▸ hlt)
        have hpart : ((slice s.disk (4096 * ext.startblock) (4096 * ext.length)).drop offset).take
            (min size (4096 * ext.length - offset)) =
            slice s.disk (4096 * ext.startblock + offset) (min size (4096 * ext.length - offset)) :=
          take_drop_slice _ _ (by omega)
        rw [hlen, hpart] at hsplit
        rw [blocks_cons, hsplit, List.length_append, length_slice] at hroom
        rw [if_pos hlt, blocks_cons, hsplit]
        have hrest : ∀ p ∈ ((positions exts).drop 0).take (size - min size (4096 * ext.length - offset)), p < s.size := by
          intro p hp
          refine hread p ?_
          rw [positions_cons, List.drop_append_of_le_length (by simp; omega), List.take_append, List.length_drop,
            List.length_range']
          refine List.mem_append_right _ ?_
          rwa [show size - (4096 * ext.length - offset) = size - min size (4096 * ext.length - offset) by omega]
        have hlast : 4096 * ext.startblock + offset + min size (4096 * ext.length - offset) ≤ s.size := by
          have hmem : 4096 * ext.startblock + offset + (min size (4096 * ext.length - offset) - 1) < s.size := by
            refine hread _ ?_
            rw [positions_cons, List.drop_append_of_le_length (by simp; omega), List.take_append]
            refine List.mem_append_left _ (List.mem_take_iff_getElem.mpr ⟨min size (4096 * ext.length - offset) - 1, ?_, ?_⟩)
            · simp
              omega
            · simp
          omega
        have hfill : buf.put i (slice s.disk (4096 * ext.startblock + offset) (min size (4096 * ext.length - offset))) = _ :=
          Buf.put_eq_fill (by rw [length_slice]; omega)
        rw [bind_ok (readfromextent_eq (by omega) hlast), bind_ok (lift_ok hfill)]
        have hroom' : i + min size (4096 * ext.length - offset) +
            (((blocks s.disk exts).drop 0).take (size - min size (4096 * ext.length - offset))).length ≤
            (buf.fill i (slice s.disk (4096 * ext.startblock + offset) (min size (4096 * ext.length - offset)))).bytes.length := by
          rw [Buf.length_fill (by rw [length_slice]; omega), List.drop_zero]
          omega
        obtain ⟨t, ht, hq⟩ := ih (s := { s with pos := 4096 * ext.startblock + offset + min size (4096 * ext.length - offset) })
          hexts hrest hroom'
        have hfills := Buf.fill_fill buf i (slice s.disk (4096 * ext.startblock + offset) (min size (4096 * ext.length - offset)))
          ((blocks s.disk exts).take (size - min size (4096 * ext.length - offset))) (by rw [length_slice]; omega)
        rw [length_slice] at hfills
        rw [← hfills]
        exact ⟨t, ht, hq.disk, hq.size, hq.maplen, hq.junk, hq.exhausted⟩
      · have hdrop : (blocks s.disk (ext :: exts)).drop offset = (blocks s.disk exts).drop (offset - 4096 * ext.length) := by
          rw [blocks_cons, List.drop_append, List.drop_eq_nil_of_le (by omega), List.nil_append, hlen]
        have hpdrop : (positions (ext :: exts)).drop offset = (positions exts).drop (offset - 4096 * ext.length) := by
          rw [positions_cons, List.drop_append, List.drop_eq_nil_of_le (by simp; omega), List.nil_append,
            List.length_range']
        rw [if_neg hlt, hdrop]
        rw [hpdrop] at hread
        rw [hdrop] at hroom
        exact ih hexts hread hroom

/-- Every run of the bytes of a list is delivered as it is, and what lies behind the end of
    the list is left out. -/
theorem readfromextents_slice (exts : List Extent) (buf : Buf) (offset size : Nat) (s : Fs) (haddr : Addressed exts)
    (htotal : byteCount exts < 2 ^ 63) (hread : ∀ p ∈ ((positions exts).drop offset).take size, p < s.size)
    (hroom : min size (byteCount exts - offset) ≤ buf.bytes.length) :
    ∃ bs t, readfromextents exts buf 0 offset size s = .ok (⟨bs ++ buf.bytes.drop bs.length, buf.behind⟩, t) ∧
      Quiet s t ∧
      (offset + size ≤ sizefromextents exts → bs.length = size ∧ bs = ((blocks s.disk exts).drop offset).take size) ∧
      (sizefromextents exts < offset + size → bs = (blocks s.disk exts).drop offset) := by
  have hroom' : 0 + (((blocks s.disk exts).drop offset).take size).length ≤ buf.bytes.length := by
    simp
    omega
  obtain ⟨t, ht, hq⟩ := readfromextents_spec haddr hread hroom'
  rw [sizefromextents_eq (by omega)]
  refine ⟨((blocks s.disk exts).drop offset).take size, t, ?_, hq, fun hle => ⟨?_, rfl⟩, fun hlt => ?_⟩
  · rw [ht, Buf.fill, List.take_zero, List.nil_append, Nat.zero_add]
  · simp
    omega
  · rw [List.take_of_length_le]
    simp
    omega

/-- Three blocks, of which the first holds sevens. -/
def threeBlocks : Fs :=
  ⟨fun a => if a < 4096 then 7 else 9, 12288, 0, 0, fun _ _ => 0, 0, false⟩

theorem readfromextents_slice_across : ∃ bs t,
    readfromextents [⟨2, 1⟩, ⟨0, 1⟩] ⟨[1, 1, 1, 1, 1], fun _ => 0⟩ 0 4094 4 threeBlocks =
      .ok (⟨bs ++ [1, 1, 1, 1, 1].drop bs.length, fun _ => 0⟩, t) ∧
      bs.length = 4 ∧ bs = ((blocks threeBlocks.disk [⟨2, 1⟩, ⟨0, 1⟩]).drop 4094).take 4 := by
  have haddr : Addressed [⟨2, 1⟩, ⟨0, 1⟩] := by simp [Addressed]
  have hread : ∀ p ∈ ((positions [⟨2, 1⟩, ⟨0, 1⟩]).drop 4094).take 4, p < threeBlocks.size := by
    intro p hp
    have hmem := List.mem_of_mem_drop (List.mem_of_mem_take hp)
    simp only [positions, List.flatMap_cons, List.flatMap_nil, List.mem_append, List.mem_range'_1, List.not_mem_nil,
      or_false] at hmem
    show p < 12288
    omega
  obtain ⟨bs, t, h1, -, h2, -⟩ :=
    readfromextents_slice [⟨2, 1⟩, ⟨0, 1⟩] ⟨[1, 1, 1, 1, 1], fun _ => 0⟩ 4094 4 threeBlocks
    haddr (by decide) hread (by decide)
  exact ⟨bs, t, h1, h2 (by decide)⟩

/-- A buffer of `size` bytes, filled. -/
theorem readfromextents_whole (buf : Buf) (size : Nat) (s : Fs) (hm : s.disk = m) (haddr : Addressed exts)
    (hread : ∀ p ∈ (positions exts).take size, p < s.size) (hbuf : buf.bytes.length = size)
    (hle : size ≤ byteCount exts) :
    ∃ t, readfromextents exts buf 0 0 size s = .ok (⟨(blocks m exts).take size, buf.behind⟩, t) ∧ Quiet s t := by
  have hroom : 0 + (((blocks s.disk exts).drop 0).take size).length ≤ buf.bytes.length := by
    simp
    omega
  obtain ⟨t, ht, hq⟩ := readfromextents_spec haddr hread hroom
  have hlen : ((blocks s.disk exts).take size).length = size := by simp; omega
  rw [List.drop_zero, Buf.fill, List.take_zero, List.nil_append, hlen, Nat.zero_add,
    List.drop_eq_nil_of_le (Nat.le_of_eq hbuf), List.append_nil, hm] at ht
  exact ⟨t, ht, hq⟩

/-! ## Indirections -/

/-- `readinode` fills the buffer with `bs`, wherever `fd` stands and whatever memory `malloc` gives. -/
def Fs.Contains (s : Fs) (n : Nat) (bs : List UInt8) : Prop :=
  ∀ u, Quiet s u → ∃ behind t, readinode n u = .ok (⟨bs, behind⟩, t)

/-- The list that `k` levels of lists lead to from `exts` on. Every level lies on the disk as a whole. -/
inductive Bottom (s : Fs) : Nat → List Extent → List Extent → Prop
  | last (exts : List Extent) : Bottom s 0 exts exts
  | level {k : Nat} {exts next last : List Extent} : Addressed exts → byteCount exts < 2 ^ 63 →
    (∀ p ∈ positions exts, p < s.size) →
    extentsIn (fun a => (blocks s.disk exts).getD a 0) (byteCount exts / 16) 0 = .ok next → Bottom s k next last →
    Bottom s (k + 1) exts last

theorem extentAt_congr {m m' : Nat → UInt8} {a : Nat} (h : ∀ i, a ≤ i → i < a + 16 → m i = m' i) :
    extentAt m a = extentAt m' a := by
  have hpart : ∀ k, k + 8 ≤ 16 → leAt m (a + k) 8 = leAt m' (a + k) 8 := by
    intro k hk
    unfold leAt
    rw [slice_congr fun i hi => h (a + k + i) (by omega) (by omega)]
  have h0 := hpart 0 (by decide)
  rw [Nat.add_zero] at h0
  unfold extentAt
  rw [h0, hpart 8 (by decide)]

theorem extentsIn_congr {m m' : Nat → UInt8} : ∀ {n a : Nat}, (∀ i, a ≤ i → i < a + 16 * n → m i = m' i) →
    extentsIn m n a = extentsIn m' n a := by
  intro n
  induction n with
  | zero => intro a _; rfl
  | succ n ih =>
    intro a h
    unfold extentsIn
    rw [extentAt_congr fun i h1 h2 => h i h1 (by omega), ih fun i h1 h2 => h i (by omega) (by omega)]

theorem followIndirections_bottom {k : Nat} {last : List Extent} (h : Bottom s k exts last) :
    ∀ {u : Fs}, Quiet s u → ∃ t, followIndirections k exts u = .ok (last, t) ∧ Quiet s t := by
  induction h with
  | last exts => exact fun hq => ⟨_, rfl, hq⟩
  | @level k exts next last haddr htotal hread hnext _ ih =>
    intro u hq
    have hmalloc : Quiet u { u with mallocs := u.mallocs + 1 } := ⟨rfl, rfl, rfl, rfl, rfl⟩
    have hsize : sizefromextents exts = byteCount exts := sizefromextents_eq (by omega)
    obtain ⟨t, ht, hq'⟩ := readfromextents_whole ⟨slice (u.junk u.mallocs) 0 (byteCount exts), u.junk u.mallocs⟩
      (byteCount exts) { u with mallocs := u.mallocs + 1 } hq.disk haddr
      (fun p hp => hq.size.symm ▸ hread p (List.mem_of_mem_take hp)) (length_slice _ _ _) (Nat.le_refl _)
    have hall : (blocks s.disk exts).take (byteCount exts) = blocks s.disk exts := by
      rw [← length_blocks s.disk exts, List.take_length]
    rw [hall] at ht
    have hparse : extentsIn (Buf.at ⟨blocks s.disk exts, u.junk u.mallocs⟩) ((blocks s.disk exts).length / 16) 0 = .ok next := by
      rw [length_blocks, ← hnext]
      refine extentsIn_congr fun i _ hi => ?_
      have hlt : i < (blocks s.disk exts).length := by rw [length_blocks]; omega
      simp only [Buf.at, List.getD_eq_getElem?_getD, List.getElem?_eq_getElem hlt, Option.getD_some]
    obtain ⟨t', ht', hq''⟩ := ih ((hq.trans hmalloc).trans hq')
    refine ⟨t', ?_, hq''⟩
    unfold followIndirections
    rw [hsize, bind_ok (malloc_ok _ _), bind_ok ht, bind_ok (lift_ok hparse)]
    exact ht'

/-- The content of a file is the first bytes of the blocks that its lists lead to. -/
theorem readinode_contains {n : Nat} {last : List Extent} (hm : s.Mapped n)
    (hb : Bottom s ((s.ino n).flags &&& INO_EXTENT_INDIRECTION) (s.ino n).exts last) (haddr : Addressed last)
    (hread : ∀ p ∈ (positions last).take (s.ino n).filesize, p < s.size) (hheld : (s.ino n).filesize ≤ byteCount last) :
    s.Contains n ((blocks s.disk last).take (s.ino n).filesize) := by
  intro u hq
  have hmalloc : Quiet u { u with mallocs := u.mallocs + 1 + 1 } := ⟨rfl, rfl, rfl, rfl, rfl⟩
  obtain ⟨v, hv, hqv⟩ := followIndirections_bottom hb (hq.trans hmalloc)
  have hmu : u.Mapped n := hq.mapped.mpr hm
  have hmu' : Fs.Mapped { u with mallocs := u.mallocs + 1 + 1 } n := hmu
  have hbottom : readbottomextents n { u with mallocs := u.mallocs + 1 } = .ok (last, v) := by
    show (inodetab n >>= fun i => followIndirections (i.flags &&& INO_EXTENT_INDIRECTION)
      (if i.ext.length = 0 then [] else [i.ext])) { u with mallocs := u.mallocs + 1 + 1 } = _
    rw [bind_ok (inodetab_ok hmu')]
    show followIndirections ((u.ino n).flags &&& INO_EXTENT_INDIRECTION) (u.ino n).exts _ = _
    rw [hq.ino]
    exact hv
  have hread' : ∀ p ∈ (positions last).take (s.ino n).filesize, p < v.size := by
    rw [hqv.size]
    exact hread
  obtain ⟨t, ht, -⟩ := readfromextents_whole ⟨slice (u.junk u.mallocs) 0 (s.ino n).filesize, u.junk u.mallocs⟩
    (s.ino n).filesize v hqv.disk haddr hread' (by rw [length_slice]) hheld
  refine ⟨u.junk u.mallocs, t, ?_⟩
  unfold readinode
  rw [bind_ok (inodetab_ok hmu), bind_ok (malloc_ok _ _), bind_ok hbottom, hq.ino]
  exact ht

theorem Readable.contains {n : Nat} (h : Readable s n) : s.Contains n (s.content n) := by
  intro u hq
  obtain ⟨t, ht, -⟩ := readinode_ok (h.quiet hq)
  rw [hq.content] at ht
  exact ⟨_, t, ht⟩

end Rodvin.Starfs
