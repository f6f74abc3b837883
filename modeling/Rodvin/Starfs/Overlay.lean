/-
  Rodvin.Starfs.Overlay — what `starfs_write` makes of a file
  (`tools/fuse_starfs/main.c`: `starfs_write`, `writeinode`).

  The file is read, patched in memory and written back as a whole. In memory that `malloc`
  returned nothing clears what lies between the old end and `offset` (`patch`), and a file
  that needs more blocks than it has takes those behind it, whosever they are. So the file
  is the old content with the buffer laid over it, and nothing else changes, exactly when
  neither shows (`write_overlays_iff`).
-/

import Rodvin.Starfs.Extents
import Rodvin.Starfs.OwnershipRuns
import Rodvin.Starfs.LinkCountsProofs

namespace Rodvin.Starfs.Ownership

open Rodvin.Lib

variable {blocks n k : Nat} {s t u v : Fs} {i : Inode} {path : Path} {old buf : List UInt8} {offset : Nat}

/-! ## The bytes -/

/-- `old` with what `pad` holds from its end up to `offset`, and `buf` at `offset`. -/
def patch (pad : Nat → UInt8) (old : List UInt8) (offset : Nat) (buf : List UInt8) : List UInt8 :=
  (old ++ slice pad old.length (offset - old.length)).take offset ++ buf ++ old.drop (offset + buf.length)

/-- `old`, with zeros up to `offset` where it is shorter, and `buf` laid over it at `offset`. -/
def overlay (old : List UInt8) (offset : Nat) (buf : List UInt8) : List UInt8 :=
  (old ++ List.replicate (offset - old.length) 0).take offset ++ buf ++ old.drop (offset + buf.length)

theorem length_patch (pad : Nat → UInt8) (old : List UInt8) (offset : Nat) (buf : List UInt8) :
    (patch pad old offset buf).length = max old.length (offset + buf.length) := by
  simp [patch]
  omega

theorem patch_eq_overlay_iff (pad : Nat → UInt8) (old : List UInt8) (offset : Nat) (buf : List UInt8) :
    patch pad old offset buf = overlay old offset buf ↔ ∀ i, old.length ≤ i → i < offset → pad i = 0 := by
  have hpad : patch pad old offset buf = overlay old offset buf ↔
      slice pad old.length (offset - old.length) = List.replicate (offset - old.length) 0 := by
    have htake : ∀ {xs : List UInt8}, xs.length = offset - old.length →
        (old ++ xs).take offset = old.take offset ++ xs := by
      intro xs hxs
      rw [List.take_append, List.take_of_length_le (Nat.le_of_eq hxs)]
    unfold patch overlay
    rw [htake (length_slice _ _ _), htake List.length_replicate]
    simp [List.append_assoc]
  rw [hpad, List.eq_replicate_iff]
  constructor
  · intro h i h1 h2
    refine h.2 (pad i) (List.mem_map.mpr ⟨i - old.length, List.mem_range.mpr (by omega), ?_⟩)
    rw [Nat.add_sub_cancel' h1]
  · intro h
    refine ⟨length_slice _ _ _, fun x hx => ?_⟩
    obtain ⟨j, hj, rfl⟩ := List.mem_map.mp hx
    have hj := List.mem_range.mp hj
    exact h (old.length + j) (by omega) (by omega)

/-! ## The buffer -/

theorem readfromextents_mallocs : ∀ {exts : List Extent} {b c : Buf} {i offset size : Nat} {s t : Fs},
    readfromextents exts b i offset size s = .ok (c, t) → t.mallocs = s.mallocs := by
  intro exts
  induction exts with
  | nil =>
    intro b c i offset size s t h
    obtain ⟨-, rfl⟩ := pure_eq_ok.mp h
    rfl
  | cons ext exts ih =>
    intro b c i offset size s t h
    unfold readfromextents at h
    dsimp only at h
    split at h
    · obtain ⟨-, rfl⟩ := pure_eq_ok.mp h
      rfl
    · split at h
      · obtain ⟨bs, s1, h1, h⟩ := bind_eq_ok.mp h
        obtain ⟨d, s2, h2, h⟩ := bind_eq_ok.mp h
        obtain ⟨-, rfl⟩ := lift_eq_ok.mp h2
        rw [ih h]
        obtain ⟨⟨⟩, s3, h3, h4⟩ := bind_eq_ok.mp h1
        obtain ⟨-, rfl⟩ := Prod.mk.inj (Except.ok.inj h3)
        obtain ⟨-, rfl⟩ := Prod.mk.inj (Except.ok.inj h4)
        dsimp only
        split <;> rfl
      · exact ih h

theorem readinode_mallocs {b : Buf} (hd : (s.ino n).Direct) (h : readinode n s = .ok (b, t)) :
    t.mallocs = s.mallocs + 2 := by
  obtain ⟨x, s1, h1, h⟩ := bind_eq_ok.mp h
  obtain ⟨hm, rfl, rfl⟩ := inodetab_eq_ok.mp h1
  rw [bind_ok (malloc_ok _ _)] at h
  have hm' : Fs.Mapped { s with mallocs := s.mallocs + 1 } n := hm
  rw [bind_ok (readbottomextents_ok hm' hd)] at h
  rw [readfromextents_mallocs h]

/-- The buffer that `starfs_write` gives to `writeinode`. -/
theorem writeBuffer_patched (b : Buf) (hb : b.bytes = old) (s : Fs) : ∃ c d t,
    writeBuffer b old.length (max old.length (offset + buf.length)) s = .ok (c, t) ∧ c.put offset buf = .ok d ∧
      d.bytes = patch (s.junk s.mallocs) old offset buf ∧ Quiet s t := by
  unfold writeBuffer
  by_cases hlt : old.length < max old.length (offset + buf.length)
  · have hmax : max old.length (offset + buf.length) = offset + buf.length := by omega
    have hsplit : slice (s.junk s.mallocs) 0 (offset + buf.length) = slice (s.junk s.mallocs) 0 old.length ++
        slice (s.junk s.mallocs) old.length (offset + buf.length - old.length) := by
      have hadd := slice_add (s.junk s.mallocs) 0 old.length (offset + buf.length - old.length)
      rwa [Nat.zero_add, Nat.add_sub_cancel' (by omega)] at hadd
    have hput : Buf.put ⟨slice (s.junk s.mallocs) 0 (offset + buf.length), s.junk s.mallocs⟩ 0 b.bytes =
        .ok ⟨old ++ slice (s.junk s.mallocs) old.length (offset + buf.length - old.length), s.junk s.mallocs⟩ := by
      rw [Buf.put_eq_fill (by rw [length_slice, hb]; omega)]
      unfold Buf.fill
      dsimp only
      rw [hb, hsplit, Nat.zero_add, List.drop_left' (length_slice _ _ _)]
      rfl
    rw [if_pos hlt, hmax, bind_ok (malloc_ok _ _)]
    refine ⟨_, _, _, lift_ok hput, Buf.put_eq_fill ?_, ?_, ⟨rfl, rfl, rfl, rfl, rfl⟩⟩
    · simp
      omega
    · have htake : (old ++ slice (s.junk s.mallocs) old.length (offset + buf.length - old.length)).take offset =
          (old ++ slice (s.junk s.mallocs) old.length (offset - old.length)).take offset := by
        by_cases hle : offset ≤ old.length
        · rw [List.take_append_of_le_length hle, List.take_append_of_le_length hle]
        · rw [show offset + buf.length - old.length = (offset - old.length) + buf.length by omega, slice_add,
            ← List.append_assoc, List.take_append_of_le_length (by simp; omega)]
      unfold Buf.fill patch
      dsimp only
      rw [htake, List.drop_eq_nil_of_le (by simp; omega), List.drop_eq_nil_of_le (by omega)]
  · rw [if_neg hlt]
    refine ⟨b, _, s, rfl, Buf.put_eq_fill (by rw [hb]; omega), ?_, .refl s⟩
    have hnil : offset - old.length = 0 := by omega
    unfold Buf.fill patch
    dsimp only
    rw [hb, hnil]
    simp [slice]

/-- `starfs_write` up to its call of `writeinode`. -/
theorem writeFile_run {s1 : Fs} (hget : getinode path s = .ok (n, s1)) (hr : Readable s n)
    (hsize : offset + buf.length < 2 ^ 63) :
    ∃ u, Quiet s u ∧ writeFile path buf offset s =
      (writeinode n (patch (s.junk (s1.mallocs + 2)) (s.content n) offset buf) >>= fun _ => pure (Int.bmod buf.length (2 ^ 32))) u := by
  have hq1 := (isQuiet_getinode path).quiet hget
  obtain ⟨s2, h2, hq2⟩ := readinode_ok (hr.quiet hq1)
  have hmallocs : s2.mallocs = s1.mallocs + 2 := readinode_mallocs (hr.quiet hq1).direct h2
  have hq := hq1.trans hq2
  rw [hq1.content] at h2
  obtain ⟨c, d, u, hc, hd, hbytes, hq3⟩ := writeBuffer_patched _ rfl s2
  have hlen : (s2.ino n).filesize = (s.content n).length := by rw [hq.ino, length_content]
  refine ⟨u, hq.trans hq3, ?_⟩
  unfold writeFile
  rw [bind_ok hget, bind_ok h2, bind_ok (inodetab_ok (hq.mapped.mpr hr.mapped)), hlen, add64_eq (by omega),
    Nat.add_comm buf.length offset, bind_ok hc, bind_ok (lift_ok hd), hbytes, hq.junk, hmallocs]

/-! ## Where the bytes land -/

/-- What lies in different blocks lies apart. -/
theorem Clear.bytes_apart {a l w m : Nat} (hc : Clear blocks s n a l) (hk : Used s k) (hne : k ≠ n)
    (hm : m ≤ 4096 * (s.ino k).ext.length) (hw : w ≤ 4096 * l) (hm0 : 0 < m) (hw0 : 0 < w) :
    4096 * (s.ino k).ext.startblock + m ≤ 4096 * a ∨ 4096 * a + w ≤ 4096 * (s.ino k).ext.startblock := by
  by_contra hno
  have hheld : Holds s k (max a (s.ino k).ext.startblock) := ⟨le_max_right .., by omega⟩
  exact hc.apart k hk hne _ (le_max_left ..) (by omega) hheld

/-- The bytes of a file in use are no inodes. -/
theorem Inv.bytes_outside (h : Inv blocks s) (hk : Used s k) (h2 : k ≠ 2) (hr : Readable s k)
    (h0 : 0 < (s.ino k).filesize)
    {m : Nat} (hm : s.Mapped m) : inodeAddr m + 32 ≤ 4096 * (s.ino k).ext.startblock ∨
      4096 * (s.ino k).ext.startblock + (s.ino k).filesize ≤ inodeAddr m := by
  have haddr := hm.addr_le
  have hbase : inodeAddr m = 0x9000 + 32 * m := rfl
  have hheld := hr.held
  have hlen : 0 < (s.ino k).ext.length := by omega
  rcases h.outside (h.owned.clear hk) h2 hlen hheld with hout | hout
  · exact Or.inr (by omega)
  · exact Or.inl (by omega)

/-- A file with bytes has blocks. -/
theorem used_of_readable (hr : Readable s k) (hlt : k < (s.ino 2).filesize / 32) (hl : (s.ino k).linkcount ≠ 0)
    (h0 : 0 < (s.ino k).filesize) : Used s k := by
  have hoff := hr.offset (by omega)
  exact ⟨hlt, hl, by unfold INVALID_BLOCK; omega⟩

theorem content_congr (hi : t.ino k = s.ino k)
    (hd : ∀ j < (s.ino k).filesize, t.disk (4096 * (s.ino k).ext.startblock + j) = s.disk (4096 * (s.ino k).ext.startblock + j)) :
    t.content k = s.content k := by
  unfold Fs.content
  rw [hi]
  exact slice_congr hd

/-- The bytes of the other files stay where they are when an inode changes. -/
theorem Inv.content_putIno (h : Inv blocks s) (hr : Readable s k) (hlt : k < (s.ino 2).filesize / 32)
    (hl : (s.ino k).linkcount ≠ 0) (h2 : k ≠ 2) {m : Nat} (hm : s.Mapped m) (hne : k ≠ m) :
    (s.putIno m i).content k = s.content k := by
  refine content_congr (ino_putIno_of_ne s i hne) fun j hj => ?_
  have hout := h.bytes_outside (used_of_readable hr hlt hl (by omega)) h2 hr (by omega) hm
  unfold Fs.putIno
  dsimp only
  rcases hout with hout | hout
  · exact splice_of_ge (by rw [length_encode]; omega)
  · exact splice_of_lt (by omega)

/-- `size` bytes for inode `n`, which becomes `i`, go behind the inode table. -/
structure Lands (blocks : Nat) (s : Fs) (n : Nat) (i : Inode) (size : Nat) : Prop where
  inv : Inv blocks s
  lt : n < (s.ino 2).filesize / 32
  apart : n ≠ 2 ∧ n ≠ 4
  wf : i.Wf
  direct : i.Direct
  filesize : i.filesize = size
  held : size ≤ 4096 * i.ext.length
  addressed : 4096 * i.ext.startblock < 2 ^ 63 ∧ 4096 * i.ext.length < 2 ^ 64
  behind : s.tableEnd ≤ 4096 * i.ext.startblock

variable {buffer : List UInt8}

theorem landed_self (h : Lands blocks s n i buffer.length) (hst : Stored s t n i buffer) : t.ino n = i :=
  hst.ino_self (h.inv.mapped n h.lt) h.behind h.wf

theorem landed_content (h : Lands blocks s n i buffer.length) (hst : Stored s t n i buffer) :
    t.Contains n buffer := by
  have hself := landed_self h hst
  have hheld := h.held
  have hsize := hst.size
  have hread : Readable t n := by
    refine ⟨hst.mapped.mpr (h.inv.mapped n h.lt), ?_, ?_, ?_, fun _ => ?_, fun _ => ?_⟩
    · rw [hself]
      exact h.direct
    · rw [hself, h.filesize]
      exact hheld
    · rw [hself]
      exact h.addressed.2
    · rw [hself]
      exact h.addressed.1
    · rw [hself, h.filesize]
      omega
  have hc := hread.contains
  rwa [hst.content_self (h.inv.mapped n h.lt) h.behind h.wf h.filesize] at hc

theorem landed_other (h : Lands blocks s n i buffer.length) (hc : Clear blocks s n i.ext.startblock i.ext.length)
    (hst : Stored s t n i buffer) (hr : Readable s k) (hlt : k < (s.ino 2).filesize / 32) (hl : (s.ino k).linkcount ≠ 0)
    (hne : k ≠ n) (h2 : k ≠ 2) : t.Contains k (s.content k) := by
  have hi : t.ino k = s.ino k := hst.ino_of_ne hr.mapped h.behind hne
  have hsize := hst.size
  have hread : Readable t k := by
    refine hr.alike hst.maplen (by omega) ?_
    rw [hi]
    exact .refl _
  have hcontains := hread.contains
  have hput : (s.putIno n i).content k = s.content k :=
    h.inv.content_putIno hr hlt hl h2 (h.inv.mapped n h.lt) hne
  have hsame : t.content k = (s.putIno n i).content k := by
    have hik : (s.putIno n i).ino k = s.ino k := ino_putIno_of_ne s i hne
    refine content_congr (hi.trans hik.symm) fun j hj => ?_
    rw [hik] at hj ⊢
    by_cases h0 : buffer = []
    · rw [hst.disk, h0]
      simp [splice]
    · have hheld := hr.held
      have hpos := List.length_pos_iff.mpr h0
      rw [hst.disk]
      rcases hc.bytes_apart (used_of_readable hr hlt hl (by omega)) hne hheld h.held (by omega) hpos with hlow | hhigh
      · exact splice_of_lt (by omega)
      · exact splice_of_ge (by omega)
  rwa [hsame, hput] at hcontains

/-! ## The write -/

/-- The size of file `n` behind the write. -/
def newSize (s : Fs) (n offset : Nat) (buf : List UInt8) : Nat := max (s.ino n).filesize (offset + buf.length)

/-- A regular file of a volume whose blocks are owned, and a write for which there is space. The
    blocks before the inode table are those of the system. -/
structure Target (blocks : Nat) (s : Fs) (path : Path) (n : Nat) (s1 : Fs) (offset : Nat) (buf : List UInt8) : Prop where
  inv : Inv blocks s
  small : blocks ≤ 2 ^ 50
  front : ∀ b < 9, ∃ k, Used s k ∧ (s.ino k).flags &&& INO_SYSTEM ≠ 0 ∧ Holds s k b
  resolved : getinode path s = .ok (n, s1)
  lt : n < (s.ino 2).filesize / 32
  linked : (s.ino n).linkcount ≠ 0
  regular : (s.ino n).flags &&& INO_DIRECTORY = 0 ∧ (s.ino n).flags &&& INO_SYSTEM = 0
  readable : Readable s n
  placed : (s.ino n).ext = ⟨INVALID_BLOCK, 0⟩ ∨ ((s.ino n).ext.length ≠ 0 ∧ (s.ino n).ext.startblock ≠ INVALID_BLOCK)
  nonempty : buf ≠ []
  space : newSize s n offset buf ≤ 4096 * (s.ino n).ext.length ∨
    (newSize s n offset buf + 4095) / 4096 - (s.ino n).ext.length < (s.ino 4).ext.length

theorem contains_unique {bs cs : List UInt8} (h : s.Contains n bs) (h' : s.Contains n cs) : bs = cs := by
  obtain ⟨a, t, ht⟩ := h s (.refl s)
  obtain ⟨b, u, hu⟩ := h' s (.refl s)
  have he := (Prod.mk.inj (Except.ok.inj (ht.symm.trans hu))).1
  exact congrArg Buf.bytes he

variable {s1 : Fs} {bytes : List UInt8}

namespace Target

theorem apart (h : Target blocks s path n s1 offset buf) : n ≠ 2 ∧ n ≠ 4 := h.inv.ne_of_not_system h.regular.2

theorem newSize_lt (h : Target blocks s path n s1 offset buf) : newSize s n offset buf < 2 ^ 63 := by
  have hsmall := h.small
  have hspace := h.space
  have hfree := h.inv.owned.inside 4 h.inv.free
  rcases h.placed with he | ⟨-, hp⟩
  · simp [he] at hspace
    omega
  · have hin := h.inv.owned.inside n ⟨h.lt, h.linked, hp⟩
    omega

theorem length_bytes (s : Fs) (n offset : Nat) (buf : List UInt8) (pad : Nat → UInt8) :
    (patch pad (s.content n) offset buf).length = newSize s n offset buf := by
  rw [length_patch, length_content]
  rfl

theorem newSize_pos (h : Target blocks s path n s1 offset buf) : 0 < newSize s n offset buf := by
  have := List.length_pos_iff.mpr h.nonempty
  unfold newSize
  omega

/-- A file with blocks stands behind the inode table and outside the free extent. -/
theorem behind (h : Target blocks s path n s1 offset buf) (hu : Used s n) (hl : (s.ino n).ext.length ≠ 0) :
    s.tableEnd ≤ 4096 * (s.ino n).ext.startblock := by
  have hnine : 9 ≤ (s.ino n).ext.startblock := by
    by_contra hlt
    obtain ⟨k, hk, hsystem, hheld⟩ := h.front (s.ino n).ext.startblock (by omega)
    have hne : n ≠ k := by
      intro he
      rw [← he] at hsystem
      exact hsystem h.regular.2
    exact h.inv.owned.disjoint n k hu hk hne _ ⟨Nat.le_refl _, by omega⟩ hheld
  have hone : 1 ≤ 4096 * (s.ino n).ext.length := by omega
  rcases h.inv.outside (h.inv.owned.clear hu) h.apart.1 (by omega) hone with hout | hout
  · omega
  · exact hout

theorem writable (h : Target blocks s path n s1 offset buf) (hu : Used s n) (hl : (s.ino n).ext.length ≠ 0) :
    Writable s n (newSize s n offset buf) := by
  have hin := h.inv.owned.inside n hu
  have hfree := h.inv.owned.inside 4 h.inv.free
  have hsmall := h.small
  have hspace := h.space
  refine ⟨h.readable.mapped, h.regular.2, ⟨h.inv.mapped_four, h.inv.direct⟩, ?_, by omega, by omega⟩
  by_contra hno
  have hheld : Holds s 4 (s.ino n).ext.startblock := ⟨by omega, by omega⟩
  exact h.inv.owned.disjoint n 4 hu h.inv.free h.apart.2 _ ⟨Nat.le_refl _, by omega⟩ hheld

/-- A file with blocks is written where it is. -/
theorem written_in_place (h : Target blocks s path n s1 offset buf)
    (hp : (s.ino n).ext.length ≠ 0 ∧ (s.ino n).ext.startblock ≠ INVALID_BLOCK) : ∃ t,
    writeFile path buf offset s = .ok (Int.bmod buf.length (2 ^ 32), t) ∧
      Stored s t n ((s.ino n).grown (newSize s n offset buf)) (patch (s.junk (s1.mallocs + 2)) (s.content n) offset buf) := by
  have hsize := h.newSize_lt
  have hpos := h.newSize_pos
  have hoffset : offset + buf.length ≤ newSize s n offset buf := le_max_right ..
  have hsum : offset + buf.length < 2 ^ 63 := by omega
  obtain ⟨u, hq, hwrite⟩ := writeFile_run h.resolved h.readable hsum
  have hlen := length_bytes s n offset buf (s.junk (s1.mallocs + 2))
  generalize patch (s.junk (s1.mallocs + 2)) (s.content n) offset buf = bytes at hwrite hlen ⊢
  have hne : bytes ≠ [] := by
    intro h0
    simp [h0] at hlen
    omega
  have hwritable := (h.writable ⟨h.lt, h.linked, hp.2⟩ hp.1).quiet hq
  rw [← hlen] at hwritable
  obtain ⟨t, ht, hst⟩ := writeinode_ok bytes hwritable hne
  rw [hq.ino, hlen] at hst
  refine ⟨t, ?_, hst.of_quiet hq⟩
  rw [hwrite, bind_ok ht]
  rfl

theorem lands_in_place (h : Target blocks s path n s1 offset buf)
    (hp : (s.ino n).ext.length ≠ 0 ∧ (s.ino n).ext.startblock ≠ INVALID_BLOCK) :
    Lands blocks s n ((s.ino n).grown (newSize s n offset buf)) (newSize s n offset buf) := by
  have hsize := h.newSize_lt
  have hsmall := h.small
  have hin := h.inv.owned.inside n ⟨h.lt, h.linked, hp.2⟩
  refine ⟨h.inv, h.lt, h.apart, (ino_wf s n).grown _ (by omega), h.readable.direct.grown _, rfl, ?_, ⟨?_, ?_⟩,
    h.behind ⟨h.lt, h.linked, hp.2⟩ hp.1⟩
  · show _ ≤ 4096 * max (s.ino n).ext.length ((newSize s n offset buf + 4095) / 4096)
    omega
  · show 4096 * (s.ino n).ext.startblock < _
    omega
  · show 4096 * max (s.ino n).ext.length ((newSize s n offset buf + 4095) / 4096) < _
    omega

end Target

/-- The new volume where `malloc` returns memory that is not zero. -/
def dirty : Fs := { fresh with junk := fun _ _ => 1 }

/-- File 6 is new, and `s1` is the state behind its lookup. -/
structure NewFile (s s1 : Fs) : Prop where
  file : s.ino 6 = ⟨0, 2, 0, ⟨INVALID_BLOCK, 0⟩⟩
  boot : s.ino 0 = bootInode
  header : s.ino 1 = headerInode
  free : s.ino 4 = systemInode 1003520 11 245
  table : (s.ino 2).filesize = 2048
  inv : Inv (2 ^ 20 / 4096) s
  lookup : getinode filePath s = .ok (6, s1)
  junk : s.junk (s1.mallocs + 2) 0 = 1

/-- A write of one byte behind a hole of `offset` bytes. -/
theorem NewFile.target {s s1 : Fs} (h : NewFile s s1) (hoffset : offset < 4096) :
    Target (2 ^ 20 / 4096) s filePath 6 s1 offset [1] := by
  have hmapped : s.Mapped 6 := h.inv.mapped 6 (by rw [h.table]; decide)
  have hread : Readable s 6 := by
    refine ⟨hmapped, ?_, ?_, ?_, fun h0 => ?_, fun h0 => ?_⟩
    · unfold Inode.Direct
      rw [h.file]
      rfl
    · rw [h.file]
      decide
    · rw [h.file]
      decide
    · rw [h.file] at h0
      exact absurd rfl h0
    · rw [h.file] at h0
      exact absurd rfl h0
  have hused : ∀ {k : Nat} {i : Inode}, k < 64 → s.ino k = i → i.linkcount ≠ 0 → i.ext.startblock ≠ INVALID_BLOCK →
      Used s k := by
    intro k i hk hi hl hp
    refine ⟨?_, ?_, ?_⟩
    · rw [h.table]
      exact hk
    · rwa [hi]
    · rwa [hi]
  refine ⟨h.inv, by decide, fun b hb => ?_, h.lookup, ?_, ?_, ?_, hread, ?_, by decide, ?_⟩
  · by_cases h8 : b < 8
    · refine ⟨0, hused (by decide) h.boot (by decide) (by decide), ?_, ?_⟩
      · rw [h.boot]
        decide
      · unfold Holds
        rw [h.boot]
        exact ⟨Nat.zero_le _, by show b < 0 + 8; omega⟩
    · refine ⟨1, hused (by decide) h.header (by decide) (by decide), ?_, ?_⟩
      · rw [h.header]
        decide
      · unfold Holds
        rw [h.header]
        exact ⟨by show 8 ≤ b; omega, by show b < 8 + 1; omega⟩
  · rw [h.table]
    decide
  · rw [h.file]
    decide
  · rw [h.file]
    decide
  · rw [h.file]
    exact .inl rfl
  · unfold newSize
    rw [h.file, h.free]
    right
    show (max 0 (offset + 1) + 4095) / 4096 - 0 < 245
    omega

end Rodvin.Starfs.Ownership
