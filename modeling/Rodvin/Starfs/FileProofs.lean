/-
  Rodvin.Starfs.FileProofs — a file of one extent is read and written as a whole.

  `readinode` delivers the content where the extent holds it (`readinode_ok`).
  `alloc_adjacent_space` only finds the free extent when the file starts inside it, so for
  every other file it returns `INVALID_BLOCK`, which `writeinode` takes for success: the
  file grows in place over whatever follows (`writeinode_ok`). What a write leaves alone is
  in `Stored`: other inodes, and contents that it does not overlap.
-/

import Rodvin.Starfs.Failures

namespace Rodvin.Starfs

open Rodvin.Lib

variable {α β : Type} {s t u : Fs} {n k : Nat}

/-! ## Running the primitives -/

theorem bind_ok {c : Fuse α} {d : α → Fuse β} {a : α} (h : c s = .ok (a, t)) : (c >>= d) s = d a t := by
  show Except.bind (c s) (fun p => d p.1 p.2) = _
  rw [h]
  rfl

theorem inodetab_ok (h : s.Mapped n) : inodetab n s = .ok (s.ino n, s) := if_pos h

theorem assign_ok {f : Inode → Inode} (h : s.Mapped n) : assign n f s = .ok ((), s.putIno n (f (s.ino n))) := if_pos h

theorem malloc_ok (n : Nat) (s : Fs) :
    malloc n s = .ok (⟨slice (s.junk s.mallocs) 0 n, s.junk s.mallocs⟩, { s with mallocs := s.mallocs + 1 }) := rfl

theorem lift_ok {c : Checked α} {a : α} (h : c = .ok a) : (liftM c : Fuse α) s = .ok (a, s) :=
  lift_eq_ok.mpr ⟨h, rfl⟩

theorem shl64_eq {a : Nat} (h : 4096 * a < 2 ^ 64) : shl64 a 12 = 4096 * a := by
  unfold shl64
  omega

/-- The extent list of inode `n` is in the inode. -/
def Inode.Direct (i : Inode) : Prop := i.flags &&& INO_EXTENT_INDIRECTION = 0

instance (i : Inode) : Decidable i.Direct := inferInstanceAs (Decidable (_ = _))

/-- The list of one extent, up to its terminator. -/
def Inode.exts (i : Inode) : List Extent := if i.ext.length = 0 then [] else [i.ext]

theorem readbottomextents_ok (hm : s.Mapped n) (hd : (s.ino n).Direct) :
    readbottomextents n s = .ok ((s.ino n).exts, { s with mallocs := s.mallocs + 1 }) := by
  have hm' : Fs.Mapped { s with mallocs := s.mallocs + 1 } n := hm
  show (inodetab n >>= fun i => followIndirections (i.flags &&& INO_EXTENT_INDIRECTION)
    (if i.ext.length = 0 then [] else [i.ext])) { s with mallocs := s.mallocs + 1 } = _
  rw [bind_ok (inodetab_ok hm')]
  show followIndirections ((s.ino n).flags &&& INO_EXTENT_INDIRECTION) (s.ino n).exts _ = _
  rw [show (s.ino n).flags &&& INO_EXTENT_INDIRECTION = 0 from hd]
  rfl

/-! ## Reading a file -/

/-- The extent of file `n` holds its content, and the disk file holds that. -/
structure Readable (s : Fs) (n : Nat) : Prop where
  mapped : s.Mapped n
  direct : (s.ino n).Direct
  held : (s.ino n).filesize ≤ 4096 * (s.ino n).ext.length
  words : 4096 * (s.ino n).ext.length < 2 ^ 64
  offset : (s.ino n).filesize ≠ 0 → 4096 * (s.ino n).ext.startblock < 2 ^ 63
  ends : (s.ino n).filesize ≠ 0 → 4096 * (s.ino n).ext.startblock + (s.ino n).filesize ≤ s.size

theorem readfromextent_ok {ext : Extent} {size : Nat} (ho : 4096 * ext.startblock < 2 ^ 63)
    (he : 4096 * ext.startblock + size ≤ s.size) :
    readfromextent ext 0 size s =
      .ok (slice s.disk (4096 * ext.startblock) size, { s with pos := 4096 * ext.startblock + size }) := by
  have hoff : add64 0 (shl64 ext.startblock 12) = 4096 * ext.startblock := by
    rw [shl64_eq (by omega), add64_eq (by omega), Nat.zero_add]
  have hn : min size (s.size - 4096 * ext.startblock) = size := by omega
  unfold readfromextent
  rw [hoff]
  show read size (if 4096 * ext.startblock < 2 ^ 63 then { s with pos := 4096 * ext.startblock } else s) = _
  rw [if_pos ho]
  show Except.ok (slice s.disk _ (min size (s.size - 4096 * ext.startblock)), _) = _
  rw [hn]

theorem Buf.put_all {b : Buf} {bs : List UInt8} (h : bs.length = b.bytes.length) : b.put 0 bs = .ok ⟨bs, b.behind⟩ := by
  unfold Buf.put
  rw [if_pos (by omega), Nat.zero_add, h, List.drop_length, List.take_zero, List.nil_append, List.append_nil]

theorem readfromextents_ok (buf : Buf) (h : Readable s n) (hb : buf.bytes.length = (s.ino n).filesize) :
    ∃ t, readfromextents (s.ino n).exts buf 0 0 (s.ino n).filesize s = .ok (⟨s.content n, buf.behind⟩, t) ∧
      Quiet s t := by
  by_cases h0 : (s.ino n).filesize = 0
  · have hbuf : (⟨s.content n, buf.behind⟩ : Buf) = buf := by
      have hnil : buf.bytes = [] := List.eq_nil_of_length_eq_zero (hb.trans h0)
      obtain ⟨bytes, behind⟩ := buf
      obtain rfl : bytes = [] := hnil
      show (⟨slice _ _ (s.ino n).filesize, behind⟩ : Buf) = _
      rw [h0]
      rfl
    refine ⟨s, ?_, .refl s⟩
    rw [hbuf, h0]
    unfold Inode.exts
    split <;> rfl
  · have hheld := h.held
    have hl : (s.ino n).ext.length ≠ 0 := by omega
    have hput : buf.put 0 (s.content n) = .ok ⟨s.content n, buf.behind⟩ :=
      Buf.put_all ((length_slice _ _ _).trans hb.symm)
    have hrun : readfromextents (s.ino n).exts buf 0 0 (s.ino n).filesize s =
        .ok (⟨s.content n, buf.behind⟩, { s with pos := 4096 * (s.ino n).ext.startblock + (s.ino n).filesize }) := by
      unfold Inode.exts
      rw [if_neg hl]
      unfold readfromextents
      dsimp only
      rw [if_neg h0, shl64_eq h.words, if_pos (by omega), Nat.sub_zero, min_eq_left hheld,
        bind_ok (readfromextent_ok (h.offset h0) (h.ends h0))]
      exact bind_ok (lift_ok hput)
    exact ⟨_, hrun, rfl, rfl, rfl, rfl, rfl⟩

theorem Quiet.content (h : Quiet s t) (n : Nat) : t.content n = s.content n := by
  unfold Fs.content
  rw [h.ino, h.disk]

theorem Readable.quiet (h : Readable s n) (hq : Quiet s t) : Readable t n := by
  obtain ⟨hm, hd, hh, hw, ho, he⟩ := h
  rw [← hq.mapped] at hm
  rw [← hq.ino] at hd hh hw ho he
  rw [← hq.size] at he
  exact ⟨hm, hd, hh, hw, ho, he⟩

theorem readinode_ok (h : Readable s n) :
    ∃ t, readinode n s = .ok (⟨s.content n, s.junk s.mallocs⟩, t) ∧ Quiet s t := by
  have hs : Quiet s { s with mallocs := s.mallocs + 1 + 1 } := ⟨rfl, rfl, rfl, rfl, rfl⟩
  obtain ⟨t, ht, hq⟩ := readfromextents_ok ⟨slice (s.junk s.mallocs) 0 (s.ino n).filesize, s.junk s.mallocs⟩
    (h.quiet hs) (by rw [length_slice, hs.ino])
  rw [hs.ino, hs.content] at ht
  refine ⟨t, ?_, hs.trans hq⟩
  have hm : Fs.Mapped { s with mallocs := s.mallocs + 1 } n := h.mapped
  unfold readinode
  rw [bind_ok (inodetab_ok h.mapped), bind_ok (malloc_ok _ _), bind_ok (readbottomextents_ok hm h.direct)]
  exact ht

/-! ## Growing in place -/

theorem allocAdjacentSpace_none (location blockcount : Nat) (hm : s.Mapped 4) (hd : (s.ino 4).Direct)
    (hout : location < (s.ino 4).ext.startblock ∨ (s.ino 4).ext.startblock + (s.ino 4).ext.length ≤ location)
    (h0 : 0 < blockcount) (hw : location + blockcount < 2 ^ 64) :
    allocAdjacentSpace location blockcount s = .ok (INVALID_BLOCK, { s with mallocs := s.mallocs + 1 }) := by
  have hnone : (s.ino 4).exts.findIdx? (fun ext =>
      ext.startblock ≤ location ∧ add64 location blockcount ≤ add64 ext.startblock ext.length) = none := by
    refine List.findIdx?_eq_none_iff.mpr fun ext hext => ?_
    unfold Inode.exts at hext
    split at hext
    · exact absurd hext (by simp)
    · obtain rfl := List.mem_singleton.mp hext
      rw [add64_eq hw, decide_eq_false_iff_not]
      rintro ⟨hle, hend⟩
      rcases hout with hlt | hge
      · omega
      · rw [add64_eq (by omega)] at hend
        omega
  unfold allocAdjacentSpace
  rw [bind_ok (readbottomextents_ok hm hd), hnone]
  rfl

/-- Inode `i` with `l` blocks from its first on. -/
def Inode.withLength (i : Inode) (l : Nat) : Inode := { i with ext := ⟨i.ext.startblock, l⟩ }

/-- Inode `i` of a file that `writeinode` made `size` bytes long in place. -/
def Inode.grown (i : Inode) (size : Nat) : Inode :=
  { i.withLength (max i.ext.length ((size + 4095) / 4096)) with filesize := size }

theorem Inode.Wf.withLength {i : Inode} (hi : i.Wf) {l : Nat} (hl : l < 2 ^ 64) : (i.withLength l).Wf :=
  ⟨hi.flags, hi.linkcount, hi.filesize, hi.startblock, hl⟩

theorem Inode.Wf.grown {i : Inode} (hi : i.Wf) (size : Nat) (hs : size < 2 ^ 63) : (i.grown size).Wf := by
  have hl := hi.length
  exact ⟨hi.flags, hi.linkcount, by show size < _; omega, hi.startblock, by show max _ _ < _; omega⟩

theorem Inode.Direct.grown {i : Inode} (h : i.Direct) (size : Nat) : (i.grown size).Direct := h

/-- File `n` lies outside the free extent, and `size` bytes from its first block on can be addressed. -/
structure Writable (s : Fs) (n size : Nat) : Prop where
  mapped : s.Mapped n
  notSystem : (s.ino n).flags &&& INO_SYSTEM = 0
  free : s.Mapped 4 ∧ (s.ino 4).Direct
  outside : (s.ino n).ext.startblock < (s.ino 4).ext.startblock ∨
    (s.ino 4).ext.startblock + (s.ino 4).ext.length ≤ (s.ino n).ext.startblock
  words : 4096 * (s.ino n).ext.length < 2 ^ 63
  offset : 4096 * (s.ino n).ext.startblock + size < 2 ^ 63

theorem splice_splice {m : Nat → UInt8} {a : Nat} {bs cs : List UInt8} (h : bs.length = cs.length) :
    splice (splice m a bs) a cs = splice m a cs := by
  funext b
  unfold splice
  split
  · rfl
  · rw [if_neg (by omega)]

theorem putIno_putIno (s : Fs) (n : Nat) (i j : Inode) : (s.putIno n i).putIno n j = s.putIno n j := by
  unfold Fs.putIno
  dsimp only
  rw [splice_splice (by simp)]

theorem Quiet.putIno (h : Quiet s t) (n : Nat) (i : Inode) : Quiet (s.putIno n i) (t.putIno n i) :=
  ⟨by unfold Fs.putIno; rw [h.disk], h.size, h.maplen, h.junk, h.exhausted⟩

theorem grow_ok {size : Nat} (h : Writable s n size) (hl : 4096 * (s.ino n).ext.length < size) :
    ∃ t, grow n size s = .ok ((), t) ∧ Quiet (s.putIno n ((s.ino n).withLength ((size + 4095) / 4096))) t := by
  have ho := h.offset
  have hstart : (s.ino n).ext.startblock ≠ INVALID_BLOCK := by
    unfold INVALID_BLOCK
    omega
  have hblocks : blocksFor size = (size + 4095) / 4096 := by
    unfold blocksFor
    rw [add64_eq (by omega)]
  have hadded : sub64 (blocksFor size) (s.ino n).ext.length = (size + 4095) / 4096 - (s.ino n).ext.length := by
    rw [hblocks, sub64_eq (by omega) (by omega)]
  have hadj := allocAdjacentSpace_none (s.ino n).ext.startblock ((size + 4095) / 4096 - (s.ino n).ext.length)
    h.free.1 h.free.2 h.outside (by omega) (by omega)
  have hs : Quiet s { s with mallocs := s.mallocs + 1 } := ⟨rfl, rfl, rfl, rfl, rfl⟩
  refine ⟨({ s with mallocs := s.mallocs + 1 } : Fs).putIno n _, ?_, hs.putIno n _⟩
  unfold grow
  rw [bind_ok (inodetab_ok h.mapped)]
  dsimp only
  rw [hadded, if_pos hstart, bind_ok hadj, if_pos (by decide), assign_ok (hs.mapped.mpr h.mapped), hs.ino,
    add64_eq (by omega), Nat.add_sub_cancel' (by omega)]
  rfl

theorem resize_ok {size : Nat} (h : Writable s n size) (h0 : size ≠ 0) :
    ∃ t, resize n size s = .ok ((), t) ∧ Quiet (s.putIno n ((s.ino n).grown size)) t := by
  have hw := h.words
  have ho := h.offset
  have hi := ino_wf s n
  unfold resize
  rw [bind_ok (inodetab_ok h.mapped), if_neg h0, shl64_eq (by omega)]
  by_cases hlt : 4096 * (s.ino n).ext.length < size
  · obtain ⟨t, ht, hq⟩ := grow_ok h hlt
    have hmax : max (s.ino n).ext.length ((size + 4095) / 4096) = (size + 4095) / 4096 := by omega
    rw [if_pos hlt, bind_ok ht]
    refine ⟨_, assign_ok (hq.mapped.mpr h.mapped), ?_⟩
    have hino : t.ino n = (s.ino n).withLength ((size + 4095) / 4096) := by
      rw [hq.ino, ino_putIno_self s n (hi.withLength (by omega))]
    have hput := hq.putIno n ((s.ino n).grown size)
    rw [putIno_putIno] at hput
    rw [hino]
    unfold Inode.grown at hput ⊢
    rw [hmax] at hput ⊢
    exact hput
  · have hmax : max (s.ino n).ext.length ((size + 4095) / 4096) = (s.ino n).ext.length := by omega
    rw [if_neg hlt]
    refine ⟨_, assign_ok h.mapped, ?_⟩
    unfold Inode.grown
    rw [hmax]
    exact .refl _

/-! ## The first blocks of a file -/

/-- The free extent without its first `k` blocks. -/
def Inode.without (i : Inode) (k : Nat) : Inode := { i with ext := ⟨i.ext.startblock + k, i.ext.length - k⟩ }

theorem Inode.Wf.without {i : Inode} (hi : i.Wf) {k : Nat} (hk : i.ext.startblock + k < 2 ^ 64) : (i.without k).Wf :=
  ⟨hi.flags, hi.linkcount, hi.filesize, hk, lt_of_le_of_lt (Nat.sub_le _ _) hi.length⟩

theorem Inode.Direct.without {i : Inode} (h : i.Direct) (k : Nat) : (i.without k).Direct := h

theorem allocSpace_ok {blockcount : Nat} (hm : s.Mapped 4) (hd : (s.ino 4).Direct)
    (hb : blockcount < (s.ino 4).ext.length)
    (hw : (s.ino 4).ext.startblock + (s.ino 4).ext.length < 2 ^ 64) :
    ∃ t, allocSpace blockcount s = .ok ((s.ino 4).ext.startblock, t) ∧
      Quiet (s.putIno 4 ((s.ino 4).without blockcount)) t := by
  have hs : Quiet s { s with mallocs := s.mallocs + 1 } := ⟨rfl, rfl, rfl, rfl, rfl⟩
  have hexts : (s.ino 4).exts = [(s.ino 4).ext] := if_neg (by omega)
  have hfind : [(s.ino 4).ext].findIdx? (fun ext => blockcount ≤ ext.length) = some 0 := by
    rw [List.findIdx?_cons, if_pos (by simp; omega)]
  have htake : (List.takeWhile (fun ext => decide (ext.length ≠ 0))
      ([(s.ino 4).ext].set 0 ((s.ino 4).without blockcount).ext)) = [((s.ino 4).without blockcount).ext] :=
    List.takeWhile_cons_of_pos (decide_eq_true (show (s.ino 4).ext.length - blockcount ≠ 0 by omega))
  have hset : setFileExtents 4 ([(s.ino 4).ext].set 0 ((s.ino 4).without blockcount).ext) =
      assign 4 fun i => { i with ext := ((s.ino 4).without blockcount).ext } := by
    unfold setFileExtents
    rw [htake]
  refine ⟨_, ?_, hs.putIno 4 _⟩
  unfold allocSpace
  rw [bind_ok (readbottomextents_ok hm hd), hexts, hfind]
  show takeFrom [(s.ino 4).ext] 0 blockcount _ = _
  unfold takeFrom
  rw [List.getD_cons_zero, add64_eq (by omega), sub64_eq (ino_wf s 4).length (by omega)]
  show (setFileExtents 4 ([(s.ino 4).ext].set 0 ((s.ino 4).without blockcount).ext) >>= _) _ = _
  rw [hset, bind_ok (assign_ok (hs.mapped.mpr hm)), hs.ino]
  rfl

/-- Inode `i` of a new file of `size` bytes whose blocks start at `b`. -/
def Inode.placed (i : Inode) (b size : Nat) : Inode := { i with filesize := size, ext := ⟨b, (size + 4095) / 4096⟩ }

theorem Inode.Direct.placed {i : Inode} (h : i.Direct) (b size : Nat) : (i.placed b size).Direct := h

/-- File `n` has no blocks yet, and the free extent has enough of them, and one more. -/
structure Fresh (s : Fs) (n size : Nat) : Prop where
  mapped : s.Mapped n
  notSystem : (s.ino n).flags &&& INO_SYSTEM = 0
  empty : (s.ino n).ext = ⟨INVALID_BLOCK, 0⟩
  free : s.Mapped 4 ∧ (s.ino 4).Direct
  enough : (size + 4095) / 4096 < (s.ino 4).ext.length
  words : 4096 * ((s.ino 4).ext.startblock + (s.ino 4).ext.length) < 2 ^ 63

theorem resize_first {size : Nat} (h : Fresh s n size) (h0 : size ≠ 0) (hne : n ≠ 4) :
    ∃ t, resize n size s = .ok ((), t) ∧
      Quiet ((s.putIno 4 ((s.ino 4).without ((size + 4095) / 4096))).putIno n ((s.ino n).placed (s.ino 4).ext.startblock size)) t := by
  have hw := h.words
  have he := h.enough
  have hi := ino_wf s n
  have hblocks : blocksFor size = (size + 4095) / 4096 := by
    unfold blocksFor
    rw [add64_eq (by omega)]
  obtain ⟨u, hu, hq⟩ := allocSpace_ok h.free.1 h.free.2 he (by omega)
  have hm : u.Mapped n := hq.mapped.mpr h.mapped
  have hino : u.ino n = s.ino n := by rw [hq.ino, ino_putIno_of_ne _ _ hne]
  let i : Inode := { s.ino n with ext := ⟨(s.ino 4).ext.startblock, (size + 4095) / 4096⟩ }
  have hi' : i.Wf := ⟨hi.flags, hi.linkcount, hi.filesize, by show (s.ino 4).ext.startblock < _; omega, by
    show (size + 4095) / 4096 < _; omega⟩
  have hgrow : grow n size s = .ok ((), u.putIno n i) := by
    unfold grow
    rw [bind_ok (inodetab_ok h.mapped), h.empty, if_neg (not_not.mpr rfl)]
    show (allocSpace (blocksFor size) >>= fun startblock => assign n fun i =>
      { i with ext := ⟨startblock, blocksFor size⟩ }) s = _
    rw [hblocks, bind_ok hu, assign_ok hm, hino]
  have hm' : (u.putIno n i).Mapped n := hm
  refine ⟨(u.putIno n i).putIno n ((s.ino n).placed (s.ino 4).ext.startblock size), ?_, ?_⟩
  · have hl : shl64 (s.ino n).ext.length 12 = 0 := by
      rw [h.empty]
      rfl
    unfold resize
    rw [bind_ok (inodetab_ok h.mapped), if_neg h0, hl, if_pos (Nat.pos_of_ne_zero h0), bind_ok hgrow]
    refine (assign_ok hm').trans ?_
    rw [ino_putIno_self u n hi']
    rfl
  · rw [putIno_putIno]
    exact hq.putIno n _

/-! ## Writing a file -/

/-- `buffer` was written to file `n`, whose inode is now `i`. -/
structure Stored (s t : Fs) (n : Nat) (i : Inode) (buffer : List UInt8) : Prop where
  disk : t.disk = splice (s.putIno n i).disk (4096 * i.ext.startblock) buffer
  size : t.size = max s.size (4096 * i.ext.startblock + buffer.length)
  maplen : t.maplen = s.maplen
  junk : t.junk = s.junk
  exhausted : t.exhausted = s.exhausted

theorem store_ok {buffer : List UInt8} {i : Inode} (hm : s.Mapped n) (hi : i.Wf)
    (hq : Quiet (u.putIno n i) s) (h0 : buffer ≠ []) (ho : 4096 * i.ext.startblock < 2 ^ 63) :
    ∃ t, store n buffer s = .ok (true, t) ∧ Stored u t n i buffer := by
  have hino : s.ino n = i := by rw [hq.ino, ino_putIno_self u n hi]
  let t : Fs := { s with
    disk := splice s.disk (4096 * i.ext.startblock) buffer
    size := max s.size (4096 * i.ext.startblock + buffer.length)
    pos := 4096 * i.ext.startblock + buffer.length }
  refine ⟨t, ?_, ?_, ?_, hq.maplen, hq.junk, hq.exhausted⟩
  · unfold store
    rw [bind_ok (inodetab_ok hm), hino, shl64_eq (by omega)]
    have hseek : lseek (4096 * i.ext.startblock) s = .ok ((), { s with pos := 4096 * i.ext.startblock }) := by
      show Except.ok ((), if _ then _ else s) = _
      rw [if_pos ho]
    have hwrite : write buffer { s with pos := 4096 * i.ext.startblock } = .ok ((), t) := by
      show Except.ok ((), if _ then _ else _) = _
      rw [if_neg h0]
    rw [bind_ok hseek, bind_ok hwrite]
    rfl
  · show splice s.disk _ buffer = _
    rw [hq.disk]
  · show max s.size _ = _
    rw [hq.size]
    rfl

/-- A file outside the free extent is written, and grows where it is. -/
theorem writeinode_ok (buffer : List UInt8) (h : Writable s n buffer.length) (h0 : buffer ≠ []) :
    ∃ t, writeinode n buffer s = .ok (true, t) ∧ Stored s t n ((s.ino n).grown buffer.length) buffer := by
  have ho := h.offset
  obtain ⟨u, hu, hq⟩ := resize_ok h (fun hl => h0 (List.eq_nil_of_length_eq_zero hl))
  obtain ⟨t, ht, hst⟩ := store_ok (hq.mapped.mpr h.mapped) ((ino_wf s n).grown _ (by omega)) hq h0
    (by show 4096 * (s.ino n).ext.startblock < _; omega)
  refine ⟨t, ?_, hst⟩
  unfold writeinode
  rw [bind_ok (inodetab_ok h.mapped), if_neg (not_not.mpr h.notSystem), bind_ok hu]
  exact ht

/-- A file without blocks gets them from the front of the free extent. -/
theorem writeinode_first (buffer : List UInt8) (h : Fresh s n buffer.length) (h0 : buffer ≠ []) (hne : n ≠ 4) :
    ∃ t, writeinode n buffer s = .ok (true, t) ∧
      Stored (s.putIno 4 ((s.ino 4).without ((buffer.length + 4095) / 4096))) t n
        ((s.ino n).placed (s.ino 4).ext.startblock buffer.length) buffer := by
  have hw := h.words
  have he := h.enough
  have hi := ino_wf s n
  obtain ⟨u, hu, hq⟩ := resize_first h (fun hl => h0 (List.eq_nil_of_length_eq_zero hl)) hne
  have hm : u.Mapped n := hq.mapped.mpr h.mapped
  have hwf : ((s.ino n).placed (s.ino 4).ext.startblock buffer.length).Wf :=
    ⟨hi.flags, hi.linkcount, by show buffer.length < _; omega, by show (s.ino 4).ext.startblock < _; omega, by
      show (buffer.length + 4095) / 4096 < _; omega⟩
  obtain ⟨t, ht, hst⟩ := store_ok hm hwf hq h0 (by show 4096 * (s.ino 4).ext.startblock < _; omega)
  refine ⟨t, ?_, hst⟩
  unfold writeinode
  rw [bind_ok (inodetab_ok h.mapped), if_neg (not_not.mpr h.notSystem), bind_ok hu]
  exact ht

theorem Writable.quiet {size : Nat} (h : Writable s n size) (hq : Quiet s t) : Writable t n size := by
  obtain ⟨hm, hs, hf, ho, hw, he⟩ := h
  rw [← hq.ino] at hs ho hw he
  rw [← hq.ino 4] at hf ho
  rw [← hq.mapped] at hm hf
  exact ⟨hm, hs, hf, ho, hw, he⟩

theorem Stored.of_quiet {i : Inode} {buffer : List UInt8} (h : Stored t u n i buffer) (hq : Quiet s t) :
    Stored s u n i buffer := by
  refine ⟨?_, by rw [h.size, hq.size], h.maplen.trans hq.maplen, h.junk.trans hq.junk, h.exhausted.trans hq.exhausted⟩
  rw [h.disk, (hq.putIno n i).disk]

/-! ## What a write leaves alone -/

/-- The first byte behind the mapped pages of the inode table. -/
def Fs.tableEnd (s : Fs) : Nat := 0x9000 + (s.maplen + 4095) / 4096 * 4096

theorem Fs.Mapped.addr_le (h : s.Mapped n) : inodeAddr n + 32 ≤ s.tableEnd := by
  unfold Fs.Mapped at h
  unfold inodeAddr Fs.tableEnd
  omega

namespace Stored

variable {i : Inode} {buffer : List UInt8}

theorem mapped (h : Stored s t n i buffer) : t.Mapped k ↔ s.Mapped k := by
  unfold Fs.Mapped
  rw [h.maplen]

theorem tableEnd (h : Stored s t n i buffer) : t.tableEnd = s.tableEnd := by
  unfold Fs.tableEnd
  rw [h.maplen]

theorem ino_eq (h : Stored s t n i buffer) (hm : s.Mapped k) (ht : s.tableEnd ≤ 4096 * i.ext.startblock) :
    t.ino k = (s.putIno n i).ino k := by
  have ha := hm.addr_le
  unfold Fs.ino
  rw [h.disk]
  exact decode_splice_of_disjoint (.inl (by omega))

theorem ino_self (h : Stored s t n i buffer) (hm : s.Mapped n) (ht : s.tableEnd ≤ 4096 * i.ext.startblock) (hi : i.Wf) :
    t.ino n = i := by
  rw [h.ino_eq hm ht, ino_putIno_self s n hi]

theorem ino_of_ne (h : Stored s t n i buffer) (hm : s.Mapped k) (ht : s.tableEnd ≤ 4096 * i.ext.startblock)
    (hne : k ≠ n) : t.ino k = s.ino k := by
  rw [h.ino_eq hm ht, ino_putIno_of_ne s i hne]

theorem content_self (h : Stored s t n i buffer) (hm : s.Mapped n) (ht : s.tableEnd ≤ 4096 * i.ext.startblock)
    (hi : i.Wf) (hl : i.filesize = buffer.length) : t.content n = buffer := by
  unfold Fs.content
  rw [h.ino_self hm ht hi, h.disk, hl]
  exact slice_splice _ _ _

end Stored

/-- A change of an inode that leaves the size and the blocks of the file. -/
theorem content_putIno {i : Inode} (hm : s.Mapped n) (hi : i.Wf) (he : i.ext = (s.ino n).ext)
    (hf : i.filesize = (s.ino n).filesize) (ht : s.tableEnd ≤ 4096 * (s.ino n).ext.startblock) :
    (s.putIno n i).content n = s.content n := by
  have ha := hm.addr_le
  unfold Fs.content
  rw [ino_putIno_self s n hi, he, hf]
  exact slice_splice_of_disjoint (.inr (by rw [length_encode]; omega))

end Rodvin.Starfs
