/-
  Rodvin.Starfs.Failures — operations that cannot succeed.

  A lookup only reads (`isQuiet_getinode`), and so does an `add_to_dir` that refuses the
  name (`addToDir_refused`). But `create` and `mkdir` have taken an inode by then, and
  giving it back does nothing; `write` never reports a failure. Its result, the size as an
  `int`, is negative by accident from 2 GiB on. So a call that cannot succeed fails and leaves
  the volume as it was only if it is such a write to a system file (`fails_atomically_when`).
-/

import Rodvin.Starfs.Operations
import Rodvin.Starfs.VolumeProofs

namespace Rodvin.Starfs

open Rodvin.Lib

variable {s t : Fs} {n : Nat}

/-! ## Calls -/

inductive Call where
  | create (path : Path)
  | mkdir (path : Path)
  | write (path : Path) (buf : List UInt8) (offset : Nat)

def Call.run : Call → Fuse Int
  | create path => do
    let r ← Starfs.create path
    return r.1
  | mkdir path => Starfs.mkdir path
  | write path buf offset => writeFile path buf offset

/-- The name that the call is to enter exists, or the directory for it does not. -/
def NameTrouble (s : Fs) (path : Path) : Prop :=
  ∃ npath name, splitLast path = some (npath, name) ∧ ∃ parent t, getinode npath s = .ok (parent, t) ∧
    (parent = INVALID_INODE ∨ ∃ ino u, findInDir parent name t = .ok (ino, u) ∧ ino ≠ INVALID_INODE)

def NoFreeInode (s : Fs) : Prop := ∀ n < (s.ino 2).filesize / 32, (s.ino n).linkcount ≠ 0

/-- The file has to grow to a size for which the free extent has not enough blocks. -/
def NoSpace (s : Fs) (path : Path) (newsize : Nat) : Prop :=
  ∃ ino t, getinode path s = .ok (ino, t) ∧ (s.ino ino).filesize < newsize ∧
    (s.ino ino).ext.length * 4096 < newsize ∧ (s.ino 4).ext.length < blocksFor newsize

def CannotSucceed (s : Fs) : Call → Prop
  | .create path => NameTrouble s path ∨ NoFreeInode s
  | .mkdir path => NameTrouble s path ∨ NoFreeInode s ∨ (s.ino 4).ext.length = 0
  | .write path buf offset => NoSpace s path (buf.length + offset)

/-- The bytes of a file, directory or table. -/
def Fs.content (s : Fs) (n : Nat) : List UInt8 := slice s.disk (4096 * (s.ino n).ext.startblock) (s.ino n).filesize

/-- The inode table, with it the free extent, and all contents. -/
structure Unchanged (s t : Fs) : Prop where
  inode : ∀ n, s.Mapped n → t.ino n = s.ino n
  content : ∀ n, s.Mapped n → t.content n = s.content n

/-- The call reports an error, and nothing has changed. -/
def FailsAtomically (s : Fs) (c : Call) : Prop := ∃ r t, c.run s = .ok (r, t) ∧ r < 0 ∧ Unchanged s t

/-- Past the end of a system file, which `writeinode` refuses, with a size that is negative as an `int`. -/
def Refused (s : Fs) (c : Call) : Prop :=
  ∃ path buf offset, c = .write path buf offset ∧ 2 ^ 31 ≤ buf.length % 2 ^ 32 ∧ buf.length + offset < 2 ^ 64 ∧
    ∃ n t b u, getinode path s = .ok (n, t) ∧ readinode n t = .ok (b, u) ∧ (s.ino n).flags &&& INO_SYSTEM ≠ 0 ∧
      (s.ino n).filesize < buf.length + offset

/-- Such a size, and the place that it is written to lies before or in the file's own inode: the bytes
    that come there can be the ones that were there. -/
def OverItself (s : Fs) (c : Call) : Prop :=
  ∃ path buf offset, c = .write path buf offset ∧ 2 ^ 31 ≤ buf.length % 2 ^ 32 ∧
    ∃ n t u v, getinode path s = .ok (n, t) ∧ (s.ino n).flags &&& INO_SYSTEM = 0 ∧
      Quiet s u ∧ resize n (buf.length + offset) u = .ok ((), v) ∧
      ∃ p, (p = shl64 (v.ino n).ext.startblock 12 ∨ p = v.pos) ∧
        p < inodeAddr n + 32 ∧ inodeAddr n < p + (buf.length + offset)

/-! ## Lookups -/

theorem isQuiet_findInDir (ino : Nat) (name : Name) : IsQuiet (findInDir ino name) := by
  refine .bind (isQuiet_inodetab ino) fun i => ?_
  split
  · exact .pure _
  · refine .bind (isQuiet_readinode ino) fun buffer => ?_
    split
    · exact .pure _
    · exact .pure _

theorem isQuiet_resolve (ino : Nat) (acc : Name) (p : Path) : IsQuiet (resolve ino acc p) := by
  induction p generalizing ino acc with
  | nil =>
    unfold resolve
    split
    · exact .pure _
    · exact isQuiet_findInDir _ _
  | cons x xs ih =>
    unfold resolve
    split
    · refine .bind (isQuiet_findInDir _ _) fun ino => ?_
      split
      · exact .pure _
      · exact ih _ _
    · exact ih _ _

theorem isQuiet_getinode (path : Path) : IsQuiet (getinode path) := by
  cases path with
  | nil => exact .pure 3
  | cons x p => exact isQuiet_resolve 3 [] p

theorem isQuiet_getparentinode (path : Path) : IsQuiet (getparentinode path) := by
  unfold getparentinode
  split
  · exact isQuiet_getinode _
  · exact .halt _

theorem isQuiet_lastName (path : Path) : IsQuiet (lastName path) := by
  unfold lastName
  split
  · exact .pure _
  · exact .halt _

theorem lastName_eq_ok {path : Path} {name : Name} (h : lastName path s = .ok (name, t)) :
    s = t ∧ ∃ npath, splitLast path = some (npath, name) := by
  unfold lastName at h
  cases hs : splitLast path with
  | none =>
    rw [hs] at h
    exact nomatch h
  | some p =>
    rw [hs] at h
    obtain ⟨rfl, rfl⟩ := pure_eq_ok.mp h
    exact ⟨rfl, p.1, rfl⟩

/-- `add_to_dir` writes nothing when it refuses the name. -/
theorem addToDir_refused {ino newino : Nat} {name : Name} (h : addToDir ino name newino s = .ok (false, t)) :
    Quiet s t := by
  obtain ⟨i, s1, h1, h⟩ := bind_eq_ok.mp h
  refine (isQuiet_inodetab ino).quiet h1 |>.trans ?_
  split at h
  · obtain ⟨-, rfl⟩ := pure_eq_ok.mp h
    exact .refl _
  obtain ⟨buffer, s2, h2, h⟩ := bind_eq_ok.mp h
  refine (isQuiet_readinode ino).quiet h2 |>.trans ?_
  split at h
  · obtain ⟨-, rfl⟩ := pure_eq_ok.mp h
    exact .refl _
  cases hs : seekEntry buffer name (entrycount buffer) 8 with
  | some o =>
    rw [hs] at h
    obtain ⟨-, rfl⟩ := pure_eq_ok.mp h
    exact .refl _
  | none =>
    rw [hs] at h
    obtain ⟨b1, s3, -, h⟩ := bind_eq_ok.mp h
    obtain ⟨b2, s4, -, h⟩ := bind_eq_ok.mp h
    obtain ⟨b3, s5, -, h⟩ := bind_eq_ok.mp h
    obtain ⟨b4, s6, -, h⟩ := bind_eq_ok.mp h
    exact nomatch (pure_eq_ok.mp h).1

theorem freeInode_mapped (h : freeInode n s = .ok ((), t)) : s.Mapped n := by
  obtain ⟨exts, s1, h1, -⟩ := bind_eq_ok.mp h
  obtain ⟨b, s2, h2, h1⟩ := bind_eq_ok.mp h1
  obtain ⟨i, s3, h3, -⟩ := bind_eq_ok.mp h1
  obtain ⟨-, rfl⟩ := malloc_eq_ok.mp h2
  exact (inodetab_eq_ok.mp h3).1

/-- The table is mapped with a 64-bit length, so it has no inode of that number. -/
theorem not_mapped_invalid (hs : s.maplen < 2 ^ 64) : ¬ s.Mapped INVALID_INODE := by
  unfold Fs.Mapped INVALID_INODE
  omega

/-! ## Failing calls -/

/-- The way `create` and `mkdir` fail: an inode was taken and is not given back. -/
theorem refused_changes_table {path : Path} {s1 s2 s3 s4 u : Fs} {ino newino : Nat} {name : Name}
    (hs : s.maplen < 2 ^ 64) (h1 : getparentinode path s = .ok (ino, s1)) (h2 : allocInode s1 = .ok (newino, s2))
    (h3 : lastName path s2 = .ok (name, s3)) (h4 : addToDir ino name newino s3 = .ok (false, s4))
    (h5 : freeInode newino s4 = .ok ((), u)) : ¬ Unchanged s u := by
  intro hu
  have q1 := (isQuiet_getparentinode path).quiet h1
  have q3 := (isQuiet_lastName path).quiet h3
  have q4 := addToDir_refused h4
  have q5 := (isQuiet_freeInode newino).quiet h5
  have q := (q3.trans q4).trans q5
  rcases allocInode_eq_ok h2 with ⟨hm, -, h0, rfl⟩ | ⟨rfl, rfl⟩
  · have hi := hu.inode newino (q1.mapped.mp hm)
    rw [q.ino, ino_putIno_self _ _ newInode_wf, ← q1.ino] at hi
    rw [← hi] at h0
    exact absurd h0 (by decide)
  · refine not_mapped_invalid (s := s4) ?_ (freeInode_mapped h5)
    rw [q4.maplen, q3.maplen]
    exact lt_of_eq_of_lt q1.maplen hs

theorem run_create {path : Path} {r : Int} (h : (Call.create path).run s = .ok (r, t)) :
    ∃ o, Starfs.create path s = .ok ((r, o), t) := by
  have hb : (Starfs.create path >>= fun p => (pure p.1 : Fuse Int)) s = .ok (r, t) := h
  obtain ⟨⟨r', o⟩, t', hc, hp⟩ := bind_eq_ok.mp hb
  obtain ⟨rfl, rfl⟩ := pure_eq_ok.mp hp
  exact ⟨o, hc⟩

theorem create_not_atomic (hs : s.maplen < 2 ^ 64) (path : Path) : ¬ FailsAtomically s (.create path) := by
  rintro ⟨r, u, h, hr, hu⟩
  obtain ⟨o, h⟩ := run_create h
  obtain ⟨ino, s1, h1, h⟩ := bind_eq_ok.mp h
  obtain ⟨newino, s2, h2, h⟩ := bind_eq_ok.mp h
  obtain ⟨name, s3, h3, h⟩ := bind_eq_ok.mp h
  obtain ⟨b, s4, h4, h⟩ := bind_eq_ok.mp h
  cases b with
  | false =>
    obtain ⟨⟨⟩, s5, h5, h⟩ := bind_eq_ok.mp h
    obtain ⟨-, rfl⟩ := pure_eq_ok.mp h
    exact refused_changes_table hs h1 h2 h3 h4 h5 hu
  | true =>
    obtain ⟨⟨⟩, s5, -, h⟩ := bind_eq_ok.mp h
    obtain ⟨e, -⟩ := pure_eq_ok.mp h
    obtain ⟨rfl, -⟩ := Prod.mk.inj e
    exact absurd hr (by decide)

theorem mkdir_not_atomic (hs : s.maplen < 2 ^ 64) (path : Path) : ¬ FailsAtomically s (.mkdir path) := by
  rintro ⟨r, u, h, hr, hu⟩
  obtain ⟨ino, s1, h1, h⟩ := bind_eq_ok.mp h
  obtain ⟨newino, s2, h2, h⟩ := bind_eq_ok.mp h
  obtain ⟨name, s3, h3, h⟩ := bind_eq_ok.mp h
  obtain ⟨b, s4, h4, h⟩ := bind_eq_ok.mp h
  cases b with
  | false =>
    obtain ⟨⟨⟩, s5, h5, h⟩ := bind_eq_ok.mp h
    obtain ⟨-, rfl⟩ := pure_eq_ok.mp h
    exact refused_changes_table hs h1 h2 h3 h4 h5 hu
  | true =>
    obtain ⟨⟨⟩, s5, -, h⟩ := bind_eq_ok.mp h
    obtain ⟨w, s6, -, h⟩ := bind_eq_ok.mp h
    obtain ⟨rfl, -⟩ := pure_eq_ok.mp h
    exact absurd hr (by decide)

theorem bmod_neg_iff {k : Nat} : Int.bmod k (2 ^ 32) < 0 ↔ 2 ^ 31 ≤ k % 2 ^ 32 := by
  rw [Int.bmod_def]
  omega

theorem quiet_readinode {b : Buf} {path : Path} {s1 s2 : Fs} (h1 : getinode path s = .ok (n, s1))
    (h2 : readinode n s1 = .ok (b, s2)) : Quiet s s2 ∧ s.Mapped n ∧ b.bytes.length = (s.ino n).filesize := by
  have q1 := (isQuiet_getinode path).quiet h1
  have hlen := length_readinode h2
  rw [q1.ino] at hlen
  obtain ⟨x, s', hx, -⟩ := bind_eq_ok.mp h2
  exact ⟨q1.trans ((isQuiet_readinode n).quiet h2), q1.mapped.mp (inodetab_eq_ok.mp hx).1, hlen⟩

theorem writeBuffer_eq_ok {b c : Buf} {filesize newsize : Nat} (hb : b.bytes.length = filesize)
    (h : writeBuffer b filesize newsize s = .ok (c, t)) : Quiet s t ∧ c.bytes.length = max filesize newsize := by
  unfold writeBuffer at h
  split at h
  · obtain ⟨x, s', hx, hc⟩ := bind_eq_ok.mp h
    obtain ⟨hblock, rfl⟩ := malloc_eq_ok.mp hx
    obtain ⟨hput, rfl⟩ := lift_eq_ok.mp hc
    have hlen := length_put hput
    rw [← hblock, length_slice] at hlen
    exact ⟨⟨rfl, rfl, rfl, rfl, rfl⟩, by omega⟩
  · obtain ⟨rfl, rfl⟩ := pure_eq_ok.mp h
    exact ⟨.refl _, by omega⟩

/-- A write that makes the file longer, up to its call of `writeinode`. -/
theorem writeFile_grown {path : Path} {buf : List UInt8} {offset : Nat} {r : Int} {s1 : Fs}
    (h : writeFile path buf offset s = .ok (r, t)) (h1 : getinode path s = .ok (n, s1))
    (hgrow : (s.ino n).filesize < buf.length + offset) :
    r = Int.bmod buf.length (2 ^ 32) ∧ buf.length + offset < 2 ^ 64 ∧ s.Mapped n ∧
      (∃ b u, readinode n s1 = .ok (b, u)) ∧
      ∃ bytes u w, Quiet s u ∧ bytes.length = buf.length + offset ∧ writeinode n bytes u = .ok (w, t) := by
  obtain ⟨ino, s1', h1', h⟩ := bind_eq_ok.mp h
  obtain ⟨rfl, rfl⟩ := Prod.mk.inj (Except.ok.inj (h1'.symm.trans h1))
  obtain ⟨b, s2, h2, h⟩ := bind_eq_ok.mp h
  obtain ⟨q2, hm, hlen⟩ := quiet_readinode h1 h2
  obtain ⟨i, s3, h3, h⟩ := bind_eq_ok.mp h
  obtain ⟨-, hi, rfl⟩ := inodetab_eq_ok.mp h3
  obtain ⟨c, s4, h4, h⟩ := bind_eq_ok.mp h
  obtain ⟨d, s5, h5, h⟩ := bind_eq_ok.mp h
  obtain ⟨hput, rfl⟩ := lift_eq_ok.mp h5
  obtain ⟨w, s6, h6, h⟩ := bind_eq_ok.mp h
  obtain ⟨rfl, rfl⟩ := pure_eq_ok.mp h
  rw [q2.ino] at hi
  rw [← hi] at h4
  obtain ⟨hq, hclen⟩ := writeBuffer_eq_ok hlen h4
  have hin : offset + buf.length ≤ c.bytes.length := by
    by_contra hout
    have hfault : c.put offset buf = .error .fault := if_neg hout
    rw [hfault] at hput
    exact nomatch hput
  have hsum : add64 buf.length offset = (buf.length + offset) % 2 ^ 64 := rfl
  exact ⟨rfl, by omega, hm, ⟨b, s2, h2⟩, d.bytes, s4, w, q2.trans hq, by rw [length_put hput]; omega, h6⟩

/-- Such a size makes `starfs_write` return a negative number, and `writeinode` writes nothing. -/
theorem refused_is_atomic {c : Call} (h : Refused s c) : FailsAtomically s c := by
  obtain ⟨path, buf, offset, rfl, hneg, hsum, n, s1, b, s2, h1, h2, hsystem, hgrow⟩ := h
  obtain ⟨q2, hm, hlen⟩ := quiet_readinode h1 h2
  have hsize : max (s2.ino n).filesize (add64 buf.length offset) = buf.length + offset := by
    rw [q2.ino]
    have : add64 buf.length offset = (buf.length + offset) % 2 ^ 64 := rfl
    omega
  have hfirst : ∃ c, (⟨slice (s2.junk s2.mallocs) 0 (buf.length + offset), s2.junk s2.mallocs⟩ : Buf).put 0 b.bytes = .ok c :=
    ⟨_, if_pos (by rw [length_slice]; omega)⟩
  obtain ⟨c, hc⟩ := hfirst
  have hclen := length_put hc
  rw [length_slice] at hclen
  have hsecond : ∃ d, c.put offset buf = .ok d := ⟨_, if_pos (by omega)⟩
  obtain ⟨d, hd⟩ := hsecond
  have q3 : Quiet s { s2 with mallocs := s2.mallocs + 1 } := q2.trans ⟨rfl, rfl, rfl, rfl, rfl⟩
  have hwrite : writeinode n d.bytes { s2 with mallocs := s2.mallocs + 1 } =
      .ok (false, { s2 with mallocs := s2.mallocs + 1 }) := by
    refine bind_eq_ok.mpr ⟨_, _, inodetab_eq_ok.mpr ⟨q3.mapped.mpr hm, rfl, rfl⟩, ?_⟩
    rw [q3.ino, if_pos hsystem, if_pos (by rw [length_put hd, hclen]; exact hgrow)]
    rfl
  have hbuffer : writeBuffer b (s2.ino n).filesize (max (s2.ino n).filesize (add64 buf.length offset)) s2 =
      .ok (c, { s2 with mallocs := s2.mallocs + 1 }) := by
    unfold writeBuffer
    rw [hsize, if_pos (by rw [q2.ino]; exact hgrow)]
    exact bind_eq_ok.mpr ⟨_, _, malloc_eq_ok.mpr ⟨rfl, rfl⟩, lift_eq_ok.mpr ⟨hc, rfl⟩⟩
  refine ⟨_, _, bind_eq_ok.mpr ⟨n, s1, h1, bind_eq_ok.mpr ⟨b, s2, h2, bind_eq_ok.mpr ⟨_, _, inodetab_eq_ok.mpr
    ⟨q2.mapped.mpr hm, rfl, rfl⟩, bind_eq_ok.mpr ⟨c, _, hbuffer, bind_eq_ok.mpr ⟨d, _, lift_eq_ok.mpr ⟨hd, rfl⟩,
    bind_eq_ok.mpr ⟨_, _, hwrite, rfl⟩⟩⟩⟩⟩⟩, bmod_neg_iff.mpr hneg, ?_, ?_⟩
  · exact fun k _ => q3.ino k
  · intro k _
    unfold Fs.content
    rw [q3.ino, q3.disk]

theorem stored_where {bytes : List UInt8} {b : Bool} (h : store n bytes s = .ok (b, t)) :
    ∃ p, (p = shl64 (s.ino n).ext.startblock 12 ∨ p = s.pos) ∧
      ∀ {k}, inodeAddr k + 32 ≤ p ∨ p + bytes.length ≤ inodeAddr k → t.ino k = s.ino k := by
  obtain ⟨x, s', hx, h⟩ := bind_eq_ok.mp h
  obtain ⟨-, rfl, rfl⟩ := inodetab_eq_ok.mp hx
  obtain ⟨⟨⟩, s1, hseek, h⟩ := bind_eq_ok.mp h
  obtain ⟨⟨⟩, s2, hwrite, h⟩ := bind_eq_ok.mp h
  obtain ⟨-, rfl⟩ := pure_eq_ok.mp h
  have hpos : (s1.pos = shl64 (s.ino n).ext.startblock 12 ∨ s1.pos = s.pos) ∧ s1.disk = s.disk := by
    obtain ⟨-, rfl⟩ := Prod.mk.inj (Except.ok.inj hseek)
    split
    · exact ⟨.inl rfl, rfl⟩
    · exact ⟨.inr rfl, rfl⟩
  refine ⟨s1.pos, hpos.1, fun {k} hk => ?_⟩
  obtain ⟨-, rfl⟩ := Prod.mk.inj (Except.ok.inj hwrite)
  unfold Fs.ino
  split
  · rw [hpos.2]
  · rw [decode_splice_of_disjoint hk, hpos.2]

/-- The file has its new size, unless the bytes have been written over its inode. -/
theorem resized_filesize {bytes : List UInt8} {b : Bool} {u : Fs} (hsize : bytes.length < 2 ^ 64)
    (hflags : (u.ino n).flags &&& INO_SYSTEM = 0) (h : writeinode n bytes u = .ok (b, t)) :
    ∃ v, resize n bytes.length u = .ok ((), v) ∧ ((t.ino n).filesize = bytes.length ∨
      ∃ p, (p = shl64 (v.ino n).ext.startblock 12 ∨ p = v.pos) ∧ p < inodeAddr n + 32 ∧
        inodeAddr n < p + bytes.length) := by
  obtain ⟨i, u', hi, h⟩ := bind_eq_ok.mp h
  obtain ⟨hm, rfl, rfl⟩ := inodetab_eq_ok.mp hi
  rw [if_neg (not_not.mpr hflags)] at h
  obtain ⟨⟨⟩, v, hv, h⟩ := bind_eq_ok.mp h
  refine ⟨v, hv, ?_⟩
  have hlast : ∃ u2, assign n (fun i => { i with filesize := bytes.length }) u2 = .ok ((), v) := by
    obtain ⟨x, u1, -, hv⟩ := bind_eq_ok.mp hv
    split at hv
    · split at hv
      · obtain ⟨⟨⟩, u2, -, hlast⟩ := bind_eq_ok.mp hv
        exact ⟨u2, hlast⟩
      · exact ⟨u1, hv⟩
    · split at hv
      · obtain ⟨⟨⟩, u2, -, hlast⟩ := bind_eq_ok.mp hv
        exact ⟨u2, hlast⟩
      · exact ⟨u1, hv⟩
  have hfilesize : (v.ino n).filesize = bytes.length := by
    obtain ⟨u2, hlast⟩ := hlast
    obtain ⟨-, rfl⟩ := assign_eq_ok.mp hlast
    have hw := ino_wf u2 n
    have hwf : Inode.Wf { u2.ino n with filesize := bytes.length } :=
      ⟨hw.flags, hw.linkcount, hsize, hw.startblock, hw.length⟩
    rw [ino_putIno_self _ _ hwf]
  obtain ⟨p, hp, hkept⟩ := stored_where h
  by_cases hover : p < inodeAddr n + 32 ∧ inodeAddr n < p + bytes.length
  · exact .inr ⟨p, hp, hover⟩
  · exact .inl ((congrArg Inode.filesize (hkept (by omega))).trans hfilesize)

/-- The way `write` fails: it is refused for a system file, and any other file has its new size. -/
theorem write_not_atomic {path : Path} {buf : List UInt8} {offset : Nat}
    (hspace : NoSpace s path (buf.length + offset)) (h : FailsAtomically s (.write path buf offset)) :
    Refused s (.write path buf offset) ∨ OverItself s (.write path buf offset) := by
  obtain ⟨n, s1, h1, hgrow, -⟩ := hspace
  obtain ⟨r, t, hrun, hr, hu⟩ := h
  obtain ⟨hres, hsum, hm, ⟨b, u, h2⟩, bytes, v, w, hq, hlen, hwrite⟩ := writeFile_grown hrun h1 hgrow
  rw [hres] at hr
  have hneg := bmod_neg_iff.mp hr
  by_cases hsystem : (s.ino n).flags &&& INO_SYSTEM = 0
  · refine .inr ⟨path, buf, offset, rfl, hneg, n, s1, v, ?_⟩
    obtain ⟨x, hresize, hstored⟩ := resized_filesize (by omega) (by rw [hq.ino]; exact hsystem) hwrite
    rw [hlen] at hresize hstored
    refine ⟨x, h1, hsystem, hq, hresize, hstored.resolve_left fun hnew => ?_⟩
    rw [hu.inode n hm] at hnew
    omega
  · exact .inl ⟨path, buf, offset, rfl, hneg, hsum, n, s1, b, u, h1, h2, hsystem, hgrow⟩

/-- A call that cannot succeed fails and leaves the volume as it was if it is refused for its size,
    and otherwise only if its bytes happen to put the inode back. -/
theorem fails_atomically_when (hs : s.maplen < 2 ^ 64) {c : Call} (hc : CannotSucceed s c) :
    (Refused s c → FailsAtomically s c) ∧ (FailsAtomically s c → Refused s c ∨ OverItself s c) := by
  refine ⟨refused_is_atomic, fun h => ?_⟩
  cases c with
  | create path => exact absurd h (create_not_atomic hs path)
  | mkdir path => exact absurd h (mkdir_not_atomic hs path)
  | write path buf offset => exact write_not_atomic hc h

/-- A new volume of 1 MiB. -/
def fresh : Fs := ⟨(mkfs (created (2 ^ 20)) (2 ^ 20)).disk, 2 ^ 20, 0x9000, 2048, fun _ _ => 0, 0, false⟩

/-- `"/$header"` -/
def headerPath : Path := slash :: headerName

/-- `"/$badblocks"` -/
def badPath : Path := slash :: badblocksName

theorem bad_is_read : ∃ t b u, getinode badPath fresh = .ok (5, t) ∧ readinode 5 t = .ok (b, u) ∧
    fresh.ino 5 = badInode ∧ fresh.ino 4 = freeInode4 (2 ^ 20) := by
  have h : (((getinode badPath >>= fun n => readinode n >>= fun _ => pure n) fresh).toOption.map Prod.fst, fresh.ino 5,
      fresh.ino 4) = (some 5, badInode, freeInode4 (2 ^ 20)) := by decide +kernel
  obtain ⟨hrun, hbad⟩ := Prod.mk.inj h
  cases hr : (getinode badPath >>= fun n => readinode n >>= fun _ => pure n) fresh with
  | error e =>
    rw [hr] at hrun
    exact nomatch hrun
  | ok r =>
    rw [hr] at hrun
    obtain ⟨n, t, h1, hr⟩ := bind_eq_ok.mp hr
    obtain ⟨b, u, h2, hr⟩ := bind_eq_ok.mp hr
    obtain rfl := Except.ok.inj hr
    obtain rfl := Option.some.inj hrun
    exact ⟨t, b, u, h1, h2, Prod.mk.inj hbad⟩

/-- 4 GiB less two bytes for a system file come back as `-2`, and nothing has changed. -/
theorem fails_atomically_when_fresh : FailsAtomically fresh (.write badPath (List.replicate (2 ^ 32 - 2) 0) 0) := by
  obtain ⟨t, b, u, h1, h2, hbad, hfree⟩ := bad_is_read
  have hlen : (List.replicate (2 ^ 32 - 2) (0 : UInt8)).length = 2 ^ 32 - 2 := List.length_replicate
  generalize List.replicate (2 ^ 32 - 2) (0 : UInt8) = buf at hlen
  have hspace : CannotSucceed fresh (.write badPath buf 0) := by
    refine ⟨5, t, h1, ?_⟩
    rw [hbad, hfree, hlen]
    decide
  refine (fails_atomically_when (by decide) hspace).1 ⟨badPath, buf, 0, rfl, ?_, ?_, 5, t, b, u, h1, h2, ?_⟩
  · rw [hlen]
    decide
  · rw [hlen]
    decide
  · rw [hbad, hlen]
    decide

/-! ## The image of `mkfs_starfs` -/

theorem fresh_mounted : mount (mkfs (created (2 ^ 20)) (2 ^ 20)) (fun _ _ => 0) = some fresh := by
  have hsig : leAt (mkfs (created (2 ^ 20)) (2 ^ 20)).disk 0x8000 8 = STARFS_SIGNATURE := by decide +kernel
  have hlen : (decode (mkfs (created (2 ^ 20)) (2 ^ 20)).disk (0x9000 + 32 * 2)).filesize = 2048 := by decide +kernel
  have hsize : (mkfs (created (2 ^ 20)) (2 ^ 20)).size = 2 ^ 20 := by decide +kernel
  unfold mount
  rw [if_neg (not_not.mpr hsig), hlen, hsize]
  rfl

theorem header_is_there : ∃ u, findInDir 3 headerName fresh = .ok (1, u) := by
  have h : (findInDir 3 headerName fresh).toOption.map Prod.fst = some 1 := by decide +kernel
  cases hf : findInDir 3 headerName fresh with
  | error e => simp [hf, Except.toOption] at h
  | ok r =>
    rw [hf] at h
    obtain ⟨ino, u⟩ := r
    cases h
    exact ⟨u, rfl⟩

/-- The name is refused, and inode 6 keeps the link count that `alloc_inode` gave it. -/
theorem create_existing_takes_an_inode :
    ∃ s, mount (mkfs (created (2 ^ 20)) (2 ^ 20)) (fun _ _ => 0) = some s ∧
      CannotSucceed s (.create headerPath) ∧ ¬ FailsAtomically s (.create headerPath) := by
  obtain ⟨u, hu⟩ := header_is_there
  refine ⟨fresh, fresh_mounted, .inl ?_, create_not_atomic (by decide) _⟩
  exact ⟨[], headerName, by decide, 3, fresh, rfl, .inr ⟨1, u, hu, by decide⟩⟩

end Rodvin.Starfs
