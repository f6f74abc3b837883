/-
  Rodvin.Starfs.VolumeProofs — what the functions of a volume read and change.

  An inode is read back as it was stored (`ino_putIno_self`), stores elsewhere leave it
  (`ino_putIno_of_ne`, `decode_splice_of_disjoint`). A computation that only reads is
  `IsQuiet`: it may move the position of `fd` and allocate memory.
-/

import Rodvin.Starfs.Volume

namespace Rodvin.Starfs

open Rodvin.Lib

/-! ## Inodes as bytes -/

/-- The fields fit their types. -/
structure Inode.Wf (i : Inode) : Prop where
  flags : i.flags < 2 ^ 32
  linkcount : i.linkcount < 2 ^ 32
  filesize : i.filesize < 2 ^ 64
  startblock : i.ext.startblock < 2 ^ 64
  length : i.ext.length < 2 ^ 64

variable {m m' : Nat → UInt8} {a b n k v : Nat} {i : Inode} {bs : List UInt8}

@[simp] theorem length_encode (i : Inode) : (encode i).length = 32 := by simp [encode, encodeExtent]

theorem leAt_lt (m : Nat → UInt8) (a n : Nat) : leAt m a n < 256 ^ n := by
  have := ofLE_lt (slice m a n)
  rwa [length_slice] at this

theorem leAt_of_slice (h : slice m a n = le n v) (hv : v < 256 ^ n) : leAt m a n = v := by
  unfold leAt
  rw [h, ofLE_le, Nat.mod_eq_of_lt hv]

theorem decode_of_slice (h : slice m a 32 = encode i) (hi : i.Wf) : decode m a = i := by
  obtain ⟨h0, h⟩ := slice_append h (length_le 4 _)
  obtain ⟨h1, h⟩ := slice_append h (length_le 4 _)
  obtain ⟨h2, h⟩ := slice_append h (length_le 8 _)
  obtain ⟨h3, h4⟩ := slice_append h (length_le 8 _)
  unfold decode extentAt
  rw [leAt_of_slice h0 hi.flags, leAt_of_slice h1 hi.linkcount, leAt_of_slice h2 hi.filesize,
    leAt_of_slice h3 hi.startblock, leAt_of_slice h4 hi.length]

theorem slice_part (h : slice m a n = slice m' b n) (hk : k + v ≤ n) : slice m (a + k) v = slice m' (b + k) v := by
  refine slice_congr fun j hj => ?_
  have hj : k + j < n := by omega
  have hg := congrArg (fun l => l[k + j]?) h
  simp only [slice, List.getElem?_map, List.getElem?_range hj, Option.map_some, Option.some.injEq] at hg
  rw [Nat.add_assoc, Nat.add_assoc]
  exact hg

theorem decode_congr (h : slice m a 32 = slice m' b 32) : decode m a = decode m' b := by
  unfold decode extentAt leAt
  rw [slice_part (k := 4) h (by decide : 4 + 4 ≤ 32), slice_part (k := 8) h (by decide : 8 + 8 ≤ 32),
    slice_part (k := 16) h (by decide : 16 + 8 ≤ 32), Nat.add_assoc a, Nat.add_assoc b,
    slice_part (k := 16 + 8) h (by decide : 16 + 8 + 8 ≤ 32)]
  have h0 := slice_part (k := 0) h (by decide : 0 + 4 ≤ 32)
  rw [Nat.add_zero, Nat.add_zero] at h0
  rw [h0]

theorem decode_splice_of_disjoint (h : a + 32 ≤ b ∨ b + bs.length ≤ a) : decode (splice m b bs) a = decode m a :=
  decode_congr (slice_splice_of_disjoint h)

theorem decode_wf (m : Nat → UInt8) (a : Nat) : (decode m a).Wf :=
  ⟨leAt_lt m a 4, leAt_lt m (a + 4) 4, leAt_lt m (a + 8) 8, leAt_lt m (a + 16) 8, leAt_lt m (a + 16 + 8) 8⟩

/-- A part of what was stored. -/
theorem slice_splice_part (h : k + n ≤ bs.length) : slice (splice m a bs) (a + k) n = (bs.drop k).take n := by
  refine List.ext_getElem (by simp; omega) fun j h1 h2 => ?_
  rw [length_slice] at h1
  have hj : k + j < bs.length := by omega
  simp [slice, splice, hj, Nat.add_assoc]

/-- The `n`-th of a list of inodes. -/
theorem take_drop_inodes {l : List Inode} {n : Nat} {i : Inode} (h : l[n]? = some i) :
    ((l.flatMap encode).drop (32 * n)).take 32 = encode i := by
  have hpart := take_drop_flatMap (i := 0) (k := 32) (fun i _ => length_encode i) (Nat.le_refl _) h
  rw [Nat.add_zero, List.drop_zero] at hpart
  rw [hpart, ← length_encode i, List.take_length]

/-! ## The inode table -/

variable {α β : Type} {s t u : Fs}

theorem ino_putIno_self (s : Fs) (n : Nat) (hi : i.Wf) : (s.putIno n i).ino n = i := by
  refine decode_of_slice ?_ hi
  have h := slice_splice s.disk (inodeAddr n) (encode i)
  rwa [length_encode] at h

theorem ino_putIno_of_ne (s : Fs) (i : Inode) (h : k ≠ n) : (s.putIno n i).ino k = s.ino k :=
  decode_splice_of_disjoint (by rw [length_encode]; unfold inodeAddr; omega)

theorem ino_wf (s : Fs) (n : Nat) : (s.ino n).Wf := decode_wf _ _

/-! ## Computations that return -/

theorem bind_eq_ok {c : Fuse α} {d : α → Fuse β} {r : β × Fs} :
    (c >>= d) s = .ok r ↔ ∃ a t, c s = .ok (a, t) ∧ d a t = .ok r := by
  show Except.bind (c s) (fun p => d p.1 p.2) = .ok r ↔ _
  rcases c s with e | ⟨a, t⟩
  · simp [Except.bind]
  · simp [Except.bind]

theorem pure_eq_ok {a b : α} : (pure a : Fuse α) s = .ok (b, t) ↔ a = b ∧ s = t := by
  show Except.ok (a, s) = .ok (b, t) ↔ _
  simp

theorem lift_eq_ok {c : Checked α} {a : α} : (liftM c : Fuse α) s = .ok (a, t) ↔ c = .ok a ∧ s = t := by
  cases c with
  | error e => exact ⟨fun h => (nomatch h), fun h => (nomatch h.1)⟩
  | ok b =>
    show Except.ok (b, s) = .ok (a, t) ↔ _
    simp

theorem inodetab_eq_ok {x : Inode} : inodetab n s = .ok (x, t) ↔ s.Mapped n ∧ s.ino n = x ∧ s = t := by
  unfold inodetab
  split <;> simp [*]

theorem assign_eq_ok {f : Inode → Inode} : assign n f s = .ok ((), t) ↔ s.Mapped n ∧ s.putIno n (f (s.ino n)) = t := by
  unfold assign
  split <;> simp [*]

theorem malloc_eq_ok {b : Buf} :
    malloc n s = .ok (b, t) ↔
      (⟨slice (s.junk s.mallocs) 0 n, s.junk s.mallocs⟩ : Buf) = b ∧ { s with mallocs := s.mallocs + 1 } = t := by
  unfold malloc
  simp

/-! ## Computations that only read -/

/-- All but the position of `fd` and the count of allocations is the same. -/
structure Quiet (s t : Fs) : Prop where
  disk : t.disk = s.disk
  size : t.size = s.size
  maplen : t.maplen = s.maplen
  junk : t.junk = s.junk
  exhausted : t.exhausted = s.exhausted

theorem Quiet.refl (s : Fs) : Quiet s s := ⟨rfl, rfl, rfl, rfl, rfl⟩

theorem Quiet.trans (h : Quiet s t) (h' : Quiet t u) : Quiet s u :=
  ⟨h'.disk.trans h.disk, h'.size.trans h.size, h'.maplen.trans h.maplen, h'.junk.trans h.junk,
    h'.exhausted.trans h.exhausted⟩

theorem Quiet.ino (h : Quiet s t) (n : Nat) : t.ino n = s.ino n := by
  unfold Fs.ino
  rw [h.disk]

theorem Quiet.mapped (h : Quiet s t) : t.Mapped n ↔ s.Mapped n := by
  unfold Fs.Mapped
  rw [h.maplen]

structure IsQuiet (c : Fuse α) : Prop where
  quiet : ∀ {s a t}, c s = .ok (a, t) → Quiet s t

theorem IsQuiet.pure (a : α) : IsQuiet (Pure.pure a : Fuse α) :=
  ⟨fun h => (pure_eq_ok.mp h).2 ▸ Quiet.refl _⟩

theorem IsQuiet.halt (e : Stop) : IsQuiet (Starfs.halt e : Fuse α) := ⟨fun h => nomatch h⟩

theorem IsQuiet.lift (c : Checked α) : IsQuiet (liftM c : Fuse α) := ⟨fun h => (lift_eq_ok.mp h).2 ▸ Quiet.refl _⟩

theorem IsQuiet.bind {c : Fuse α} {d : α → Fuse β} (h : IsQuiet c) (hd : ∀ a, IsQuiet (d a)) : IsQuiet (c >>= d) := by
  refine ⟨fun hb => ?_⟩
  obtain ⟨a, t, ht, hu⟩ := bind_eq_ok.mp hb
  exact (h.quiet ht).trans ((hd a).quiet hu)

theorem isQuiet_inodetab (n : Nat) : IsQuiet (inodetab n) := ⟨fun h => (inodetab_eq_ok.mp h).2.2 ▸ Quiet.refl _⟩

theorem isQuiet_malloc (n : Nat) : IsQuiet (malloc n) :=
  ⟨fun h => (malloc_eq_ok.mp h).2 ▸ ⟨rfl, rfl, rfl, rfl, rfl⟩⟩

theorem isQuiet_lseek (off : Nat) : IsQuiet (lseek off) := by
  refine ⟨fun {s a t} h => ?_⟩
  obtain ⟨-, rfl⟩ : () = a ∧ (if off < 2 ^ 63 then { s with pos := off } else s) = t := Prod.mk.inj (Except.ok.inj h)
  split <;> exact ⟨rfl, rfl, rfl, rfl, rfl⟩

theorem isQuiet_read (n : Nat) : IsQuiet (read n) := by
  refine ⟨fun h => ?_⟩
  obtain ⟨-, rfl⟩ := Prod.mk.inj (Except.ok.inj h)
  exact ⟨rfl, rfl, rfl, rfl, rfl⟩

theorem isQuiet_readfromextents (exts : List Extent) (buf : Buf) (i offset size : Nat) :
    IsQuiet (readfromextents exts buf i offset size) := by
  induction exts generalizing buf i offset size with
  | nil => exact .pure buf
  | cons ext exts ih =>
    unfold readfromextents
    split
    · exact .pure buf
    · dsimp only
      split
      · refine .bind (.bind (isQuiet_lseek _) fun _ => isQuiet_read _) fun _ => .bind (.lift _) fun _ => ih _ _ _ _
      · exact ih _ _ _ _

theorem isQuiet_followIndirections (k : Nat) (exts : List Extent) : IsQuiet (followIndirections k exts) := by
  induction k generalizing exts with
  | zero => exact .pure exts
  | succ k ih =>
    exact .bind (isQuiet_malloc _) fun _ => .bind (isQuiet_readfromextents _ _ _ _ _) fun _ => .bind (.lift _) fun _ => ih _

theorem isQuiet_readbottomextents (n : Nat) : IsQuiet (readbottomextents n) :=
  .bind (isQuiet_malloc _) fun _ => .bind (isQuiet_inodetab n) fun _ => isQuiet_followIndirections _ _

theorem isQuiet_readinode (n : Nat) : IsQuiet (readinode n) :=
  .bind (isQuiet_inodetab n) fun _ => .bind (isQuiet_malloc _) fun _ => .bind (isQuiet_readbottomextents n) fun _ =>
    isQuiet_readfromextents _ _ _ _ _

theorem isQuiet_freeInode (n : Nat) : IsQuiet (freeInode n) := by
  refine .bind (isQuiet_readbottomextents n) fun exts => ?_
  induction exts with
  | nil => exact .pure ()
  | cons ext exts ih => exact .bind (.pure ()) fun _ => ih

/-- The search returns an inode without links. -/
theorem freeInodeFrom_eq_ok {o : Option Nat} (h : freeInodeFrom k n s = .ok (o, t)) :
    s = t ∧ ∀ j, o = some j → s.Mapped j ∧ j < n + k ∧ (s.ino j).linkcount = 0 := by
  induction k generalizing n with
  | zero =>
    obtain ⟨rfl, rfl⟩ := pure_eq_ok.mp h
    exact ⟨rfl, fun j hj => nomatch hj⟩
  | succ k ih =>
    obtain ⟨x, s', hx, h⟩ := bind_eq_ok.mp h
    obtain ⟨hm, rfl, rfl⟩ := inodetab_eq_ok.mp hx
    split at h
    next h0 =>
      obtain ⟨rfl, rfl⟩ := pure_eq_ok.mp h
      exact ⟨rfl, fun j hj => Option.some.inj hj ▸ ⟨hm, by omega, h0⟩⟩
    next =>
      obtain ⟨hs, hfound⟩ := ih h
      refine ⟨hs, fun j hj => ?_⟩
      obtain ⟨hmj, hlt, h0⟩ := hfound j hj
      exact ⟨hmj, by omega, h0⟩

/-- The search finds the first inode without links. -/
theorem freeInodeFrom_finds (hm : ∀ j < k, s.Mapped (n + j)) (hj : ∃ j < k, (s.ino (n + j)).linkcount = 0) :
    ∃ j, (∀ i < k, (s.ino (n + i)).linkcount = 0 → j ≤ i) ∧ (s.ino (n + j)).linkcount = 0 ∧
      freeInodeFrom k n s = .ok (some (n + j), s) := by
  induction k generalizing n with
  | zero => exact absurd hj (by simp)
  | succ k ih =>
    have hm0 : s.Mapped n := hm 0 (Nat.succ_pos k)
    have hrun : freeInodeFrom (k + 1) n s =
        (if (s.ino n).linkcount = 0 then (pure (some n) : Fuse (Option Nat)) else freeInodeFrom k (n + 1)) s := by
      show (inodetab n >>= _) s = _
      unfold inodetab
      show Except.bind (if s.Mapped n then _ else _) _ = _
      rw [if_pos hm0]
      rfl
    rw [hrun]
    by_cases h0 : (s.ino n).linkcount = 0
    · rw [if_pos h0]
      exact ⟨0, fun i _ _ => Nat.zero_le i, h0, rfl⟩
    · rw [if_neg h0]
      have hstep : ∀ j, n + 1 + j = n + (j + 1) := fun j => by omega
      obtain ⟨j, hjk, hj0⟩ := hj
      have hj1 : j ≠ 0 := by
        rintro rfl
        exact h0 hj0
      obtain ⟨i, hleast, hi0, hrun⟩ := ih (n := n + 1) (fun j hj => by rw [hstep]; exact hm (j + 1) (by omega))
        ⟨j - 1, by omega, by rwa [hstep, Nat.sub_add_cancel (by omega)]⟩
      rw [hstep] at hi0 hrun
      refine ⟨i + 1, fun i' hi' hz => ?_, hi0, hrun⟩
      have hne : i' ≠ 0 := by
        rintro rfl
        exact h0 hz
      have := hleast (i' - 1) (by omega) (by rwa [hstep, Nat.sub_add_cancel (by omega)])
      omega

theorem newInode_wf : newInode.Wf := ⟨by decide, by decide, by decide, by decide, by decide⟩

/-- An allocated inode is one of the table without links, and is all that changed. -/
theorem allocInode_eq_ok {r : Nat} (h : allocInode s = .ok (r, t)) :
    (s.Mapped r ∧ r < (s.ino 2).filesize / 32 ∧ (s.ino r).linkcount = 0 ∧ t = s.putIno r newInode) ∨
    (r = INVALID_INODE ∧ t = { s with exhausted := true }) := by
  obtain ⟨tab, s1, h1, h⟩ := bind_eq_ok.mp h
  obtain ⟨-, rfl, rfl⟩ := inodetab_eq_ok.mp h1
  obtain ⟨o, s2, h2, h⟩ := bind_eq_ok.mp h
  obtain ⟨rfl, hfree⟩ := freeInodeFrom_eq_ok h2
  cases o with
  | some n =>
    obtain ⟨hm, hlt, h0⟩ := hfree n rfl
    obtain ⟨⟨⟩, s3, h3, h⟩ := bind_eq_ok.mp h
    obtain ⟨-, rfl⟩ := assign_eq_ok.mp h3
    obtain ⟨rfl, rfl⟩ := pure_eq_ok.mp h
    rw [Nat.zero_add] at hlt
    exact .inl ⟨hm, hlt, h0, rfl⟩
  | none =>
    obtain ⟨⟨⟩, s3, h3, h⟩ := bind_eq_ok.mp h
    obtain ⟨-, rfl⟩ := Prod.mk.inj (Except.ok.inj h3)
    obtain ⟨rfl, rfl⟩ := pure_eq_ok.mp h
    exact .inr ⟨rfl, rfl⟩

/-! ## Lengths -/

theorem length_put {c d : Buf} {k : Nat} {bs : List UInt8} (h : c.put k bs = .ok d) :
    d.bytes.length = c.bytes.length := by
  unfold Buf.put at h
  split at h
  · obtain rfl := Except.ok.inj h
    simp only [List.length_append, List.length_take, List.length_drop]
    omega
  · exact nomatch h

theorem length_readfromextents {exts : List Extent} {c d : Buf} {k offset size : Nat}
    (h : readfromextents exts c k offset size s = .ok (d, t)) : d.bytes.length = c.bytes.length := by
  induction exts generalizing c k offset size s with
  | nil =>
    obtain ⟨rfl, -⟩ := pure_eq_ok.mp h
    rfl
  | cons ext exts ih =>
    unfold readfromextents at h
    split at h
    · obtain ⟨rfl, -⟩ := pure_eq_ok.mp h
      rfl
    · dsimp only at h
      split at h
      · obtain ⟨bs, s1, -, h⟩ := bind_eq_ok.mp h
        obtain ⟨c', s2, hput, h⟩ := bind_eq_ok.mp h
        exact (ih h).trans (length_put (lift_eq_ok.mp hput).1)
      · exact ih h

theorem length_readinode {c : Buf} (h : readinode n s = .ok (c, t)) : c.bytes.length = (s.ino n).filesize := by
  unfold readinode at h
  obtain ⟨x, s1, h1, h⟩ := bind_eq_ok.mp h
  obtain ⟨-, hx, -⟩ := inodetab_eq_ok.mp h1
  obtain ⟨c', s2, h2, h⟩ := bind_eq_ok.mp h
  obtain ⟨exts, s3, -, h⟩ := bind_eq_ok.mp h
  have hc := (malloc_eq_ok.mp h2).1
  rw [length_readfromextents h, ← hc, hx]
  exact length_slice _ _ _

end Rodvin.Starfs
