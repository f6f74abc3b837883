/-
  Rodvin.Starfs.LinkCountsRuns — from the image that `mkfs_starfs` writes on, the link
  counts are right after every run whose operations meet their conditions
  (`link_counts_right`).

  An operation that fails takes an inode and keeps it, a removal counts down on the
  directory instead of the file, and `link` counts nothing. So the conditions ask that
  `create` and `mkdir` succeed, and that nothing is removed or linked. A directory that
  grows in place may write over another one, and they ask that it does not.
-/

import Rodvin.Starfs.LinkCountsProofs

namespace Rodvin.Starfs

open Rodvin.Lib

variable {s t : Fs} {w : World} {d k n : Nat} {es : List (Name × Nat)} {name : Name} {path : Path}

theorem setLinks_linkcount {l : Nat} (s : Fs) (n : Nat) (hl : l < 2 ^ 32) :
    ((s.putIno n { s.ino n with linkcount := l }).ino n).linkcount = l := by
  have hi := ino_wf s n
  have hwf : ({ s.ino n with linkcount := l } : Inode).Wf := ⟨hi.flags, hl, hi.filesize, hi.startblock, hi.length⟩
  rw [ino_putIno_self s n hwf]

structure Inv (w : World) : Prop where
  dirs : Dirs w.fs
  count : ∀ n < w.fs.inodes, (w.fs.ino n).linkcount = w.fs.named n + w.handles.count n
  system : ∀ n < 6, w.fs.named n ≠ 0
  dir : ∀ d, w.fs.IsDir d → w.fs.named d ≠ 0
  handles : ∀ h ∈ w.handles, h < w.fs.inodes

namespace Inv

theorem kept (h : Inv w) : ∀ n < w.fs.inodes, w.fs.named n ≠ 0 → (w.fs.ino n).linkcount ≠ 0 := by
  intro n hn hnamed
  have := h.count n hn
  omega

theorem lookups (h : Inv w) : Lookups w.fs := by
  have h3 : 3 < w.fs.inodes := lt_of_lt_of_le (by decide) h.dirs.six
  exact ⟨h.dirs, h.kept, h3, h.kept 3 h3 (h.system 3 (by decide))⟩

/-- The directories stay, and the counts follow the handles. -/
theorem same {handles : List Nat} (h : Inv w) (hs : SameDirs w.fs t)
    (hc : ∀ n < w.fs.inodes, (t.ino n).linkcount + w.handles.count n = (w.fs.ino n).linkcount + handles.count n)
    (hh : ∀ n ∈ handles, n < w.fs.inodes) : Inv ⟨t, handles⟩ := by
  refine ⟨hs.dirs h.dirs, fun n hn => ?_, fun n hn => ?_, fun d hd => ?_, fun n hn => ?_⟩
  · have hn : n < w.fs.inodes := hs.inodes ▸ hn
    have h1 := h.count n hn
    have h2 := hc n hn
    show (t.ino n).linkcount = t.named n + handles.count n
    rw [hs.named]
    omega
  · show t.named n ≠ 0
    rw [hs.named]
    exact h.system n hn
  · show t.named d ≠ 0
    rw [hs.named]
    exact h.dir d ((hs.isDir d).mp hd)
  · show n < t.inodes
    rw [hs.inodes]
    exact hh n hn

theorem quiet (h : Inv w) (hq : Quiet w.fs t) : Inv ⟨t, w.handles⟩ :=
  h.same hq.sameDirs (fun n _ => by rw [hq.ino]) h.handles

/-- What the counts are for. -/
theorem linkCounts (h : Inv w) : LinkCounts w := by
  refine ⟨h.count, fun n hn hnamed => ⟨h.kept n hn hnamed, fun t ht => ?_⟩⟩
  rcases allocInode_eq_ok ht with ⟨-, -, h0, -⟩ | ⟨hinv, -⟩
  · exact h.kept n hn hnamed h0
  · exact inUse_ne_invalid ⟨hn, h.kept n hn hnamed⟩ hinv

end Inv

/-! ## Handles -/

theorem openFile_inv (h : Inv w) (hp : (0 : UInt8) ∉ path) (hm : (Op.openFile path).Meets w) :
    ∃ w', (Op.openFile path).run w = .ok w' ∧ Inv w' := by
  obtain ⟨ino, t, ht, hq, hr⟩ := getinode_returns h.lookups hp
  by_cases hinv : ino = INVALID_INODE
  · refine ⟨⟨t, w.handles⟩, ?_, h.quiet hq⟩
    have hrun : Starfs.openFile path w.fs = .ok ((-ENOENT, none), t) := by
      unfold Starfs.openFile
      rw [bind_ok ht, if_pos hinv]
      rfl
    show (Starfs.openFile path w.fs).map _ = _
    rw [hrun]
    rfl
  · have huse := hq.inUse.mpr (hr hinv)
    have hmax := hm ino t ht hinv
    have hl : ((t.ino ino).linkcount + 1) % 2 ^ 32 = (t.ino ino).linkcount + 1 := Nat.mod_eq_of_lt hmax
    have ht' := h.quiet hq
    have hsame := ht'.dirs.setLinks huse.1 hmax (fun _ => Nat.succ_ne_zero _) (fun h0 => absurd h0 huse.2)
    refine ⟨⟨t.putIno ino { t.ino ino with linkcount := (t.ino ino).linkcount + 1 }, ino :: w.handles⟩, ?_,
      ht'.same hsame (fun n hn => ?_) fun n hn => ?_⟩
    · have hrun : Starfs.openFile path w.fs =
          .ok ((0, some ino), t.putIno ino { t.ino ino with linkcount := (t.ino ino).linkcount + 1 }) := by
        unfold Starfs.openFile
        rw [bind_ok ht, if_neg hinv, bind_ok (assign_ok (ht'.dirs.table ino huse.1)), hl]
        rfl
      show (Starfs.openFile path w.fs).map _ = _
      rw [hrun]
      rfl
    · show ((t.putIno ino _).ino n).linkcount + w.handles.count n = (t.ino n).linkcount + (ino :: w.handles).count n
      rw [List.count_cons]
      by_cases hn : n = ino
      · subst hn
        rw [setLinks_linkcount t n hmax, if_pos (beq_self_eq_true n)]
        omega
      · rw [ino_putIno_of_ne t _ hn, beq_eq_false_iff_ne.mpr (Ne.symm hn)]
        rfl
    · rcases List.mem_cons.mp hn with rfl | hn
      · exact huse.1
      · exact ht'.handles n hn

theorem release_inv {fh : Nat} (h : Inv w) (hm : fh ∈ w.handles) : ∃ w', (Op.release fh).run w = .ok w' ∧ Inv w' := by
  have hlt := h.handles fh hm
  have hcount := h.count fh hlt
  have hpos := List.count_pos_iff.mpr hm
  have hi := ino_wf w.fs fh
  have hl : ((w.fs.ino fh).linkcount + 2 ^ 32 - 1) % 2 ^ 32 = (w.fs.ino fh).linkcount - 1 := by
    have := hi.linkcount
    omega
  have hmax : (w.fs.ino fh).linkcount - 1 < 2 ^ 32 := lt_of_le_of_lt (Nat.sub_le _ _) hi.linkcount
  have hsame := h.dirs.setLinks hlt hmax (fun hd => by have := h.dir fh hd; omega) (fun h0 => by omega)
  refine ⟨⟨w.fs.putIno fh { w.fs.ino fh with linkcount := (w.fs.ino fh).linkcount - 1 }, w.handles.erase fh⟩, ?_,
    h.same hsame (fun n hn => ?_) fun n hn => h.handles n (List.mem_of_mem_erase hn)⟩
  · have hrun : Starfs.release fh w.fs =
        .ok (0, w.fs.putIno fh { w.fs.ino fh with linkcount := (w.fs.ino fh).linkcount - 1 }) := by
      unfold Starfs.release
      rw [bind_ok (assign_ok (h.dirs.table fh hlt)), hl]
      rfl
    show (Starfs.release fh w.fs).map _ = _
    rw [hrun]
    rfl
  · by_cases hn : n = fh
    · subst hn
      rw [setLinks_linkcount _ n hmax, List.count_erase_self]
      omega
    · rw [ino_putIno_of_ne _ _ hn, List.count_erase_of_ne hn]

/-! ## New entries -/

theorem allocInode_ok (h : Dirs s) (hf : ∃ n < s.inodes, n < 2 ^ 32 ∧ (s.ino n).linkcount = 0) :
    ∃ r, allocInode s = .ok (r, s.putIno r newInode) ∧ r < s.inodes ∧ r < 2 ^ 32 ∧ (s.ino r).linkcount = 0 := by
  obtain ⟨n, hn, hn32, h0⟩ := hf
  have hz : ∀ j, 0 + j = j := Nat.zero_add
  obtain ⟨r, hleast, hr0, hrun⟩ := freeInodeFrom_finds (k := s.inodes) (n := 0)
    (fun j hj => by rw [hz]; exact h.table j hj) ⟨n, hn, by rwa [hz]⟩
  have hrn : r ≤ n := hleast n hn (by rwa [hz])
  rw [hz] at hr0 hrun
  have hlt : r < s.inodes := lt_of_le_of_lt hrn hn
  refine ⟨r, ?_, hlt, lt_of_le_of_lt hrn hn32, hr0⟩
  unfold allocInode
  rw [bind_ok (inodetab_ok h.two)]
  show (freeInodeFrom s.inodes 0 >>= _) s = _
  rw [bind_ok hrun]
  show (assign r (fun _ => newInode) >>= _) s = _
  rw [bind_ok (assign_ok (h.table r hlt))]
  rfl

/-- Taking an inode leaves the directories alone. -/
theorem newInode_sameDirs {handles : List Nat} {r : Nat} (h : Inv ⟨s, handles⟩) (hlt : r < s.inodes)
    (hr0 : (s.ino r).linkcount = 0) : SameDirs s (s.putIno r newInode) := by
  have hnot : ¬ s.IsDir r := fun hd => hd.2.2 hr0
  have hsys : ∀ n < 6, r ≠ n := by
    rintro n hn rfl
    exact h.kept r hlt (h.system r hn) hr0
  refine h.dirs.putIno hlt newInode_wf ⟨fun hd => absurd rfl hd.1, fun hd => absurd hd hnot⟩ ?_
  rintro (hd | h2 | h4)
  · exact absurd hd hnot
  · exact absurd h2 (hsys 2 (by decide))
  · exact absurd h4 (hsys 4 (by decide))

/-- The inode that `create` and `mkdir` take, and the entry for it. -/
structure Entering (s t : Fs) (parent : Nat) (name : Name) (r : Nat) : Prop where
  alloc : allocInode s = .ok (r, s.putIno r newInode)
  lt : r < s.inodes
  free : (s.ino r).linkcount = 0
  same : SameDirs s (s.putIno r newInode)
  add : addToDir parent name r (s.putIno r newInode) = .ok (true, t)
  entered : ∃ es, Entered (s.putIno r newInode) t parent es name r

theorem addToDir_enters {parent : Nat} (h : Inv ⟨s, w.handles⟩) (hm : Enters s parent name) (hu : InUse s parent)
    (hn : (0 : UInt8) ∉ name) : ∃ r t, Entering s t parent name r := by
  obtain ⟨r, halloc, hlt, hr32, hr0⟩ := allocInode_ok h.dirs hm.free
  have hdir : s.IsDir parent := ⟨hu.1, hm.directory, hu.2⟩
  have hsame := newInode_sameDirs h hlt hr0
  have hdirs := hsame.dirs h.dirs
  have hdir' := (hsame.isDir parent).mpr hdir
  obtain ⟨es, hat, hes⟩ := h.lookups.dirAt hdir
  have hcontent : (s.putIno r newInode).content parent = dirContent es := (hsame.content parent hdir).trans hat.content
  have hbuffer : (s.putIno r newInode).buffer parent = s.buffer parent := by
    unfold Fs.buffer
    rw [hsame.content parent hdir]
    rfl
  have hunseen : ¬ Seen ((s.putIno r newInode).buffer parent).at 8 es name := by
    rw [hbuffer, ← hat.seek_none hn]
    by_contra hne
    exact hm.unseen ⟨hm.directory, hne⟩
  have hplaced := hdirs.placed parent hdir'
  have hat' : DirAt (s.putIno r newInode) parent es :=
    ⟨hplaced.readable, hplaced.directory, hat.ok, hat.count, hcontent⟩
  have hcount : es.length + 1 < 2 ^ 32 := by
    have := hm.count
    rwa [hat.header.2.1] at this
  have hok : ∀ e ∈ es ++ [(name, r)], EntryOk e ∧ e.2 < (s.putIno r newInode).inodes := by
    rw [hsame.inodes]
    intro e he
    rcases List.mem_append.mp he with he | he
    · exact ⟨hat.ok e he, (hes e he).1⟩
    · rw [List.mem_singleton.mp he]
      exact ⟨⟨hn, hm.fits, hr32⟩, hlt⟩
  have hsmall : (dirContent (es ++ [(name, r)])).length < 2 ^ 50 :=
    length_dirContent_lt (fun e he => (hok e he).1) (by rw [List.length_append]; exact hcount)
  obtain ⟨t, ht, hst⟩ := addToDir_unseen r hat' hn hunseen (hplaced.writable (lt_trans hsmall (by decide)))
  have hclear : Clear (s.putIno r newInode) parent (4096 * ((s.putIno r newInode).ino parent).ext.startblock)
      (((s.putIno r newInode).ino parent).filesize + (name.length + 7)) := by
    intro k hk hne
    have hk := (hsame.isDir k).mp hk
    rw [(hsame.inode parent hdir).ext, (hsame.inode parent hdir).filesize, (hsame.inode k hk).ext,
      (hsame.inode k hk).filesize]
    exact hm.clear k hk hne
  exact ⟨r, t, halloc, hlt, hr0, hsame, ht, es, hdir', hcontent, hst, hok, hcount, hclear⟩

namespace Entering

variable {r parent : Nat}

theorem dirs (h : Inv ⟨s, w.handles⟩) (he : Entering s t parent name r) :
    Dirs t ∧ t.inodes = s.inodes ∧ (∀ k, t.IsDir k ↔ s.IsDir k) ∧
      ∀ n, t.named n = s.named n + if r = n then 1 else 0 := by
  obtain ⟨es, hent⟩ := he.entered
  have hd := he.same.dirs h.dirs
  obtain ⟨hdt, hnamed⟩ := hent.dirs hd
  refine ⟨hdt, (hent.inodes hd).trans he.same.inodes, fun k => (hent.isDir_iff hd k).trans (he.same.isDir k),
    fun n => ?_⟩
  rw [hnamed, he.same.named]

/-- Nothing names the inode, and no handle is open on it. -/
theorem unused (h : Inv ⟨s, w.handles⟩) (he : Entering s t parent name r) : s.named r = 0 ∧ w.handles.count r = 0 := by
  have hc : (s.ino r).linkcount = s.named r + w.handles.count r := h.count r he.lt
  have := he.free
  omega

theorem not_dir (he : Entering s t parent name r) : ¬ s.IsDir r := fun hd => hd.2.2 he.free

theorem not_system (h : Inv ⟨s, w.handles⟩) (he : Entering s t parent name r) (hn : n < 6) : r ≠ n := by
  rintro rfl
  exact h.system r hn (he.unused h).1

theorem ino_self (h : Inv ⟨s, w.handles⟩) (he : Entering s t parent name r) : t.ino r = newInode := by
  obtain ⟨es, hent⟩ := he.entered
  have hne : r ≠ parent := by
    rintro rfl
    exact he.not_dir ((he.same.isDir r).mp hent.isDir)
  have hlt : r < (s.putIno r newInode).inodes := he.same.inodes.symm ▸ he.lt
  rw [hent.ino_of_ne (he.same.dirs h.dirs) hne hlt, ino_putIno_self s r newInode_wf]

theorem linkcount_of_ne (h : Inv ⟨s, w.handles⟩) (he : Entering s t parent name r) (hn : n < s.inodes) (hne : n ≠ r) :
    (t.ino n).linkcount = (s.ino n).linkcount := by
  obtain ⟨es, hent⟩ := he.entered
  have hlt : n < (s.putIno r newInode).inodes := he.same.inodes.symm ▸ hn
  rw [(hent.linkcount (he.same.dirs h.dirs) hlt).2, ino_putIno_of_ne s _ hne]

/-- The counts of all inodes but the new one. -/
theorem count_of_ne (h : Inv ⟨s, w.handles⟩) (he : Entering s t parent name r) (hn : n < s.inodes) (hne : n ≠ r) :
    (t.ino n).linkcount = t.named n + w.handles.count n := by
  have hc : (s.ino n).linkcount = s.named n + w.handles.count n := h.count n hn
  rw [he.linkcount_of_ne h hn hne, (he.dirs h).2.2.2 n, if_neg (Ne.symm hne)]
  exact hc

theorem named_self (h : Inv ⟨s, w.handles⟩) (he : Entering s t parent name r) : t.named r = 1 := by
  rw [(he.dirs h).2.2.2 r, if_pos rfl, (he.unused h).1]

theorem named_ne_zero (h : Inv ⟨s, w.handles⟩) (he : Entering s t parent name r) (hn : s.named n ≠ 0) :
    t.named n ≠ 0 := by
  rw [(he.dirs h).2.2.2 n]
  omega

end Entering

/-- A file is no directory. -/
theorem create_inv (h : Inv w) (hp : (0 : UInt8) ∉ path) (hm : (Op.create path).Meets w) :
    ∃ w', (Op.create path).run w = .ok w' ∧ Inv w' ∧ ∀ d, w'.fs.IsDir d ↔ w.fs.IsDir d := by
  obtain ⟨name, parent, s, hget, hq, hlast, hnn, hm, huse⟩ := AtParent.unfold hm h.lookups hp
  have hI := h.quiet hq
  obtain ⟨r, t, he⟩ := addToDir_enters hI hm (huse hm.exist) hnn
  obtain ⟨hdt, hinodes, hdirs, hnamed⟩ := he.dirs hI
  have hself := he.ino_self hI
  have hlt : r < t.inodes := hinodes.symm ▸ he.lt
  let i : Inode := { newInode with linkcount := 2 }
  have hi : i.Wf := ⟨by decide, by decide, by decide, by decide, by decide⟩
  have hsame : SameDirs t (t.putIno r i) := by
    refine hdt.putIno hlt hi ⟨fun hd => absurd (Nat.zero_and INO_DIRECTORY) hd.1,
      fun hd => absurd ((hdirs r).mp hd) he.not_dir⟩ ?_
    rintro (hd | h2 | h4)
    · exact absurd ((hdirs r).mp hd) he.not_dir
    · exact absurd h2 (he.not_system hI (by decide))
    · exact absurd h4 (he.not_system hI (by decide))
  have hrun : Starfs.create path w.fs = .ok ((0, some r), t.putIno r i) := by
    unfold Starfs.create
    rw [bind_ok hget, bind_ok he.alloc, bind_ok (hlast _), bind_ok he.add]
    show (assign r _ >>= _) t = _
    rw [bind_ok (assign_ok (hdt.table r hlt)), hself]
    rfl
  refine ⟨⟨t.putIno r i, r :: w.handles⟩, ?_,
    ⟨hsame.dirs hdt, fun n hn => ?_, fun n hn => ?_, fun d hd => ?_, fun n hn => ?_⟩,
    fun d => ((hsame.isDir d).trans (hdirs d)).trans (hq.sameDirs.isDir d)⟩
  · show (Starfs.create path w.fs).map _ = _
    rw [hrun]
    rfl
  · have hn : n < s.inodes := hinodes ▸ hsame.inodes ▸ hn
    show ((t.putIno r i).ino n).linkcount = (t.putIno r i).named n + (r :: w.handles).count n
    rw [hsame.named, List.count_cons]
    by_cases hnr : n = r
    · subst hnr
      rw [ino_putIno_self t n hi, he.named_self hI, (he.unused hI).2, if_pos (beq_self_eq_true n)]
    · rw [ino_putIno_of_ne t i hnr, he.count_of_ne hI hn hnr, beq_eq_false_iff_ne.mpr (Ne.symm hnr),
        if_neg Bool.false_ne_true, Nat.add_zero]
  · show (t.putIno r i).named n ≠ 0
    rw [hsame.named]
    exact he.named_ne_zero hI (hI.system n hn)
  · show (t.putIno r i).named d ≠ 0
    rw [hsame.named]
    exact he.named_ne_zero hI (hI.dir d ((hdirs d).mp ((hsame.isDir d).mp hd)))
  · show n < (t.putIno r i).inodes
    rw [hsame.inodes]
    rcases List.mem_cons.mp hn with rfl | hn
    · exact hlt
    · rw [hinodes]
      exact hI.handles n hn

/-- The new directory of `mkdir`, written where the free extent starts. -/
theorem mkdir_makes {r parent : Nat} (h : Inv ⟨s, w.handles⟩) (he : Entering s t parent name r)
    (hb : HasBlock s parent name) :
    ∃ u, writeinode r (le 4 1 ++ le 4 0) (t.putIno r { newInode with flags := INO_DIRECTORY }) = .ok (true, u) ∧
      MadeDir t u r := by
  obtain ⟨es, hent⟩ := he.entered
  have hd := he.same.dirs h.dirs
  obtain ⟨hdt, hinodes, hdirs, hnamed⟩ := he.dirs h
  have hlt : r < t.inodes := hinodes.symm ▸ he.lt
  have hfour : t.ino 4 = s.ino 4 := by
    rw [hent.ino_of_ne hd (hent.not_system hd).2 (lt_of_lt_of_le (by decide) hd.six),
      ino_putIno_of_ne s _ (Ne.symm (he.not_system h (by decide)))]
  have hr4 : r ≠ 4 := he.not_system h (by decide)
  let v : Fs := t.putIno r { newInode with flags := INO_DIRECTORY }
  have hv : v.ino r = { newInode with flags := INO_DIRECTORY } :=
    ino_putIno_self t r ⟨by decide, by decide, by decide, by decide, by decide⟩
  have hv4 : v.ino 4 = t.ino 4 := ino_putIno_of_ne t _ (Ne.symm hr4)
  have hfree := hdt.free
  have henough := hb.enough
  have hfresh : Fresh v r (le 4 1 ++ le 4 0).length := by
    refine ⟨hdt.table r hlt, by rw [hv]; decide, by rw [hv]; rfl, ⟨hdt.four, by rw [hv4]; exact hdt.direct⟩, ?_, ?_⟩
    · rw [hv4, hfour]
      exact henough
    · rw [hv4]
      omega
  obtain ⟨u, hu, hst⟩ := writeinode_first _ hfresh (by simp [le]) hr4
  refine ⟨u, hu, he.ino_self h, hlt, by rw [hfour]; exact henough, fun k hk hne => ?_, ?_⟩
  · have hk := (hdirs k).mp hk
    rw [hfour]
    by_cases hkp : k = parent
    · have hino : (s.putIno r newInode).ino k = s.ino k := ino_putIno_of_ne s _ hne
      have hlen := hent.length
      rw [← hkp, hino] at hlen
      have hself := hent.ino_self hd
      rw [← hkp, hino] at hself
      have hshape : (t.ino k).ext.startblock = (s.ino k).ext.startblock ∧
          (t.ino k).filesize = (s.ino k).filesize + (name.length + 7) := by
        rw [hself, ← hlen]
        exact ⟨rfl, rfl⟩
      rw [hshape.1, hshape.2, hkp]
      exact hb.parent
    · have hlt : k < (s.putIno r newInode).inodes := he.same.inodes.symm ▸ hk.1
      rw [hent.ino_of_ne hd hkp hlt, ino_putIno_of_ne s _ hne]
      exact hb.clear k hk hkp
  · rw [hv, hv4] at hst
    exact hst

theorem mkdir_inv (h : Inv w) (hp : (0 : UInt8) ∉ path) (hm : (Op.mkdir path).Meets w) :
    ∃ w', (Op.mkdir path).run w = .ok w' ∧ Inv w' := by
  obtain ⟨name, parent, s, hget, hq, hlast, hnn, ⟨hm, hb⟩, huse⟩ := AtParent.unfold hm h.lookups hp
  have hI := h.quiet hq
  obtain ⟨r, t, he⟩ := addToDir_enters hI hm (huse hm.exist) hnn
  obtain ⟨hdt, hinodes, hdirs, -⟩ := he.dirs hI
  obtain ⟨u, hu, hmade⟩ := mkdir_makes hI he hb
  have h2 : r ≠ 2 := he.not_system hI (by decide)
  obtain ⟨hdu, hnamed⟩ := hmade.dirs hdt h2
  have hinodes' : u.inodes = s.inodes := by
    unfold Fs.inodes at hinodes ⊢
    rw [hmade.two hdt h2, hinodes]
  have hrun : Starfs.mkdir path w.fs = .ok (0, u) := by
    unfold Starfs.mkdir
    rw [bind_ok hget, bind_ok he.alloc, bind_ok (hlast _), bind_ok he.add]
    show (assign r _ >>= _) t = _
    rw [bind_ok (assign_ok (hdt.table r (hinodes.symm ▸ he.lt))), he.ino_self hI, bind_ok hu]
    rfl
  refine ⟨⟨u, w.handles⟩, ?_, hdu, fun n hn => ?_, fun n hn => ?_, fun d hd => ?_, fun n hn => ?_⟩
  · show (Starfs.mkdir path w.fs).map _ = _
    rw [hrun]
    rfl
  · have hn : n < s.inodes := hinodes' ▸ hn
    show (u.ino n).linkcount = u.named n + w.handles.count n
    rw [hmade.linkcount hdt (hinodes.symm ▸ hn), hnamed]
    by_cases hnr : n = r
    · subst hnr
      rw [he.ino_self hI, he.named_self hI, (he.unused hI).2]
      rfl
    · exact he.count_of_ne hI hn hnr
  · show u.named n ≠ 0
    rw [hnamed]
    exact he.named_ne_zero hI (hI.system n hn)
  · show u.named d ≠ 0
    rw [hnamed]
    rcases (hmade.isDir_iff hdt h2 d).mp hd with hd | rfl
    · exact he.named_ne_zero hI (hI.dir d ((hdirs d).mp hd))
    · rw [he.named_self hI]
      decide
  · show n < u.inodes
    rw [hinodes']
    exact hI.handles n hn

/-! ## Removals that remove nothing -/

theorem removeFromDir_nothing (h : Lookups s) (hm : RemovesNothing s d name) (hu : d ≠ INVALID_INODE → InUse s d)
    (hn : (0 : UInt8) ∉ name) : ∃ t, removeFromDir d name s = .ok (false, t) ∧ Quiet s t := by
  have hu := hu hm.1
  by_cases hf : (s.ino d).flags &&& INO_DIRECTORY = 0
  · refine ⟨s, ?_, .refl s⟩
    unfold removeFromDir
    rw [bind_ok (inodetab_ok (h.dirs.table d hu.1)), if_pos hf]
    rfl
  · obtain ⟨es, hat, -⟩ := h.dirAt ⟨hu.1, hf, hu.2⟩
    refine removeFromDir_unseen hat hn ?_
    rw [← hat.seek_none hn]
    by_contra hne
    exact hm.2 ⟨hf, hne⟩

theorem addToDir_nothing (newino : Nat) (h : Lookups s) (hm : AddsNothing s d name) (hu : InUse s d)
    (hn : (0 : UInt8) ∉ name) : ∃ t, addToDir d name newino s = .ok (false, t) ∧ Quiet s t := by
  by_cases hf : (s.ino d).flags &&& INO_DIRECTORY = 0
  · refine ⟨s, ?_, .refl s⟩
    unfold addToDir
    rw [bind_ok (inodetab_ok (h.dirs.table d hu.1)), if_pos hf]
    rfl
  · obtain ⟨es, hat, -⟩ := h.dirAt ⟨hu.1, hf, hu.2⟩
    refine addToDir_seen newino hat hn ?_
    have hfinds := (hm.resolve_left hf).2
    rwa [Ne, hat.seek_none hn, not_not] at hfinds

/-- What `unlink` and `rmdir` have in common. -/
theorem removal_quiet (refused : Inode → Prop) [DecidablePred refused] (error : Int) (h : Lookups s)
    (hp : (0 : UInt8) ∉ path)
    (hm : Op.MeetsRemoval s path refused) :
    ∃ r t, Quiet s t ∧ (do
      let ino ← getinode path
      let i ← inodetab ino
      if refused i then return error
      else
        let parent ← getparentinode path
        let filename ← lastName path
        let _ ← removeFromDir parent filename
        return 0 : Fuse Int) s = .ok (r, t) := by
  obtain ⟨ino, t, hget, hne, hm⟩ := hm
  obtain ⟨ino', t', hget', hq, huse⟩ := getinode_returns h hp
  rw [hget] at hget'
  obtain ⟨rfl, rfl⟩ := Prod.mk.inj (Except.ok.inj hget')
  have ht := h.quiet hq
  have hmapped := ht.dirs.table ino (hq.inUse.mpr (huse hne)).1
  by_cases hr : refused (t.ino ino)
  · refine ⟨error, t, hq, ?_⟩
    rw [bind_ok hget, bind_ok (inodetab_ok hmapped), if_pos hr]
    rfl
  · obtain ⟨name, parent, u, hpar, hqu, hlast, hnn, hnothing, hup⟩ := AtParent.unfold (hm.resolve_left hr) ht hp
    obtain ⟨v, hv, hqv⟩ := removeFromDir_nothing (ht.quiet hqu) hnothing hup hnn
    refine ⟨0, v, hq.trans (hqu.trans hqv), ?_⟩
    rw [bind_ok hget, bind_ok (inodetab_ok hmapped), if_neg hr, bind_ok hpar, bind_ok (hlast u), bind_ok hv]
    rfl

theorem unlink_inv (h : Inv w) (hp : (0 : UInt8) ∉ path) (hm : (Op.unlink path).Meets w) :
    ∃ w', (Op.unlink path).run w = .ok w' ∧ Inv w' := by
  obtain ⟨r, t, hq, hrun⟩ :=
    removal_quiet (fun i => i.flags &&& (INO_DIRECTORY ||| INO_SYSTEM) ≠ 0) (-EACCES) h.lookups hp hm
  have hrun : Starfs.unlink path w.fs = .ok (r, t) := hrun
  refine ⟨⟨t, w.handles⟩, ?_, h.quiet hq⟩
  show (Starfs.unlink path w.fs).map _ = _
  rw [hrun]
  rfl

theorem rmdir_inv (h : Inv w) (hp : (0 : UInt8) ∉ path) (hm : (Op.rmdir path).Meets w) :
    ∃ w', (Op.rmdir path).run w = .ok w' ∧ Inv w' := by
  obtain ⟨r, t, hq, hrun⟩ := removal_quiet (fun i => i.filesize ≠ 8 ∨ i.flags &&& INO_SYSTEM ≠ 0 ∨
    i.flags &&& INO_DIRECTORY ≠ INO_DIRECTORY) (-EACCES) h.lookups hp hm
  have hrun : Starfs.rmdir path w.fs = .ok (r, t) := hrun
  refine ⟨⟨t, w.handles⟩, ?_, h.quiet hq⟩
  show (Starfs.rmdir path w.fs).map _ = _
  rw [hrun]
  rfl

theorem link_inv {source target : Path} (h : Inv w) (hs : (0 : UInt8) ∉ source) (ht : (0 : UInt8) ∉ target)
    (hm : (Op.link source target).Meets w) : ∃ w', (Op.link source target).run w = .ok w' ∧ Inv w' := by
  obtain ⟨fn, pf, s₁, hpf, hq₁, hfn, hnf, hm, hupf⟩ := AtParent.unfold hm h.lookups hs
  have h₁ := h.lookups.quiet hq₁
  obtain ⟨tn, pt, s₂, hpt, hq₂, htn, hnt, ⟨ino, s₃, hino, hrem, hm⟩, hupt⟩ := AtParent.unfold hm h₁ ht
  have h₂ := h₁.quiet hq₂
  obtain ⟨ino', s₃', hino', hq₃, -⟩ := getinode_returns h₂ hs
  rw [hino] at hino'
  obtain ⟨rfl, rfl⟩ := Prod.mk.inj (Except.ok.inj hino')
  have h₃ := h₂.quiet hq₃
  have hupt₃ : pt ≠ INVALID_INODE → InUse s₃ pt := fun hne => hq₃.inUse.mpr (hupt hne)
  obtain ⟨s₄, hs₄, hq₄⟩ := removeFromDir_nothing h₃ hrem hupt₃ hnt
  obtain ⟨hadd, hm⟩ := hm s₄ hs₄
  have h₄ := h₃.quiet hq₄
  obtain ⟨s₅, hs₅, hq₅⟩ := addToDir_nothing ino h₄ hadd (hq₄.inUse.mpr (hupt₃ hrem.1)) hnt
  have h₅ := h₄.quiet hq₅
  have hq₁₅ := hq₂.trans (hq₃.trans (hq₄.trans hq₅))
  obtain ⟨s₆, hs₆, hq₆⟩ := removeFromDir_nothing h₅ (hm s₅ hs₅) (fun hne => hq₁₅.inUse.mpr (hupf hne)) hnf
  have hrun : Starfs.link source target w.fs = .ok (0, s₆) := by
    unfold Starfs.link
    rw [bind_ok hpf, bind_ok hpt, bind_ok (hfn _), bind_ok (htn _), bind_ok hino, bind_ok hs₄, bind_ok hs₅, bind_ok hs₆]
    rfl
  refine ⟨⟨s₆, w.handles⟩, ?_, h.quiet (hq₁.trans (hq₁₅.trans hq₆))⟩
  show (Starfs.link source target w.fs).map _ = _
  rw [hrun]
  rfl

/-! ## Runs -/

theorem step_inv {op : Op} (h : Inv w) (ht : op.Terminated) (hm : op.Meets w) : ∃ w', op.run w = .ok w' ∧ Inv w' := by
  cases op with
  | create path =>
    obtain ⟨w', hw', h', -⟩ := create_inv h ht hm
    exact ⟨w', hw', h'⟩
  | mkdir path => exact mkdir_inv h ht hm
  | openFile path => exact openFile_inv h ht hm
  | release fh => exact release_inv h hm
  | unlink path => exact unlink_inv h ht hm
  | rmdir path => exact rmdir_inv h ht hm
  | link source target => exact link_inv h ht.1 ht.2 hm

theorem run_inv {ops : List Op} (h : Inv w) (ht : ∀ op ∈ ops, op.Terminated) (hm : AllOpsMeet w ops) :
    ∃ w', ops.foldlM Op.run w = .ok w' ∧ Inv w' := by
  induction ops generalizing w with
  | nil => exact ⟨w, rfl, h⟩
  | cons op ops ih =>
    obtain ⟨w₁, hw₁, h₁⟩ := step_inv h (ht op (List.mem_cons_self ..)) hm.1
    obtain ⟨w', hw', h'⟩ := ih h₁ (fun op' ho => ht op' (List.mem_cons_of_mem op ho)) (hm.2 w₁ hw₁)
    exact ⟨w', by rw [List.foldlM_cons, Lib.ok_bind hw₁]; exact hw', h'⟩

theorem AllOpsMeet.take {pre post : List Op} (h : AllOpsMeet w (pre ++ post)) : AllOpsMeet w pre := by
  induction pre generalizing w with
  | nil => trivial
  | cons op pre ih => exact ⟨h.1, fun w' hw' => ih (h.2 w' hw')⟩

/-! ## A new volume -/

namespace NewLinks

variable {disksize : Nat}

theorem inodes (h : NewLinks s disksize) : s.inodes = disksize / 16384 := by
  unfold Fs.inodes
  rw [h.isNew.ino rfl]
  exact Nat.mul_div_cancel _ (by decide)

theorem isDir_iff (h : NewLinks s disksize) (d : Nat) : s.IsDir d ↔ d = 3 := by
  have h6 := h.enough
  constructor
  · rintro ⟨hlt, hflags, hlink⟩
    rw [h.inodes] at hlt
    have hd : d < 6 := by
      by_contra hge
      rw [h.linked d hlt, if_neg hge] at hlink
      exact hlink rfl
    by_contra hne
    apply hflags
    obtain rfl | rfl | rfl | rfl | rfl : d = 0 ∨ d = 1 ∨ d = 2 ∨ d = 4 ∨ d = 5 := by omega
    all_goals
      rw [h.isNew.ino rfl]
      show (INO_SYSTEM ||| INO_READONLY) &&& INO_DIRECTORY = 0
      decide
  · rintro rfl
    refine ⟨by rw [h.inodes]; omega, ?_, ?_⟩
    · rw [h.isNew.ino rfl]
      show INO_DIRECTORY &&& INO_DIRECTORY ≠ 0
      decide
    · rw [h.linked 3 (by omega)]
      decide

theorem entries (h : NewLinks s disksize) : s.entries 3 = [0, 1, 2, 3, 4, 5] :=
  entries_eq rootEntries_valid.ok rootEntries_valid.count h.isNew.content

theorem named (h : NewLinks s disksize) (n : Nat) : s.named n = if n < 6 then 1 else 0 := by
  have h3 := (h.isDir_iff 3).mpr rfl
  have hsum : s.named n = if s.IsDir 3 then (s.entries 3).count n else 0 :=
    Finset.sum_eq_single 3 (fun d _ hne => if_neg (mt (h.isDir_iff d).mp hne))
      (fun hout => absurd (Finset.mem_range.mpr h3.1) hout)
  rw [hsum, if_pos h3, h.entries]
  by_cases hn : n < 6
  · obtain rfl | rfl | rfl | rfl | rfl | rfl : n = 0 ∨ n = 1 ∨ n = 2 ∨ n = 3 ∨ n = 4 ∨ n = 5 := by omega
    all_goals rfl
  · rw [if_neg hn, List.count_eq_zero]
    simp
    omega

theorem dirs (h : NewLinks s disksize) (hd : disksize < 2 ^ 62) : Dirs s := by
  have h6 := h.enough
  have hr : rootBlock disksize = 9 + (disksize / 16384 + 127) / 128 := rfl
  have hw := noWrap_of_inodes (lt_trans hd (by decide)) h6
  have hl := hw.length
  have h2 : s.ino 2 = tableInode disksize := h.isNew.ino rfl
  have h4 : s.ino 4 = freeInode4 disksize := h.isNew.ino rfl
  have hsub : sub64 (disksize / 4096) (rootBlock disksize + 1) = disksize / 4096 - (rootBlock disksize + 1) :=
    sub64_eq (by omega) hl
  have hfree : (s.ino 4).ext.startblock = rootBlock disksize + 1 ∧
      (s.ino 4).ext.length = disksize / 4096 - (rootBlock disksize + 1) ∧ (s.ino 4).flags = INO_SYSTEM ||| INO_READONLY := by
    rw [h4, ← hsub]
    exact ⟨rfl, rfl, rfl⟩
  have hend : s.tableEnd = 4096 * rootBlock disksize := by
    unfold Fs.tableEnd
    rw [h.isNew.maplen]
    omega
  have hplaced := h.isNew.placed hd h6
  refine ⟨fun n hn => h.isNew.mapped.mpr ?_, by rw [h.inodes]; exact h6, ⟨?_, ?_⟩, ?_, by omega, fun d hdir => ?_,
    fun d hdir => ?_, fun d k hdir hk hne => ?_⟩
  · rw [h.inodes] at hn
    omega
  · rw [h2]
    show (INO_SYSTEM ||| INO_READONLY) &&& INO_DIRECTORY = 0
    decide
  · rw [hfree.2.2]
    decide
  · unfold Inode.Direct
    rw [hfree.2.2]
    decide
  · rw [(h.isDir_iff d).mp hdir]
    exact hplaced
  · rw [(h.isDir_iff d).mp hdir]
    refine ⟨rootEntries, h.isNew.content, by decide, fun e he => ⟨rootEntries_valid.ok e he, ?_⟩⟩
    rw [h.inodes]
    have hsmall : ∀ e ∈ rootEntries, e.2 < 6 := by decide
    exact lt_of_lt_of_le (hsmall e he) h6
  · exact absurd (((h.isDir_iff d).mp hdir).trans ((h.isDir_iff k).mp hk).symm) hne

theorem inv (h : NewLinks s disksize) (hd : disksize < 2 ^ 62) : Inv ⟨s, []⟩ := by
  refine ⟨h.dirs hd, fun n hn => ?_, fun n hn => ?_, fun d hdir => ?_, fun n hn => absurd hn List.not_mem_nil⟩
  · show (s.ino n).linkcount = s.named n + 0
    have hn : n < s.inodes := hn
    rw [h.inodes] at hn
    rw [h.linked n hn, h.named n, Nat.add_zero]
  · show s.named n ≠ 0
    rw [h.named n, if_pos hn]
    decide
  · show s.named d ≠ 0
    rw [(h.isDir_iff d).mp hdir, h.named 3]
    decide

end NewLinks

/-- From a new volume on, in every run whose operations meet their conditions, the operations
    return and the link counts are right after each of them. -/
theorem link_counts_right {img : Image} {junk : Nat → Nat → UInt8} {disksize : Nat} {ops : List Op}
    (hd : disksize < 2 ^ 62)
    (h6 : 6 ≤ disksize / 16384) (hz : ∀ n, 128 ≤ n → n < disksize / 16384 → (img.ino n).linkcount = 0)
    (hm : mount (mkfs img disksize) junk = some s) (ht : ∀ op ∈ ops, op.Terminated) (hmeet : AllOpsMeet ⟨s, []⟩ ops) :
    ∀ pre post, ops = pre ++ post → ∃ w, pre.foldlM Op.run ⟨s, []⟩ = .ok w ∧ LinkCounts w := by
  rintro pre post rfl
  have hnew := newLinks (lt_trans hd (by decide)) h6 hz hm
  obtain ⟨w, hw, hI⟩ := run_inv (hnew.inv hd) (fun op ho => ht op (List.mem_append_left _ ho)) hmeet.take
  exact ⟨w, hw, hI.linkCounts⟩

/-- Where the root is the only directory, what it needs to take the name, and a directory
    under it: the first block of the free extent does not lie in the root. -/
def RootTakes (s : Fs) (name : Name) : Prop :=
  (s.ino 3).flags &&& INO_DIRECTORY ≠ 0 ∧ seekEntry (s.buffer 3) name (entrycount (s.buffer 3)) 8 = none ∧
    name.length + 1 < 2 ^ 16 ∧ entrycount (s.buffer 3) + 1 < 2 ^ 32 ∧ 7 < s.inodes ∧ (s.ino 7).linkcount = 0 ∧
    1 < (s.ino 4).ext.length ∧ (4096 * (s.ino 4).ext.startblock + 8 ≤ 4096 * (s.ino 3).ext.startblock ∨
      4096 * (s.ino 3).ext.startblock + ((s.ino 3).filesize + (name.length + 7)) ≤ 4096 * (s.ino 4).ext.startblock)

instance (s : Fs) (name : Name) : Decidable (RootTakes s name) := inferInstanceAs (Decidable (_ ∧ _))

theorem RootTakes.enters (h : RootTakes s name) (hd : ∀ d, s.IsDir d → d = 3) :
    Enters s 3 name ∧ HasBlock s 3 name := by
  obtain ⟨hflags, hseek, hfits, hcount, hlt, hfree, henough, hplace⟩ := h
  have hclear : ∀ a n, Clear s 3 a n := fun _ _ d hdir hne => absurd (hd d hdir) hne
  exact ⟨⟨by decide, hflags, fun hf => hf.2 hseek, hfits, hcount, ⟨7, hlt, by decide, hfree⟩, hclear _ _⟩,
    henough, hclear _ _, hplace⟩

/-- `create("/a")`, `mkdir("/b")`, `release` of the file, `open("/$header")`. -/
def handling : List Op := [.create [slash, 0x61], .mkdir [slash, 0x62], .release 6, .openFile headerPath]

theorem root_takes : RootTakes fresh [0x61] ∧
    ((Op.create [slash, 0x61]).run ⟨fresh, []⟩).toOption.map
      (fun w => decide (RootTakes w.fs [0x62] ∧ w.handles = [6])) = some true ∧
    ([Op.create [slash, 0x61], .mkdir [slash, 0x62], .release 6].foldlM Op.run ⟨fresh, []⟩).toOption.bind
      (fun w => (getinode headerPath w.fs).toOption.map fun r => (r.2.ino r.1).linkcount) = some 1 := by
  decide +kernel

theorem handling_meets : AllOpsMeet ⟨fresh, []⟩ handling := by
  obtain ⟨hroot, hcreated, hopened⟩ := root_takes
  have hnew : NewLinks fresh (2 ^ 20) := newLinks (by decide) (by decide) (fun n h1 h2 => by omega) fresh_mounted
  have hdirs : ∀ d, fresh.IsDir d → d = 3 := fun d => (hnew.isDir_iff d).mp
  have hcreate : (Op.create [slash, 0x61]).Meets ⟨fresh, []⟩ := by
    exact ⟨[], [0x61], 3, fresh, by decide, rfl, (hroot.enters hdirs).1⟩
  refine ⟨hcreate, fun w₁ hw₁ => ?_⟩
  obtain ⟨w₁', hw₁', -, hsame⟩ := create_inv (hnew.inv (by decide)) (by decide) hcreate
  obtain rfl := Except.ok.inj (hw₁'.symm.trans hw₁)
  rw [hw₁] at hcreated
  obtain ⟨htakes, hhandles⟩ := of_decide_eq_true (Option.some.inj hcreated)
  have hdirs₁ : ∀ d, w₁'.fs.IsDir d → d = 3 := fun d hd => hdirs d ((hsame d).mp hd)
  refine ⟨⟨[], [0x62], 3, w₁'.fs, by decide, rfl, htakes.enters hdirs₁⟩,
    fun w₂ hw₂ => ⟨?_, fun w₃ hw₃ => ⟨?_, fun _ _ => trivial⟩⟩⟩
  · -- a directory is made without a handle
    have h2 : w₂.handles = w₁'.handles := by
      have hw₂ : (Starfs.mkdir [slash, 0x62] w₁'.fs).map (fun r => World.mk r.2 w₁'.handles) = .ok w₂ := hw₂
      cases hr : Starfs.mkdir [slash, 0x62] w₁'.fs with
      | error e =>
        rw [hr] at hw₂
        cases hw₂
      | ok r =>
        rw [hr] at hw₂
        cases hw₂
        rfl
    show 6 ∈ w₂.handles
    rw [h2, hhandles]
    exact List.mem_singleton.mpr rfl
  · intro ino t hget _
    rw [List.foldlM_cons, Lib.ok_bind hw₁, List.foldlM_cons, Lib.ok_bind hw₂, List.foldlM_cons,
      Lib.ok_bind hw₃] at hopened
    have hlink : (getinode headerPath w₃.fs).toOption.map (fun r => (r.2.ino r.1).linkcount) = some 1 := hopened
    rw [hget] at hlink
    have hone : (t.ino ino).linkcount = 1 := Option.some.inj hlink
    rw [hone]
    decide

theorem link_counts_right_handling : ∃ w, handling.foldlM Op.run ⟨fresh, []⟩ = .ok w ∧ LinkCounts w :=
  link_counts_right (by decide) (by decide) (fun n h1 h2 => by omega) fresh_mounted
    (fun op ho => by
      fin_cases ho
      · show (0 : UInt8) ∉ [slash, 0x61]
        decide
      · show (0 : UInt8) ∉ [slash, 0x62]
        decide
      · trivial
      · show (0 : UInt8) ∉ headerPath
        decide) handling_meets handling [] rfl

/-- When the name is refused, `create` leaves an inode that has a link and is nowhere. -/
theorem create_refused {x : Int} (h : Inv ⟨s, []⟩) (hf : ∃ n < s.inodes, n < 2 ^ 32 ∧ (s.ino n).linkcount = 0)
    (hc : Starfs.create path s = .ok ((x, none), t)) : ∃ r < t.inodes, t.named r = 0 ∧ (t.ino r).linkcount = 1 := by
  obtain ⟨ino, s1, h1, hc⟩ := bind_eq_ok.mp hc
  obtain ⟨newino, s2, h2, hc⟩ := bind_eq_ok.mp hc
  obtain ⟨name, s3, h3, hc⟩ := bind_eq_ok.mp hc
  obtain ⟨b, s4, h4, hc⟩ := bind_eq_ok.mp hc
  have q1 := (isQuiet_getparentinode path).quiet h1
  have hI := h.quiet q1
  obtain ⟨r, halloc, hlt, -, hr0⟩ := allocInode_ok hI.dirs (by simpa only [q1.ino, q1.sameDirs.inodes] using hf)
  obtain ⟨rfl, rfl⟩ := Prod.mk.inj (Except.ok.inj (halloc.symm.trans h2))
  have hsame := newInode_sameDirs hI hlt hr0
  have hnamed : s1.named r = 0 := by
    have hcount : (s1.ino r).linkcount = s1.named r := hI.count r hlt
    exact hcount.symm.trans hr0
  cases b with
  | true =>
    obtain ⟨⟨⟩, s5, -, hc⟩ := bind_eq_ok.mp hc
    obtain ⟨e, -⟩ := pure_eq_ok.mp hc
    cases (Prod.mk.inj e).2
  | false =>
    obtain ⟨⟨⟩, s5, h5, hc⟩ := bind_eq_ok.mp hc
    obtain ⟨-, rfl⟩ := pure_eq_ok.mp hc
    have q := (((isQuiet_lastName path).quiet h3).trans (addToDir_refused h4)).trans ((isQuiet_freeInode r).quiet h5)
    refine ⟨r, ?_, ?_, ?_⟩
    · rw [q.sameDirs.inodes, hsame.inodes]
      exact hlt
    · rw [q.sameDirs.named, hsame.named, hnamed]
    · rw [q.ino, ino_putIno_self _ _ newInode_wf]
      rfl

theorem run_of_refused {x : Int} (hc : Starfs.create path s = .ok ((x, none), t)) :
    (Op.create path).run ⟨s, []⟩ = .ok ⟨t, []⟩ := by
  show (Starfs.create path s).map _ = _
  rw [hc]
  rfl

/-- Creating a file that exists: the inode taken for it has a link that is nowhere. -/
theorem failed_create_leaks_a_link :
    mount (mkfs (created (2 ^ 20)) (2 ^ 20)) (fun _ _ => 0) = some fresh ∧
      ∃ w, [Op.create headerPath].foldlM Op.run ⟨fresh, []⟩ = .ok w ∧ ¬ LinkCounts w := by
  refine ⟨fresh_mounted, ?_⟩
  have hnew : NewLinks fresh (2 ^ 20) := newLinks (by decide) (by decide) (fun n h1 h2 => by omega) fresh_mounted
  have hfree : ∃ n < fresh.inodes, n < 2 ^ 32 ∧ (fresh.ino n).linkcount = 0 :=
    ⟨6, by rw [hnew.inodes]; decide, by decide, (hnew.linked 6 (by decide)).trans (if_neg (by decide))⟩
  have h : (Starfs.create headerPath fresh).toOption.map (fun p => p.1.2) = some none := by decide +kernel
  cases hrun : Starfs.create headerPath fresh with
  | error e => simp [hrun, Except.toOption] at h
  | ok p =>
    obtain ⟨⟨x, o⟩, t⟩ := p
    rw [hrun] at h
    obtain rfl : o = none := Option.some.inj h
    obtain ⟨r, hr, hnamed, hlink⟩ := create_refused (hnew.inv (by decide)) hfree hrun
    refine ⟨⟨t, []⟩, ?_, fun hc => ?_⟩
    · rw [List.foldlM_cons, Lib.ok_bind (run_of_refused hrun)]
      rfl
    · have hcount : (t.ino r).linkcount = t.named r := hc.count r hr
      rw [hlink, hnamed] at hcount
      exact absurd hcount (by decide)

end Rodvin.Starfs
