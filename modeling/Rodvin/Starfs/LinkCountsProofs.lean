/-
  Rodvin.Starfs.LinkCountsProofs — link counts over runs.

  `Dirs` says that the directories in use are well-formed, apart from one another and
  can be written. What keeps their inodes and contents keeps `Dirs` and what they name
  (`SameDirs`); a new entry adds one to what it names (`Dirs.enter`). The counts then
  follow for each operation that meets its condition (`step_inv`), and for runs.
-/

import Rodvin.Starfs.LinkCounts

namespace Rodvin.Starfs

open Rodvin.Lib

variable {s t u : Fs} {d k n : Nat} {es : List (Name × Nat)} {name : Name}

/-! ## What a directory names -/

theorem inodesIn_eq {b : Buf} {o : Nat} (h : Held b.at o es) (hok : ∀ e ∈ es, EntryOk e) :
    inodesIn b es.length o = es.map Prod.snd := by
  induction es generalizing o with
  | nil => rfl
  | cons e es ih =>
    have he := hok e (List.mem_cons_self ..)
    rw [List.length_cons, inodesIn, nextEntry_eq h he, ih h.tail fun e' he' => hok e' (List.mem_cons_of_mem e he'),
      List.map_cons]
    exact congrArg (· :: _) (h.head he).1

theorem entries_eq (hok : ∀ e ∈ es, EntryOk e) (hl : es.length < 2 ^ 32) (hc : s.content d = dirContent es) :
    s.entries d = es.map Prod.snd := by
  have hb : (⟨s.content d, fun _ => 0⟩ : Buf).bytes = dirContent es ++ [] := by
    rw [List.append_nil, ← hc]
  obtain ⟨-, hcount, hheld⟩ := read_dirContent hb hl
  unfold Fs.entries
  dsimp only
  rw [hcount, inodesIn_eq hheld hok]

theorem entries_congr (h : t.content d = s.content d) : t.entries d = s.entries d := by
  unfold Fs.entries
  rw [h]

theorem named_congr (hi : t.inodes = s.inodes) (hd : ∀ d, t.IsDir d ↔ s.IsDir d)
    (he : ∀ d, s.IsDir d → t.entries d = s.entries d) (n : Nat) : t.named n = s.named n := by
  unfold Fs.named
  rw [hi]
  refine Finset.sum_congr rfl fun d _ => ?_
  by_cases hdir : s.IsDir d
  · rw [if_pos hdir, if_pos ((hd d).mpr hdir), he d hdir]
  · rw [if_neg hdir, if_neg (mt (hd d).mp hdir)]

/-- One more entry in one directory. -/
theorem named_add (hi : t.inodes = s.inodes) (hd : ∀ k, t.IsDir k ↔ s.IsDir k) (hdir : s.IsDir d)
    (he : ∀ k, s.IsDir k → k ≠ d → t.entries k = s.entries k) (hself : t.entries d = s.entries d ++ [k]) (n : Nat) :
    t.named n = s.named n + if k = n then 1 else 0 := by
  have hsum : ∀ j ∈ Finset.range s.inodes, (if t.IsDir j then (t.entries j).count n else 0) =
      (if s.IsDir j then (s.entries j).count n else 0) + if d = j then (if k = n then 1 else 0) else 0 := by
    intro j _
    by_cases hj : s.IsDir j
    · rw [if_pos hj, if_pos ((hd j).mpr hj)]
      by_cases hjd : d = j
      · subst hjd
        rw [if_pos rfl, hself, List.count_append, List.count_singleton]
        simp
      · rw [if_neg hjd, he j hj (Ne.symm hjd), Nat.add_zero]
    · have hjd : d ≠ j := by
        rintro rfl
        exact hj hdir
      rw [if_neg hj, if_neg (mt (hd j).mp hj), if_neg hjd]
  unfold Fs.named
  rw [hi, Finset.sum_congr rfl hsum, Finset.sum_add_distrib, Finset.sum_ite_eq, if_pos (Finset.mem_range.mpr hdir.1)]

theorem named_ne_zero (hd : s.IsDir d) (hn : n ∈ s.entries d) : s.named n ≠ 0 := by
  have hle : (if s.IsDir d then (s.entries d).count n else 0) ≤ s.named n :=
    Finset.single_le_sum (f := fun d => if s.IsDir d then (s.entries d).count n else 0) (fun _ _ => Nat.zero_le _)
      (Finset.mem_range.mpr hd.1)
  rw [if_pos hd] at hle
  have := List.count_pos_iff.mpr hn
  omega

/-! ## The directories in use -/

/-- The bytes of two files. -/
def Apart (i j : Inode) : Prop :=
  4096 * i.ext.startblock + i.filesize ≤ 4096 * j.ext.startblock ∨
    4096 * j.ext.startblock + j.filesize ≤ 4096 * i.ext.startblock

structure Dirs (s : Fs) : Prop where
  table : ∀ n < s.inodes, s.Mapped n
  six : 6 ≤ s.inodes
  system : (s.ino 2).flags &&& INO_DIRECTORY = 0 ∧ (s.ino 4).flags &&& INO_DIRECTORY = 0
  direct : (s.ino 4).Direct
  free : s.tableEnd ≤ 4096 * (s.ino 4).ext.startblock ∧ 4096 * ((s.ino 4).ext.startblock + (s.ino 4).ext.length) < 2 ^ 62
  placed : ∀ d, s.IsDir d → Placed s d
  entries : ∀ d, s.IsDir d → ∃ es, s.content d = dirContent es ∧ es.length < 2 ^ 32 ∧ ∀ e ∈ es, EntryOk e ∧ e.2 < s.inodes
  apart : ∀ d k, s.IsDir d → s.IsDir k → d ≠ k → Apart (s.ino d) (s.ino k)

/-- All but the link count is the same. -/
structure Alike (i j : Inode) : Prop where
  flags : j.flags = i.flags
  filesize : j.filesize = i.filesize
  ext : j.ext = i.ext

/-- The directories in use are the same, with their contents. -/
structure SameDirs (s t : Fs) : Prop where
  maplen : t.maplen = s.maplen
  size : s.size ≤ t.size
  table : Alike (s.ino 2) (t.ino 2)
  free : Alike (s.ino 4) (t.ino 4)
  isDir : ∀ d, t.IsDir d ↔ s.IsDir d
  inode : ∀ d, s.IsDir d → Alike (s.ino d) (t.ino d)
  content : ∀ d, s.IsDir d → t.content d = s.content d

theorem Alike.refl (i : Inode) : Alike i i := ⟨rfl, rfl, rfl⟩

theorem Readable.alike (h : Readable s d) (hm : t.maplen = s.maplen) (hsize : s.size ≤ t.size)
    (ha : Alike (s.ino d) (t.ino d)) : Readable t d := by
  obtain ⟨hf, hs, he⟩ := ha
  obtain ⟨h1, h2, h3, h4, h5, h6⟩ := h
  refine ⟨?_, ?_, ?_, ?_, ?_, ?_⟩
  · unfold Fs.Mapped
    rw [hm]
    exact h1
  · unfold Inode.Direct
    rw [hf]
    exact h2
  · rw [hs, he]
    exact h3
  · rw [he]
    exact h4
  · rw [hs, he]
    exact h5
  · rw [hs, he]
    exact fun h0 => le_trans (h6 h0) hsize

theorem Placed.alike (h : Placed s d) (hm : t.maplen = s.maplen) (hsize : s.size ≤ t.size)
    (ha : Alike (s.ino d) (t.ino d)) (ha4 : Alike (s.ino 4) (t.ino 4)) : Placed t d := by
  have hread := h.readable.alike hm hsize ha
  obtain ⟨hf, hs, he⟩ := ha
  obtain ⟨hf4, -, he4⟩ := ha4
  obtain ⟨hr, h1, h2, h3, h4, h5, h6⟩ := h
  refine ⟨hread, ?_, ?_, ⟨?_, ?_⟩, ?_, ?_, ?_⟩
  · rw [hf]
    exact h1
  · rw [hf]
    exact h2
  · unfold Fs.Mapped
    rw [hm]
    exact h3.1
  · unfold Inode.Direct
    rw [hf4]
    exact h3.2
  · rw [he, he4]
    exact h4
  · unfold Fs.tableEnd
    rw [hm, he]
    exact h5
  · rw [he]
    exact h6

namespace SameDirs

theorem inodes (h : SameDirs s t) : t.inodes = s.inodes := by
  unfold Fs.inodes
  rw [h.table.filesize]

theorem mapped (h : SameDirs s t) : t.Mapped n ↔ s.Mapped n := by
  unfold Fs.Mapped
  rw [h.maplen]

theorem tableEnd (h : SameDirs s t) : t.tableEnd = s.tableEnd := by
  unfold Fs.tableEnd
  rw [h.maplen]

theorem named (h : SameDirs s t) (n : Nat) : t.named n = s.named n :=
  named_congr h.inodes h.isDir (fun d hd => entries_congr (h.content d hd)) n

theorem placed (h : SameDirs s t) (hd : s.IsDir d) (hp : Placed s d) : Placed t d :=
  hp.alike h.maplen h.size (h.inode d hd) h.free

theorem dirs (h : SameDirs s t) (hs : Dirs s) : Dirs t := by
  refine ⟨fun n hn => h.mapped.mpr (hs.table n (h.inodes ▸ hn)), ?_, ?_, ?_, ?_, fun d hd => ?_, fun d hd => ?_,
    fun d k hd hk hne => ?_⟩
  · rw [h.inodes]
    exact hs.six
  · rw [h.table.flags, h.free.flags]
    exact hs.system
  · unfold Inode.Direct
    rw [h.free.flags]
    exact hs.direct
  · rw [h.tableEnd, h.free.ext]
    exact hs.free
  · have hd := (h.isDir d).mp hd
    exact h.placed hd (hs.placed d hd)
  · have hd := (h.isDir d).mp hd
    rw [h.content d hd, h.inodes]
    exact hs.entries d hd
  · have hd := (h.isDir d).mp hd
    have hk := (h.isDir k).mp hk
    unfold Apart
    rw [(h.inode d hd).filesize, (h.inode d hd).ext, (h.inode k hk).filesize, (h.inode k hk).ext]
    exact hs.apart d k hd hk hne

end SameDirs

theorem Quiet.sameDirs (h : Quiet s t) : SameDirs s t := by
  have hi : t.inodes = s.inodes := by
    unfold Fs.inodes
    rw [h.ino]
  refine ⟨h.maplen, h.size.ge, ?_, ?_, fun d => ?_, fun d _ => ?_, fun d _ => h.content d⟩
  · rw [h.ino]
    exact .refl _
  · rw [h.ino]
    exact .refl _
  · unfold Fs.IsDir
    rw [hi, h.ino]
  · rw [h.ino]
    exact .refl _

/-! ## Changes of one inode -/

theorem slice_putIno {i : Inode} {a m : Nat} (h : inodeAddr n + 32 ≤ a) :
    slice (s.putIno n i).disk a m = slice s.disk a m :=
  slice_splice_of_disjoint (.inr (by rw [length_encode]; exact h))

theorem Dirs.two (h : Dirs s) : s.Mapped 2 := h.table 2 (lt_of_lt_of_le (by decide) h.six)

theorem Dirs.four (h : Dirs s) : s.Mapped 4 := h.table 4 (lt_of_lt_of_le (by decide) h.six)

/-- An inode that is no directory before and after, or that changes in its link count only. -/
theorem Dirs.putIno {i : Inode} (h : Dirs s) (hn : n < s.inodes) (hi : i.Wf)
    (hdir : i.flags &&& INO_DIRECTORY ≠ 0 ∧ i.linkcount ≠ 0 ↔ s.IsDir n)
    (hsame : s.IsDir n ∨ n = 2 ∨ n = 4 → Alike (s.ino n) i) : SameDirs s (s.putIno n i) := by
  have hm := h.table n hn
  have hself := ino_putIno_self s n hi
  have halike : ∀ k, (s.IsDir k ∨ k = 2 ∨ k = 4) → Alike (s.ino k) ((s.putIno n i).ino k) := by
    intro k hk
    by_cases hkn : k = n
    · subst hkn
      rw [hself]
      exact hsame hk
    · rw [ino_putIno_of_ne s i hkn]
      exact .refl _
  have hinodes : (s.putIno n i).inodes = s.inodes := by
    unfold Fs.inodes
    rw [(halike 2 (.inr (.inl rfl))).filesize]
  refine ⟨rfl, le_refl _, halike 2 (.inr (.inl rfl)), halike 4 (.inr (.inr rfl)), fun d => ?_,
    fun d hd => halike d (.inl hd),
    fun d hd => ?_⟩
  · unfold Fs.IsDir at hdir ⊢
    rw [hinodes]
    by_cases hdn : d = n
    · subst hdn
      rw [hself, hdir]
      exact and_iff_right_of_imp fun hd => hd.1
    · rw [ino_putIno_of_ne s i hdn]
  · have ha := (halike d (.inl hd))
    have hb := (h.placed d hd).behind
    have haddr := hm.addr_le
    unfold Fs.content
    rw [ha.filesize, ha.ext]
    exact slice_putIno (by omega)

/-- Counting one link more or less. -/
theorem Dirs.setLinks {l : Nat} (h : Dirs s) (hn : n < s.inodes) (hl : l < 2 ^ 32)
    (hdir : s.IsDir n → l ≠ 0) (hnot : (s.ino n).linkcount = 0 → l = 0) : SameDirs s (s.putIno n { s.ino n with linkcount := l }) := by
  have hi := ino_wf s n
  refine h.putIno hn ⟨hi.flags, hl, hi.filesize, hi.startblock, hi.length⟩ ⟨fun hd => ?_, fun hd => ?_⟩ fun _ => ⟨rfl, rfl, rfl⟩
  · exact ⟨hn, hd.1, fun h0 => hd.2 (hnot h0)⟩
  · exact ⟨hd.2.1, hdir hd⟩

/-! ## A new entry -/

theorem ino_stored {i : Inode} {buffer : List UInt8} (h : Dirs s) (hst : Stored s t d i buffer)
    (hb : s.tableEnd ≤ 4096 * i.ext.startblock) (hne : k ≠ d) (hk : k < s.inodes) : t.ino k = s.ino k :=
  hst.ino_of_ne (h.table k hk) hb hne

/-- Writing one more entry of a directory, clear of the others. -/
structure Entered (s t : Fs) (d : Nat) (es : List (Name × Nat)) (name : Name) (newino : Nat) : Prop where
  isDir : s.IsDir d
  content : s.content d = dirContent es
  stored : Stored s t d ((s.ino d).grown (dirContent (es ++ [(name, newino)])).length) (dirContent (es ++ [(name, newino)]))
  ok : ∀ e ∈ es ++ [(name, newino)], EntryOk e ∧ e.2 < s.inodes
  count : es.length + 1 < 2 ^ 32
  clear : Clear s d (4096 * (s.ino d).ext.startblock) ((s.ino d).filesize + (name.length + 7))

namespace Entered

variable {newino : Nat}

theorem ok_old (h : Entered s t d es name newino) : ∀ e ∈ es, EntryOk e ∧ e.2 < s.inodes := fun e he =>
  h.ok e (List.mem_append_left _ he)

theorem length (h : Entered s t d es name newino) :
    (dirContent (es ++ [(name, newino)])).length = (s.ino d).filesize + (name.length + 7) := by
  rw [← length_content, h.content, length_dirContent, length_dirContent, records_append, List.length_append,
    length_records_cons]
  show 8 + ((records es).length + (name.length + 7 + 0)) = _
  omega

theorem small (h : Entered s t d es name newino) : (dirContent (es ++ [(name, newino)])).length < 2 ^ 50 :=
  length_dirContent_lt (fun e he => (h.ok e he).1) (by rw [List.length_append]; exact h.count)

theorem placed (hs : Dirs s) (h : Entered s t d es name newino) :
    Placed t d ∧ t.content d = dirContent (es ++ [(name, newino)]) :=
  (hs.placed d h.isDir).stored (filesize_ne_zero h.content) (lt_trans h.small (by decide)) h.stored

/-- The inode of the directory. -/
theorem ino_self (hs : Dirs s) (h : Entered s t d es name newino) :
    t.ino d = (s.ino d).grown (dirContent (es ++ [(name, newino)])).length := by
  have hp := hs.placed d h.isDir
  exact h.stored.ino_self hp.readable.mapped hp.behind ((ino_wf s d).grown _ (lt_trans h.small (by decide)))

theorem ino_of_ne (hs : Dirs s) (h : Entered s t d es name newino) (hne : k ≠ d) (hk : k < s.inodes) :
    t.ino k = s.ino k :=
  ino_stored hs h.stored (hs.placed d h.isDir).behind hne hk

theorem not_system (hs : Dirs s) (h : Entered s t d es name newino) : 2 ≠ d ∧ 4 ≠ d := by
  constructor
  · rintro rfl
    exact h.isDir.2.1 hs.system.1
  · rintro rfl
    exact h.isDir.2.1 hs.system.2

theorem inodes (hs : Dirs s) (h : Entered s t d es name newino) : t.inodes = s.inodes := by
  unfold Fs.inodes
  rw [h.ino_of_ne hs (h.not_system hs).1 (lt_of_lt_of_le (by decide) hs.six)]

theorem linkcount (hs : Dirs s) (h : Entered s t d es name newino) (hk : k < s.inodes) :
    (t.ino k).flags = (s.ino k).flags ∧ (t.ino k).linkcount = (s.ino k).linkcount := by
  by_cases hkd : k = d
  · subst hkd
    rw [h.ino_self hs]
    exact ⟨rfl, rfl⟩
  · rw [h.ino_of_ne hs hkd hk]
    exact ⟨rfl, rfl⟩

theorem isDir_iff (hs : Dirs s) (h : Entered s t d es name newino) (k : Nat) : t.IsDir k ↔ s.IsDir k := by
  unfold Fs.IsDir
  rw [h.inodes hs]
  refine and_congr_right fun hk => ?_
  rw [(h.linkcount hs hk).1, (h.linkcount hs hk).2]

theorem content_of_ne (hs : Dirs s) (h : Entered s t d es name newino) (hk : s.IsDir k) (hne : k ≠ d) :
    t.content k = s.content k := by
  have hclear := h.clear k hk hne
  have hp := hs.placed k hk
  have hb := hp.behind
  have haddr := (hs.placed d h.isDir).readable.mapped.addr_le
  unfold Fs.content
  rw [h.ino_of_ne hs hne hk.1, h.stored.disk]
  have hstart : ((s.ino d).grown (dirContent (es ++ [(name, newino)])).length).ext.startblock = (s.ino d).ext.startblock := rfl
  rw [hstart, slice_splice_of_disjoint (by rw [h.length]; omega)]
  exact slice_putIno (by omega)

/-- The other directories are where they were, and what is named is one more. -/
theorem dirs (hs : Dirs s) (h : Entered s t d es name newino) :
    Dirs t ∧ ∀ n, t.named n = s.named n + if newino = n then 1 else 0 := by
  have hinodes := h.inodes hs
  have hdirs := h.isDir_iff hs
  obtain ⟨hplaced, hcontent⟩ := h.placed hs
  have hsize : s.size ≤ t.size := by
    rw [h.stored.size]
    exact le_max_left _ _
  have hlen := h.length
  have hino2 := h.ino_of_ne hs (h.not_system hs).1 (lt_of_lt_of_le (by decide) hs.six)
  have hino4 := h.ino_of_ne hs (h.not_system hs).2 (lt_of_lt_of_le (by decide) hs.six)
  have hself : (t.ino d).ext.startblock = (s.ino d).ext.startblock ∧
      (t.ino d).filesize = (s.ino d).filesize + (name.length + 7) := by
    rw [h.ino_self hs, ← hlen]
    exact ⟨rfl, rfl⟩
  have hclear : ∀ k, s.IsDir k → k ≠ d → Apart (t.ino d) (s.ino k) := by
    intro k hk hne
    have := h.clear k hk hne
    unfold Apart
    rw [hself.1, hself.2]
    omega
  have htable : ∀ n < t.inodes, t.Mapped n := by
    rw [hinodes]
    exact fun n hn => h.stored.mapped.mpr (hs.table n hn)
  have hsix : 6 ≤ t.inodes := by
    rw [hinodes]
    exact hs.six
  have hsystem : (t.ino 2).flags &&& INO_DIRECTORY = 0 ∧ (t.ino 4).flags &&& INO_DIRECTORY = 0 := by
    rw [hino2, hino4]
    exact hs.system
  have hdirect : (t.ino 4).Direct := by
    rw [hino4]
    exact hs.direct
  have hfree : t.tableEnd ≤ 4096 * (t.ino 4).ext.startblock ∧
      4096 * ((t.ino 4).ext.startblock + (t.ino 4).ext.length) < 2 ^ 62 := by
    rw [h.stored.tableEnd, hino4]
    exact hs.free
  refine ⟨⟨htable, hsix, hsystem, hdirect, hfree, fun k hk => ?_, fun k hk => ?_, fun k j hk hj hne => ?_⟩,
    named_add hinodes hdirs h.isDir (fun k hk hne => entries_congr (h.content_of_ne hs hk hne)) ?_⟩
  · by_cases hkd : k = d
    · rw [hkd]
      exact hplaced
    · have hk := (hdirs k).mp hk
      have ha : Alike (s.ino k) (t.ino k) := by
        rw [h.ino_of_ne hs hkd hk.1]
        exact .refl _
      have ha4 : Alike (s.ino 4) (t.ino 4) := by
        rw [hino4]
        exact .refl _
      exact (hs.placed k hk).alike h.stored.maplen hsize ha ha4
  · by_cases hkd : k = d
    · rw [hkd, hinodes]
      exact ⟨es ++ [(name, newino)], hcontent, by rw [List.length_append]; exact h.count, h.ok⟩
    · have hk := (hdirs k).mp hk
      rw [hinodes, h.content_of_ne hs hk hkd]
      exact hs.entries k hk
  · have hk := (hdirs k).mp hk
    have hj := (hdirs j).mp hj
    by_cases hkd : k = d
    · subst hkd
      rw [h.ino_of_ne hs (Ne.symm hne) hj.1]
      exact hclear j hj (Ne.symm hne)
    · rw [h.ino_of_ne hs hkd hk.1]
      by_cases hjd : j = d
      · subst hjd
        exact (hclear k hk hkd).symm
      · rw [h.ino_of_ne hs hjd hj.1]
        exact hs.apart k j hk hj hne
  · have hok := fun e he => (h.ok e he).1
    rw [entries_eq hok (by rw [List.length_append]; exact h.count) hcontent,
      entries_eq (fun e he => (h.ok_old e he).1) (Nat.lt_of_succ_lt h.count) h.content, List.map_append]
    rfl

end Entered

/-! ## A new directory -/

/-- The inode of a new directory with block `b`. -/
def dirInode (b : Nat) : Inode := ⟨INO_DIRECTORY, 1, 8, ⟨b, 1⟩⟩

/-- A new inode `n` becomes a directory in the first block of the free extent. -/
structure MadeDir (s t : Fs) (n : Nat) : Prop where
  fresh : s.ino n = newInode
  lt : n < s.inodes
  enough : 1 < (s.ino 4).ext.length
  clear : Clear s n (4096 * (s.ino 4).ext.startblock) 8
  stored : Stored ((s.putIno n { newInode with flags := INO_DIRECTORY }).putIno 4 ((s.ino 4).without 1)) t n
    (dirInode (s.ino 4).ext.startblock) (dirContent [])

namespace MadeDir

theorem ne (h : MadeDir s t n) : n ≠ 4 := by
  rintro rfl
  have := h.enough
  rw [h.fresh] at this
  exact absurd this (by decide)

theorem wf (hs : Dirs s) : (dirInode (s.ino 4).ext.startblock).Wf := by
  have := hs.free.2
  exact ⟨show INO_DIRECTORY < 2 ^ 32 by decide, show 1 < 2 ^ 32 by decide, show 8 < 2 ^ 64 by decide,
    show (s.ino 4).ext.startblock < 2 ^ 64 by omega, show 1 < 2 ^ 64 by decide⟩

theorem ino_self (hs : Dirs s) (h : MadeDir s t n) : t.ino n = dirInode (s.ino 4).ext.startblock :=
  h.stored.ino_self (hs.table n h.lt) hs.free.1 (wf hs)

theorem ino_four (hs : Dirs s) (h : MadeDir s t n) : t.ino 4 = (s.ino 4).without 1 := by
  have := hs.free.2
  rw [h.stored.ino_of_ne hs.four hs.free.1 (Ne.symm h.ne), ino_putIno_self _ _ ((ino_wf s 4).without (by omega))]

theorem ino_of_ne (hs : Dirs s) (h : MadeDir s t n) (hk : k < s.inodes) (hn : k ≠ n) (h4 : k ≠ 4) :
    t.ino k = s.ino k := by
  rw [h.stored.ino_of_ne (hs.table k hk) hs.free.1 hn, ino_putIno_of_ne _ _ h4, ino_putIno_of_ne _ _ hn]

theorem two (hs : Dirs s) (h : MadeDir s t n) (h2 : n ≠ 2) : t.ino 2 = s.ino 2 :=
  h.ino_of_ne hs (lt_of_lt_of_le (by decide) hs.six) (Ne.symm h2) (by decide)

theorem linkcount (hs : Dirs s) (h : MadeDir s t n) (hk : k < s.inodes) :
    (t.ino k).linkcount = (s.ino k).linkcount := by
  by_cases hn : k = n
  · rw [hn, h.ino_self hs, h.fresh]
    rfl
  · by_cases h4 : k = 4
    · rw [h4, h.ino_four hs]
      rfl
    · rw [h.ino_of_ne hs hk hn h4]

theorem not_dir (h : MadeDir s t n) : ¬ s.IsDir n := by
  intro hd
  have := hd.2.1
  rw [h.fresh] at this
  exact this rfl

theorem isDir_iff (hs : Dirs s) (h : MadeDir s t n) (h2 : n ≠ 2) (k : Nat) : t.IsDir k ↔ s.IsDir k ∨ k = n := by
  have hi : t.inodes = s.inodes := by
    unfold Fs.inodes
    rw [h.two hs h2]
  unfold Fs.IsDir
  rw [hi]
  by_cases hk : k = n
  · rw [hk, h.ino_self hs]
    exact iff_of_true ⟨h.lt, show INO_DIRECTORY &&& INO_DIRECTORY ≠ 0 by decide, Nat.one_ne_zero⟩ (.inr rfl)
  · rw [or_iff_left hk]
    refine and_congr_right fun hlt => ?_
    by_cases h4 : k = 4
    · rw [h4, h.ino_four hs]
      rfl
    · rw [h.ino_of_ne hs hlt hk h4]

theorem content_self (hs : Dirs s) (h : MadeDir s t n) : t.content n = dirContent [] :=
  h.stored.content_self (hs.table n h.lt) hs.free.1 (wf hs) rfl

theorem content_of_ne (hs : Dirs s) (h : MadeDir s t n) (hk : s.IsDir k) : t.content k = s.content k := by
  have hn : k ≠ n := fun he => h.not_dir (he ▸ hk)
  have h4 : k ≠ 4 := fun he => hk.2.1 (he ▸ hs.system.2)
  have hb := (hs.placed k hk).behind
  have hclear : 4096 * (s.ino k).ext.startblock + (s.ino k).filesize ≤ 4096 * (s.ino 4).ext.startblock ∨
      4096 * (s.ino 4).ext.startblock + (dirContent []).length ≤ 4096 * (s.ino k).ext.startblock :=
        (h.clear k hk hn).symm
  have ha := (hs.table n h.lt).addr_le
  have ha4 := hs.four.addr_le
  unfold Fs.content
  rw [h.ino_of_ne hs hk.1 hn h4, h.stored.disk]
  refine (slice_splice_of_disjoint hclear).trans ?_
  rw [slice_putIno (by omega), slice_putIno (by omega), slice_putIno (by omega)]

theorem placed_self (hs : Dirs s) (h : MadeDir s t n) : Placed t n := by
  have hfree := hs.free
  have hself := h.ino_self hs
  have hfour := h.ino_four hs
  have henough := h.enough
  have hsize : 4096 * (s.ino 4).ext.startblock + 8 ≤ t.size := by
    rw [h.stored.size]
    exact le_max_right _ _
  have hflags : (t.ino n).flags = INO_DIRECTORY := by rw [hself]; rfl
  have hfile : (t.ino n).filesize = 8 := by rw [hself]; rfl
  have hstart : (t.ino n).ext.startblock = (s.ino 4).ext.startblock := by rw [hself]; rfl
  have hlength : (t.ino n).ext.length = 1 := by rw [hself]; rfl
  have hnext : (t.ino 4).ext.startblock = (s.ino 4).ext.startblock + 1 := by rw [hfour]; rfl
  have hread : Readable t n := by
    refine ⟨h.stored.mapped.mpr (hs.table n h.lt), ?_, by omega, by omega, by omega, by omega⟩
    unfold Inode.Direct
    rw [hflags]
    decide
  have hdirect : (t.ino 4).Direct := by
    rw [hfour]
    exact hs.direct.without 1
  have hend : t.tableEnd = s.tableEnd := h.stored.tableEnd
  exact ⟨hread, by rw [hflags]; decide, by rw [hflags]; decide, ⟨h.stored.mapped.mpr hs.four, hdirect⟩, by omega,
    by omega, by omega⟩

theorem placed_of_ne (hs : Dirs s) (h : MadeDir s t n) (hk : s.IsDir k) : Placed t k := by
  have hn : k ≠ n := fun he => h.not_dir (he ▸ hk)
  have h4 : k ≠ 4 := fun he => hk.2.1 (he ▸ hs.system.2)
  have hp := hs.placed k hk
  have hi := h.ino_of_ne hs hk.1 hn h4
  have hfour := h.ino_four hs
  have henough := h.enough
  have hout := hp.outside
  have ha : Alike (s.ino k) (t.ino k) := by
    rw [hi]
    exact .refl _
  have hsize : s.size ≤ t.size := by
    rw [h.stored.size]
    exact le_max_left _ _
  have hend : t.tableEnd = s.tableEnd := h.stored.tableEnd
  have hnext : (t.ino 4).ext.startblock = (s.ino 4).ext.startblock + 1 ∧
      (t.ino 4).ext.length = (s.ino 4).ext.length - 1 := by
    rw [hfour]
    exact ⟨rfl, rfl⟩
  have hdirect : (t.ino 4).Direct := by
    rw [hfour]
    exact hs.direct.without 1
  refine ⟨hp.readable.alike h.stored.maplen hsize ha, ?_, ?_, ⟨h.stored.mapped.mpr hs.four, hdirect⟩, ?_, ?_, ?_⟩
  · rw [hi]
    exact hp.directory
  · rw [hi]
    exact hp.notSystem
  · rw [hi]
    omega
  · rw [hi, hend]
    exact hp.behind
  · rw [hi]
    exact hp.words

theorem dirs (hs : Dirs s) (h : MadeDir s t n) (h2 : n ≠ 2) : Dirs t ∧ ∀ m, t.named m = s.named m := by
  have hinodes : t.inodes = s.inodes := by
    unfold Fs.inodes
    rw [h.two hs h2]
  have hdirs := h.isDir_iff hs h2
  have hfour := h.ino_four hs
  have hfree := hs.free
  have henough := h.enough
  have hclear : ∀ k, s.IsDir k → Apart (t.ino n) (t.ino k) := by
    intro k hk
    have hn : k ≠ n := fun he => h.not_dir (he ▸ hk)
    have h4 : k ≠ 4 := fun he => hk.2.1 (he ▸ hs.system.2)
    rw [h.ino_self hs, h.ino_of_ne hs hk.1 hn h4]
    exact h.clear k hk hn
  have hnext : (t.ino 4).ext.startblock = (s.ino 4).ext.startblock + 1 ∧
      (t.ino 4).ext.length = (s.ino 4).ext.length - 1 := by
    rw [hfour]
    exact ⟨rfl, rfl⟩
  have hend : t.tableEnd = s.tableEnd := h.stored.tableEnd
  have htable : ∀ m < t.inodes, t.Mapped m := by
    rw [hinodes]
    exact fun m hm => h.stored.mapped.mpr (hs.table m hm)
  have hsix : 6 ≤ t.inodes := by
    rw [hinodes]
    exact hs.six
  refine ⟨⟨htable, hsix, ?_, ?_, by omega, fun k hk => ?_, fun k hk => ?_, fun k j hk hj hne => ?_⟩, fun m => ?_⟩
  · rw [h.two hs h2, hfour]
    exact hs.system
  · rw [hfour]
    exact hs.direct.without 1
  · rcases (hdirs k).mp hk with hk | rfl
    · exact h.placed_of_ne hs hk
    · exact h.placed_self hs
  · rw [hinodes]
    rcases (hdirs k).mp hk with hk | rfl
    · rw [h.content_of_ne hs hk]
      exact hs.entries k hk
    · exact ⟨[], h.content_self hs, by decide, fun e he => absurd he (List.not_mem_nil)⟩
  · rcases (hdirs k).mp hk with hk | rfl
    · rcases (hdirs j).mp hj with hj | rfl
      · have hkn : k ≠ n := fun he => h.not_dir (he ▸ hk)
        have hk4 : k ≠ 4 := fun he => hk.2.1 (he ▸ hs.system.2)
        have hjn : j ≠ n := fun he => h.not_dir (he ▸ hj)
        have hj4 : j ≠ 4 := fun he => hj.2.1 (he ▸ hs.system.2)
        rw [h.ino_of_ne hs hk.1 hkn hk4, h.ino_of_ne hs hj.1 hjn hj4]
        exact hs.apart k j hk hj hne
      · exact (hclear k hk).symm
    · exact hclear j (((hdirs j).mp hj).resolve_right (Ne.symm hne))
  · unfold Fs.named
    rw [hinodes]
    refine Finset.sum_congr rfl fun k _ => ?_
    by_cases hk : s.IsDir k
    · rw [if_pos hk, if_pos ((hdirs k).mpr (.inl hk)), entries_congr (h.content_of_ne hs hk)]
    · rw [if_neg hk]
      by_cases hkn : k = n
      · subst hkn
        have hent := entries_eq (fun e he => absurd he List.not_mem_nil) (by decide) (h.content_self hs)
        rw [hent]
        simp
      · exact if_neg (fun hd => ((hdirs k).mp hd).elim hk hkn)

end MadeDir

/-! ## Lookups -/

def InUse (s : Fs) (n : Nat) : Prop := n < s.inodes ∧ (s.ino n).linkcount ≠ 0

/-- What a lookup needs: it only comes upon inodes in use. -/
structure Lookups (s : Fs) : Prop where
  dirs : Dirs s
  kept : ∀ n < s.inodes, s.named n ≠ 0 → (s.ino n).linkcount ≠ 0
  root : InUse s 3

theorem inUse_ne_invalid (h : InUse s n) : n ≠ INVALID_INODE := by
  have h1 := h.1
  have h2 := (ino_wf s 2).filesize
  unfold Fs.inodes at h1
  unfold INVALID_INODE
  omega

theorem Quiet.inUse (h : Quiet s t) : InUse t n ↔ InUse s n := by
  unfold InUse
  rw [h.sameDirs.inodes, h.ino]

theorem Lookups.quiet (h : Lookups s) (hq : Quiet s t) : Lookups t := by
  refine ⟨hq.sameDirs.dirs h.dirs, fun n hn hnamed => ?_, hq.inUse.mpr h.root⟩
  rw [hq.sameDirs.inodes] at hn
  rw [hq.sameDirs.named] at hnamed
  rw [hq.ino]
  exact h.kept n hn hnamed

theorem Lookups.dirAt (h : Lookups s) (hd : s.IsDir d) : ∃ es, DirAt s d es ∧ ∀ e ∈ es, InUse s e.2 := by
  obtain ⟨es, hc, hl, hes⟩ := h.dirs.entries d hd
  have hp := h.dirs.placed d hd
  have hok : ∀ e ∈ es, EntryOk e := fun e he => (hes e he).1
  refine ⟨es, ⟨hp.readable, hp.directory, hok, hl, hc⟩, fun e he => ⟨(hes e he).2, h.kept e.2 (hes e he).2 ?_⟩⟩
  refine named_ne_zero hd ?_
  rw [entries_eq hok hl hc]
  exact List.mem_map_of_mem he

/-- A lookup returns an inode in use, or none. -/
def Returns (c : Fuse Nat) (s : Fs) : Prop := ∃ r t, c s = .ok (r, t) ∧ Quiet s t ∧ (r ≠ INVALID_INODE → InUse s r)

theorem findInDir_returns (h : Lookups s) (hd : InUse s d) (hn : (0 : UInt8) ∉ name) :
    Returns (findInDir d name) s := by
  by_cases hf : (s.ino d).flags &&& INO_DIRECTORY = 0
  · refine ⟨INVALID_INODE, s, ?_, .refl s, fun hne => absurd rfl hne⟩
    unfold findInDir
    rw [bind_ok (inodetab_ok (h.dirs.table d hd.1)), if_pos hf]
    rfl
  · obtain ⟨es, hat, hes⟩ := h.dirAt ⟨hd.1, hf, hd.2⟩
    obtain ⟨t, ht, hq⟩ := findInDir_ok hat hn
    refine ⟨_, t, ht, hq, fun hne => ?_⟩
    cases hl : es.lookup name with
    | none =>
      rw [hl] at hne
      exact absurd rfl hne
    | some r =>
      obtain ⟨l₁, l₂, rfl, -⟩ := List.lookup_eq_some_iff.mp hl
      exact hes (name, r) (List.mem_append_right _ (List.mem_cons_self ..))

theorem resolve_returns {ino : Nat} {acc : Name} {p : Path} (h : Lookups s) (hi : InUse s ino) (ha : (0 : UInt8) ∉ acc)
    (hp : (0 : UInt8) ∉ p) : Returns (resolve ino acc p) s := by
  induction p generalizing s ino acc with
  | nil =>
    unfold resolve
    split
    · exact ⟨ino, s, rfl, .refl s, fun _ => hi⟩
    · exact findInDir_returns h hi ha
  | cons x xs ih =>
    have hx : (0 : UInt8) ∉ xs := fun hm => hp (List.mem_cons_of_mem x hm)
    unfold resolve
    split
    · obtain ⟨r, t, ht, hq, hr⟩ := findInDir_returns h hi ha
      unfold Returns
      rw [bind_ok ht]
      by_cases hinv : r = INVALID_INODE
      · rw [if_pos hinv]
        exact ⟨INVALID_INODE, t, rfl, hq, fun hne => absurd rfl hne⟩
      · rw [if_neg hinv]
        obtain ⟨r', t', ht', hq', hr'⟩ := ih (h.quiet hq) (hq.inUse.mpr (hr hinv)) (List.not_mem_nil) hx
        exact ⟨r', t', ht', hq.trans hq', fun hne => hq.inUse.mp (hr' hne)⟩
    · refine ih h hi ?_ hx
      rw [List.mem_append, List.mem_singleton, not_or]
      exact ⟨ha, fun hm => hp (hm ▸ List.mem_cons_self ..)⟩

theorem getinode_returns {path : Path} (h : Lookups s) (hp : (0 : UInt8) ∉ path) : Returns (getinode path) s := by
  cases path with
  | nil => exact ⟨3, s, rfl, .refl s, fun _ => h.root⟩
  | cons x p => exact resolve_returns h h.root (List.not_mem_nil) (fun hm => hp (List.mem_cons_of_mem x hm))

theorem splitLast_terminated {path npath : Path} (h : splitLast path = some (npath, name)) (hp : (0 : UInt8) ∉ path) :
    (0 : UInt8) ∉ npath ∧ (0 : UInt8) ∉ name := by
  unfold splitLast at h
  split at h
  · obtain ⟨rfl, rfl⟩ := Prod.mk.inj (Option.some.inj h)
    exact ⟨fun hm => hp (List.mem_of_mem_take hm), fun hm => hp (List.mem_of_mem_drop hm)⟩
  · exact nomatch h

/-- The parent directory that an operation works on. -/
theorem AtParent.unfold {path : Path} {P : Fs → Nat → Name → Prop} (h : AtParent s path P) (hl : Lookups s)
    (hp : (0 : UInt8) ∉ path) :
    ∃ name parent t, getparentinode path s = .ok (parent, t) ∧ Quiet s t ∧ (∀ u, lastName path u = .ok (name, u)) ∧
      (0 : UInt8) ∉ name ∧ P t parent name ∧ (parent ≠ INVALID_INODE → InUse t parent) := by
  obtain ⟨npath, name, parent, t, hsplit, hget, hP⟩ := h
  obtain ⟨hnp, hnn⟩ := splitLast_terminated hsplit hp
  obtain ⟨r, t', ht', hq, hr⟩ := getinode_returns hl hnp
  rw [hget] at ht'
  obtain ⟨rfl, rfl⟩ := Prod.mk.inj (Except.ok.inj ht')
  refine ⟨name, parent, t, ?_, hq, fun u => ?_, hnn, hP, fun hne => hq.inUse.mpr (hr hne)⟩
  · unfold getparentinode
    rw [hsplit]
    exact hget
  · unfold lastName
    rw [hsplit]
    rfl

end Rodvin.Starfs
