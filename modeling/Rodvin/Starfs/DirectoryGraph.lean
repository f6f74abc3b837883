/-
  Rodvin.Starfs.DirectoryGraph — edits of one directory among all of a volume
  (`remove_from_dir`, `add_to_dir`, `getinode` of `tools/fuse_starfs/main.c`).

  `Listed` says which entries each directory of a volume has, however many it counts. An edit
  of one directory leaves the lists of the others, as long as it writes over none of them
  (`Room`): `removeFromDir_listed` and `addToDir_listed` say which lists there are behind it,
  whatever the memory holds. A path that the lists resolve is resolved by `getinode`
  (`resolve_listed`).
-/

import Rodvin.Starfs.Listings
import Rodvin.Starfs.Resolution

namespace Rodvin.Starfs

open Rodvin.Lib

variable {s t u : Fs} {d k n m count : Nat} {name : Name} {es : List (Name × Nat)}

/-! ## Writing one directory -/

/-- Directory `d` is written again, with entries `es`; other inodes, and other bytes behind the
    inode table, are as they were. -/
structure Rewritten (s t : Fs) (d count : Nat) (es : List (Name × Nat)) : Prop where
  lists : Lists t d count es
  maplen : t.maplen = s.maplen
  size : s.size ≤ t.size
  junk : t.junk = s.junk
  start : (t.ino d).ext.startblock = (s.ino d).ext.startblock
  flags : (t.ino d).flags = (s.ino d).flags
  inode : ∀ k, s.Mapped k → k ≠ d → t.ino k = s.ino k
  bytes : ∀ a n, s.tableEnd ≤ a → a + n ≤ 4096 * (s.ino d).ext.startblock ∨
    4096 * (s.ino d).ext.startblock + (8 + (records es).length) ≤ a → slice t.disk a n = slice s.disk a n

theorem Lists.rewritten {es' : List (Name × Nat)} (h : Lists s d k es') (hok : ∀ e ∈ es, EntryOk e)
    (hc : es.length ≤ count)
    (hs : count < 2 ^ 32)
    (hst : Stored s t d ((s.ino d).grown (countedContent count es).length) (countedContent count es)) :
    Rewritten s t d count es := by
  have hlen := length_countedContent count es
  have hrecords := length_records_le hok
  have hfile : (s.ino d).filesize ≠ 0 := by
    rw [h.filesize]
    omega
  obtain ⟨hplaced, hcontent⟩ := h.placed.stored hfile (by omega) hst
  have hself := hst.ino_self h.placed.readable.mapped h.placed.behind ((ino_wf s d).grown _ (by omega))
  refine ⟨⟨hplaced, hok, hc, hs, hcontent⟩, hst.maplen, ?_, hst.junk, ?_, ?_, fun k hk hne => ?_, fun a n ha hout => ?_⟩
  · rw [hst.size]
    exact le_max_left ..
  · rw [hself]
    rfl
  · rw [hself]
    rfl
  · exact hst.ino_of_ne hk h.placed.behind hne
  · have haddr := h.placed.readable.mapped.addr_le
    have hstart : ((s.ino d).grown (countedContent count es).length).ext.startblock = (s.ino d).ext.startblock := rfl
    rw [hst.disk, hstart, slice_splice_of_disjoint (by rw [hlen]; exact hout)]
    exact slice_putIno (by omega)

/-- One link less of the directory itself. -/
theorem Rewritten.unlinked (h : Rewritten s u d count es) (hq : Quiet (u.putIno d (u.ino d).unlinked) t) :
    Rewritten s t d count es := by
  have hm : u.Mapped d := h.lists.placed.readable.mapped
  have hwf := (ino_wf u d).unlinked
  have hself : (u.putIno d (u.ino d).unlinked).ino d = (u.ino d).unlinked := ino_putIno_self u d hwf
  have hbehind := h.lists.placed.behind
  have hfour : 4 ≠ d := by
    intro he
    have hout := h.lists.placed.outside
    have hheld := h.lists.placed.readable.held
    have hfile := h.lists.filesize
    rw [← he] at hout hheld hfile
    omega
  have halike : Alike (u.ino d) ((u.putIno d (u.ino d).unlinked).ino d) := by
    rw [hself]
    exact ⟨unlinked_flags _, unlinked_filesize _, unlinked_ext _⟩
  have halike4 : Alike (u.ino 4) ((u.putIno d (u.ino d).unlinked).ino 4) := by
    rw [ino_putIno_of_ne u _ hfour]
    exact .refl _
  have hplaced : Placed (u.putIno d (u.ino d).unlinked) d := h.lists.placed.alike rfl (Nat.le_refl _) halike halike4
  have hcontent : (u.putIno d (u.ino d).unlinked).content d = u.content d :=
    content_putIno hm hwf (unlinked_ext _) (unlinked_filesize _) hbehind
  have hend : u.tableEnd = s.tableEnd := by
    unfold Fs.tableEnd
    rw [h.maplen]
  refine ⟨Lists.quiet ⟨hplaced, h.lists.ok, h.lists.counted, h.lists.small, hcontent.trans h.lists.content⟩ hq,
    hq.maplen.trans h.maplen, ?_, hq.junk.trans h.junk, ?_, ?_, fun k hk hne => ?_, fun a n ha hout => ?_⟩
  · rw [hq.size]
    exact h.size
  · rw [hq.ino, hself, unlinked_ext]
    exact h.start
  · rw [hq.ino, hself, unlinked_flags]
    exact h.flags
  · rw [hq.ino, ino_putIno_of_ne u _ hne]
    exact h.inode k hk hne
  · have haddr := hm.addr_le
    rw [hq.disk, ← h.bytes a n ha hout]
    exact slice_putIno (by omega)

/-! ## Edits of a list -/

/-- The list without the name; the first entry stays. -/
def cut (name : Name) : List (Name × Nat) → List (Name × Nat)
  | [] => []
  | e :: es => e :: es.eraseP fun x => x.1 = name

theorem cut_eq_self (h : name ∉ es.tail.map Prod.fst) : cut name es = es := by
  cases es with
  | nil => rfl
  | cons e es =>
    have hmiss : ∀ x ∈ es, ¬ decide (x.1 = name) = true :=
      fun x hx hs => h (List.mem_map.mpr ⟨x, hx, of_decide_eq_true hs⟩)
    rw [cut, List.eraseP_of_forall_not hmiss]

theorem cut_sublist (name : Name) (es : List (Name × Nat)) : (cut name es).Sublist es := by
  cases es with
  | nil => exact List.Sublist.refl _
  | cons e es => exact (List.eraseP_sublist).cons_cons e

theorem removeFromDir_rewritten (h : Lists s d count es) (hn : (0 : UInt8) ∉ name) (hin : name ∈ es.tail.map Prod.fst) :
    ∃ t, removeFromDir d name s = .ok (true, t) ∧ Rewritten s t d count (cut name es) := by
  cases es with
  | nil => simp at hin
  | cons e es =>
    obtain ⟨m, hm⟩ : ∃ m, es.lookup name = some m := by
      rw [← Option.isSome_iff_exists]
      exact mapOf_isSome.mpr hin
    obtain ⟨pre, post, rfl, hpre⟩ := lookup_split hm
    have hcut : cut name (e :: (pre ++ (name, m) :: post)) = e :: (pre ++ post) := by
      rw [cut, List.eraseP_append_right _ fun x hx hs => hpre (List.mem_map.mpr ⟨x, hx, of_decide_eq_true hs⟩),
        List.eraseP_cons_of_pos (by simp)]
    obtain ⟨u, t, hr, hst, hq⟩ := removeFromDir_present h hn hpre
    have hok : ∀ x ∈ e :: (pre ++ post), EntryOk x := by
      intro x hx
      have hsub := cut_sublist name (e :: (pre ++ (name, m) :: post))
      rw [hcut] at hsub
      exact h.ok x (hsub.subset hx)
    have hcounted := h.counted
    have hrew := h.rewritten hok (by simp at hcounted ⊢; omega) h.small hst
    rw [hcut]
    exact ⟨t, hr, hrew.unlinked hq⟩

/-! ## All directories -/

/-- The entries of each directory of a volume. -/
abbrev Graph := Nat → Option (List (Name × Nat))

/-- The directories of a volume: each counts `counts` entries and has those of `dirs`, and their
    bytes lie apart. What their entries name is a directory only if it is in `dirs`. -/
structure Listed (s : Fs) (dirs : Graph) (counts : Nat → Nat) : Prop where
  mounted : (s.ino 2).filesize ≤ s.maplen ∧ s.maplen < 2 ^ 64
  five : 4 < s.inodes
  table : dirs 2 = none
  root : dirs 3 ≠ none
  inside : ∀ d, dirs d ≠ none → d < s.inodes
  lists : ∀ d es, dirs d = some es → Lists s d (counts d) es
  apart : ∀ d k, dirs d ≠ none → dirs k ≠ none → d ≠ k → Apart (s.ino d) (s.ino k)
  files : ∀ d es, dirs d = some es → ∀ e ∈ es, e.2 < s.inodes → dirs e.2 = none → (s.ino e.2).flags &&& INO_DIRECTORY = 0

/-- `d` is a directory of the graph, or a file. -/
def Known (s : Fs) (dirs : Graph) (d : Nat) : Prop :=
  d < s.inodes ∧ (dirs d = none → (s.ino d).flags &&& INO_DIRECTORY = 0)

variable {dirs : Graph} {counts : Nat → Nat}

namespace Listed

theorem mapped (h : Listed s dirs counts) (hd : d < s.inodes) : s.Mapped d := by
  have hm := h.mounted.1
  unfold Fs.inodes at hd
  unfold Fs.Mapped
  omega

theorem not_mapped (h : Listed s dirs counts) : ¬ s.Mapped INVALID_INODE := not_mapped_invalid h.mounted.2

theorem quiet (h : Listed s dirs counts) (hq : Quiet s t) : Listed t dirs counts := by
  have hi : t.inodes = s.inodes := by
    unfold Fs.inodes
    rw [hq.ino]
  refine ⟨?_, ?_, h.table, h.root, ?_, fun d es hd => (h.lists d es hd).quiet hq, ?_, ?_⟩
  · rw [hq.ino, hq.maplen]
    exact h.mounted
  · rw [hi]
    exact h.five
  · rw [hi]
    exact h.inside
  · intro d k
    rw [hq.ino, hq.ino]
    exact h.apart d k
  · intro d es hd e he
    rw [hi, hq.ino]
    exact h.files d es hd e he

end Listed

theorem Known.quiet (h : Known s dirs d) (hq : Quiet s t) : Known t dirs d := by
  unfold Known Fs.inodes at h ⊢
  rwa [hq.ino, hq.ino]

/-- What the directory has written does not reach another one. -/
def Reaches (s : Fs) (dirs : Graph) (d size : Nat) : Prop :=
  ∀ k, dirs k ≠ none → k ≠ d → 4096 * (s.ino d).ext.startblock + size ≤ 4096 * (s.ino k).ext.startblock ∨
    4096 * (s.ino k).ext.startblock + (s.ino k).filesize ≤ 4096 * (s.ino d).ext.startblock

theorem Listed.reaches (h : Listed s dirs counts) (hd : dirs d ≠ none) : Reaches s dirs d (s.ino d).filesize :=
  fun k hk hne => h.apart d k hd hk (Ne.symm hne)

/-- The graph behind an edit of directory `d`. -/
theorem Listed.rewritten {es' : List (Name × Nat)} (h : Listed s dirs counts) (hd : dirs d = some es')
    (hr : Rewritten s t d count es) (hreach : Reaches s dirs d (8 + (records es).length))
    (hfiles : ∀ e ∈ es, e.2 < s.inodes → dirs e.2 = none → (s.ino e.2).flags &&& INO_DIRECTORY = 0) :
    Listed t (Function.update dirs d (some es)) (Function.update counts d count) := by
  have hd' : dirs d ≠ none := by simp [hd]
  have htwo : 2 ≠ d := by
    intro he
    rw [← he, h.table] at hd'
    exact hd' rfl
  have hino : ∀ {k}, k < s.inodes → k ≠ d → t.ino k = s.ino k := fun hk hne => hr.inode _ (h.mapped hk) hne
  have h2 := hino (Nat.lt_trans (by decide) h.five) htwo
  have hi : t.inodes = s.inodes := by
    unfold Fs.inodes
    rw [h2]
  have hsome : ∀ {k}, Function.update dirs d (some es) k ≠ none ↔ dirs k ≠ none := by
    intro k
    by_cases hk : k = d
    · simp [hk, hd]
    · rw [Function.update_of_ne hk]
  have hnone : ∀ {k}, Function.update dirs d (some es) k = none → dirs k = none ∧ k ≠ d := by
    intro k hk
    by_cases hkd : k = d
    · simp [hkd] at hk
    · rw [Function.update_of_ne hkd] at hk
      exact ⟨hk, hkd⟩
  have hreach' : ∀ {k}, dirs k ≠ none → k ≠ d → Apart (t.ino d) (t.ino k) := by
    intro k hk hne
    have hout := hreach k hk hne
    unfold Apart
    rw [hino (h.inside k hk) hne, hr.start, hr.lists.filesize]
    exact hout
  refine ⟨?_, ?_, ?_, hsome.mpr h.root, fun k hk => ?_, fun k ks hk => ?_, fun j k hj hk hne => ?_,
    fun k ks hk e he hlt hnot => ?_⟩
  · rw [h2, hr.maplen]
    exact h.mounted
  · rw [hi]
    exact h.five
  · rw [Function.update_of_ne htwo]
    exact h.table
  · rw [hi]
    exact h.inside k (hsome.mp hk)
  · by_cases hkd : k = d
    · subst hkd
      rw [Function.update_self] at hk ⊢
      rw [← Option.some.inj hk]
      exact hr.lists
    · rw [Function.update_of_ne hkd] at hk ⊢
      have hl := h.lists k ks hk
      have hk' : dirs k ≠ none := by simp [hk]
      have hsame := hino (h.inside k hk') hkd
      have hfour : 4 ≠ d := by
        intro he
        have hout := hr.lists.placed.outside
        have hheld := hr.lists.placed.readable.held
        have hfile := hr.lists.filesize
        rw [← he] at hout hheld hfile
        omega
      have halike : Alike (s.ino k) (t.ino k) := by
        rw [hsame]
        exact .refl _
      have halike4 : Alike (s.ino 4) (t.ino 4) := by
        rw [hino h.five hfour]
        exact .refl _
      refine ⟨hl.placed.alike hr.maplen hr.size halike halike4, hl.ok, hl.counted, hl.small, ?_⟩
      rw [← hl.content]
      unfold Fs.content
      rw [hsame]
      refine hr.bytes _ _ hl.placed.behind ?_
      rcases hreach k hk' hkd with hout | hout
      · exact .inr hout
      · exact .inl hout
  · rw [hsome] at hj hk
    by_cases hjd : j = d
    · subst hjd
      exact hreach' hk (Ne.symm hne)
    · by_cases hkd : k = d
      · subst hkd
        exact (hreach' hj hjd).symm
      · rw [hino (h.inside j hj) hjd, hino (h.inside k hk) hkd]
        exact h.apart j k hj hk hne
  · obtain ⟨hfile, hne⟩ := hnone hnot
    rw [hi] at hlt
    rw [hino hlt hne]
    by_cases hkd : k = d
    · subst hkd
      rw [Function.update_self] at hk
      rw [← Option.some.inj hk] at he
      exact hfiles e he hlt hfile
    · rw [Function.update_of_ne hkd] at hk
      exact h.files k ks hk e he hlt hfile

/-! ## Edits of the graph -/

/-- The name is taken out of directory `d`, if it is not its first entry. -/
def Graph.removed (dirs : Graph) (d : Nat) (name : Name) : Graph := Function.update dirs d ((dirs d).map (cut name))

/-- An entry is put behind those of directory `d`. -/
def Graph.entered (dirs : Graph) (d : Nat) (name : Name) (ino : Nat) : Graph :=
  Function.update dirs d ((dirs d).map (· ++ [(name, ino)]))

theorem Graph.removed_of_missing (h : ∀ es, dirs d = some es → name ∉ es.tail.map Prod.fst) :
    dirs.removed d name = dirs := by
  unfold Graph.removed
  rw [Function.update_eq_self_iff]
  cases hd : dirs d with
  | none => rfl
  | some es => rw [Option.map_some, cut_eq_self (h es hd)]

/-- The inodes that a step on directory `d` leaves alone, and the place and kind of `d`. -/
structure Beside (s t : Fs) (d : Nat) : Prop where
  junk : t.junk = s.junk
  inodes : t.inodes = s.inodes
  inode : ∀ k < s.inodes, k ≠ d → t.ino k = s.ino k
  start : (t.ino d).ext.startblock = (s.ino d).ext.startblock
  flags : (t.ino d).flags = (s.ino d).flags

theorem Quiet.beside (h : Quiet s t) : Beside s t d := by
  refine ⟨h.junk, ?_, fun k _ _ => h.ino k, by rw [h.ino], by rw [h.ino]⟩
  unfold Fs.inodes
  rw [h.ino]

theorem Beside.trans (h : Beside s t d) (h' : Beside t u d) : Beside s u d := by
  refine ⟨h'.junk.trans h.junk, h'.inodes.trans h.inodes, fun k hk hne => ?_, h'.start.trans h.start,
    h'.flags.trans h.flags⟩
  rw [h'.inode k (by rwa [h.inodes]) hne]
  exact h.inode k hk hne

theorem Rewritten.beside (h : Rewritten s t d count es) (hl : Listed s dirs counts) (hd : dirs d ≠ none) :
    Beside s t d := by
  have htwo : 2 ≠ d := by
    intro he
    rw [← he, hl.table] at hd
    exact hd rfl
  refine ⟨h.junk, ?_, fun k hk hne => h.inode k (hl.mapped hk) hne, h.start, h.flags⟩
  unfold Fs.inodes
  rw [h.inode 2 (hl.mapped (Nat.lt_trans (by decide) hl.five)) htwo]

theorem Known.beside (h : Known s dirs n) (hb : Beside s t d) : Known t dirs n := by
  unfold Known at h ⊢
  rw [hb.inodes]
  refine ⟨h.1, fun hnone => ?_⟩
  by_cases hne : n = d
  · rw [hne, hb.flags, ← hne]
    exact h.2 hnone
  · rw [hb.inode n h.1 hne]
    exact h.2 hnone

/-- A file has no entries. -/
theorem removeFromDir_file (hm : s.Mapped d) (hf : (s.ino d).flags &&& INO_DIRECTORY = 0) :
    removeFromDir d name s = .ok (false, s) := by
  unfold removeFromDir
  rw [bind_ok (inodetab_ok hm), if_pos hf]
  rfl

theorem addToDir_file (hm : s.Mapped d) (hf : (s.ino d).flags &&& INO_DIRECTORY = 0) :
    addToDir d name n s = .ok (false, s) := by
  unfold addToDir
  rw [bind_ok (inodetab_ok hm), if_pos hf]
  rfl

/-- A removal that returns has taken the name out, or has left everything. -/
theorem removeFromDir_listed {r : Bool} (h : Listed s dirs counts) (hd : Known s dirs d) (hn : (0 : UInt8) ∉ name)
    (hr : removeFromDir d name s = .ok (r, t)) : Listed t (dirs.removed d name) counts ∧ Beside s t d ∧
      (t.ino d).filesize ≤ (s.ino d).filesize := by
  have hm := h.mapped hd.1
  cases hlist : dirs d with
  | none =>
    rw [removeFromDir_file hm (hd.2 hlist)] at hr
    obtain ⟨-, rfl⟩ := Prod.mk.inj (Except.ok.inj hr)
    rw [Graph.removed_of_missing fun es hes => by rw [hlist] at hes; exact nomatch hes]
    exact ⟨h, (Quiet.refl s).beside, Nat.le_refl _⟩
  | some es =>
    have hl := h.lists d es hlist
    have hne : dirs d ≠ none := by simp [hlist]
    by_cases hin : name ∈ es.tail.map Prod.fst
    · obtain ⟨u, hu, hrew⟩ := removeFromDir_rewritten hl hn hin
      rw [hu] at hr
      obtain ⟨-, rfl⟩ := Prod.mk.inj (Except.ok.inj hr)
      have hsub := cut_sublist name es
      have hsize : (records (cut name es)).length ≤ (records es).length := by
        unfold records
        exact (hsub.flatMap _).length_le
      refine ⟨?_, hrew.beside h hne, ?_⟩
      · have hreach := h.reaches hne
        rw [hl.filesize] at hreach
        have hlisted := h.rewritten hlist hrew (fun k hk hk' => by have := hreach k hk hk'; omega)
          fun e he => h.files d es hlist e (hsub.subset he)
        unfold Graph.removed
        rw [hlist, Option.map_some]
        rwa [Function.update_eq_self] at hlisted
      · rw [hrew.lists.filesize, hl.filesize]
        omega
    · rcases removeFromDir_missing hl hn hin with ⟨⟨e, he⟩, -⟩ | ⟨u, hu, hq⟩
      · rw [he] at hr
        exact nomatch hr
      · rw [hu] at hr
        obtain ⟨-, rfl⟩ := Prod.mk.inj (Except.ok.inj hr)
        rw [Graph.removed_of_missing fun es' hes => by rw [hlist] at hes; rwa [← Option.some.inj hes]]
        exact ⟨h.quiet hq, hq.beside, by rw [hq.ino]⟩

/-- The number in a record is the low half of what it is given. -/
theorem direntry_mod (name : Name) (ino : Nat) : direntry name ino = direntry name (ino % 2 ^ 32) := by
  unfold direntry
  exact congrArg (· ++ _) (le_mod 4 ino).symm

/-- A new entry fits its fields, and its bytes lie in no other directory. -/
structure Room (s : Fs) (dirs : Graph) (counts : Nat → Nat) (d : Nat) (name : Name) : Prop where
  namelength : name.length + 1 < 2 ^ 16
  count : counts d + 1 < 2 ^ 32
  reaches : Reaches s dirs d ((s.ino d).filesize + (name.length + 7))

theorem addToDir_rewritten (ino : Nat) (h : Lists s d count es) (hn : (0 : UInt8) ∉ name)
    (hlen : name.length + 1 < 2 ^ 16)
    (hcount : count + 1 < 2 ^ 32) (hmiss : name ∉ es.tail.map Prod.fst) :
    ((∃ t, addToDir d name ino s = .ok (false, t) ∧ Quiet s t) ∧ ¬ Silent s) ∨
      ∃ t, addToDir d name ino s = .ok (true, t) ∧ Rewritten s t d (count + 1) (es ++ [(name, ino % 2 ^ 32)]) := by
  rcases addToDir_missing ino h ⟨hn, by omega⟩ hmiss with hleft | ⟨t, ht, hst⟩
  · exact .inl hleft
  · refine .inr ⟨t, ht, ?_⟩
    have hcontent : countedContent (count + 1) (es ++ [(name, ino)]) = countedContent (count + 1) (es ++ [(name, ino % 2 ^ 32)]) := by
      unfold countedContent
      rw [records_append, records_append, records_cons, records_cons, direntry_mod name ino]
    rw [hcontent] at hst
    have hcounted := h.counted
    refine h.rewritten (fun e he => ?_) (by simpa using hcounted) hcount hst
    rcases List.mem_append.mp he with he | he
    · exact h.ok e he
    · rw [List.mem_singleton.mp he]
      exact ⟨hn, hlen, Nat.mod_lt _ (by decide)⟩

/-- An addition that returns has put the entry behind the others, or has left everything: then it
    came upon the name behind the first entry, or in the memory. -/
theorem addToDir_listed {r : Bool} {ino : Nat} (h : Listed s dirs counts) (hd : Known s dirs d)
    (hn : (0 : UInt8) ∉ name)
    (hroom : dirs d ≠ none → Room s dirs counts d name)
    (hfile : ino % 2 ^ 32 < s.inodes → dirs (ino % 2 ^ 32) = none → (s.ino (ino % 2 ^ 32)).flags &&& INO_DIRECTORY = 0)
    (hr : addToDir d name ino s = .ok (r, t)) : Beside s t d ∧
      ((Listed t dirs counts ∧ (Silent s → ∀ es, dirs d = some es → name ∈ es.tail.map Prod.fst)) ∨
        Listed t (dirs.entered d name (ino % 2 ^ 32)) (Function.update counts d (counts d + 1))) := by
  have hm := h.mapped hd.1
  cases hlist : dirs d with
  | none =>
    rw [addToDir_file hm (hd.2 hlist)] at hr
    obtain ⟨-, rfl⟩ := Prod.mk.inj (Except.ok.inj hr)
    exact ⟨(Quiet.refl s).beside, .inl ⟨h, fun _ es hes => nomatch hes⟩⟩
  | some es =>
    have hl := h.lists d es hlist
    have hne : dirs d ≠ none := by simp [hlist]
    have hroom := hroom hne
    have hquiet : ∀ {u}, Quiet s u → (Silent s → name ∈ es.tail.map Prod.fst) → Beside s u d ∧
        ((Listed u dirs counts ∧ (Silent s → ∀ es', some es = some es' → name ∈ es'.tail.map Prod.fst)) ∨
          Listed u (dirs.entered d name (ino % 2 ^ 32)) (Function.update counts d (counts d + 1))) := by
      intro u hq hin
      refine ⟨hq.beside, .inl ⟨h.quiet hq, fun hs es' hes => ?_⟩⟩
      rw [← Option.some.inj hes]
      exact hin hs
    by_cases hin : name ∈ es.tail.map Prod.fst
    · obtain ⟨u, hu, hq⟩ := addToDir_present ino hl hn hin
      rw [hu] at hr
      obtain ⟨-, rfl⟩ := Prod.mk.inj (Except.ok.inj hr)
      exact hquiet hq fun _ => hin
    · rcases addToDir_rewritten ino hl hn hroom.namelength hroom.count hin with ⟨⟨u, hu, hq⟩, hloud⟩ | ⟨u, hu, hrew⟩
      · rw [hu] at hr
        obtain ⟨-, rfl⟩ := Prod.mk.inj (Except.ok.inj hr)
        exact hquiet hq fun hs => absurd hs hloud
      · rw [hu] at hr
        obtain ⟨-, rfl⟩ := Prod.mk.inj (Except.ok.inj hr)
        refine ⟨hrew.beside h hne, .inr ?_⟩
        have hsize : 8 + (records (es ++ [(name, ino % 2 ^ 32)])).length = (s.ino d).filesize + (name.length + 7) := by
          rw [hl.filesize, records_append, List.length_append, length_records_cons, show records [] = [] from rfl,
            List.length_nil]
          dsimp only
          omega
        have hreach := hroom.reaches
        rw [← hsize] at hreach
        have hlisted := h.rewritten hlist hrew hreach fun e he => by
          rcases List.mem_append.mp he with he | he
          · exact h.files d es hlist e he
          · rw [List.mem_singleton.mp he]
            exact hfile
        unfold Graph.entered
        rwa [hlist, Option.map_some]

/-! ## Paths -/

/-- The components that the loop of `getinode` looks up; `acc` is the one it is in. -/
def components (acc : Name) : Path → List Name
  | [] => if acc = [] then [] else [acc]
  | x :: xs => if x = slash then acc :: components [] xs else components (acc ++ [x]) xs

def namesOf : Path → List Name
  | [] => []
  | _ :: p => components [] p

theorem splitLast_eq {path npath : Path} (h : splitLast path = some (npath, name)) : path = npath ++ slash :: name := by
  have hmem : slash ∈ path := by
    by_contra hno
    have hnone : path.reverse.findIdx? (· = slash) = none := by
      refine List.findIdx?_eq_none_iff.mpr fun x hx => ?_
      have hne : x ≠ slash := fun hxs => hno (hxs ▸ List.mem_reverse.mp hx)
      simp [hne]
    unfold splitLast at h
    rw [hnone] at h
    exact nomatch h
  obtain ⟨pre, post, he, hpre⟩ := List.eq_append_cons_of_mem (List.mem_reverse.mpr hmem)
  have hpath : path = post.reverse ++ slash :: pre.reverse := by
    rw [← path.reverse_reverse, he]
    simp
  rw [hpath, splitLast_append _ fun hs => hpre (List.mem_reverse.mp hs)] at h
  obtain ⟨rfl, rfl⟩ := Prod.mk.inj (Option.some.inj h)
  exact hpath

theorem components_prefix (name : Name) : ∀ (p : Path) (acc : Name), components acc p <+: components acc (p ++ slash :: name) := by
  intro p
  induction p with
  | nil =>
    intro acc
    rw [List.nil_append, components, components, if_pos rfl]
    split
    · exact List.nil_prefix
    · exact ⟨_, rfl⟩
  | cons x p ih =>
    intro acc
    rw [List.cons_append, components, components]
    split
    · exact List.prefix_cons_inj acc |>.mpr (ih [])
    · exact ih _

/-- The components of the parent's path come first. -/
theorem namesOf_split {path npath : Path} (h : splitLast path = some (npath, name)) :
    namesOf npath <+: namesOf path := by
  rw [splitLast_eq h]
  cases npath with
  | nil => exact List.nil_prefix
  | cons x p => exact components_prefix name p []

theorem walk_append : ∀ {pre post : List Name} {n : Nat},
    walk dirs n (pre ++ post) = (walk dirs n pre).bind fun m => walk dirs m post := by
  intro pre
  induction pre with
  | nil => exact fun {_ _} => rfl
  | cons name pre ih =>
    intro post n
    rw [List.cons_append, walk_cons, walk_cons n name pre, Option.bind_assoc]
    congr 1
    funext m
    exact ih

theorem walk_of_prefix {pre names : List Name} (h : pre <+: names) (hw : walk dirs n names ≠ none) :
    walk dirs n pre ≠ none := by
  obtain ⟨post, rfl⟩ := h
  intro hnone
  rw [walk_append, hnone] at hw
  exact hw rfl

/-- What is named is in the table. -/
def Inside (s : Fs) (dirs : Graph) : Prop := ∀ d es, dirs d = some es → ∀ e ∈ es, e.2 < s.inodes

theorem Inside.beside (h : Inside s dirs) (hb : Beside s t d) : Inside t dirs := by
  unfold Inside
  rw [hb.inodes]
  exact h

theorem Known.ne_invalid (h : Known s dirs n) : n ≠ INVALID_INODE := by
  have hlt := h.1
  have hsize := (ino_wf s 2).filesize
  unfold Fs.inodes at hlt
  unfold INVALID_INODE
  omega

theorem Listed.known_root (h : Listed s dirs counts) : Known s dirs 3 :=
  ⟨Nat.lt_trans (by decide) h.five, fun hnone => absurd hnone h.root⟩

theorem Listed.known_walk (h : Listed s dirs counts) (hin : Inside s dirs) :
    ∀ {names : List Name} {n m : Nat}, Known s dirs n → walk dirs n names = some m → Known s dirs m := by
  intro names
  induction names with
  | nil =>
    intro n m hn hw
    obtain rfl := Option.some.inj hw
    exact hn
  | cons name names ih =>
    intro n m hn hw
    rw [walk_cons] at hw
    obtain ⟨k, hk, hw⟩ := Option.bind_eq_some_iff.mp hw
    obtain ⟨es, hes, hmem⟩ := walk_one hk
    have hlt := hin n es hes _ hmem
    exact ih ⟨hlt, h.files n es hes _ hmem hlt⟩ hw

/-- One component: what the lists have is found, and in silent memory nothing else. -/
theorem findInDir_listed (h : Listed s dirs counts) (hd : Known s dirs d) (hn : (0 : UInt8) ∉ name)
    (hs : Silent s ∨ walk dirs d [name] ≠ none) :
    ∃ t, findInDir d name s = .ok ((walk dirs d [name]).getD INVALID_INODE, t) ∧ Quiet s t := by
  cases hlist : dirs d with
  | none =>
    refine ⟨s, ?_, .refl s⟩
    rw [findInDir_file (h.mapped hd.1) (hd.2 hlist)]
    simp [walk, hlist]
  | some es =>
    have hwalk : walk dirs d [name] = es.lookup name := by
      simp only [walk, hlist]
      cases es.lookup name <;> rfl
    rw [hwalk] at hs ⊢
    obtain ⟨r, t, ht, hq, hsome, hnone⟩ := findInDir_lists (h.lists d es hlist) hn
    refine ⟨t, ?_, hq⟩
    rw [ht]
    cases hl : es.lookup name with
    | some m => rw [hsome m hl, Option.getD_some]
    | none =>
      rcases hs with hs | hs
      · rw [hnone hs, hl]
      · exact absurd hl hs

theorem resolve_listed : ∀ {p : Path} {acc : Name} {n : Nat} {s : Fs}, Listed s dirs counts → Inside s dirs →
    Known s dirs n →
    (0 : UInt8) ∉ acc → (0 : UInt8) ∉ p → Silent s ∨ walk dirs n (components acc p) ≠ none →
    ∃ t, resolve n acc p s = .ok ((walk dirs n (components acc p)).getD INVALID_INODE, t) ∧ Quiet s t := by
  intro p
  induction p with
  | nil =>
    intro acc n s h _ hn hacc _ hs
    by_cases h0 : acc = []
    · refine ⟨s, ?_, .refl s⟩
      rw [resolve, components, if_pos h0, if_pos h0]
      rfl
    · rw [components, if_neg h0] at hs ⊢
      rw [resolve, if_neg h0]
      exact findInDir_listed h hn hacc hs
  | cons x xs ih =>
    intro acc n s h hin hn hacc hp hs
    rw [List.mem_cons, not_or] at hp
    by_cases hx : x = slash
    · rw [components, if_pos hx, walk_cons] at hs ⊢
      rw [resolve, if_pos hx]
      have hs1 : Silent s ∨ walk dirs n [acc] ≠ none := by
        rcases hs with hs | hs
        · exact .inl hs
        · refine .inr fun hnone => hs ?_
          rw [hnone]
          rfl
      obtain ⟨t, ht, hq⟩ := findInDir_listed h hn hacc hs1
      rw [bind_ok ht]
      cases hw : walk dirs n [acc] with
      | none => exact ⟨t, by simp; rfl, hq⟩
      | some m =>
        rw [hw, Option.bind_some] at hs
        have hm := h.known_walk hin hn hw
        have hin' : Inside t dirs := hin.beside (d := 3) hq.beside
        obtain ⟨u, hu, hq'⟩ := ih (h.quiet hq) hin' (hm.quiet hq) List.not_mem_nil hp.2 (hs.imp_left fun hs => hs.of_junk hq.junk)
        refine ⟨u, ?_, hq.trans hq'⟩
        rw [Option.getD_some, if_neg hm.ne_invalid, Option.bind_some]
        exact hu
    · rw [components, if_neg hx] at hs ⊢
      rw [resolve, if_neg hx]
      refine ih h hin hn (fun h0 => ?_) hp.2 hs
      rcases List.mem_append.mp h0 with h0 | h0
      · exact hacc h0
      · exact hp.1 (List.mem_singleton.mp h0)

/-- A path leads where the lists lead. -/
theorem getinode_listed {path : Path} (h : Listed s dirs counts) (hin : Inside s dirs) (hp : (0 : UInt8) ∉ path)
    (hs : Silent s ∨ walk dirs 3 (namesOf path) ≠ none) :
    ∃ t, getinode path s = .ok ((walk dirs 3 (namesOf path)).getD INVALID_INODE, t) ∧ Quiet s t := by
  cases path with
  | nil => exact ⟨s, rfl, .refl s⟩
  | cons x p => exact resolve_listed h hin h.known_root List.not_mem_nil (fun h0 => hp (List.mem_cons_of_mem x h0)) hs

/-! ## Edges -/

/-- Directory `d` has an entry for `m` under that name. -/
def Edge (dirs : Graph) (d : Nat) (name : Name) (m : Nat) : Prop := ∃ es, dirs d = some es ∧ (name, m) ∈ es

/-- Behind the first entry, no two have one name. -/
def TailDistinct (dirs : Graph) : Prop := ∀ d es, dirs d = some es → (es.tail.map Prod.fst).Nodup

theorem Edge.removed {d' : Nat} {name' : Name} (h : Edge (dirs.removed d name) d' name' m) : Edge dirs d' name' m := by
  obtain ⟨es, hes, hmem⟩ := h
  unfold Graph.removed at hes
  by_cases hd : d' = d
  · subst hd
    rw [Function.update_self] at hes
    obtain ⟨es', hes', rfl⟩ := Option.map_eq_some_iff.mp hes
    exact ⟨es', hes', (cut_sublist name es').subset hmem⟩
  · rw [Function.update_of_ne hd] at hes
    exact ⟨es, hes, hmem⟩

theorem Edge.entered {d' ino : Nat} {name' : Name} (h : Edge (dirs.entered d name ino) d' name' m) :
    Edge dirs d' name' m ∨ m = ino := by
  obtain ⟨es, hes, hmem⟩ := h
  unfold Graph.entered at hes
  by_cases hd : d' = d
  · subst hd
    rw [Function.update_self] at hes
    obtain ⟨es', hes', rfl⟩ := Option.map_eq_some_iff.mp hes
    rcases List.mem_append.mp hmem with hmem | hmem
    · exact .inl ⟨es', hes', hmem⟩
    · exact .inr (Prod.mk.inj (List.mem_singleton.mp hmem)).2
  · rw [Function.update_of_ne hd] at hes
    exact .inl ⟨es, hes, hmem⟩

theorem removed_eq_none {d' : Nat} : dirs.removed d name d' = none ↔ dirs d' = none := by
  unfold Graph.removed
  by_cases hd : d' = d
  · subst hd
    rw [Function.update_self, Option.map_eq_none_iff]
  · rw [Function.update_of_ne hd]

theorem entered_eq_none {d' ino : Nat} : dirs.entered d name ino d' = none ↔ dirs d' = none := by
  unfold Graph.entered
  by_cases hd : d' = d
  · subst hd
    rw [Function.update_self, Option.map_eq_none_iff]
  · rw [Function.update_of_ne hd]

theorem Known.removed (h : Known s dirs n) : Known s (dirs.removed d name) n :=
  ⟨h.1, fun hnone => h.2 (removed_eq_none.mp hnone)⟩

theorem Known.entered {ino : Nat} (h : Known s dirs n) : Known s (dirs.entered d name ino) n :=
  ⟨h.1, fun hnone => h.2 (entered_eq_none.mp hnone)⟩

theorem map_fst_eraseP (name : Name) (es : List (Name × Nat)) :
    (es.eraseP fun x => x.1 = name).map Prod.fst = (es.map Prod.fst).erase name := by
  induction es with
  | nil => rfl
  | cons e es ih =>
    by_cases he : e.1 = name
    · simp [he]
    · rw [List.eraseP_cons_of_neg (by simp [he]), List.map_cons, List.map_cons,
        List.erase_cons_tail (by simpa using he), ih]

theorem not_mem_cut (h : (es.tail.map Prod.fst).Nodup) : name ∉ (cut name es).tail.map Prod.fst := by
  cases es with
  | nil => simp [cut]
  | cons e es =>
    rw [cut, List.tail_cons, map_fst_eraseP]
    exact h.not_mem_erase

theorem TailDistinct.removed (h : TailDistinct dirs) : TailDistinct (dirs.removed d name) := by
  intro d' es hes
  unfold Graph.removed at hes
  by_cases hd : d' = d
  · subst hd
    rw [Function.update_self] at hes
    obtain ⟨es', hes', rfl⟩ := Option.map_eq_some_iff.mp hes
    have hn := h d' es' hes'
    cases es' with
    | nil => simp [cut]
    | cons e es' =>
      rw [cut, List.tail_cons, map_fst_eraseP]
      exact hn.erase name
  · rw [Function.update_of_ne hd] at hes
    exact h d' es hes

/-- The name was taken out of the directory before it is entered. -/
theorem TailDistinct.entered {ino : Nat} (h : TailDistinct dirs) :
    TailDistinct ((dirs.removed d name).entered d name ino) := by
  intro d' es hes
  unfold Graph.entered at hes
  by_cases hd : d' = d
  · subst hd
    rw [Function.update_self] at hes
    obtain ⟨es', hes', rfl⟩ := Option.map_eq_some_iff.mp hes
    have hn := h.removed d' es' hes'
    have hout : name ∉ es'.tail.map Prod.fst := by
      unfold Graph.removed at hes'
      rw [Function.update_self] at hes'
      obtain ⟨es₀, h₀, rfl⟩ := Option.map_eq_some_iff.mp hes'
      exact not_mem_cut (h d' es₀ h₀)
    cases es' with
    | nil => simp
    | cons e es' =>
      rw [List.cons_append, List.tail_cons, List.map_append]
      exact List.Nodup.append hn (by simp) (by simpa using hout)
  · rw [Function.update_of_ne hd] at hes
    exact h.removed d' es hes

/-- What was taken out once is not taken out again. -/
theorem removed_removed (h : TailDistinct dirs) : (dirs.removed d name).removed d name = dirs.removed d name := by
  refine Graph.removed_of_missing fun es hes => ?_
  unfold Graph.removed at hes
  rw [Function.update_self] at hes
  obtain ⟨es', hes', rfl⟩ := Option.map_eq_some_iff.mp hes
  exact not_mem_cut (h d es' hes')

theorem lookup_of_mem (h : (es.map Prod.fst).Nodup) (hm : (name, m) ∈ es) : es.lookup name = some m := by
  cases hl : es.lookup name with
  | none => exact absurd (List.mem_map.mpr ⟨_, hm, rfl⟩) (mapOf_eq_none.mp hl)
  | some k =>
    have he := List.inj_on_of_nodup_map h (mem_of_lookup hl) hm rfl
    rw [(Prod.mk.inj he).2]

/-- A walk that only has edges of `dirs`, and some to a file, is one of `dirs`, or ends at that file. -/
theorem walk_of_edges {dirs' : Graph} {ino : Nat} (hdistinct : ∀ d es, dirs d = some es → (es.map Prod.fst).Nodup)
    (hedge : ∀ d name m, Edge dirs' d name m → Edge dirs d name m ∨ m = ino) (hfile : dirs' ino = none) :
    ∀ {names : List Name} {n p : Nat}, walk dirs' n names = some p → walk dirs n names = some p ∨ p = ino := by
  intro names
  induction names with
  | nil => exact fun hw => .inl hw
  | cons name names ih =>
    intro n p hw
    rw [walk_cons] at hw
    obtain ⟨k, hk, hw⟩ := Option.bind_eq_some_iff.mp hw
    rcases hedge n name k (walk_one hk) with ⟨es, hes, hmem⟩ | rfl
    · have hone : walk dirs n [name] = some k := by
        simp only [walk, hes]
        rw [lookup_of_mem (hdistinct n es hes) hmem]
      rw [walk_cons, hone, Option.bind_some]
      exact ih hw
    · cases names with
      | nil => exact .inr (Option.some.inj hw).symm
      | cons name' names =>
        rw [walk, hfile] at hw
        exact absurd hw.symm (Option.some_ne_none p)

end Rodvin.Starfs
