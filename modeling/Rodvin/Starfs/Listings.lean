/-
  Rodvin.Starfs.Listings — directories that count more entries than they hold
  (`find_in_dir`, `remove_from_dir`, `add_to_dir` of `tools/fuse_starfs/main.c`).

  A removal leaves the count of entries, so from then on the loops of the three functions
  run on into the memory behind the buffer (`Lists`). What is in the list is found all the
  same; what is not, is found exactly when that memory has it, and never when the memory is
  `Silent`.
  - `findInDir_lists`: a lookup.
  - `removeFromDir_present`, `removeFromDir_missing`: the first entry is never removed.
  - `addToDir_present`, `addToDir_missing`: the first entry is never taken for the new one.
-/

import Rodvin.Starfs.LinkCountsProofs

namespace Rodvin.Starfs

open Rodvin.Lib

variable {b : Buf} {o p k d count : Nat} {name : Name} {es : List (Name × Nat)} {s t u : Fs}

/-! ## The loops -/

/-- The record of that name among the next `k`, the one at `o` included. -/
def scan (b : Buf) (name : Name) : Nat → Nat → Option Nat
  | 0, _ => none
  | k + 1, o => if sameName b.at (o + 6) name then some o else scan b name k (nextEntry b o)

theorem findEntry_eq_scan : ∀ {k o : Nat}, findEntry b name k o = (scan b name k o).map (inodeno b) := by
  intro k
  induction k with
  | zero => exact fun {_} => rfl
  | succ k ih =>
    intro o
    simp only [findEntry, scan]
    split
    · rfl
    · exact ih

theorem seekEntry_eq_scan : ∀ {k o : Nat}, seekEntry b name k o = scan b name k (nextEntry b o) := by
  intro k
  induction k with
  | zero => exact fun {_} => rfl
  | succ k ih =>
    intro o
    simp only [seekEntry, scan]
    split
    · rfl
    · exact ih

theorem lookup_split {m : Nat} (h : es.lookup name = some m) :
    ∃ pre post, es = pre ++ (name, m) :: post ∧ name ∉ pre.map Prod.fst := by
  obtain ⟨pre, post, rfl, hpre⟩ := List.lookup_eq_some_iff.mp h
  refine ⟨pre, post, rfl, fun hmem => ?_⟩
  obtain ⟨e, he, rfl⟩ := List.mem_map.mp hmem
  simpa using hpre e he

theorem scan_missing (hn : (0 : UInt8) ∉ name) (j : Nat) : ∀ {es : List (Name × Nat)} {o : Nat}, Held b.at o es →
    (∀ e ∈ es, EntryOk e) → name ∉ es.map Prod.fst → scan b name (es.length + j) o = scan b name j
    (o + (records es).length) := by
  intro es
  induction es with
  | nil =>
    intro o _ _ _
    simp [records]
  | cons e es ih =>
    intro o h hok hmiss
    have he := hok e List.mem_cons_self
    rw [List.map_cons, List.mem_cons, not_or] at hmiss
    have hno : ¬ sameName b.at (o + 6) name = true :=
      fun hs => hmiss.1 ((sameName_iff (h.head he).2.2 he.terminated hn).mp hs).symm
    rw [List.length_cons, Nat.add_right_comm, scan, if_neg hno, nextEntry_eq h he,
      ih h.tail (fun e' he' => hok e' (List.mem_cons_of_mem e he')) hmiss.2, length_records_cons, Nat.add_assoc]

theorem scan_present {pre post : List (Name × Nat)} {m : Nat} (hn : (0 : UInt8) ∉ name)
    (h : Held b.at o (pre ++ (name, m) :: post)) (hok : ∀ e ∈ pre ++ (name, m) :: post, EntryOk e)
    (hpre : name ∉ pre.map Prod.fst) (hk : pre.length < k) :
    scan b name k o = some (o + (records pre).length) ∧ inodeno b (o + (records pre).length) = m := by
  have hhere : Held b.at (o + (records pre).length) ((name, m) :: post) := h.drop
  have he := hok (name, m) (List.mem_append_right pre List.mem_cons_self)
  have hhead := hhere.head he
  have hheld : Held b.at o pre := by
    unfold Held at h ⊢
    rw [records_append] at h
    exact (slice_append h rfl).1
  obtain ⟨j, rfl⟩ : ∃ j, k = pre.length + (j + 1) := ⟨k - pre.length - 1, by omega⟩
  refine ⟨?_, hhead.1⟩
  rw [scan_missing hn (j + 1) hheld (fun e he => hok e (List.mem_append_left _ he)) hpre, scan,
    if_pos ((sameName_iff hhead.2.2 he.terminated hn).mpr rfl)]

/-- Memory with no end of a string has no names. -/
theorem scan_blank : ∀ {k o : Nat}, (∀ i, o ≤ i → b.at i ≠ 0) → scan b name k o = none := by
  intro k
  induction k with
  | zero => exact fun {_} _ => rfl
  | succ k ih =>
    intro o h
    have hno : ¬ sameName b.at (o + 6) name = true := by
      intro hs
      unfold sameName at hs
      rw [beq_iff_eq] at hs
      have hlast := (slice_append hs rfl).2
      rw [Nat.add_sub_cancel_left] at hlast
      exact h _ (by omega) (List.cons.inj hlast).1
    rw [scan, if_neg hno]
    exact ih fun i hi => h i (by unfold nextEntry at hi; omega)

/-! ## The content -/

/-- What a directory holds that counts `count` entries and has those of `es`. -/
def countedContent (count : Nat) (es : List (Name × Nat)) : List UInt8 := le 4 1 ++ (le 4 count ++ records es)

theorem length_countedContent (count : Nat) (es : List (Name × Nat)) :
    (countedContent count es).length = 8 + (records es).length := by
  simp [countedContent]
  omega

theorem read_countedContent (rest : List UInt8) (hb : b.bytes = countedContent count es ++ rest) (hl : count < 2 ^ 32) :
    formatid b = 1 ∧ entrycount b = count ∧ Held b.at 8 es := by
  have h : slice b.at 0 (countedContent count es).length = countedContent count es := by
    rw [b.slice_at (by rw [hb, List.length_append]; omega), hb, List.drop_zero, List.take_left]
  rw [length_countedContent] at h
  obtain ⟨h0, h⟩ := slice_append h (length_le 4 _)
  obtain ⟨h1, h2⟩ := slice_append h (length_le 4 _)
  refine ⟨leAt_of_slice h0 (by decide), leAt_of_slice h1 hl, ?_⟩
  rwa [show 8 + (records es).length - 4 - 4 = (records es).length by omega] at h2

/-- Directory `d` counts `count` entries and has those of `es`. -/
structure Lists (s : Fs) (d count : Nat) (es : List (Name × Nat)) : Prop where
  placed : Placed s d
  ok : ∀ e ∈ es, EntryOk e
  counted : es.length ≤ count
  small : count < 2 ^ 32
  content : s.content d = countedContent count es

/-- No memory that `malloc` returns has the end of a string. -/
def Silent (s : Fs) : Prop := ∀ n i, s.junk n i ≠ 0

theorem Silent.of_junk (h : Silent s) (hj : t.junk = s.junk) : Silent t := by
  unfold Silent
  rw [hj]
  exact h

namespace Lists

theorem quiet (h : Lists s d count es) (hq : Quiet s t) : Lists t d count es :=
  ⟨h.placed.quiet hq, h.ok, h.counted, h.small, (hq.content d).trans h.content⟩

theorem filesize (h : Lists s d count es) : (s.ino d).filesize = 8 + (records es).length := by
  rw [← length_content, h.content, length_countedContent]

theorem header (h : Lists s d count es) :
    formatid (s.buffer d) = 1 ∧ entrycount (s.buffer d) = count ∧ Held (s.buffer d).at 8 es := by
  refine read_countedContent [] ?_ h.small
  rw [List.append_nil, buffer_bytes, h.content]

theorem blank (h : Lists s d count es) (hs : Silent s) : ∀ i, 8 + (records es).length ≤ i → (s.buffer d).at i ≠ 0 := by
  intro i hi
  have hnone : (s.buffer d).bytes[i]? = none := by
    rw [List.getElem?_eq_none_iff, buffer_bytes, length_content, h.filesize]
    exact hi
  unfold Buf.at
  rw [List.getD_eq_getElem?_getD, hnone]
  exact hs _ _

theorem held (h : Lists s d count es) {e : Name × Nat} {rest : List (Name × Nat)} (he : es = e :: rest) :
    nextEntry (s.buffer d) 8 = 8 + (e.1.length + 7) ∧ Held (s.buffer d).at (8 + (e.1.length + 7)) rest := by
  subst he
  have hheld := h.header.2.2
  exact ⟨nextEntry_eq hheld (h.ok e List.mem_cons_self), hheld.tail⟩

end Lists

/-- What the loop of `add_to_dir` and `remove_from_dir` finds that is no entry but the first, lies
    behind the content. -/
theorem seek_missing (h : Lists s d count es) (hn : (0 : UInt8) ∉ name) (hmiss : name ∉ es.tail.map Prod.fst)
    (hp : seekEntry (s.buffer d) name count 8 = some p) : 8 + (records es).length ≤ p ∧ ¬ Silent s := by
  have hmono : ∀ {k o : Nat}, scan (s.buffer d) name k o = some p → o ≤ p := by
    intro k
    induction k with
    | zero => exact fun {_} h => nomatch h
    | succ k ih =>
      intro o h
      rw [scan] at h
      split at h
      · exact Nat.le_of_eq (Option.some.inj h)
      · have hle := ih h
        unfold nextEntry at hle
        omega
  have hblank : ∀ {k o : Nat}, 8 + (records es).length ≤ o → scan (s.buffer d) name k o = some p →
      8 + (records es).length ≤ p ∧ ¬ Silent s := by
    intro k o ho hp
    refine ⟨Nat.le_trans ho (hmono hp), fun hs => ?_⟩
    rw [scan_blank fun i hi => h.blank hs i (Nat.le_trans ho hi)] at hp
    exact nomatch hp
  rw [seekEntry_eq_scan] at hp
  cases es with
  | nil =>
    refine hblank ?_ hp
    unfold nextEntry
    simp [records]
    omega
  | cons e es =>
    obtain ⟨hnext, htail⟩ := h.held rfl
    obtain ⟨j, hj⟩ := Nat.le.dest h.counted
    rw [List.length_cons, Nat.add_right_comm] at hj
    rw [hnext, ← hj, Nat.add_assoc, scan_missing hn _ htail (fun e' he' => h.ok e' (List.mem_cons_of_mem e he')) hmiss] at hp
    refine hblank ?_ hp
    rw [length_records_cons]
    omega

/-! ## A lookup -/

theorem findInDir_lists (h : Lists s d count es) (hn : (0 : UInt8) ∉ name) : ∃ r t, findInDir d name s = .ok (r, t) ∧
    Quiet s t ∧ (∀ m, es.lookup name = some m → r = m) ∧ (Silent s → r = (es.lookup name).getD INVALID_INODE) := by
  obtain ⟨t, ht, hq⟩ := readinode_ok h.placed.readable
  rw [buffer_eq] at ht
  obtain ⟨hformat, hcount, hheld⟩ := h.header
  have hrun : findInDir d name s = .ok (((scan (s.buffer d) name count 8).map (inodeno (s.buffer d))).getD INVALID_INODE, t) := by
    unfold findInDir
    rw [bind_ok (inodetab_ok h.placed.readable.mapped), if_neg h.placed.directory, bind_ok ht,
      if_neg (not_not.mpr hformat),
      hcount, findEntry_eq_scan]
    rfl
  have hfound : ∀ m, es.lookup name = some m →
      ((scan (s.buffer d) name count 8).map (inodeno (s.buffer d))).getD INVALID_INODE = m := by
    intro m hm
    obtain ⟨pre, post, rfl, hmiss⟩ := lookup_split hm
    have hcounted := h.counted
    obtain ⟨hscan, hino⟩ := scan_present (k := count) hn hheld h.ok hmiss (by simp at hcounted; omega)
    rw [hscan, Option.map_some, Option.getD_some, hino]
  refine ⟨_, t, hrun, hq, hfound, fun hs => ?_⟩
  cases hl : es.lookup name with
  | some m => exact hfound m hl
  | none =>
    obtain ⟨j, hj⟩ := Nat.le.dest h.counted
    rw [← hj, scan_missing hn j hheld h.ok (mapOf_eq_none.mp hl), scan_blank (h.blank hs)]
    rfl

/-! ## A removal -/

theorem cutEntry_counted {pre post : List (Name × Nat)} {e : Name × Nat}
    (hb : b.bytes = countedContent count (pre ++ e :: post))
    (hnext : nextEntry b (8 + (records pre).length) = 8 + (records pre).length + (e.1.length + 7)) :
    cutEntry b (8 + (records pre).length) = .ok (countedContent count (pre ++ post)) := by
  have hsplit : b.bytes = (le 4 1 ++ (le 4 count ++ records pre)) ++ (direntry e.1 e.2 ++ records post) := by
    rw [hb, countedContent, records_append, records_cons]
    simp only [List.append_assoc]
  have hpre : (le 4 1 ++ (le 4 count ++ records pre)).length = 8 + (records pre).length := by
    simp
    omega
  have hle : 8 + (records pre).length + (e.1.length + 7) ≤
      ((le 4 1 ++ (le 4 count ++ records pre)) ++ (direntry e.1 e.2 ++ records post)).length := by
    rw [List.length_append, hpre, List.length_append, length_direntry]
    omega
  unfold cutEntry countedContent
  rw [hnext, hsplit, if_pos hle, ← hpre, List.take_left, ← List.drop_drop, List.drop_left, ← length_direntry e.1 e.2,
    List.drop_left, records_append]
  simp only [List.append_assoc]
  rfl

/-- What lies behind the content cannot be cut out of it. -/
theorem cutEntry_behind (h : b.bytes.length ≤ o) : cutEntry b o = .error .fault := by
  unfold cutEntry
  rw [if_neg (by unfold nextEntry; omega)]

/-- The inode with one link less. -/
def Inode.unlinked (i : Inode) : Inode := { i with linkcount := (i.linkcount + 2 ^ 32 - 1) % 2 ^ 32 }

theorem Inode.Wf.unlinked {i : Inode} (h : i.Wf) : i.unlinked.Wf := by
  unfold Inode.unlinked
  exact ⟨h.flags, Nat.mod_lt _ (by decide), h.filesize, h.startblock, h.length⟩

@[simp] theorem unlinked_flags (i : Inode) : i.unlinked.flags = i.flags := by
  unfold Inode.unlinked
  rfl

@[simp] theorem unlinked_filesize (i : Inode) : i.unlinked.filesize = i.filesize := by
  unfold Inode.unlinked
  rfl

@[simp] theorem unlinked_ext (i : Inode) : i.unlinked.ext = i.ext := by
  unfold Inode.unlinked
  rfl

theorem Inode.Direct.unlinked {i : Inode} (h : i.Direct) : i.unlinked.Direct := by
  unfold Inode.Direct
  rw [unlinked_flags]
  exact h

theorem freeInode_ok (hm : s.Mapped d) (hd : (s.ino d).Direct) : ∃ t, freeInode d s = .ok ((), t) ∧ Quiet s t := by
  refine ⟨{ s with mallocs := s.mallocs + 1 }, ?_, ⟨rfl, rfl, rfl, rfl, rfl⟩⟩
  unfold freeInode
  rw [bind_ok (readbottomextents_ok hm hd)]
  unfold Inode.exts
  split <;> rfl

theorem removeFromDir_present {e : Name × Nat} {pre post : List (Name × Nat)} {m : Nat}
    (h : Lists s d count (e :: (pre ++ (name, m) :: post))) (hn : (0 : UInt8) ∉ name) (hpre : name ∉ pre.map Prod.fst) :
    ∃ u t, removeFromDir d name s = .ok (true, t) ∧
      Stored s u d ((s.ino d).grown (countedContent count (e :: (pre ++ post))).length) (countedContent count (e :: (pre ++ post))) ∧
      Quiet (u.putIno d (u.ino d).unlinked) t := by
  obtain ⟨v, hv, hq⟩ := readinode_ok h.placed.readable
  rw [buffer_eq] at hv
  obtain ⟨hformat, hcount, hheld⟩ := h.header
  obtain ⟨hnext, htail⟩ := h.held rfl
  have hok : ∀ x ∈ pre ++ (name, m) :: post, EntryOk x := fun x hx => h.ok x (List.mem_cons_of_mem e hx)
  have hcounted := h.counted
  have hseek : seekEntry (s.buffer d) name count 8 = some (8 + (records (e :: pre)).length) := by
    rw [seekEntry_eq_scan, hnext, (scan_present hn htail hok hpre (by simp at hcounted; omega)).1, length_records_cons]
    simp
    omega
  have hhere : Held (s.buffer d).at (8 + (records (e :: pre)).length) ((name, m) :: post) :=
    Held.drop (show Held (s.buffer d).at 8 ((e :: pre) ++ (name, m) :: post) from hheld)
  have hbytes : (s.buffer d).bytes = countedContent count ((e :: pre) ++ (name, m) :: post) :=
    (buffer_bytes s d).trans h.content
  have hcut : cutEntry (s.buffer d) (8 + (records (e :: pre)).length) = .ok (countedContent count (e :: (pre ++ post))) :=
    cutEntry_counted hbytes (nextEntry_eq hhere (hok _ (List.mem_append_right pre List.mem_cons_self)))
  have hsize : (countedContent count (e :: (pre ++ post))).length ≤ (s.ino d).filesize := by
    rw [h.filesize, length_countedContent, length_records_cons, length_records_cons, records_append, records_append,
      records_cons]
    simp only [List.length_append]
    omega
  have hw := h.placed.words
  have hheldsize := h.placed.readable.held
  obtain ⟨u, hu, hst⟩ := writeinode_ok (countedContent count (e :: (pre ++ post)))
    ((h.placed.writable (by omega)).quiet hq) (by simp [countedContent, le])
  rw [hq.ino] at hst
  have hst := hst.of_quiet hq
  have hm : u.Mapped d := hst.mapped.mpr h.placed.readable.mapped
  have hrun : removeFromDir d name s = (do
      let i ← inodetab d
      if i.linkcount = 0 then freeInode d
      return true : Fuse Bool) (u.putIno d (u.ino d).unlinked) := by
    unfold removeFromDir
    rw [bind_ok (inodetab_ok h.placed.readable.mapped), if_neg h.placed.directory, bind_ok hv,
      if_neg (not_not.mpr hformat),
      hcount, hseek]
    show ((cutEntry (s.buffer d) _ : Fuse (List UInt8)) >>= _) v = _
    rw [bind_ok (lift_ok hcut), bind_ok hu, bind_ok (assign_ok hm)]
    rfl
  have hm' : (u.putIno d (u.ino d).unlinked).Mapped d := hm
  rw [bind_ok (inodetab_ok hm')] at hrun
  by_cases hl : ((u.putIno d (u.ino d).unlinked).ino d).linkcount = 0
  · have hself := hst.ino_self h.placed.readable.mapped h.placed.behind ((ino_wf s d).grown _ (by omega))
    have hgrown : (u.ino d).Direct := by
      rw [hself]
      exact h.placed.readable.direct.grown _
    have hdirect : ((u.putIno d (u.ino d).unlinked).ino d).Direct := by
      rw [ino_putIno_self u d (ino_wf u d).unlinked]
      exact hgrown.unlinked
    obtain ⟨t, ht, hqt⟩ := freeInode_ok hm' hdirect
    rw [if_pos hl, bind_ok ht] at hrun
    exact ⟨u, t, hrun, hst, hqt⟩
  · rw [if_neg hl] at hrun
    exact ⟨u, _, hrun, hst, .refl _⟩

/-- What is no entry, or the first, is not found, or is found in the memory behind the content. -/
theorem removeFromDir_missing (h : Lists s d count es) (hn : (0 : UInt8) ∉ name) (hmiss : name ∉ es.tail.map Prod.fst) :
    ((∃ e, removeFromDir d name s = .error e) ∧ ¬ Silent s) ∨ ∃ t, removeFromDir d name s = .ok
    (false, t) ∧ Quiet s t := by
  obtain ⟨v, hv, hq⟩ := readinode_ok h.placed.readable
  rw [buffer_eq] at hv
  obtain ⟨hformat, hcount, hheld⟩ := h.header
  unfold removeFromDir
  rw [bind_ok (inodetab_ok h.placed.readable.mapped), if_neg h.placed.directory, bind_ok hv,
    if_neg (not_not.mpr hformat),
    hcount]
  cases ho : seekEntry (s.buffer d) name count 8 with
  | none => exact .inr ⟨v, rfl, hq⟩
  | some o =>
    obtain ⟨hbehind, hloud⟩ := seek_missing h hn hmiss ho
    rw [← h.filesize, ← length_content, ← buffer_bytes] at hbehind
    refine .inl ⟨⟨.fault, ?_⟩, hloud⟩
    show ((cutEntry (s.buffer d) o : Fuse (List UInt8)) >>= _) v = _
    rw [cutEntry_behind hbehind]
    rfl

/-! ## An addition -/

theorem appendEntry_counted {room : List UInt8} {behind : Nat → UInt8} {newino : Nat} (hl : count < 2 ^ 32)
    (hr : room.length = 7 + name.length) :
    appendEntry ⟨countedContent count es ++ room, behind⟩ (countedContent count es).length name newino =
      .ok ⟨countedContent (count + 1) (es ++ [(name, newino)]), behind⟩ := by
  have hcount := (read_countedContent (b := ⟨countedContent count es ++ room, behind⟩) room rfl hl).2.1
  have h4 : Buf.put ⟨countedContent count es ++ room, behind⟩ 4 (le 4 (count + 1)) =
      .ok ⟨le 4 1 ++ (le 4 (count + 1) ++ (records es ++ room)), behind⟩ := by
    refine Buf.put_mid (le 4 count) ?_ (length_le 4 1) (by simp)
    simp only [countedContent, List.append_assoc]
  have hput : Buf.put ⟨le 4 1 ++ (le 4 (count + 1) ++ (records es ++ room)), behind⟩ (countedContent count es).length
      (direntry name newino) =
        .ok ⟨le 4 1 ++ (le 4 (count + 1) ++ records es) ++ (direntry name newino ++ []), behind⟩ := by
    refine Buf.put_mid room ?_ ?_ (by rw [length_direntry, hr, Nat.add_comm])
    · simp only [List.append_assoc, List.append_nil]
    · rw [length_countedContent]
      simp
      omega
  unfold appendEntry
  rw [hcount, Lib.ok_bind h4, hput]
  unfold countedContent
  rw [records_append]
  simp [records]

theorem addToDir_present (newino : Nat) (h : Lists s d count es) (hn : (0 : UInt8) ∉ name)
    (hin : name ∈ es.tail.map Prod.fst) :
    ∃ t, addToDir d name newino s = .ok (false, t) ∧ Quiet s t := by
  obtain ⟨v, hv, hq⟩ := readinode_ok h.placed.readable
  rw [buffer_eq] at hv
  obtain ⟨hformat, hcount, -⟩ := h.header
  cases es with
  | nil => simp at hin
  | cons e es =>
    obtain ⟨hnext, htail⟩ := h.held rfl
    obtain ⟨m, hm⟩ : ∃ m, es.lookup name = some m := by
      rw [← Option.isSome_iff_exists]
      exact mapOf_isSome.mpr hin
    obtain ⟨pre, post, rfl, hpre⟩ := lookup_split hm
    have hcounted := h.counted
    have hscan := scan_present (k := count) hn htail (fun x hx => h.ok x (List.mem_cons_of_mem e hx)) hpre
      (by simp at hcounted; omega)
    refine ⟨v, ?_, hq⟩
    unfold addToDir
    rw [bind_ok (inodetab_ok h.placed.readable.mapped), if_neg h.placed.directory, bind_ok hv,
      if_neg (not_not.mpr hformat),
      hcount, seekEntry_eq_scan, hnext, hscan.1]
    rfl

/-- A name that is no entry, or the first, is added, unless the memory behind the content has it. -/
theorem addToDir_missing (newino : Nat) (h : Lists s d count es) (hn : IsString name)
    (hmiss : name ∉ es.tail.map Prod.fst) :
    ((∃ t, addToDir d name newino s = .ok (false, t) ∧ Quiet s t) ∧ ¬ Silent s) ∨
      ∃ t, addToDir d name newino s = .ok (true, t) ∧
        Stored s t d ((s.ino d).grown (countedContent (count + 1) (es ++ [(name, newino)])).length)
          (countedContent (count + 1) (es ++ [(name, newino)])) := by
  obtain ⟨v, hv, hq⟩ := readinode_ok h.placed.readable
  rw [buffer_eq] at hv
  obtain ⟨hformat, hcount, -⟩ := h.header
  have hcontent : (countedContent count es).length = (s.ino d).filesize := by rw [h.filesize, length_countedContent]
  unfold addToDir
  rw [bind_ok (inodetab_ok h.placed.readable.mapped), if_neg h.placed.directory, bind_ok hv,
    if_neg (not_not.mpr hformat),
    hcount]
  cases ho : seekEntry (s.buffer d) name count 8 with
  | some o => exact .inl ⟨⟨v, rfl, hq⟩, (seek_missing h hn.terminated hmiss ho).2⟩
  | none =>
    let room : List UInt8 := (slice (v.junk v.mallocs) 0 (7 + name.length + (s.ino d).filesize)).drop (s.ino d).filesize
    have hroom : room.length = 7 + name.length := by simp [room]
    have hput : Buf.put ⟨slice (v.junk v.mallocs) 0 (7 + name.length + (s.ino d).filesize), v.junk v.mallocs⟩ 0
        (s.buffer d).bytes = .ok ⟨countedContent count es ++ room, v.junk v.mallocs⟩ := by
      unfold Buf.put
      rw [buffer_bytes, h.content, if_pos (by simp [hcontent]), Nat.zero_add, hcontent, List.take_zero, List.nil_append]
    have happend : appendEntry ⟨countedContent count es ++ room, v.junk v.mallocs⟩ (countedContent count es).length name newino =
        .ok ⟨countedContent (count + 1) (es ++ [(name, newino)]), v.junk v.mallocs⟩ := appendEntry_counted h.small hroom
    rw [hcontent] at happend
    have hqu : Quiet s { v with mallocs := v.mallocs + 1 } := hq.trans ⟨rfl, rfl, rfl, rfl, rfl⟩
    have hw := h.placed.words
    have hheldsize := h.placed.readable.held
    have hlength := hn.length
    have hsize : (countedContent (count + 1) (es ++ [(name, newino)])).length < 2 ^ 62 := by
      have hlen := length_records_le h.ok
      have hcounted := h.counted
      have hsmall := h.small
      rw [length_countedContent, records_append, List.length_append, length_records_cons, show records [] = [] from rfl]
      simp only [List.length_nil]
      omega
    obtain ⟨u, hu, hst⟩ := writeinode_ok _ ((h.placed.writable hsize).quiet hqu) (by simp [countedContent, le])
    rw [hqu.ino] at hst
    refine .inr ⟨u, ?_, hst.of_quiet hqu⟩
    show (malloc _ >>= _) v = _
    rw [bind_ok (malloc_ok _ _), bind_ok (lift_ok hput), bind_ok (lift_ok happend), bind_ok hu]
    rfl

end Rodvin.Starfs
