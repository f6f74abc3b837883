/-
  Rodvin.Starfs.DirectoryProofs — directories as finite maps.

  The records of a directory lie one behind the other (`Held`), so `find_in_dir` is a
  lookup in the list of entries (`findEntry_eq`). The loop of `add_to_dir` and
  `remove_from_dir` sees all entries but the first, and the memory behind the buffer
  (`seekEntry_eq_none_iff`, `seekEntry_some`).
-/

import Rodvin.Starfs.FileProofs

namespace Rodvin.Starfs

open Rodvin.Lib

variable {m : Nat → UInt8} {b : Buf} {o p : Nat} {name : Name} {e : Name × Nat} {es es' : List (Name × Nat)}

/-! ## Records -/

/-- A C string as name, and numbers that fit their fields. -/
structure EntryOk (e : Name × Nat) : Prop where
  terminated : (0 : UInt8) ∉ e.1
  namelength : e.1.length + 1 < 2 ^ 16
  inodeno : e.2 < 2 ^ 32

theorem ValidEntries.ok (h : ValidEntries es) : ∀ e ∈ es, EntryOk e := fun e he =>
  ⟨h.terminated e he, h.namelength e he, h.inodeno e he⟩

def records (es : List (Name × Nat)) : List UInt8 := es.flatMap fun e => direntry e.1 e.2

theorem dirContent_eq (es : List (Name × Nat)) : dirContent es = le 4 1 ++ (le 4 es.length ++ records es) := rfl

theorem records_cons (e : Name × Nat) (es : List (Name × Nat)) : records (e :: es) = direntry e.1 e.2 ++ records es := rfl

theorem records_append (es es' : List (Name × Nat)) : records (es ++ es') = records es ++ records es' :=
  List.flatMap_append

theorem length_direntry (name : Name) (newino : Nat) : (direntry name newino).length = name.length + 7 := by
  simp [direntry]
  omega

theorem length_records_cons (e : Name × Nat) (es : List (Name × Nat)) :
    (records (e :: es)).length = e.1.length + 7 + (records es).length := by
  rw [records_cons, List.length_append, length_direntry]

/-- A C string is not longer than another one at the same place. -/
theorem length_le_of_strings {xs ys : Name} (hx : slice m o (xs.length + 1) = xs ++ [0])
    (hy : slice m o (ys.length + 1) = ys ++ [0]) (h0 : (0 : UInt8) ∉ ys) : ys.length ≤ xs.length := by
  by_contra hlt
  have hend : m (o + xs.length) = 0 := by
    have h := slice_append hx rfl
    rw [Nat.add_sub_cancel_left] at h
    exact List.cons.inj h.2 |>.1
  have hin : m (o + xs.length) ∈ ys := by
    have h := (slice_append hy rfl).1
    rw [← h]
    exact List.mem_map.mpr ⟨xs.length, List.mem_range.mpr (by omega), rfl⟩
  rw [hend] at hin
  exact h0 hin

/-- `strcmp` finds a C string equal to `name`. -/
theorem sameName_iff {str : Name} (h : slice m o (str.length + 1) = str ++ [0]) (hs : (0 : UInt8) ∉ str)
    (hn : (0 : UInt8) ∉ name) : sameName m o name = true ↔ str = name := by
  unfold sameName
  rw [beq_iff_eq]
  constructor
  · intro h'
    have hlen : str.length = name.length := le_antisymm (length_le_of_strings h' h hs) (length_le_of_strings h h' hn)
    rw [← hlen, h] at h'
    exact List.append_cancel_right h'
  · rintro rfl
    exact h

/-- The records of `es` stand at `o`. -/
def Held (m : Nat → UInt8) (o : Nat) (es : List (Name × Nat)) : Prop := slice m o (records es).length = records es

theorem Held.tail (h : Held m o (e :: es)) : Held m (o + (e.1.length + 7)) es := by
  unfold Held at h
  rw [records_cons] at h
  have ht := (slice_append h (length_direntry e.1 e.2)).2
  rwa [List.length_append, length_direntry, Nat.add_sub_cancel_left] at ht

theorem Held.drop {pre : List (Name × Nat)} (h : Held m o (pre ++ es)) : Held m (o + (records pre).length) es := by
  unfold Held at h ⊢
  rw [records_append] at h
  have ht := (slice_append h rfl).2
  rwa [List.length_append, Nat.add_sub_cancel_left] at ht

/-- The first record. -/
theorem Held.head (h : Held m o (e :: es)) (he : EntryOk e) :
    leAt m o 4 = e.2 ∧ leAt m (o + 4) 2 = e.1.length + 1 ∧ slice m (o + 6) (e.1.length + 1) = e.1 ++ [0] := by
  unfold Held at h
  rw [records_cons] at h
  obtain ⟨h, -⟩ := slice_append h (length_direntry e.1 e.2)
  obtain ⟨h0, h⟩ := slice_append h (length_le 4 _)
  obtain ⟨h1, h2⟩ := slice_append h (length_le 2 _)
  refine ⟨leAt_of_slice h0 he.inodeno, leAt_of_slice h1 he.namelength, ?_⟩
  rwa [show e.1.length + 7 - 4 - 2 = e.1.length + 1 by omega] at h2

theorem nextEntry_eq (h : Held b.at o (e :: es)) (he : EntryOk e) : nextEntry b o = o + (e.1.length + 7) := by
  unfold nextEntry filenamelength
  rw [(h.head he).2.1]
  omega

/-- `find_in_dir` looks the name up. -/
theorem findEntry_eq (h : Held b.at o es) (hok : ∀ e ∈ es, EntryOk e) (hn : (0 : UInt8) ∉ name) :
    findEntry b name es.length o = es.lookup name := by
  induction es generalizing o with
  | nil => rfl
  | cons e es ih =>
    have he := hok e (List.mem_cons_self ..)
    have hhead := h.head he
    have hsame := sameName_iff hhead.2.2 he.terminated hn
    rw [List.length_cons, findEntry, nextEntry_eq h he, ih h.tail fun e' he' => hok e' (List.mem_cons_of_mem e he')]
    by_cases heq : e.1 = name
    · rw [if_pos (hsame.mpr heq), ← heq, List.lookup_cons, beq_self_eq_true]
      exact congrArg some hhead.1
    · rw [if_neg (fun hs => heq (hsame.mp hs)), List.lookup_cons, beq_eq_false_iff_ne.mpr (Ne.symm heq)]

/-! ## The loop that moves on first -/

/-- What the loop of `add_to_dir` and `remove_from_dir` comes upon. -/
def Seen (m : Nat → UInt8) (o : Nat) (es : List (Name × Nat)) (name : Name) : Prop :=
  name ∈ es.tail.map Prod.fst ∨ es ≠ [] ∧ sameName m (o + (records es).length + 6) name = true

theorem seekEntry_eq_none_iff (h : Held b.at o es) (hok : ∀ e ∈ es, EntryOk e) (hn : (0 : UInt8) ∉ name) :
    seekEntry b name es.length o = none ↔ ¬ Seen b.at o es name := by
  induction es generalizing o with
  | nil => simp [seekEntry, Seen]
  | cons e es ih =>
    have he := hok e (List.mem_cons_self ..)
    have hok' : ∀ e' ∈ es, EntryOk e' := fun e' he' => hok e' (List.mem_cons_of_mem e he')
    have hlen : o + (e.1.length + 7) + (records es).length + 6 = o + (records (e :: es)).length + 6 := by
      rw [length_records_cons]
      omega
    rw [List.length_cons, seekEntry, nextEntry_eq h he]
    cases es with
    | nil =>
      have hend : o + (e.1.length + 7) + 6 = o + (records [e]).length + 6 := by
        rw [← hlen]
        rfl
      rw [hend]
      simp [Seen, seekEntry]
    | cons e' es =>
      have he' := hok' e' (List.mem_cons_self ..)
      have hsame := sameName_iff (h.tail.head he').2.2 he'.terminated hn
      by_cases heq : e'.1 = name
      · simp [Seen, hsame.mpr heq, heq]
      · rw [if_neg (fun hs => heq (hsame.mp hs)), ih h.tail hok']
        unfold Seen
        rw [hlen]
        simp [Ne.symm heq]

/-- What is found is an entry behind the first, or lies behind the last. -/
theorem seekEntry_some (h : Held b.at o es) (hok : ∀ e ∈ es, EntryOk e) (hn : (0 : UInt8) ∉ name)
    (hp : seekEntry b name es.length o = some p) :
    (∃ pre e post, es = pre ++ e :: post ∧ e.1 = name ∧ p = o + (records pre).length) ∨ p = o +
    (records es).length := by
  induction es generalizing o with
  | nil => exact nomatch hp
  | cons e es ih =>
    have he := hok e (List.mem_cons_self ..)
    have hok' : ∀ e' ∈ es, EntryOk e' := fun e' he' => hok e' (List.mem_cons_of_mem e he')
    rw [List.length_cons, seekEntry, nextEntry_eq h he] at hp
    split at hp
    next hs =>
      obtain rfl := Option.some.inj hp
      cases es with
      | nil => exact .inr (by rw [length_records_cons]; rfl)
      | cons e' es =>
        have he' := hok' e' (List.mem_cons_self ..)
        have heq := (sameName_iff (h.tail.head he').2.2 he'.terminated hn).mp hs
        exact .inl ⟨[e], e', es, rfl, heq, by rw [length_records_cons]; rfl⟩
    next =>
      rcases ih h.tail hok' hp with ⟨pre, e', post, rfl, heq, rfl⟩ | rfl
      · exact .inl ⟨e :: pre, e', post, rfl, heq, by rw [length_records_cons]; omega⟩
      · exact .inr (by rw [length_records_cons]; omega)

/-! ## Contents -/

theorem length_dirContent (es : List (Name × Nat)) : (dirContent es).length = 8 + (records es).length := by
  simp [dirContent_eq]
  omega

theorem length_records_le (hok : ∀ e ∈ es, EntryOk e) : (records es).length ≤ es.length * 2 ^ 17 := by
  induction es with
  | nil => exact Nat.le_refl 0
  | cons e es ih =>
    have := (hok e (List.mem_cons_self ..)).namelength
    have := ih fun e' he' => hok e' (List.mem_cons_of_mem e he')
    rw [length_records_cons, List.length_cons]
    omega

theorem Buf.slice_at {i n : Nat} (b : Buf) (h : i + n ≤ b.bytes.length) : slice b.at i n = (b.bytes.drop i).take n := by
  refine List.ext_getElem (by simp; omega) fun j h1 h2 => ?_
  have hj : i + j < b.bytes.length := by
    rw [length_slice] at h1
    omega
  simp [slice, Buf.at, List.getElem?_eq_getElem hj]

/-- A buffer that starts with the content of a directory. -/
theorem read_dirContent {rest : List UInt8} (hb : b.bytes = dirContent es ++ rest) (hl : es.length < 2 ^ 32) :
    formatid b = 1 ∧ entrycount b = es.length ∧ Held b.at 8 es := by
  have h : slice b.at 0 (dirContent es).length = dirContent es := by
    rw [b.slice_at (by rw [hb, List.length_append]; omega), hb, List.drop_zero, List.take_left]
  rw [length_dirContent] at h
  obtain ⟨h0, h⟩ := slice_append h (length_le 4 _)
  obtain ⟨h1, h2⟩ := slice_append h (length_le 4 _)
  refine ⟨leAt_of_slice h0 (by decide), leAt_of_slice h1 hl, ?_⟩
  rwa [show 8 + (records es).length - 4 - 4 = (records es).length by omega] at h2

theorem Buf.put_mid {b : Buf} {i : Nat} {xs zs bs : List UInt8} (ys : List UInt8) (hb : b.bytes = xs ++ (ys ++ zs))
    (hi : xs.length = i)
    (hl : bs.length = ys.length) : b.put i bs = .ok ⟨xs ++ (bs ++ zs), b.behind⟩ := by
  subst hi
  unfold Buf.put
  rw [hb, if_pos (by simp [hl]), List.take_left, ← List.drop_drop, List.drop_left, hl, List.drop_left,
    List.append_assoc]

theorem appendEntry_ok {room : List UInt8} {behind : Nat → UInt8} {newino : Nat} (hl : es.length < 2 ^ 32)
    (hr : room.length = 7 + name.length) :
    appendEntry ⟨dirContent es ++ room, behind⟩ (dirContent es).length name newino =
      .ok ⟨dirContent (es ++ [(name, newino)]), behind⟩ := by
  have hcount := (read_dirContent (b := ⟨dirContent es ++ room, behind⟩) rfl hl).2.1
  have h4 : Buf.put ⟨dirContent es ++ room, behind⟩ 4 (le 4 (es.length + 1)) =
      .ok ⟨le 4 1 ++ (le 4 (es.length + 1) ++ (records es ++ room)), behind⟩ := by
    refine Buf.put_mid (le 4 es.length) ?_ (length_le 4 1) (by simp)
    rw [dirContent_eq, List.append_assoc, List.append_assoc]
  have hput : Buf.put ⟨le 4 1 ++ (le 4 (es.length + 1) ++ (records es ++ room)), behind⟩ (dirContent es).length
      (direntry name newino) =
        .ok ⟨le 4 1 ++ (le 4 (es.length + 1) ++ records es) ++ (direntry name newino ++ []), behind⟩ := by
    refine Buf.put_mid room ?_ ?_ (by rw [length_direntry, hr, Nat.add_comm])
    · simp only [List.append_assoc, List.append_nil]
    · rw [length_dirContent]
      simp
      omega
  unfold appendEntry
  rw [hcount, Lib.ok_bind h4, hput, dirContent_eq, records_append, List.length_append]
  simp [records]

/-- Records end where they begin to differ: no two lists of entries look the same. -/
theorem records_split {xs : List UInt8} (hok : ∀ e ∈ es, EntryOk e) (hok' : ∀ e ∈ es', EntryOk e)
    (h : records es ++ xs = records es') : ∃ ys, es' = es ++ ys ∧ xs = records ys := by
  induction es generalizing es' with
  | nil => exact ⟨es', rfl, h⟩
  | cons e es ih =>
    cases es' with
    | nil =>
      have := congrArg List.length h
      rw [List.length_append, length_records_cons] at this
      exact absurd this (by simp [records])
    | cons e' es' =>
      have he := hok e (List.mem_cons_self ..)
      have he' := hok' e' (List.mem_cons_self ..)
      rw [records_cons, records_cons, List.append_assoc] at h
      unfold direntry at h
      simp only [List.append_assoc] at h
      obtain ⟨h0, h⟩ := List.append_inj h (by simp)
      obtain ⟨h1, h⟩ := List.append_inj h (by simp)
      have hino : e.2 = e'.2 := le_inj he.inodeno he'.inodeno h0
      have hlen : e.1.length = e'.1.length := Nat.succ.inj (le_inj he.namelength he'.namelength h1)
      obtain ⟨h2, h⟩ := List.append_inj h hlen
      obtain ⟨ys, rfl, hxs⟩ := ih (fun x hx => hok x (List.mem_cons_of_mem e hx))
        (fun x hx => hok' x (List.mem_cons_of_mem e' hx)) (List.append_cancel_left h)
      have hee : e = e' := Prod.ext h2 hino
      exact ⟨ys, by rw [hee, List.cons_append], hxs⟩

/-- A content tells how many entries it has, and which. -/
theorem dirContent_split {n : Nat} {xs : List UInt8} (hok : ∀ e ∈ es, EntryOk e) (hok' : ∀ e ∈ es', EntryOk e)
    (hl : es'.length < 2 ^ 32) (h : le 4 1 ++ (le 4 n ++ (records es ++ xs)) = dirContent es') :
    es'.length = n % 2 ^ 32 ∧ ∃ ys, es' = es ++ ys ∧ xs = records ys := by
  rw [dirContent_eq] at h
  obtain ⟨hn, hr⟩ := List.append_inj (List.append_cancel_left h) (by simp)
  have hcount := congrArg ofLE hn
  rw [ofLE_le, ofLE_le] at hcount
  rw [Nat.mod_eq_of_lt (show es'.length < 256 ^ 4 from hl)] at hcount
  exact ⟨hcount.symm, records_split hok hok' hr⟩

/-! ## The three functions -/

variable {s t u : Fs} {d : Nat}

/-- Inode `d` is a directory with entries `es`. -/
structure DirAt (s : Fs) (d : Nat) (es : List (Name × Nat)) : Prop where
  readable : Readable s d
  directory : (s.ino d).flags &&& INO_DIRECTORY ≠ 0
  ok : ∀ e ∈ es, EntryOk e
  count : es.length < 2 ^ 32
  content : s.content d = dirContent es

/-- The buffer that the next read of directory `d` delivers. -/
def Fs.buffer (s : Fs) (d : Nat) : Buf := ⟨s.content d, s.junk s.mallocs⟩

theorem buffer_eq (s : Fs) (d : Nat) : (⟨s.content d, s.junk s.mallocs⟩ : Buf) = s.buffer d := by
  unfold Fs.buffer
  rfl

theorem buffer_bytes (s : Fs) (d : Nat) : (s.buffer d).bytes = s.content d := by dsimp only [Fs.buffer]

theorem length_content (s : Fs) (n : Nat) : (s.content n).length = (s.ino n).filesize := length_slice _ _ _

namespace DirAt

theorem filesize (h : DirAt s d es) : (s.ino d).filesize = (dirContent es).length := by
  rw [← length_content, h.content]

theorem header (h : DirAt s d es) :
    formatid (s.buffer d) = 1 ∧ entrycount (s.buffer d) = es.length ∧ Held (s.buffer d).at 8 es := by
  have hb : (s.buffer d).bytes = dirContent es ++ [] := by
    rw [List.append_nil, buffer_bytes, h.content]
  exact read_dirContent hb h.count

theorem format (h : DirAt s d es) : ¬ formatid (s.buffer d) ≠ 1 := not_not.mpr h.header.1

/-- What the loop of `add_to_dir` and `remove_from_dir` finds. -/
theorem seek_none (h : DirAt s d es) (hn : (0 : UInt8) ∉ name) :
    seekEntry (s.buffer d) name (entrycount (s.buffer d)) 8 = none ↔ ¬ Seen (s.buffer d).at 8 es name := by
  rw [h.header.2.1]
  exact seekEntry_eq_none_iff h.header.2.2 h.ok hn

end DirAt

theorem findInDir_ok (h : DirAt s d es) (hn : (0 : UInt8) ∉ name) :
    ∃ t, findInDir d name s = .ok ((es.lookup name).getD INVALID_INODE, t) ∧ Quiet s t := by
  obtain ⟨t, ht, hq⟩ := readinode_ok h.readable
  rw [buffer_eq] at ht
  refine ⟨t, ?_, hq⟩
  have hfind := findEntry_eq h.header.2.2 h.ok hn
  rw [← h.header.2.1] at hfind
  unfold findInDir
  rw [bind_ok (inodetab_ok h.readable.mapped), if_neg h.directory, bind_ok ht, if_neg h.format, hfind]
  rfl

theorem removeFromDir_unseen (h : DirAt s d es) (hn : (0 : UInt8) ∉ name) (hs : ¬ Seen (s.buffer d).at 8 es name) :
    ∃ t, removeFromDir d name s = .ok (false, t) ∧ Quiet s t := by
  obtain ⟨t, ht, hq⟩ := readinode_ok h.readable
  rw [buffer_eq] at ht
  refine ⟨t, ?_, hq⟩
  unfold removeFromDir
  rw [bind_ok (inodetab_ok h.readable.mapped), if_neg h.directory, bind_ok ht, if_neg h.format, (h.seek_none hn).mpr hs]
  rfl

theorem addToDir_seen (newino : Nat) (h : DirAt s d es) (hn : (0 : UInt8) ∉ name)
    (hs : Seen (s.buffer d).at 8 es name) :
    ∃ t, addToDir d name newino s = .ok (false, t) ∧ Quiet s t := by
  obtain ⟨t, ht, hq⟩ := readinode_ok h.readable
  rw [buffer_eq] at ht
  refine ⟨t, ?_, hq⟩
  obtain ⟨o, ho⟩ := Option.ne_none_iff_exists'.mp ((h.seek_none hn).not.mpr (not_not.mpr hs))
  unfold addToDir
  rw [bind_ok (inodetab_ok h.readable.mapped), if_neg h.directory, bind_ok ht, if_neg h.format, ho]
  rfl

theorem addToDir_unseen (newino : Nat) (h : DirAt s d es) (hn : (0 : UInt8) ∉ name)
    (hs : ¬ Seen (s.buffer d).at 8 es name)
    (hw : Writable s d (dirContent (es ++ [(name, newino)])).length) :
    ∃ t, addToDir d name newino s = .ok (true, t) ∧
      Stored s t d ((s.ino d).grown (dirContent (es ++ [(name, newino)])).length) (dirContent (es ++ [(name, newino)])) := by
  obtain ⟨t, ht, hq⟩ := readinode_ok h.readable
  rw [buffer_eq] at ht
  let room : List UInt8 := (slice (t.junk t.mallocs) 0 (7 + name.length + (s.ino d).filesize)).drop (s.ino d).filesize
  have hroom : room.length = 7 + name.length := by simp [room]
  have hput : Buf.put ⟨slice (t.junk t.mallocs) 0 (7 + name.length + (s.ino d).filesize), t.junk t.mallocs⟩ 0
      (s.buffer d).bytes = .ok ⟨dirContent es ++ room, t.junk t.mallocs⟩ := by
    have hlen : (dirContent es).length = (s.ino d).filesize := h.filesize.symm
    unfold Buf.put
    rw [buffer_bytes, h.content, if_pos (by simp [hlen]), Nat.zero_add, hlen, List.take_zero, List.nil_append]
  have happend : appendEntry ⟨dirContent es ++ room, t.junk t.mallocs⟩ (dirContent es).length name newino = _ :=
    appendEntry_ok h.count hroom
  rw [← h.filesize] at happend
  have hqu : Quiet s { t with mallocs := t.mallocs + 1 } := hq.trans ⟨rfl, rfl, rfl, rfl, rfl⟩
  obtain ⟨u, hu, hst⟩ := writeinode_ok _ (hw.quiet hqu) (by simp [dirContent_eq, le])
  rw [hqu.ino] at hst
  refine ⟨u, ?_, hst.of_quiet hqu⟩
  unfold addToDir
  rw [bind_ok (inodetab_ok h.readable.mapped), if_neg h.directory, bind_ok ht, if_neg h.format, (h.seek_none hn).mpr hs]
  show (malloc _ >>= _) t = _
  rw [bind_ok (malloc_ok _ _), bind_ok (lift_ok hput), bind_ok (lift_ok happend), bind_ok hu]
  rfl

/-- `memmove` in the buffer of a directory. -/
theorem cutEntry_ok {pre post : List (Name × Nat)} (hb : b.bytes = dirContent (pre ++ e :: post))
    (hnext : nextEntry b (8 + (records pre).length) = 8 + (records pre).length + (e.1.length + 7)) :
    cutEntry b (8 + (records pre).length) =
      .ok (le 4 1 ++ (le 4 (pre ++ e :: post).length ++ records (pre ++ post))) := by
  have hsplit : b.bytes = (le 4 1 ++ (le 4 (pre ++ e :: post).length ++ records pre)) ++
      (direntry e.1 e.2 ++ records post) := by
    rw [hb, dirContent_eq, records_append, records_cons]
    simp only [List.append_assoc]
  have hpre : (le 4 1 ++ (le 4 (pre ++ e :: post).length ++ records pre)).length = 8 + (records pre).length := by
    simp
    omega
  have hle : 8 + (records pre).length + (e.1.length + 7) ≤
      ((le 4 1 ++ (le 4 (pre ++ e :: post).length ++ records pre)) ++ (direntry e.1 e.2 ++ records post)).length := by
    rw [List.length_append, hpre, List.length_append, length_direntry]
    omega
  unfold cutEntry
  rw [hnext, hsplit, if_pos hle, ← hpre,
    List.take_left, ← List.drop_drop, List.drop_left, ← length_direntry e.1 e.2, List.drop_left, records_append]
  simp only [List.append_assoc]
  rfl

/-- The entry that is found can only be cut out of the buffer when it lies in it. -/
theorem cutEntry_end {es : List (Name × Nat)} (hb : b.bytes = dirContent es) :
    cutEntry b (8 + (records es).length) = .error .fault := by
  unfold cutEntry
  rw [hb, length_dirContent, if_neg (by unfold nextEntry; omega)]

/-- Removing succeeds only for an entry behind the first; it leaves the count of entries. -/
theorem removeFromDir_seen {r : Bool} (h : DirAt s d es) (hn : (0 : UInt8) ∉ name) (hs : Seen (s.buffer d).at 8 es name)
    (hw : ∀ size, size ≤ (s.ino d).filesize → Writable s d size) (hr : removeFromDir d name s = .ok (r, t)) :
    ∃ pre e post u, es = pre ++ e :: post ∧ e.1 = name ∧
      Stored s u d ((s.ino d).grown (8 + (records (pre ++ post)).length)) (le 4 1 ++ (le 4 es.length ++ records (pre ++ post))) ∧
      Quiet (u.putIno d { u.ino d with linkcount := ((u.ino d).linkcount + 2 ^ 32 - 1) % 2 ^ 32 }) t := by
  obtain ⟨v, hv, hq⟩ := readinode_ok h.readable
  rw [buffer_eq] at hv
  obtain ⟨o, ho⟩ := Option.ne_none_iff_exists'.mp ((h.seek_none hn).not.mpr (not_not.mpr hs))
  have hbytes : (s.buffer d).bytes = dirContent es := (buffer_bytes s d).trans h.content
  unfold removeFromDir at hr
  rw [bind_ok (inodetab_ok h.readable.mapped), if_neg h.directory, bind_ok hv, if_neg h.format, ho] at hr
  rw [h.header.2.1] at ho
  rcases seekEntry_some h.header.2.2 h.ok hn ho with ⟨pre, e, post, rfl, he, rfl⟩ | rfl
  · have hheld : Held (s.buffer d).at (8 + (records pre).length) (e :: post) := h.header.2.2.drop
    have hcut := cutEntry_ok hbytes (nextEntry_eq hheld (h.ok e (List.mem_append_right _ (List.mem_cons_self ..))))
    have hlen : (le 4 1 ++ (le 4 (pre ++ e :: post).length ++ records (pre ++ post))).length =
        8 + (records (pre ++ post)).length := by
      simp
      omega
    have hsize : 8 + (records (pre ++ post)).length ≤ (s.ino d).filesize := by
      rw [h.filesize, length_dirContent, records_append, records_append, records_cons]
      simp only [List.length_append]
      omega
    obtain ⟨content, v', hc, hr⟩ := bind_eq_ok.mp hr
    obtain ⟨hco, rfl⟩ := lift_eq_ok.mp hc
    rw [hcut] at hco
    obtain rfl := Except.ok.inj hco
    obtain ⟨u, hu, hst⟩ := writeinode_ok (n := d) (le 4 1 ++ (le 4 (pre ++ e :: post).length ++ records (pre ++ post)))
      (by rw [hlen]; exact (hw _ hsize).quiet hq) (by simp [le])
    rw [bind_ok hu] at hr
    obtain ⟨⟨⟩, u', ha, hr⟩ := bind_eq_ok.mp hr
    obtain ⟨-, rfl⟩ := assign_eq_ok.mp ha
    obtain ⟨i, u', hi, hr⟩ := bind_eq_ok.mp hr
    obtain ⟨-, rfl, rfl⟩ := inodetab_eq_ok.mp hi
    rw [hq.ino, hlen] at hst
    refine ⟨pre, e, post, u, rfl, he, hst.of_quiet hq, ?_⟩
    split at hr
    · obtain ⟨⟨⟩, u', hf, hr⟩ := bind_eq_ok.mp hr
      obtain ⟨-, rfl⟩ := pure_eq_ok.mp hr
      exact (isQuiet_freeInode d).quiet hf
    · obtain ⟨-, rfl⟩ := pure_eq_ok.mp hr
      exact .refl _
  · obtain ⟨content, v', hc, -⟩ := bind_eq_ok.mp hr
    have hc := (lift_eq_ok.mp hc).1
    rw [cutEntry_end hbytes] at hc
    cases hc

end Rodvin.Starfs
