/-
  Rodvin.Starfs.DirStream — open directories (`tools/fuse_starfs/main.c`:
  `starfs_opendir`, `starfs_readdir`).

  `opendir` notes how many entries the directory has; `readdir` reads the records from the
  disk one by one, moves on, and hands each to FUSE's `filler`, which may refuse it.
  - `stream_exact`: whatever is looked up in and added to the directory between the calls,
    the fillers together are offered the entries it had when it was opened, each once and
    in order; a call ends with the last of them or with the one its filler refuses, which
    no later call offers again.
  - `readdir_returns_iff`: a call returns exactly when the names it comes to fit the buffer
    of 1024 bytes on the stack.
-/

import Rodvin.Lib.Runs
import Rodvin.Starfs.DirectoryGraph

namespace Rodvin.Starfs

open Rodvin.Lib

/-- What a call of `filler` is given, its buffer apart. -/
structure Filled where
  name : Name
  stat : Stat
  nextoff : Nat
  deriving DecidableEq, Repr

/-- The C string at `o` of a block. -/
def cstringAt (b : Buf) (o : Nat) : Checked Name :=
  if 0 ∈ b.bytes.drop o then pure ((b.bytes.drop o).takeWhile (· ≠ 0)) else .error .fault

/-- The `struct stat` of `starfs_readdir`: each entry is a regular file. -/
def entryStat (ino : Nat) : Stat := ⟨0, ino, S_IFREG ||| 0o644, 0, 0, 0, 0, 0, 0, 0, 0, 0, 0⟩

/-- One turn of the loop up to the call of `filler`. -/
def readEntry (i offset : Nat) (buffer : Buf) : Fuse Buf := do
  let ino ← inodetab i
  lseek (add64 (shl64 ino.ext.startblock 12) offset)
  let bs ← read 6
  let buffer ← (buffer.put 0 bs : Checked Buf)
  let bs ← read (filenamelength buffer 0)
  (buffer.put 6 bs : Checked Buf)

/-- The loop of `starfs_readdir` with `entryleft` entries left. `filler` answers by all it has
    been given in this call. -/
def readEntries (filler : List Filled → Bool) (i : Nat) : Nat → Nat → Buf → List Filled → Fuse (Dirp × List Filled)
  | 0, offset, _, calls => pure (⟨i, offset, 0⟩, calls)
  | entryleft + 1, offset, buffer, calls => do
    let buffer ← readEntry i offset buffer
    let offset := offset + (6 + filenamelength buffer 0)
    let name ← (cstringAt buffer 6 : Checked Name)
    let calls := calls ++ [⟨name, entryStat (inodeno buffer 0), 0⟩]
    if filler calls then pure (⟨i, offset, entryleft⟩, calls) else readEntries filler i entryleft offset buffer calls

def readdir (filler : List Filled → Bool) (d : Dirp) : Fuse (Int × Dirp × List Filled) := do
  let buffer ← malloc 1024                              -- on the stack, not initialised
  let (d, calls) ← readEntries filler d.i d.entryleft d.offset buffer []
  return (0, d, calls)

variable {s t u : Fs} {d n : Nat} {es rest more : List (Name × Nat)} {e : Name × Nat} {b : Buf} {p : Dirp}
  {filler : List Filled → Bool} {calls : List Filled}

/-! ## Records on the disk -/

def filled (e : Name × Nat) : Filled := ⟨e.1, entryStat e.2, 0⟩

theorem filled_eq (e : Name × Nat) : (⟨e.1, entryStat e.2, 0⟩ : Filled) = filled e := rfl

/-- The records of the directory lie at its first block. -/
theorem DirAt.onDisk (h : DirAt s d es) : Held s.disk (4096 * (s.ino d).ext.startblock + 8) es := by
  have hc : slice s.disk (4096 * (s.ino d).ext.startblock) (s.ino d).filesize = dirContent es := h.content
  rw [h.filesize, length_dirContent, dirContent_eq] at hc
  obtain ⟨-, hc⟩ := slice_append hc (length_le 4 _)
  obtain ⟨-, hc⟩ := slice_append hc (length_le 4 _)
  rwa [show 8 + (records es).length - 4 - 4 = (records es).length by omega, Nat.add_assoc] at hc

/-- The header too. -/
theorem DirAt.header_onDisk (h : DirAt s d es) :
    slice s.disk (4096 * (s.ino d).ext.startblock) 8 = le 4 1 ++ le 4 es.length := by
  have hc : slice s.disk (4096 * (s.ino d).ext.startblock) (s.ino d).filesize = dirContent es := h.content
  rw [h.filesize, length_dirContent, dirContent_eq, ← List.append_assoc] at hc
  exact (slice_append hc (by simp)).1

theorem bind_error {α β : Type} {c : Fuse α} {f : α → Fuse β} {x : Stop} (h : c s = .error x) :
    (c >>= f) s = .error x := by
  show c s >>= _ = _
  rw [h]
  rfl

theorem lseek_ok {off : Nat} (h : off < 2 ^ 63) : lseek off s = .ok ((), { s with pos := off }) := by
  show Except.ok ((), if off < 2 ^ 63 then { s with pos := off } else s) = _
  rw [if_pos h]

theorem read_ok {count : Nat} (h : s.pos + count ≤ s.size) :
    read count s = .ok (slice s.disk s.pos count, { s with pos := s.pos + count }) := by
  show Except.ok (slice s.disk s.pos (min count (s.size - s.pos)), _) = _
  rw [min_eq_left (by omega)]

/-- The parts of a record as the two reads deliver them. -/
theorem Held.reads {a : Nat} (h : Held s.disk a (e :: rest)) :
    slice s.disk a 6 = le 4 e.2 ++ le 2 (e.1.length + 1) ∧ slice s.disk (a + 6) (e.1.length + 1) = e.1 ++ [0] := by
  unfold Held at h
  rw [records_cons] at h
  have h := (slice_append h (length_direntry e.1 e.2)).1
  unfold direntry at h
  rw [← List.append_assoc] at h
  obtain ⟨h1, h2⟩ := slice_append h (k := 6) (by simp)
  exact ⟨h1, by rwa [show e.1.length + 7 - 6 = e.1.length + 1 by omega] at h2⟩

/-- The fields of a record at the start of a block. -/
theorem fields_of_bytes {xs : List UInt8} (he : EntryOk e) (hb : b.bytes = le 4 e.2 ++ (le 2 (e.1.length + 1) ++ xs)) :
    inodeno b 0 = e.2 ∧ filenamelength b 0 = e.1.length + 1 := by
  constructor
  · refine leAt_of_slice ?_ he.inodeno
    rw [b.slice_at (by rw [hb]; simp), hb, List.drop_zero, List.take_left' (length_le 4 _)]
  · refine leAt_of_slice ?_ he.namelength
    rw [b.slice_at (by rw [hb]; simp; omega), hb, List.drop_left' (length_le 4 _), List.take_left' (length_le 2 _)]

theorem takeWhile_string {name : Name} (h : (0 : UInt8) ∉ name) (xs : List UInt8) :
    (name ++ 0 :: xs).takeWhile (· ≠ 0) = name := by
  induction name with
  | nil => rfl
  | cons x name ih =>
    obtain ⟨hx, hname⟩ := not_or.mp (mt List.mem_cons.mpr h)
    rw [List.cons_append, List.takeWhile_cons, if_pos (by simpa using Ne.symm hx), ih hname]

theorem cstringAt_ok {xs ys : List UInt8} {name : Name} (h : (0 : UInt8) ∉ name)
    (hb : b.bytes = xs ++ (name ++ 0 :: ys)) :
    cstringAt b xs.length = .ok name := by
  unfold cstringAt
  rw [hb, List.drop_left, if_pos (by simp), takeWhile_string h]
  rfl

/-- Writing at the start of a block. -/
theorem Buf.put_zero {bs : List UInt8} (h : bs.length ≤ b.bytes.length) :
    b.put 0 bs = .ok ⟨bs ++ b.bytes.drop bs.length, b.behind⟩ := by
  unfold Buf.put
  rw [if_pos (by omega), Nat.zero_add, List.take_zero, List.nil_append]

/-- Where the turn reads: the record lies on the disk at offset `n` of the directory. -/
structure RecordAt (s : Fs) (d n : Nat) (e : Name × Nat) (rest : List (Name × Nat)) : Prop where
  mapped : s.Mapped d
  held : Held s.disk (4096 * (s.ino d).ext.startblock + n) (e :: rest)
  ok : EntryOk e
  start : 4096 * (s.ino d).ext.startblock < 2 ^ 62
  offset : n < 2 ^ 62
  ends : 4096 * (s.ino d).ext.startblock + n + (records (e :: rest)).length ≤ s.size

/-- The header of the record is read into the block. -/
theorem readEntry_header (h : RecordAt s d n e rest) (hb : b.bytes.length = 1024) :
    readEntry d n b s = (do
      let bs ← read (e.1.length + 1)
      (Buf.put ⟨le 4 e.2 ++ (le 2 (e.1.length + 1) ++ b.bytes.drop 6), b.behind⟩ 6 bs : Checked Buf) : Fuse Buf)
        { s with pos := 4096 * (s.ino d).ext.startblock + n + 6 } := by
  have hstart := h.start
  have hoff := h.offset
  have hends := h.ends
  rw [length_records_cons] at hends
  have haddr : add64 (shl64 (s.ino d).ext.startblock 12) n = 4096 * (s.ino d).ext.startblock + n := by
    rw [shl64_eq (by omega), add64_eq (by omega)]
  have hput : b.put 0 (le 4 e.2 ++ le 2 (e.1.length + 1)) =
      .ok ⟨le 4 e.2 ++ (le 2 (e.1.length + 1) ++ b.bytes.drop 6), b.behind⟩ := by
    rw [Buf.put_zero (by simp [hb])]
    simp
  have hread : read 6 { s with pos := 4096 * (s.ino d).ext.startblock + n } =
      .ok (le 4 e.2 ++ le 2 (e.1.length + 1), { s with pos := 4096 * (s.ino d).ext.startblock + n + 6 }) := by
    rw [read_ok (by show 4096 * (s.ino d).ext.startblock + n + 6 ≤ s.size; omega)]
    exact congrArg (fun bs => Except.ok (bs, _)) h.held.reads.1
  unfold readEntry
  rw [bind_ok (inodetab_ok h.mapped), haddr, bind_ok (lseek_ok (by omega)), bind_ok hread, bind_ok (lift_ok hput),
    (fields_of_bytes h.ok rfl).2]

theorem readEntry_name (h : RecordAt s d n e rest) :
    read (e.1.length + 1) { s with pos := 4096 * (s.ino d).ext.startblock + n + 6 } =
      .ok (e.1 ++ [0], { s with pos := 4096 * (s.ino d).ext.startblock + n + 6 + (e.1.length + 1) }) := by
  have hends := h.ends
  rw [length_records_cons] at hends
  rw [read_ok (by show 4096 * (s.ino d).ext.startblock + n + 6 + (e.1.length + 1) ≤ s.size; omega)]
  exact congrArg (fun bs => Except.ok (bs, _)) h.held.reads.2

/-- A name of at most 1017 bytes arrives in the block. -/
theorem readEntry_ok (h : RecordAt s d n e rest) (hb : b.bytes.length = 1024) (hfit : e.1.length + 7 ≤ 1024) :
    ∃ t c, readEntry d n b s = .ok (c, t) ∧ Quiet s t ∧ c.bytes.length = 1024 ∧
      inodeno c 0 = e.2 ∧ filenamelength c 0 = e.1.length + 1 ∧ cstringAt c 6 = .ok e.1 := by
  have hhead : (le 4 e.2 ++ le 2 (e.1.length + 1)).length = 6 := by simp
  have hput : Buf.put ⟨le 4 e.2 ++ (le 2 (e.1.length + 1) ++ b.bytes.drop 6), b.behind⟩ 6 (e.1 ++ [0]) =
      .ok ⟨le 4 e.2 ++ le 2 (e.1.length + 1) ++ (e.1 ++ [0] ++ (b.bytes.drop 6).drop (e.1.length + 1)), b.behind⟩ := by
    refine Buf.put_mid ((b.bytes.drop 6).take (e.1.length + 1)) ?_ hhead ?_
    · rw [List.take_append_drop, List.append_assoc]
    · simp
      omega
  obtain ⟨h1, h2⟩ := fields_of_bytes (b := ⟨le 4 e.2 ++ le 2 (e.1.length + 1) ++
    (e.1 ++ [0] ++ (b.bytes.drop 6).drop (e.1.length + 1)), b.behind⟩) h.ok (List.append_assoc ..)
  have hname : cstringAt ⟨le 4 e.2 ++ le 2 (e.1.length + 1) ++
      (e.1 ++ [0] ++ (b.bytes.drop 6).drop (e.1.length + 1)), b.behind⟩ 6 = .ok e.1 := by
    rw [← hhead]
    exact cstringAt_ok h.ok.terminated (congrArg (_ ++ ·) (List.append_assoc ..))
  have hlen : (le 4 e.2 ++ le 2 (e.1.length + 1) ++
      (e.1 ++ [0] ++ (b.bytes.drop 6).drop (e.1.length + 1))).length = 1024 := by
    simp
    omega
  have hrun : readEntry d n b s = .ok (_, _) :=
    (readEntry_header h hb).trans ((bind_ok (readEntry_name h)).trans (lift_ok hput))
  exact ⟨_, _, hrun, ⟨rfl, rfl, rfl, rfl, rfl⟩, hlen, h1, h2, hname⟩

/-- A longer one runs over its end. -/
theorem readEntry_fault (h : RecordAt s d n e rest) (hb : b.bytes.length = 1024) (hlong : ¬ e.1.length + 7 ≤ 1024) :
    readEntry d n b s = .error .fault := by
  have hput : Buf.put ⟨le 4 e.2 ++ (le 2 (e.1.length + 1) ++ b.bytes.drop 6), b.behind⟩ 6 (e.1 ++ [0]) =
      .error .fault := by
    unfold Buf.put
    refine if_neg ?_
    simp
    omega
  rw [readEntry_header h hb, bind_ok (readEntry_name h), hput]
  rfl

/-! ## One call -/

/-- How many of `es` the filler is offered, behind those of `calls`: it refuses the last, or none. -/
def taken (filler : List Filled → Bool) : List Filled → List Filled → Nat
  | _, [] => 0
  | calls, e :: es => if filler (calls ++ [e]) then 1 else taken filler (calls ++ [e]) es + 1

theorem taken_le : ∀ {calls es : List Filled}, taken filler calls es ≤ es.length
  | _, [] => Nat.le_refl 0
  | calls, e :: es => by
    unfold taken
    split
    · exact Nat.succ_le_succ (Nat.zero_le _)
    · exact Nat.succ_le_succ taken_le

/-- The filler refuses none of those offered but the last. -/
theorem not_refused {calls es : List Filled} {j : Nat} (hj : j < taken filler calls es) (h0 : j ≠ 0) :
    filler (calls ++ es.take j) = false := by
  induction es generalizing calls j with
  | nil => exact absurd hj (Nat.not_lt_zero j)
  | cons e es ih =>
    unfold taken at hj
    obtain ⟨j, rfl⟩ := Nat.exists_eq_succ_of_ne_zero h0
    split at hj
    next => exact absurd hj (by omega)
    next hr =>
      rw [List.take_succ_cons, List.append_cons]
      by_cases hj0 : j = 0
      · subst hj0
        rw [List.take_zero, List.append_nil]
        exact Bool.eq_false_iff.mpr hr
      · exact ih (Nat.lt_of_succ_lt_succ hj) hj0

theorem last_refused {calls es : List Filled} :
    taken filler calls es = es.length ∨
      taken filler calls es ≠ 0 ∧ filler (calls ++ es.take (taken filler calls es)) = true := by
  induction es generalizing calls with
  | nil => exact .inl rfl
  | cons e es ih =>
    unfold taken
    split
    next hr => exact .inr ⟨Nat.one_ne_zero, hr⟩
    next =>
      rw [List.take_succ_cons, List.append_cons calls e (es.take _), List.length_cons]
      rcases @ih (calls ++ [e]) with h | h
      · exact .inl (congrArg Nat.succ h)
      · exact .inr ⟨Nat.succ_ne_zero _, h.2⟩

/-- An entry is offered when none before it is refused. -/
theorem lt_taken_iff {calls es : List Filled} {i : Nat} (hi : i < es.length) :
    i < taken filler calls es ↔ ∀ j ≤ i, j ≠ 0 → filler (calls ++ es.take j) = false := by
  constructor
  · intro h j hj h0
    exact not_refused (hj.trans_lt h) h0
  · intro h
    by_contra hlt
    rcases @last_refused filler calls es with hl | ⟨h0, hr⟩
    · omega
    · rw [h _ (Nat.not_lt.mp hlt) h0] at hr
      cases hr

/-- The names that the call comes to fit the block. -/
def AllFit (es : List (Name × Nat)) : Prop := ∀ e ∈ es, e.1.length ≤ 1017

instance (es : List (Name × Nat)) : Decidable (AllFit es) := inferInstanceAs (Decidable (∀ e ∈ es, _))

theorem Held.prefix {m : Nat → UInt8} {o : Nat} (h : Held m o (es ++ more)) : Held m o es := by
  unfold Held at h ⊢
  rw [records_append] at h
  exact (slice_append h rfl).1

/-- What the loop reads: the records of `rest` from offset `n` of directory `d` on. -/
structure RecordsAt (s : Fs) (d n : Nat) (rest : List (Name × Nat)) : Prop where
  mapped : s.Mapped d
  held : Held s.disk (4096 * (s.ino d).ext.startblock + n) rest
  ok : ∀ e ∈ rest, EntryOk e
  start : 4096 * (s.ino d).ext.startblock < 2 ^ 62
  offset : n + (records rest).length < 2 ^ 62
  ends : 4096 * (s.ino d).ext.startblock + n + (records rest).length ≤ s.size

theorem RecordsAt.head (h : RecordsAt s d n (e :: rest)) : RecordAt s d n e rest :=
  ⟨h.mapped, h.held, h.ok e (List.mem_cons_self ..), h.start, by have := h.offset; omega, h.ends⟩

theorem RecordsAt.tail (h : RecordsAt s d n (e :: rest)) : RecordsAt s d (n + (e.1.length + 7)) rest := by
  have hoff := h.offset
  have hends := h.ends
  rw [length_records_cons] at hoff hends
  refine ⟨h.mapped, ?_, fun e' he' => h.ok e' (List.mem_cons_of_mem e he'), h.start, by omega, by omega⟩
  rw [← Nat.add_assoc]
  exact h.held.tail

theorem RecordsAt.quiet (h : RecordsAt s d n rest) (hq : Quiet s t) : RecordsAt t d n rest := by
  obtain ⟨hm, hh, ho, hs, hf, he⟩ := h
  rw [← hq.mapped] at hm
  rw [← hq.ino, ← hq.disk] at hh
  rw [← hq.ino] at hs he
  rw [← hq.size] at he
  exact ⟨hm, hh, ho, hs, hf, he⟩

/-- The loop offers the entries up to the one that is refused. -/
theorem readEntries_ok (h : RecordsAt s d n rest) (hb : b.bytes.length = 1024)
    (hfit : AllFit (rest.take (taken filler calls (rest.map filled)))) :
    ∃ t, readEntries filler d rest.length n b calls s =
      .ok ((⟨d, n + (records (rest.take (taken filler calls (rest.map filled)))).length,
        rest.length - taken filler calls (rest.map filled)⟩,
        calls ++ (rest.take (taken filler calls (rest.map filled))).map filled), t) ∧ Quiet s t := by
  induction rest generalizing n b calls s with
  | nil =>
    refine ⟨s, ?_, .refl s⟩
    simp [readEntries, records, taken]
    rfl
  | cons e rest ih =>
    have hpos : taken filler calls ((e :: rest).map filled) ≠ 0 := by
      rw [List.map_cons, taken]
      split <;> simp
    have hshort : e.1.length ≤ 1017 := by
      obtain ⟨k, hk⟩ := Nat.exists_eq_succ_of_ne_zero hpos
      rw [hk] at hfit
      exact hfit e (List.mem_cons_self ..)
    obtain ⟨t, c, hrun, hq, hc, hino, hlen, hname⟩ := readEntry_ok h.head hb (by omega)
    have hnext : n + (6 + (e.1.length + 1)) = n + (e.1.length + 7) := by omega
    rw [List.length_cons, readEntries, bind_ok hrun, hlen, hino, hnext]
    dsimp only
    rw [bind_ok (lift_ok hname), filled_eq]
    rw [List.map_cons, taken] at hfit ⊢
    by_cases hr : filler (calls ++ [filled e]) = true
    · rw [if_pos hr, if_pos hr]
      refine ⟨t, ?_, hq⟩
      simp [records, length_direntry]
      rfl
    · rw [if_neg hr] at hfit
      rw [if_neg hr, if_neg hr]
      have hfit' := fun e' he' => hfit e' (List.mem_cons_of_mem e he')
      obtain ⟨u, hu, hqu⟩ := ih (h.tail.quiet hq) hc hfit'
      refine ⟨u, ?_, hq.trans hqu⟩
      rw [hu, List.take_succ_cons, length_records_cons, List.map_cons]
      simp [Nat.add_assoc]

/-- Or it stops at a name that is too long. -/
theorem readEntries_fault (h : RecordsAt s d n rest) (hb : b.bytes.length = 1024)
    (hfit : ¬ AllFit (rest.take (taken filler calls (rest.map filled)))) :
    readEntries filler d rest.length n b calls s = .error .fault := by
  induction rest generalizing n b calls s with
  | nil => exact absurd (fun e he => absurd he List.not_mem_nil) hfit
  | cons e rest ih =>
    rw [List.length_cons, readEntries]
    by_cases hshort : e.1.length + 7 ≤ 1024
    · obtain ⟨t, c, hrun, hq, hc, hino, hlen, hname⟩ := readEntry_ok h.head hb hshort
      have hnext : n + (6 + (e.1.length + 1)) = n + (e.1.length + 7) := by omega
      rw [bind_ok hrun, hlen, hino, hnext]
      dsimp only
      rw [bind_ok (lift_ok hname), filled_eq]
      rw [List.map_cons, taken] at hfit
      by_cases hr : filler (calls ++ [filled e]) = true
      · rw [if_pos hr] at hfit
        refine absurd (fun e' he' => ?_) hfit
        rw [List.mem_singleton.mp he']
        omega
      · rw [if_neg hr] at hfit ⊢
        refine ih (h.tail.quiet hq) hc fun hall => hfit fun e' he' => ?_
        rcases List.mem_cons.mp he' with rfl | he'
        · omega
        · exact hall e' he'
    · show (readEntry d n b >>= _) s = _
      rw [bind_error (readEntry_fault h.head hb hshort)]

/-- What a call offers, with `rest` still to come. -/
def batch (filler : List Filled → Bool) (rest : List (Name × Nat)) : List (Name × Nat) :=
  rest.take (taken filler [] (rest.map filled))

theorem readdir_ok (h : RecordsAt s p.i p.offset rest) (hl : p.entryleft = rest.length)
    (hfit : AllFit (batch filler rest)) :
    ∃ t, readdir filler p s = .ok ((0, ⟨p.i, p.offset + (records (batch filler rest)).length,
      p.entryleft - taken filler [] (rest.map filled)⟩, (batch filler rest).map filled), t) ∧ Quiet s t := by
  have hq : Quiet s { s with mallocs := s.mallocs + 1 } := ⟨rfl, rfl, rfl, rfl, rfl⟩
  have hlen := length_slice (s.junk s.mallocs) 0 1024
  unfold readdir
  rw [bind_ok (malloc_ok _ _), hl]
  generalize slice (s.junk s.mallocs) 0 1024 = bytes at hlen ⊢
  have hb : (⟨bytes, s.junk s.mallocs⟩ : Buf).bytes.length = 1024 := hlen
  obtain ⟨t, ht, hqt⟩ := readEntries_ok (h.quiet hq) hb hfit
  refine ⟨t, ?_, hq.trans hqt⟩
  rw [bind_ok ht]
  rfl

theorem readdir_fault (h : RecordsAt s p.i p.offset rest) (hl : p.entryleft = rest.length)
    (hfit : ¬ AllFit (batch filler rest)) :
    readdir filler p s = .error .fault := by
  have hq : Quiet s { s with mallocs := s.mallocs + 1 } := ⟨rfl, rfl, rfl, rfl, rfl⟩
  have hlen := length_slice (s.junk s.mallocs) 0 1024
  unfold readdir
  rw [bind_ok (malloc_ok _ _), hl]
  generalize slice (s.junk s.mallocs) 0 1024 = bytes at hlen ⊢
  rw [bind_error (readEntries_fault (b := ⟨bytes, s.junk s.mallocs⟩) (h.quiet hq) hlen hfit)]

/-! ## Calls and what happens between them -/

/-- An open directory: the volume, the handle, and all that the fillers have been given. -/
structure Session where
  fs : Fs
  dirp : Dirp
  calls : List Filled

inductive Event where
  | readdir (filler : List Filled → Bool)
  | find (name : Name)
  | add (name : Name) (ino : Nat)

/-- `create` and `mkdir` add to a directory names of less than 64 KiB. -/
inductive Step : Session → Event → Session → Prop
  | readdir {x : Session} {filler : List Filled → Bool} {r : Int} {p : Dirp} {calls : List Filled} {t : Fs} :
      readdir filler x.dirp x.fs = .ok ((r, p, calls), t) → Step x (.readdir filler) ⟨t, p, x.calls ++ calls⟩
  | find {x : Session} {name : Name} {r : Nat} {t : Fs} :
      findInDir x.dirp.i name x.fs = .ok (r, t) → Step x (.find name) ⟨t, x.dirp, x.calls⟩
  | add {x : Session} {name : Name} {ino : Nat} {r : Bool} {t : Fs} :
      IsString name → name.length + 1 < 2 ^ 16 → addToDir x.dirp.i name ino x.fs = .ok (r, t) →
      Step x (.add name ino) ⟨t, x.dirp, x.calls⟩

/-- The entries that are still to be offered. -/
def Dirp.pending (p : Dirp) (es : List (Name × Nat)) : List (Name × Nat) := es.drop (es.length - p.entryleft)

/-- The handle stands behind the entries it has offered; `es` are those the directory had when it
    was opened, and `more` those that have been added. -/
structure Streams (x : Session) (es more : List (Name × Nat)) : Prop where
  placed : Placed x.fs x.dirp.i
  dirAt : DirAt x.fs x.dirp.i (es ++ more)
  left : x.dirp.entryleft ≤ es.length
  offset : x.dirp.offset = 8 + (records (es.take (es.length - x.dirp.entryleft))).length
  calls : x.calls = (es.take (es.length - x.dirp.entryleft)).map filled

variable {x y : Session} {a : Event} {events : List Event} {path : Path} {name : Name} {ino : Nat}

namespace Streams

theorem length_pending (h : Streams x es more) : (x.dirp.pending es).length = x.dirp.entryleft := by
  have := h.left
  unfold Dirp.pending
  rw [List.length_drop]
  omega

theorem recordsAt (h : Streams x es more) : RecordsAt x.fs x.dirp.i x.dirp.offset (x.dirp.pending es) := by
  have hd := h.dirAt
  have hw := h.placed.words
  have hsplit : es.take (es.length - x.dirp.entryleft) ++ x.dirp.pending es = es := List.take_append_drop _ es
  have hlen : (records (es.take (es.length - x.dirp.entryleft))).length + (records (x.dirp.pending es)).length +
      (records more).length + 8 = (x.fs.ino x.dirp.i).filesize := by
    rw [hd.filesize, length_dirContent, records_append, List.length_append]
    conv => rhs; rw [← hsplit]
    rw [records_append, List.length_append]
    omega
  have hheld : Held x.fs.disk (4096 * (x.fs.ino x.dirp.i).ext.startblock + 8) (es ++ more) := hd.onDisk
  rw [← hsplit, List.append_assoc] at hheld
  have hends := hd.readable.ends (by omega)
  have hsize := hd.readable.held
  refine ⟨hd.readable.mapped, ?_, fun e he => hd.ok e ?_, by omega, by have := h.offset; omega, ?_⟩
  · rw [h.offset, ← Nat.add_assoc]
    exact hheld.drop.prefix
  · exact List.mem_append_left _ (List.mem_of_mem_drop he)
  · have := h.offset
    omega

end Streams

/-! ## Every step keeps the place -/

theorem DirAt.quiet (h : DirAt s d es) (hq : Quiet s t) : DirAt t d es := by
  obtain ⟨hr, hd, ho, hl, hc⟩ := h
  rw [← hq.ino] at hd
  rw [← hq.content] at hc
  exact ⟨hr.quiet hq, hd, ho, hl, hc⟩

theorem Streams.quiet (h : Streams x es more) (hq : Quiet x.fs t) : Streams ⟨t, x.dirp, x.calls⟩ es more :=
  ⟨h.placed.quiet hq, h.dirAt.quiet hq, h.left, h.offset, h.calls⟩

/-- A call moves the place behind what it has offered. -/
theorem take_pending {left k : Nat} (hleft : left ≤ es.length) (hk : k ≤ left) :
    es.take (es.length - left) ++ (es.drop (es.length - left)).take k = es.take (es.length - (left - k)) := by
  rw [← List.take_add]
  congr 1
  omega

theorem Streams.readdir_step (h : Streams x es more) {r : Int} {q : Dirp}
    (hr : readdir filler x.dirp x.fs = .ok ((r, q, calls), t)) :
    r = 0 ∧ calls = (batch filler (x.dirp.pending es)).map filled ∧
      q = ⟨x.dirp.i, x.dirp.offset + (records (batch filler (x.dirp.pending es))).length,
        x.dirp.entryleft - taken filler [] ((x.dirp.pending es).map filled)⟩ ∧ Quiet x.fs t := by
  have hrec := h.recordsAt
  have hl := h.length_pending
  by_cases hfit : AllFit (batch filler (x.dirp.pending es))
  · obtain ⟨u, hu, hq⟩ := readdir_ok hrec hl.symm hfit
    obtain ⟨hres, rfl⟩ := Prod.mk.inj (Except.ok.inj (hu.symm.trans hr))
    obtain ⟨hr0, hres⟩ := Prod.mk.inj hres
    obtain ⟨hp, hcalls⟩ := Prod.mk.inj hres
    exact ⟨hr0.symm, hcalls.symm, hp.symm, hq⟩
  · rw [readdir_fault hrec hl.symm hfit] at hr
    cases hr

theorem Streams.readdir (h : Streams x es more) {r : Int} {q : Dirp}
    (hr : Starfs.readdir filler x.dirp x.fs = .ok ((r, q, calls), t)) : Streams ⟨t, q, x.calls ++ calls⟩ es more := by
  obtain ⟨-, rfl, rfl, hq⟩ := h.readdir_step hr
  have hk : taken filler [] ((x.dirp.pending es).map filled) ≤ x.dirp.entryleft := by
    rw [← h.length_pending, ← List.length_map (f := filled)]
    exact taken_le
  have htake : es.take (es.length - x.dirp.entryleft) ++ batch filler (x.dirp.pending es) = _ := take_pending h.left hk
  refine ⟨h.placed.quiet hq, h.dirAt.quiet hq, (Nat.sub_le _ _).trans h.left, ?_, ?_⟩
  · dsimp only
    rw [← htake, records_append, List.length_append, h.offset, Nat.add_assoc]
  · dsimp only
    rw [← htake, h.calls, List.map_append]

/-- A record has room for 32 bits of the inode number. -/
theorem dirContent_narrow (es : List (Name × Nat)) (name : Name) (ino : Nat) :
    dirContent (es ++ [(name, ino)]) = dirContent (es ++ [(name, ino % 2 ^ 32)]) := by
  have hrec : direntry name ino = direntry name (ino % 2 ^ 32) := by
    unfold direntry
    rw [show (2 : Nat) ^ 32 = 256 ^ 4 by decide, le_mod]
  rw [dirContent_eq, dirContent_eq, records_append, records_append, records_cons, records_cons, hrec,
    List.length_append,
    List.length_append]
  rfl

/-- What is added stands behind the entries. -/
theorem Streams.add (h : Streams x es more) {r : Bool} (hn : IsString name) (hlen : name.length + 1 < 2 ^ 16)
    (hcount : (es ++ more).length + 1 < 2 ^ 32) (hr : addToDir x.dirp.i name ino x.fs = .ok (r, t)) :
    ∃ more', Streams ⟨t, x.dirp, x.calls⟩ es more' ∧ more'.length ≤ more.length + 1 := by
  have hd := h.dirAt
  by_cases hs : Seen (x.fs.buffer x.dirp.i).at 8 (es ++ more) name
  · obtain ⟨u, hu, hq⟩ := addToDir_seen ino hd hn.terminated hs
    obtain ⟨-, rfl⟩ := Prod.mk.inj (Except.ok.inj (hu.symm.trans hr))
    exact ⟨more, h.quiet hq, Nat.le_succ _⟩
  · have hsize := length_appended_lt ino hd.ok hd.count hn
    obtain ⟨u, hu, hst⟩ := addToDir_unseen ino hd hn.terminated hs (h.placed.writable (by omega))
    obtain ⟨-, rfl⟩ := Prod.mk.inj (Except.ok.inj (hu.symm.trans hr))
    have h0 : (x.fs.ino x.dirp.i).filesize ≠ 0 := by
      rw [hd.filesize, length_dirContent]
      omega
    obtain ⟨hpl, hcont⟩ := h.placed.stored h0 (by omega) hst
    rw [dirContent_narrow, List.append_assoc] at hcont
    refine ⟨more ++ [(name, ino % 2 ^ 32)],
      ⟨hpl, ⟨hpl.readable, hpl.directory, ?_, ?_, hcont⟩, h.left, h.offset, h.calls⟩,
      by simp⟩
    · intro e he
      rw [← List.append_assoc] at he
      rcases List.mem_append.mp he with he | he
      · exact hd.ok e he
      · rw [List.mem_singleton.mp he]
        exact ⟨hn.terminated, hlen, Nat.mod_lt _ (by decide)⟩
    · rw [← List.append_assoc, List.length_append]
      exact hcount

theorem Streams.step (h : Streams x es more) (hcount : (es ++ more).length + 1 < 2 ^ 32) (hs : Step x a y) :
    y.dirp.i = x.dirp.i ∧ ∃ more', Streams y es more' ∧ more'.length ≤ more.length + 1 := by
  cases hs with
  | readdir hr =>
    refine ⟨?_, more, h.readdir hr, Nat.le_succ _⟩
    rw [(h.readdir_step hr).2.2.1]
  | find hr => exact ⟨rfl, more, h.quiet (isQuiet_findInDir _ _ |>.quiet hr), Nat.le_succ _⟩
  | add hn hlen hr => exact ⟨rfl, h.add hn hlen hcount hr⟩

theorem Streams.run (h : Streams x es more) (hrun : Run Step x events y)
    (hcount : (es ++ more).length + events.length < 2 ^ 32) : y.dirp.i = x.dirp.i ∧ ∃ more', Streams y es more' := by
  induction hrun generalizing more with
  | nil => exact ⟨rfl, more, h⟩
  | cons hs _ ih =>
    rw [List.length_append, List.length_cons] at hcount
    obtain ⟨hi, more', h', hle⟩ := h.step (by rw [List.length_append]; omega) hs
    obtain ⟨hi', hmore⟩ := ih h' (by rw [List.length_append]; omega)
    exact ⟨hi'.trans hi, hmore⟩

/-! ## Opening -/

theorem header_fields (hl : es.length < 2 ^ 32) (hb : b.bytes = le 4 1 ++ le 4 es.length) :
    formatid b = 1 ∧ entrycount b = es.length := by
  constructor
  · refine leAt_of_slice ?_ (by decide)
    rw [Buf.slice_at _ (by simp [hb]), hb, List.drop_zero, List.take_left' (length_le 4 _)]
  · refine leAt_of_slice ?_ hl
    rw [Buf.slice_at _ (by simp [hb]), hb, List.drop_left' (length_le 4 _), List.take_of_length_le (length_le 4 _).le]

/-- The header that `opendir` reads. -/
theorem read_header (h : DirAt s d es) : read 8 { s with pos := 4096 * (s.ino d).ext.startblock } =
    .ok (le 4 1 ++ le 4 es.length, { s with pos := 4096 * (s.ino d).ext.startblock + 8 }) := by
  have hends := h.readable.ends (by rw [h.filesize, length_dirContent]; omega)
  have hsize := h.filesize
  rw [length_dirContent] at hsize
  rw [read_ok (by show 4096 * (s.ino d).ext.startblock + 8 ≤ s.size; omega)]
  exact congrArg (fun bs => Except.ok (bs, _)) h.header_onDisk

/-- `opendir` opens what the path leads to, if that is a directory. -/
theorem opendir_ok (hp : Placed s d) (hd : DirAt s d es) (hne : d ≠ INVALID_INODE)
    (hget : getinode path s = .ok (d, u)) :
    ∃ t, opendir path s = .ok ((0, some ⟨d, 8, es.length⟩), t) ∧ Quiet s t := by
  have hqu := (isQuiet_getinode path).quiet hget
  have hq : Quiet s { u with mallocs := u.mallocs + 1 + 1 } := hqu.trans ⟨rfl, rfl, rfl, rfl, rfl⟩
  have hm : Fs.Mapped { u with mallocs := u.mallocs + 1 } d := hqu.mapped.mpr hd.readable.mapped
  have hw := hp.words
  rw [← hqu.ino] at hw
  have hstart : shl64 (u.ino d).ext.startblock 12 = 4096 * (u.ino d).ext.startblock := shl64_eq (by omega)
  have hseek : lseek (shl64 (u.ino d).ext.startblock 12) { u with mallocs := u.mallocs + 1 + 1 } =
      .ok ((), { u with mallocs := u.mallocs + 1 + 1, pos := 4096 * (u.ino d).ext.startblock }) := by
    rw [hstart]
    exact lseek_ok (by omega)
  have hread : read 8 { u with mallocs := u.mallocs + 1 + 1, pos := 4096 * (u.ino d).ext.startblock } = .ok (_, _) :=
    read_header (hd.quiet hq)
  have hput : Buf.put ⟨slice (u.junk (u.mallocs + 1)) 0 8, u.junk (u.mallocs + 1)⟩ 0 (le 4 1 ++ le 4 es.length) =
      .ok ⟨le 4 1 ++ le 4 es.length, u.junk (u.mallocs + 1)⟩ := Buf.put_all (by simp)
  obtain ⟨hform, hcount⟩ := header_fields (b := ⟨le 4 1 ++ le 4 es.length, u.junk (u.mallocs + 1)⟩) hd.count rfl
  refine ⟨{ u with mallocs := u.mallocs + 1 + 1, pos := 4096 * (u.ino d).ext.startblock + 8 }, ?_,
    hq.trans ⟨rfl, rfl, rfl, rfl, rfl⟩⟩
  unfold opendir
  rw [bind_ok hget, if_neg hne, bind_ok (malloc_ok _ _), bind_ok (inodetab_ok hm), bind_ok (malloc_ok _ _)]
  show (lseek (shl64 (u.ino d).ext.startblock 12) >>= _) { u with mallocs := u.mallocs + 1 + 1 } = _
  rw [bind_ok hseek, bind_ok hread]
  refine (bind_ok (lift_ok hput)).trans ?_
  rw [hform, hcount]
  rfl

/-- A handle stands in front of the first entry. -/
theorem streams_of_opendir (hp : Placed s d) (hd : DirAt s d es) (hget : getinode path s = .ok (d, u))
    (hopen : opendir path s = .ok ((0, some p), t)) : p.i = d ∧ Streams ⟨t, p, []⟩ es [] := by
  by_cases hne : d = INVALID_INODE
  · unfold opendir at hopen
    rw [bind_ok hget, if_pos hne] at hopen
    cases (Prod.mk.inj (pure_eq_ok.mp hopen).1).2
  · obtain ⟨t', ht, hq⟩ := opendir_ok hp hd hne hget
    obtain ⟨hres, rfl⟩ := Prod.mk.inj (Except.ok.inj (ht.symm.trans hopen))
    obtain rfl := Option.some.inj (Prod.mk.inj hres).2
    refine ⟨rfl, hp.quiet hq, ?_, Nat.le_refl _, ?_, ?_⟩
    · rw [List.append_nil]
      exact hd.quiet hq
    · dsimp only
      rw [Nat.sub_self]
      rfl
    · dsimp only
      rw [Nat.sub_self]
      rfl

/-! ## Whole listings -/

/-- `opendir` has made handle `p` for directory `d`, which has entries `es`. -/
structure Opened (s t : Fs) (p : Dirp) (d : Nat) (es : List (Name × Nat)) : Prop where
  placed : Placed s d
  entries : ValidEntries es
  content : s.content d = dirContent es
  opened : ∃ path u, getinode path s = .ok (d, u) ∧ opendir path s = .ok ((0, some p), t)

theorem Opened.streams (h : Opened s t p d es) (hrun : Run Step ⟨t, p, []⟩ events x)
    (hcount : es.length + events.length < 2 ^ 32) : x.dirp.i = d ∧ ∃ more, Streams x es more := by
  obtain ⟨path, u, hget, hopen⟩ := h.opened
  obtain ⟨hi, hs⟩ := streams_of_opendir h.placed (h.placed.dirAt h.entries h.content) hget hopen
  obtain ⟨hxi, hx⟩ := hs.run hrun (by rwa [List.append_nil])
  exact ⟨hxi.trans hi, hx⟩

/-- The calls have offered the entries up to where the handle stands; the next one goes on from
    there and ends with the last or with the first it is refused; and `find_in_dir` finds what is
    listed. -/
theorem stream_exact (h : Opened s t p d es) (hrun : Run Step ⟨t, p, []⟩ events x)
    (hcount : es.length + events.length < 2 ^ 32) :
    x.calls = (es.take (es.length - x.dirp.entryleft)).map filled ∧
    (∀ filler r q calls u, readdir filler x.dirp x.fs = .ok ((r, q, calls), u) →
      r = 0 ∧ x.calls ++ calls = (es.take (es.length - q.entryleft)).map filled ∧
      (q.entryleft = 0 ∨ filler calls = true) ∧
      ∀ j < calls.length, j ≠ 0 → filler (calls.take j) = false) ∧
    ∀ e ∈ es, ∃ u, findInDir d e.1 x.fs = .ok (e.2, u) := by
  obtain ⟨hxi, more, hx⟩ := h.streams hrun hcount
  refine ⟨hx.calls, fun filler r q calls u hr => ?_, fun e he => ?_⟩
  · obtain ⟨hr0, hcalls, hq, -⟩ := hx.readdir_step hr
    have hlen : calls.length = taken filler [] ((x.dirp.pending es).map filled) := by
      have := @taken_le filler [] ((x.dirp.pending es).map filled)
      rw [List.length_map] at this
      rw [hcalls, List.length_map, batch, List.length_take, min_eq_left this]
    rw [batch, List.map_take] at hcalls
    refine ⟨hr0, (hx.readdir hr).calls, ?_, fun j hj h0 => ?_⟩
    · rcases @last_refused filler [] ((x.dirp.pending es).map filled) with hl | ⟨-, hl⟩
      · refine .inl ?_
        rw [hq]
        dsimp only
        rw [hl, List.length_map, hx.length_pending, Nat.sub_self]
      · refine .inr ?_
        rw [hcalls]
        exact hl
    · rw [hlen] at hj
      rw [hcalls, List.take_take, min_eq_left hj.le]
      exact not_refused hj h0
  · obtain ⟨u, hu, -⟩ := findInDir_ok hx.dirAt (h.entries.terminated e he)
    rw [hxi] at hu
    refine ⟨u, ?_⟩
    rw [hu, List.lookup_append, lookup_of_mem h.entries.nodup he]
    rfl

/-- A call returns exactly when the names it comes to have at most 1017 bytes. -/
theorem readdir_returns_iff (h : Opened s t p d es) (hrun : Run Step ⟨t, p, []⟩ events x)
    (hcount : es.length + events.length < 2 ^ 32) (filler : List Filled → Bool) :
    (∃ r u, readdir filler x.dirp x.fs = .ok (r, u)) ↔
      ∀ pre e rest, x.dirp.pending es = pre ++ e :: rest →
        (∀ j ≤ pre.length, j ≠ 0 → filler ((pre.take j).map filled) = false) → e.1.length ≤ 1017 := by
  obtain ⟨-, more, hx⟩ := h.streams hrun hcount
  have hfits : (∃ r u, readdir filler x.dirp x.fs = .ok (r, u)) ↔ AllFit (batch filler (x.dirp.pending es)) := by
    constructor
    · intro ⟨r, u, hr⟩
      by_contra hfit
      rw [readdir_fault hx.recordsAt hx.length_pending.symm hfit] at hr
      cases hr
    · intro hfit
      obtain ⟨u, hu, -⟩ := readdir_ok hx.recordsAt hx.length_pending.symm hfit
      exact ⟨_, u, hu⟩
  rw [hfits]
  constructor
  · intro hall pre e rest hsplit hpre
    refine hall e ?_
    have hlt : pre.length < taken filler [] ((x.dirp.pending es).map filled) := by
      refine (lt_taken_iff (by rw [hsplit]; simp)).mpr fun j hj h0 => ?_
      rw [List.nil_append, hsplit, ← List.map_take, List.take_append_of_le_length hj]
      exact hpre j hj h0
    refine List.mem_take_iff_getElem.mpr ⟨pre.length, lt_min hlt (by rw [hsplit]; simp), ?_⟩
    simp [hsplit]
  · intro hall e he
    obtain ⟨i, hi, rfl⟩ := List.mem_take_iff_getElem.mp he
    have hilen : i < (x.dirp.pending es).length := by omega
    have hlt : i < taken filler [] ((x.dirp.pending es).map filled) := by omega
    refine hall ((x.dirp.pending es).take i) _ ((x.dirp.pending es).drop (i + 1)) ?_ fun j hj h0 => ?_
    · rw [List.getElem_cons_drop, List.take_append_drop]
    · rw [List.length_take, min_eq_left hilen.le] at hj
      have := not_refused (hj.trans_lt hlt) h0
      rwa [List.nil_append, ← List.map_take, ← min_eq_left hj, ← List.take_take] at this

/-! ## A new volume -/

theorem fresh_placed : Placed fresh 3 := fresh_is_new.placed (by decide) (by decide)

theorem fresh_opened : ∃ t, opendir [slash] fresh = .ok ((0, some ⟨3, 8, 6⟩), t) ∧
    Opened fresh t ⟨3, 8, 6⟩ 3 rootEntries := by
  have hd := fresh_placed.dirAt rootEntries_valid fresh_is_new.content
  obtain ⟨t, ht, -⟩ := @opendir_ok fresh fresh 3 rootEntries [slash] fresh_placed hd (by decide) rfl
  exact ⟨t, ht, fresh_placed, rootEntries_valid, fresh_is_new.content, [slash], fresh, rfl, ht⟩

/-- One call lists it. -/
theorem stream_exact_fresh : ∃ t x, opendir [slash] fresh = .ok ((0, some ⟨3, 8, 6⟩), t) ∧
    Run Step ⟨t, ⟨3, 8, 6⟩, []⟩ [.readdir fun _ => false] x ∧ x.calls = rootEntries.map filled := by
  obtain ⟨t, ht, ho⟩ := fresh_opened
  obtain ⟨-, more, hs⟩ := ho.streams (.nil _) (by decide)
  have hfit : AllFit (batch (fun _ => false) (Dirp.pending ⟨3, 8, 6⟩ rootEntries)) := by decide
  obtain ⟨u, hu, -⟩ := readdir_ok hs.recordsAt hs.length_pending.symm hfit
  have hrun := Run.single (Step.readdir hu)
  refine ⟨t, _, ht, hrun, ?_⟩
  rw [(stream_exact ho hrun (by decide)).1]
  rfl

/-- So it returns, whatever the filler answers. -/
theorem readdir_returns_fresh : ∃ t, opendir [slash] fresh = .ok ((0, some ⟨3, 8, 6⟩), t) ∧
    ∀ filler, ∃ r u, readdir filler ⟨3, 8, 6⟩ t = .ok (r, u) := by
  obtain ⟨t, ht, ho⟩ := fresh_opened
  refine ⟨t, ht, fun filler => (readdir_returns_iff ho (.nil _) (by decide) filler).mpr ?_⟩
  intro pre e rest hsplit _
  have hall : AllFit rootEntries := by decide
  exact hall e (List.mem_of_mem_drop (hsplit ▸ List.mem_append_right pre (List.mem_cons_self ..)))

end Rodvin.Starfs
