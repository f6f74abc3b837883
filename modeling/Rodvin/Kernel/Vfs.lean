/-
  Rodvin.Kernel.Vfs — `Vfs::lookup` (`kernel/src/common/vfs.cpp`).

  What it uses of a file system is a parameter (`Directories`), in which the loop over
  `readdir` is one search: `walk_eq` says that the loop over the path goes from component to
  component (`follow`). `Filesystem` is a file system whose directories are lists: a `Dir` is
  the entries `readdir` has still to give, and which entries are directories the code never
  asks. Names have no slash; nothing else is known of the tree, and a directory may list `.`
  and `..` as FAT directories do.

  `lookup_eq`: on a path of components, `lookup` finds what `entryAt` finds, component
  by component.
-/

import Rodvin.Libc.PathProofs

namespace Rodvin.Kernel.Vfs

open Rodvin.Lib Rodvin.Libc Rodvin.Libc.Path

/-! ## The loop over the path -/

/-- `root` is the entry that `lookup` makes for the root, `opendir` is `DirEntry::opendir`, and
    `readUntil` the loop over `readdir` that looks for a name. -/
structure Directories (Entry Dir : Type) where
  root : Entry
  openrootdir : Dir
  opendir : Entry → Dir
  readUntil : Text → Dir → Checked (Option Entry)

variable {Entry Listing : Type}

/-- The loop over the components, from `start` and `pos` on, and what stands behind it. -/
def walk (ds : Directories Entry Listing) (dn : Text) : Nat → Listing → Nat → Option Nat → Checked (Option Entry)
  | 0, _, _, _ => .error .noReturn
  | fuel + 1, current, start, pos =>
    match pos with
    | none => do
      let filename ← substrFrom dn start
      ds.readUntil filename current
    | some pos => do
      let filename ← substr dn start (pos - start)
      let start := pos + 1
      match ← ds.readUntil filename current with
      | none => pure none
      | some e => do
        let pos ← find dn [slash] (start + 1)
        walk ds dn fuel (ds.opendir e) start pos

def lookupIn (ds : Directories Entry Listing) (name : Text) : Checked (Option Entry) := do
  let dn := name
  let current := ds.openrootdir
  let start := 1
  let pos ← find dn [slash] start
  if dn.length = 1 then pure (some ds.root)
  else walk ds dn (dn.length + 1) current start pos

/-- The search for one component after the other. -/
def follow (ds : Directories Entry Listing) : Listing → List Text → Checked (Option Entry)
  | _, [] => pure none
  | d, [c] => ds.readUntil c d
  | d, c :: cs => do
    match ← ds.readUntil c d with
    | none => pure none
    | some e => follow ds (ds.opendir e) cs

/-! ## A file system of lists -/

/-- What is not set is none. -/
structure DirEntry where
  size : Option UInt64
  flags : Option UInt32
  inodeId : UInt32
  name : Text
  deriving DecidableEq

abbrev Dir := List DirEntry

structure Filesystem where
  openrootdir : Dir
  opendir : DirEntry → Dir
  open_ : DirEntry → Text
  directory : DirEntry → Bool
  root_names : ∀ e ∈ openrootdir, slash ∉ e.name
  names : ∀ d, ∀ e ∈ opendir d, slash ∉ e.name

variable (fs : Filesystem)

/-- The entry `lookup` makes for the root; only its `inodeId` is set. -/
def rootEntry : DirEntry := ⟨none, none, 0xFFFFFFFF, []⟩

def DirEntry.opendir (e : DirEntry) : Dir := if e.inodeId = 0xFFFFFFFF then fs.openrootdir else fs.opendir e

/-- The loops over `readdir`. -/
def readUntil (name : Text) (d : Dir) : Option DirEntry := d.find? fun e => e.name = name

def directories : Directories DirEntry Dir where
  root := rootEntry
  openrootdir := fs.openrootdir
  opendir e := e.opendir fs
  readUntil name d := pure (readUntil name d)

def lookup (name : Text) : Checked (Option DirEntry) := lookupIn (directories fs) name

/-! ## Component by component -/

def entryIn : Dir → List Text → Option DirEntry
  | _, [] => none
  | d, [c] => readUntil c d
  | d, c :: cs => (readUntil c d).bind fun e => entryIn (e.opendir fs) cs

/-- The entry that the components lead to from the root. -/
def entryAt : List Text → Option DirEntry
  | [] => some rootEntry
  | cs => entryIn fs fs.openrootdir cs

def IsDirectory (e : DirEntry) : Prop := e.inodeId = 0xFFFFFFFF ∨ fs.directory e = true

def pathOf (cs : List Text) : Text := if cs = [] then [slash] else joined slash cs

variable {fs : Filesystem} {dn c : Text} {cs : List Text} {d : Dir} {ds : Directories Entry Listing}

/-- What `strstr` finds of a slash: not the last character. -/
theorem strstr_slash {rest : Text} (hc : slash ∉ c) (hr : rest ≠ []) :
    strstr (c ++ slash :: rest) [slash] = some c.length := by
  have hpos := List.length_pos_iff.mpr hr
  unfold strstr
  rw [if_neg (by simp)]
  cases hs : search [slash] ((c ++ slash :: rest).length - [slash].length) (c ++ slash :: rest) with
  | none =>
    exact absurd (by simp) (search_none hs c.length (by simp; omega))
  | some k =>
    obtain ⟨h1, h2, h3⟩ := search_some hs
    have hk : ¬ c.length < k := fun hlt => h3 c.length hlt (by simp)
    by_cases he : k = c.length
    · rw [he]
    · have hlt : k < c.length := by omega
      rw [List.drop_append_of_le_length (by omega), List.drop_eq_getElem_cons hlt, List.cons_append,
        List.cons_prefix_cons] at h2
      exact absurd (h2.1 ▸ List.getElem_mem hlt) hc

theorem strstr_no_slash (hc : slash ∉ c.dropLast) : strstr c [slash] = none := by
  unfold strstr
  split
  · rfl
  · cases hs : search [slash] (c.length - [slash].length) c with
    | none => rfl
    | some k =>
      obtain ⟨h1, h2, -⟩ := search_some hs
      rw [List.length_singleton] at h1
      have hlt : k < c.length := by omega
      rw [List.drop_eq_getElem_cons hlt, List.cons_prefix_cons] at h2
      refine absurd ?_ hc
      rw [List.dropLast_eq_take, h2.1, List.mem_take_iff_getElem]
      exact ⟨k, by omega, rfl⟩

theorem strstr_skip {x : UInt8} {t : Text} (hx : x ≠ slash) :
    strstr (x :: t) [slash] = (strstr t [slash]).map (· + 1) := by
  cases t with
  | nil => rfl
  | cons y t =>
    unfold strstr
    rw [if_neg (by simp), if_neg (by simp)]
    show search [slash] ((y :: t).length - 1 + 1) _ = _
    rw [search, if_neg (by simpa using Ne.symm hx)]
    rfl

/-- A name as it can stand last in a path: a slash at most at its end. -/
def LastName (c : Text) : Prop := slash ∉ c.dropLast ∧ ∃ x t, c = x :: t ∧ x ≠ slash

/-- What the names put together begin with is no slash. -/
theorem exists_first {c : Text} {cs : List Text} (hn : ∀ b ∈ (c :: cs).dropLast, b ≠ [] ∧ slash ∉ b)
    (hl : LastName ((c :: cs).getLast (List.cons_ne_nil _ _))) : ∃ x t, (joined slash (c :: cs)).tail = x :: t ∧
      x ≠ slash := by
  cases cs with
  | nil =>
    obtain ⟨x, t, h1, h2⟩ := hl.2
    rw [List.getLast_singleton] at h1
    exact ⟨x, t, by simp [h1], h2⟩
  | cons c2 cs =>
    obtain ⟨h1, h2⟩ := hn c (by simp)
    obtain ⟨x, t, rfl⟩ := List.exists_cons_of_ne_nil h1
    rw [List.mem_cons, not_or] at h2
    exact ⟨x, t ++ joined slash (c2 :: cs), rfl, Ne.symm h2.1⟩

/-- Behind a character that is no slash the search finds what it finds from there on. -/
theorem find_behind {k : Nat} {x : UInt8} {t : Text} (hd : dn.drop k = x :: t) (hx : x ≠ slash) :
    find dn [slash] (k + 1) = .ok ((strstr (dn.drop k) [slash]).map (· + k)) := by
  have hlen : k + 1 ≤ dn.length := by
    have := congrArg List.length hd
    rw [List.length_drop, List.length_cons] at this
    omega
  have hnext : dn.drop (k + 1) = t := by
    rw [← List.drop_drop, hd]
    rfl
  rw [find, if_pos hlen, hnext, hd, strstr_skip hx, Option.map_map]
  show Except.ok _ = _
  congr 2
  funext i
  show _ = i + 1 + k
  omega

/-- The loop on the rest of a path. -/
theorem walk_eq : ∀ {fuel start : Nat} {d : Listing} {c : Text} {cs : List Text},
    (∀ b ∈ (c :: cs).dropLast, b ≠ [] ∧ slash ∉ b) → LastName ((c :: cs).getLast (List.cons_ne_nil _ _)) →
    dn.drop start = (joined slash (c :: cs)).tail → start ≤ dn.length → (c :: cs).length ≤ fuel →
    walk ds dn fuel d start ((strstr (dn.drop start) [slash]).map (· + start)) = follow ds d (c :: cs) := by
  intro fuel
  induction fuel with
  | zero => intro _ _ _ _ _ _ _ _ h; exact absurd h (by simp)
  | succ fuel ih =>
    intro start d c cs hn hl hd hs hf
    cases cs with
    | nil =>
      have hd : dn.drop start = c := by simpa using hd
      have hsub : substrFrom dn start = .ok c := by rw [substrFrom, if_pos hs, hd]; rfl
      have hl : LastName c := hl
      rw [hd, strstr_no_slash hl.1]
      exact ok_bind hsub
    | cons c2 cs =>
      obtain ⟨hne, hfree⟩ := hn c (by simp)
      have hd : dn.drop start = c ++ slash :: (joined slash (c2 :: cs)).tail := by simpa using hd
      have hn' : ∀ b ∈ (c2 :: cs).dropLast, b ≠ [] ∧ slash ∉ b := fun b hb => hn b (by simp [hb])
      have hl' : LastName ((c2 :: cs).getLast (List.cons_ne_nil c2 cs)) := by simpa using hl
      obtain ⟨x, t, hx, hxs⟩ := exists_first hn' hl'
      have hlen : dn.length = start + (c.length + (t.length + 2)) := by
        have := congrArg List.length hd
        rw [hx, List.length_drop, List.length_append, List.length_cons, List.length_cons] at this
        omega
      have hsub : substr dn start (c.length + start - start) = .ok c := by
        rw [substr, if_pos (by omega), hd, Nat.add_sub_cancel, List.take_left]
        rfl
      rw [hd, strstr_slash hfree (by rw [hx]; exact List.cons_ne_nil _ _), Option.map_some]
      show (substr dn start (c.length + start - start) >>= _) = _
      rw [ok_bind hsub, follow]
      · refine bind_congr fun e => ?_
        cases e with
        | none => rfl
        | some e =>
          have hd' : dn.drop (c.length + start + 1) = (joined slash (c2 :: cs)).tail := by
            rw [show c.length + start + 1 = start + (c.length + 1) by omega, ← List.drop_drop, hd, ← List.drop_drop,
              List.drop_left]
            rfl
          show (find dn [slash] (c.length + start + 1 + 1) >>= _) = _
          rw [ok_bind (find_behind (hd'.trans hx) hxs)]
          exact ih hn' hl' hd' (by omega) (by simpa using hf)
      · exact List.cons_ne_nil _ _

theorem length_joined (cs : List Text) : cs.length ≤ (joined slash cs).length := by
  induction cs with
  | nil => exact Nat.le_refl _
  | cons c cs ih =>
    simp only [joined_cons, List.length_cons, List.length_append]
    omega

theorem lookupIn_joined (c : Text) (cs : List Text) (hn : ∀ b ∈ (c :: cs).dropLast, b ≠ [] ∧ slash ∉ b)
    (hl : LastName ((c :: cs).getLast (List.cons_ne_nil _ _))) :
    lookupIn ds (joined slash (c :: cs)) = follow ds ds.openrootdir (c :: cs) := by
  have hc : c ≠ [] := by
    cases cs with
    | nil =>
      obtain ⟨-, x, t, h, -⟩ := hl
      rw [List.getLast_singleton] at h
      rw [h]
      exact List.cons_ne_nil _ _
    | cons c2 cs => exact (hn c (by simp)).1
  have hpos := List.length_pos_iff.mpr hc
  have hlen : 2 ≤ (joined slash (c :: cs)).length := by
    simp only [joined_cons, List.length_cons, List.length_append]
    omega
  have hj := length_joined (c :: cs)
  have hfind : find (joined slash (c :: cs)) [slash] 1 =
      .ok ((strstr ((joined slash (c :: cs)).drop 1) [slash]).map (· + 1)) := by
    rw [find, if_pos (by omega)]
    rfl
  show (find (joined slash (c :: cs)) [slash] 1 >>= _) = _
  rw [ok_bind hfind, if_neg (by omega)]
  exact walk_eq hn hl rfl (by omega) (by omega)

/-! ## In a file system of lists -/

theorem follow_eq : ∀ {cs : List Text} {d : Dir}, follow (directories fs) d cs = .ok (entryIn fs d cs) := by
  intro cs
  induction cs with
  | nil => exact rfl
  | cons c cs ih =>
    intro d
    cases cs with
    | nil => rfl
    | cons c2 cs =>
      have hread : (directories fs).readUntil c d = .ok (readUntil c d) := rfl
      rw [entryIn, follow]
      · rw [ok_bind hread]
        cases readUntil c d with
        | none => rfl
        | some e => exact ih
      · exact List.cons_ne_nil _ _
      · exact List.cons_ne_nil _ _

theorem lookup_joined (c : Text) (cs : List Text) (hn : ∀ b ∈ (c :: cs).dropLast, b ≠ [] ∧ slash ∉ b)
    (hl : LastName ((c :: cs).getLast (List.cons_ne_nil _ _))) :
    lookup fs (joined slash (c :: cs)) = .ok (entryIn fs fs.openrootdir (c :: cs)) :=
  (lookupIn_joined c cs hn hl).trans follow_eq

theorem lookup_root : lookup fs [slash] = .ok (some rootEntry) := rfl

/-- On a path of components `lookup` finds what they lead to. -/
theorem lookup_eq {ds : List Text} {l : Text} (hn : ∀ b ∈ ds, b ≠ [] ∧ slash ∉ b) (hl : slash ∉ l) (hne : l ≠ []) :
    lookup fs (joined slash (ds ++ [l])) = .ok (entryAt fs (ds ++ [l])) := by
  obtain ⟨x, t, rfl⟩ := List.exists_cons_of_ne_nil hne
  have hlast : LastName (x :: t) := by
    refine ⟨fun h => hl (List.dropLast_subset _ h), x, t, rfl, ?_⟩
    rintro rfl
    exact hl List.mem_cons_self
  cases ds with
  | nil => exact lookup_joined _ [] (by simp) hlast
  | cons d ds =>
    refine lookup_joined d (ds ++ [x :: t]) (fun b hb => hn b ?_) (by simpa using hlast)
    rwa [← List.cons_append, List.dropLast_concat] at hb

theorem readUntil_slash (hd : ∀ e ∈ d, slash ∉ e.name) (hc : slash ∈ c) : readUntil c d = none := by
  refine List.find?_eq_none.mpr fun e he h => ?_
  simp only [decide_eq_true_eq] at h
  exact hd e he (h ▸ hc)

theorem opendir_names (fs : Filesystem) (e : DirEntry) : ∀ f ∈ e.opendir fs, slash ∉ f.name := by
  unfold DirEntry.opendir
  split
  · exact fs.root_names
  · exact fs.names e

theorem entryIn_slash (hc : slash ∈ c) : ∀ {ds : List Text} {d : Dir}, (∀ e ∈ d, slash ∉ e.name) →
    entryIn fs d (ds ++ [c]) = none := by
  intro ds
  induction ds with
  | nil => intro d hd; exact readUntil_slash hd hc
  | cons b ds ih =>
    intro d hd
    rw [List.cons_append, entryIn]
    · cases readUntil b d with
      | none => rfl
      | some e => exact ih (opendir_names fs e)
    · simp

/-- A slash at the end of a longer path stays with the last name, which no entry has. -/
theorem lookup_trailing {ds : List Text} {l : Text} (hn : ∀ b ∈ ds ++ [l], b ≠ [] ∧ slash ∉ b) :
    lookup fs (joined slash (ds ++ [l] ++ [[]])) = .ok none := by
  obtain ⟨hne, hfree⟩ := hn l (by simp)
  obtain ⟨x, t, rfl⟩ := List.exists_cons_of_ne_nil hne
  have hlast : LastName (x :: t ++ [slash]) := by
    refine ⟨by rwa [List.dropLast_concat], x, t ++ [slash], rfl, ?_⟩
    rintro rfl
    exact hfree List.mem_cons_self
  have hj : joined slash (ds ++ [x :: t] ++ [[]]) = joined slash (ds ++ [x :: t ++ [slash]]) := by simp
  rw [hj]
  have hnone : entryIn fs fs.openrootdir (ds ++ [x :: t ++ [slash]]) = none := entryIn_slash (by simp) fs.root_names
  rw [← hnone]
  cases ds with
  | nil => exact lookup_joined _ [] (by simp) hlast
  | cons d ds =>
    refine lookup_joined d (ds ++ [x :: t ++ [slash]]) (fun b hb => hn b ?_) (by simpa using hlast)
    rw [← List.cons_append, List.dropLast_concat] at hb
    exact List.mem_append_left _ hb

end Rodvin.Kernel.Vfs
