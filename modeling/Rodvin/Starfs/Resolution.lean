/-
  Rodvin.Starfs.Resolution — what a path stands for (`find_in_dir`, `getinode`,
  `getparentinode` of `tools/fuse_starfs/main.c`).

  An image gives each inode that can be reached from the root its entries, if it is a
  directory (`DirTree`). The walk through these (`walk`) is what `getinode` does on a path
  of slashes and components:
  - `findInDir_contains`: one directory, wherever its extents lie.
  - `getinode_eq_walk`: a whole path, and when it ends in `INVALID_INODE`;
    `getparentinode` is `getinode` of what stands before the last slash.
-/

import Rodvin.Starfs.Extents
import Rodvin.Starfs.DirectoryMaps
import Rodvin.Starfs.Operations

namespace Rodvin.Starfs

open Rodvin.Lib

variable {s t : Fs} {n : Nat} {name : Name} {es : List (Name × Nat)}

/-! ## Directories and the walk through them -/

/-- Inodes that entries lead to from the root. -/
inductive Reachable (dirs : Nat → Option (List (Name × Nat))) : Nat → Prop
  | root : Reachable dirs 3
  | entry {d : Nat} {es : List (Name × Nat)} {e : Name × Nat} :
    Reachable dirs d → dirs d = some es → e ∈ es → Reachable dirs e.2

/-- Each component is looked up in the directory that the ones before it lead to. -/
def walk (dirs : Nat → Option (List (Name × Nat))) : Nat → List Name → Option Nat
  | n, [] => some n
  | n, name :: names =>
    match dirs n with
    | none => none
    | some es =>
      match es.lookup name with
      | none => none
      | some m => walk dirs m names

/-- The directories of a mounted volume: all are well formed, and their entries name inodes of
    the table. -/
structure DirTree (s : Fs) (dirs : Nat → Option (List (Name × Nat))) : Prop where
  mounted : (s.ino 2).filesize ≤ s.maplen
  root : 3 < (s.ino 2).filesize / 32
  directory : ∀ n, Reachable dirs n → ((s.ino n).flags &&& INO_DIRECTORY ≠ 0 ↔ dirs n ≠ none)
  valid : ∀ n es, Reachable dirs n → dirs n = some es → ValidEntries es ∧ s.Contains n (dirContent es)
  inside : ∀ n es, Reachable dirs n → dirs n = some es → ∀ e ∈ es, e.2 < (s.ino 2).filesize / 32

/-- The path of a list of components. -/
def pathOf (names : List Name) : Path := slash :: [slash].intercalate names

/-! ## One directory -/

theorem Fs.Contains.quiet {bs : List UInt8} (h : s.Contains n bs) (hq : Quiet s t) : t.Contains n bs :=
  fun u hu => h u (hq.trans hu)

theorem findInDir_contains (hm : s.Mapped n) (hd : (s.ino n).flags &&& INO_DIRECTORY ≠ 0) (hv : ValidEntries es)
    (hc : s.Contains n (dirContent es)) (hn : (0 : UInt8) ∉ name) :
    ∃ t, findInDir n name s = .ok ((es.lookup name).getD INVALID_INODE, t) ∧ Quiet s t := by
  obtain ⟨behind, t, ht⟩ := hc s (.refl s)
  obtain ⟨hformat, hcount, hheld⟩ := read_dirContent (b := ⟨dirContent es, behind⟩) (List.append_nil _).symm hv.count
  refine ⟨t, ?_, (isQuiet_readinode n).quiet ht⟩
  unfold findInDir
  rw [bind_ok (inodetab_ok hm), if_neg hd, bind_ok ht, if_neg (not_not.mpr hformat), hcount,
    findEntry_eq hheld hv.ok hn]
  rfl

theorem findInDir_file (hm : s.Mapped n) (hd : (s.ino n).flags &&& INO_DIRECTORY = 0) :
    findInDir n name s = .ok (INVALID_INODE, s) := by
  unfold findInDir
  rw [bind_ok (inodetab_ok hm), if_pos hd]
  rfl

theorem mem_of_lookup {m : Nat} (h : es.lookup name = some m) : (name, m) ∈ es := by
  induction es with
  | nil => cases h
  | cons e es ih =>
    rw [List.lookup_cons] at h
    by_cases he : name == e.1
    · rw [he] at h
      obtain rfl := Option.some.inj h
      rw [eq_of_beq he]
      exact List.mem_cons_self
    · rw [Bool.eq_false_iff.mpr he] at h
      exact List.mem_cons_of_mem e (ih h)

/-! ## The tokeniser -/

theorem resolve_component : ∀ {xs acc : Name} {rest : Path}, slash ∉ xs → resolve n acc (xs ++ slash :: rest) = (do
    let ino ← findInDir n (acc ++ xs)
    if ino = INVALID_INODE then pure INVALID_INODE else resolve ino [] rest) := by
  intro xs
  induction xs with
  | nil =>
    intro acc rest _
    rw [List.nil_append, List.append_nil, resolve, if_pos rfl]
  | cons x xs ih =>
    intro acc rest h
    rw [List.mem_cons, not_or] at h
    rw [List.cons_append, resolve, if_neg (Ne.symm h.1), ih h.2, List.append_assoc]
    rfl

theorem resolve_last : ∀ {xs acc : Name}, slash ∉ xs →
    resolve n acc xs = if acc ++ xs = [] then pure n else findInDir n (acc ++ xs) := by
  intro xs
  induction xs with
  | nil =>
    intro acc _
    rw [resolve, List.append_nil]
  | cons x xs ih =>
    intro acc h
    rw [List.mem_cons, not_or] at h
    rw [resolve, if_neg (Ne.symm h.1), ih h.2, List.append_assoc]
    rfl

theorem splitLast_append (p : Path) {name : Name} (h : slash ∉ name) :
    splitLast (p ++ slash :: name) = some (p, name) := by
  have hnone : name.reverse.findIdx? (· = slash) = none := by
    refine List.findIdx?_eq_none_iff.mpr fun x hx => ?_
    have hne : x ≠ slash := fun hxs => h (hxs ▸ List.mem_reverse.mp hx)
    simp [hne]
  have hfind : (name.reverse ++ slash :: p.reverse).findIdx? (· = slash) = some name.length := by
    rw [List.findIdx?_append, hnone, List.findIdx?_cons, if_pos (by simp)]
    simp
  have hrev : (p ++ slash :: name).reverse = name.reverse ++ slash :: p.reverse := by simp
  have htake : (p ++ slash :: name).length - 1 - name.length = p.length := by simp
  have hdrop : (p ++ slash :: name).length - name.length = p.length + 1 := by simp; omega
  unfold splitLast
  rw [hrev, hfind]
  simp only [htake, hdrop]
  rw [List.take_left, ← List.drop_drop, List.drop_left]
  rfl

/-! ## The walk -/

variable {dirs : Nat → Option (List (Name × Nat))}

theorem DirTree.mapped (h : DirTree s dirs) (hn : n < (s.ino 2).filesize / 32) : s.Mapped n := by
  have := h.mounted
  unfold Fs.Mapped
  omega

theorem DirTree.reachable (h : DirTree s dirs) (hr : Reachable dirs n) : n < (s.ino 2).filesize / 32 := by
  cases hr with
  | root => exact h.root
  | entry hd hes he => exact h.inside _ _ hd hes _ he

theorem DirTree.quiet (h : DirTree s dirs) (hq : Quiet s t) : DirTree t dirs := by
  have hsize : t.ino 2 = s.ino 2 := hq.ino 2
  refine ⟨by rw [hsize, hq.maplen]; exact h.mounted, by rw [hsize]; exact h.root, fun n hr => ?_,
    fun n es hr hd => ?_, ?_⟩
  · rw [hq.ino]
    exact h.directory n hr
  · obtain ⟨hv, hc⟩ := h.valid n es hr hd
    exact ⟨hv, hc.quiet hq⟩
  · rw [hsize]
    exact h.inside

/-- One component. -/
theorem DirTree.findInDir (h : DirTree s dirs) (hr : Reachable dirs n) (hn : (0 : UInt8) ∉ name) :
    ∃ t, Starfs.findInDir n name s = .ok ((walk dirs n [name]).getD INVALID_INODE, t) ∧ Quiet s t := by
  have hm := h.mapped (h.reachable hr)
  cases hd : dirs n with
  | none =>
    have hfile : (s.ino n).flags &&& INO_DIRECTORY = 0 := by
      by_contra hne
      exact (h.directory n hr).mp hne hd
    refine ⟨s, ?_, .refl s⟩
    rw [findInDir_file hm hfile]
    simp [walk, hd]
  | some es =>
    obtain ⟨hv, hc⟩ := h.valid n es hr hd
    obtain ⟨t, ht, hq⟩ := findInDir_contains hm ((h.directory n hr).mpr (by simp [hd])) hv hc hn
    refine ⟨t, ?_, hq⟩
    rw [ht]
    cases hl : es.lookup name with
    | none => simp [walk, hd, hl]
    | some m => simp [walk, hd, hl]

theorem walk_cons (n : Nat) (name : Name) (names : List Name) :
    walk dirs n (name :: names) = (walk dirs n [name]).bind fun m => walk dirs m names := by
  simp only [walk]
  cases dirs n with
  | none => rfl
  | some es =>
    simp only
    cases es.lookup name <;> rfl

theorem walk_one {m : Nat} (h : walk dirs n [name] = some m) : ∃ es, dirs n = some es ∧ (name, m) ∈ es := by
  simp only [walk] at h
  cases hd : dirs n with
  | none => simp [hd] at h
  | some es =>
    cases hl : es.lookup name with
    | none => simp [hd, hl] at h
    | some k =>
      simp only [hd, hl, Option.some.injEq] at h
      exact ⟨es, rfl, mem_of_lookup (h ▸ hl)⟩

theorem Reachable.walk_one {m : Nat} (hr : Reachable dirs n) (h : walk dirs n [name] = some m) : Reachable dirs m := by
  obtain ⟨es, hd, hm⟩ := Starfs.walk_one h
  exact Reachable.entry hr hd hm

theorem DirTree.ne_invalid (h : DirTree s dirs) (hr : Reachable dirs n) : n ≠ INVALID_INODE := by
  have hlt := h.reachable hr
  have hsize := (ino_wf s 2).filesize
  unfold INVALID_INODE
  omega

/-- The loop of `getinode` through the components. -/
theorem resolve_walk : ∀ {names : List Name} {n : Nat} {s : Fs}, DirTree s dirs → Reachable dirs n →
    (∀ name ∈ names, name ≠ [] ∧ slash ∉ name ∧ (0 : UInt8) ∉ name) →
    ∃ t, resolve n [] ([slash].intercalate names) s = .ok ((walk dirs n names).getD INVALID_INODE, t) ∧ Quiet s t := by
  intro names
  induction names with
  | nil => exact fun _ _ _ => ⟨_, rfl, .refl _⟩
  | cons name names ih =>
    intro n s h hr hok
    obtain ⟨hne, hslash, hnul⟩ := hok name List.mem_cons_self
    obtain ⟨t, ht, hq⟩ := h.findInDir hr hnul
    cases names with
    | nil =>
      refine ⟨t, ?_, hq⟩
      rw [List.intercalate_singleton, resolve_last hslash, List.nil_append, if_neg hne]
      exact ht
    | cons name' names =>
      rw [List.intercalate_cons_cons, List.append_assoc, List.singleton_append, resolve_component hslash,
        List.nil_append,
        bind_ok ht, walk_cons n name (name' :: names)]
      cases hw : walk dirs n [name] with
      | none => exact ⟨t, by simp; rfl, hq⟩
      | some m =>
        have hm := hr.walk_one hw
        obtain ⟨u, hu, hq'⟩ := ih (h.quiet hq) hm fun x hx => hok x (List.mem_cons_of_mem _ hx)
        refine ⟨u, ?_, hq.trans hq'⟩
        rw [Option.getD_some, if_neg (h.ne_invalid hm)]
        exact hu

theorem walk_reachable : ∀ {names : List Name} {n m : Nat}, Reachable dirs n → walk dirs n names = some m →
    Reachable dirs m := by
  intro names
  induction names with
  | nil =>
    intro n m hr h
    obtain rfl := Option.some.inj h
    exact hr
  | cons name names ih =>
    intro n m hr h
    rw [walk_cons] at h
    obtain ⟨k, hk, h⟩ := Option.bind_eq_some_iff.mp h
    exact ih (hr.walk_one hk) h

/-- The walk ends early at a component that is missing, or whose directory is none. -/
theorem walk_eq_none_iff : ∀ {names : List Name} {n : Nat}, walk dirs n names = none ↔
    ∃ pre name post m, names = pre ++ name :: post ∧ walk dirs n pre = some m ∧ ∀ es, dirs m = some es →
      es.lookup name = none := by
  have hone : ∀ {n : Nat} {name : Name}, walk dirs n [name] = none ↔
      ∀ es, dirs n = some es → es.lookup name = none := by
    intro n name
    simp only [walk]
    cases hd : dirs n with
    | none => simp
    | some es =>
      cases hl : es.lookup name with
      | none => exact iff_of_true (by simp [hl]) fun es' he => Option.some.inj he ▸ hl
      | some m =>
        refine iff_of_false (by simp [hl]) fun hall => ?_
        have hnone := hall es rfl
        rw [hl] at hnone
        cases hnone
  intro names
  induction names with
  | nil => simp [walk]
  | cons name names ih =>
    intro n
    rw [walk_cons]
    cases hw : walk dirs n [name] with
    | none => exact iff_of_true rfl ⟨[], name, names, n, rfl, rfl, hone.mp hw⟩
    | some m =>
      rw [Option.bind_some, ih]
      constructor
      · intro ⟨pre, name', post, k, hnames, hpre, hmiss⟩
        refine ⟨name :: pre, name', post, k, by rw [hnames]; rfl, ?_, hmiss⟩
        rw [walk_cons, hw]
        exact hpre
      · intro ⟨pre, name', post, k, hnames, hpre, hmiss⟩
        cases pre with
        | nil =>
          obtain ⟨rfl, rfl⟩ := List.cons.inj hnames
          obtain rfl := Option.some.inj hpre
          rw [hone.mpr hmiss] at hw
          cases hw
        | cons x pre =>
          obtain ⟨rfl, rfl⟩ := List.cons.inj hnames
          rw [walk_cons, hw] at hpre
          exact ⟨pre, name', post, k, rfl, hpre, hmiss⟩

/-- `getinode` walks from the root, component by component; `getparentinode` cuts the last
    one off. -/
theorem getinode_eq_walk (names : List Name) (h : DirTree s dirs)
    (hok : ∀ name ∈ names, name ≠ [] ∧ slash ∉ name ∧ (0 : UInt8) ∉ name) :
    (∃ t, getinode (pathOf names) s = .ok ((walk dirs 3 names).getD INVALID_INODE, t) ∧ Quiet s t) ∧
    ((walk dirs 3 names).getD INVALID_INODE = INVALID_INODE ↔ ∃ pre name post m, names = pre ++ name :: post ∧
      walk dirs 3 pre = some m ∧ ∀ es, dirs m = some es → es.lookup name = none) ∧
    (∀ (p : Path) (name : Name), slash ∉ name → getparentinode (p ++ slash :: name) = getinode p) := by
  refine ⟨resolve_walk h .root hok, ?_, fun p name hn => ?_⟩
  · rw [← walk_eq_none_iff]
    cases hw : walk dirs 3 names with
    | none => simp
    | some m => simpa using h.ne_invalid (walk_reachable .root hw)
  · unfold getparentinode
    rw [splitLast_append p hn]

/-! ## A new volume -/

/-- The root is the only directory. -/
def rootOnly (n : Nat) : Option (List (Name × Nat)) := if n = 3 then some rootEntries else none

theorem rootOnly_eq_some (h : rootOnly n = some es) : n = 3 ∧ es = rootEntries := by
  unfold rootOnly at h
  split at h
  next h3 => exact ⟨h3, (Option.some.inj h).symm⟩
  next => cases h

theorem Reachable.rootOnly (h : Reachable rootOnly n) : n < 6 := by
  cases h with
  | root => decide
  | entry hd hes he =>
    have hsmall : ∀ e ∈ rootEntries, e.2 < 6 := by decide
    rw [(rootOnly_eq_some hes).2] at he
    exact hsmall _ he

theorem IsNew.dirTree {disksize : Nat} (h : IsNew s disksize) (hd : disksize < 2 ^ 62) (h6 : 6 ≤ disksize / 16384) :
    DirTree s rootOnly := by
  have h2 : (s.ino 2).filesize = disksize / 16384 * 32 := by
    rw [h.ino (n := 2) rfl]
    rfl
  refine ⟨by rw [h2, h.maplen], by omega, fun n hr => ?_, fun n es _ hes => ?_, fun n es _ hes e he => ?_⟩
  · have hn := hr.rootOnly
    have hsystem : (INO_SYSTEM ||| INO_READONLY) &&& INO_DIRECTORY = 0 := by decide
    have hroot : INO_DIRECTORY &&& INO_DIRECTORY ≠ 0 := by decide
    interval_cases n
    · rw [h.ino (n := 0) rfl]; exact iff_of_false (not_not.mpr hsystem) (not_not.mpr rfl)
    · rw [h.ino (n := 1) rfl]; exact iff_of_false (not_not.mpr hsystem) (not_not.mpr rfl)
    · rw [h.ino (n := 2) rfl]; exact iff_of_false (not_not.mpr hsystem) (not_not.mpr rfl)
    · rw [h.ino (n := 3) rfl]; exact iff_of_true hroot (by decide)
    · rw [h.ino (n := 4) rfl]; exact iff_of_false (not_not.mpr hsystem) (not_not.mpr rfl)
    · rw [h.ino (n := 5) rfl]; exact iff_of_false (not_not.mpr hsystem) (not_not.mpr rfl)
  · obtain ⟨rfl, rfl⟩ := rootOnly_eq_some hes
    refine ⟨rootEntries_valid, ?_⟩
    have hc := (h.placed hd h6).readable.contains
    rwa [h.content] at hc
  · obtain ⟨-, rfl⟩ := rootOnly_eq_some hes
    have hsmall : ∀ e ∈ rootEntries, e.2 < 6 := by decide
    have := hsmall e he
    omega

/-- Through the root directory's entry for itself. -/
theorem getinode_free : ∃ t, getinode (pathOf [rootdirectoryName, freeName]) fresh = .ok (4, t) ∧ Quiet fresh t :=
  (getinode_eq_walk [rootdirectoryName, freeName] (fresh_is_new.dirTree (by decide) (by decide)) (by decide)).1

end Rodvin.Starfs
