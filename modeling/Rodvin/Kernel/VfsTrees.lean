/-
  Rodvin.Kernel.VfsTrees — `Vfs::lookup` over a directory tree.

  A tree is made of directory entries, the root with the entry that `lookup` makes for it.
  `Presents`: every directory that is opened lists the entries of its children, each once and
  in any order, and no two of them have one name. Then what `lookup` returns for a path is
  the entry of the node that its components lead to (`lookup_follows_components`).
-/

import Mathlib.Data.List.Nodup
import Rodvin.Kernel.Vfs

namespace Rodvin.Kernel.Vfs

open Rodvin.Lib Rodvin.Libc Rodvin.Libc.Path

inductive Tree where
  | file (entry : DirEntry)
  | dir (entry : DirEntry) (children : List Tree)

namespace Tree

def entry : Tree → DirEntry
  | file e => e
  | dir e _ => e

def children : Tree → List Tree
  | file _ => []
  | dir _ ts => ts

def IsDir : Tree → Prop
  | file _ => False
  | dir _ _ => True

/-- The node that components lead to. -/
def descend (t : Tree) : List Text → Option Tree
  | [] => some t
  | c :: cs => (t.children.find? fun u => u.entry.name = c).bind fun u => u.descend cs

end Tree

/-- Names that differ, and no entry that `DirEntry::opendir` takes for the root. -/
structure Siblings (ts : List Tree) : Prop where
  names : (ts.map fun t => t.entry.name).Nodup
  inodes : ∀ t ∈ ts, t.entry.inodeId ≠ 0xFFFFFFFF

inductive Presents (fs : Filesystem) : Tree → Prop
  | file (e : DirEntry) : Presents fs (.file e)
  | dir {e : DirEntry} {ts : List Tree} : Siblings ts → (e.opendir fs).Perm (ts.map Tree.entry) →
      (∀ t ∈ ts, Presents fs t) → Presents fs (.dir e ts)

variable {fs : Filesystem} {e : DirEntry} {ts : List Tree} {c : Text} {cs : List Text} {d : Dir}

/-- Among distinct names the order of the listing does not matter. -/
theorem readUntil_eq_some_iff (hd : (d.map DirEntry.name).Nodup) : readUntil c d = some e ↔ e ∈ d ∧ e.name = c := by
  unfold readUntil
  constructor
  · intro h
    exact ⟨List.mem_of_find?_eq_some h, by simpa using List.find?_some h⟩
  · rintro ⟨he, rfl⟩
    cases hf : d.find? fun f => f.name = e.name with
    | none => exact absurd (List.find?_eq_none.mp hf e he) (by simp)
    | some f =>
      have hname : f.name = e.name := by simpa using List.find?_some hf
      rw [List.inj_on_of_nodup_map hd (List.mem_of_find?_eq_some hf) he hname]

theorem readUntil_perm {d' : Dir} (hp : d.Perm d') (hd : (d'.map DirEntry.name).Nodup) :
    readUntil c d = readUntil c d' := by
  have hd' : (d.map DirEntry.name).Nodup := (hp.map _).nodup_iff.mpr hd
  refine Option.ext fun e => ?_
  rw [readUntil_eq_some_iff hd', readUntil_eq_some_iff hd, hp.mem_iff]

/-- What the listing of a directory has under a name. -/
theorem Siblings.readUntil_eq (hs : Siblings ts) (hd : d.Perm (ts.map Tree.entry)) (c : Text) :
    readUntil c d = (ts.find? fun t => t.entry.name = c).map Tree.entry := by
  rw [readUntil_perm hd (by rw [List.map_map]; exact hs.names)]
  unfold readUntil
  rw [List.find?_map]
  rfl

/-- The entry found in a directory is that of the node below it. -/
theorem entryIn_descend : ∀ {cs : List Text} {e : DirEntry} {ts : List Tree}, Presents fs (.dir e ts) → cs ≠ [] →
    (∀ pre, pre <+: cs → pre ≠ cs → ∀ t, (Tree.dir e ts).descend pre = some t → t.IsDir) →
    entryIn fs (e.opendir fs) cs = ((Tree.dir e ts).descend cs).map Tree.entry := by
  intro cs
  induction cs with
  | nil => exact fun _ h => absurd rfl h
  | cons c cs ih =>
    intro e ts hp _ hdir
    cases hp with
    | dir hs hperm hts =>
      have hread := hs.readUntil_eq hperm c
      rw [Tree.descend, Tree.children]
      cases cs with
      | nil =>
        rw [entryIn, hread]
        cases ts.find? fun t => t.entry.name = c with
        | none => rfl
        | some t => rfl
      | cons c2 cs =>
        rw [entryIn, hread]
        · cases hf : ts.find? fun t => t.entry.name = c with
          | none => rfl
          | some t =>
            have hstep : ∀ pre, (Tree.dir e ts).descend (c :: pre) = t.descend pre := by
              intro pre
              rw [Tree.descend, Tree.children, hf]
              rfl
            have htd : t.IsDir := hdir [c] ⟨c2 :: cs, rfl⟩ (by simp) t (by rw [hstep]; rfl)
            have hpt := hts t (List.mem_of_find?_eq_some hf)
            cases t with
            | file _ => exact htd.elim
            | dir f us =>
              refine ih hpt (List.cons_ne_nil _ _) fun pre hpre hne u hu => ?_
              refine hdir (c :: pre) (List.cons_prefix_cons.mpr ⟨rfl, hpre⟩) (fun h => hne (List.cons.inj h).2) u ?_
              exact (hstep pre).trans hu
        · exact List.cons_ne_nil _ _

/-- On a path whose proper prefixes are directories where they exist, `lookup` returns the
    entry that the components lead to, and `NULL` where one of them does not exist. -/
theorem lookup_follows_components (hroot : Presents fs (.dir rootEntry ts)) (hne : cs ≠ [])
    (hn : ∀ c ∈ cs, c ≠ [] ∧ slash ∉ c)
    (hdir : ∀ pre, pre <+: cs → pre ≠ cs → ∀ t, (Tree.dir rootEntry ts).descend pre = some t → t.IsDir) :
    lookup fs (joined slash cs) = .ok (((Tree.dir rootEntry ts).descend cs).map Tree.entry) := by
  obtain ⟨ds, l, rfl⟩ := (List.eq_nil_or_concat' cs).resolve_left hne
  obtain ⟨hl, hfree⟩ := hn l (by simp)
  rw [lookup_eq (fun b hb => hn b (List.mem_append_left _ hb)) hfree hl]
  have hat : entryAt fs (ds ++ [l]) = entryIn fs (rootEntry.opendir fs) (ds ++ [l]) := by
    cases ds with
    | nil => rfl
    | cons d ds => rfl
  rw [hat, entryIn_descend hroot hne hdir]

/-! ## A small tree -/

/-- `/a/b`. -/
def smallFs : Filesystem where
  openrootdir := [⟨some 0, some 1, 2, [0x61]⟩]
  opendir e := if e.inodeId = 2 then [⟨some 5, some 0, 3, [0x62]⟩] else []
  open_ _ := []
  directory e := e.inodeId = 2
  root_names := by decide
  names := by
    intro d e he
    split at he
    · rw [List.mem_singleton.mp he]
      decide
    · cases he

def smallTree : List Tree := [.dir ⟨some 0, some 1, 2, [0x61]⟩ [.file ⟨some 5, some 0, 3, [0x62]⟩]]

theorem smallTree_presented : Presents smallFs (.dir rootEntry smallTree) := by
  refine .dir ⟨by simp [smallTree], by simp [smallTree, Tree.entry]⟩ (List.Perm.refl _) fun t ht => ?_
  rw [List.mem_singleton.mp ht]
  refine .dir ⟨by simp, by simp [Tree.entry]⟩ (List.Perm.refl _) fun u hu => ?_
  rw [List.mem_singleton.mp hu]
  exact .file _

theorem lookup_follows_components_small :
    lookup smallFs (joined slash [[0x61], [0x62]]) = .ok (((Tree.dir rootEntry smallTree).descend [[0x61], [0x62]]).map Tree.entry) := by
  refine lookup_follows_components smallTree_presented (by decide) (by decide) fun pre hpre hne t ht => ?_
  obtain ⟨n, rfl⟩ : ∃ n, pre = [[0x61], [0x62]].take n := ⟨_, List.prefix_iff_eq_take.mp hpre⟩
  match n with
  | 0 =>
    cases ht
    trivial
  | 1 =>
    cases ht
    trivial
  | n + 2 => exact absurd (List.take_of_length_le (by simp)) hne

end Rodvin.Kernel.Vfs
