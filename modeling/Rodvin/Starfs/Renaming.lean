/-
  Rodvin.Starfs.Renaming — `starfs_link` and `starfs_rename` (`tools/fuse_starfs/main.c`).

  `rename` is `link` and then `unlink`, but `link` already takes the old name away, and both
  pass the first entry of a directory by. So where the old name is the first entry it stays,
  and where it is not, `unlink` finds no inode for it any more: whatever memory holds,
  `rename` does not do what it is to (`rename_never_moves`).
-/

import Rodvin.Starfs.DirectoryGraph
import Rodvin.Starfs.OwnershipRuns

namespace Rodvin.Starfs

open Rodvin.Lib

variable {s t u : Fs} {dirs : Graph} {source target : Path} {ino : Nat}

/-! ## Volumes and paths -/

/-- How many entries each directory has. -/
def countOf (dirs : Graph) (d : Nat) : Nat := ((dirs d).getD []).length

/-- The directories of a volume are well formed: each counts the entries it has, no two of one
    name, and these name inodes of the table. -/
structure Volume (s : Fs) (dirs : Graph) : Prop where
  listed : Listed s dirs (countOf dirs)
  distinct : ∀ d es, dirs d = some es → (es.map Prod.fst).Nodup
  inside : Inside s dirs

/-- The path leads to that inode, or to none. -/
def Resolves (s : Fs) (path : Path) (ino : Nat) : Prop := ∃ t, getinode path s = .ok (ino, t)

/-- All paths but those through `source` and `target` lead where they led. -/
def OthersResolve (s t : Fs) (source target : Path) : Prop :=
  ∀ path, (0 : UInt8) ∉ path → ¬ namesOf source <+: namesOf path → ¬ namesOf target <+: namesOf path →
    ∀ ino, Resolves s path ino ↔ Resolves t path ino

/-- `link` gives the inode of `source` a second name. -/
def Links (s : Fs) (source target : Path) (ino : Nat) : Prop :=
  ∃ r t, link source target s = .ok (r, t) ∧ Resolves t source ino ∧ Resolves t target ino ∧ OthersResolve s t source target

/-- `rename` gives the inode of `source` another name. -/
def Renames (s : Fs) (source target : Path) (ino : Nat) : Prop :=
  ∃ t, rename source target s = .ok (0, t) ∧ Resolves t target ino ∧ Resolves t source INVALID_INODE ∧
    OthersResolve s t source target

/-! ## What `link` leaves -/

theorem TailDistinct.of_nodup (h : ∀ d es, dirs d = some es → (es.map Prod.fst).Nodup) : TailDistinct dirs :=
  fun d es hes => (h d es hes).sublist ((List.tail_sublist es).map Prod.fst)

/-- The graph behind `link`: both names were taken out, and the new entry put in or not. -/
def Relinked (dirs dirs' : Graph) (pt : Nat) (tn : Name) (ino pf : Nat) (fn : Name) : Prop :=
  dirs' = (dirs.removed pt tn).removed pf fn ∨ dirs' = ((dirs.removed pt tn).entered pt tn ino).removed pf fn

theorem Relinked.removed {dirs' : Graph} {pt pf : Nat} {tn fn : Name} (h : Relinked dirs dirs' pt tn ino pf fn)
    (hd : TailDistinct dirs) : dirs'.removed pf fn = dirs' := by
  rcases h with rfl | rfl
  · exact removed_removed hd.removed
  · exact removed_removed hd.entered

theorem Relinked.edge {dirs' : Graph} {pt pf d m : Nat} {tn fn name : Name} (h : Relinked dirs dirs' pt tn ino pf fn)
    (he : Edge dirs' d name m) : Edge dirs d name m ∨ m = ino := by
  rcases h with rfl | rfl
  · exact .inl he.removed.removed
  · exact he.removed.entered.imp_left Edge.removed

theorem Relinked.eq_none {dirs' : Graph} {pt pf d : Nat} {tn fn : Name} (h : Relinked dirs dirs' pt tn ino pf fn) :
    dirs' d = none ↔ dirs d = none := by
  rcases h with rfl | rfl
  · rw [removed_eq_none, removed_eq_none]
  · rw [removed_eq_none, entered_eq_none, removed_eq_none]

theorem Inside.relinked {dirs' : Graph} {pt pf : Nat} {tn fn : Name} (h : Inside s dirs) (hino : ino < s.inodes)
    (hr : Relinked dirs dirs' pt tn ino pf fn) : Inside s dirs' := by
  intro d es hes e he
  have hedge : Edge dirs' d e.1 e.2 := ⟨es, hes, he⟩
  rcases hr.edge hedge with ⟨es', hes', he'⟩ | rfl
  · exact h d es' hes' _ he'
  · exact hino

theorem Room.beside {counts : Nat → Nat} {d : Nat} {name name' : Name} (h : Room s dirs counts d name)
    (hl : Listed s dirs counts) (hb : Beside s t d) (hsize : (t.ino d).filesize ≤ (s.ino d).filesize) :
    Room t (dirs.removed d name') counts d name := by
  refine ⟨h.namelength, h.count, fun k hk hne => ?_⟩
  have hk : dirs k ≠ none := mt removed_eq_none.mpr hk
  have hreach := h.reaches k hk hne
  rw [hb.start, hb.inode k (hl.inside k hk) hne]
  omega

/-- A component's entry, for an inode that its record can hold. -/
theorem Volume.walk_lt (h : Volume s dirs) :
    ∀ {names : List Name} {n m : Nat}, n < 2 ^ 32 → walk dirs n names = some m →
    m < 2 ^ 32 := by
  intro names
  induction names with
  | nil =>
    intro n m hn hw
    obtain rfl := Option.some.inj hw
    exact hn
  | cons name names ih =>
    intro n m _ hw
    rw [walk_cons] at hw
    obtain ⟨k, hk, hw⟩ := Option.bind_eq_some_iff.mp hw
    obtain ⟨es, hes, hmem⟩ := walk_one hk
    exact ih ((h.listed.lists n es hes).ok _ hmem).inodeno hw

theorem getparentinode_eq {path npath : Path} {name : Name} (h : splitLast path = some (npath, name)) :
    getparentinode path = getinode npath := by
  unfold getparentinode
  rw [h]

/-- `source` is the path of a file, and there is room for an entry of `target` in the directory it
    lies in. -/
structure Moves (s : Fs) (dirs : Graph) (source target : Path) (ino : Nat) : Prop where
  volume : Volume s dirs
  terminated : (0 : UInt8) ∉ source ∧ (0 : UInt8) ∉ target
  file : walk dirs 3 (namesOf source) = some ino ∧ dirs ino = none
  parent : ∃ npath name pt, splitLast target = some (npath, name) ∧ walk dirs 3 (namesOf npath) = some pt ∧
    (dirs pt ≠ none → Room s dirs (countOf dirs) pt name)

/-- What a `link` that returns has made of the directories. -/
theorem link_relinked {r : Int} (h : Moves s dirs source target ino) (hr : link source target s = .ok (r, t)) :
    ∃ dirs' counts npath fn pf pt tn, splitLast source = some (npath, fn) ∧ walk dirs 3 (namesOf npath) = some pf ∧
      Relinked dirs dirs' pt tn ino pf fn ∧ Listed t dirs' counts ∧ Inside t dirs' ∧ t.junk = s.junk := by
  obtain ⟨hvol, ⟨hs0, ht0⟩, ⟨hwalk, hfile⟩, tpath, name, pt₀, htsplit, htwalk, hroom⟩ := h
  obtain ⟨pf, s1, h1, hr⟩ := bind_eq_ok.mp hr
  obtain ⟨pt, s2, h2, hr⟩ := bind_eq_ok.mp hr
  obtain ⟨fn, s3, h3, hr⟩ := bind_eq_ok.mp hr
  obtain ⟨tn, s4, h4, hr⟩ := bind_eq_ok.mp hr
  obtain ⟨n, s5, h5, hr⟩ := bind_eq_ok.mp hr
  obtain ⟨b1, s6, h6, hr⟩ := bind_eq_ok.mp hr
  obtain ⟨b2, s7, h7, hr⟩ := bind_eq_ok.mp hr
  obtain ⟨b3, s8, h8, hr⟩ := bind_eq_ok.mp hr
  obtain ⟨-, rfl⟩ := pure_eq_ok.mp hr
  -- the lookups
  obtain ⟨rfl, npath, hsplit⟩ := lastName_eq_ok h3
  obtain ⟨rfl, npath', hsplit'⟩ := lastName_eq_ok h4
  rw [htsplit] at hsplit'
  obtain ⟨rfl, rfl⟩ := Prod.mk.inj (Option.some.inj hsplit')
  rw [getparentinode_eq hsplit] at h1
  rw [getparentinode_eq htsplit] at h2
  have hsource : walk dirs 3 (namesOf source) ≠ none := by simp [hwalk]
  have hparent := walk_of_prefix (namesOf_split hsplit) hsource
  obtain ⟨p, hp⟩ := Option.ne_none_iff_exists'.mp hparent
  have hl := hvol.listed
  have hq1 := (isQuiet_getinode npath).quiet h1
  have hq2 := hq1.trans ((isQuiet_getinode tpath).quiet h2)
  have hq := hq2.trans ((isQuiet_getinode source).quiet h5)
  have hbeside : ∀ {u}, Quiet s u → Beside s u 3 := fun hq => hq.beside
  obtain ⟨u1, hu1, -⟩ := getinode_listed hl hvol.inside (splitLast_terminated hsplit hs0).1 (.inr hparent)
  rw [h1, hp] at hu1
  obtain rfl := (Prod.mk.inj (Except.ok.inj hu1)).1
  obtain ⟨u2, hu2, -⟩ := getinode_listed (hl.quiet hq1) (hvol.inside.beside (hbeside hq1)) (splitLast_terminated htsplit ht0).1
    (.inr (show walk dirs 3 (namesOf tpath) ≠ none by simp [htwalk]))
  rw [h2, htwalk] at hu2
  obtain rfl := (Prod.mk.inj (Except.ok.inj hu2)).1
  obtain ⟨u5, hu5, -⟩ := getinode_listed (hl.quiet hq2) (hvol.inside.beside (hbeside hq2)) hs0 (.inr hsource)
  rw [h5, hwalk] at hu5
  obtain rfl := (Prod.mk.inj (Except.ok.inj hu5)).1
  -- the edits
  have hl5 := hl.quiet hq
  have hin5 : Inside s5 dirs := hvol.inside.beside (hbeside hq)
  have hroot := hl5.known_root
  have hpf := hl5.known_walk hin5 hroot hp
  have hpt := hl5.known_walk hin5 hroot htwalk
  have hino := hl5.known_walk hin5 hroot hwalk
  have htn := (splitLast_terminated htsplit ht0).2
  have hlow : n % 2 ^ 32 = n := Nat.mod_eq_of_lt (hvol.walk_lt (by decide) hwalk)
  obtain ⟨hl6, hb6, hsize⟩ := removeFromDir_listed hl5 hpt htn h6
  rw [hq.ino] at hsize
  have hroom6 : dirs.removed pt name pt ≠ none → Room s6 (dirs.removed pt name) (countOf dirs) pt name :=
    fun hne => (hroom (mt removed_eq_none.mpr hne)).beside hl (hq.beside.trans hb6) hsize
  have hfile6 : n % 2 ^ 32 < s6.inodes → dirs.removed pt name (n % 2 ^ 32) = none →
      (s6.ino (n % 2 ^ 32)).flags &&& INO_DIRECTORY = 0 := by
    rw [hlow]
    intro _ hnone
    exact (hino.removed.beside hb6).2 hnone
  obtain ⟨hb7, hl7⟩ := addToDir_listed hl6 (hpt.removed.beside hb6) htn hroom6 hfile6 h7
  rw [hlow] at hl7
  have hpf7 : Known s7 dirs pf := (hpf.beside hb6).beside hb7
  have hfn := (splitLast_terminated hsplit hs0).2
  rcases hl7 with ⟨hl7, -⟩ | hl7
  · obtain ⟨hl8, hb8, -⟩ := removeFromDir_listed hl7 hpf7.removed hfn h8
    refine ⟨_, _, npath, fn, pf, pt, name, hsplit, hp, .inl rfl, hl8, ?_, ?_⟩
    · exact (((hin5.relinked hino.1 (.inl rfl)).beside hb6).beside hb7).beside hb8
    · rw [hb8.junk, hb7.junk, hb6.junk, hq.junk]
  · obtain ⟨hl8, hb8, -⟩ := removeFromDir_listed hl7 hpf7.removed.entered hfn h8
    refine ⟨_, _, npath, fn, pf, pt, name, hsplit, hp, .inr rfl, hl8, ?_, ?_⟩
    · exact (((hin5.relinked hino.1 (.inr rfl)).beside hb6).beside hb7).beside hb8
    · rw [hb8.junk, hb7.junk, hb6.junk, hq.junk]

/-- What `rename` has returned from, still resolves: where `link` left the name, `unlink` passes it
    by, and where `link` took it away, `unlink` has no inode to ask. -/
theorem rename_keeps (h : Moves s dirs source target ino) (hs : Silent s) (hr : rename source target s = .ok (0, t)) :
    ¬ Resolves t source INVALID_INODE := by
  obtain ⟨r1, s1, hlink, hr⟩ := bind_eq_ok.mp hr
  split at hr
  · exact absurd (pure_eq_ok.mp hr).1 (by decide)
  obtain ⟨r2, s2, hunlink, hr⟩ := bind_eq_ok.mp hr
  split at hr
  · exact absurd (pure_eq_ok.mp hr).1 (by decide)
  next hr2 =>
  obtain ⟨-, rfl⟩ := pure_eq_ok.mp hr
  obtain ⟨dirs', counts, npath, fn, pf, pt, tn, hsplit, hpf, hrel, hl, hin, hjunk⟩ := link_relinked h hlink
  have hdistinct : TailDistinct dirs := .of_nodup h.volume.distinct
  have hs1 : Silent s1 := hs.of_junk hjunk
  -- `unlink` up to the removal
  obtain ⟨n, u1, h1, hunlink⟩ := bind_eq_ok.mp hunlink
  have hq1 := (isQuiet_getinode source).quiet h1
  obtain ⟨i, u2, h2, hunlink⟩ := bind_eq_ok.mp hunlink
  obtain ⟨hmapped, -, rfl⟩ := inodetab_eq_ok.mp h2
  split at hunlink
  · have hr2' := (pure_eq_ok.mp hunlink).1
    exact absurd hr2' (by rw [not_not.mp hr2]; decide)
  obtain ⟨p, u3, h3, hunlink⟩ := bind_eq_ok.mp hunlink
  have hq3 := hq1.trans ((isQuiet_getparentinode source).quiet h3)
  obtain ⟨name, u4, h4, hunlink⟩ := bind_eq_ok.mp hunlink
  obtain ⟨rfl, npath', hsplit'⟩ := lastName_eq_ok h4
  rw [hsplit] at hsplit'
  obtain ⟨rfl, rfl⟩ := Prod.mk.inj (Option.some.inj hsplit')
  obtain ⟨b, u5, h5, hunlink⟩ := bind_eq_ok.mp hunlink
  obtain ⟨-, rfl⟩ := pure_eq_ok.mp hunlink
  have hs0 := h.terminated.1
  -- `source` resolves, and so does its parent
  obtain ⟨v, hv, -⟩ := getinode_listed hl hin hs0 (.inl hs1)
  rw [h1] at hv
  have hn : n = (walk dirs' 3 (namesOf source)).getD INVALID_INODE := (Prod.mk.inj (Except.ok.inj hv)).1
  have hne : n ≠ INVALID_INODE := by
    intro he
    rw [he, hq1.mapped] at hmapped
    exact hl.not_mapped hmapped
  have hwalk : walk dirs' 3 (namesOf source) = some n := by
    cases hw : walk dirs' 3 (namesOf source) with
    | none =>
      rw [hw] at hn
      exact absurd hn hne
    | some m =>
      rw [hw] at hn
      rw [hn]
      rfl
  have hparent := walk_of_prefix (namesOf_split hsplit) (show walk dirs' 3 (namesOf source) ≠ none by simp [hwalk])
  obtain ⟨m, hm⟩ := Option.ne_none_iff_exists'.mp hparent
  have hl1 := hl.quiet hq1
  have hin1 : Inside u1 dirs' := hin.beside (d := 3) hq1.beside
  obtain ⟨w, hw, -⟩ := getinode_listed hl1 hin1 (splitLast_terminated hsplit hs0).1 (.inr hparent)
  rw [← getparentinode_eq hsplit, h3, hm] at hw
  obtain rfl : p = m := (Prod.mk.inj (Except.ok.inj hw)).1
  -- the removal changes nothing
  have hkeep : dirs'.removed p fn = dirs' := by
    rcases walk_of_edges h.volume.distinct (fun _ _ _ => hrel.edge) (hrel.eq_none.mpr h.file.2) hm with hold | rfl
    · rw [hpf] at hold
      rw [← Option.some.inj hold]
      exact hrel.removed hdistinct
    · refine Graph.removed_of_missing fun es hes => ?_
      rw [hrel.eq_none.mpr h.file.2] at hes
      exact nomatch hes
  have hl3 := hl.quiet hq3
  have hin3 : Inside u3 dirs' := hin.beside (d := 3) hq3.beside
  obtain ⟨hl5, hb5, -⟩ := removeFromDir_listed hl3 (hl3.known_walk hin3 hl3.known_root hm) (splitLast_terminated hsplit hs0).2 h5
  rw [hkeep] at hl5
  obtain ⟨x, hx, -⟩ := getinode_listed hl5 (hin3.beside hb5) hs0 (.inr (show walk dirs' 3 (namesOf source) ≠ none by simp [hwalk]))
  intro ⟨y, hy⟩
  rw [hx, hwalk] at hy
  exact hne (Prod.mk.inj (Except.ok.inj hy)).1

/-! ## Any memory -/

/-- The volume, with other memory to come. -/
def Fs.withJunk (s : Fs) (junk : Nat → Nat → UInt8) : Fs := { s with junk := junk }

variable {junk : Nat → Nat → UInt8}

theorem Listed.withJunk {counts : Nat → Nat} (h : Listed s dirs counts) : Listed (s.withJunk junk) dirs counts := by
  refine ⟨h.mounted, h.five, h.table, h.root, h.inside, fun d es hd => ?_, h.apart, h.files⟩
  have hl := h.lists d es hd
  exact ⟨hl.placed.alike rfl (Nat.le_refl _) (.refl _) (.refl _), hl.ok, hl.counted, hl.small, hl.content⟩

theorem Moves.withJunk (h : Moves s dirs source target ino) : Moves (s.withJunk junk) dirs source target ino := by
  obtain ⟨npath, name, pt, hsplit, hwalk, hroom⟩ := h.parent
  refine ⟨⟨h.volume.listed.withJunk, h.volume.distinct, h.volume.inside⟩, h.terminated, h.file, npath, name, pt,
    hsplit, hwalk,
    fun hne => ?_⟩
  have hr := hroom hne
  exact ⟨hr.namelength, hr.count, hr.reaches⟩

/-- No file is ever renamed, whatever memory there is for its directories. -/
theorem rename_never_moves (h : Moves s dirs source target ino) :
    ¬ ∀ junk, Links (s.withJunk junk) source target ino ∧ Renames (s.withJunk junk) source target ino := by
  intro hall
  obtain ⟨-, t, hrun, -, hgone, -⟩ := hall fun _ _ => 0xFF
  have hsilent : Silent (s.withJunk fun _ _ => 0xFF) := fun _ _ => show (0xFF : UInt8) ≠ 0 by decide
  exact rename_keeps h.withJunk hsilent hrun hgone

/-! ## A volume with one file -/

/-- The entries of the root directory behind `create("/a")`. -/
def fileEntries : List (Name × Nat) := rootEntries ++ [([0x61], 6)]

def withFile (n : Nat) : Option (List (Name × Nat)) := if n = 3 then some fileEntries else none

/-- `"/b"` -/
def otherPath : Path := [slash, 0x62]

/-- What `create("/a")` leaves of a new volume of 1 MiB. -/
structure OneFile (s : Fs) : Prop where
  table : s.ino 2 = systemInode 2048 9 1
  root : s.ino 3 = ⟨INO_DIRECTORY, 1, 111, ⟨10, 1⟩⟩
  free : s.ino 4 = systemInode 1003520 11 245
  maplen : s.maplen = 2048
  size : s.size = 2 ^ 20
  files : ∀ n < 7, n ≠ 3 → (s.ino n).flags &&& INO_DIRECTORY = 0
  content : s.content 3 = dirContent fileEntries

theorem one_file_created : ∃ s, (Ownership.Request.create Ownership.filePath).exec fresh = some s ∧ OneFile s := by
  have h : ((Ownership.Request.create Ownership.filePath).exec fresh).map (fun s =>
      ([s.ino 2, s.ino 3, s.ino 4], (s.maplen, s.size),
        (List.range 7).all fun n => n = 3 ∨ (s.ino n).flags &&& INO_DIRECTORY = 0, s.content 3)) =
      some ([systemInode 2048 9 1, ⟨INO_DIRECTORY, 1, 111, ⟨10, 1⟩⟩, systemInode 1003520 11 245], (2048, 2 ^ 20), true,
        dirContent fileEntries) := by decide +kernel
  obtain ⟨s, hs, h⟩ := Option.map_eq_some_iff.mp h
  obtain ⟨hinos, h⟩ := Prod.mk.inj h
  obtain ⟨hsizes, h⟩ := Prod.mk.inj h
  obtain ⟨hfiles, hcontent⟩ := Prod.mk.inj h
  obtain ⟨h2, hinos⟩ := List.cons.inj hinos
  obtain ⟨h3, hinos⟩ := List.cons.inj hinos
  obtain ⟨hmaplen, hsize⟩ := Prod.mk.inj hsizes
  refine ⟨s, hs, h2, h3, (List.cons.inj hinos).1, hmaplen, hsize, fun n hn hne => ?_, hcontent⟩
  have hflags := of_decide_eq_true (List.all_eq_true.mp hfiles n (List.mem_range.mpr hn))
  exact hflags.resolve_left hne

theorem withFile_eq_some {n : Nat} {es : List (Name × Nat)} (h : withFile n = some es) : n = 3 ∧ es = fileEntries := by
  unfold withFile at h
  split at h
  next h3 => exact ⟨h3, (Option.some.inj h).symm⟩
  next => exact nomatch h

theorem withFile_ne_none {n : Nat} (h : withFile n ≠ none) : n = 3 := by
  obtain ⟨es, hes⟩ := Option.ne_none_iff_exists'.mp h
  exact (withFile_eq_some hes).1

theorem fileEntries_lt : ∀ e ∈ fileEntries, e.2 < 7 := by decide

namespace OneFile

theorem placed (h : OneFile s) : Placed s 3 := by
  have hmapped : ∀ n < 64, s.Mapped n := by
    intro n hn
    unfold Fs.Mapped
    rw [h.maplen]
    omega
  refine ⟨⟨hmapped 3 (by decide), ?_, ?_, ?_, fun _ => ?_, fun _ => ?_⟩, ?_, ?_, ⟨hmapped 4 (by decide), ?_⟩, ?_, ?_, ?_⟩
  · unfold Inode.Direct
    rw [h.root]
    decide
  · rw [h.root]
    decide
  · rw [h.root]
    decide
  · rw [h.root]
    decide
  · rw [h.root, h.size]
    decide
  · rw [h.root]
    decide
  · rw [h.root]
    decide
  · unfold Inode.Direct
    rw [h.free]
    decide
  · rw [h.root, h.free]
    exact .inl (by decide)
  · unfold Fs.tableEnd
    rw [h.root, h.maplen]
    decide
  · rw [h.root]
    decide

theorem volume (h : OneFile s) : Volume s withFile := by
  have hinodes : s.inodes = 64 := by
    unfold Fs.inodes
    rw [h.table]
    rfl
  have hok : ∀ e ∈ fileEntries, (0 : UInt8) ∉ e.1 ∧ e.1.length + 1 < 2 ^ 16 ∧ e.2 < 2 ^ 32 := by decide
  refine ⟨⟨⟨?_, ?_⟩, ?_, rfl, ?_, fun d hd => ?_, fun d es hd => ?_, fun d k hd hk hne => ?_, fun d es hd e he _ hnone => ?_⟩,
    fun d es hd => ?_, fun d es hd e he => ?_⟩
  · rw [h.table, h.maplen]
    decide
  · rw [h.maplen]
    decide
  · rw [hinodes]
    decide
  · simp [withFile]
  · rw [withFile_ne_none hd, hinodes]
    decide
  · obtain ⟨rfl, rfl⟩ := withFile_eq_some hd
    refine ⟨h.placed, fun e he => ?_, Nat.le_refl _, by decide, h.content⟩
    obtain ⟨h1, h2, h3⟩ := hok e he
    exact ⟨h1, h2, h3⟩
  · exact absurd ((withFile_ne_none hd).trans (withFile_ne_none hk).symm) hne
  · obtain ⟨-, rfl⟩ := withFile_eq_some hd
    refine h.files e.2 (fileEntries_lt e he) fun h3 => ?_
    rw [h3] at hnone
    simp [withFile] at hnone
  · obtain ⟨-, rfl⟩ := withFile_eq_some hd
    decide
  · obtain ⟨-, rfl⟩ := withFile_eq_some hd
    have hlt := fileEntries_lt e he
    omega

theorem moves (h : OneFile s) : Moves s withFile Ownership.filePath otherPath 6 := by
  refine ⟨h.volume, by decide, by decide, [], [0x62], 3, by decide, rfl,
    fun _ => ⟨by decide, by decide, fun k hk hne => ?_⟩⟩
  exact absurd (withFile_ne_none hk) hne

end OneFile

theorem rename_never_moves_created : ∃ s, Moves s withFile Ownership.filePath otherPath 6 ∧
    ¬ ∀ junk, Links (s.withJunk junk) Ownership.filePath otherPath 6 ∧
      Renames (s.withJunk junk) Ownership.filePath otherPath 6 := by
  obtain ⟨s, -, h⟩ := one_file_created
  exact ⟨s, h.moves, rename_never_moves h.moves⟩

/-- `"/a"` cannot be renamed to `"/b"`. -/
theorem rename_fails_on_a_file : ¬ ∀ s dirs source target ino, Moves s dirs source target ino →
    Links s source target ino ∧ Renames s source target ino := by
  intro hall
  obtain ⟨s, -, h⟩ := one_file_created
  exact rename_never_moves h.moves fun junk => hall _ _ _ _ _ h.moves.withJunk

end Rodvin.Starfs
