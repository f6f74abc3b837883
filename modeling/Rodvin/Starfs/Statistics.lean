/-
  Rodvin.Starfs.Statistics — what `starfs_statfs` reports
  (`starfs_statfs` and `main` of `tools/fuse_starfs/main.c`).

  The number of files is counted once, before `fuse_main`, and the free blocks are taken
  from the size of inode 4: no operation changes either number. So the report stays true
  as long as no request takes an inode, takes blocks, writes the inode table or drops the
  last link (`Meets`). Such a request leaves what is reported (`step_steady`), and on a
  new volume the report is true (`start_counted`): `statistics_stay_true`. A file that is
  made is one more inode in use (`create_takes_an_inode`), and is not in the report
  (`a_new_file_is_not_counted`).
-/

import Rodvin.Starfs.LinkCounts
import Rodvin.Starfs.OwnershipRuns

namespace Rodvin.Starfs.Statistics

open Rodvin.Lib Rodvin.Starfs.Ownership

variable {n k size ino disksize : Nat} {s t u : Fs} {i : Inode} {b : Bool} {path : Path} {name : Name}

/-! ## The report -/

/-- `struct statvfs`, as `starfs_statfs` fills it. -/
structure Statvfs where
  bsize : Nat
  frsize : Nat
  blocks : Nat
  bfree : Nat
  bavail : Nat
  files : Nat
  ffree : Nat
  favail : Nat
  fsid : Nat
  flag : Nat
  namemax : Nat
  deriving DecidableEq, Repr

def statfs (blockcount filecount : Nat) : Fuse (Int × Statvfs) := do
  let free ← inodetab 4
  let tab ← inodetab 2
  let bfree := free.filesize / 4096
  let ffree := sub64 (tab.filesize / 32) filecount
  return (0, ⟨4096, 4096, blockcount, bfree, bfree, filecount, ffree, ffree, 42, 0, 65535⟩)

/-- The loop of `main` through `k` inodes from `i` on. -/
def countFiles : Nat → Nat → Nat → Fuse Nat
  | 0, _, filecount => pure filecount
  | k + 1, i, filecount => do
    let ino ← inodetab i
    countFiles k (i + 1) (if ino.linkcount ≠ 0 then add64 filecount 1 else filecount)

/-- The volume, and the variables of the program that the report reads. -/
structure Mounted where
  fs : Fs
  blockcount : Nat
  filecount : Nat

/-- `main` before `fuse_main`. -/
def start (img : Image) (junk : Nat → Nat → UInt8) : Checked (Option Mounted) :=
  match mount img junk with
  | none => pure none
  | some s => do
    let (filecount, s) ← countFiles (s.maplen / 32) 0 0 s
    return some ⟨s, leAt img.disk 0x8008 8, filecount⟩

/-! ## What is true of the volume -/

def filesInUse (s : Fs) : Nat := (List.range s.inodes).countP fun n => (s.ino n).linkcount ≠ 0

def filesFree (s : Fs) : Nat := (List.range s.inodes).countP fun n => (s.ino n).linkcount = 0

structure Agrees (s : Fs) (st : Statvfs) : Prop where
  files : st.files = filesInUse s
  ffree : st.ffree = filesFree s
  bfree : ∃ exts t, readbottomextents 4 s = .ok (exts, t) ∧ st.bfree = (exts.map Extent.length).sum

/-- The volume is `s` now, and the report agrees with it. -/
def StatisticsTrue (m : Mounted) (s : Fs) : Prop :=
  ∃ st t, statfs m.blockcount m.filecount s = .ok ((0, st), t) ∧ Agrees s st

/-! ## Requests that leave it -/

/-- `writeinode` of `size` bytes for inode `ino` takes no blocks and leaves the inode table. -/
inductive StaysPut (s : Fs) (ino size : Nat) : Prop
  | nothing : size = 0 → StaysPut s ino size
  | refused : (s.ino ino).flags &&& INO_SYSTEM ≠ 0 → (s.ino ino).filesize < size → StaysPut s ino size
  | inPlace : (s.ino ino).flags &&& INO_SYSTEM ≠ 0 ∨ size ≤ shl64 (s.ino ino).ext.length 12 →
      4096 * (s.ino ino).ext.startblock < 2 ^ 63 →
      4096 * (s.ino ino).ext.startblock + size ≤ 0x9000 ∨ s.tableEnd ≤ 4096 * (s.ino ino).ext.startblock →
      StaysPut s ino size

/-- The loop of `remove_from_dir` comes upon the name in directory `ino`. -/
structure ComesUpon (s : Fs) (ino : Nat) (name : Name) : Prop where
  directory : (s.ino ino).flags &&& INO_DIRECTORY ≠ 0
  found : ∃ c t, readinode ino s = .ok (c, t) ∧ formatid c = 1 ∧ seekEntry c name (entrycount c) 8 ≠ none

/-- An entry less: the directory stays in use, and its content where it is. -/
structure CutsInPlace (s : Fs) (ino : Nat) : Prop where
  linked : 1 < (s.ino ino).linkcount
  put : ∀ size ≤ (s.ino ino).filesize, StaysPut s ino size

/-- No inode is taken or given up, and no block taken. -/
def Meets (s : Fs) : Request → Prop
  | .create _ => False
  | .mkdir _ => False
  | .write path buf offset => ∀ ino t, getinode path s = .ok (ino, t) →
      StaysPut s ino (max (s.ino ino).filesize (add64 buf.length offset))
  | .truncate path size => ∀ ino t, getinode path s = .ok (ino, t) → (s.ino ino).flags &&& INO_SYSTEM = 0 →
      size < (s.ino ino).filesize → (s.ino ino).filesize < 2 ^ 63 → StaysPut s ino size
  | .unlink path => ∀ npath name file ino t u, splitLast path = some (npath, name) → getinode path s = .ok (file, t) →
      (s.ino file).flags &&& (INO_DIRECTORY ||| INO_SYSTEM) = 0 → getinode npath t = .ok (ino, u) →
      ComesUpon u ino name → CutsInPlace s ino

/-- A request that succeeds. -/
def Success (s : Fs) (req : Request) (t : Fs) : Prop := ∃ r, req.run s = .ok (r, t) ∧ 0 ≤ r

def OkStep (s : Fs) (req : Request) (t : Fs) : Prop := Meets s req ∧ Success s req t

/-! ## A steady volume -/

/-- Inodes 2 and 4 are system files, and what `alloc_inode` looks through is mapped. -/
structure Ready (s : Fs) : Prop where
  mapped : ∀ n < s.inodes, s.Mapped n
  tableMapped : s.Mapped 2
  freeMapped : s.Mapped 4
  tableFlags : (s.ino 2).flags = INO_SYSTEM ||| INO_READONLY
  freeFlags : (s.ino 4).flags = INO_SYSTEM ||| INO_READONLY

/-- What the report is about is as it was. -/
structure Steady (s t : Fs) : Prop where
  maplen : t.maplen = s.maplen
  table : t.ino 2 = s.ino 2
  free : t.ino 4 = s.ino 4
  linked : ∀ n < s.inodes, (t.ino n).linkcount = 0 ↔ (s.ino n).linkcount = 0

namespace Steady

theorem inodes (h : Steady s t) : t.inodes = s.inodes := by
  unfold Fs.inodes
  rw [h.table]

theorem mapped (h : Steady s t) : t.Mapped n ↔ s.Mapped n := by
  unfold Fs.Mapped
  rw [h.maplen]

theorem refl (s : Fs) : Steady s s := ⟨rfl, rfl, rfl, fun _ _ => Iff.rfl⟩

theorem trans (h : Steady s t) (h' : Steady t u) : Steady s u :=
  ⟨h'.maplen.trans h.maplen, h'.table.trans h.table, h'.free.trans h.free,
    fun n hn => (h'.linked n (h.inodes.symm ▸ hn)).trans (h.linked n hn)⟩

theorem of_same (h : Ready s) (hs : SameTable s t) : Steady s t :=
  ⟨hs.maplen, hs.ino 2 h.tableMapped, hs.ino 4 h.freeMapped, fun n hn => by rw [hs.ino n (h.mapped n hn)]⟩

theorem of_quiet (hq : Quiet s t) : Steady s t := ⟨hq.maplen, hq.ino 2, hq.ino 4, fun n _ => by rw [hq.ino]⟩

/-- Another inode changes, which is in use after it as before. -/
theorem of_putIno (hi : i.Wf) (h2 : n ≠ 2) (h4 : n ≠ 4) (hl : i.linkcount = 0 ↔ (s.ino n).linkcount = 0) :
    Steady s (s.putIno n i) := by
  refine ⟨rfl, ino_putIno_of_ne s i (Ne.symm h2), ino_putIno_of_ne s i (Ne.symm h4), fun k _ => ?_⟩
  by_cases hk : k = n
  · rw [hk, ino_putIno_self s n hi]
    exact hl
  · rw [ino_putIno_of_ne s i hk]

theorem ready (h : Steady s t) (hs : Ready s) : Ready t := by
  refine ⟨fun n hn => h.mapped.mpr (hs.mapped n (h.inodes ▸ hn)), h.mapped.mpr hs.tableMapped,
    h.mapped.mpr hs.freeMapped, ?_, ?_⟩
  · rw [h.table]
    exact hs.tableFlags
  · rw [h.free]
    exact hs.freeFlags

end Steady

theorem Ready.ne_of_not_system (h : Ready s) (hf : (s.ino n).flags &&& INO_SYSTEM = 0) : n ≠ 2 ∧ n ≠ 4 := by
  constructor
  · intro hn
    rw [hn, h.tableFlags] at hf
    exact absurd hf (by decide)
  · intro hn
    rw [hn, h.freeFlags] at hf
    exact absurd hf (by decide)

theorem Ready.ne_of_directory (h : Ready s) (hf : (s.ino n).flags &&& INO_DIRECTORY ≠ 0) : n ≠ 2 ∧ n ≠ 4 := by
  constructor
  · intro hn
    rw [hn, h.tableFlags] at hf
    exact hf (by decide)
  · intro hn
    rw [hn, h.freeFlags] at hf
    exact hf (by decide)

/-! ## Writing in place -/

theorem resize_fits (h0 : size ≠ 0) (hfit : size ≤ shl64 (s.ino n).ext.length 12) (h : resize n size s = .ok ((), t)) :
    t = s.putIno n { s.ino n with filesize := size } := by
  unfold resize at h
  obtain ⟨x, s1, h1, h⟩ := bind_eq_ok.mp h
  obtain ⟨-, rfl, rfl⟩ := inodetab_eq_ok.mp h1
  rw [if_neg h0, if_neg (not_lt.mpr hfit)] at h
  obtain ⟨-, rfl⟩ := assign_eq_ok.mp h
  rfl

/-- The inode has its new size, and blocks only if it had them. -/
theorem resize_inPlace (hp : StaysPut s n size) (hf : (s.ino n).flags &&& INO_SYSTEM = 0)
    (h : resize n size s = .ok ((), t)) :
    ∃ e, t = s.putIno n { s.ino n with filesize := size, ext := e } ∧
      ({ s.ino n with filesize := size, ext := e } : Inode).Wf ∧ (size ≠ 0 → e = (s.ino n).ext) := by
  have hi := ino_wf s n
  by_cases h0 : size = 0
  · subst h0
    obtain ⟨e, ht, he⟩ := resize_zero h
    refine ⟨e, ht, ?_, fun hne => absurd rfl hne⟩
    rcases he with rfl | rfl
    · exact ⟨hi.flags, hi.linkcount, show 0 < 2 ^ 64 by decide, hi.startblock, hi.length⟩
    · exact ⟨hi.flags, hi.linkcount, show 0 < 2 ^ 64 by decide, show INVALID_BLOCK < 2 ^ 64 by decide,
        show 0 < 2 ^ 64 by decide⟩
  · have hfit : size ≤ shl64 (s.ino n).ext.length 12 := by
      cases hp with
      | nothing hz => exact absurd hz h0
      | refused hs _ => exact absurd hf hs
      | inPlace hfit _ _ => exact hfit.resolve_left (not_not.mpr hf)
    have hlt : shl64 (s.ino n).ext.length 12 < 2 ^ 64 := Nat.mod_lt _ (by decide)
    exact ⟨(s.ino n).ext, resize_fits h0 hfit h,
      ⟨hi.flags, hi.linkcount, lt_of_le_of_lt hfit hlt, hi.startblock, hi.length⟩,
      fun _ => rfl⟩

/-- Bytes that stay where the file is leave the inode table. -/
theorem store_inPlace {buffer : List UInt8} (hp : StaysPut s n buffer.length)
    (hfits : (s.ino n).flags &&& INO_SYSTEM ≠ 0 → buffer.length ≤ (s.ino n).filesize)
    (he : buffer.length ≠ 0 → (u.ino n).ext = (s.ino n).ext) (hm : u.maplen = s.maplen)
    (h : store n buffer u = .ok (b, t)) :
    SameTable u t := by
  by_cases h0 : buffer = []
  · rw [h0] at h
    exact store_nil h
  have hne : buffer.length ≠ 0 := fun hl => h0 (List.eq_nil_of_length_eq_zero hl)
  have hend : u.tableEnd = s.tableEnd := by
    unfold Fs.tableEnd
    rw [hm]
  cases hp with
  | nothing hz => exact absurd hz hne
  | refused hs hlt => exact absurd hlt (not_lt.mpr (hfits hs))
  | inPlace _ ho hout =>
    refine store_outside h ?_ ?_
    · rw [he hne]
      exact ho
    · rw [he hne, hend]
      exact hout

theorem writeinode_steady {buffer : List UInt8} (h : Ready s) (hp : StaysPut s n buffer.length)
    (hr : writeinode n buffer s = .ok (b, t)) : Steady s t ∧ ∀ k, s.Mapped k →
      (t.ino k).linkcount = (s.ino k).linkcount := by
  unfold writeinode at hr
  obtain ⟨x, s1, h1, hr⟩ := bind_eq_ok.mp hr
  obtain ⟨hm, rfl, rfl⟩ := inodetab_eq_ok.mp h1
  by_cases hf : (s.ino n).flags &&& INO_SYSTEM = 0
  · rw [if_neg (not_not.mpr hf)] at hr
    obtain ⟨⟨⟩, u, hresize, hr⟩ := bind_eq_ok.mp hr
    obtain ⟨h2, h4⟩ := h.ne_of_not_system hf
    obtain ⟨e, rfl, hwf, he⟩ := resize_inPlace hp hf hresize
    have hself := ino_putIno_self s n hwf
    have hput : Steady s (s.putIno n { s.ino n with filesize := buffer.length, ext := e }) :=
      .of_putIno hwf h2 h4 Iff.rfl
    have hext : buffer.length ≠ 0 → ((s.putIno n { s.ino n with filesize := buffer.length, ext := e }).ino n).ext =
        (s.ino n).ext := by
      intro hne
      rw [hself]
      exact he hne
    have hsame := store_inPlace hp (fun hs => absurd hf hs) hext rfl hr
    refine ⟨hput.trans (.of_same (hput.ready h) hsame), fun k hk => ?_⟩
    rw [hsame.ino k hk]
    by_cases hkn : k = n
    · rw [hkn, hself]
    · rw [ino_putIno_of_ne s _ hkn]
  · rw [if_pos hf] at hr
    split at hr
    · obtain ⟨-, rfl⟩ := pure_eq_ok.mp hr
      exact ⟨.refl s, fun _ _ => rfl⟩
    next hle =>
      have hsame := store_inPlace hp (fun _ => not_lt.mp hle) (fun _ => rfl) rfl hr
      refine ⟨.of_same h hsame, fun k hk => ?_⟩
      rw [hsame.ino k hk]

/-! ## Requests -/

theorem StaysPut.of_same (h : StaysPut s n size) (hm : t.maplen = s.maplen) (hi : t.ino n = s.ino n) :
    StaysPut t n size := by
  have hend : t.tableEnd = s.tableEnd := by
    unfold Fs.tableEnd
    rw [hm]
  cases h with
  | nothing h0 => exact .nothing h0
  | refused hf hlt => exact .refused (by rwa [hi]) (by rwa [hi])
  | inPlace hfit ho hout => exact .inPlace (by rwa [hi]) (by rwa [hi]) (by rwa [hi, hend])

theorem StaysPut.of_quiet (h : StaysPut s n size) (hq : Quiet s t) : StaysPut t n size := h.of_same hq.maplen (hq.ino n)

theorem removeFromDir_steady (h : Ready s) (hm : ComesUpon s ino name → CutsInPlace s ino)
    (hr : removeFromDir ino name s = .ok (b, t)) : Steady s t := by
  obtain ⟨x, s1, h1, hr⟩ := bind_eq_ok.mp hr
  obtain ⟨hmapped, rfl, rfl⟩ := inodetab_eq_ok.mp h1
  split at hr
  · obtain ⟨-, rfl⟩ := pure_eq_ok.mp hr
    exact .refl s
  next hdir =>
  obtain ⟨c, s2, h2, hr⟩ := bind_eq_ok.mp hr
  have hq := (isQuiet_readinode ino).quiet h2
  split at hr
  · obtain ⟨-, rfl⟩ := pure_eq_ok.mp hr
    exact .of_quiet hq
  next hformat =>
  cases hs : seekEntry c name (entrycount c) 8 with
  | none =>
    rw [hs] at hr
    obtain ⟨-, rfl⟩ := pure_eq_ok.mp hr
    exact .of_quiet hq
  | some o =>
    rw [hs] at hr
    have hfound : seekEntry c name (entrycount c) 8 ≠ none := by
      rw [hs]
      exact Option.some_ne_none o
    obtain ⟨hlinked, hput⟩ := hm ⟨hdir, c, s2, h2, not_not.mp hformat, hfound⟩
    obtain ⟨content, s3, h3, hr⟩ := bind_eq_ok.mp hr
    obtain ⟨w, s4, h4, hr⟩ := bind_eq_ok.mp hr
    obtain ⟨⟨⟩, s5, h5, hr⟩ := bind_eq_ok.mp hr
    obtain ⟨y, s6, h6, hr⟩ := bind_eq_ok.mp hr
    obtain ⟨hcut, rfl⟩ := lift_eq_ok.mp h3
    obtain ⟨-, rfl⟩ := assign_eq_ok.mp h5
    obtain ⟨-, rfl, rfl⟩ := inodetab_eq_ok.mp h6
    obtain ⟨hle, -⟩ := length_cutEntry hcut
    rw [length_readinode h2] at hle
    obtain ⟨hsteady, hlinks⟩ := writeinode_steady ((Steady.of_quiet hq).ready h) ((hput _ hle).of_quiet hq) h4
    have hlink := hlinks ino (hq.mapped.mpr hmapped)
    rw [hq.ino] at hlink
    -- one link less, and not the last
    have hi := ino_wf s4 ino
    have hlt := hi.linkcount
    have hwf : ({ s4.ino ino with linkcount := ((s4.ino ino).linkcount + 2 ^ 32 - 1) % 2 ^ 32 } : Inode).Wf :=
      ⟨hi.flags, Nat.mod_lt _ (by decide), hi.filesize, hi.startblock, hi.length⟩
    have hleft : ((s4.ino ino).linkcount + 2 ^ 32 - 1) % 2 ^ 32 = (s4.ino ino).linkcount - 1 := by omega
    obtain ⟨hne2, hne4⟩ := h.ne_of_directory hdir
    have hassign : Steady s4 (s4.putIno ino
        { s4.ino ino with linkcount := ((s4.ino ino).linkcount + 2 ^ 32 - 1) % 2 ^ 32 }) := by
      refine .of_putIno hwf hne2 hne4 ?_
      dsimp only
      omega
    rw [ino_putIno_self s4 ino hwf, if_neg (by dsimp only; omega)] at hr
    obtain ⟨-, rfl⟩ := pure_eq_ok.mp hr
    exact (Steady.of_quiet hq).trans (hsteady.trans hassign)

theorem writeFile_steady {buf : List UInt8} {offset : Nat} {r : Int} (h : Ready s)
    (hm : Meets s (.write path buf offset))
    (hr : writeFile path buf offset s = .ok (r, t)) : Steady s t := by
  obtain ⟨ino, s1, h1, hr⟩ := bind_eq_ok.mp hr
  obtain ⟨c, s2, h2, hr⟩ := bind_eq_ok.mp hr
  obtain ⟨x, s3, h3, hr⟩ := bind_eq_ok.mp hr
  obtain ⟨c1, s4, h4, hr⟩ := bind_eq_ok.mp hr
  obtain ⟨c2, s5, h5, hr⟩ := bind_eq_ok.mp hr
  obtain ⟨w, s6, h6, hr⟩ := bind_eq_ok.mp hr
  obtain ⟨-, rfl⟩ := pure_eq_ok.mp hr
  obtain ⟨hput, rfl⟩ := lift_eq_ok.mp h5
  obtain ⟨-, rfl, rfl⟩ := inodetab_eq_ok.mp h3
  have hq1 := (isQuiet_getinode path).quiet h1
  have hq2 := hq1.trans ((isQuiet_readinode ino).quiet h2)
  rw [hq2.ino] at h4
  obtain ⟨hq3, hlength⟩ := writeBuffer_length (by rw [length_readinode h2, hq1.ino]) h4
  have hq := hq2.trans hq3
  have hp := hm ino s1 h1
  rw [← hlength, ← length_put hput] at hp
  exact (Steady.of_quiet hq).trans (writeinode_steady ((Steady.of_quiet hq).ready h) (hp.of_quiet hq) h6).1

theorem truncate_steady {r : Int} (h : Ready s) (hm : Meets s (.truncate path size))
    (hr : truncate path size s = .ok (r, t)) :
    Steady s t := by
  obtain ⟨ino, s1, h1, hr⟩ := bind_eq_ok.mp hr
  have hq1 := (isQuiet_getinode path).quiet h1
  split at hr
  · obtain ⟨-, rfl⟩ := pure_eq_ok.mp hr
    exact .of_quiet hq1
  obtain ⟨x, s2, h2, hr⟩ := bind_eq_ok.mp hr
  obtain ⟨-, rfl, rfl⟩ := inodetab_eq_ok.mp h2
  rw [hq1.ino] at hr
  split at hr
  · obtain ⟨-, rfl⟩ := pure_eq_ok.mp hr
    exact .of_quiet hq1
  next hf =>
  split at hr
  next hsize =>
    obtain ⟨c, s3, h3, hr⟩ := bind_eq_ok.mp hr
    obtain ⟨w, s4, h4, hr⟩ := bind_eq_ok.mp hr
    obtain ⟨-, rfl⟩ := pure_eq_ok.mp hr
    have hq := hq1.trans ((isQuiet_readinode ino).quiet h3)
    have hlength : (c.bytes.take size).length = size := by
      rw [List.length_take, length_readinode h3, hq1.ino]
      exact Nat.min_eq_left hsize.1.le
    have hp := hm ino s1 h1 (not_not.mp hf) hsize.1 hsize.2
    rw [← hlength] at hp
    exact (Steady.of_quiet hq).trans (writeinode_steady ((Steady.of_quiet hq).ready h) (hp.of_quiet hq) h4).1
  next =>
    obtain ⟨-, rfl⟩ := pure_eq_ok.mp hr
    exact .of_quiet hq1

theorem unlink_steady {r : Int} (h : Ready s) (hm : Meets s (.unlink path)) (hr : unlink path s = .ok (r, t)) :
    Steady s t := by
  obtain ⟨file, s1, h1, hr⟩ := bind_eq_ok.mp hr
  have hq1 := (isQuiet_getinode path).quiet h1
  obtain ⟨x, s2, h2, hr⟩ := bind_eq_ok.mp hr
  obtain ⟨-, rfl, rfl⟩ := inodetab_eq_ok.mp h2
  rw [hq1.ino] at hr
  split at hr
  · obtain ⟨-, rfl⟩ := pure_eq_ok.mp hr
    exact .of_quiet hq1
  next hf =>
  obtain ⟨parent, s3, h3, hr⟩ := bind_eq_ok.mp hr
  obtain ⟨name, s4, h4, hr⟩ := bind_eq_ok.mp hr
  obtain ⟨w, s5, h5, hr⟩ := bind_eq_ok.mp hr
  obtain ⟨-, rfl⟩ := pure_eq_ok.mp hr
  obtain ⟨rfl, npath, hsplit⟩ := lastName_eq_ok h4
  have hq := hq1.trans ((isQuiet_getparentinode path).quiet h3)
  have hparent : getinode npath s1 = .ok (parent, s3) := by
    unfold getparentinode at h3
    rw [hsplit] at h3
    exact h3
  refine (Steady.of_quiet hq).trans (removeFromDir_steady ((Steady.of_quiet hq).ready h) (fun hc => ?_) h5)
  obtain ⟨hlinked, hput⟩ := hm npath name file parent s1 s3 hsplit h1 (not_not.mp hf) hparent hc
  exact ⟨by rwa [hq.ino], fun size hle => (hput size (by rwa [hq.ino] at hle)).of_quiet hq⟩

theorem step_steady {req : Request} (h : Ready s) (hs : OkStep s req t) : Steady s t := by
  obtain ⟨hm, r, hr, -⟩ := hs
  cases req with
  | create path => exact hm.elim
  | mkdir path => exact hm.elim
  | write path buf offset => exact writeFile_steady h hm hr
  | truncate path size => exact truncate_steady h hm hr
  | unlink path => exact unlink_steady h hm hr

/-! ## The report on a steady volume -/

/-- The two numbers that the program keeps beside what they count are right. -/
structure Counted (filecount : Nat) (s : Fs) : Prop where
  files : filecount = filesInUse s
  blocks : (s.ino 4).filesize / 4096 = (s.ino 4).ext.length

theorem filesInUse_add_filesFree (s : Fs) : filesInUse s + filesFree s = s.inodes := by
  have h := List.length_eq_countP_add_countP (fun n => decide ((s.ino n).linkcount ≠ 0)) (l := List.range s.inodes)
  rw [List.length_range] at h
  rw [h]
  unfold filesInUse filesFree
  congr 2
  funext n
  simp

theorem Steady.filesInUse (h : Steady s t) : filesInUse t = filesInUse s := by
  unfold Statistics.filesInUse
  rw [h.inodes]
  refine List.countP_congr fun n hn => ?_
  have hl := h.linked n (List.mem_range.mp hn)
  simp [hl]

theorem Counted.steady {filecount : Nat} (h : Counted filecount s) (hs : Steady s t) : Counted filecount t :=
  ⟨h.files.trans hs.filesInUse.symm, by rw [hs.free]; exact h.blocks⟩

theorem sum_exts (i : Inode) : (i.exts.map Extent.length).sum = i.ext.length := by
  unfold Inode.exts
  split
  next h0 => exact h0.symm
  next => exact Nat.add_zero _

theorem statfs_ok (h : Ready s) (blockcount filecount : Nat) :
    ∃ st, statfs blockcount filecount s = .ok ((0, st), s) ∧ st.files = filecount ∧
      st.ffree = sub64 s.inodes filecount ∧ st.bfree = (s.ino 4).filesize / 4096 := by
  unfold statfs
  rw [bind_ok (inodetab_ok h.freeMapped), bind_ok (inodetab_ok h.tableMapped)]
  exact ⟨_, rfl, rfl, rfl, rfl⟩

theorem Counted.statisticsTrue {m : Mounted} (h : Counted m.filecount s) (hr : Ready s) : StatisticsTrue m s := by
  have hdirect : (s.ino 4).Direct := by
    unfold Inode.Direct
    rw [hr.freeFlags]
    decide
  have hsum := filesInUse_add_filesFree s
  have hsize := (ino_wf s 2).filesize
  have hinodes : s.inodes = (s.ino 2).filesize / 32 := rfl
  obtain ⟨st, hst, hfiles, hffree, hbfree⟩ := statfs_ok hr m.blockcount m.filecount
  refine ⟨st, s, hst, hfiles.trans h.files, ?_, _, _, readbottomextents_ok hr.freeMapped hdirect, ?_⟩
  · rw [hffree, h.files, sub64_eq (by omega) (by omega)]
    omega
  · rw [hbfree, sum_exts]
    exact h.blocks

/-! ## Mounting -/

theorem countFiles_ok (s : Fs) : ∀ (k i filecount : Nat), (∀ n < i + k, s.Mapped n) → filecount + k < 2 ^ 64 →
    countFiles k i filecount s = .ok (filecount + (List.range' i k).countP fun n => (s.ino n).linkcount ≠ 0, s) := by
  intro k
  induction k with
  | zero => intro i filecount _ _; rfl
  | succ k ih =>
    intro i filecount hm hlt
    unfold countFiles
    rw [bind_ok (inodetab_ok (hm i (by omega))), List.range'_succ, List.countP_cons]
    by_cases hl : (s.ino i).linkcount = 0
    · rw [if_neg (not_not.mpr hl), ih (i + 1) filecount (fun n hn => hm n (by omega)) (by omega),
        if_neg (by simpa using hl)]
      rfl
    · rw [if_pos hl, add64_eq (by omega), ih (i + 1) (filecount + 1) (fun n hn => hm n (by omega)) (by omega),
        if_pos (by simpa using hl), Nat.add_right_comm, Nat.add_assoc]

theorem start_eq_ok {img : Image} {junk : Nat → Nat → UInt8} {m : Mounted} (h : start img junk = .ok (some m)) :
    ∃ s, mount img junk = some s ∧ countFiles (s.maplen / 32) 0 0 s = .ok (m.filecount, m.fs) := by
  unfold start at h
  split at h
  · exact nomatch Except.ok.inj h
  next s hs =>
    obtain ⟨⟨filecount, s'⟩, hcount, h⟩ := Lib.bind_eq_ok.mp h
    obtain rfl := Option.some.inj (Except.ok.inj h)
    exact ⟨s, hs, hcount⟩

/-- A new volume is counted right. -/
theorem start_counted {img : Image} {junk : Nat → Nat → UInt8} {m : Mounted} (hd : disksize < 2 ^ 64)
    (hw : NoWrap disksize)
    (h : start (mkfs img disksize) junk = .ok (some m)) : Ready m.fs ∧ Counted m.filecount m.fs := by
  obtain ⟨s, hmount, hcount⟩ := start_eq_ok h
  have hr : rootBlock disksize = 9 + (disksize / 16384 + 127) / 128 := rfl
  have hfilesize := hw.filesize
  have hnew : IsNew s disksize := mounted_is_new hw (by omega) hmount
  have h2 : s.ino 2 = tableInode disksize := hnew.ino rfl
  have h4 : s.ino 4 = freeInode4 disksize := hnew.ino rfl
  have hinodes : s.inodes = disksize / 16384 := by
    unfold Fs.inodes
    rw [h2]
    show disksize / 16384 * 32 / 32 = _
    omega
  have hmapped : ∀ n < s.inodes, s.Mapped n := by
    intro n hn
    exact hnew.mapped.mpr (by omega)
  have hloop : s.maplen / 32 = s.inodes := by
    rw [hnew.maplen]
    omega
  rw [hloop, countFiles_ok s _ 0 0 (fun n hn => hmapped n (by omega)) (by omega), Nat.zero_add,
    ← List.range_eq_range'] at hcount
  obtain ⟨hfiles, hs⟩ := Prod.mk.inj (Except.ok.inj hcount)
  rw [← hs]
  refine ⟨⟨hmapped, hnew.mapped.mpr (by omega), hnew.mapped.mpr (by omega), ?_, ?_⟩, hfiles.symm, ?_⟩
  · rw [h2]
    rfl
  · rw [h4]
    rfl
  · rw [h4]
    show sub64 disksize ((rootBlock disksize + 1) * 4096) / 4096 = sub64 (disksize / 4096) (rootBlock disksize + 1)
    rw [sub64_eq hd hfilesize, sub64_eq (by omega) hw.length]
    omega

/-- From an image that `mkfs_starfs` laid out, in every run of successful requests that meet their
    conditions, the report is true. -/
theorem statistics_stay_true {img : Image} {junk : Nat → Nat → UInt8} {m : Mounted} {reqs : List Request}
    (hd : disksize < 2 ^ 64) (hw : NoWrap disksize) (h : start (mkfs img disksize) junk = .ok (some m))
    (hrun : Run OkStep m.fs reqs t) : StatisticsTrue m t := by
  obtain ⟨hready, hcounted⟩ := start_counted hd hw h
  have hkept : Ready t ∧ Counted m.filecount t := by
    refine hrun.invariant (I := fun s => Ready s ∧ Counted m.filecount s) (fun s req t hi hs => ?_) ⟨hready, hcounted⟩
    have hsteady := step_steady hi.1 hs
    exact ⟨hsteady.ready hi.1, hi.2.steady hsteady⟩
  exact hkept.2.statisticsTrue hkept.1

/-! ## An inode more -/

theorem addToDir_steady {newino : Nat} (h : Ready s)
    (hp : (s.ino ino).flags &&& INO_DIRECTORY ≠ 0 → StaysPut s ino (7 + name.length + (s.ino ino).filesize))
    (hr : addToDir ino name newino s = .ok (true, t)) :
    Steady s t ∧ ∀ k, s.Mapped k → (t.ino k).linkcount = (s.ino k).linkcount := by
  have hp := hp (addToDir_directory hr)
  obtain ⟨x, s1, h1, hr⟩ := bind_eq_ok.mp hr
  obtain ⟨-, rfl, rfl⟩ := inodetab_eq_ok.mp h1
  split at hr
  · exact nomatch (pure_eq_ok.mp hr).1
  obtain ⟨c, s2, h2, hr⟩ := bind_eq_ok.mp hr
  split at hr
  · exact nomatch (pure_eq_ok.mp hr).1
  cases hs : seekEntry c name (entrycount c) 8 with
  | some o =>
    rw [hs] at hr
    exact nomatch (pure_eq_ok.mp hr).1
  | none =>
    rw [hs] at hr
    obtain ⟨c1, s3, h3, hr⟩ := bind_eq_ok.mp hr
    obtain ⟨c2, s4, h4, hr⟩ := bind_eq_ok.mp hr
    obtain ⟨c3, s5, h5, hr⟩ := bind_eq_ok.mp hr
    obtain ⟨w, s6, h6, hr⟩ := bind_eq_ok.mp hr
    obtain ⟨-, rfl⟩ := pure_eq_ok.mp hr
    obtain ⟨hput, rfl⟩ := lift_eq_ok.mp h4
    obtain ⟨happend, rfl⟩ := lift_eq_ok.mp h5
    have hq : Quiet s s3 := ((isQuiet_readinode ino).quiet h2).trans ((isQuiet_malloc _).quiet h3)
    have hlength : c3.bytes.length = 7 + name.length + (s.ino ino).filesize := by
      obtain ⟨rfl, -⟩ := malloc_eq_ok.mp h3
      rw [length_appendEntry happend, length_put hput, length_slice]
    rw [← hlength] at hp
    obtain ⟨hsteady, hlinks⟩ := writeinode_steady ((Steady.of_quiet hq).ready h) (hp.of_quiet hq) h6
    refine ⟨(Steady.of_quiet hq).trans hsteady, fun k hk => ?_⟩
    rw [hlinks k (hq.mapped.mpr hk), hq.ino]

/-- One more element has the property. -/
theorem countP_one_more {l : List Nat} {p q : Nat → Bool} (hl : l.Nodup) (hn : n ∈ l) (hp : p n = false)
    (hq : q n = true)
    (h : ∀ k ∈ l, k ≠ n → (q k = true ↔ p k = true)) : l.countP q = l.countP p + 1 := by
  have hperm := List.perm_cons_erase hn
  rw [hperm.countP_eq p, hperm.countP_eq q, List.countP_cons_of_pos hq, List.countP_cons_of_neg (by simp [hp])]
  congr 1
  refine List.countP_congr fun k hk => ?_
  obtain ⟨hne, hk⟩ := hl.mem_erase_iff.mp hk
  exact h k hk hne

/-- The inode that was taken is in use, and the others are as they were. -/
theorem filesInUse_taken (h0 : (s.ino n).linkcount = 0) (hn : n < s.inodes) (hi : i.Wf) (hl : i.linkcount ≠ 0)
    (h2 : n ≠ 2) : filesInUse (s.putIno n i) = filesInUse s + 1 := by
  have hinodes : (s.putIno n i).inodes = s.inodes := by
    unfold Fs.inodes
    rw [ino_putIno_of_ne s i (Ne.symm h2)]
  unfold filesInUse
  rw [hinodes]
  refine countP_one_more List.nodup_range (List.mem_range.mpr hn) (by simp [h0]) ?_ fun k _ hk => ?_
  · rw [ino_putIno_self s n hi]
    exact decide_eq_true hl
  · rw [ino_putIno_of_ne s i hk]

theorem Ready.putIno (h : Ready s) (h2 : n ≠ 2) (h4 : n ≠ 4) : Ready (s.putIno n i) := by
  have htwo : (s.putIno n i).ino 2 = s.ino 2 := ino_putIno_of_ne s i (Ne.symm h2)
  have hfour : (s.putIno n i).ino 4 = s.ino 4 := ino_putIno_of_ne s i (Ne.symm h4)
  refine ⟨fun k hk => h.mapped k ?_, h.tableMapped, h.freeMapped, ?_, ?_⟩
  · unfold Fs.inodes at hk
    rwa [htwo] at hk
  · rw [htwo]
    exact h.tableFlags
  · rw [hfour]
    exact h.freeFlags

/-- The volume has an inode for the table and one for the free extent, and they are in use. -/
structure Kept (s : Fs) : Prop where
  ready : Ready s
  table : (s.ino 2).linkcount ≠ 0
  free : (s.ino 4).linkcount ≠ 0
  maplen : s.maplen < 2 ^ 64

/-- Where the directory is written in place, a file that is made is one more inode in use. -/
theorem create_takes_an_inode {fh : Option Nat} (hk : Kept s)
    (hp : ∀ ino t npath name, getparentinode path s = .ok (ino, t) → splitLast path = some (npath, name) →
      (s.ino ino).flags &&& INO_DIRECTORY ≠ 0 → StaysPut s ino (7 + name.length + (s.ino ino).filesize))
    (h : create path s = .ok ((0, fh), t)) : filesInUse t = filesInUse s + 1 := by
  obtain ⟨ino, s1, h1, h⟩ := bind_eq_ok.mp h
  obtain ⟨newino, s2, h2, h⟩ := bind_eq_ok.mp h
  obtain ⟨name, s3, h3, h⟩ := bind_eq_ok.mp h
  obtain ⟨b, s4, h4, h⟩ := bind_eq_ok.mp h
  have hq := (isQuiet_getparentinode path).quiet h1
  obtain ⟨rfl, npath, hsplit⟩ := lastName_eq_ok h3
  cases b with
  | false =>
    obtain ⟨⟨⟩, s5, -, h⟩ := bind_eq_ok.mp h
    exact nomatch (Prod.mk.inj (pure_eq_ok.mp h).1).1
  | true =>
    obtain ⟨⟨⟩, s5, h5, h⟩ := bind_eq_ok.mp h
    obtain ⟨-, rfl⟩ := pure_eq_ok.mp h
    obtain ⟨hmapped, rfl⟩ := assign_eq_ok.mp h5
    rcases allocInode_eq_ok h2 with ⟨hm, hlt, h0, rfl⟩ | ⟨rfl, rfl⟩
    · have hne2 : newino ≠ 2 := by
        intro hn
        rw [hn, hq.ino] at h0
        exact hk.table h0
      have hne4 : newino ≠ 4 := by
        intro hn
        rw [hn, hq.ino] at h0
        exact hk.free h0
      have hself := ino_putIno_self s1 newino newInode_wf
      have hready : Ready (s1.putIno newino newInode) := ((Steady.of_quiet hq).ready hk.ready).putIno hne2 hne4
      have hput : ((s1.putIno newino newInode).ino ino).flags &&& INO_DIRECTORY ≠ 0 →
          StaysPut (s1.putIno newino newInode) ino (7 + name.length + ((s1.putIno newino newInode).ino ino).filesize) := by
        intro hdir
        have hne : ino ≠ newino := by
          intro hn
          rw [hn, hself] at hdir
          exact hdir (by decide)
        have hino : (s1.putIno newino newInode).ino ino = s.ino ino := (ino_putIno_of_ne s1 _ hne).trans (hq.ino ino)
        rw [hino] at hdir ⊢
        exact (hp ino s1 npath name h1 hsplit hdir).of_same hq.maplen hino
      obtain ⟨hsteady, hlinks⟩ := addToDir_steady hready hput h4
      have hi := ino_wf s4 newino
      have hone : (s4.ino newino).linkcount = 1 := by
        rw [hlinks newino hm, hself]
        rfl
      have hassign : Steady s4 (s4.putIno newino
          { s4.ino newino with flags := 0, linkcount := ((s4.ino newino).linkcount + 1) % 2 ^ 32 }) := by
        refine .of_putIno ⟨show 0 < 2 ^ 32 by decide, Nat.mod_lt _ (by decide), hi.filesize, hi.startblock, hi.length⟩ hne2 hne4 ?_
        rw [hone]
        exact iff_of_false (show (1 + 1) % 2 ^ 32 ≠ 0 by decide) (by decide)
      rw [hassign.filesInUse, hsteady.filesInUse, filesInUse_taken h0 hlt newInode_wf (by decide) hne2,
        (Steady.of_quiet hq).filesInUse]
    · -- there is no inode to put the link count into
      have hsteady : Steady s1 { s1 with exhausted := true } := ⟨rfl, rfl, rfl, fun _ _ => Iff.rfl⟩
      have hready : Ready { s1 with exhausted := true } := hsteady.ready ((Steady.of_quiet hq).ready hk.ready)
      have hadd := addToDir_steady hready (fun hdir => ?_) h4
      · have hmaplen : s4.maplen = s.maplen := hadd.1.maplen.trans hq.maplen
        exact absurd hmapped (not_mapped_invalid (hmaplen ▸ hk.maplen))
      · have hino : Fs.ino { s1 with exhausted := true } ino = s.ino ino := hq.ino ino
        rw [hino] at hdir ⊢
        exact (hp ino s1 npath name h1 hsplit hdir).of_same hq.maplen hino

theorem StatisticsTrue.files {m : Mounted} (h : StatisticsTrue m s) : m.filecount = filesInUse s := by
  obtain ⟨st, t, hst, hagrees⟩ := h
  obtain ⟨x, s1, -, hst⟩ := bind_eq_ok.mp hst
  obtain ⟨y, s2, -, hst⟩ := bind_eq_ok.mp hst
  obtain ⟨hst, -⟩ := pure_eq_ok.mp hst
  have hfiles := hagrees.files
  rwa [← (Prod.mk.inj hst).2] at hfiles

/-! ## Runs on a new volume -/

theorem fresh_links : NewLinks fresh (2 ^ 20) :=
  newLinks (by decide) (by decide) (fun n h1 h2 => by omega) fresh_mounted

theorem fresh_inodes : fresh.inodes = 64 := by
  have h2 : fresh.ino 2 = tableInode (2 ^ 20) := fresh_links.isNew.ino rfl
  unfold Fs.inodes
  rw [h2]
  rfl

theorem fresh_filesInUse : filesInUse fresh = 6 := by
  have hlinks : ∀ n ∈ List.range 64, decide ((fresh.ino n).linkcount ≠ 0) = true ↔ decide (n < 6) = true := by
    intro n hn
    rw [fresh_links.linked n (List.mem_range.mp hn)]
    by_cases h6 : n < 6
    · simp [h6]
    · simp [h6]
  unfold filesInUse
  rw [fresh_inodes, List.countP_congr hlinks]
  decide

theorem fresh_started : start (mkfs (created (2 ^ 20)) (2 ^ 20)) (fun _ _ => 0) = .ok (some ⟨fresh, 256, 6⟩) := by
  have hblocks : leAt (mkfs (created (2 ^ 20)) (2 ^ 20)).disk 0x8008 8 = 256 := by decide +kernel
  have hmapped : ∀ n < 0 + 64, fresh.Mapped n := by
    intro n hn
    exact fresh_links.isNew.mapped.mpr (by omega)
  have hloop : countFiles (fresh.maplen / 32) 0 0 fresh = .ok (6, fresh) := by
    have hcount := fresh_filesInUse
    unfold filesInUse at hcount
    rw [fresh_inodes, List.range_eq_range'] at hcount
    show countFiles 64 0 0 fresh = _
    rw [countFiles_ok fresh 64 0 0 hmapped (by decide), hcount]
  unfold start
  rw [fresh_mounted]
  dsimp only
  rw [hloop, hblocks]
  rfl

/-- The root directory has a block for itself, behind the inode table. -/
theorem root_stays_put (hs : size ≤ 4096) : StaysPut fresh 3 size := by
  have h3 : fresh.ino 3 = rootInode (2 ^ 20) := fresh_links.isNew.ino rfl
  refine .inPlace (.inr ?_) ?_ (.inr ?_)
  · rw [h3]
    exact hs
  · rw [h3]
    decide
  · rw [h3]
    decide

theorem write_root_meets : Meets fresh (.write [slash] [1] 0) := by
  intro ino t hget
  have h3 : fresh.ino 3 = rootInode (2 ^ 20) := fresh_links.isNew.ino rfl
  obtain rfl : 3 = ino := (Prod.mk.inj (Except.ok.inj hget)).1
  refine root_stays_put ?_
  rw [h3]
  decide

theorem statistics_stay_true_root_written :
    ∃ t, Run OkStep fresh [.write [slash] [1] 0] t ∧ StatisticsTrue ⟨fresh, 256, 6⟩ t := by
  have h : ((Request.write [slash] [1] 0).run fresh).toOption.map Prod.fst = some 1 := by decide +kernel
  cases hr : (Request.write [slash] [1] 0).run fresh with
  | error e =>
    rw [hr] at h
    exact nomatch h
  | ok p =>
    obtain ⟨r, t⟩ := p
    rw [hr] at h
    obtain rfl : r = 1 := Option.some.inj h
    have hrun : Run OkStep fresh [.write [slash] [1] 0] t := .single ⟨write_root_meets, 1, hr, by decide⟩
    exact ⟨t, hrun, statistics_stay_true (by decide) (noWrap_of_inodes (by decide) (by decide)) fresh_started hrun⟩

theorem fresh_kept : Kept fresh := by
  have hlinked : ∀ n < 6, (fresh.ino n).linkcount ≠ 0 := by
    intro n hn
    rw [fresh_links.linked n (by omega), if_pos hn]
    exact Nat.one_ne_zero
  exact ⟨(start_counted (by decide) (noWrap_of_inodes (by decide) (by decide)) fresh_started).1, hlinked 2 (by decide),
    hlinked 4 (by decide), by decide⟩

/-- Seven inodes are in use then, and six are reported. -/
theorem a_new_file_is_not_counted :
    start (mkfs (created (2 ^ 20)) (2 ^ 20)) (fun _ _ => 0) = .ok (some ⟨fresh, 256, 6⟩) ∧
      ∃ t, Run Success fresh [.create filePath] t ∧ ¬ StatisticsTrue ⟨fresh, 256, 6⟩ t := by
  refine ⟨fresh_started, ?_⟩
  have h : (create filePath fresh).toOption.map Prod.fst = some (0, some 6) := by decide +kernel
  cases hr : create filePath fresh with
  | error e =>
    rw [hr] at h
    exact nomatch h
  | ok p =>
    obtain ⟨r, t⟩ := p
    rw [hr] at h
    obtain rfl : r = (0, some 6) := Option.some.inj h
    have hsuccess : Success fresh (.create filePath) t := ⟨0, bind_eq_ok.mpr ⟨_, t, hr, rfl⟩, le_refl _⟩
    refine ⟨t, .single hsuccess, fun htrue => ?_⟩
    have hmore : filesInUse t = filesInUse fresh + 1 := by
      refine create_takes_an_inode fresh_kept (fun ino u npath name hget hsplit _ => ?_) hr
      rw [getparentinode_filePath] at hget
      obtain rfl : 3 = ino := (Prod.mk.inj (Except.ok.inj hget)).1
      rw [splitLast_filePath] at hsplit
      obtain rfl : [0x61] = name := (Prod.mk.inj (Option.some.inj hsplit)).2
      have h3 : fresh.ino 3 = rootInode (2 ^ 20) := fresh_links.isNew.ino rfl
      refine root_stays_put ?_
      rw [h3]
      decide
    have hreported : 6 = filesInUse t := htrue.files
    rw [hmore, fresh_filesInUse] at hreported
    exact absurd hreported (by decide)

end Rodvin.Starfs.Statistics
