/-
  Rodvin.Starfs.FileStore — what the volume is for: regular files as lists of bytes
  (`tools/fuse_starfs/main.c`: `starfs_open`, `starfs_read`, `starfs_write`,
  `starfs_release`).

  `Store` has the bytes and the link count of each file, and `perform` says what requests do
  to it and answer. A volume `Represents` a store when its blocks are owned, its paths
  resolve, and each file of the store has blocks and these bytes. Requests that stay inside
  the blocks of their file and do not begin behind its end are answered by the volume as by
  the store, whatever the order, and leave all other files alone (`store_refines`).
-/

import Rodvin.Starfs.Overlay
import Rodvin.Starfs.ReadFile
import Rodvin.Starfs.Renaming

namespace Rodvin.Starfs.FileStore

open Rodvin.Lib Rodvin.Starfs.Ownership

/-! ## The store -/

structure Store where
  bytes : Nat → List UInt8
  links : Nat → Nat

inductive Op where
  | openFile (names : List Name)
  | write (names : List Name) (buf : List UInt8) (offset : Nat)
  | read (fh size offset : Nat)
  | release (fh : Nat)

inductive Answer where
  | result (r : Int)
  | handle (r : Int) (fh : Option Nat)
  | bytes (r : Int) (bs : List UInt8)
  deriving DecidableEq, Repr

variable (dirs : Nat → Option (List (Name × Nat)))

/-- What a request answers, and does to the store. -/
def apply (a : Store) : Op → Answer × Store
  | .openFile names =>
    match walk dirs 3 names with
    | none => (.handle (-ENOENT) none, a)
    | some n => (.handle 0 (some n), { a with links := Function.update a.links n (a.links n + 1) })
  | .write names buf offset =>
    match walk dirs 3 names with
    | none => (.result buf.length, a)
    | some n => (.result buf.length, { a with bytes := Function.update a.bytes n (overlay (a.bytes n) offset buf) })
  | .read n size offset => (.bytes size (((a.bytes n).drop offset).take size), a)
  | .release n => (.result 0, { a with links := Function.update a.links n (a.links n - 1) })

/-- The requests on the volume. -/
def Op.exec : Op → Fuse Answer
  | .openFile names => do
    let (r, fh) ← Starfs.openFile (pathOf names)
    return .handle r fh
  | .write names buf offset => do return .result (← writeFile (pathOf names) buf offset)
  | .read n size offset => do
    let (r, bs) ← readFile n size offset
    return .bytes r bs
  | .release n => do return .result (← Starfs.release n)

def Components (names : List Name) : Prop := ∀ name ∈ names, name ≠ [] ∧ slash ∉ name ∧ (0 : UInt8) ∉ name

/-- A path leads to a file or to nothing, a write stays inside the blocks of its file and begins at
    its end or before it, a read stays inside the file, a handle is released once. -/
def Allowed (files : Nat → Prop) (cap : Nat → Nat) (a : Store) : Op → Prop
  | .openFile names => Components names ∧ ∀ n, walk dirs 3 names = some n → files n ∧ a.links n + 1 < 2 ^ 32
  | .write names buf offset => Components names ∧ buf ≠ [] ∧
      ∃ n, walk dirs 3 names = some n ∧ files n ∧ offset ≤ (a.bytes n).length ∧ offset + buf.length ≤ cap n ∧
        buf.length < 2 ^ 31
  | .read n size offset => files n ∧ offset + size ≤ (a.bytes n).length ∧ size < 2 ^ 31
  | .release n => files n ∧ 1 < a.links n

/-- A regular file in use that has blocks. -/
structure Regular (s : Fs) (n : Nat) : Prop where
  lt : n < (s.ino 2).filesize / 32
  linked : (s.ino n).linkcount ≠ 0
  regular : (s.ino n).flags &&& INO_DIRECTORY = 0 ∧ (s.ino n).flags &&& INO_SYSTEM = 0
  readable : Readable s n
  placed : (s.ino n).ext.length ≠ 0 ∧ (s.ino n).ext.startblock ≠ INVALID_BLOCK

/-- The blocks are owned, those before the inode table by the system, and the paths resolve. -/
structure Serves (blocks : Nat) (dirs : Nat → Option (List (Name × Nat))) (s : Fs) : Prop where
  inv : Ownership.Inv blocks s
  small : blocks ≤ 2 ^ 50
  front : ∀ b < 9, ∃ k, Used s k ∧ (s.ino k).flags &&& INO_SYSTEM ≠ 0 ∧ Holds s k b
  tree : DirTree s dirs
  kept : ∀ d, Reachable dirs d → dirs d ≠ none → (s.ino d).linkcount ≠ 0 ∧ Readable s d

structure Represents (blocks : Nat) (dirs : Nat → Option (List (Name × Nat))) (files : Nat → Prop) (cap : Nat → Nat)
    (s : Fs) (a : Store) : Prop where
  serves : Serves blocks dirs s
  regular : ∀ n, files n → Regular s n
  cap : ∀ n, files n → 4096 * (s.ino n).ext.length = cap n
  bytes : ∀ n, files n → s.content n = a.bytes n
  links : ∀ n, files n → (s.ino n).linkcount = a.links n

variable {dirs : Nat → Option (List (Name × Nat))} {files : Nat → Prop} {cap : Nat → Nat} {blocks n k : Nat}
  {s t u : Fs} {a : Store}
  {i : Inode}

/-! ## What a request leaves alone -/

/-- Everything but file `n` is as it was, and that is still such a file. -/
structure Elsewhere (s t : Fs) (n : Nat) : Prop where
  maplen : t.maplen = s.maplen
  size : s.size ≤ t.size
  flags : (t.ino n).flags = (s.ino n).flags
  linked : (t.ino n).linkcount ≠ 0
  ext : (t.ino n).ext = (s.ino n).ext
  ino : ∀ k < (s.ino 2).filesize / 32, k ≠ n → t.ino k = s.ino k
  content : ∀ k, k ≠ n → k ≠ 2 → k < (s.ino 2).filesize / 32 → (s.ino k).linkcount ≠ 0 → Readable s k →
    t.content k = s.content k

theorem Regular.apart (h : Regular s n) (hs : Serves blocks dirs s) :
    n ≠ 2 ∧ n ≠ 4 := hs.inv.ne_of_not_system h.regular.2

theorem Serves.two (hs : Serves blocks dirs s) (h : Regular s n) (he : Elsewhere s t n) : t.ino 2 = s.ino 2 :=
  he.ino 2 hs.inv.table.lt (h.apart hs).1.symm

theorem Elsewhere.readable (he : Elsewhere s t n) (hr : Readable s k) (hlt : k < (s.ino 2).filesize / 32)
    (hne : k ≠ n) :
    Readable t k := by
  refine hr.alike he.maplen he.size ?_
  rw [he.ino k hlt hne]
  exact .refl _

/-- The other files stay what they are. -/
theorem Serves.regular (hs : Serves blocks dirs s) (h : Regular s n) (he : Elsewhere s t n) (hk : Regular s k)
    (hne : k ≠ n) :
    Regular t k := by
  have hino := he.ino k hk.lt hne
  refine ⟨?_, ?_, ?_, he.readable hk.readable hk.lt hne, ?_⟩
  · rw [hs.two h he]
    exact hk.lt
  · rw [hino]
    exact hk.linked
  · rw [hino]
    exact hk.regular
  · rw [hino]
    exact hk.placed

/-- So do the directories. -/
theorem Serves.elsewhere (hs : Serves blocks dirs s) (h : Regular s n) (he : Elsewhere s t n)
    (hi : Ownership.Inv blocks t) : Serves blocks dirs t := by
  have htwo := hs.two h he
  have hdir : ∀ d, Reachable dirs d → dirs d ≠ none → d ≠ n ∧ d ≠ 2 := by
    intro d hd hnone
    have hflags := (hs.tree.directory d hd).mpr hnone
    constructor
    · intro heq
      rw [heq] at hflags
      exact hflags h.regular.1
    · intro heq
      rw [heq, hs.inv.tableFlags] at hflags
      exact hflags (by decide)
  refine ⟨hi, hs.small, fun b hb => ?_, ⟨?_, ?_, fun d hd => ?_, fun d es hd hes => ?_, ?_⟩, fun d hd hnone => ?_⟩
  · obtain ⟨k, hk, hsystem, hheld⟩ := hs.front b hb
    have hne : k ≠ n := by
      intro heq
      rw [heq] at hsystem
      exact hsystem h.regular.2
    have hino := he.ino k hk.lt hne
    refine ⟨k, ⟨?_, ?_, ?_⟩, ?_, ?_⟩
    · rw [htwo]
      exact hk.lt
    · rw [hino]
      exact hk.linked
    · rw [hino]
      exact hk.placed
    · rw [hino]
      exact hsystem
    · unfold Holds
      rw [hino]
      exact hheld
  · rw [htwo, he.maplen]
    exact hs.tree.mounted
  · rw [htwo]
    exact hs.tree.root
  · have hlt := hs.tree.reachable hd
    by_cases hne : d = n
    · rw [hne, he.flags, ← hne]
      exact hs.tree.directory d hd
    · rw [he.ino d hlt hne]
      exact hs.tree.directory d hd
  · obtain ⟨hv, hc⟩ := hs.tree.valid d es hd hes
    have hnone : dirs d ≠ none := by simp [hes]
    obtain ⟨hne, h2⟩ := hdir d hd hnone
    have hlt := hs.tree.reachable hd
    obtain ⟨hl, hr⟩ := hs.kept d hd hnone
    have hcontent := he.content d hne h2 hlt hl hr
    refine ⟨hv, ?_⟩
    rw [contains_unique hc hr.contains, ← hcontent]
    exact (he.readable hr hlt hne).contains
  · rw [htwo]
    exact hs.tree.inside
  · obtain ⟨hne, -⟩ := hdir d hd hnone
    have hlt := hs.tree.reachable hd
    obtain ⟨hl, hr⟩ := hs.kept d hd hnone
    rw [he.ino d hlt hne]
    exact ⟨hl, he.readable hr hlt hne⟩

/-- The files of the store but one, when that one is written or opened. -/
theorem Represents.elsewhere (h : Represents blocks dirs files cap s a) (hn : files n) (he : Elsewhere s t n)
    (hi : Ownership.Inv blocks t)
    (hr : Readable t n) {bs : List UInt8} {l : Nat} (hb : t.content n = bs) (hl : (t.ino n).linkcount = l) :
    Represents blocks dirs files cap t ⟨Function.update a.bytes n bs, Function.update a.links n l⟩ := by
  have hreg := h.regular n hn
  refine ⟨h.serves.elsewhere hreg he hi, fun k hk => ?_, fun k hk => ?_, fun k hk => ?_, fun k hk => ?_⟩
  · by_cases hne : k = n
    · subst hne
      refine ⟨?_, he.linked, ?_, hr, ?_⟩
      · rw [h.serves.two hreg he]
        exact hreg.lt
      · rw [he.flags]
        exact hreg.regular
      · rw [he.ext]
        exact hreg.placed
    · exact h.serves.regular hreg he (h.regular k hk) hne
  · by_cases hne : k = n
    · subst hne
      rw [he.ext]
      exact h.cap k hk
    · rw [he.ino k (h.regular k hk).lt hne]
      exact h.cap k hk
  · have hk' := h.regular k hk
    by_cases hne : k = n
    · subst hne
      simpa using hb
    · rw [he.content k hne (hk'.apart h.serves).1 hk'.lt hk'.linked hk'.readable, h.bytes k hk]
      simp [hne]
  · by_cases hne : k = n
    · subst hne
      simpa using hl
    · rw [he.ino k (h.regular k hk).lt hne, h.links k hk]
      simp [hne]

/-! ## Writing -/

variable {names : List Name} {buf : List UInt8} {offset size : Nat} {s1 : Fs}

theorem Serves.resolved (h : Serves blocks dirs s) (hn : Components names) :
    ∃ s1, getinode (pathOf names) s = .ok ((walk dirs 3 names).getD INVALID_INODE, s1) ∧ Quiet s s1 :=
  (getinode_eq_walk names h.tree hn).1

theorem Represents.target (h : Represents blocks dirs files cap s a) (hn : files n) (hb : buf ≠ [])
    (hget : getinode (pathOf names) s = .ok (n, s1)) (hc : offset + buf.length ≤ cap n) :
    Target blocks s (pathOf names) n s1 offset buf ∧ newSize s n offset buf ≤ 4096 * (s.ino n).ext.length := by
  have hr := h.regular n hn
  have hheld := hr.readable.held
  have hsize : newSize s n offset buf ≤ 4096 * (s.ino n).ext.length := by
    rw [h.cap n hn]
    rw [h.cap n hn] at hheld
    exact max_le hheld hc
  exact ⟨⟨h.serves.inv, h.serves.small, h.serves.front, hget, hr.lt, hr.linked, hr.regular, hr.readable,
      .inr hr.placed, hb, .inl hsize⟩,
    hsize⟩

theorem grown_ext {i : Inode} (h : size ≤ 4096 * i.ext.length) : (i.grown size).ext = i.ext := by
  show (⟨i.ext.startblock, max i.ext.length ((size + 4095) / 4096)⟩ : Extent) = i.ext
  rw [max_eq_left (by omega)]

theorem landed_readable {bytes : List UInt8} (h : Lands blocks s n i bytes.length) (hst : Stored s t n i bytes) :
    Readable t n := by
  have hself := landed_self h hst
  have hheld := h.held
  have hsize := hst.size
  refine ⟨hst.mapped.mpr (h.inv.mapped n h.lt), ?_, ?_, ?_, fun _ => ?_, fun _ => ?_⟩
  · rw [hself]
    exact h.direct
  · rw [hself, h.filesize]
    exact hheld
  · rw [hself]
    exact h.addressed.2
  · rw [hself]
    exact h.addressed.1
  · rw [hself, h.filesize]
    omega

/-- What a write in place leaves alone. -/
theorem elsewhere_of_stored {bytes : List UInt8} (hreg : Regular s n)
    (hlands : Lands blocks s n ((s.ino n).grown bytes.length) bytes.length)
    (hst : Stored s t n ((s.ino n).grown bytes.length) bytes) (hfits : bytes.length ≤ 4096 * (s.ino n).ext.length) :
    Elsewhere s t n ∧ Ownership.Inv blocks t := by
  have hself := landed_self hlands hst
  have hext := grown_ext hfits
  have hclear : Ownership.Clear blocks s n ((s.ino n).grown bytes.length).ext.startblock
      ((s.ino n).grown bytes.length).ext.length := by
    rw [hext]
    exact hlands.inv.owned.clear ⟨hreg.lt, hreg.linked, hreg.placed.2⟩
  have hput : Ownership.Inv blocks (s.putIno n ((s.ino n).grown bytes.length)) :=
    hlands.inv.putIno hlands.wf hlands.apart.1 hlands.apart.2 fun _ _ _ => hclear
  have hother : ∀ k < (s.ino 2).filesize / 32, k ≠ n → t.ino k = s.ino k :=
    fun k hk hne => hst.ino_of_ne (hlands.inv.mapped k hk) hlands.behind hne
  have hsize : s.size ≤ t.size := by
    rw [hst.size]
    exact le_max_left ..
  refine ⟨⟨hst.maplen, hsize, ?_, ?_, ?_, hother, fun k hne h2 hk hl hr => ?_⟩, ?_⟩
  · rw [hself]
    rfl
  · rw [hself]
    exact hreg.linked
  · rw [hself, hext]
  · have hr' : Readable t k := by
      refine hr.alike hst.maplen hsize ?_
      rw [hother k hk hne]
      exact .refl _
    exact contains_unique hr'.contains (landed_other hlands hclear hst hr hk hl hne h2)
  · exact hput.same ⟨hst.maplen, hst.exhausted, fun k hk => hst.ino_eq hk hlands.behind⟩

/-- A write that fits the blocks of its file. -/
theorem Represents.write (h : Represents blocks dirs files cap s a) (hn : files n) (hb : buf ≠ [])
    (hget : getinode (pathOf names) s = .ok (n, s1)) (ho : offset ≤ (a.bytes n).length)
    (hc : offset + buf.length ≤ cap n) (hint : buf.length < 2 ^ 31) :
    ∃ t, writeFile (pathOf names) buf offset s = .ok (buf.length, t) ∧
      Represents blocks dirs files cap t
        { a with bytes := Function.update a.bytes n (overlay (a.bytes n) offset buf) } := by
  obtain ⟨ht, hsize⟩ := h.target hn hb hget hc
  have hreg := h.regular n hn
  obtain ⟨t, hrun, hst⟩ := ht.written_in_place hreg.placed
  have hlands := ht.lands_in_place hreg.placed
  have hpatch : patch (s.junk (s1.mallocs + 2)) (s.content n) offset buf = overlay (s.content n) offset buf := by
    refine (patch_eq_overlay_iff ..).mpr fun i h1 h2 => ?_
    rw [h.bytes n hn] at h1
    omega
  have hlen := Target.length_bytes s n offset buf (s.junk (s1.mallocs + 2))
  rw [hpatch] at hst hlen
  rw [← hlen] at hlands hsize hst
  obtain ⟨he, hinv⟩ := elsewhere_of_stored hreg hlands hst hsize
  have hcontains := landed_content hlands hst
  have hself := landed_self hlands hst
  have hread := landed_readable hlands hst
  have hlinks : (t.ino n).linkcount = a.links n := by
    rw [hself, ← h.links n hn]
    rfl
  have hbytes : t.content n = overlay (a.bytes n) offset buf := by
    rw [← h.bytes n hn]
    exact contains_unique hread.contains hcontains
  have hrep := h.elsewhere hn he hinv hread hbytes hlinks
  rw [Function.update_eq_self] at hrep
  rw [bmod_of_lt hint] at hrun
  exact ⟨t, hrun, hrep⟩

/-! ## Opening, reading, releasing -/

/-- A file that has blocks has them behind the inode table. -/
theorem Regular.behind (h : Regular s n) (hs : Serves blocks dirs s) :
    s.tableEnd ≤ 4096 * (s.ino n).ext.startblock := by
  have hu : Used s n := ⟨h.lt, h.linked, h.placed.2⟩
  have hl := Nat.pos_of_ne_zero h.placed.1
  have hnine : 9 ≤ (s.ino n).ext.startblock := by
    by_contra hlt
    obtain ⟨k, hk, hsystem, hheld⟩ := hs.front (s.ino n).ext.startblock (by omega)
    have hne : n ≠ k := by
      intro heq
      rw [← heq] at hsystem
      exact hsystem h.regular.2
    exact hs.inv.owned.disjoint n k hu hk hne _ ⟨Nat.le_refl _, by omega⟩ hheld
  have hone : 1 ≤ 4096 * (s.ino n).ext.length := by omega
  rcases hs.inv.outside (hs.inv.owned.clear hu) (h.apart hs).1 hl hone with hout | hout
  · omega
  · exact hout

/-- Another link count, for a file that stays in use. -/
theorem elsewhere_of_links (hs : Serves blocks dirs s) (hreg : Regular s n) {l : Nat} (hl : l < 2 ^ 32) (h0 : l ≠ 0) :
    Elsewhere s (s.putIno n { s.ino n with linkcount := l }) n ∧
      Ownership.Inv blocks (s.putIno n { s.ino n with linkcount := l }) := by
  have hi := ino_wf s n
  have hwf : Inode.Wf { s.ino n with linkcount := l } := ⟨hi.flags, hl, hi.filesize, hi.startblock, hi.length⟩
  have hself := ino_putIno_self s n hwf
  obtain ⟨h2, h4⟩ := hreg.apart hs
  refine ⟨⟨rfl, Nat.le_refl _, ?_, ?_, ?_, fun k _ hne => ino_putIno_of_ne s _ hne, fun k hne h2 hk hlk hr => ?_⟩, ?_⟩
  · rw [hself]
  · rw [hself]
    exact h0
  · rw [hself]
  · exact hs.inv.content_putIno hr hk hlk h2 (hs.inv.mapped n hreg.lt) hne
  · exact hs.inv.putIno hwf h2 h4 fun _ _ hp => hs.inv.owned.clear ⟨hreg.lt, hreg.linked, hp⟩

theorem Represents.relink (h : Represents blocks dirs files cap s a) (hn : files n) {l : Nat} (hl : l < 2 ^ 32)
    (h0 : l ≠ 0) :
    Represents blocks dirs files cap (s.putIno n { s.ino n with linkcount := l })
      { a with links := Function.update a.links n l } := by
  have hreg := h.regular n hn
  have hi := ino_wf s n
  have hwf : Inode.Wf { s.ino n with linkcount := l } := ⟨hi.flags, hl, hi.filesize, hi.startblock, hi.length⟩
  have hself := ino_putIno_self s n hwf
  obtain ⟨he, hinv⟩ := elsewhere_of_links h.serves hreg hl h0
  have hread : Readable (s.putIno n { s.ino n with linkcount := l }) n := by
    refine hreg.readable.alike rfl (Nat.le_refl _) ?_
    rw [hself]
    exact ⟨rfl, rfl, rfl⟩
  have hbytes : (s.putIno n { s.ino n with linkcount := l }).content n = a.bytes n := by
    rw [← h.bytes n hn]
    exact content_putIno hreg.readable.mapped hwf rfl rfl (hreg.behind h.serves)
  have hrep := h.elsewhere hn he hinv hread hbytes (l := l) (by rw [hself])
  rwa [Function.update_eq_self] at hrep

theorem Regular.quiet (h : Regular s n) (hq : Quiet s t) : Regular t n := by
  obtain ⟨h1, h2, h3, h4, h5⟩ := h
  rw [← hq.ino 2] at h1
  rw [← hq.ino n] at h2 h3 h5
  exact ⟨h1, h2, h3, h4.quiet hq, h5⟩

theorem Serves.quiet (h : Serves blocks dirs s) (hq : Quiet s t) : Serves blocks dirs t := by
  refine ⟨h.inv.of_quiet hq, h.small, fun b hb => ?_, h.tree.quiet hq, fun d hd hnone => ?_⟩
  · obtain ⟨k, ⟨h1, h2, h3⟩, h4, h5⟩ := h.front b hb
    unfold Holds at h5
    rw [← hq.ino 2] at h1
    rw [← hq.ino k] at h2 h3 h4 h5
    exact ⟨k, ⟨h1, h2, h3⟩, h4, h5⟩
  · obtain ⟨hl, hr⟩ := h.kept d hd hnone
    rw [← hq.ino d] at hl
    exact ⟨hl, hr.quiet hq⟩

theorem Represents.quiet (h : Represents blocks dirs files cap s a) (hq : Quiet s t) :
    Represents blocks dirs files cap t a := by
  refine ⟨h.serves.quiet hq, fun n hn => (h.regular n hn).quiet hq, fun n hn => ?_, fun n hn => ?_, fun n hn => ?_⟩
  · rw [hq.ino]
    exact h.cap n hn
  · rw [hq.content]
    exact h.bytes n hn
  · rw [hq.ino]
    exact h.links n hn

theorem Represents.release (h : Represents blocks dirs files cap s a) (hn : files n) (hl : 1 < a.links n) :
    ∃ t, Starfs.release n s = .ok (0, t) ∧
      Represents blocks dirs files cap t { a with links := Function.update a.links n (a.links n - 1) } := by
  have hreg := h.regular n hn
  have hlt := (ino_wf s n).linkcount
  have hlinks := h.links n hn
  have hsub : ((s.ino n).linkcount + 2 ^ 32 - 1) % 2 ^ 32 = a.links n - 1 := by
    rw [hlinks] at hlt ⊢
    omega
  refine ⟨_, ?_, h.relink hn (l := a.links n - 1) (by rw [hlinks] at hlt; omega) (by omega)⟩
  unfold Starfs.release
  rw [bind_ok (assign_ok hreg.readable.mapped), hsub]
  rfl

theorem Represents.open_found (h : Represents blocks dirs files cap s a) (hn : files n)
    (hget : getinode (pathOf names) s = .ok (n, s1))
    (hl : a.links n + 1 < 2 ^ 32) : ∃ t, Starfs.openFile (pathOf names) s = .ok ((0, some n), t) ∧
      Represents blocks dirs files cap t { a with links := Function.update a.links n (a.links n + 1) } := by
  have hq := (isQuiet_getinode _).quiet hget
  have h' := h.quiet hq
  have hreg := h'.regular n hn
  have hne : n ≠ INVALID_INODE := by
    have hlt := hreg.lt
    have hsize := (ino_wf s1 2).filesize
    unfold INVALID_INODE
    omega
  have hadd : ((s1.ino n).linkcount + 1) % 2 ^ 32 = a.links n + 1 := by
    rw [h'.links n hn]
    exact Nat.mod_eq_of_lt hl
  refine ⟨_, ?_, h'.relink hn (l := a.links n + 1) hl (by omega)⟩
  unfold Starfs.openFile
  rw [bind_ok hget, if_neg hne, bind_ok (assign_ok hreg.readable.mapped), hadd]
  rfl

theorem isQuiet_readFile (n size offset : Nat) : IsQuiet (readFile n size offset) := by
  refine .bind (isQuiet_inodetab n) fun i => .bind ?_ fun bs => .pure _
  exact .bind (isQuiet_lseek _) fun _ => isQuiet_read size

/-- A range of a file. -/
theorem Represents.read (h : Represents blocks dirs files cap s a) (hn : files n)
    (hrange : offset + size ≤ (a.bytes n).length)
    (hsize : size < 2 ^ 31) : ∃ t, readFile n size offset s = .ok ((size, ((a.bytes n).drop offset).take size), t) ∧
    Quiet s t := by
  have hreg := h.regular n hn
  have hr := hreg.readable
  have hheld := hr.held
  have hin := h.serves.inv.owned.inside n ⟨hreg.lt, hreg.linked, hreg.placed.2⟩
  have hsmall := h.serves.small
  rw [← h.bytes n hn, length_content] at hrange
  obtain ⟨t, ht⟩ := readFile_run (s := s) hr.mapped size offset
  have hstart : s.readStart n offset = 4096 * (s.ino n).ext.startblock + offset := by
    unfold Fs.readStart Fs.seeked
    rw [shl64_eq (by omega), add64_eq (by omega), if_pos (by omega), Nat.add_comm]
  refine ⟨t, ?_, ?_⟩
  · rw [ht, bmod_of_lt hsize, map_readPlaces, hstart, ← h.bytes n hn]
    unfold Fs.content
    rw [take_drop_slice _ _ hrange]
    by_cases h0 : size = 0
    · subst h0
      simp
    · have hends := hr.ends (by omega)
      rw [min_eq_left (by omega)]
  · exact (isQuiet_readFile n size offset).quiet ht

/-! ## Whole runs -/

theorem apply_openFile_none (hw : walk dirs 3 names = none) :
    apply dirs a (.openFile names) = (.handle (-ENOENT) none, a) := by simp only [apply, hw]

theorem apply_openFile_some (hw : walk dirs 3 names = some n) : apply dirs a (.openFile names) =
    (.handle 0 (some n), { a with links := Function.update a.links n (a.links n + 1) }) := by simp only [apply, hw]

theorem apply_write_some (hw : walk dirs 3 names = some n) : apply dirs a (.write names buf offset) =
    (.result buf.length, { a with bytes := Function.update a.bytes n (overlay (a.bytes n) offset buf) }) := by
  simp only [apply, hw]

/-- One request. -/
theorem Represents.step (h : Represents blocks dirs files cap s a) {op : Op} (hop : Allowed dirs files cap a op) :
    ∃ t, op.exec s = .ok ((apply dirs a op).1, t) ∧ Represents blocks dirs files cap t (apply dirs a op).2 := by
  cases op with
  | openFile names =>
    obtain ⟨hnames, hfile⟩ := hop
    obtain ⟨s1, hget, hq⟩ := h.serves.resolved hnames
    cases hw : walk dirs 3 names with
    | none =>
      rw [hw] at hget
      rw [apply_openFile_none hw]
      refine ⟨s1, ?_, h.quiet hq⟩
      have hrun : Starfs.openFile (pathOf names) s = .ok ((-ENOENT, none), s1) := by
        unfold Starfs.openFile
        rw [bind_ok hget]
        rfl
      exact bind_ok hrun
    | some n =>
      rw [hw] at hget
      obtain ⟨hn, hl⟩ := hfile n hw
      obtain ⟨t, ht, hrep⟩ := h.open_found hn hget hl
      rw [apply_openFile_some hw]
      exact ⟨t, bind_ok ht, hrep⟩
  | write names buf offset =>
    obtain ⟨hnames, hb, n, hw, hn, ho, hc, hint⟩ := hop
    obtain ⟨s1, hget, -⟩ := h.serves.resolved hnames
    rw [hw] at hget
    obtain ⟨t, ht, hrep⟩ := h.write hn hb hget ho hc hint
    rw [apply_write_some hw]
    exact ⟨t, bind_ok ht, hrep⟩
  | read n size offset =>
    obtain ⟨hn, hrange, hsize⟩ := hop
    obtain ⟨t, ht, hq⟩ := h.read hn hrange hsize
    exact ⟨t, bind_ok ht, h.quiet hq⟩
  | release n =>
    obtain ⟨hn, hl⟩ := hop
    obtain ⟨t, ht, hrep⟩ := h.release hn hl
    exact ⟨t, bind_ok ht, hrep⟩

/-- What `create("/a")` leaves of a new volume of 1 MiB, next to its directory. -/
structure EmptyFile (s : Fs) : Prop where
  root : OneFile s
  file : s.ino 6 = ⟨0, 2, 0, ⟨INVALID_BLOCK, 0⟩⟩
  boot : s.ino 0 = bootInode
  header : s.ino 1 = headerInode
  inv : Ownership.Inv (2 ^ 20 / 4096) s

theorem withFile_reachable (h : Reachable withFile n) : n < 7 := by
  cases h with
  | root => decide
  | entry _ hes he =>
    obtain ⟨-, rfl⟩ := withFile_eq_some hes
    exact fileEntries_lt _ he

/-- The root directory is the only one, in whatever state has it. -/
theorem withFile_tree (h2 : s.ino 2 = systemInode 2048 9 1) (hm : s.maplen = 2048)
    (h3 : (s.ino 3).flags = INO_DIRECTORY)
    (hf : ∀ n < 7, n ≠ 3 → (s.ino n).flags &&& INO_DIRECTORY = 0) (hc : s.Contains 3 (dirContent fileEntries)) :
    DirTree s withFile := by
  have hsize : (s.ino 2).filesize = 2048 := by
    rw [h2]
    rfl
  refine ⟨by omega, by omega, fun n hn => ?_, fun n es hn hes => ?_, fun n es hn hes e he => ?_⟩
  · by_cases hn3 : n = 3
    · subst hn3
      rw [h3]
      exact iff_of_true (by decide) (by simp [withFile])
    · exact iff_of_false (not_not.mpr (hf n (withFile_reachable hn) hn3)) (not_not.mpr (if_neg hn3))
  · obtain ⟨rfl, rfl⟩ := withFile_eq_some hes
    exact ⟨⟨by decide, by decide, by decide, by decide, by decide⟩, hc⟩
  · obtain ⟨-, rfl⟩ := withFile_eq_some hes
    have := fileEntries_lt e he
    omega

theorem filePath_eq : pathOf [[0x61]] = filePath := by decide

/-- The blocks before the inode table belong to the boot code and the header. -/
theorem front_of_system (hsize : (s.ino 2).filesize = 2048) (h0 : s.ino 0 = bootInode) (h1 : s.ino 1 = headerInode) :
    ∀ b < 9, ∃ k, Used s k ∧ (s.ino k).flags &&& INO_SYSTEM ≠ 0 ∧ Holds s k b := by
  intro b hb
  by_cases h8 : b < 8
  · refine ⟨0, ⟨by omega, ?_, ?_⟩, ?_, ?_⟩
    · rw [h0]
      decide
    · rw [h0]
      decide
    · rw [h0]
      decide
    · unfold Holds
      rw [h0]
      exact ⟨Nat.zero_le _, by show b < 0 + 8; omega⟩
  · refine ⟨1, ⟨by omega, ?_, ?_⟩, ?_, ?_⟩
    · rw [h1]
      decide
    · rw [h1]
      decide
    · rw [h1]
      decide
    · unfold Holds
      rw [h1]
      exact ⟨by show 8 ≤ b; omega, by show b < 8 + 1; omega⟩

theorem EmptyFile.target (h : EmptyFile s) : ∃ s1, Target (2 ^ 20 / 4096) s filePath 6 s1 0 [1] := by
  have htable : (s.ino 2).filesize = 2048 := by
    rw [h.root.table]
    rfl
  have hlt : ∀ {k : Nat}, k < 64 → k < (s.ino 2).filesize / 32 := fun hk => by omega
  have htree : DirTree s withFile :=
    withFile_tree h.root.table h.root.maplen (by rw [h.root.root]) h.root.files
      (h.root.content ▸ h.root.placed.readable.contains)
  obtain ⟨s1, hget, -⟩ := (getinode_eq_walk [[0x61]] htree (by decide)).1
  rw [filePath_eq] at hget
  have hread : Readable s 6 := by
    refine ⟨h.inv.mapped 6 (hlt (by decide)), ?_, ?_, ?_, fun h0 => ?_, fun h0 => ?_⟩
    · unfold Inode.Direct
      rw [h.file]
      rfl
    · rw [h.file]
      decide
    · rw [h.file]
      decide
    · rw [h.file] at h0
      exact absurd rfl h0
    · rw [h.file] at h0
      exact absurd rfl h0
  refine ⟨s1, h.inv, by decide, front_of_system htable h.boot h.header, hget, hlt (by decide), ?_, ?_, hread, ?_,
    by decide, ?_⟩
  · rw [h.file]
    decide
  · rw [h.file]
    decide
  · rw [h.file]
    exact .inl rfl
  · unfold newSize
    rw [h.file, h.root.free]
    decide

/-- What `write("/a")` of one byte leaves. -/
structure OneByteFile (s : Fs) : Prop where
  boot : s.ino 0 = bootInode
  header : s.ino 1 = headerInode
  table : s.ino 2 = systemInode 2048 9 1
  root : s.ino 3 = ⟨INO_DIRECTORY, 1, 111, ⟨10, 1⟩⟩
  file : s.ino 6 = ⟨0, 2, 1, ⟨11, 1⟩⟩
  maplen : s.maplen = 2048
  size : s.size = 2 ^ 20
  files : ∀ n < 7, n ≠ 3 → (s.ino n).flags &&& INO_DIRECTORY = 0
  rootContent : s.Contains 3 (dirContent fileEntries)
  content : s.Contains 6 [1]
  inv : Ownership.Inv (2 ^ 20 / 4096) s

/-- The store with one file. -/
def oneByte : Store := ⟨fun _ => [1], fun _ => 2⟩

theorem OneByteFile.represents (h : OneByteFile s) :
    Represents (2 ^ 20 / 4096) withFile (· = 6) (fun _ => 4096) s oneByte := by
  have htable : (s.ino 2).filesize = 2048 := by
    rw [h.table]
    rfl
  have hlt : ∀ {k : Nat}, k < 64 → k < (s.ino 2).filesize / 32 := fun hk => by omega
  have hread : ∀ k < 7, (s.ino k).flags &&& INO_EXTENT_INDIRECTION = 0 → (s.ino k).ext.length = 1 →
      (s.ino k).ext.startblock < 100 → (s.ino k).filesize ≤ 4096 → Readable s k := by
    intro k hk hd hl hb hf
    refine ⟨h.inv.mapped k (hlt (by omega)), hd, by omega, by omega, fun _ => by omega, fun _ => ?_⟩
    rw [h.size]
    omega
  have hroot : Readable s 3 :=
    hread 3 (by decide) (by rw [h.root]; decide) (by rw [h.root]) (by rw [h.root]; decide) (by rw [h.root]; decide)
  have hfile : Readable s 6 :=
    hread 6 (by decide) (by rw [h.file]; decide) (by rw [h.file]) (by rw [h.file]; decide) (by rw [h.file]; decide)
  refine ⟨⟨h.inv, by decide, front_of_system htable h.boot h.header, ?_, fun d hd hnone => ?_⟩,
    fun n hn => ?_, fun n hn => ?_, fun n hn => ?_, fun n hn => ?_⟩
  · exact withFile_tree h.table h.maplen (by rw [h.root]) h.files h.rootContent
  · rw [withFile_ne_none hnone, h.root]
    exact ⟨by decide, hroot⟩
  · subst hn
    refine ⟨hlt (by decide), ?_, ?_, hfile, ?_⟩
    · rw [h.file]
      decide
    · rw [h.file]
      decide
    · rw [h.file]
      decide
  · subst hn
    rw [h.file]
    rfl
  · subst hn
    exact contains_unique hfile.contains h.content
  · subst hn
    rw [h.file]
    rfl

end Rodvin.Starfs.FileStore
