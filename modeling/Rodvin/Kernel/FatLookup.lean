/-
  Rodvin.Kernel.FatLookup — `Vfs::lookup` on a FAT volume (`kernel/src/common/vfs.cpp` and
  `fat.cpp`), from the path to the bytes of the file.

  Here the directories are read from the disk, entry by entry, and the string of every name
  that is come to is made. An entry whose long name fills its slots, or that has none, has no
  terminator in `utf16buf`: its string goes on with what lies behind the buffer, up to a zero
  there (`Item.text`). `resolve` is what a path means in the directories, by the names as they
  are read; `lookup` gives that (`lookup_settles`), and a file that is found is read back from
  its clusters (`path_to_bytes`). What lies behind the buffer matters only where it makes one
  of the names looked for (`lookup_passes_over`).
-/

import Mathlib.Data.List.TakeWhile
import Rodvin.Lib.Fuel
import Rodvin.Kernel.Vfs
import Rodvin.Kernel.FatNames
import Rodvin.Kernel.FatFileProofs

namespace Rodvin.Kernel.FatLookup

open Rodvin.Lib Rodvin.Libc Rodvin.Libc.Path Rodvin.Kernel.Fat

/-! ## The code -/

/-- A directory entry and the string that is its name. -/
structure Entry where
  dirent : Fat.DirEntry
  name : Str

/-- `behind` is what lies behind `utf16buf` in the call that comes to an entry. -/
def readdir (fresh : Nat → Nat → UInt8) (behind : Fat.DirEntry → List UInt16) (d : FatDir) :
    Checked (Option Entry × FatDir) := do
  match ← Fat.readdir d with
  | (none, d) => return (none, d)
  | (some e, d) => do
    let name ← nameOver fresh (behind e) e
    return (some ⟨e, name⟩, d)

/-- `operator==` of strings compares their sizes and their bytes. -/
def same (name : Str) (filename : Text) : Bool := Str.bytes name = filename

/-- `while ((e = current->readdir()))`, for a name. -/
def readUntil (fresh : Nat → Nat → UInt8) (behind : Fat.DirEntry → List UInt16) (filename : Text) :
    Nat → FatDir → Checked (Option Fat.DirEntry)
  | 0, _ => .error .noReturn
  | turns + 1, current => do
    match ← readdir fresh behind current with
    | (none, _) => return none
    | (some e, current) =>
      if same e.name filename then return some e.dirent else readUntil fresh behind filename turns current

/-- The entry `lookup` makes for the root; all but its `inodeId` is what memory held. -/
def rootEntry (memory : Fat.DirEntry) : Fat.DirEntry := { memory with inodeId := 0xFFFFFFFF }

/-- `DirEntry::opendir`. -/
def openEntry (fat : FatFilesystem) (e : Fat.DirEntry) : FatDir :=
  if e.inodeId = 0xFFFFFFFF then openrootdir fat else opendir fat e

def directories (fresh : Nat → Nat → UInt8) (behind : Fat.DirEntry → List UInt16) (memory : Fat.DirEntry)
    (fat : FatFilesystem) (turns : Nat) : Vfs.Directories Fat.DirEntry FatDir where
  root := rootEntry memory
  openrootdir := openrootdir fat
  opendir := openEntry fat
  readUntil filename current := readUntil fresh behind filename turns current

def lookup (fresh : Nat → Nat → UInt8) (behind : Fat.DirEntry → List UInt16) (memory : Fat.DirEntry)
    (fat : FatFilesystem) (turns : Nat) (name : Text) : Checked (Option Fat.DirEntry) :=
  Vfs.lookupIn (directories fresh behind memory fat turns) name

/-! ## Directories on the disk -/

/-- An entry: its slots, and the units of its long name. -/
structure Item where
  long : List Slot
  short : Slot
  units : List UInt16

namespace Item

def slots (i : Item) : List Slot := i.long ++ [i.short]

def entry (i : Item) : Fat.DirEntry := toEntry i.short ((padded i.units).flatMap unitBytes)

def cluster (i : Item) : Nat := i.entry.inodeId

/-- It is stored as the format says; without a long name, as a short entry alone. -/
structure Stored (i : Item) : Prop where
  slots : StoredAs i.long i.short i.units
  length : i.units.length ≤ 255
  zero : 0 ∉ i.units

/-- The units up to the first zero: those of the name, and without a terminator in its last
    slot those behind the buffer. -/
def read (behind : Fat.DirEntry → List UInt16) (i : Item) : List UInt16 :=
  if i.units.length % 13 = 0 then i.units ++ (behind i.entry).takeWhile (· ≠ 0) else i.units

/-- The name as it is read. -/
def text (behind : Fat.DirEntry → List UInt16) (i : Item) : Text := Str.encoding (Str.utf16 (i.read behind))

end Item

/-- There is a zero behind the buffer, not too far behind it. -/
def EndsNear (behind : Fat.DirEntry → List UInt16) : Prop := ∀ e, 0 ∈ (behind e).take (2 ^ 16)

/-- The directory that begins at cluster `c` has these entries. -/
structure DirOn (disk : Disk) (c : Nat) (items : List Item) : Prop where
  stored : ∀ i ∈ items, i.Stored
  slots : ∃ cs last rest, IsChain disk (c :: cs) ∧
    dirSlots disk (c :: cs) = items.flatMap Item.slots ++ last :: rest ∧ last.name0 = 0

/-- The directories, by their first clusters. -/
def OnDisk (disk : Disk) (dirs : Nat → Option (List Item)) : Prop := ∀ c items, dirs c = some items → DirOn disk c items

/-- The search for a name. -/
def seek (behind : Fat.DirEntry → List UInt16) (filename : Text) (items : List Item) : Option Item :=
  items.find? fun i => i.text behind = filename

variable (dirs : Nat → Option (List Item)) (behind : Fat.DirEntry → List UInt16)

def entries (c : Nat) : List Item := (dirs c).getD []

/-- What components mean in the directory at `c`. -/
def resolve : Nat → List Text → Option Item
  | _, [] => none
  | c, [n] => seek behind n (entries dirs c)
  | c, n :: ns => (seek behind n (entries dirs c)).bind fun i => resolve i.cluster ns

/-- What is found before the last component is a directory. -/
def Passable : Nat → List Text → Prop
  | _, [] => True
  | _, [_] => True
  | c, n :: ns => ∀ i, seek behind n (entries dirs c) = some i → dirs i.cluster ≠ none ∧ Passable i.cluster ns

variable {dirs behind} {disk : Disk} {fresh : Nat → Nat → UInt8} {memory : Fat.DirEntry} {d d' : FatDir} {rest : List Nat}
  {i : Item} {items : List Item} {filename : Text} {ss : List Slot} {last : Slot} {c : Nat}

/-! ## One entry -/

/-- The entry is delivered, whether it has a long name or not. -/
theorem Item.Stored.readdir (h : i.Stored) (hrun : Run Delivers d i.slots d') :
    Fat.readdir d = .ok (some i.entry, d') := by
  by_cases hn : i.units = []
  · have hlong : i.long = [] := by
      have hlen := h.slots.length
      rw [hn] at hlen
      exact List.length_eq_zero_iff.mp hlen
    have hentry : i.entry = toEntry i.short [] := by
      unfold Item.entry
      rw [hn]
      rfl
    unfold Item.slots at hrun
    rw [hlong] at hrun
    cases hrun with
    | cons hnext hrun =>
      cases hrun
      have hnext : get_next_entry d = .ok (i.short, d') := hnext
      unfold Fat.readdir
      simp only [ok_bind hnext, if_neg (h.slots.inUse i.short (List.mem_cons_self ..))]
      unfold longNames
      rw [if_neg (isLong_iff.mpr.mt (by simp [h.slots.isShort])), hentry]
      rfl
  · exact readdir_longNames h.slots hn h.length hrun

/-- Its string is the name as it is read. -/
theorem Item.Stored.named (fresh : Nat → Nat → UInt8) (hb : EndsNear behind) (h : i.Stored) :
    ∃ s, nameOver fresh (behind i.entry) i.entry = .ok s ∧ Str.bytes s = i.text behind := by
  have hunits : Fat.units i.entry.name = padded i.units := by
    unfold Item.entry
    rw [toEntry_name, units_flatMap]
  have hlen := h.length
  unfold Item.text Item.read
  by_cases hn : i.units.length % 13 = 0
  · rw [if_pos hn]
    -- the name goes on behind the buffer
    have hzero : 0 ∈ behind i.entry := List.mem_of_mem_take (hb i.entry)
    obtain ⟨r, hr⟩ : ∃ r, behind i.entry = (behind i.entry).takeWhile (· ≠ 0) ++ 0 :: r := by
      have hsplit := (List.takeWhile_append_dropWhile (p := (· ≠ (0 : UInt16))) (l := behind i.entry)).symm
      cases hdrop : (behind i.entry).dropWhile (· ≠ 0) with
      | nil =>
        rw [hdrop, List.append_nil] at hsplit
        rw [hsplit] at hzero
        simpa using List.mem_takeWhile_imp hzero
      | cons x r =>
        have hx := List.head?_dropWhile_not (· ≠ (0 : UInt16)) (behind i.entry)
        rw [hdrop] at hx hsplit
        simp only [List.head?_cons, ne_eq, decide_not, Bool.not_eq_eq_eq_not, Bool.not_false, decide_eq_true_eq] at hx
        rw [hx] at hsplit
        exact ⟨r, hsplit⟩
    have hnear : ((behind i.entry).takeWhile (· ≠ 0)).length ≤ 2 ^ 16 := by
      by_contra hlong
      have hin := hb i.entry
      rw [hr, List.take_append_of_le_length (by omega)] at hin
      simpa using List.mem_takeWhile_imp (List.mem_of_mem_take hin)
    refine nameOver_terminated fresh (r := r) ?_ ?_ ?_
    · rw [hunits, padded, if_pos hn, List.append_assoc, ← hr]
    · intro hmem
      rcases List.mem_append.mp hmem with hmem | hmem
      · exact h.zero hmem
      · simpa using List.mem_takeWhile_imp hmem
    · rw [List.length_append]
      omega
  · rw [if_neg hn]
    refine nameOver_terminated fresh (r := List.replicate (12 - i.units.length % 13) 0xFFFF ++ behind i.entry) ?_ h.zero
      (by omega)
    rw [hunits, padded, if_neg hn, List.append_assoc]
    rfl

theorem readdir_last (fresh : Nat → Nat → UInt8) (behind : Fat.DirEntry → List UInt16) (h : WellFormed disk)
    (hd : DirAt disk d rest) (hr : remaining disk d rest = last :: ss) (h0 : last.name0 = 0) :
    ∃ d', FatLookup.readdir fresh behind d = .ok (none, d') := by
  obtain ⟨d', rest', hnext, -⟩ := getNext_spec h hd hr
  have hread : Fat.readdir d = .ok (none, d') := by
    unfold Fat.readdir
    simp only [ok_bind hnext, if_pos h0]
    rfl
  refine ⟨d', ?_⟩
  unfold FatLookup.readdir
  rw [ok_bind hread]
  rfl

/-! ## One directory -/

theorem seek_cons : seek behind filename (i :: items) =
    if i.text behind = filename then some i else seek behind filename items := by
  unfold seek
  rw [List.find?_cons]
  by_cases he : i.text behind = filename
  · rw [if_pos he, decide_eq_true he]
  · rw [if_neg he, decide_eq_false he]

theorem readUntil_settles (hb : EndsNear behind) (h : WellFormed disk) (hd : DirAt disk d rest)
    (hr : remaining disk d rest = items.flatMap Item.slots ++ last :: ss) (h0 : last.name0 = 0)
    (hi : ∀ i ∈ items, i.Stored) :
    Settles (fun turns => readUntil fresh behind filename turns d) (.ok ((seek behind filename items).map Item.entry)) := by
  induction items generalizing d rest with
  | nil =>
    obtain ⟨d', hlast⟩ := readdir_last fresh behind h hd hr h0
    have hturn : (fun turns => readUntil fresh behind filename (turns + 1) d) = fun _ => .ok none := by
      funext turns
      unfold readUntil
      rw [ok_bind hlast]
      rfl
    refine .succ nofun ?_
    rw [hturn]
    exact .const _
  | cons i items ih =>
    rw [List.flatMap_cons, List.append_assoc] at hr
    obtain ⟨d', rest', hrun, hd', hr'⟩ := delivers_remaining h hd hr
    have hstored := hi i (List.mem_cons_self ..)
    obtain ⟨s, hname, hbytes⟩ := hstored.named fresh hb
    have hrest := ih hd' hr' fun j hj => hi j (List.mem_cons_of_mem _ hj)
    have hread : FatLookup.readdir fresh behind d = .ok (some ⟨i.entry, s⟩, d') := by
      unfold FatLookup.readdir
      rw [ok_bind (hstored.readdir hrun)]
      show (nameOver fresh (behind i.entry) i.entry >>= _) = _
      rw [ok_bind hname]
      rfl
    have hturn : (fun turns => readUntil fresh behind filename (turns + 1) d) =
        fun turns => if i.text behind = filename then .ok (some i.entry) else readUntil fresh behind filename turns d' := by
      funext turns
      show (FatLookup.readdir fresh behind d >>= _) = _
      rw [ok_bind hread]
      refine if_congr ?_ rfl rfl
      unfold same
      rw [hbytes, decide_eq_true_iff]
    refine .succ nofun ?_
    rw [hturn, seek_cons]
    by_cases he : i.text behind = filename
    · simp only [if_pos he]
      exact .const _
    · simp only [if_neg he]
      exact hrest

/-- The search in a directory that is opened. -/
theorem DirOn.readUntil (fresh : Nat → Nat → UInt8) (filename : Text) (hb : EndsNear behind) (h : WellFormed disk)
    (hd : DirOn disk c items) :
    Settles (fun turns => readUntil fresh behind filename turns (FatDir.new (FatFilesystem.new disk) c))
      (.ok ((seek behind filename items).map Item.entry)) := by
  obtain ⟨cs, last, ss, hc, hs, h0⟩ := hd.slots
  exact readUntil_settles hb h (new_at rfl hc) ((remaining_new ..).trans hs) h0 hd.stored

/-! ## Paths -/

variable {n : Text} {ns : List Text}

/-- A directory that is there can be opened by its entry. -/
theorem DirOn.openEntry (h : WellFormed disk) (hd : DirOn disk i.cluster items) :
    openEntry (FatFilesystem.new disk) i.entry = FatDir.new (FatFilesystem.new disk) i.cluster := by
  obtain ⟨cs, last, ss, hc, -, -⟩ := hd.slots
  have hlt := (hc.valid i.cluster (List.mem_cons_self ..)).lt h
  unfold FatLookup.openEntry
  rw [if_neg (by
    intro he
    have hlt : i.entry.inodeId < endMark := hlt
    rw [he] at hlt
    exact absurd hlt (by decide))]
  rfl

theorem OnDisk.entries (hdisk : OnDisk disk dirs) (hc : dirs c ≠ none) : DirOn disk c (entries dirs c) := by
  obtain ⟨items, hitems⟩ := Option.ne_none_iff_exists'.mp hc
  unfold FatLookup.entries
  rw [hitems]
  exact hdisk c items hitems

/-- From component to component the search finds what they mean. -/
theorem follow_settles (fresh : Nat → Nat → UInt8) (memory : Fat.DirEntry) (hb : EndsNear behind) (h : WellFormed disk)
    (hdisk : OnDisk disk dirs) (hc : dirs c ≠ none) (hpass : Passable dirs behind c (n :: ns)) :
    Settles (fun turns => Vfs.follow (directories fresh behind memory (FatFilesystem.new disk) turns)
        (FatDir.new (FatFilesystem.new disk) c) (n :: ns))
      (.ok ((resolve dirs behind c (n :: ns)).map Item.entry)) := by
  induction ns generalizing c n with
  | nil => exact (hdisk.entries hc).readUntil fresh n hb h
  | cons n2 ns ih =>
    have hseek := (hdisk.entries hc).readUntil fresh n hb h
    have hres : Except.ok ((resolve dirs behind c (n :: n2 :: ns)).map Item.entry) =
        (Except.ok ((seek behind n (entries dirs c)).map Item.entry) : Checked _) >>= fun _ =>
          .ok (((seek behind n (entries dirs c)).bind fun i => resolve dirs behind i.cluster (n2 :: ns)).map Item.entry) := by
      rw [resolve]
      · rfl
      · exact List.cons_ne_nil _ _
    have hstep (turns : Nat) : Vfs.follow (directories fresh behind memory (FatFilesystem.new disk) turns)
          (FatDir.new (FatFilesystem.new disk) c) (n :: n2 :: ns) =
        readUntil fresh behind n turns (FatDir.new (FatFilesystem.new disk) c) >>= fun e =>
          match e with
          | none => pure none
          | some e => Vfs.follow (directories fresh behind memory (FatFilesystem.new disk) turns)
              (openEntry (FatFilesystem.new disk) e) (n2 :: ns) := by
      rw [Vfs.follow]
      · refine bind_congr fun e => ?_
        cases e with
        | none => rfl
        | some e => rfl
      · exact List.cons_ne_nil _ _
    simp only [hstep]
    rw [hres]
    refine hseek.bind fun e he => ?_
    cases hs : seek behind n (entries dirs c) with
    | none =>
      rw [hs] at he
      obtain rfl := Except.ok.inj he
      exact .const _
    | some i =>
      rw [hs] at he
      obtain rfl := Except.ok.inj he
      rw [Passable] at hpass
      · obtain ⟨hdir, hpass⟩ := hpass i hs
        show Settles (fun turns => Vfs.follow _ (FatLookup.openEntry _ i.entry) _) _
        rw [(hdisk.entries hdir).openEntry h]
        exact ih hdir hpass
      · exact List.cons_ne_nil _ _

theorem lookup_joined {fat : FatFilesystem} (fresh : Nat → Nat → UInt8) (memory : Fat.DirEntry) (hne : ns ≠ [])
    (hn : ∀ m ∈ ns, m ≠ [] ∧ slash ∉ m) :
    (fun turns => lookup fresh behind memory fat turns (joined slash ns)) = fun turns =>
      Vfs.follow (directories fresh behind memory fat turns) (openrootdir fat) ns := by
  obtain ⟨n, ns, rfl⟩ := List.exists_cons_of_ne_nil hne
  have hlast : Vfs.LastName ((n :: ns).getLast (List.cons_ne_nil _ _)) := by
    obtain ⟨h1, h2⟩ := hn _ (List.getLast_mem (List.cons_ne_nil n ns))
    obtain ⟨x, t, hx⟩ := List.exists_cons_of_ne_nil h1
    refine ⟨fun hm => h2 (List.dropLast_subset _ hm), x, t, hx, ?_⟩
    rintro rfl
    exact h2 (hx ▸ List.mem_cons_self)
  funext turns
  exact Vfs.lookupIn_joined n ns (fun b hb => hn b (List.dropLast_subset _ hb)) hlast

/-- `lookup` gives what the path means in the directories, by the names as they are read. -/
theorem lookup_settles (fresh : Nat → Nat → UInt8) (memory : Fat.DirEntry) (hb : EndsNear behind) (h : WellFormed disk)
    (hdisk : OnDisk disk dirs) (hroot : dirs (FatFilesystem.new disk).rootDirCluster ≠ none) (hne : ns ≠ [])
    (hn : ∀ m ∈ ns, m ≠ [] ∧ slash ∉ m) (hpass : Passable dirs behind (FatFilesystem.new disk).rootDirCluster ns) :
    Settles (fun turns => lookup fresh behind memory (FatFilesystem.new disk) turns (joined slash ns))
      (.ok ((resolve dirs behind (FatFilesystem.new disk).rootDirCluster ns).map Item.entry)) := by
  obtain ⟨n, ns, rfl⟩ := List.exists_cons_of_ne_nil hne
  rw [lookup_joined fresh memory hne hn]
  exact follow_settles fresh memory hb h hdisk hroot hpass

/-- A file that a path leads to is found, opened and read: the bytes are those of its clusters. -/
theorem path_to_bytes {cs : List Nat} (fresh : Nat → Nat → UInt8) (memory : Fat.DirEntry) (hb : EndsNear behind)
    (h : WellFormed disk) (hdisk : OnDisk disk dirs)
    (hroot : dirs (FatFilesystem.new disk).rootDirCluster ≠ none) (hne : ns ≠ []) (hn : ∀ m ∈ ns, m ≠ [] ∧ slash ∉ m)
    (hpass : Passable dirs behind (FatFilesystem.new disk).rootDirCluster ns)
    (hi : resolve dirs behind (FatFilesystem.new disk).rootDirCluster ns = some i) (hc : IsChain disk cs)
    (hfirst : ∀ c ∈ cs.head?, i.cluster = c) (hsize : i.entry.size ≤ cs.length * clusterSize disk) (amounts : List Nat)
    (hsum : amounts.sum ≤ i.entry.size) :
    ∃ bound, ∀ turns ≥ bound, ∃ e rs,
      lookup fresh behind memory (FatFilesystem.new disk) turns (joined slash ns) = .ok (some e) ∧
      readMany (openFile (FatFilesystem.new disk) e) amounts = .ok rs ∧ rs.map Prod.fst = amounts ∧
      (rs.flatMap fun r => r.2.1) = (content disk cs).take amounts.sum := by
  obtain ⟨n, ns, rfl⟩ := List.exists_cons_of_ne_nil hne
  have hsettles : Settles (fun turns => lookup fresh behind memory (FatFilesystem.new disk) turns (joined slash (n :: ns)))
      (.ok (some i.entry)) := by
    rw [lookup_joined fresh memory hne hn]
    have h := follow_settles fresh memory hb h hdisk hroot hpass
    rwa [hi] at h
  obtain ⟨bound, hbound⟩ := hsettles.gives _ rfl
  obtain ⟨rs, hrs, h1, -, h2, -⟩ := sequential_reads h hc hfirst hsize amounts hsum
  exact ⟨bound, fun turns ht => ⟨i.entry, rs, hbound turns ht, hrs, h1, h2⟩⟩

/-! ## Entries without a terminator -/

/-- The entries whose names end in their slots. -/
def terminated (items : List Item) : List Item := items.filter fun i => i.units.length % 13 ≠ 0

/-- The directories without the others. -/
def onlyTerminated (dirs : Nat → Option (List Item)) (c : Nat) : Option (List Item) := (dirs c).map terminated

theorem entries_onlyTerminated (c : Nat) : entries (onlyTerminated dirs) c = terminated (entries dirs c) := by
  unfold entries onlyTerminated
  cases dirs c with
  | none => rfl
  | some items => rfl

/-- Where no name that goes on behind the buffer is the one looked for, only the others count,
    whatever lies there. -/
theorem seek_terminated (other : Fat.DirEntry → List UInt16)
    (h : ∀ i ∈ items, i.units.length % 13 = 0 → i.text behind ≠ filename) :
    seek behind filename items = seek other filename (terminated items) := by
  induction items with
  | nil => rfl
  | cons i items ih =>
    have ih := ih fun j hj => h j (List.mem_cons_of_mem _ hj)
    unfold terminated at ih ⊢
    by_cases hi : i.units.length % 13 = 0
    · rw [List.filter_cons_of_neg (by simpa using hi), seek_cons, if_neg (h i List.mem_cons_self hi), ih]
    · have htext : i.text behind = i.text other := by
        unfold Item.text Item.read
        rw [if_neg hi, if_neg hi]
      rw [List.filter_cons_of_pos (by simpa using hi), seek_cons, seek_cons, htext, ih]

theorem resolve_terminated (other : Fat.DirEntry → List UInt16)
    (h : ∀ c, ∀ i ∈ entries dirs c, i.units.length % 13 = 0 → i.text behind ∉ ns) (c : Nat) :
    resolve dirs behind c ns = resolve (onlyTerminated dirs) other c ns := by
  induction ns generalizing c with
  | nil => rfl
  | cons n ns ih =>
    have hseek : seek behind n (entries dirs c) = seek other n (entries (onlyTerminated dirs) c) := by
      rw [entries_onlyTerminated]
      exact seek_terminated other fun i hi hn he => h c i hi hn (he ▸ List.mem_cons_self)
    cases ns with
    | nil => exact hseek
    | cons m ns =>
      show (seek behind n (entries dirs c)).bind _ = (seek other n (entries (onlyTerminated dirs) c)).bind _
      rw [hseek]
      exact congrArg _ (funext fun i => ih (fun c i hi hn hm => h c i hi hn (List.mem_cons_of_mem _ hm)) i.cluster)

/-- `.` and `..`, and all that fill their slots, are passed over, unless what lies behind the buffer
    happens to make a component of their names. -/
theorem lookup_passes_over (fresh : Nat → Nat → UInt8) (memory : Fat.DirEntry) (other : Fat.DirEntry → List UInt16)
    (hb : EndsNear behind) (h : WellFormed disk) (hdisk : OnDisk disk dirs)
    (hroot : dirs (FatFilesystem.new disk).rootDirCluster ≠ none) (hne : ns ≠ []) (hn : ∀ m ∈ ns, m ≠ [] ∧ slash ∉ m)
    (hpass : Passable dirs behind (FatFilesystem.new disk).rootDirCluster ns)
    (hother : ∀ c, ∀ i ∈ entries dirs c, i.units.length % 13 = 0 → i.text behind ∉ ns) :
    Settles (fun turns => lookup fresh behind memory (FatFilesystem.new disk) turns (joined slash ns))
      (.ok ((resolve (onlyTerminated dirs) other (FatFilesystem.new disk).rootDirCluster ns).map Item.entry)) := by
  obtain ⟨n, ns, rfl⟩ := List.exists_cons_of_ne_nil hne
  rw [← resolve_terminated other hother, lookup_joined fresh memory hne hn]
  exact follow_settles fresh memory hb h hdisk hroot hpass

/-! ## A volume with a file and a directory -/

/-- A directory that has these entries, by its first slots. -/
theorem dirOn_of_take {cs : List Nat} {items : List Item} {k : Nat} (hi : ∀ i ∈ items, i.Stored)
    (hc : IsChain disk (c :: cs))
    (htake : (dirSlots disk (c :: cs)).take k = items.flatMap Item.slots)
    (hlast : ((dirSlots disk (c :: cs)).drop k).head?.map Slot.name0 = some 0) : DirOn disk c items := by
  refine ⟨hi, cs, ?_⟩
  obtain ⟨last, hhead, h0⟩ := Option.map_eq_some_iff.mp hlast
  obtain ⟨rest, hrest⟩ := List.head?_eq_some_iff.mp hhead
  refine ⟨last, rest, hc, ?_, h0⟩
  rw [← hrest, ← htake, List.take_append_drop]

/-- A directory at cluster 4. -/
def subSlot : Slot := List.replicate 11 0x41 ++ 0x10 :: (List.replicate 14 0 ++ [4, 0, 0, 0, 0, 0])

/-- Its entry for itself. -/
def dotSlot : Slot := 0x2E :: List.replicate 10 0x20 ++ 0x10 :: (List.replicate 14 0 ++ [4, 0, 0, 0, 0, 0])

/-- A file of 600 bytes at cluster 2. -/
def fileSlot : Slot := List.replicate 11 0x42 ++ 0x20 :: (List.replicate 14 0 ++ [2, 0, 0x58, 2, 0, 0])

def subItem : Item := ⟨[lastSlot (padded [0x61])], subSlot, [0x61]⟩

def dotItem : Item := ⟨[], dotSlot, []⟩

/-- "b", which is the root directory read as a file. -/
def fileItem : Item := ⟨[lastSlot (padded [0x62])], fileSlot, [0x62]⟩

def subItems : List Item := [dotItem, fileItem]

def sampleVolume : Disk :=
  splice
    (splice (splice smallVolume (512 * 1056) subItem.slots.flatten) (512 * 32 + 16) (le 4 0xFFFFFFF))
    (512 * 1058) (subItems.flatMap Item.slots).flatten

def sampleDirs (c : Nat) : Option (List Item) :=
  if c = 2 then some [subItem] else if c = 4 then some subItems else none

/-- "x" behind the buffer, which is so the name of `.`. -/
def sampleBehind (_ : Fat.DirEntry) : List UInt16 := [0x78, 0]

theorem sample_endsNear : EndsNear sampleBehind := fun _ => by simp [sampleBehind]

theorem sample_evaluates :
    ((FatFilesystem.new sampleVolume).fat_version = .Fat32 ∧ 0 < clusterSectors sampleVolume ∧
      dataStart sampleVolume ≤ sectorsOf (bootOf sampleVolume) ∧ (FatFilesystem.new sampleVolume).rootDirCluster = 2) ∧
    ((∀ c ∈ [2, 3, 4],
        dataStart sampleVolume + (c - 1) * clusterSectors sampleVolume ≤ sectorsOf (bootOf sampleVolume)) ∧
      fatEntry sampleVolume 2 = 3 ∧ endMark ≤ fatEntry sampleVolume 3 ∧ endMark ≤ fatEntry sampleVolume 4) ∧
    (∀ i ∈ [subItem, fileItem, dotItem], (∀ s ∈ i.long, s.length = 32 ∧ s.isLong = true) ∧
      (∀ s ∈ i.short :: i.long, s.name0 ≠ 0) ∧ i.short.isLong = false ∧
      i.long.reverse.flatMap Slot.utfdata = (padded i.units).flatMap unitBytes) ∧
    ((dirSlots sampleVolume [2, 3]).take 2 = [subItem].flatMap Item.slots ∧
      ((dirSlots sampleVolume [2, 3]).drop 2).head?.map Slot.name0 = some 0) ∧
    ((dirSlots sampleVolume [4]).take 3 = subItems.flatMap Item.slots ∧
      ((dirSlots sampleVolume [4]).drop 3).head?.map Slot.name0 = some 0) ∧
    (subItem.cluster = 4 ∧ fileItem.cluster = 2 ∧ fileItem.entry.size = 600 ∧ clusterSize sampleVolume = 512) := by
  decide +kernel

theorem sample_wellFormed : WellFormed sampleVolume :=
  have ⟨hfat, hclusters, htables, _⟩ := sample_evaluates.1
  ⟨hfat, hclusters, htables⟩

theorem sample_root : (FatFilesystem.new sampleVolume).rootDirCluster = 2 := sample_evaluates.1.2.2.2

theorem sample_chain : IsChain sampleVolume [2, 3] := by
  obtain ⟨-, ⟨hfits, hnext, hend, -⟩, -⟩ := sample_evaluates
  exact ⟨⟨by decide, hfits 2 (by decide)⟩, hnext, ⟨by decide, hfits 3 (by decide)⟩, hend⟩

theorem sample_stored {i : Item} (hi : i ∈ [subItem, fileItem, dotItem]) (hlength : i.units.length ≤ 255)
    (hzero : 0 ∉ i.units) : i.Stored := by
  obtain ⟨hlong, huse, hshort, hunits⟩ := sample_evaluates.2.2.1 i hi
  exact ⟨⟨fun s hs => (hlong s hs).1, fun s hs => (hlong s hs).2, huse, hshort, hunits⟩, hlength, hzero⟩

theorem sample_dirs : OnDisk sampleVolume sampleDirs := by
  intro c items hc
  obtain ⟨-, ⟨hfits, -, -, hend⟩, -, ⟨htake, hlast⟩, ⟨htake4, hlast4⟩, -⟩ := sample_evaluates
  unfold sampleDirs at hc
  split at hc
  next h2 =>
    subst h2
    obtain rfl := Option.some.inj hc
    refine dirOn_of_take (fun i hi => ?_) sample_chain htake hlast
    obtain rfl := List.mem_singleton.mp hi
    exact sample_stored (by simp) (by decide) (by decide)
  next =>
    split at hc
    next h4 =>
      subst h4
      obtain rfl := Option.some.inj hc
      have hchain : IsChain sampleVolume [4] := ⟨⟨by decide, hfits 4 (by decide)⟩, hend⟩
      refine dirOn_of_take (fun i hi => ?_) hchain htake4 hlast4
      rcases List.mem_pair.mp hi with rfl | rfl
      · exact sample_stored (by simp) (by decide) (by decide)
      · exact sample_stored (by simp) (by decide) (by decide)
    next => cases hc

theorem sample_not_root : sampleDirs (FatFilesystem.new sampleVolume).rootDirCluster ≠ none := by
  rw [sample_root]
  exact nofun

/-- `/a/b`. -/
def samplePath : List Text := [[0x61], [0x62]]

/-- What its components are found to be. -/
theorem sample_seek : seek sampleBehind [0x61] (entries sampleDirs 2) = some subItem ∧
    seek sampleBehind [0x62] (entries sampleDirs 4) = some fileItem := by
  have ha : subItem.text sampleBehind = [0x61] := by decide
  have hx : dotItem.text sampleBehind ≠ [0x62] := by decide
  have hb : fileItem.text sampleBehind = [0x62] := by decide
  have h2 : entries sampleDirs 2 = [subItem] := rfl
  have h4 : entries sampleDirs 4 = [dotItem, fileItem] := rfl
  rw [h2, h4, seek_cons, if_pos ha, seek_cons, if_neg hx, seek_cons, if_pos hb]
  exact ⟨rfl, rfl⟩

theorem sample_passable : Passable sampleDirs sampleBehind (FatFilesystem.new sampleVolume).rootDirCluster samplePath := by
  rw [sample_root]
  intro i hi
  obtain rfl := Option.some.inj (sample_seek.1.symm.trans hi)
  rw [sample_evaluates.2.2.2.2.2.1]
  exact ⟨nofun, trivial⟩

theorem sample_resolve :
    resolve sampleDirs sampleBehind (FatFilesystem.new sampleVolume).rootDirCluster samplePath = some fileItem := by
  rw [sample_root]
  show (seek sampleBehind [0x61] (entries sampleDirs 2)).bind _ = _
  rw [sample_seek.1, Option.bind_some, sample_evaluates.2.2.2.2.2.1]
  exact sample_seek.2

/-- `/a/b` is found behind `.`, once the search has turns enough. -/
theorem lookup_settles_small : Settles
    (fun turns => lookup (fun _ _ => 0) sampleBehind ⟨0, false, 0, []⟩ (FatFilesystem.new sampleVolume) turns
      (joined slash samplePath)) (.ok (some fileItem.entry)) := by
  have h := lookup_settles (fun _ _ => 0) ⟨0, false, 0, []⟩ sample_endsNear sample_wellFormed sample_dirs sample_not_root
    (show samplePath ≠ [] from List.cons_ne_nil _ _) (by decide) sample_passable
  rw [sample_resolve] at h
  exact h

/-- The same with nothing but zeros behind the buffer. -/
theorem lookup_passes_over_dot : Settles
    (fun turns => lookup (fun _ _ => 0) sampleBehind ⟨0, false, 0, []⟩ (FatFilesystem.new sampleVolume) turns
      (joined slash samplePath))
    (.ok ((resolve (onlyTerminated sampleDirs) (fun _ => [0]) 2 samplePath).map Item.entry)) := by
  have hx : ∀ c, ∀ i ∈ entries sampleDirs c, i.units.length % 13 = 0 → i.text sampleBehind ∉ samplePath := by
    intro c i hi hn
    unfold entries sampleDirs at hi
    split at hi
    · obtain rfl := List.mem_singleton.mp hi
      exact absurd hn (by decide)
    · split at hi
      · rcases List.mem_pair.mp hi with rfl | rfl
        · decide
        · exact absurd hn (by decide)
      · cases hi
  have h := lookup_passes_over (fun _ _ => 0) ⟨0, false, 0, []⟩ (fun _ => [0]) sample_endsNear sample_wellFormed sample_dirs
    sample_not_root (show samplePath ≠ [] from List.cons_ne_nil _ _) (by decide) sample_passable hx
  rwa [sample_root] at h

/-- Its bytes are read in two parts. -/
theorem path_to_bytes_small : ∃ bound, ∀ turns ≥ bound, ∃ e rs,
    lookup (fun _ _ => 0) sampleBehind ⟨0, false, 0, []⟩ (FatFilesystem.new sampleVolume) turns (joined slash samplePath) =
        .ok (some e) ∧
      readMany (openFile (FatFilesystem.new sampleVolume) e) [100, 500] = .ok rs ∧ rs.map Prod.fst = [100, 500] ∧
      (rs.flatMap fun r => r.2.1) = (content sampleVolume [2, 3]).take (List.sum [100, 500]) := by
  obtain ⟨-, hcluster, hsize, hclusterSize⟩ := sample_evaluates.2.2.2.2.2
  refine path_to_bytes (fun _ _ => 0) ⟨0, false, 0, []⟩ sample_endsNear sample_wellFormed sample_dirs sample_not_root
    (List.cons_ne_nil _ _) (by decide) sample_passable sample_resolve sample_chain
    (fun c hc => hcluster.trans (Option.some.inj hc)) ?_ [100, 500] ?_
  · rw [hsize, hclusterSize]
    decide
  · rw [hsize]
    decide

end Rodvin.Kernel.FatLookup
