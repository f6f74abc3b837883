/-
  Rodvin.Boot.BootSector — `ReadFile` and `ReadCluster`
  (`boot/bootsector/bootsector.asm`).

  The level is that of clusters: `ReadCluster` stores a cluster at `ES:BX` (`stores` is the
  list of these, oldest first), and what it finds in the FAT is the number of the next one.
  It looks that up at `[es:si]`, where the FAT sector stands only when `BX` is 0; for another
  `BX` the word is what the memory there holds (`elsewhere`). The stack is a list of words,
  the top first; of the flags only the carry is kept. A jump to `ErrFind` or `ErrRead`, which
  are one place, ends in a halt.

  Proved: on a well-formed volume a call loads the file with the name, or ends at `ErrFind`
  where there is none, exactly when the first cluster of the root directory decides the
  search or is its only one, and the file has a cluster and its chain is found at `[es:si]`
  (`read_file_correct_iff`). `RootDirReadContinue` starts with the first cluster again, so
  a search that goes on behind it never ends.
-/

import Mathlib.Data.List.Basic

namespace Rodvin.Boot.BootSector

/-! ## The volume and the machine -/

/-- A slot of a directory: its name, and the fields at `14h`, `1Ah` and `1Ch`. -/
structure Entry where
  name : List UInt8
  clusterHigh : UInt16
  clusterLow : UInt16
  size : UInt32
  deriving DecidableEq, Repr

structure Store where
  es : UInt16
  bx : UInt16
  cluster : UInt32
  deriving DecidableEq, Repr

/-- What the BPB says, what the FAT and the clusters hold, which clusters the BIOS can read, and
    what stands at `[es:si]` when `BX` is not 0. -/
structure Volume where
  bytesPerSector : UInt16
  sectorsPerCluster : UInt8
  next : UInt32 → UInt32
  entries : UInt32 → List Entry
  readable : UInt32 → Bool
  elsewhere : List Store → UInt16 → UInt16 → UInt32 → UInt32

/-- `names` are the 11 bytes at each offset of `DS`. -/
structure Machine where
  es : UInt16
  bx : UInt16
  bp : UInt16
  esi : UInt32
  cf : Bool
  stack : List UInt16
  stores : List Store
  rootCluster : UInt32
  names : UInt16 → List UInt8

/-- A doubleword of two words. -/
def join (low high : UInt16) : UInt32 := UInt32.ofNat (low.toNat + 65536 * high.toNat)

def low (x : UInt32) : UInt16 := UInt16.ofNat x.toNat

def high (x : UInt32) : UInt16 := UInt16.ofNat (x.toNat / 65536)

namespace Machine

def push (w : UInt16) (m : Machine) : Machine := { m with stack := w :: m.stack }

def push32 (x : UInt32) (m : Machine) : Machine := (m.push (high x)).push (low x)

def pop (m : Machine) : UInt16 × Machine := (m.stack.headD 0, { m with stack := m.stack.tail })

def pop32 (m : Machine) : UInt32 × Machine :=
  let (l, m) := m.pop
  let (h, m) := m.pop
  (join l h, m)

def popBp (m : Machine) : Machine := { m.pop.2 with bp := m.pop.1 }

def popBx (m : Machine) : Machine := { m.pop.2 with bx := m.pop.1 }

def popEs (m : Machine) : Machine := { m.pop.2 with es := m.pop.1 }

def popEsi (m : Machine) : Machine := { m.pop32.2 with esi := m.pop32.1 }

def pushf (m : Machine) : Machine := m.push (if m.cf then 1 else 0)

def popf (m : Machine) : Machine := { m.pop.2 with cf := m.pop.1 = 1 }

end Machine

/-! ## The code -/

/-- Below it, a word of the FAT is the number of a cluster that follows. -/
def endOfChain : UInt32 := 0x0FFFFFF8

/-- Paragraphs in a cluster. -/
def Volume.paragraphs (v : Volume) : UInt16 := (v.bytesPerSector >>> 4) * v.sectorsPerCluster.toUInt16

/-- The word that `ReadCluster` takes for the next cluster. -/
def Volume.lookup (v : Volume) (stores : List Store) (es bx : UInt16) (cluster : UInt32) : UInt32 :=
  if bx = 0 then v.next cluster else v.elsewhere stores es bx cluster

/-- `none`: a jump to `ErrRead`. -/
def readCluster (v : Volume) (m : Machine) : Option Machine :=
  if v.readable m.esi then
    let esi := v.lookup m.stores m.es m.bx m.esi
    some { m with
      bp := low ((m.esi - 2) * v.sectorsPerCluster.toUInt32)
      esi := esi
      es := m.es + v.paragraphs
      cf := esi < endOfChain
      stores := m.stores ++ [⟨m.es, m.bx, m.esi⟩] }
  else none

/-- The slots of the cluster that was stored at `es:0` last. -/
def slotsAt (v : Volume) (m : Machine) : List Entry :=
  match m.stores.reverse.find? fun s => s.es = m.es ∧ s.bx = 0 with
  | some s => v.entries s.cluster
  | none => []

inductive Search where
  | null
  | found (e : Entry)
  | exhausted
  deriving DecidableEq, Repr

/-- A slot that ends the directory. -/
def Entry.Null (e : Entry) : Prop := e.name.headD 0 = 0

instance (e : Entry) : Decidable e.Null := inferInstanceAs (Decidable (_ = _))

/-- The loop of `FindName`; `dx` is the number of slots of a cluster, which has at most 32 KB. -/
def findName (name : List UInt8) : List Entry → Search
  | [] => .exhausted
  | e :: slots => if e.Null then .null else if e.name = name then .found e else findName name slots

inductive Round where
  | again (m : Machine)
  | found (m : Machine)
  | error

/-- From `FindName` on, with a cluster of the directory at `9000h:0`. -/
def searchCluster (v : Volume) (m : Machine) : Round :=
  match findName (m.names m.bp) (slotsAt v m) with
  | .null => .error
  | .exhausted =>
    let m := m.popf.popEsi
    if m.cf then .again m else .error
  | .found e =>
    let m := m.popf.popEsi
    let m := ((m.push e.clusterHigh).push e.clusterLow).popEsi
    let m := m.popBx.popEs
    .found (m.push32 e.size)

/-- From `RootDirReadContinue` to the next jump there, to `FileReadContinue`, or to `ErrFind`. -/
def rootDirReadContinue (v : Volume) (m : Machine) : Round :=
  let m := { m with rootCluster := m.rootCluster &&& 0x0FFFFFFF }
  let m := { m with esi := m.rootCluster }
  let m := (m.push m.es).push m.bx
  let m := { m with es := 0x9000, bx := 0 }
  match readCluster v (m.push m.bp) with
  | none => .error
  | some m =>
    let m := m.popBp
    let m := (m.push32 m.esi).pushf
    searchCluster v { m with es := 0x9000 }

/-- `ret` pops where it returns to; `eax` was popped before. -/
inductive Outcome where
  | returned (ip : UInt16) (eax : UInt32) (m : Machine)
  | error

def fileReadContinue (v : Volume) : Nat → Machine → Option Outcome
  | 0, _ => none
  | fuel + 1, m =>
    match readCluster v m with
    | none => some .error
    | some m =>
      if m.cf then fileReadContinue v fuel m
      else
        let (eax, m) := m.pop32
        let (ip, m) := m.pop
        some (.returned ip eax m)

/-- `ReadFile`, in at most as many rounds of its loops as there is fuel. -/
def readFile (v : Volume) : Nat → Machine → Option Outcome
  | 0, _ => none
  | fuel + 1, m =>
    match rootDirReadContinue v m with
    | .again m => readFile v fuel m
    | .found m => fileReadContinue v fuel m
    | .error => some .error

/-! ## What a call should do -/

/-- A chain of clusters that the FAT links, to its end. -/
def IsChain (v : Volume) : List UInt32 → Prop
  | [] => False
  | [c] => 2 ≤ c ∧ v.readable c ∧ endOfChain ≤ v.next c
  | c :: d :: cs => 2 ≤ c ∧ v.readable c ∧ v.next c = d ∧ d < endOfChain ∧ IsChain v (d :: cs)

/-- The number of the first cluster of the root directory, masked. -/
def root (m : Machine) : UInt32 := m.rootCluster &&& 0x0FFFFFFF

/-- The clusters of the root directory. -/
structure IsDirectory (v : Volume) (m : Machine) (dir : List UInt32) : Prop where
  chain : IsChain v dir
  head : dir.head? = some (root m)

/-- The slot with the name before the end of the directory. -/
def named (name : List UInt8) (slots : List Entry) : Option Entry :=
  (slots.takeWhile fun e => ¬ e.Null).find? fun e => e.name = name

def Entry.cluster (e : Entry) : UInt32 := join e.clusterLow e.clusterHigh

/-- The clusters of a file: none, or a chain of its own that starts where its slot says. -/
def IsFile (v : Volume) (dir : List UInt32) (e : Entry) (file : List UInt32) : Prop :=
  e.cluster = 0 ∧ file = [] ∨ IsChain v file ∧ file.head? = some e.cluster ∧ ∀ c ∈ file, c ∉ dir

/-- Clusters one behind the other from `es:bx` on. -/
def storesFrom (v : Volume) (bx : UInt16) : UInt16 → List UInt32 → List Store
  | _, [] => []
  | es, c :: cs => ⟨es, bx, c⟩ :: storesFrom v bx (es + v.paragraphs) cs

/-- The call returns the size, leaves the stack as it was, and has stored the clusters of the file
    from `ES:BX` on, behind what it has read of the directory. -/
def Loads (v : Volume) (dir : List UInt32) (ip : UInt16) (m : Machine) (e : Entry) (file : List UInt32) : Prop :=
  ∃ fuel m', readFile v fuel (m.push ip) = some (.returned ip e.size m') ∧ m'.stack = m.stack ∧
    ∃ reads : List Store, (∀ s ∈ reads, s.es = 0x9000 ∧ s.bx = 0 ∧ s.cluster ∈ dir) ∧
      m'.stores = m.stores ++ reads ++ storesFrom v m.bx m.es file

/-- A call from `ip`: the file with the name is loaded, and where there is none, `ErrFind` is reached. -/
def Correct (v : Volume) (dir : List UInt32) (files : Entry → List UInt32) (ip : UInt16) (m : Machine) : Prop :=
  match named (m.names m.bp) (dir.flatMap v.entries) with
  | some e => Loads v dir ip m e (files e)
  | none => ∃ fuel, readFile v fuel (m.push ip) = some .error

/-- The search ends in the first cluster, or there is no other. -/
def Decided (v : Volume) (dir : List UInt32) (m : Machine) : Prop :=
  findName (m.names m.bp) (v.entries (root m)) ≠ .exhausted ∨ dir.length = 1

/-- The file has a cluster, and the words that are looked up are its chain. -/
def Follows (v : Volume) (bx : UInt16) : List Store → UInt16 → List UInt32 → Prop
  | _, _, [] => False
  | stores, es, [c] => endOfChain ≤ v.lookup stores es bx c
  | stores, es, c :: d :: cs => v.lookup stores es bx c = d ∧
      Follows v bx (stores ++ [⟨es, bx, c⟩]) (es + v.paragraphs) (d :: cs)

/-- When the call does what it should. -/
def Meets (v : Volume) (dir : List UInt32) (files : Entry → List UInt32) (m : Machine) : Prop :=
  Decided v dir m ∧ ∀ e, named (m.names m.bp) (dir.flatMap v.entries) = some e →
    Follows v m.bx (m.stores ++ [⟨0x9000, 0, root m⟩]) m.es (files e)

/-! ## The stack -/

variable {v : Volume} {m m' : Machine} {e : Entry} {dir file cs : List UInt32} {files : Entry → List UInt32} {ip w : UInt16}
  {c : UInt32} {name : List UInt8} {slots more : List Entry} {fuel : Nat}

theorem join_words (x : UInt32) : join (low x) (high x) = x := by
  refine UInt32.toNat_inj.mp ?_
  have hx : x.toNat < 4294967296 := x.toNat_lt
  have hl : (low x).toNat = x.toNat % 65536 := UInt16.toNat_ofNat'
  have hh : (high x).toNat = x.toNat / 65536 := UInt16.toNat_ofNat_of_lt' (show x.toNat / 65536 < 65536 by omega)
  have hsum : (low x).toNat + 65536 * (high x).toNat = x.toNat := by rw [hl, hh, Nat.mod_add_div]
  unfold join
  rw [hsum]
  exact UInt32.toNat_ofNat_of_lt' hx

theorem popEsi_push32 (x : UInt32) (m : Machine) : (m.push32 x).popEsi = { m with esi := x } := by
  show ({ m with esi := join (low x) (high x) } : Machine) = _
  rw [join_words]

theorem popf_pushf (m : Machine) : m.pushf.popf = m := by
  unfold Machine.pushf
  cases h : m.cf with
  | true => exact congrArg (fun b => ({ m with cf := b } : Machine)) h.symm
  | false => exact congrArg (fun b => ({ m with cf := b } : Machine)) h.symm

/-! ## One round -/

theorem slotsAt_last {stores : List Store} (h : m.stores = stores ++ [⟨m.es, 0, c⟩]) : slotsAt v m = v.entries c := by
  unfold slotsAt
  rw [h, List.reverse_append, List.reverse_singleton, List.singleton_append, List.find?_cons_of_pos (by simp)]

/-- The machine that has read the first cluster, with `es` and `bx` on its stack. -/
def fetched (v : Volume) (m : Machine) : Machine :=
  { m with es := 0x9000, bx := 0, esi := v.next (root m), cf := v.next (root m) < endOfChain
           stack := m.bx :: m.es :: m.stack, rootCluster := root m, stores := m.stores ++ [⟨0x9000, 0, root m⟩] }

theorem round_eq (hr : v.readable (root m)) : rootDirReadContinue v m =
    match findName (m.names m.bp) (v.entries (root m)) with
    | .null => .error
    | .exhausted => if (fetched v m).cf then .again (fetched v m) else .error
    | .found e => .found ({ fetched v m with es := m.es, bx := m.bx, esi := e.cluster, stack := m.stack }.push32 e.size) := by
  have hread (m' : Machine) (he : m'.esi = root m) (hb : m'.bx = 0) : readCluster v m' = some { m' with
      bp := low ((m'.esi - 2) * v.sectorsPerCluster.toUInt32), esi := v.next (root m), es := m'.es + v.paragraphs
      cf := v.next (root m) < endOfChain, stores := m'.stores ++ [⟨m'.es, 0, root m⟩] } := by
    unfold readCluster Volume.lookup
    rw [he, hb, if_pos hr, if_pos rfl]
  have hpops : ((fetched v m).push32 (v.next (root m))).pushf.popf.popEsi = fetched v m := by
    rw [popf_pushf, popEsi_push32]
    rfl
  unfold rootDirReadContinue
  simp only
  rw [hread _ rfl rfl]
  change searchCluster v ((fetched v m).push32 (v.next (root m))).pushf = _
  unfold searchCluster
  rw [hpops, slotsAt_last (c := root m) rfl]
  rfl

/-! ## The search -/

theorem named_found (h : findName name slots = .found e) (more : List Entry) : named name (slots ++ more) = some e := by
  induction slots with
  | nil => exact nomatch h
  | cons d slots ih =>
    unfold findName at h
    by_cases hnull : d.Null
    · rw [if_pos hnull] at h
      exact nomatch h
    · rw [if_neg hnull] at h
      unfold named
      rw [List.cons_append, List.takeWhile_cons_of_pos (by simpa using hnull)]
      by_cases hname : d.name = name
      · rw [if_pos hname] at h
        rw [List.find?_cons_of_pos (by simpa using hname), Search.found.inj h]
      · rw [if_neg hname] at h
        rw [List.find?_cons_of_neg (by simpa using hname)]
        exact ih h

theorem named_null (h : findName name slots = .null) (more : List Entry) : named name (slots ++ more) = none := by
  induction slots with
  | nil => exact nomatch h
  | cons d slots ih =>
    unfold findName at h
    unfold named
    by_cases hnull : d.Null
    · rw [List.cons_append, List.takeWhile_cons_of_neg (by simpa using hnull)]
      rfl
    · rw [if_neg hnull] at h
      rw [List.cons_append, List.takeWhile_cons_of_pos (by simpa using hnull)]
      by_cases hname : d.name = name
      · rw [if_pos hname] at h
        exact nomatch h
      · rw [if_neg hname] at h
        rw [List.find?_cons_of_neg (by simpa using hname)]
        exact ih h

theorem named_exhausted (h : findName name slots = .exhausted) : named name slots = none := by
  induction slots with
  | nil => rfl
  | cons d slots ih =>
    unfold findName at h
    by_cases hnull : d.Null
    · rw [if_pos hnull] at h
      exact nomatch h
    · rw [if_neg hnull] at h
      unfold named
      rw [List.takeWhile_cons_of_pos (by simpa using hnull)]
      by_cases hname : d.name = name
      · rw [if_pos hname] at h
        exact nomatch h
      · rw [if_neg hname] at h
        rw [List.find?_cons_of_neg (by simpa using hname)]
        exact ih h

/-! ## The clusters of the file -/

theorem fileReadContinue_succ (hr : v.readable m.esi) : ∃ m1, readCluster v m = some m1 ∧
    m1.es = m.es + v.paragraphs ∧ m1.bx = m.bx ∧ m1.stack = m.stack ∧ m1.esi = v.lookup m.stores m.es m.bx m.esi ∧
      m1.cf = decide (m1.esi < endOfChain) ∧ m1.stores = m.stores ++ [⟨m.es, m.bx, m.esi⟩] := by
  unfold readCluster
  rw [if_pos hr]
  exact ⟨_, rfl, rfl, rfl, rfl, rfl, rfl, rfl⟩

/-- A loop that returns has followed what it looked up. -/
theorem fileReadContinue_visits {eax : UInt32} (h : fileReadContinue v fuel m = some (.returned ip eax m')) :
    ∃ cs, cs.head? = some m.esi ∧ Follows v m.bx m.stores m.es cs ∧
      m'.stores = m.stores ++ storesFrom v m.bx m.es cs := by
  induction fuel generalizing m with
  | zero => exact nomatch h
  | succ fuel ih =>
    unfold fileReadContinue at h
    by_cases hr : v.readable m.esi
    · obtain ⟨m1, hread, hes, hbx, hstack, hesi, hcf, hstores⟩ := fileReadContinue_succ hr
      rw [hread] at h
      simp only at h
      by_cases hlt : m1.esi < endOfChain
      · rw [hcf, decide_eq_true hlt, if_pos rfl] at h
        obtain ⟨cs, hhead, hfollows, hlast⟩ := ih h
        rw [hes, hbx, hstores] at hfollows hlast
        rcases cs with _ | ⟨d, cs⟩
        · exact nomatch hhead
        · refine ⟨m.esi :: d :: cs, rfl, ⟨?_, hfollows⟩, ?_⟩
          · rw [← hesi]
            exact (Option.some.inj hhead).symm
          · rw [hlast, List.append_assoc]
            rfl
      · rw [hcf, decide_eq_false hlt, if_neg Bool.false_ne_true] at h
        refine ⟨[m.esi], rfl, ?_, ?_⟩
        · show endOfChain ≤ v.lookup m.stores m.es m.bx m.esi
          rw [← hesi]
          exact UInt32.not_lt.mp hlt
        · obtain rfl : _ = m' := (Outcome.returned.inj (Option.some.inj h)).2.2
          exact hstores
    · unfold readCluster at h
      rw [if_neg hr] at h
      exact nomatch h

/-- A chain that is found is loaded. -/
theorem fileReadContinue_loads {size : UInt32} {stack : List UInt16} (hchain : IsChain v cs)
    (hhead : cs.head? = some m.esi)
    (hfollows : Follows v m.bx m.stores m.es cs) (hstack : m.stack = low size :: high size :: ip :: stack) :
    ∃ fuel m', fileReadContinue v fuel m = some (.returned ip size m') ∧ m'.stack = stack ∧
      m'.stores = m.stores ++ storesFrom v m.bx m.es cs := by
  induction cs generalizing m with
  | nil => exact nomatch hhead
  | cons c cs ih =>
    obtain rfl : c = m.esi := Option.some.inj hhead
    have hr : v.readable m.esi := by
      rcases cs with _ | ⟨d, cs⟩
      · exact hchain.2.1
      · exact hchain.2.1
    obtain ⟨m1, hread, hes, hbx, hstack1, hesi, hcf, hstores⟩ := fileReadContinue_succ hr
    rcases cs with _ | ⟨d, cs⟩
    · have hlt : ¬ m1.esi < endOfChain := by
        rw [hesi]
        exact UInt32.not_lt.mpr hfollows
      have hcond : ¬ m1.cf = true := by
        rw [hcf, decide_eq_false hlt]
        exact Bool.false_ne_true
      refine ⟨1, { m1 with stack := stack }, ?_, rfl, hstores⟩
      unfold fileReadContinue
      rw [hread]
      simp only
      rw [if_neg hcond]
      simp only [Machine.pop32, Machine.pop, hstack1, hstack, List.headD_cons, List.tail_cons, join_words]
    · obtain ⟨hlook, hfollows⟩ := hfollows
      obtain ⟨-, -, -, hd, hchain⟩ := hchain
      have hlt : m1.esi < endOfChain := by
        rw [hesi, hlook]
        exact hd
      rw [← hes, ← hstores, ← hbx] at hfollows
      obtain ⟨fuel, m', hloop, hstack', hstores'⟩ :=
        ih hchain (by rw [hesi, hlook]; rfl) hfollows (by rw [hstack1, hstack])
      refine ⟨fuel + 1, m', ?_, hstack', ?_⟩
      · unfold fileReadContinue
        rw [hread]
        simp only
        rw [hcf, decide_eq_true hlt, if_pos rfl]
        exact hloop
      · rw [hstores', hstores, hes, hbx, List.append_assoc]
        rfl

/-! ## The call -/

theorem IsDirectory.readable (h : IsDirectory v m dir) : v.readable (root m) := by
  obtain ⟨hchain, hhead⟩ := h
  rcases dir with _ | ⟨r, _ | ⟨d, ds⟩⟩
  · exact nomatch hhead
  · obtain rfl := Option.some.inj hhead
    exact hchain.2.1
  · obtain rfl := Option.some.inj hhead
    exact hchain.2.1

/-- Without a decision in the first cluster the search goes back to it for ever. -/
theorem readFile_never (hr : v.readable (root m)) (hlt : v.next (root m) < endOfChain)
    (hsearch : findName (m.names m.bp) (v.entries (root m)) = .exhausted) : readFile v fuel m = none := by
  induction fuel generalizing m with
  | zero => rfl
  | succ fuel ih =>
    have hround := round_eq hr
    have hroot : root (fetched v m) = root m := by
      show m.rootCluster &&& 0x0FFFFFFF &&& 0x0FFFFFFF = _
      rw [UInt32.and_assoc]
      rfl
    rw [hsearch] at hround
    unfold readFile
    rw [hround, show (fetched v m).cf = true from decide_eq_true hlt, if_pos rfl]
    refine ih ?_ ?_ ?_
    · rwa [hroot]
    · rwa [hroot]
    · rw [hroot]
      exact hsearch

theorem storesFrom_clusters (v : Volume) (bx es : UInt16) (cs : List UInt32) :
    (storesFrom v bx es cs).map Store.cluster = cs := by
  induction cs generalizing es with
  | nil => rfl
  | cons c cs ih => rw [storesFrom, List.map_cons, ih]

theorem IsChain.two_le (h : IsChain v cs) : ∀ c ∈ cs, 2 ≤ c := by
  induction cs with
  | nil => exact nofun
  | cons c cs ih =>
    rcases cs with _ | ⟨d, cs⟩
    · exact List.forall_mem_cons.mpr ⟨h.1, nofun⟩
    · exact List.forall_mem_cons.mpr ⟨h.1, ih h.2.2.2.2⟩

/-- The first cluster of a file is none of the directory's, nor is the 0 of an empty file. -/
theorem IsFile.first_not_mem (hdir : IsDirectory v m dir) (hfile : IsFile v dir e file) : e.cluster ∉ dir := by
  rcases hfile with ⟨h0, -⟩ | ⟨-, hh, hapart⟩
  · rw [h0]
    intro hm
    exact absurd (hdir.chain.two_le 0 hm) (by decide)
  · exact hapart _ (List.mem_of_head? hh)

/-- What has been read of the directory is one cluster, and the rest is the file. -/
theorem visited_eq {reads stores : List Store} {es bx : UInt16} {visited : List UInt32}
    (hdir : IsDirectory v m dir) (hfile : IsFile v dir e file) (hhead : visited.head? = some e.cluster)
    (hreads : ∀ s ∈ reads, s.cluster ∈ dir)
    (h : stores ++ [⟨0x9000, 0, root m⟩] ++ storesFrom v bx es visited = stores ++ reads ++ storesFrom v bx es file) :
    visited = file := by
  have hfirst := IsFile.first_not_mem hdir hfile
  have hclusters : root m :: visited = reads.map Store.cluster ++ file := by
    rw [List.append_assoc, List.append_assoc] at h
    have hmap := congrArg (List.map Store.cluster) (List.append_cancel_left h)
    rwa [List.map_append, List.map_append, storesFrom_clusters, storesFrom_clusters] at hmap
  rcases reads with _ | ⟨s, reads⟩
  · -- the file would begin with the directory's first cluster
    rcases hfile with ⟨-, hnil⟩ | ⟨-, -, hapart⟩
    · rw [hnil] at hclusters
      exact nomatch hclusters
    · have hmem : root m ∈ file := by
        rw [show file = root m :: visited from hclusters.symm]
        exact List.mem_cons_self ..
      exact absurd (List.mem_of_head? hdir.head) (hapart _ hmem)
  · rcases reads with _ | ⟨t, reads⟩
    · exact (List.cons.inj hclusters).2
    · -- a second read would be the file's first cluster
      have hvisited := (List.cons.inj hclusters).2
      rw [hvisited] at hhead
      refine absurd (hreads t (by simp)) ?_
      rwa [show t.cluster = e.cluster from Option.some.inj hhead]

/-- The slots of the first cluster come first. -/
theorem IsDirectory.begins (h : IsDirectory v m dir) : ∃ rest, dir.flatMap v.entries = v.entries (root m) ++ rest := by
  obtain ⟨-, hhead⟩ := h
  rcases dir with _ | ⟨r, ds⟩
  · exact nomatch hhead
  · obtain rfl := Option.some.inj hhead
    exact ⟨_, List.flatMap_cons⟩

theorem IsDirectory.next_lt_iff (h : IsDirectory v m dir) : v.next (root m) < endOfChain ↔ dir.length ≠ 1 := by
  obtain ⟨hchain, hhead⟩ := h
  rcases dir with _ | ⟨r, _ | ⟨d, ds⟩⟩
  · exact nomatch hhead
  · obtain rfl := Option.some.inj hhead
    exact iff_of_false (UInt32.not_lt.mpr hchain.2.2) (not_not.mpr rfl)
  · obtain rfl := Option.some.inj hhead
    refine iff_of_true ?_ (by simp)
    rw [hchain.2.2.1]
    exact hchain.2.2.2.1

/-- A search that is not decided never ends. -/
theorem decided_of_readFile {r : Outcome} (hdir : IsDirectory v m dir) (h : readFile v fuel (m.push ip) = some r) :
    Decided v dir m := by
  by_contra hno
  obtain ⟨hsearch, hlen⟩ := not_or.mp hno
  have hnone : readFile v fuel (m.push ip) = none :=
    readFile_never hdir.readable (hdir.next_lt_iff.mpr hlen) (not_not.mp hsearch)
  rw [hnone] at h
  exact nomatch h

/-- The machine that reads the file's clusters. -/
def entered (v : Volume) (ip : UInt16) (m : Machine) (e : Entry) : Machine :=
  { fetched v (m.push ip) with es := m.es, bx := m.bx, esi := e.cluster, stack := ip :: m.stack }.push32 e.size

theorem readFile_found (hdir : IsDirectory v m dir) (h : findName (m.names m.bp) (v.entries (root m)) = .found e) :
    readFile v (fuel + 1) (m.push ip) = fileReadContinue v fuel (entered v ip m e) := by
  have hround := round_eq (m := m.push ip) hdir.readable
  rw [show findName ((m.push ip).names (m.push ip).bp) (v.entries (root (m.push ip))) = .found e from h] at hround
  unfold readFile
  rw [hround]
  rfl

theorem loads_iff (hdir : IsDirectory v m dir) (hfile : IsFile v dir e file)
    (h : findName (m.names m.bp) (v.entries (root m)) = .found e) : Loads v dir ip m e file ↔
      Follows v m.bx (m.stores ++ [⟨0x9000, 0, root m⟩]) m.es file := by
  constructor
  · intro ⟨fuel, m', hrun, _, reads, hreads, hstores⟩
    rcases fuel with _ | fuel
    · exact nomatch hrun
    · rw [readFile_found hdir h] at hrun
      obtain ⟨visited, hhead, hfollows, hvisited⟩ := fileReadContinue_visits hrun
      have he : visited = file := visited_eq hdir hfile hhead (fun s hs => (hreads s hs).2.2) (hvisited.symm.trans hstores)
      rw [← he]
      exact hfollows
  · intro hfollows
    rcases hfile with ⟨-, hnil⟩ | ⟨hchain, hhead, -⟩
    · rw [hnil] at hfollows
      exact hfollows.elim
    · obtain ⟨fuel, m', hrun, hstack, hstores⟩ :=
        fileReadContinue_loads (m := entered v ip m e) hchain hhead hfollows rfl
      refine ⟨fuel + 1, m', by rw [readFile_found hdir h, hrun], hstack, [⟨0x9000, 0, root m⟩], ?_, hstores⟩
      intro s hs
      rw [List.mem_singleton.mp hs]
      exact ⟨rfl, rfl, List.mem_of_head? hdir.head⟩

theorem readFile_null (hdir : IsDirectory v m dir) (h : findName (m.names m.bp) (v.entries (root m)) = .null) :
    readFile v 1 (m.push ip) = some .error := by
  have hround := round_eq (m := m.push ip) hdir.readable
  rw [show findName ((m.push ip).names (m.push ip).bp) (v.entries (root (m.push ip))) = .null from h] at hround
  unfold readFile
  rw [hround]

theorem readFile_last (hdir : IsDirectory v m dir) (h : findName (m.names m.bp) (v.entries (root m)) = .exhausted)
    (hlen : dir.length = 1) : readFile v 1 (m.push ip) = some .error := by
  have hround := round_eq (m := m.push ip) hdir.readable
  have hcond : ¬ (fetched v (m.push ip)).cf = true := fun hcf => hdir.next_lt_iff.mp (of_decide_eq_true hcf) hlen
  rw [show findName ((m.push ip).names (m.push ip).bp) (v.entries (root (m.push ip))) = .exhausted from h] at hround
  simp only at hround
  rw [if_neg hcond] at hround
  unfold readFile
  rw [hround]

theorem Correct.decided (hdir : IsDirectory v m dir) (h : Correct v dir files ip m) : Decided v dir m := by
  unfold Correct at h
  split at h
  · obtain ⟨fuel, m', hrun, -⟩ := h
    exact decided_of_readFile hdir hrun
  · obtain ⟨fuel, hrun⟩ := h
    exact decided_of_readFile hdir hrun

/-- A call loads the file with the name, or ends at `ErrFind` where there is none, exactly when the
    search is decided in the first cluster and the chain of the file is found at `[es:si]`. -/
theorem read_file_correct_iff (v : Volume) (dir : List UInt32) (files : Entry → List UInt32) (ip : UInt16) (m : Machine)
    (hdir : IsDirectory v m dir)
    (hfile : ∀ e, named (m.names m.bp) (dir.flatMap v.entries) = some e → IsFile v dir e (files e)) :
    Correct v dir files ip m ↔ Meets v dir files m := by
  obtain ⟨rest, hslots⟩ := hdir.begins
  cases hsearch : findName (m.names m.bp) (v.entries (root m)) with
  | found e =>
    have hnamed : named (m.names m.bp) (dir.flatMap v.entries) = some e := by
      rw [hslots]
      exact named_found hsearch rest
    have hdecided : Decided v dir m := .inl (by rw [hsearch]; exact nofun)
    unfold Correct Meets
    rw [hnamed]
    refine (loads_iff hdir (hfile e hnamed) hsearch).trans ?_
    constructor
    · intro hfollows
      refine ⟨hdecided, ?_⟩
      intro e' he
      rw [← Option.some.inj he]
      exact hfollows
    · exact fun h => h.2 e rfl
  | null =>
    have hnamed : named (m.names m.bp) (dir.flatMap v.entries) = none := by
      rw [hslots]
      exact named_null hsearch rest
    have hdecided : Decided v dir m := .inl (by rw [hsearch]; exact nofun)
    unfold Correct Meets
    rw [hnamed]
    exact iff_of_true ⟨1, readFile_null hdir hsearch⟩ ⟨hdecided, nofun⟩
  | exhausted =>
    by_cases hlen : dir.length = 1
    · obtain ⟨r, rfl⟩ := List.length_eq_one_iff.mp hlen
      have hr : r = root m := Option.some.inj hdir.head
      have hnamed : named (m.names m.bp) ([r].flatMap v.entries) = none := by
        rw [List.flatMap_singleton, hr]
        exact named_exhausted hsearch
      unfold Correct Meets
      rw [hnamed]
      exact iff_of_true ⟨1, readFile_last hdir hsearch hlen⟩ ⟨.inr hlen, nofun⟩
    · have hundecided : ¬ Decided v dir m := not_or.mpr ⟨not_not.mpr hsearch, hlen⟩
      exact iff_of_false (fun h => hundecided (h.decided hdir)) fun h => hundecided h.1

/-- For `BX` 0 the words that are looked up are the FAT's. -/
theorem follows_of_zero (h : IsChain v cs) (stores : List Store) (es : UInt16) : Follows v 0 stores es cs := by
  induction cs generalizing stores es with
  | nil => exact h.elim
  | cons c cs ih =>
    rcases cs with _ | ⟨d, cs⟩
    · exact h.2.2
    · exact ⟨h.2.2.1, ih h.2.2.2.2 _ _⟩

/-! ## Two directories -/

/-- `BOOTLDR BIN` and another name. -/
def bootldr : Entry := ⟨[66, 79, 79, 84, 76, 68, 82, 32, 66, 73, 78], 0, 4, 700⟩

def other : Entry := ⟨[75, 69, 82, 78, 69, 76, 32, 32, 66, 73, 78], 0, 6, 100⟩

/-- Clusters of one sector: the directory is 2 and 3, the file 4 and 5; `slots` are those of 2. -/
def sample (slots : List Entry) : Volume where
  bytesPerSector := 512
  sectorsPerCluster := 1
  next c := if c = 2 then 3 else if c = 4 then 5 else 0x0FFFFFFF
  entries c := if c = 2 then slots else if c = 3 then [bootldr] else []
  readable _ := true
  elsewhere _ _ _ _ := 0

def caller : Machine := ⟨0x07E0, 0, 0x7DF3, 0, false, [], [], 2, fun _ => bootldr.name⟩

theorem sample_chains (slots : List Entry) : IsChain (sample slots) [2, 3] ∧ IsChain (sample slots) [4, 5] := by
  have hend : endOfChain ≤ (0x0FFFFFFF : UInt32) := by decide
  refine ⟨⟨?_, rfl, rfl, ?_, ?_, rfl, hend⟩, ⟨?_, rfl, rfl, ?_, ?_, rfl, hend⟩⟩
  all_goals decide

theorem sample_directory (slots : List Entry) : IsDirectory (sample slots) caller [2, 3] :=
  ⟨(sample_chains slots).1, rfl⟩

theorem sample_file {slots : List Entry}
    (h : named bootldr.name ([2, 3].flatMap (sample slots).entries) = some bootldr) :
    ∀ e, named bootldr.name ([2, 3].flatMap (sample slots).entries) = some e →
      IsFile (sample slots) [2, 3] e [4, 5] := by
  intro e he
  obtain rfl := Option.some.inj (h.symm.trans he)
  have hapart : List.Disjoint ([4, 5] : List UInt32) [2, 3] := by simp
  exact .inr ⟨(sample_chains slots).2, rfl, fun c hc hd => hapart hc hd⟩

theorem read_file_correct_first_cluster : Correct (sample (bootldr :: List.replicate 15 other)) [2, 3] (fun _ => [4, 5]) 0x7C6D caller := by
  refine (read_file_correct_iff _ _ _ _ _ (sample_directory _) (sample_file (by decide))).mpr ⟨.inl (by decide), ?_⟩
  intro e he
  exact follows_of_zero (sample_chains _).2 _ _

/-- With the name in the second cluster of the directory, the first is searched again for ever. -/
theorem second_directory_cluster_is_never_reached : ¬ ∀ v dir files ip m, IsDirectory v m dir →
    (∀ e, named (m.names m.bp) (dir.flatMap v.entries) = some e → IsFile v dir e (files e)) → Correct v dir files ip m := by
  intro h
  have hcorrect : Correct (sample (List.replicate 16 other)) [2, 3] (fun _ => [4, 5]) 0x7C6D caller :=
    h _ _ _ _ _ (sample_directory _) (sample_file (by decide))
  rcases hcorrect.decided (sample_directory _) with hsearch | hlen
  · exact hsearch (by decide)
  · exact absurd hlen (by decide)

end Rodvin.Boot.BootSector
