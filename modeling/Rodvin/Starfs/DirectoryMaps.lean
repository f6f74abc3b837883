/-
  Rodvin.Starfs.DirectoryMaps — what a directory is for: a finite map from names to inodes.

  `Edit.apply` says what an edit does to the map, `Represents` that a directory is
  well-formed and `find_in_dir` finds what the map has. The loop of `add_to_dir` and
  `remove_from_dir` passes the first entry by and looks behind the last, and a removal
  leaves the count of entries. So a run of edits is correct exactly when each of them
  comes upon the name where the directory has it, and none removes anything
  (`directories_are_maps_iff`).
-/

import Rodvin.Starfs.DirectoryProofs
import Rodvin.Starfs.MkfsProofs

namespace Rodvin.Starfs

open Rodvin.Lib

/-! ## The map -/

abbrev NameMap := Name → Option Nat

inductive Edit where
  | add (name : Name) (ino : Nat)
  | remove (name : Name)

namespace Edit

def name : Edit → Name
  | add name _ => name
  | remove name => name

/-- What `add_to_dir` and `remove_from_dir` are to do, and to return. -/
def apply (f : NameMap) : Edit → Bool × NameMap
  | add name ino => if (f name).isSome then (false, f) else (true, Function.update f name (some ino))
  | remove name => ((f name).isSome, Function.update f name none)

def run (d : Nat) : Edit → Fuse Bool
  | add name ino => addToDir d name ino
  | remove name => removeFromDir d name

end Edit

/-- The content of `d` is well-formed, and `find_in_dir` finds what `f` has. -/
structure Represents (s : Fs) (d : Nat) (f : NameMap) : Prop where
  wellFormed : WellFormedDir (s.content d)
  find : ∀ name, (0 : UInt8) ∉ name → ∃ t, findInDir d name s = .ok ((f name).getD INVALID_INODE, t)

/-- The edits return and do what they are to, and one that returns false changes nothing. -/
def Correct (d : Nat) : Fs → NameMap → List Edit → Prop
  | s, f, [] => Represents s d f
  | s, f, c :: cs => Represents s d f ∧ ∃ t, c.run d s = .ok ((c.apply f).1, t) ∧
      ((c.apply f).1 = false → t.disk = s.disk) ∧ Correct d t (c.apply f).2 cs

/-! ## When it works -/

/-- The edit comes upon the name if and only if the directory has it. What is added fits its
    fields; nothing is removed. -/
def Edit.Meets (s : Fs) (d : Nat) (es : List (Name × Nat)) : Edit → Prop
  | .add name ino => (Seen (s.buffer d).at 8 es name ↔ name ∈ es.map Prod.fst) ∧
      (name ∈ es.map Prod.fst ∨ name.length + 1 < 2 ^ 16 ∧ ino < 2 ^ 32 ∧ es.length + 1 < 2 ^ 32)
  | .remove name => ¬ Seen (s.buffer d).at 8 es name ∧ name ∉ es.map Prod.fst

def AllMeet (d : Nat) : Fs → List Edit → Prop
  | _, [] => True
  | s, c :: cs => (∃ es, ValidEntries es ∧ s.content d = dirContent es ∧ c.Meets s d es) ∧
      ∀ r t, c.run d s = .ok (r, t) → AllMeet d t cs

/-- Directory `d` can be written: its blocks lie behind the inode table and not in the free
    extent, at an offset that leaves room for any directory. -/
structure Placed (s : Fs) (d : Nat) : Prop where
  readable : Readable s d
  directory : (s.ino d).flags &&& INO_DIRECTORY ≠ 0
  notSystem : (s.ino d).flags &&& INO_SYSTEM = 0
  free : s.Mapped 4 ∧ (s.ino 4).Direct
  outside : (s.ino d).ext.startblock < (s.ino 4).ext.startblock ∨
    (s.ino 4).ext.startblock + (s.ino 4).ext.length ≤ (s.ino d).ext.startblock
  behind : s.tableEnd ≤ 4096 * (s.ino d).ext.startblock
  words : 4096 * (s.ino d).ext.startblock < 2 ^ 62 ∧ 4096 * (s.ino d).ext.length < 2 ^ 62

/-- A C string, which lies in memory. -/
structure IsString (name : Name) : Prop where
  terminated : (0 : UInt8) ∉ name
  length : name.length < 2 ^ 47

variable {s t : Fs} {d : Nat} {es es' : List (Name × Nat)} {c : Edit} {name : Name} {ino : Nat}

def mapOf (es : List (Name × Nat)) : NameMap := fun name => es.lookup name

theorem mapOf_eq_none : mapOf es name = none ↔ name ∉ es.map Prod.fst := by
  unfold mapOf
  rw [List.lookup_eq_none_iff]
  simp only [bne_iff_ne, List.mem_map, not_exists, not_and]
  exact ⟨fun h e he heq => h e he heq.symm, fun h e he heq => h e he heq.symm⟩

theorem mapOf_isSome : (mapOf es name).isSome = true ↔ name ∈ es.map Prod.fst := by
  rw [Option.isSome_iff_ne_none, Ne, mapOf_eq_none, not_not]

theorem mapOf_append (h : name ∉ es.map Prod.fst) :
    mapOf (es ++ [(name, ino)]) = Function.update (mapOf es) name (some ino) := by
  funext n
  show (es ++ [(name, ino)]).lookup n = _
  rw [List.lookup_append]
  by_cases hn : n = name
  · subst hn
    rw [Function.update_self, show es.lookup n = none from mapOf_eq_none.mpr h]
    simp
  · rw [Function.update_of_ne hn, List.lookup_cons, beq_eq_false_iff_ne.mpr hn]
    exact Option.or_none

theorem mapOf_remove (h : name ∉ es.map Prod.fst) : Function.update (mapOf es) name none = mapOf es :=
  Function.update_eq_self_iff.mpr (mapOf_eq_none.mpr h).symm

/-! ## One edit -/

theorem Placed.quiet (h : Placed s d) (hq : Quiet s t) : Placed t d := by
  obtain ⟨hr, hd, hs, hf, ho, hb, hw⟩ := h
  have hend : t.tableEnd = s.tableEnd := by
    unfold Fs.tableEnd
    rw [hq.maplen]
  rw [← hq.ino] at hd hs ho hb hw
  rw [← hq.ino 4, ← hq.mapped] at hf
  rw [← hq.ino 4] at ho
  exact ⟨hr.quiet hq, hd, hs, hf, ho, by rwa [hend], hw⟩

theorem Placed.dirAt (h : Placed s d) (hv : ValidEntries es) (hc : s.content d = dirContent es) : DirAt s d es :=
  ⟨h.readable, h.directory, hv.ok, hv.count, hc⟩

theorem Placed.represents (h : Placed s d) (hv : ValidEntries es) (hc : s.content d = dirContent es) :
    Represents s d (mapOf es) := by
  refine ⟨⟨es, hv, hc⟩, fun name hn => ?_⟩
  obtain ⟨t, ht, -⟩ := findInDir_ok (h.dirAt hv hc) hn
  exact ⟨t, ht⟩

theorem Placed.writable {size : Nat} (h : Placed s d) (hs : size < 2 ^ 62) : Writable s d size := by
  have hw := h.words
  exact ⟨h.readable.mapped, h.notSystem, h.free, h.outside, by omega, by omega⟩

/-- Writing leaves a directory where it can be written. -/
theorem Placed.stored {content : List UInt8} (h : Placed s d) (h0 : (s.ino d).filesize ≠ 0)
    (hl : content.length < 2 ^ 60)
    (hst : Stored s t d ((s.ino d).grown content.length) content) : Placed t d ∧ t.content d = content := by
  have hw := h.words
  have hheld := h.readable.held
  have hout := h.outside
  have hne : 4 ≠ d := by
    rintro rfl
    omega
  have hwf := (ino_wf s d).grown content.length (by omega)
  have hself := hst.ino_self h.readable.mapped h.behind hwf
  have hfour := hst.ino_of_ne h.free.1 h.behind hne
  have hblocks : max (s.ino d).ext.length ((content.length + 4095) / 4096) < 2 ^ 50 := by omega
  have hstart : (t.ino d).ext.startblock = (s.ino d).ext.startblock := by
    rw [hself]
    rfl
  have hlength : (t.ino d).ext.length = max (s.ino d).ext.length ((content.length + 4095) / 4096) := by
    rw [hself]
    rfl
  have hflags : (t.ino d).flags = (s.ino d).flags := by
    rw [hself]
    rfl
  have hsize : (t.ino d).filesize = content.length := by
    rw [hself]
    rfl
  have hends : 4096 * (s.ino d).ext.startblock + content.length ≤ t.size := by
    rw [hst.size]
    exact le_max_right _ _
  refine ⟨⟨⟨hst.mapped.mpr h.readable.mapped, ?_, ?_, ?_, ?_, ?_⟩, ?_, ?_, ⟨hst.mapped.mpr h.free.1, ?_⟩, ?_, ?_, ?_⟩,
    hst.content_self h.readable.mapped h.behind hwf rfl⟩
  · show (t.ino d).flags &&& _ = 0
    rw [hflags]
    exact h.readable.direct
  · rw [hsize, hlength]
    omega
  · rw [hlength]
    omega
  · rw [hstart]
    omega
  · rw [hstart, hsize]
    exact fun _ => hends
  · rw [hflags]
    exact h.directory
  · rw [hflags]
    exact h.notSystem
  · rw [hfour]
    exact h.free.2
  · rw [hfour, hstart]
    exact h.outside
  · rw [hst.tableEnd, hstart]
    exact h.behind
  · rw [hstart, hlength]
    exact ⟨hw.1, by omega⟩

theorem length_dirContent_lt (hok : ∀ e ∈ es, EntryOk e) (hl : es.length < 2 ^ 32) :
    (dirContent es).length < 2 ^ 50 := by
  have := length_records_le hok
  rw [length_dirContent]
  omega

theorem filesize_ne_zero (hc : s.content d = dirContent es) : (s.ino d).filesize ≠ 0 := by
  rw [← length_content, hc, length_dirContent]
  omega

theorem ValidEntries.append (hv : ValidEntries es) (hn : (0 : UInt8) ∉ name) (hnew : name ∉ es.map Prod.fst)
    (hlen : name.length + 1 < 2 ^ 16) (hino : ino < 2 ^ 32) (hcount : es.length + 1 < 2 ^ 32) :
    ValidEntries (es ++ [(name, ino)]) := by
  refine ⟨fun e he => ?_, fun e he => ?_, fun e he => ?_, ?_, by simpa using hcount⟩
  · rcases List.mem_append.mp he with he | he
    · exact hv.terminated e he
    · rwa [List.mem_singleton.mp he]
  · rcases List.mem_append.mp he with he | he
    · exact hv.namelength e he
    · rwa [List.mem_singleton.mp he]
  · rcases List.mem_append.mp he with he | he
    · exact hv.inodeno e he
    · rwa [List.mem_singleton.mp he]
  · rw [List.map_append]
    exact List.Nodup.append hv.nodup (by simp) (by simpa using hnew)

/-- An edit that meets the condition does what it is to. -/
theorem step_of_meets (h : Placed s d) (hv : ValidEntries es) (hc : s.content d = dirContent es) (hn : IsString c.name)
    (hm : c.Meets s d es) :
    ∃ t es', c.run d s = .ok ((c.apply (mapOf es)).1, t) ∧ ((c.apply (mapOf es)).1 = false → t.disk = s.disk) ∧
      Placed t d ∧ ValidEntries es' ∧ t.content d = dirContent es' ∧ mapOf es' = (c.apply (mapOf es)).2 := by
  have hd := h.dirAt hv hc
  cases c with
  | add name ino =>
    have hn : IsString name := hn
    obtain ⟨hseen, hfit⟩ := hm
    by_cases hp : name ∈ es.map Prod.fst
    · obtain ⟨t, ht, hq⟩ := addToDir_seen ino hd hn.terminated (hseen.mpr hp)
      have happ : (Edit.add name ino).apply (mapOf es) = (false, mapOf es) := if_pos (mapOf_isSome.mpr hp)
      rw [happ]
      exact ⟨t, es, ht, fun _ => hq.disk, h.quiet hq, hv, (hq.content d).trans hc, rfl⟩
    · obtain ⟨hlen, hino, hcount⟩ := hfit.resolve_left hp
      have hv' := hv.append hn.terminated hp hlen hino hcount
      have hsize := length_dirContent_lt hv'.ok hv'.count
      obtain ⟨t, ht, hst⟩ := addToDir_unseen ino hd hn.terminated (mt hseen.mp hp) (h.writable (by omega))
      obtain ⟨hpl, hcont⟩ := h.stored (filesize_ne_zero hc) (by omega) hst
      have happ : (Edit.add name ino).apply (mapOf es) = (true, Function.update (mapOf es) name (some ino)) :=
        if_neg (mapOf_isSome.not.mpr hp)
      rw [happ]
      exact ⟨t, es ++ [(name, ino)], ht, fun hf => absurd hf (by simp), hpl, hv', hcont, mapOf_append hp⟩
  | remove name =>
    have hn : IsString name := hn
    obtain ⟨t, ht, hq⟩ := removeFromDir_unseen hd hn.terminated hm.1
    have hnone := mapOf_eq_none.mpr hm.2
    have happ : (Edit.remove name).apply (mapOf es) = (false, mapOf es) := by
      show ((mapOf es name).isSome, Function.update (mapOf es) name none) = _
      rw [mapOf_remove hm.2, hnone]
      rfl
    rw [happ]
    exact ⟨t, es, ht, fun _ => hq.disk, h.quiet hq, hv, (hq.content d).trans hc, rfl⟩

/-- What is added to a directory that stays well-formed fits its fields. -/
theorem fits_of_wellFormed (hv : ValidEntries es) (hv' : ValidEntries es')
    (h : dirContent (es ++ [(name, ino)]) = dirContent es') :
    name.length + 1 < 2 ^ 16 ∧ es.length + 1 < 2 ^ 32 ∧ ∃ k < 2 ^ 32, es' = es ++ [(name, k)] := by
  rw [dirContent_eq (es ++ _), records_append, List.length_append] at h
  obtain ⟨hcount, ys, rfl, hys⟩ := dirContent_split hv.ok hv'.ok hv'.count h
  have hl := hv'.count
  rw [List.length_append] at hcount hl
  obtain ⟨y, rfl⟩ : ∃ y, ys = [y] := by
    refine List.length_eq_one_iff.mp ?_
    have hne : ys ≠ [] := by
      rintro rfl
      exact absurd (congrArg List.length hys) (by simp [records, length_direntry])
    have hpos := List.length_pos_of_ne_nil hne
    have hle : (es.length + [(name, ino)].length) % 2 ^ 32 ≤ es.length + 1 := Nat.mod_le _ _
    omega
  have hy := hv'.ok y (List.mem_append_right _ (List.mem_singleton_self y))
  have hdir : direntry name ino = direntry y.1 y.2 := by simpa [records] using hys
  have hlen : name.length = y.1.length := by
    have := congrArg List.length hdir
    rw [length_direntry, length_direntry] at this
    omega
  unfold direntry at hdir
  obtain ⟨-, hrest⟩ := List.append_inj hdir (by simp)
  obtain ⟨-, hrest⟩ := List.append_inj hrest (by simp)
  have hname : name = y.1 := List.append_cancel_right hrest
  refine ⟨hname ▸ hy.namelength, by simpa using hl, y.2, hy.inodeno, ?_⟩
  rw [hname]

/-- With an entry less than it counts, a directory is not well-formed. -/
theorem not_wellFormed_of_cut {n : Nat} (hok : ∀ e ∈ es, EntryOk e) (hn : es.length < n) (hl : n < 2 ^ 32) :
    ¬ WellFormedDir (le 4 1 ++ (le 4 n ++ records es)) := by
  rintro ⟨es', hv', h⟩
  rw [← List.append_nil (records es)] at h
  obtain ⟨hcount, ys, rfl, hys⟩ := dirContent_split hok hv'.ok hv'.count h
  have hys : ys = [] := by
    cases ys with
    | nil => rfl
    | cons y ys =>
      have := congrArg List.length hys
      rw [length_records_cons, List.length_nil] at this
      omega
  rw [Nat.mod_eq_of_lt hl, hys, List.append_nil] at hcount
  omega

theorem length_appended_lt (ino : Nat) (hok : ∀ e ∈ es, EntryOk e) (hl : es.length < 2 ^ 32) (hn : IsString name) :
    (dirContent (es ++ [(name, ino)])).length < 2 ^ 51 := by
  have hlen := length_dirContent_lt hok hl
  have := hn.length
  rw [length_dirContent] at hlen
  rw [length_dirContent, records_append, List.length_append, length_records_cons, show records [] = [] from rfl,
    List.length_nil]
  show 8 + ((records es).length + (name.length + 7 + 0)) < 2 ^ 51
  omega

/-- An addition that does what it is to, with what it leads to. -/
theorem meets_of_add (h : Placed s d) (hv : ValidEntries es) (hc : s.content d = dirContent es) (hn : IsString name)
    (hr : addToDir d name ino s = .ok (((Edit.add name ino).apply (mapOf es)).1, t))
    (hrep : Represents t d ((Edit.add name ino).apply (mapOf es)).2) : (Edit.add name ino).Meets s d es := by
  have hd := h.dirAt hv hc
  by_cases hp : name ∈ es.map Prod.fst
  · have happ : (Edit.add name ino).apply (mapOf es) = (false, mapOf es) := if_pos (mapOf_isSome.mpr hp)
    refine ⟨iff_of_true ?_ hp, .inl hp⟩
    by_contra hs
    have hsize := length_appended_lt ino hv.ok hv.count hn
    obtain ⟨u, hu, -⟩ := addToDir_unseen ino hd hn.terminated hs (h.writable (by omega))
    rw [hu, happ] at hr
    exact absurd (Prod.mk.inj (Except.ok.inj hr)).1 (by simp)
  · have happ : (Edit.add name ino).apply (mapOf es) = (true, Function.update (mapOf es) name (some ino)) :=
      if_neg (mapOf_isSome.not.mpr hp)
    rw [happ] at hr hrep
    have hs : ¬ Seen (s.buffer d).at 8 es name := by
      intro hs
      obtain ⟨u, hu, -⟩ := addToDir_seen ino hd hn.terminated hs
      rw [hu] at hr
      exact absurd (Prod.mk.inj (Except.ok.inj hr)).1 (by simp)
    have hsize := length_appended_lt ino hv.ok hv.count hn
    obtain ⟨u, hu, hst⟩ := addToDir_unseen ino hd hn.terminated hs (h.writable (by omega))
    rw [hu] at hr
    obtain rfl := (Prod.mk.inj (Except.ok.inj hr)).2
    obtain ⟨hpl, hcont⟩ := h.stored (filesize_ne_zero hc) (by omega) hst
    obtain ⟨es', hv', hes'⟩ := hrep.wellFormed
    rw [hcont] at hes'
    obtain ⟨hlen, hcount, k, hk, rfl⟩ := fits_of_wellFormed hv hv' hes'
    refine ⟨iff_of_false hs hp, .inr ⟨hlen, ?_, hcount⟩⟩
    -- the number that is found is the one in the record
    obtain ⟨v, hfind⟩ := hrep.find name hn.terminated
    obtain ⟨v', hfind', -⟩ := findInDir_ok (hpl.dirAt hv' (hcont.trans hes')) hn.terminated
    have hlook : (es ++ [(name, k)]).lookup name = some k := by
      show mapOf (es ++ [(name, k)]) name = some k
      rw [mapOf_append hp, Function.update_self]
    rw [hfind, hlook] at hfind'
    have hino : (Function.update (mapOf es) name (some ino) name).getD INVALID_INODE = k :=
      (Prod.mk.inj (Except.ok.inj hfind')).1
    rw [Function.update_self] at hino
    have hino : ino = k := hino
    rwa [hino]

theorem meets_of_remove (h : Placed s d) (hv : ValidEntries es) (hc : s.content d = dirContent es) (hn : IsString name)
    (hr : removeFromDir d name s = .ok (((Edit.remove name).apply (mapOf es)).1, t))
    (hrep : Represents t d ((Edit.remove name).apply (mapOf es)).2) : (Edit.remove name).Meets s d es := by
  have hd := h.dirAt hv hc
  by_cases hs : Seen (s.buffer d).at 8 es name
  · -- one entry less, and the count as it was
    have hw : ∀ size, size ≤ (s.ino d).filesize → Writable s d size := fun size hsize => by
      have := length_dirContent_lt hv.ok hv.count
      rw [hd.filesize] at hsize
      exact h.writable (by omega)
    obtain ⟨pre, e, post, u, rfl, -, hst, hq⟩ := removeFromDir_seen hd hn.terminated hs hw hr
    have hlen : (le 4 1 ++ (le 4 (pre ++ e :: post).length ++ records (pre ++ post))).length =
        8 + (records (pre ++ post)).length := by
      simp
      omega
    have hok : ∀ e' ∈ pre ++ post, EntryOk e' := fun e' he' => hv.ok e' (by
      rcases List.mem_append.mp he' with he' | he'
      · exact List.mem_append_left _ he'
      · exact List.mem_append_right _ (List.mem_cons_of_mem e he'))
    have hcount : (pre ++ post).length < (pre ++ e :: post).length := by simp
    have hsize := length_records_le hok
    have hl := hv.count
    rw [← hlen] at hst
    obtain ⟨hpl, hcont⟩ := h.stored (filesize_ne_zero hc) (by omega) hst
    have hi := ino_wf u d
    have hput := content_putIno (i := { u.ino d with linkcount := ((u.ino d).linkcount + 2 ^ 32 - 1) % 2 ^ 32 })
      hpl.readable.mapped ⟨hi.flags, Nat.mod_lt _ (by decide), hi.filesize, hi.startblock, hi.length⟩ rfl rfl hpl.behind
    have hbad := hrep.wellFormed
    rw [hq.content, hput, hcont] at hbad
    exact absurd hbad (not_wellFormed_of_cut hok hcount hl)
  · refine ⟨hs, fun hp => ?_⟩
    obtain ⟨u, hu, -⟩ := removeFromDir_unseen hd hn.terminated hs
    rw [hu] at hr
    have hsome : false = (mapOf es name).isSome := (Prod.mk.inj (Except.ok.inj hr)).1
    rw [mapOf_isSome.mpr hp] at hsome
    exact Bool.noConfusion hsome

/-! ## Runs -/

theorem Correct.represents {f : NameMap} {cs : List Edit} (h : Correct d s f cs) : Represents s d f := by
  cases cs with
  | nil => exact h
  | cons c cs => exact h.1

/-- An edit that does what it is to meets the condition. -/
theorem meets_of_correct {cs : List Edit} (h : Placed s d) (hv : ValidEntries es) (hc : s.content d = dirContent es)
    (hn : IsString c.name) (hco : Correct d s (mapOf es) (c :: cs)) : c.Meets s d es := by
  obtain ⟨-, t, hr, -, hcs⟩ := hco
  cases c with
  | add name ino => exact meets_of_add h hv hc hn hr hcs.represents
  | remove name => exact meets_of_remove h hv hc hn hr hcs.represents

theorem dirContent_injective (hv : ValidEntries es) (hv' : ValidEntries es') (h : dirContent es = dirContent es') :
    es = es' := by
  rw [dirContent_eq es, ← List.append_nil (records es)] at h
  obtain ⟨hcount, ys, rfl, -⟩ := dirContent_split hv.ok hv'.ok hv'.count h
  rw [Nat.mod_eq_of_lt hv.count, List.length_append] at hcount
  rw [List.eq_nil_of_length_eq_zero (by omega : ys.length = 0), List.append_nil]

/-- Directories are finite maps over exactly the runs of edits that meet the condition. -/
theorem directories_are_maps_iff (h : Placed s d) (hv : ValidEntries es) (hc : s.content d = dirContent es)
    (cs : List Edit) (hn : ∀ c ∈ cs, IsString c.name) : Correct d s (mapOf es) cs ↔ AllMeet d s cs := by
  induction cs generalizing s es with
  | nil => exact iff_of_true (h.represents hv hc) trivial
  | cons c cs ih =>
    have hnc := hn c (List.mem_cons_self ..)
    have hns : ∀ c' ∈ cs, IsString c'.name := fun c' hc' => hn c' (List.mem_cons_of_mem c hc')
    constructor
    · intro hco
      have hm := meets_of_correct h hv hc hnc hco
      refine ⟨⟨es, hv, hc, hm⟩, fun r t hr => ?_⟩
      obtain ⟨u, es', hu, -, hpl, hv', hc', hmap⟩ := step_of_meets h hv hc hnc hm
      obtain ⟨-, u', hu', -, hcs⟩ := hco
      rw [hu] at hr hu'
      obtain rfl := (Prod.mk.inj (Except.ok.inj hr)).2
      obtain rfl := (Prod.mk.inj (Except.ok.inj hu')).2
      rw [← hmap] at hcs
      exact (ih hpl hv' hc' hns).mp hcs
    · rintro ⟨⟨es₁, hv₁, hc₁, hm⟩, hall⟩
      obtain rfl := dirContent_injective hv hv₁ (hc.symm.trans hc₁)
      obtain ⟨t, es', ht, hkeep, hpl, hv', hc', hmap⟩ := step_of_meets h hv hc hnc hm
      refine ⟨h.represents hv hc, t, ht, hkeep, ?_⟩
      rw [← hmap]
      exact (ih hpl hv' hc' hns).mpr (hall _ t ht)

/-! ## The root directory of a new volume -/

theorem IsNew.placed {disksize : Nat} (h : IsNew s disksize) (hd : disksize < 2 ^ 62) (h6 : 6 ≤ disksize / 16384) :
    Placed s 3 := by
  have hr : rootBlock disksize = 9 + (disksize / 16384 + 127) / 128 := rfl
  have h3 : s.ino 3 = rootInode disksize := h.ino rfl
  have h4 : s.ino 4 = freeInode4 disksize := h.ino rfl
  have hsize := h.size
  have hm3 : s.Mapped 3 := h.mapped.mpr (by omega)
  have hm4 : s.Mapped 4 := h.mapped.mpr (by omega)
  have hend : s.tableEnd = 4096 * rootBlock disksize := by
    unfold Fs.tableEnd
    rw [h.maplen]
    omega
  have hroot : (s.ino 3).ext.startblock = rootBlock disksize ∧ (s.ino 3).ext.length = 1 ∧ (s.ino 3).filesize = 103 ∧
      (s.ino 3).flags = INO_DIRECTORY := by
    rw [h3]
    exact ⟨rfl, rfl, rfl, rfl⟩
  have hfree : (s.ino 4).ext.startblock = rootBlock disksize + 1 ∧ (s.ino 4).flags = INO_SYSTEM ||| INO_READONLY := by
    rw [h4]
    exact ⟨rfl, rfl⟩
  obtain ⟨hstart, hlength, hfile, hflags⟩ := hroot
  have hread : Readable s 3 :=
    ⟨hm3, by unfold Inode.Direct; rw [hflags]; decide, by omega, by omega, by omega, by omega⟩
  exact ⟨hread, by rw [hflags]; decide, by rw [hflags]; decide, ⟨hm4, by unfold Inode.Direct; rw [hfree.2]; decide⟩,
    by omega, by omega, by omega⟩

theorem IsNew.content {disksize : Nat} (h : IsNew s disksize) : s.content 3 = dirContent rootEntries := by
  have h3 : s.ino 3 = rootInode disksize := h.ino rfl
  unfold Fs.content
  rw [h3]
  exact h.root

theorem fresh_is_new : IsNew fresh (2 ^ 20) :=
  mounted_is_new (noWrap_of_inodes (by decide) (by decide)) (by decide) fresh_mounted

theorem bootblockName_string : IsString bootblockName := ⟨by decide, by decide⟩

theorem directories_are_maps_iff_root :
    Correct 3 fresh (mapOf rootEntries) [.remove bootblockName] ↔ AllMeet 3 fresh [.remove bootblockName] :=
  directories_are_maps_iff (fresh_is_new.placed (by decide) (by decide)) rootEntries_valid fresh_is_new.content
    [.remove bootblockName] fun _ hc => List.mem_singleton.mp hc ▸ bootblockName_string

/-- The first entry of the root directory cannot be removed. -/
theorem first_entry_is_passed_by :
    Placed fresh 3 ∧ WellFormedDir (fresh.content 3) ∧
      ¬ Correct 3 fresh (mapOf rootEntries) [.remove bootblockName] := by
  have h := fresh_is_new.placed (by decide) (by decide)
  refine ⟨h, ⟨rootEntries, rootEntries_valid, fresh_is_new.content⟩, fun hco => ?_⟩
  have hm := meets_of_correct (c := .remove bootblockName) h rootEntries_valid fresh_is_new.content bootblockName_string hco
  exact hm.2 (by decide)

end Rodvin.Starfs
