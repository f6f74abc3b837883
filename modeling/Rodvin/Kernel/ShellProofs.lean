/-
  Rodvin.Kernel.ShellProofs — the working directory over any sequence of command lines.

  `pathTo_eq` and `lookup_last` say what path an argument gives and what `lookup` finds
  there, by the last component. From them one line keeps the working directory exactly
  when it is divided and its words are in order (`line_keeps`, `words_of_keeps`), and by
  induction so does a sequence (`working_directory_iff`).
-/

import Rodvin.Kernel.Shell

namespace Rodvin.Kernel.Shell

open Rodvin.Lib Rodvin.Libc Rodvin.Libc.Path Rodvin.Kernel.Vfs Rodvin.Kernel.Split

variable {fs : Filesystem} {sh sh' : State} {arg l : Text} {cs ds ps : List Text}
  {line : Line} {fresh : Nat → Nat → UInt8}

/-! ## Components -/

theorem joined_concat (ds : List Text) (l : Text) : joined slash (ds ++ [l]) = joined slash ds ++ slash :: l := by simp

theorem components_pathOf (h : Normal cs) : components (pathOf cs) = cs := by
  unfold components pathOf
  rcases List.eq_nil_or_concat' cs with rfl | ⟨ds, l, rfl⟩
  · rfl
  · have hfree : ∀ d ∈ ds, slash ∉ d := fun d hd => (h d (List.mem_append_left _ hd)).2.2.2
    rw [if_neg (by simp), joined_concat, parts_joined hfree, parts_of_free (h l (by simp)).2.2.2]
    refine List.filter_eq_self.mpr fun c hc => ?_
    simpa using (h c hc).1

theorem pathOf_eq_joined (h : Normal cs) (hd : ∀ d ∈ ds, slash ∉ d) (hl : slash ∉ l) (hne : l ≠ [])
    (he : pathOf cs = joined slash (ds ++ [l])) : cs = ds ++ [l] := by
  unfold pathOf at he
  split at he
  · have := congrArg List.length he
    have hpos := List.length_pos_iff.mpr hne
    simp at this
    omega
  · refine joined_injective (fun c hc => (h c hc).2.2.2) (fun d hd' => ?_) he
    rcases List.mem_append.mp hd' with hd' | hd'
    · exact hd d hd'
    · exact List.mem_singleton.mp hd' ▸ hl

/-! ## The path of an argument -/

/-- The request of an argument: a normal start, slash-free components and a last one. -/
theorem request_spec (h : Normal cs) (hp : sh.currentPath = pathOf cs) (arg : Text) :
    ∃ ps l, (request sh arg).2 = ps ++ [l] ∧ Normal (request sh arg).1 ∧ ∀ c ∈ ps ++ [l], slash ∉ c := by
  unfold request
  split
  · obtain ⟨ps, l, he⟩ := (List.eq_nil_or_concat' (parts slash arg.tail)).resolve_left (parts_ne_nil _)
    exact ⟨ps, l, he, normal_nil, he ▸ parts_free _⟩
  · obtain ⟨ps, l, he⟩ := (List.eq_nil_or_concat' (parts slash arg)).resolve_left (parts_ne_nil _)
    refine ⟨ps, l, he, ?_, he ▸ parts_free _⟩
    rw [hp, components_pathOf h]
    exact h

theorem pathTo_eq (h : Normal cs) (hp : sh.currentPath = pathOf cs) (hr : (request sh arg).2 = ps ++ [l])
    (hf : ∀ c ∈ ps ++ [l], slash ∉ c) :
    pathTo sh arg = match resolve (request sh arg).1 ps with
      | none => fault
      | some ds => .ok (joined slash (ds ++ [l])) := by
  unfold pathTo
  unfold request at hr ⊢
  by_cases ha : arg.head? = some slash
  · rw [if_pos ha] at hr ⊢
    rw [if_pos ha]
    obtain ⟨rest, rfl⟩ : ∃ rest, arg = slash :: rest := by
      cases arg with
      | nil => cases ha
      | cons c rest =>
        cases ha
        exact ⟨rest, rfl⟩
    have hr : parts slash rest = ps ++ [l] := hr
    rw [← joined_parts rest, hr]
    exact canonical_eq hf
  · rw [if_neg ha] at hr ⊢
    rw [if_neg ha]
    have hr : parts slash arg = ps ++ [l] := hr
    show _ = match resolve (components sh.currentPath) ps with
      | none => fault
      | some ds => .ok (joined slash (ds ++ [l]))
    rw [hp, components_pathOf h]
    by_cases hcs : cs = []
    · -- at the root one more slash stands in front, and an empty component
      have hd : div (pathOf cs) arg = joined slash (([] :: ps) ++ [l]) := by
        rw [List.cons_append, ← hr, joined_cons, joined_parts, hcs]
        rfl
      have hc := canonical_eq (show ∀ c ∈ ([] :: ps) ++ [l], slash ∉ c by simpa using hf)
      rw [resolve, if_pos (.inl rfl)] at hc
      rw [hd, hcs]
      exact hc
    · have hd : div (pathOf cs) arg = joined slash ((cs ++ ps) ++ [l]) := by
        rw [List.append_assoc, ← hr, joined_append, joined_parts, pathOf, if_neg hcs, div, List.append_assoc]
        rfl
      have hall : ∀ c ∈ (cs ++ ps) ++ [l], slash ∉ c := by
        intro c hc
        rw [List.append_assoc] at hc
        rcases List.mem_append.mp hc with hc | hc
        · exact (h c hc).2.2.2
        · exact hf c hc
      have hc := canonical_eq hall
      rw [resolve_append h, List.nil_append] at hc
      rw [hd]
      exact hc

/-- What `lookup` finds at a path by its last component: the entry; with nothing behind the
    last slash the root, or nothing. -/
theorem lookup_last (hd : Normal ds) (hl : slash ∉ l) :
    lookup fs (joined slash (ds ++ [l])) =
      .ok (endAt fs ds l) := by
  unfold endAt
  have hn : ∀ b ∈ ds, b ≠ [] ∧ slash ∉ b := fun b hb => ⟨(hd b hb).1, (hd b hb).2.2.2⟩
  by_cases h : l ≠ []
  · rw [if_pos h]
    exact lookup_eq hn hl h
  · rw [if_neg h, not_not.mp h]
    rcases List.eq_nil_or_concat' ds with rfl | ⟨es, b, rfl⟩
    · rw [if_pos rfl]
      exact lookup_root
    · rw [if_neg (by simp)]
      exact lookup_trailing hn

/-! ## One line -/

/-- Printing what belongs to each of a list. -/
theorem print_currentPath {α : Type} (text : α → Text) (behind : Text) (as : List α) : ∀ sh : State,
    (as.foldl (fun sh a => (sh.printtext (text a)).printtext behind) sh).currentPath = sh.currentPath := by
  induction as with
  | nil => exact fun sh => rfl
  | cons a as ih => exact fun sh => ih ((sh.printtext (text a)).printtext behind)

theorem Inv.congr (h : Inv fs sh) (he : sh'.currentPath = sh.currentPath) : Inv fs sh' := by
  unfold Inv
  rw [he]
  exact h

theorem root_inv (h : sh.currentPath = [slash]) : Inv fs sh :=
  ⟨[], normal_nil, h, rootEntry, by rw [h]; exact lookup_root, .inl rfl⟩

/-- A `cd` in order. -/
theorem cd_keeps {rest : List Text} (hi : Inv fs sh) (hs : Stays sh arg) (he : Enters fs sh arg) :
    ∃ sh', executeCd fs sh (cd :: arg :: rest) = .ok sh' ∧ Inv fs sh' ∧
      (¬ Leads fs sh arg → sh'.currentPath = sh.currentPath) := by
  obtain ⟨cs, hn, hp, -⟩ := id hi
  obtain ⟨ps, l, hr, hb, hf⟩ := request_spec hn hp arg
  have hpath := pathTo_eq hn hp hr hf
  unfold Stays at hs
  unfold Enters at he
  rw [hr, List.dropLast_concat] at hs he
  rw [List.getLast?_concat] at he
  obtain ⟨ds, hds⟩ := Option.ne_none_iff_exists'.mp hs
  rw [hds] at hpath
  have hdn : Normal ds := resolve_is_normal hb (fun c hc => hf c (List.mem_append_left _ hc)) hds
  have hl : slash ∉ l := hf l (by simp)
  have hlook : lookup fs (joined slash (ds ++ [l])) = _ := lookup_last hdn hl
  unfold endAt at hlook
  have hexec : executeCd fs sh (cd :: arg :: rest) = _ := (ok_bind hpath).trans (ok_bind hlook)
  rw [hexec]
  have hres : resolve (request sh arg).1 (request sh arg).2 = resolve ds [l] := by
    rw [hr, resolve_concat, hds]
    rfl
  by_cases hne : l ≠ []
  · rw [if_pos hne]
    cases hent : entryAt fs (ds ++ [l]) with
    | none => exact ⟨_, rfl, hi.congr rfl, fun _ => rfl⟩
    | some e =>
      obtain ⟨h1, h2, h3⟩ := he ds l e hds rfl hne hent
      have hnorm := normal_append hdn hne h1 h2 hl
      have hpo : joined slash (ds ++ [l]) = pathOf (ds ++ [l]) := (if_neg (by simp)).symm
      refine ⟨_, rfl, ⟨ds ++ [l], hnorm, hpo, e, ?_, h3⟩, fun hnot => absurd ?_ hnot⟩
      · rw [hlook, if_pos hne, hent]
      · refine ⟨ds ++ [l], e, ?_, hent, h3⟩
        rw [hres, resolve, if_neg (by tauto), if_neg h2]
        rfl
  · rw [if_neg hne]
    by_cases hroot : ds = []
    · rw [if_pos hroot]
      have hpath : joined slash (ds ++ [l]) = [slash] := by rw [hroot, not_not.mp hne]; rfl
      refine ⟨_, rfl, root_inv hpath, fun hnot => absurd ?_ hnot⟩
      refine ⟨ds, rootEntry, ?_, by rw [hroot]; rfl, .inl rfl⟩
      rw [hres, resolve, if_pos (.inl (not_not.mp hne))]
      rfl
    · rw [if_neg hroot]
      exact ⟨_, rfl, hi.congr rfl, fun _ => rfl⟩

/-- A path that can be computed can be looked up. -/
theorem lookup_pathTo (hi : Inv fs sh) (hs : Stays sh arg) : ∃ ds l p,
    resolve (request sh arg).1 (request sh arg).2.dropLast = some ds ∧ (request sh arg).2.getLast? = some l ∧
      pathTo sh arg = .ok p ∧ lookup fs p = .ok (endAt fs ds l) := by
  obtain ⟨cs, hn, hp, -⟩ := hi
  obtain ⟨ps, l, hr, hb, hf⟩ := request_spec hn hp arg
  have hpath := pathTo_eq hn hp hr hf
  unfold Stays at hs
  rw [hr, List.dropLast_concat] at hs ⊢
  obtain ⟨ds, hds⟩ := Option.ne_none_iff_exists'.mp hs
  rw [hds] at hpath
  refine ⟨ds, l, joined slash (ds ++ [l]), hds, List.getLast?_concat, hpath, ?_⟩
  exact lookup_last (resolve_is_normal hb (fun c hc => hf c (List.mem_append_left _ hc)) hds) (hf l (by simp))

theorem stays_of_pathTo {p : Text} (hi : Inv fs sh) (h : pathTo sh arg = .ok p) : Stays sh arg := by
  obtain ⟨cs, hn, hp, -⟩ := hi
  obtain ⟨ps, l, hr, -, hf⟩ := request_spec hn hp arg
  rw [pathTo_eq hn hp hr hf] at h
  unfold Stays
  rw [hr, List.dropLast_concat]
  intro hnone
  rw [hnone] at h
  cases h

theorem executeLs_keeps {args : List Text} (hi : Inv fs sh) (h : ∀ arg, args[1]? = some arg → Stays sh arg) :
    ∃ sh', executeLs fs sh args = .ok sh' ∧ sh'.currentPath = sh.currentPath := by
  have hlook : ∃ p r, lsPath sh args = .ok p ∧ lookup fs p = .ok r := by
    unfold lsPath
    cases ha : args[1]? with
    | none =>
      obtain ⟨cs, -, -, e, he, -⟩ := hi
      exact ⟨_, _, rfl, he⟩
    | some arg =>
      obtain ⟨ds, l, p, -, -, hp, hlook⟩ := lookup_pathTo hi (h arg ha)
      exact ⟨p, _, hp, hlook⟩
  obtain ⟨p, r, h1, h2⟩ := hlook
  unfold executeLs
  rw [ok_bind h1, h2]
  cases r with
  | none => exact ⟨_, rfl, rfl⟩
  | some ent => exact ⟨_, rfl, print_currentPath DirEntry.name _ _ sh⟩

theorem newFor_eq_ok_iff {e : DirEntry} {file : Text} :
    newFor e file = .ok () ↔ e.size ≠ none ∧ file.length + 1 ≤ Str.heapLimit := by
  unfold newFor
  by_cases hsize : e.size = none
  · rw [if_pos hsize]
    exact ⟨nofun, fun h => absurd hsize h.1⟩
  · rw [if_neg hsize]
    by_cases hroom : Str.heapLimit < file.length + 1
    · rw [if_pos hroom]
      exact ⟨nofun, fun h => absurd h.2 (Nat.not_le_of_lt hroom)⟩
    · rw [if_neg hroom]
      exact ⟨fun _ => ⟨hsize, Nat.le_of_not_lt hroom⟩, fun _ => rfl⟩

theorem executeCat_keeps {rest : List Text} (hi : Inv fs sh) (h : Stays sh arg) (hshows : Shows fs sh arg) :
    ∃ sh', executeCat fs sh (cat :: arg :: rest) = .ok sh' ∧ sh'.currentPath = sh.currentPath := by
  obtain ⟨ds, l, p, hds, hl, h1, h2⟩ := lookup_pathTo hi h
  have hexec : executeCat fs sh (cat :: arg :: rest) = _ := (ok_bind h1).trans (ok_bind h2)
  rw [hexec]
  cases hent : endAt fs ds l with
  | none => exact ⟨_, rfl, rfl⟩
  | some ent =>
    have hnew := newFor_eq_ok_iff.mpr (hshows ds l ent hds hl hent)
    exact ⟨_, ok_bind hnew, rfl⟩

/-- A `cat` that returns has found a size. -/
theorem shows_of_runs {rest : List Text} (hi : Inv fs sh) (h : executeCat fs sh (cat :: arg :: rest) = .ok sh') :
    Stays sh arg ∧ Shows fs sh arg := by
  obtain ⟨p', hp', -⟩ := bind_eq_ok.mp h
  have hs := stays_of_pathTo hi hp'
  obtain ⟨ds, l, p, hds, hl, h1, h2⟩ := lookup_pathTo hi hs
  refine ⟨hs, fun ds' l' e hds' hl' hent => ?_⟩
  rw [hds] at hds'
  rw [hl] at hl'
  cases hds'
  cases hl'
  have hexec : executeCat fs sh (cat :: arg :: rest) = _ := (ok_bind h1).trans (ok_bind h2)
  rw [hexec, hent] at h
  obtain ⟨u, hnew, -⟩ := bind_eq_ok.mp h
  exact newFor_eq_ok_iff.mp hnew

theorem run_echo (args : List Text) : run fs sh (echo :: args) = .ok (executeEcho sh (echo :: args)) := rfl

theorem run_ls (args : List Text) : run fs sh (ls :: args) = executeLs fs sh (ls :: args) := rfl

theorem run_cd (args : List Text) : run fs sh (cd :: args) = executeCd fs sh (cd :: args) := rfl

theorem run_cat (args : List Text) : run fs sh (cat :: args) = executeCat fs sh (cat :: args) := rfl

/-- All commands but `cd` leave the path as it is. -/
theorem run_same {name : Text} {args : List Text} (hi : Inv fs sh) (hw : WordsOk fs sh (name :: args)) (h : name ≠ cd) :
    ∃ sh', run fs sh (name :: args) = .ok sh' ∧ sh'.currentPath = sh.currentPath := by
  by_cases h1 : name = echo
  · subst h1
    exact ⟨_, run_echo args, print_currentPath id _ args sh⟩
  by_cases h2 : name = ls
  · subst h2
    rw [run_ls]
    refine executeLs_keeps hi fun arg ha => ?_
    cases args with
    | nil => cases ha
    | cons b bs =>
      cases ha
      exact hw.1 rfl
  by_cases h3 : name = cat
  · subst h3
    cases args with
    | nil => exact absurd rfl hw
    | cons arg rest =>
      rw [run_cat]
      exact executeCat_keeps hi (hw.2.2 rfl).1 (hw.2.2 rfl).2
  · refine ⟨((sh.printtext (literal "Unknown command ".toList)).printtext name).printtext (literal ['\n']), ?_, rfl⟩
    unfold run
    exact (if_neg h1).trans ((if_neg h2).trans ((if_neg h).trans (if_neg h3)))

theorem bytes_ofPoints (cs : List UInt32) : Str.bytes (ofPoints cs) = Str.encoding cs := List.take_left

/-- A line runs when it is divided, on its arguments. -/
theorem execute_eq_ok_iff (fresh : Nat → Nat → UInt8) :
    execute fs fresh sh line.str = .ok sh' ↔ Divided line.str line.points ∧ run fs sh line.args = .ok sh' := by
  obtain ⟨x, junk, hedit⟩ := line.editing
  have hsplit := split_eq_ok_iff fresh hedit (fun c hc => (line.valid c hc).2)
  have hargs : ((arguments line.points).map ofPoints).map Str.bytes = line.args := by
    rw [List.map_map]
    exact List.map_congr_left fun cs _ => bytes_ofPoints cs
  unfold execute
  rw [bind_eq_ok]
  constructor
  · rintro ⟨args, hs, hr⟩
    obtain ⟨hdivided, rfl⟩ := (hsplit args).mp hs
    rw [hargs] at hr
    exact ⟨hdivided, hr⟩
  · rintro ⟨hdivided, hr⟩
    exact ⟨_, (hsplit _).mpr ⟨hdivided, rfl⟩, hargs ▸ hr⟩

/-- A divided line keeps the working directory when its words are in order. -/
theorem line_keeps (hi : Inv fs sh) (hdivided : Divided line.str line.points) (h : WordsOk fs sh line.args) :
    ∃ sh', LineKeeps fs fresh sh line sh' := by
  unfold LineKeeps
  simp only [execute_eq_ok_iff, and_iff_right hdivided]
  generalize line.args = args at h ⊢
  match args with
  | [] => exact ⟨sh, rfl, hi, fun _ _ he => nomatch he⟩
  | name :: args =>
    by_cases hcd : name = cd
    · subst hcd
      cases args with
      | nil => exact ⟨_, run_cd [], hi.congr rfl, fun _ _ _ _ => rfl⟩
      | cons arg rest =>
        obtain ⟨hs, he⟩ := h.2.1 rfl
        obtain ⟨sh', hr, hinv, hlead⟩ := cd_keeps hi hs he
        refine ⟨sh', (run_cd (arg :: rest)).trans hr, hinv, fun arg' rest' heq => ?_⟩
        cases heq
        exact hlead
    · obtain ⟨sh', hr, he⟩ := run_same hi h hcd
      exact ⟨sh', hr, hi.congr he, fun _ _ _ _ => he⟩

/-- A `cd` that enters something keeps the working directory only where it should. -/
theorem enters_of_keeps {rest : List Text} (hi : Inv fs sh) (hr : executeCd fs sh (cd :: arg :: rest) = .ok sh')
    (hi' : Inv fs sh') : Enters fs sh arg := by
  intro ds l e hds hl hne hent
  obtain ⟨cs, hn, hp, -⟩ := id hi
  obtain ⟨ps, l', hreq, hb, hf⟩ := request_spec hn hp arg
  have hpath := pathTo_eq hn hp hreq hf
  rw [hreq, List.dropLast_concat] at hds
  rw [hreq, List.getLast?_concat] at hl
  cases hl
  rw [hds] at hpath
  have hdn : Normal ds := resolve_is_normal hb (fun c hc => hf c (List.mem_append_left _ hc)) hds
  have hslash : slash ∉ l := hf l (by simp)
  have hlook : lookup fs (joined slash (ds ++ [l])) = .ok (some e) := by
    rw [lookup_last hdn hslash, endAt, if_pos hne, hent]
  have hexec : executeCd fs sh (cd :: arg :: rest) = .ok { sh with currentPath := joined slash (ds ++ [l]) } := by
    refine (ok_bind hpath).trans ?_
    rw [hlook]
    rfl
  rw [hexec] at hr
  cases hr
  obtain ⟨cs', hn', hp', e', he', hdir⟩ := hi'
  have hcs := pathOf_eq_joined hn' (fun d hd => (hdn d hd).2.2.2) hslash hne hp'.symm
  obtain ⟨-, h2, h3, -⟩ := hn' l (by rw [hcs]; simp)
  rw [hlook] at he'
  cases he'
  exact ⟨h2, h3, hdir⟩

theorem words_of_keeps (hi : Inv fs sh) (h : LineKeeps fs fresh sh line sh') :
    Divided line.str line.points ∧ WordsOk fs sh line.args := by
  obtain ⟨hr, hi', -⟩ := h
  obtain ⟨hdivided, hr⟩ := (execute_eq_ok_iff fresh).mp hr
  refine ⟨hdivided, ?_⟩
  generalize line.args = args at hr ⊢
  match args with
  | [] => trivial
  | [name] =>
    rintro rfl
    cases hr
  | name :: arg :: rest =>
    refine ⟨?_, ?_, ?_⟩
    · rintro rfl
      obtain ⟨p, hp, -⟩ := bind_eq_ok.mp hr
      exact stays_of_pathTo hi hp
    · rintro rfl
      obtain ⟨p, hp, -⟩ := bind_eq_ok.mp hr
      exact ⟨stays_of_pathTo hi hp, enters_of_keeps hi ((run_cd (arg :: rest)).symm.trans hr) hi'⟩
    · rintro rfl
      exact shows_of_runs hi ((run_cat (arg :: rest)).symm.trans hr)

/-! ## All lines -/

theorem keeps_iff {fresh : Nat → Nat → Nat → UInt8} {lines : List Line} :
    ∀ {sh : State}, Inv fs sh → (Keeps fs fresh sh lines ↔ AllOk fs fresh sh lines) := by
  induction lines with
  | nil => exact fun hi => ⟨fun _ => trivial, fun _ => hi⟩
  | cons line lines ih =>
    intro sh hi
    constructor
    · rintro ⟨-, sh', hk, hrest⟩
      refine ⟨words_of_keeps hi hk, fun sh'' hr => ?_⟩
      rw [hk.1] at hr
      cases hr
      exact (ih hk.2.1).mp hrest
    · rintro ⟨⟨hdivided, hw⟩, hrest⟩
      obtain ⟨sh', hk⟩ := line_keeps hi hdivided hw
      exact ⟨hi, sh', hk, (ih hk.2.1).mpr (hrest sh' hk.1)⟩

/-- On every tree and after every sequence of command lines the working directory is an
    existing directory with a normal path, and a `cd` that leads to none leaves it, exactly
    when every line is divided and its words are in order. -/
theorem working_directory_iff (fs : Filesystem) (fresh : Nat → Nat → Nat → UInt8) (lines : List Line) :
    Keeps fs fresh init lines ↔ AllOk fs fresh init lines := keeps_iff (root_inv rfl)

/-- A tree of one file, `f`. -/
def oneFile : Filesystem where
  openrootdir := [⟨some 1, some 0, 5, literal ['f']⟩]
  opendir _ := []
  open_ _ := literal ['x']
  directory _ := false
  root_names := by decide
  names := by simp

/-- `cd f`. -/
def cdF : Line where
  str := ⟨some [0x63, 0x64, 0x20, 0x66, 0], 4, 4⟩
  points := [0x63, 0x64, 0x20, 0x66]
  editing := ⟨0, [], by decide, by decide, by decide, by decide, fun _ => by decide⟩
  valid := by simp

theorem cd_enters_a_file : ¬ ∀ fs fresh lines, Keeps fs fresh init lines := by
  intro h
  obtain ⟨-, sh', ⟨hr, ⟨-, -, -, e, he, hd⟩, -⟩, -⟩ := h oneFile (fun _ _ _ => 0) [cdF]
  have hrun : execute oneFile (fun _ _ => 0) init cdF.str = .ok ⟨literal ['/', 'f'], []⟩ := by decide +kernel
  have hr : execute oneFile (fun _ _ => 0) init cdF.str = .ok sh' := hr
  rw [hrun] at hr
  cases hr
  have hlook : lookup oneFile (literal ['/', 'f']) = .ok (some ⟨some 1, some 0, 5, literal ['f']⟩) := by decide +kernel
  rw [hlook] at he
  cases he
  rcases hd with hd | hd
  · exact absurd hd (by decide)
  · cases hd

end Rodvin.Kernel.Shell
