/-
  Rodvin.Kernel.EditScreen — the command line on the screen.

  The shell edits `currentCmd` and prints each key; the console moves its own cursor. In
  front of the cursor the cells are the line, and behind the cell under it they are blank
  (`Shown`). A backspace blanks the cell that the cursor leaves, which was blank, and the
  character taken off stays under the cursor: `screen_iff` says that the screen agrees
  with the line exactly when the last key was no backspace.
-/

import Rodvin.Kernel.EditLine

namespace Rodvin.Kernel.EditScreen

open Rodvin.Lib Rodvin.Libc Rodvin.Libc.Str Rodvin.Kernel.Console Rodvin.Kernel.EditLine

/-- From where the prompt `con₀` ends, the row shows the line up to the cursor and blanks
    after it. -/
structure Agrees (con₀ con : State) (cmd : List UInt32) : Prop where
  x : con.x = con₀.x + cmd.length
  y : con.y = con₀.y
  cells : ∀ i, ∀ h : i < cmd.length, screen con (con₀.x + i) con₀.y = cmd[i]
  after : ∀ i, con.x ≤ i → i < con₀.w → screen con i con₀.y = 0

/-- The same, but for the cell under the cursor. -/
structure Shown (con₀ con : State) (cmd : List UInt32) : Prop where
  w : con.w = con₀.w
  x : con.x = con₀.x + cmd.length
  y : con.y = con₀.y
  cells : ∀ i, ∀ h : i < cmd.length, screen con (con₀.x + i) con₀.y = cmd[i]
  after : ∀ i, con.x < i → i < con₀.w → screen con i con₀.y = 0

variable {con₀ con : State} {line keys : List UInt32} {c : UInt32}

theorem screen_setchar (con : State) (x y : Nat) (c : UInt32) (i j : Nat) :
    screen (setchar con x y c) i j = if i = x ∧ j = y then c else screen con i j := by
  unfold screen setchar
  rw [List.foldl_append]
  rfl

/-- Moving the cursor draws nothing. -/
theorem screen_moved (con : State) (x : Nat) : screen { con with x := x } = screen con := rfl

/-- What a printed key leaves in a cell. -/
theorem screen_plain (hb : c ≠ backspace) (hnl : c ≠ newline) (hx : con.x + 1 ≠ con.w) (i j : Nat) :
    screen (printchar con c) i j = if i = con.x ∧ j = con.y then c else screen con i j := by
  rw [printchar_plain hb hnl hx, screen_moved, screen_setchar]

theorem screen_backspace (con : State) (i j : Nat) :
    screen (printchar con backspace) i j = if i = con.x ∧ j = con.y then 0 else screen con i j := by
  rw [printchar_backspace, screen_moved, screen_setchar]

/-- A character goes into the cell under the cursor, and the next one is blank. -/
theorem shown_plain (h : Shown con₀ con line) (hb : c ≠ backspace) (hnl : c ≠ newline)
    (hedge : con₀.x + line.length + 1 < con₀.w) :
    Shown con₀ (printchar con c) (line ++ [c]) ∧ screen (printchar con c) (printchar con c).x con₀.y = 0 := by
  have hx := h.x
  have hy := h.y
  have hw := h.w
  have hlast : con.x + 1 ≠ con.w := by omega
  have hcell (i j : Nat) := screen_plain hb hnl hlast i j
  have hpos : (printchar con c).x = con.x + 1 ∧ (printchar con c).y = con.y ∧ (printchar con c).w = con.w := by
    rw [printchar_plain hb hnl hlast]
    exact ⟨rfl, rfl, rfl⟩
  obtain ⟨hx', hy', hw'⟩ := hpos
  refine ⟨⟨hw'.trans hw, ?_, hy'.trans hy, fun i hi => ?_, fun i h1 h2 => ?_⟩, ?_⟩
  · rw [hx', hx, List.length_append]
    rfl
  · rw [List.length_append, List.length_singleton] at hi
    rw [hcell]
    by_cases hlt : i < line.length
    · rw [if_neg (by omega), List.getElem_append_left hlt]
      exact h.cells i hlt
    · have hi' : i = line.length := by omega
      rw [if_pos ⟨by omega, hy.symm⟩, List.getElem_append_right (by omega)]
      simp [hi']
  · rw [hcell, if_neg (by omega)]
    exact h.after i (by omega) h2
  · rw [hcell, hx', if_neg (by omega)]
    exact h.after _ (by omega) (by omega)

/-- A backspace leaves the character taken off under the cursor. -/
theorem shown_backspace {init : List UInt32} {d : UInt32} (h : Shown con₀ con (init ++ [d])) :
    Shown con₀ (printchar con backspace) init ∧
      screen (printchar con backspace) (printchar con backspace).x con₀.y = d := by
  have hx := h.x
  have hy := h.y
  rw [List.length_append, List.length_singleton] at hx
  have hcell (i j : Nat) := screen_backspace con i j
  have hpos : (printchar con backspace).x = con.x - 1 ∧ (printchar con backspace).y = con.y ∧
      (printchar con backspace).w = con.w := by
    rw [printchar_backspace]
    exact ⟨rfl, rfl, rfl⟩
  obtain ⟨hx', hy', hw'⟩ := hpos
  have hold (i : Nat) (hi : i < (init ++ [d]).length) (hne : con₀.x + i ≠ con.x) :
      screen (printchar con backspace) (con₀.x + i) con₀.y = (init ++ [d])[i] := by
    rw [hcell, if_neg fun e => hne e.1]
    exact h.cells i hi
  refine ⟨⟨hw'.trans h.w, by omega, hy'.trans hy, fun i hi => ?_, fun i h1 h2 => ?_⟩, ?_⟩
  · rw [hold i (by rw [List.length_append]; omega) (by omega), List.getElem_append_left hi]
  · rw [hcell]
    by_cases hi : i = con.x ∧ con₀.y = con.y
    · rw [if_pos hi]
    · rw [if_neg hi]
      exact h.after i (by omega) h2
  · have hat : (printchar con backspace).x = con₀.x + init.length := by omega
    rw [hat, hold init.length (by simp) (by omega)]
    simp

/-- Whatever is typed, only the cell under the cursor can be wrong. -/
theorem shown_run {last : Option UInt32} (h : Shown con₀ con line) (h0 : 0 ∉ line) (hk : ∀ c ∈ keys, Typed c)
    (hfit : Fits line keys)
    (hedge : ∀ p, p <+: keys → con₀.x + (edited line p).length < con₀.w)
    (hcursor : screen con con.x con₀.y = 0 ↔ last ≠ some backspace) :
    Shown con₀ (printAll con keys) (edited line keys) ∧
      (screen (printAll con keys) (printAll con keys).x con₀.y = 0 ↔ keys.getLast?.or last ≠ some backspace) := by
  induction keys generalizing con line last with
  | nil => exact ⟨h, hcursor⟩
  | cons c keys ih =>
    obtain ⟨hc0, -, hnl⟩ := hk c List.mem_cons_self
    have hlast : (c :: keys).getLast?.or last = keys.getLast?.or (some c) := by
      rw [List.getLast?_cons]
      cases keys.getLast? with
      | none => rfl
      | some d => rfl
    have hstep : Shown con₀ (printchar con c) (edit line c) ∧ 0 ∉ edit line c ∧
        (screen (printchar con c) (printchar con c).x con₀.y = 0 ↔ some c ≠ some backspace) := by
      by_cases hb : c = backspace
      · obtain ⟨init, d, hline⟩ := (List.eq_nil_or_concat line).resolve_left (hfit.1 hb)
        rw [List.concat_eq_append] at hline
        rw [hline] at h h0
        obtain ⟨h1, h2⟩ := shown_backspace h
        have hd : d ≠ 0 := fun e => h0 (by rw [e]; simp)
        have hedit : edit line c = init := by
          unfold edit
          rw [if_pos hb, hline, List.dropLast_concat]
        rw [hedit, hb]
        exact ⟨h1, fun hm => h0 (List.mem_append_left _ hm), fun e => absurd (h2.symm.trans e) hd,
          fun e => absurd rfl e⟩
      · have hedit : edit line c = line ++ [c] := if_neg hb
        have hroom := hedge [c] (List.cons_prefix_cons.mpr ⟨rfl, List.nil_prefix⟩)
        rw [show edited line [c] = line ++ [c] from hedit, List.length_append, List.length_singleton] at hroom
        obtain ⟨h1, h2⟩ := shown_plain h hb hnl (by omega)
        rw [hedit]
        refine ⟨h1, fun hm => ?_, fun _ e => hb (Option.some.inj e), fun _ => h2⟩
        rcases List.mem_append.mp hm with hm | hm
        · exact h0 hm
        · exact hc0 (List.mem_singleton.mp hm).symm
    obtain ⟨h1, h2, h3⟩ := hstep
    rw [hlast]
    exact ih h1 h2 (fun d hd => hk d (List.mem_cons_of_mem _ hd)) hfit.2
      (fun p hp => hedge (c :: p) (List.cons_prefix_cons.mpr ⟨rfl, hp⟩)) h3

/-- After keys typed behind a prompt on a row that is blank from there on, and that the
    line does not fill, the screen agrees with the line exactly when the last key was no
    backspace; otherwise only the cell under the cursor is wrong. -/
theorem screen_iff {fresh : Nat → Nat → Nat → UInt8} {execute : Shell → Checked Shell} {sh sh' : Shell}
    (hs : Blank sh.currentCmd)
    (hblank : ∀ i, sh.con.x ≤ i → i < sh.con.w → screen sh.con i sh.con.y = 0) (hk : ∀ c ∈ keys, Typed c)
    (hrun : handleAll execute fresh sh keys = .ok sh')
    (hedge : ∀ p, p <+: keys → sh.con.x + (edited [] p).length < sh.con.w) :
    ∃ line, values sh'.currentCmd = .ok line ∧ (Agrees sh.con sh'.con line ↔ keys.getLast? ≠ some backspace) ∧
      Shown sh.con sh'.con line := by
  obtain ⟨x, junk, hedit⟩ := hs.editing
  have hlt : ∀ c ∈ edited [] keys, c < 0x200000 := fun c hc =>
    (hk c ((edited_mem hc).resolve_left List.not_mem_nil)).2.1
  have hstart : Shown sh.con sh.con [] :=
    ⟨rfl, rfl, rfl, fun i hi => absurd hi (Nat.not_lt_zero _), fun i h1 h2 => hblank i (Nat.le_of_lt h1) h2⟩
  have hroom : sh.con.x + 0 < sh.con.w := hedge [] List.nil_prefix
  have hcursor : screen sh.con sh.con.x sh.con.y = 0 ↔ (none : Option UInt32) ≠ some backspace :=
    ⟨fun _ => nofun, fun _ => hblank _ (Nat.le_refl _) hroom⟩
  rcases handleAll_cases fresh execute hedit hk with ⟨hfit, sh'', y, junk', hok, hline, hcon⟩ | ⟨-, he⟩ | ⟨he, -⟩
  · obtain rfl := Except.ok.inj (hok.symm.trans hrun)
    obtain ⟨h1, h2⟩ := shown_run hstart List.not_mem_nil hk hfit hedge hcursor
    rw [← hcon, Option.or_none] at h2
    rw [← hcon] at h1
    refine ⟨edited [] keys, hline.values hlt, ⟨fun h => ?_, fun h => ?_⟩, h1⟩
    · have hx := h1.x
      have hend := hedge keys (List.prefix_refl _)
      exact h2.mp (h.after _ (Nat.le_refl _) (by omega))
    · refine ⟨h1.x, h1.y, h1.cells, fun i hi hw => ?_⟩
      rcases Nat.eq_or_lt_of_le hi with rfl | hi
      · exact h2.mpr h
      · exact h1.after i hi hw
  · rw [he] at hrun
    cases hrun
  · rw [he] at hrun
    cases hrun

theorem length_edited (keys line : List UInt32) : (edited line keys).length ≤ line.length + keys.length := by
  induction keys generalizing line with
  | nil => exact Nat.le_refl _
  | cons c keys ih =>
    have hone : (edit line c).length ≤ line.length + 1 := by
      unfold edit
      by_cases hb : c = backspace
      · rw [if_pos hb, List.length_dropLast]
        omega
      · rw [if_neg hb, List.length_append, List.length_singleton]
    have hrest := ih (edit line c)
    show (edited (edit line c) keys).length ≤ _
    rw [List.length_cons]
    omega

/-- So few keys cannot reach the edge. -/
theorem edge_of_length {x w : Nat} (h : x + keys.length < w) (p : List UInt32) (hp : p <+: keys) :
    x + (edited [] p).length < w := by
  have hlen := length_edited p []
  have hle := hp.length_le
  rw [List.length_nil] at hlen
  omega

/-- "a" and "b", and "b" taken off and typed again. -/
theorem screen_iff_retyped : ∃ sh line, handleAll pure (fun _ _ _ => 0) started [0x61, 0x62, backspace, 0x62] = .ok sh ∧
    values sh.currentCmd = .ok line ∧
      (Agrees started.con sh.con line ↔ [0x61, 0x62, backspace, 0x62].getLast? ≠ some backspace) ∧
      Shown started.con sh.con line := by
  have hok : ∃ sh, handleAll pure (fun _ _ _ => 0) started [0x61, 0x62, backspace, 0x62] = .ok sh := ⟨_, rfl⟩
  obtain ⟨sh, hsh⟩ := hok
  obtain ⟨line, h⟩ := screen_iff blank_started (fun _ _ _ => rfl) (by simp [Typed, backspace, newline]) hsh
    (edge_of_length (by decide))
  exact ⟨sh, line, hsh, h⟩

/-- "a" taken off is still there. -/
theorem erased_character_stays : ¬ ∀ (fresh : Nat → Nat → Nat → UInt8) (execute : Shell → Checked Shell) (sh sh' : Shell)
    (keys : List UInt32), Blank sh.currentCmd → (∀ i, sh.con.x ≤ i → i < sh.con.w → screen sh.con i sh.con.y = 0) →
    (∀ c ∈ keys, Typed c) → handleAll execute fresh sh keys = .ok sh' →
    (∀ p, p <+: keys → sh.con.x + (edited [] p).length < sh.con.w) →
    ∃ line, values sh'.currentCmd = .ok line ∧ Agrees sh.con sh'.con line := by
  intro h
  have hok : ∃ sh, handleAll pure (fun _ _ _ => 0) started [0x61, backspace] = .ok sh ∧
      sh.con = printAll started.con [0x61, backspace] := ⟨_, rfl, rfl⟩
  obtain ⟨sh, hsh, hcon⟩ := hok
  obtain ⟨line, -, hagrees⟩ := h (fun _ _ _ => 0) pure started sh [0x61, backspace] blank_started (fun _ _ _ => rfl)
    (by simp [Typed, backspace, newline]) hsh (edge_of_length (by decide))
  have hcell := hagrees.after 0 (by rw [hcon]; decide +kernel) (by decide)
  rw [hcon] at hcell
  exact absurd hcell (by decide +kernel)

end Rodvin.Kernel.EditScreen
