/-
  Rodvin.Kernel.EditLine — the command line of the shell (`Shell::handleChar`,
  `kernel/src/common/Shell.cpp`).

  Each key edits `currentCmd` and is printed on the console. `edited` is what the keys are
  to leave on the line. `pop_back` writes no terminator, so what is kept is the encoding of
  the line and a byte behind it that continues no code point (`Editing`).

  `edits_line`: the line is the edited one exactly when no prefix of the keys has more
  backspaces than other keys; one more and `pop_back` reads in front of the buffer.
-/

import Rodvin.Libc.Utf16Proofs
import Rodvin.Kernel.Console

namespace Rodvin.Kernel.EditLine

open Rodvin.Lib Rodvin.Libc Rodvin.Libc.Str Rodvin.Kernel.Console

/-- The current path is its `string()`. -/
structure Shell where
  con : Console.State
  currentPath : Str
  currentCmd : Str

/-- `con.printtext` of a literal. -/
def printLiteral (fresh : Nat → UInt8) (con : Console.State) (data : Bytes) : Checked Console.State := do
  printtext con (← ofCString fresh data)

/-- `uint32_t t[2] = { c, 0 }; con.printtext(rodvin::string(t));` -/
def printKey (fresh : Nat → Nat → UInt8) (con : Console.State) (c : UInt32) : Checked Console.State := do
  printtext con (← ofUtf32 fresh [c, 0])

/-- "u@localhost:" -/
def user : Bytes := [0x75, 0x40, 0x6C, 0x6F, 0x63, 0x61, 0x6C, 0x68, 0x6F, 0x73, 0x74, 0x3A, 0]

/-- "$ " -/
def dollar : Bytes := [0x24, 0x20, 0]

variable (fresh : Nat → Nat → UInt8) (execute : Shell → Checked Shell)

/-- `execute` runs the line; the commands and the files behind it are a parameter. -/
def handleChar (sh : Shell) (c : UInt32) : Checked Shell :=
  if c = newline then do
    let con ← printLiteral (fresh 0) sh.con [0x0A, 0]
    let sh ← execute { sh with con := con }
    let con ← printLiteral (fresh 1) sh.con user
    let con ← printtext con sh.currentPath
    let con ← printLiteral (fresh 2) con dollar
    let cmd ← clear (fresh 3) sh.currentCmd
    pure { sh with con := con, currentCmd := cmd }
  else if c = backspace then do
    let cmd ← popBack sh.currentCmd
    let con ← printKey fresh sh.con c
    pure { sh with con := con, currentCmd := cmd }
  else do
    let cmd ← pushBack (fresh 0) sh.currentCmd c
    let con ← printKey (fun n => fresh (n + 1)) sh.con c
    pure { sh with con := con, currentCmd := cmd }

/-- One key after the other. -/
def handleAll (fresh : Nat → Nat → Nat → UInt8) (sh : Shell) : List UInt32 → Checked Shell
  | [] => pure sh
  | c :: cs => do
    let sh ← handleChar (fresh cs.length) execute sh c
    handleAll fresh sh cs

/-! ## What the keys are to do -/

def edit (line : List UInt32) (c : UInt32) : List UInt32 := if c = backspace then line.dropLast else line ++ [c]

def edited (line keys : List UInt32) : List UInt32 := keys.foldl edit line

/-- Code points that `push_back` can encode; no newline ends the line. -/
def Typed (c : UInt32) : Prop := c ≠ 0 ∧ c < 0x200000 ∧ c ≠ newline

instance (c : UInt32) : Decidable (Typed c) := inferInstanceAs (Decidable (_ ∧ _ ∧ _))

/-- No prefix has more backspaces than other keys. -/
def Balanced (keys : List UInt32) : Prop := ∀ p, p <+: keys → 2 * p.count backspace ≤ p.length

/-- An empty string in a buffer, as `clear` leaves it; a `string()` has the readable byte at
    `NULL` for one. -/
def Blank (s : Str) : Prop :=
  ∃ b, s.storage = some b ∧ b.length = s.capacity_ + 1 ∧ s.size_ = 0 ∧ s.capacity_ < heapLimit

/-- The string holds a line that is being edited: its encoding, and a byte `x` behind it. -/
structure Editing (s : Str) (line : List UInt32) (x : UInt8) (junk : Bytes) : Prop where
  storage : s.storage = some (encoding line ++ x :: junk)
  size : s.size_ = (encoding line).length
  capacity : s.capacity_ = s.size_ + junk.length
  limit : s.capacity_ < heapLimit
  lead : line ≠ [] → continues x = false

variable {fresh execute} {s t : Str} {sh sh' : Shell} {line keys : List UInt32} {c : UInt32} {x : UInt8} {junk : Bytes}

/-! ## One edit -/

theorem Blank.editing (h : Blank s) : ∃ x junk, Editing s [] x junk := by
  obtain ⟨b, hs, hl, hsize, hlim⟩ := h
  cases b with
  | nil => cases hl
  | cons x junk =>
    rw [List.length_cons] at hl
    exact ⟨x, junk, hs, hsize, by omega, hlim, fun h => absurd rfl h⟩

theorem Held.editing (h : Held t) (hb : bytes t = encoding line) : ∃ junk, Editing t line 0 junk := by
  obtain ⟨junk, hspells⟩ := h.spells hb
  have hlen := hspells.owns.length
  have hsize := hspells.size
  rw [List.length_append, List.length_cons] at hlen
  exact ⟨junk, hspells.owns.storage, hsize, by omega, h.2, fun _ => rfl⟩

/-- Iterating the string gives the line. -/
theorem Editing.values (h : Editing s line x junk) (hc : ∀ c ∈ line, c < 0x200000) : values s = .ok line := by
  by_cases hne : line = []
  · have hzero : s.size_ = 0 := by rw [h.size, hne]; rfl
    unfold Str.values begin_
    rw [hzero, hne]
    unfold valuesFrom
    exact if_pos hzero.symm
  · have hreads : Reads s line x junk := ⟨h.storage, h.size, h.lead hne⟩
    exact valuesFrom_eq hc hreads (p := []) rfl (by rw [h.size]; exact length_le_encoding line)

theorem pushBack_editing (fresh : Nat → UInt8) (c : UInt32) (h : Editing s line x junk) :
    (∃ t junk', pushBack fresh s c = .ok t ∧ Editing t (line ++ [c]) 0 junk') ∨
      (pushBack fresh s c = .error .noReturn ∧ heapLimit < (encoding line).length + 9) := by
  have hcap := h.capacity
  have hsize := h.size
  have hlen : (encoding line ++ x :: junk).length = s.capacity_ + 1 := by
    rw [List.length_append, List.length_cons]
    omega
  rcases pushBack_cases fresh c h.storage hlen (by omega) h.limit with ⟨t, ht, hheld, hbytes⟩ | ⟨he, hfull⟩
  · have hline : bytes t = encoding (line ++ [c]) := by
      rw [hbytes, hsize, List.take_left, encoding_append]
      simp [encoding]
    obtain ⟨junk', hedit⟩ := Held.editing hheld hline
    exact .inl ⟨t, junk', ht, hedit⟩
  · exact .inr ⟨he, by omega⟩

/-- What is behind the line is then the lead byte of the code point taken off. -/
theorem popBack_editing (h : Editing s (line ++ [c]) x junk) :
    ∃ t y junk', popBack s = .ok t ∧ Editing t line y junk' := by
  obtain ⟨m, tail, he, hm, htail⟩ := utf8_marked c
  have henc : encoding (line ++ [c]) = encoding line ++ m :: tail := by
    rw [encoding_append, ← he]
    simp [encoding]
  have hs : s.storage = some (encoding line ++ m :: (tail ++ x :: junk)) := by
    rw [h.storage, henc, List.append_assoc, List.cons_append]
  have hsize : s.size_ = (encoding line).length + tail.length + 1 := by
    rw [h.size, henc, List.length_append, List.length_cons]
    omega
  have hcap := h.capacity
  have hscan : popScan (encoding line ++ m :: (tail ++ x :: junk)) s.size_ = .ok (encoding line).length := by
    rw [hsize]
    exact popScan_lead hm htail
  refine ⟨{ s with size_ := (encoding line).length }, m, tail ++ x :: junk, ?_, hs, rfl, ?_, h.limit, fun _ => hm⟩
  · have hderef : deref s.storage = .ok (encoding line ++ m :: (tail ++ x :: junk)) := by
      rw [hs]
      rfl
    unfold popBack
    rw [ok_bind hderef, ok_bind hscan]
    rfl
  · show s.capacity_ = (encoding line).length + (tail ++ x :: junk).length
    rw [List.length_append, List.length_cons]
    omega

theorem popBack_empty (h : Editing s [] x junk) : popBack s = .error .fault := by
  have hzero : s.size_ = 0 := h.size
  unfold popBack
  rw [h.storage, hzero]
  rfl

/-! ## Printing a key -/

theorem printKey_eq (fresh : Nat → Nat → UInt8) (con : Console.State) (h0 : c ≠ 0) (hc : c < 0x200000) :
    printKey fresh con c = .ok (printchar con c) := by
  obtain ⟨s, hs, hheld, hnil⟩ := roomForEight_eq (fresh 2)
  have hmade : ∃ t, ofUtf32 fresh [c, 0] = .ok t ∧ Str.values t = .ok [c] := by
    rcases pushBack_makes (fresh 1) c hheld with ⟨t, ht, hheld', hbytes⟩ | ⟨-, hfull⟩
    · have hone : bytes t = encoding [c] := by
        rw [hbytes, hnil]
        simp [encoding]
      obtain ⟨junk, hspells⟩ := hheld'.spells hone
      refine ⟨t, ?_, (spells_roundTrips (by simpa using hc) hspells).values⟩
      unfold ofUtf32
      rw [show ([c, 0] : List UInt32).length = 2 from rfl, ok_bind hs]
      unfold pushUtf32
      rw [if_pos h0]
      show (pushBack (fresh 1) s c >>= fun s => pushUtf32 fresh s [0]) = _
      rw [ok_bind ht]
      rfl
    · have hfour := length_utf8 c
      rw [List.length_append, hnil, List.length_nil] at hfull
      unfold heapLimit at hfull
      omega
  obtain ⟨t, ht, hvalues⟩ := hmade
  unfold printKey
  rw [ok_bind ht, printtext_eq, ok_bind hvalues]
  rfl

/-! ## One key -/

/-- A key edits the line and is printed. A backspace on an empty line leaves the buffer,
    and a line can fill the heap. -/
theorem handleChar_cases (fresh : Nat → Nat → UInt8) (execute : Shell → Checked Shell)
    (h : Editing sh.currentCmd line x junk)
    (hc : Typed c) :
    ((c = backspace → line ≠ []) ∧ ∃ sh' y junk', handleChar fresh execute sh c = .ok sh' ∧
        Editing sh'.currentCmd (edit line c) y junk' ∧ sh'.con = printchar sh.con c) ∨
      (c = backspace ∧ line = [] ∧ handleChar fresh execute sh c = .error .fault) ∨
      (handleChar fresh execute sh c = .error .noReturn ∧ heapLimit < (encoding line).length + 9) := by
  obtain ⟨h0, hlt, hnl⟩ := hc
  unfold handleChar
  rw [if_neg hnl]
  by_cases hb : c = backspace
  · rw [if_pos hb]
    rcases List.eq_nil_or_concat line with hline | ⟨init, d, hline⟩
    · rw [hline] at h
      refine .inr (.inl ⟨hb, hline, ?_⟩)
      rw [popBack_empty h]
      rfl
    · rw [List.concat_eq_append] at hline
      rw [hline] at h
      obtain ⟨t, y, junk', ht, hedit⟩ := popBack_editing h
      have hdrop : edit line c = init := by
        unfold edit
        rw [if_pos hb, hline, List.dropLast_concat]
      refine .inl ⟨fun _ => by rw [hline]; simp, { sh with con := printchar sh.con c, currentCmd := t }, y, junk', ?_,
        hdrop ▸ hedit, rfl⟩
      rw [ok_bind ht, ok_bind (printKey_eq fresh sh.con h0 hlt)]
      rfl
  · rw [if_neg hb]
    have happend : edit line c = line ++ [c] := if_neg hb
    rcases pushBack_editing (fresh 0) c h with ⟨t, junk', ht, hedit⟩ | ⟨he, hfull⟩
    · refine .inl ⟨fun e => absurd e hb, { sh with con := printchar sh.con c, currentCmd := t }, 0, junk', ?_,
        happend ▸ hedit, rfl⟩
      rw [ok_bind ht, ok_bind (printKey_eq _ sh.con h0 hlt)]
      rfl
    · refine .inr (.inr ⟨?_, hfull⟩)
      rw [he]
      rfl

/-! ## All keys -/

/-- Every backspace finds something to take off. -/
def Fits : List UInt32 → List UInt32 → Prop
  | _, [] => True
  | line, c :: cs => (c = backspace → line ≠ []) ∧ Fits (edit line c) cs

theorem length_edit (hne : c = backspace → line ≠ []) :
    (edit line c).length + (if c = backspace then 2 else 0) = line.length + 1 := by
  unfold edit
  by_cases hb : c = backspace
  · have hpos := List.length_pos_iff.mpr (hne hb)
    rw [if_pos hb, if_pos hb, List.length_dropLast]
    omega
  · rw [if_neg hb, if_neg hb, List.length_append]
    rfl

theorem fits_iff : Fits line keys ↔ ∀ p, p <+: keys → 2 * p.count backspace ≤ p.length + line.length := by
  induction keys generalizing line with
  | nil =>
    refine ⟨fun _ p hp => ?_, fun _ => trivial⟩
    rw [List.prefix_nil.mp hp]
    exact Nat.zero_le _
  | cons c keys ih =>
    have hcount (q : List UInt32) : (c :: q).count backspace = q.count backspace + (if c = backspace then 1 else 0) := by
      rw [List.count_cons]
      simp only [beq_iff_eq]
    constructor
    · intro ⟨hne, hfit⟩ p hp
      have hlen := length_edit hne
      cases p with
      | nil => exact Nat.zero_le _
      | cons d q =>
        obtain ⟨rfl, hq⟩ := List.cons_prefix_cons.mp hp
        have := ih.mp hfit q hq
        rw [hcount, List.length_cons]
        split at hlen
        · rename_i hb
          rw [if_pos hb]
          omega
        · rename_i hb
          rw [if_neg hb]
          omega
    · intro h
      have hne : c = backspace → line ≠ [] := by
        intro hb hnil
        have := h [c] (List.cons_prefix_cons.mpr ⟨rfl, List.nil_prefix⟩)
        rw [hcount, if_pos hb, hnil] at this
        simp at this
      refine ⟨hne, ih.mpr fun q hq => ?_⟩
      have hlen := length_edit hne
      have := h (c :: q) (List.cons_prefix_cons.mpr ⟨rfl, hq⟩)
      rw [hcount, List.length_cons] at this
      split at hlen
      · rename_i hb
        rw [if_pos hb] at this
        omega
      · rename_i hb
        rw [if_neg hb] at this
        omega

theorem balanced_iff : Balanced keys ↔ Fits [] keys := by
  have hfits : Fits [] keys ↔ ∀ p, p <+: keys → 2 * p.count backspace ≤ p.length + 0 := fits_iff
  exact hfits.symm

theorem length_encoding_edit (line : List UInt32) (c : UInt32) :
    (encoding (edit line c)).length ≤ (encoding line).length + (utf8 c).length := by
  unfold edit
  by_cases hb : c = backspace
  · rw [if_pos hb]
    rcases List.eq_nil_or_concat line with hline | ⟨init, d, hline⟩
    · rw [hline]
      exact Nat.zero_le _
    · rw [hline, List.concat_eq_append, List.dropLast_concat, encoding_append, List.length_append]
      omega
  · rw [if_neg hb, encoding_append, List.length_append]
    simp [encoding]

/-- The run of a line. -/
theorem handleAll_cases (fresh : Nat → Nat → Nat → UInt8) (execute : Shell → Checked Shell)
    (h : Editing sh.currentCmd line x junk)
    (hk : ∀ c ∈ keys, Typed c) :
    (Fits line keys ∧ ∃ sh' y junk', handleAll execute fresh sh keys = .ok sh' ∧ Editing sh'.currentCmd (edited line keys) y junk' ∧
        sh'.con = printAll sh.con keys) ∨
      (¬ Fits line keys ∧ handleAll execute fresh sh keys = .error .fault) ∨
      (handleAll execute fresh sh keys = .error .noReturn ∧ heapLimit < (encoding line).length + (encoding keys).length + 9) := by
  induction keys generalizing sh line x junk with
  | nil => exact .inl ⟨trivial, sh, x, junk, rfl, h, rfl⟩
  | cons c keys ih =>
    have hc := hk c List.mem_cons_self
    have hrest : ∀ d ∈ keys, Typed d := fun d hd => hk d (List.mem_cons_of_mem _ hd)
    have hgrow := length_encoding_edit line c
    have hcons := length_encoding_cons c keys
    unfold handleAll
    rcases handleChar_cases (fresh keys.length) execute h hc with ⟨hne, sh', y, junk', hok, hedit, hcon⟩ | ⟨hb, hnil, he⟩ | ⟨he, hfull⟩
    · rw [ok_bind hok]
      rcases ih hedit hrest with ⟨hfit, sh'', z, junk'', h1, h2, h3⟩ | ⟨hfit, h1⟩ | ⟨h1, h2⟩
      · exact .inl ⟨⟨hne, hfit⟩, sh'', z, junk'', h1, h2, by rw [h3, hcon]; rfl⟩
      · exact .inr (.inl ⟨fun hf => hfit hf.2, h1⟩)
      · exact .inr (.inr ⟨h1, by omega⟩)
    · refine .inr (.inl ⟨fun hf => hf.1 hb hnil, ?_⟩)
      rw [he]
      rfl
    · refine .inr (.inr ⟨?_, by omega⟩)
      rw [he]
      rfl

theorem edited_mem {d : UInt32} : ∀ {keys line : List UInt32}, d ∈ edited line keys → d ∈ line ∨ d ∈ keys := by
  intro keys
  induction keys with
  | nil => exact fun hd => .inl hd
  | cons c keys ih =>
    intro line hd
    rcases (ih hd : d ∈ edit line c ∨ d ∈ keys) with hd | hd
    · unfold edit at hd
      by_cases hb : c = backspace
      · rw [if_pos hb] at hd
        exact .inl (List.dropLast_subset _ hd)
      · rw [if_neg hb] at hd
        rcases List.mem_append.mp hd with hd | hd
        · exact .inl hd
        · exact .inr (List.mem_singleton.mp hd ▸ List.mem_cons_self)
    · exact .inr (List.mem_cons_of_mem _ hd)

/-- From a fresh line on, the keys leave the edited line exactly when no prefix of them has
    more backspaces than other keys, unless the line fills the heap. -/
theorem edits_line (fresh : Nat → Nat → Nat → UInt8) (execute : Shell → Checked Shell) (hs : Blank sh.currentCmd)
    (hk : ∀ c ∈ keys, Typed c) :
    ((∃ sh', handleAll execute fresh sh keys = .ok sh' ∧ values sh'.currentCmd = .ok (edited [] keys)) ↔ Balanced keys) ∨
      (handleAll execute fresh sh keys = .error .noReturn ∧ heapLimit < (encoding keys).length + 9) := by
  obtain ⟨x, junk, hedit⟩ := hs.editing
  have hlt : ∀ c ∈ edited [] keys, c < 0x200000 := fun c hc =>
    (hk c ((edited_mem hc).resolve_left List.not_mem_nil)).2.1
  rcases handleAll_cases fresh execute hedit hk with ⟨hfit, sh', y, junk', hok, hline, -⟩ | ⟨hfit, he⟩ | ⟨he, hfull⟩
  · exact .inl ⟨fun _ => balanced_iff.mpr hfit, fun _ => ⟨sh', hok, hline.values hlt⟩⟩
  · refine .inl ⟨fun ⟨sh', hok, _⟩ => ?_, fun hb => absurd (balanced_iff.mp hb) hfit⟩
    rw [he] at hok
    cases hok
  · exact .inr ⟨he, by simpa [encoding] using hfull⟩

/-- The shell before the first key, with an empty line in a buffer of one byte. -/
def started : Shell := ⟨init 106 37, ⟨some [0x2F, 0], 1, 1⟩, ⟨some [0], 0, 0⟩⟩

theorem blank_started : Blank started.currentCmd := ⟨[0], rfl, rfl, rfl, by decide⟩

/-- "ä" and a backspace. -/
theorem edits_line_erased :
    ((∃ sh', handleAll pure (fun _ _ _ => 0) started [0xE4, backspace] = .ok sh' ∧
        values sh'.currentCmd = .ok (edited [] [0xE4, backspace])) ↔ Balanced [0xE4, backspace]) ∨
      (handleAll pure (fun _ _ _ => 0) started [0xE4, backspace] = .error .noReturn ∧
        heapLimit < (encoding [0xE4, backspace]).length + 9) :=
  edits_line (fun _ _ _ => 0) pure blank_started (by simp [Typed, backspace, newline])

/-- A backspace on the empty line reads in front of the buffer. -/
theorem backspace_on_an_empty_line : ¬ ∀ (fresh : Nat → Nat → Nat → UInt8) (execute : Shell → Checked Shell) (sh : Shell)
    (keys : List UInt32), Blank sh.currentCmd → (∀ c ∈ keys, Typed c) →
    (∃ sh', handleAll execute fresh sh keys = .ok sh' ∧ values sh'.currentCmd = .ok (edited [] keys)) ∨
      (handleAll execute fresh sh keys = .error .noReturn ∧ heapLimit < (encoding keys).length + 9) := by
  intro h
  have hfault : handleAll pure (fun _ _ _ => 0) started [backspace] = .error .fault := rfl
  rcases h (fun _ _ _ => 0) pure started [backspace] blank_started (by simp [Typed, backspace, newline]) with ⟨sh', hok, -⟩ | ⟨hn, -⟩
  · rw [hfault] at hok
    cases hok
  · rw [hfault] at hn
    cases hn

end Rodvin.Kernel.EditLine
