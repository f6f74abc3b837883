/-
  Rodvin.Kernel.Console — the text console (`kernel/src/common/Console.cpp`): `setchar`,
  `scrollup` and `printtext` on a grid of `w` by `h` characters.

  What it draws is the list of its calls, `out`; `screen` replays them. A text is printed
  one code point after the other (`printtext_eq`), so what holds after any code points holds
  in the middle of a text as well.

  `cursor_law`: the cursor and everything drawn stay inside the grid, and each line the
  cursor has gone down, or scrolled away, is a newline or a wrap of the text.
-/

import Rodvin.Libc.Utf8Proofs

namespace Rodvin.Kernel.Console

open Rodvin.Lib Rodvin.Libc Rodvin.Libc.Str

inductive Draw where
  | setchar (x y : Nat) (c : UInt32)
  | scrollup
  deriving DecidableEq

structure State where
  x : Nat
  y : Nat
  w : Nat
  h : Nat
  out : List Draw
  deriving DecidableEq

/-- `Console::Console`, with the grid's size. -/
def init (w h : Nat) : State := ⟨0, 0, w, h, []⟩

def backspace : UInt32 := 0x08

def newline : UInt32 := 0x0A

def setchar (con : State) (x y : Nat) (c : UInt32) : State := { con with out := con.out ++ [.setchar x y c] }

def scrollup (con : State) : State := { con with out := con.out ++ [.scrollup] }

/-- `x = 0; y++; if (y == h) { y--; scrollup(); }` -/
def nextLine (con : State) : State :=
  let con := { con with x := 0, y := con.y + 1 }
  if con.y = con.h then scrollup { con with y := con.y - 1 } else con

/-- The body of the loop of `printtext`. -/
def printchar (con : State) (c : UInt32) : State :=
  if c = backspace then
    let con := setchar con con.x con.y 0
    if con.x > 0 then { con with x := con.x - 1 } else con
  else if c = newline then nextLine con
  else
    let con := setchar con con.x con.y c
    let con := { con with x := con.x + 1 }
    if con.x = con.w then nextLine con else con

/-- `for (uint32_t c : text)`, from an iterator on. -/
def printFrom (con : State) : Nat → ConstIterator → Checked State
  | fuel, it =>
    if it.offset = it.str.size_ then pure con
    else
      match fuel with
      | 0 => .error .noReturn
      | fuel + 1 => do
        let c ← it.value
        let it ← it.increment
        printFrom (printchar con c) fuel it

def printtext (con : State) (text : Str) : Checked State := printFrom con text.size_ (begin_ text)

/-- A call that returns. -/
def Print (con : State) (text : Str) (con' : State) : Prop := printtext con text = .ok con'

/-! ## What is on the screen -/

/-- A code point in each cell, 0 for a blank. -/
abbrev Screen := Nat → Nat → UInt32

def draw (h : Nat) (scr : Screen) : Draw → Screen
  | .setchar x y c => fun i j => if i = x ∧ j = y then c else scr i j
  | .scrollup => fun i j => if j + 1 < h then scr i (j + 1) else 0

def screen (con : State) : Screen := con.out.foldl (draw con.h) fun _ _ => 0

/-! ## Printing a text is printing its code points -/

def printAll (con : State) (cs : List UInt32) : State := cs.foldl printchar con

def codePoints (text : Str) : List UInt32 := (values text).toOption.getD []

variable {con con' : State} {c : UInt32} {cs : List UInt32} {w h : Nat}

theorem printAll_append (con : State) (cs ds : List UInt32) : printAll con (cs ++ ds) = printAll (printAll con cs) ds :=
  List.foldl_append

theorem printFrom_eq (con : State) (fuel : Nat) (it : ConstIterator) :
    printFrom con fuel it = valuesFrom fuel it >>= fun cs => pure (printAll con cs) := by
  induction fuel generalizing con it with
  | zero =>
    unfold printFrom valuesFrom
    by_cases hend : it.offset = it.str.size_
    · rw [if_pos hend, if_pos hend]
      rfl
    · rw [if_neg hend, if_neg hend]
      rfl
  | succ fuel ih =>
    unfold printFrom valuesFrom
    by_cases hend : it.offset = it.str.size_
    · rw [if_pos hend, if_pos hend]
      rfl
    · simp only [if_neg hend, ih]
      cases it.value with
      | error e => rfl
      | ok v =>
        cases hi : it.increment with
        | error e => rfl
        | ok it' =>
          show (valuesFrom fuel it' >>= fun cs => pure (printAll (printchar con v) cs)) =
            (valuesFrom fuel it' >>= fun vs => pure (v :: vs)) >>= fun cs => pure (printAll con cs)
          cases valuesFrom fuel it' with
          | error e => rfl
          | ok vs => rfl

theorem printtext_eq (con : State) (text : Str) :
    printtext con text = values text >>= fun cs => pure (printAll con cs) :=
  printFrom_eq con text.size_ (begin_ text)

/-- The calls together print all their code points. -/
theorem printed {texts : List Str} (hrun : Run Print con texts con') :
    con' = printAll con (texts.flatMap codePoints) := by
  induction hrun with
  | nil => rfl
  | cons hs _ ih =>
    unfold Print at hs
    rw [printtext_eq] at hs
    obtain ⟨cs, hcs, hs⟩ := bind_eq_ok.mp hs
    rw [List.flatMap_cons, printAll_append, ih, ← Except.ok.inj hs, codePoints, hcs]
    rfl

/-! ## The cursor -/

/-- Nothing is outside the grid. -/
structure Inside (w h : Nat) (con : State) : Prop where
  width : con.w = w
  height : con.h = h
  x : con.x < w
  y : con.y < h
  drawn : ∀ x y c, Draw.setchar x y c ∈ con.out → x < w ∧ y < h

def scrolls (con : State) : Nat := con.out.count .scrollup

/-- The code point goes into the last column. -/
def Wraps (con : State) (c : UInt32) : Prop := c ≠ backspace ∧ c ≠ newline ∧ con.x + 1 = con.w

instance (con : State) (c : UInt32) : Decidable (Wraps con c) := inferInstanceAs (Decidable (_ ∧ _ ∧ _))

/-- How many wraps there are when the code points are printed. -/
def wraps : State → List UInt32 → Nat
  | _, [] => 0
  | con, c :: cs => (if Wraps con c then 1 else 0) + wraps (printchar con c) cs

/-! ## One code point -/

theorem printchar_backspace (con : State) :
    printchar con backspace = { setchar con con.x con.y 0 with x := con.x - 1 } := by
  unfold printchar
  rw [if_pos rfl]
  by_cases hx : con.x > 0
  · exact if_pos hx
  · have hzero : con.x = 0 := by omega
    refine (if_neg hx).trans ?_
    unfold setchar
    rw [hzero]

theorem printchar_newline (con : State) : printchar con newline = nextLine con := rfl

/-- `nextLine` does not read the column. -/
theorem printchar_wraps (hw : Wraps con c) : printchar con c = nextLine (setchar con con.x con.y c) := by
  obtain ⟨hb, hnl, hlast⟩ := hw
  unfold printchar
  rw [if_neg hb, if_neg hnl]
  exact if_pos hlast

theorem printchar_plain (hb : c ≠ backspace) (hnl : c ≠ newline) (hx : con.x + 1 ≠ con.w) :
    printchar con c = { setchar con con.x con.y c with x := con.x + 1 } := by
  unfold printchar
  rw [if_neg hb, if_neg hnl]
  exact if_neg hx

theorem inside_init (hw : 1 ≤ w) (hh : 1 ≤ h) : Inside w h (init w h) :=
  ⟨rfl, rfl, hw, hh, fun _ _ _ hm => absurd hm List.not_mem_nil⟩

theorem Inside.setchar (hi : Inside w h con) (c : UInt32) : Inside w h (setchar con con.x con.y c) := by
  refine ⟨hi.width, hi.height, hi.x, hi.y, fun x y d hm => ?_⟩
  rcases List.mem_append.mp hm with hm | hm
  · exact hi.drawn x y d hm
  · injection List.mem_singleton.mp hm with hx hy
    rw [hx, hy]
    exact ⟨hi.x, hi.y⟩

theorem scrolls_setchar (con : State) (x y : Nat) (c : UInt32) : scrolls (setchar con x y c) = scrolls con := by
  unfold scrolls setchar
  rw [List.count_append]
  rfl

/-- A new line, or another one scrolled away. -/
theorem nextLine_spec (hi : Inside w h con) :
    Inside w h (nextLine con) ∧ (nextLine con).y + scrolls (nextLine con) = con.y + scrolls con + 1 := by
  have hy := hi.y
  unfold nextLine
  by_cases hlast : con.y + 1 = con.h
  · simp only [if_pos hlast]
    have hdrawn : ∀ x y c, Draw.setchar x y c ∈ con.out ++ [Draw.scrollup] → x < w ∧ y < h := by
      intro x y c hm
      rcases List.mem_append.mp hm with hm | hm
      · exact hi.drawn x y c hm
      · cases List.mem_singleton.mp hm
    refine ⟨⟨hi.width, hi.height, Nat.lt_of_le_of_lt (Nat.zero_le _) hi.x, hy, hdrawn⟩, ?_⟩
    show con.y + (con.out ++ [Draw.scrollup]).count .scrollup = con.y + con.out.count .scrollup + 1
    rw [List.count_append]
    exact (Nat.add_assoc _ _ _).symm
  · simp only [if_neg hlast]
    have hh := hi.height
    refine ⟨⟨hi.width, hi.height, Nat.lt_of_le_of_lt (Nat.zero_le _) hi.x, ?_, hi.drawn⟩, ?_⟩
    · show con.y + 1 < h
      omega
    · show con.y + 1 + scrolls con = _
      omega

/-- One code point: it keeps the cursor inside, and goes down a line for a newline or a
    wrap only. -/
theorem printchar_spec (hi : Inside w h con) (c : UInt32) :
    Inside w h (printchar con c) ∧ (printchar con c).y + scrolls (printchar con c) =
      con.y + scrolls con + (if c = newline then 1 else 0) + (if Wraps con c then 1 else 0) := by
  have hset (c : UInt32) := scrolls_setchar con con.x con.y c
  by_cases hb : c = backspace
  · have hin := hi.setchar 0
    have hx : con.x - 1 < w := Nat.lt_of_le_of_lt (Nat.sub_le _ _) hi.x
    have hw : ¬ Wraps con backspace := fun hw => hw.1 rfl
    rw [hb, printchar_backspace, if_neg (by decide), if_neg hw]
    exact ⟨⟨hin.width, hin.height, hx, hin.y, hin.drawn⟩, congrArg (con.y + ·) (hset 0)⟩
  · by_cases hnl : c = newline
    · have hw : ¬ Wraps con newline := fun hw => hw.2.1 rfl
      rw [hnl, printchar_newline, if_pos rfl, if_neg hw]
      exact nextLine_spec hi
    · have hin := hi.setchar c
      by_cases hlast : con.x + 1 = con.w
      · have hw : Wraps con c := ⟨hb, hnl, hlast⟩
        obtain ⟨h1, h2⟩ := nextLine_spec hin
        rw [printchar_wraps hw, if_neg hnl, if_pos hw]
        exact ⟨h1, h2.trans (by rw [hset]; rfl)⟩
      · have hx := hi.x
        have hwidth := hi.width
        have hlt : con.x + 1 < w := by omega
        rw [printchar_plain hb hnl hlast, if_neg hnl, if_neg (fun hw => hlast hw.2.2)]
        exact ⟨⟨hin.width, hin.height, hlt, hin.y, hin.drawn⟩, congrArg (con.y + ·) (hset c)⟩

/-- Any number of them. -/
theorem printAll_spec (hi : Inside w h con) (cs : List UInt32) : Inside w h (printAll con cs) ∧
    (printAll con cs).y + scrolls (printAll con cs) = con.y + scrolls con + cs.count newline + wraps con cs := by
  induction cs generalizing con with
  | nil => exact ⟨hi, rfl⟩
  | cons c cs ih =>
    obtain ⟨h1, h2⟩ := printchar_spec hi c
    obtain ⟨h3, h4⟩ := ih h1
    refine ⟨h3, h4.trans ?_⟩
    rw [h2, List.count_cons, wraps]
    simp only [beq_iff_eq]
    omega

/-- After calls of `printtext` on any texts, and in the middle of one more of which `part`
    is printed, the cursor and all that was drawn lie inside the grid. The lines gone down
    and scrolled away are the newlines and the wraps printed so far. -/
theorem cursor_law (hw : 1 ≤ w) (hh : 1 ≤ h) {texts : List Str} (hrun : Run Print (init w h) texts con)
    (part : List UInt32) :
    Inside w h (printAll con part) ∧ (printAll con part).y + scrolls (printAll con part) =
      (texts.flatMap codePoints ++ part).count newline + wraps (init w h) (texts.flatMap codePoints ++ part) := by
  rw [printed hrun, ← printAll_append]
  obtain ⟨h1, h2⟩ := printAll_spec (inside_init hw hh) (texts.flatMap codePoints ++ part)
  refine ⟨h1, h2.trans ?_⟩
  rw [show (init w h).y + scrolls (init w h) = 0 from rfl, Nat.zero_add]

/-- "ab" and a newline on a grid of one cell, and a backspace. -/
theorem cursor_law_one_cell : ∃ con, Run Print (init 1 1) [⟨some [0x61, 0x62, 0x0A, 0], 3, 3⟩] con ∧
    Inside 1 1 (printAll con [backspace]) ∧ (printAll con [backspace]).y + scrolls (printAll con [backspace]) = 3 := by
  have hp : ∃ con, printtext (init 1 1) ⟨some [0x61, 0x62, 0x0A, 0], 3, 3⟩ = .ok con := ⟨_, rfl⟩
  obtain ⟨con, hcon⟩ := hp
  have hrun : Run Print (init 1 1) [⟨some [0x61, 0x62, 0x0A, 0], 3, 3⟩] con := .single hcon
  obtain ⟨h1, h2⟩ := cursor_law (Nat.le_refl 1) (Nat.le_refl 1) hrun [backspace]
  exact ⟨con, hrun, h1, h2.trans (by decide +kernel)⟩

end Rodvin.Kernel.Console
