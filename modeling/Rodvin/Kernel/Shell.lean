/-
  Rodvin.Kernel.Shell — the shell (`kernel/src/common/Shell.cpp`: `execute` and the four
  commands) and its working directory.

  The state is the current path and the texts printed so far. `execute` runs one command
  line, a string as the keys leave it, that `split` has cut; a line that faults has no state
  behind it.

  What is to hold is `Keeps`: every line runs, leaves the working directory an existing
  directory with a normal path, and a `cd` whose goal is none leaves it as it was.
  `working_directory_iff`: that is so exactly when no line meets a slip. `split` runs behind
  the end of a line whose last spaces are followed by an erased one. The components in front
  of the last lead above the root (`canonical` reads in front of the string); the last is `.`
  or `..` and listed as an entry (`strstr` does not find it at the end of the path); a `cd`
  names an entry that is no directory. And `cat` needs an argument, which it does not check,
  that is not the root, whose size is never set, and a file that fits into the heap.
-/

import Rodvin.Kernel.Vfs
import Rodvin.Kernel.Split

namespace Rodvin.Kernel.Shell

open Rodvin.Lib Rodvin.Libc Rodvin.Libc.Path Rodvin.Kernel.Vfs Rodvin.Kernel.Split

structure State where
  currentPath : Text
  con : List Text
  deriving DecidableEq

def init : State := ⟨[slash], []⟩

/-- A literal of the source. -/
def literal (cs : List Char) : Text := cs.map fun c => c.val.toUInt8

def State.printtext (sh : State) (s : Text) : State := { sh with con := sh.con ++ [s] }

variable (fs : Filesystem)

/-- The path that `args[1]` names. -/
def pathTo (sh : State) (arg : Text) : Checked Text :=
  if arg.head? = some slash then canonical arg else canonical (div sh.currentPath arg)

def notFound (sh : State) (p : Text) : State :=
  ((sh.printtext (literal "Path not found: ".toList)).printtext p).printtext (literal ['\n'])

def executeEcho (sh : State) (args : List Text) : State :=
  (args.tail.foldl (fun sh a => (sh.printtext a).printtext (literal [' '])) sh).printtext (literal ['\n'])

/-- The directory `ls` lists: without an argument, the current one. -/
def lsPath (sh : State) (args : List Text) : Checked Text :=
  match args[1]? with
  | none => pure sh.currentPath
  | some arg => pathTo sh arg

def executeLs (sh : State) (args : List Text) : Checked State := do
  let p ← lsPath sh args
  match ← lookup fs p with
  | none => pure (notFound sh p)
  | some ent => pure ((ent.opendir fs).foldl (fun sh e => (sh.printtext e.name).printtext (literal ['\n'])) sh)

def executeCd (sh : State) (args : List Text) : Checked State :=
  match args[1]? with
  | none => pure (sh.printtext (literal "No home dir yet\n".toList))
  | some arg => do
    let path ← pathTo sh arg
    match ← lookup fs path with
    | some _ => pure { sh with currentPath := path }
    | none => pure (notFound sh path)      -- currentPath = old

/-- The buffer for the file; where no size is set, `filesize()` is what memory held. -/
def newFor (ent : DirEntry) (file : Text) : Checked Unit :=
  if ent.size = none then fault else if Str.heapLimit < file.length + 1 then .error .noReturn else pure ()

/-- The file is printed as a C string. -/
def executeCat (sh : State) (args : List Text) : Checked State :=
  match args[1]? with
  | none => fault
  | some arg => do
    let p ← pathTo sh arg
    match ← lookup fs p with
    | none => pure (notFound sh p)
    | some ent => do
      let f := fs.open_ ent
      newFor ent f
      pure ((sh.printtext (f.takeWhile (· ≠ 0))).printtext (literal ['\n']))

def echo : Text := literal ['e', 'c', 'h', 'o']

def ls : Text := literal ['l', 's']

def cd : Text := literal ['c', 'd']

def cat : Text := literal ['c', 'a', 't']

/-- `execute`, on the arguments. -/
def run (sh : State) (args : List Text) : Checked State :=
  match args with
  | [] => pure sh
  | name :: _ =>
    if name = echo then pure (executeEcho sh args)
    else if name = ls then executeLs fs sh args
    else if name = cd then executeCd fs sh args
    else if name = cat then executeCat fs sh args
    else pure (((sh.printtext (literal "Unknown command ".toList)).printtext name).printtext (literal ['\n']))

/-- `split` gives at least one argument. -/
def execute (fresh : Nat → Nat → UInt8) (sh : State) (currentCmd : Str) : Checked State := do
  let args ← split fresh currentCmd
  run fs sh (args.map Str.bytes)

/-! ## The working directory -/

/-- A command line: a string that holds code points as `handleChar` leaves them, with whatever
    was erased behind them. -/
structure Line where
  str : Str
  points : List UInt32
  editing : ∃ x junk, EditLine.Editing str points x junk
  valid : ∀ c ∈ points, c ≠ 0 ∧ c < 0x200000

/-- Its arguments, as bytes. -/
def Line.args (line : Line) : List Text := (arguments line.points).map Str.encoding

/-- The components of a path; none for the root. -/
def components (path : Text) : List Text := (parts slash path.tail).filter (· ≠ [])

/-- What the components of an argument start from, and the components. -/
def request (sh : State) (arg : Text) : List Text × List Text :=
  if arg.head? = some slash then ([], parts slash arg.tail) else (components sh.currentPath, parts slash arg)

/-- A directory of the tree with a normal path is the current one. -/
def Inv (sh : State) : Prop :=
  ∃ cs, Normal cs ∧ sh.currentPath = pathOf cs ∧
    ∃ e, lookup fs sh.currentPath = .ok (some e) ∧ IsDirectory fs e

/-- The argument leads to a directory. -/
def Leads (sh : State) (arg : Text) : Prop :=
  ∃ cs e, resolve (request sh arg).1 (request sh arg).2 = some cs ∧ entryAt fs cs = some e ∧ IsDirectory fs e

/-- What a command line is to do. -/
def LineKeeps (fresh : Nat → Nat → UInt8) (sh : State) (line : Line) (sh' : State) : Prop :=
  execute fs fresh sh line.str = .ok sh' ∧ Inv fs sh' ∧
    ∀ arg rest, line.args = cd :: arg :: rest → ¬ Leads fs sh arg → sh'.currentPath = sh.currentPath

/-- `fresh` is what the new memory of each line holds. -/
def Keeps (fresh : Nat → Nat → Nat → UInt8) : State → List Line → Prop
  | sh, [] => Inv fs sh
  | sh, line :: lines =>
    Inv fs sh ∧ ∃ sh', LineKeeps fs (fresh lines.length) sh line sh' ∧ Keeps fresh sh' lines

/-- The components in front of the last stay below the root. -/
def Stays (sh : State) (arg : Text) : Prop := resolve (request sh arg).1 (request sh arg).2.dropLast ≠ none

/-- What a last component names in the directory the others lead to is a directory, and not
    listed as `.` or `..`. -/
def Enters (sh : State) (arg : Text) : Prop :=
  ∀ cs l e, resolve (request sh arg).1 (request sh arg).2.dropLast = some cs → (request sh arg).2.getLast? = some l →
    l ≠ [] → entryAt fs (cs ++ [l]) = some e → l ≠ dot ∧ l ≠ dotdot ∧ IsDirectory fs e

/-- The entry at the end of a path: behind the last slash of `/` it is the root. -/
def endAt (cs : List Text) (l : Text) : Option DirEntry :=
  if l ≠ [] then entryAt fs (cs ++ [l]) else if cs = [] then some rootEntry else none

/-- What is named has a size, and the heap a buffer for its bytes. -/
def Shows (sh : State) (arg : Text) : Prop :=
  ∀ cs l e, resolve (request sh arg).1 (request sh arg).2.dropLast = some cs → (request sh arg).2.getLast? = some l →
    endAt fs cs l = some e → e.size ≠ none ∧ (fs.open_ e).length + 1 ≤ Str.heapLimit

def WordsOk (sh : State) : List Text → Prop
  | [name] => name ≠ cat
  | name :: arg :: _ =>
    (name = ls → Stays sh arg) ∧ (name = cd → Stays sh arg ∧ Enters fs sh arg) ∧
      (name = cat → Stays sh arg ∧ Shows fs sh arg)
  | [] => True

def AllOk (fresh : Nat → Nat → Nat → UInt8) : State → List Line → Prop
  | _, [] => True
  | sh, line :: lines =>
    (Divided line.str line.points ∧ WordsOk fs sh line.args) ∧
      ∀ sh', execute fs (fresh lines.length) sh line.str = .ok sh' → AllOk fresh sh' lines

end Rodvin.Kernel.Shell
