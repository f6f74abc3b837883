/-
  Rodvin.Kernel.Keyboard — key presses on their way to the shell
  (`kernel/src/common/Keyboard.cpp`, `Qwerty.cpp`, `Shell.cpp`, `main.cpp`).

  Two events interleave: a device calls `Keyboard::onInput`, the main loop calls
  `Shell::run`. Between them is one static `std::deque<uint8_t>`. `produced` records
  the non-zero code points `onInput` computed, `delivered` the ones `getchar` handed to
  `Shell::handleChar`.

  `getchar` does not look whether a key is waiting. What it reads from a slot with no
  element in it is memory the model knows nothing about, so the event carries it
  (`run junk`).

  Proved: as long as the shell runs only with a key waiting, every code point fits the
  queue's bytes, and no push finds the deque empty at the edge of its stride, what was
  delivered is what was produced less what is still queued (`run_inv`).
-/

import Rodvin.Lib.Runs
import Rodvin.Libc.DequeProofs
import Rodvin.Kernel.Scancodes

namespace Rodvin.Kernel.Keyboard

open Rodvin.Libc

/-! ## The layout -/

/-- `Layout::lookup(sc, shifted, alt)`. -/
abbrev Layout := Nat → Bool → Bool → Nat

/-- `mapping` of `Qwerty.cpp`: regular, shifted, alt, altshift. -/
def mapping : List (List Char) :=
  let key (c d : Char) : List Char := [c, d, '\x00', '\x00']
  [key '\x00' '\x00', key '\x60' '~',
   key '0' ')', key '1' '!', key '2' '@', key '3' '#', key '4' '$', ['5', '%', '€', '\x00'], key '6' '^',
   key '7' '&', key '8' '*', key '9' '(',
   key '-' '_', key '=' '+', key '[' '\x7b', key ']' '\x7d', key '\x5c' '|', key ';' ':', key '\x27' '\x22',
   key ',' '<', key '.' '>', key '/' '?', key ' ' ' ',
   key 'a' 'a', key 'b' 'b', key 'c' 'c', key 'd' 'd', key 'e' 'e', key 'f' 'f', key 'g' 'g', key 'h' 'h',
   key 'i' 'i', key 'j' 'j', key 'k' 'k', key 'l' 'l', key 'm' 'm', key 'n' 'n', key 'o' 'o', key 'p' 'p',
   key 'q' 'q', key 'r' 'r', key 's' 's', key 't' 't', key 'u' 'u', key 'v' 'v', key 'w' 'w', key 'x' 'x',
   key 'y' 'y', key 'z' 'z',
   key '\n' '\n', key '\x08' '\x08', key '\t' '\t', key '.' '.', key '\n' '\n', key '-' '-', key '*' '*',
   key '+' '+', key '/' '/',
   key '0' '0', key '1' '1', key '2' '2', key '3' '3', key '4' '4', key '5' '5', key '6' '6', key '7' '7',
   key '8' '8', key '9' '9']

def cells : List Nat := mapping.flatten.map Char.toNat

/-- `Qwerty::lookup`. The check lets an index of exactly `sizeof(mapping)/sizeof(mapping[0])`
    through; `past` is what lies behind the table. -/
def qwerty (past : Nat) : Layout := fun sc shifted alt =>
  let index := sc * 4 + alt.toNat * 2 + shifted.toNat
  if index > cells.length then 0 else cells.getD index past

/-! ## The two ends of the queue -/

structure St where
  keys : Nat → Bool
  inputs : Deque UInt8
  produced : List Nat
  delivered : List Nat

def init : St := ⟨fun _ => false, Deque.init, [], []⟩

def toupper (ch : Nat) : Nat := if 97 ≤ ch ∧ ch ≤ 122 then ch - 32 else ch

/-- `keys[sc & 0x7FFF] = !isRelease`. -/
def press (s : St) (sc : Nat) : Nat → Bool :=
  Function.update s.keys (sc &&& 0x7FFF) (sc &&& ScanCodes.KeyReleased == 0)

/-- The code point `onInput` computes for a key that goes down. -/
def codePoint (layout : Layout) (s : St) (sc : Nat) : Nat :=
  let keys := press s sc
  let shifted := keys ScanCodes.ShiftLeft.code || keys ScanCodes.ShiftRight.code
  let c := layout sc shifted (keys ScanCodes.AltRight.code)
  if shifted then toupper c else c

/-- `Keyboard::onInput`. `push_back` takes a `uint8_t`. -/
def onInput (layout : Layout) (s : St) (sc : Nat) : Option St := do
  let c := codePoint layout s sc
  let s' := { s with keys := press s sc }
  if sc &&& ScanCodes.KeyReleased ≠ 0 then return s'
  if c ≠ 0 then
    let inputs ← s.inputs.pushBack (UInt8.ofNat c)
    return { s' with inputs := inputs, produced := s.produced ++ [c] }
  else return s'

/-- `Shell::run`: `handleChar(getchar())`. -/
def run (s : St) (junk : UInt8) : Option St := do
  let front := s.inputs.front.getD junk
  let inputs ← s.inputs.popFront
  return { s with inputs := inputs, delivered := s.delivered ++ [front.toNat] }

inductive Ev where
  | input (sc : Nat)
  | run (junk : UInt8)

def apply (layout : Layout) (s : St) : Ev → Option St
  | .input sc => onInput layout s sc
  | .run junk => run s junk

def Step (layout : Layout) (s : St) (e : Ev) (t : St) : Prop := apply layout s e = some t

/-- The shell runs with a key waiting; a key whose code point is queued has one below 256,
    and does not find the deque empty at the edge of its stride. -/
def StepOk (layout : Layout) (s : St) : Ev → Prop
  | .run _ => s.inputs.empty = some false
  | .input sc => sc &&& ScanCodes.KeyReleased = 0 → codePoint layout s sc ≠ 0 →
      codePoint layout s sc < 256 ∧ ¬ (s.inputs.empty = some true ∧ s.inputs.lastCursor = some 255)

instance (layout : Layout) (s : St) (e : Ev) : Decidable (StepOk layout s e) :=
  match e with
  | .run _ => inferInstanceAs (Decidable (_ = _))
  | .input _ => inferInstanceAs (Decidable (_ → _ → _))

def OkStep (layout : Layout) (s : St) (e : Ev) (t : St) : Prop := StepOk layout s e ∧ Step layout s e t

/-! ## What was produced is delivered or queued -/

/-- The deque stands for the bytes not delivered yet. -/
structure Inv (s : St) : Prop where
  queue : ∃ q ps, Deque.Rep s.inputs q ps ∧ s.produced = s.delivered ++ q.map UInt8.toNat

theorem init_inv : Inv init := ⟨[], _, Deque.init_rep, rfl⟩

theorem onInput_inv {layout : Layout} {s t : St} {sc : Nat} (hi : Inv s) (hok : StepOk layout s (.input sc))
    (h : onInput layout s sc = some t) : Inv t := by
  obtain ⟨q, ps, hr, hp⟩ := hi.queue
  unfold onInput at h
  simp only at h
  split at h
  · obtain rfl := Option.some.inj h
    exact ⟨q, ps, hr, hp⟩
  · rename_i hrel
    split at h
    · rename_i hc
      obtain ⟨hlt, hedge⟩ := hok (Classical.not_not.mp hrel) hc
      obtain ⟨d, ps', h1, h2, -⟩ := Deque.pushBack_spec hr (UInt8.ofNat (codePoint layout s sc)) hedge
      rw [h1] at h
      obtain rfl := Option.some.inj h
      refine ⟨_, ps', h2, ?_⟩
      have hb : (UInt8.ofNat (codePoint layout s sc)).toNat = codePoint layout s sc := by
        rw [UInt8.toNat_ofNat']; exact Nat.mod_eq_of_lt hlt
      simp [hp, hb]
    · obtain rfl := Option.some.inj h
      exact ⟨q, ps, hr, hp⟩

theorem run_inv {s t : St} {junk : UInt8} (hi : Inv s) (hw : s.inputs.empty = some false) (h : run s junk = some t) :
    Inv t := by
  obtain ⟨q, ps, hr, hp⟩ := hi.queue
  have hag := Deque.agrees_of_rep hr
  cases q with
  | nil => rw [hag.empty] at hw; cases hw
  | cons b q =>
    have hf : s.inputs.front = some b := hag.front (List.cons_ne_nil b q)
    obtain ⟨d, ps', h1, h2, -⟩ := Deque.popFront_spec hr
    simp only [run, hf, h1, Option.bind_eq_bind, Option.bind_some, Option.getD_some] at h
    obtain rfl := Option.some.inj h
    exact ⟨q, ps', h2, by simp [hp]⟩

theorem step_inv {layout : Layout} {s t : St} {e : Ev} (hi : Inv s) (h : OkStep layout s e t) : Inv t := by
  cases e with
  | input sc => exact onInput_inv hi h.1 h.2
  | run junk => exact run_inv hi h.1 h.2

/-- In every run whose steps are `StepOk`, what the keyboard produced is what the shell was handed
    and then what the deque holds, in this order: the shell was handed a prefix, and the rest waits. -/
theorem delivered_in_order (layout : Layout) {es : List Ev} {s : St} (h : Lib.Run (OkStep layout) init es s) :
    s.delivered <+: s.produced ∧
      ∃ q ps, Deque.Rep s.inputs q ps ∧ s.produced = s.delivered ++ q.map UInt8.toNat := by
  have hi : Inv s := h.invariant (fun _ _ _ => step_inv) init_inv
  obtain ⟨q, ps, hr, hp⟩ := hi.queue
  exact ⟨⟨_, hp.symm⟩, q, ps, hr, hp⟩

/-- Key A, then the shell: the hypotheses hold of a run that delivers something. -/
theorem key_a_is_delivered : ∃ s, Lib.Run (OkStep (qwerty 0)) init [.input ScanCodes.A.code, .run 0] s ∧
    s.delivered = [97] ∧ ∃ q ps, Deque.Rep s.inputs q ps ∧ s.produced = [97] ++ q.map UInt8.toNat := by
  have e : ([Ev.input ScanCodes.A.code, .run 0].foldlM (Lib.guarded (StepOk (qwerty 0)) (apply (qwerty 0))) init).map
      St.delivered = some [97] := by decide +kernel
  obtain ⟨s, hs, hd⟩ := Option.map_eq_some_iff.mp e
  have h := Lib.run_of_foldlM (OkStep (qwerty 0)) (fun _ _ _ => Lib.guarded_eq_some.mp) _ _ hs
  exact ⟨s, h, hd, hd ▸ (delivered_in_order _ h).2⟩

/-- The main loop runs the shell once before the first interrupt: it is handed a code
    point no key produced. -/
theorem shell_before_any_key : ¬ ∀ es s, Lib.Run (Step (qwerty 0)) init es s → s.delivered <+: s.produced := by
  intro h
  have hr : Step (qwerty 0) init (.run 0) _ := rfl
  exact absurd (h _ _ (.single hr)) (by decide)

end Rodvin.Kernel.Keyboard
