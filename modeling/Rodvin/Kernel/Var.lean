/-
  Rodvin.Kernel.Var — counted handles of numbers (`kernel/src/common/Var.h`:
  `VarT`, `VarNum`, `Var`).

  `VarT` has no constructor, so the counter of a new `VarNum` starts with what lies in
  the memory it is placed in (`junk`). Instances are numbered as they are constructed,
  handles are named by their addresses; a call on an instance that was deleted is a
  fault.

  Proved: the counters are right and every instance is deleted once, when its last
  handle goes, exactly in the sequences that place every `VarNum` where the counter's
  word is zero (`var_sound_iff`).
-/

import Rodvin.Lib.Named
import Rodvin.Lib.Words

namespace Rodvin.Kernel.Var

open Rodvin.Lib

/-- A `VarNum`. -/
structure VarNum (T : Type) where
  refcount : Nat
  value : T

/-- `insts` holds what was constructed and not deleted, `handles` the `inst` of every `Var`. -/
structure State (T : Type) where
  insts : Nat → Option (VarNum T)
  created : Nat
  deleted : List Nat
  handles : List (Nat × Nat)

variable {T : Type}

def init : State T := ⟨fun _ => none, 0, [], []⟩

/-- The handles that refer to an instance. -/
def State.refs (s : State T) (i : Nat) : Nat := s.handles.countP fun q => q.2 = i

def addref (s : State T) (i : Nat) : Option (State T) := do
  let inst ← s.insts i
  return { s with insts := Function.update s.insts i (some { inst with refcount := add64 inst.refcount 1 }) }

def decref (s : State T) (i : Nat) : Option (State T) := do
  let inst ← s.insts i
  let refcount := sub64 inst.refcount 1
  if refcount = 0 then
    return { s with insts := Function.update s.insts i none, deleted := s.deleted ++ [i] }
  else
    return { s with insts := Function.update s.insts i (some { inst with refcount := refcount }) }

/-- `new VarNum<T>(value)`, where the word of the counter was `junk`. -/
def newVarNum (s : State T) (value : T) (junk : Nat) : State T :=
  { s with insts := Function.update s.insts s.created (some ⟨junk, value⟩), created := s.created + 1 }

/-- `Var(value)` at address `h`. -/
def construct (s : State T) (h : Nat) (value : T) (junk : Nat) : Option (State T) := do
  let inst := s.created
  let s ← addref (newVarNum s value junk) inst
  return { s with handles := (h, inst) :: s.handles }

def copy (s : State T) (h v : Nat) : Option (State T) := do
  let inst ← Named.find s.handles v
  let s ← addref s inst
  return { s with handles := (h, inst) :: s.handles }

def assign (s : State T) (h vr : Nat) : Option (State T) := do
  let q ← Named.find s.handles vr
  let s ← addref s q
  let p ← Named.find s.handles h
  let s ← decref s p
  return { s with handles := (h, q) :: Named.others s.handles h }

def destroy (s : State T) (h : Nat) : Option (State T) := do
  let inst ← Named.find s.handles h
  let s ← decref s inst
  return { s with handles := Named.others s.handles h }

/-! ## Sequences -/

inductive Op (T : Type) where
  | construct (h : Nat) (value : T) (junk : Nat)
  | copy (h v : Nat)
  | assign (h vr : Nat)
  | destroy (h : Nat)

def apply (s : State T) : Op T → Option (State T)
  | .construct h value junk => construct s h value junk
  | .copy h v => copy s h v
  | .assign h vr => assign s h vr
  | .destroy h => destroy s h

/-- An address at which no handle lives yet; a handle is a pointer. -/
def Unused (s : State T) (h : Nat) : Prop := 0 < h ∧ h + 8 ≤ 2 ^ 64 ∧ h ∉ s.handles.map Prod.fst

/-- New handles lie beside the old ones, and only handles that exist are used; a word of memory
    is a `size_t`. -/
def Legal (s : State T) : Op T → Prop
  | .construct h _ junk => Unused s h ∧ junk < 2 ^ 64
  | .copy h v => Unused s h ∧ v ∈ s.handles.map Prod.fst
  | .assign h vr => h ∈ s.handles.map Prod.fst ∧ vr ∈ s.handles.map Prod.fst
  | .destroy h => h ∈ s.handles.map Prod.fst

/-- Every counter is the number of handles; an instance without a handle was deleted, once, and
    no other was. -/
structure Correct (s : State T) : Prop where
  refcount : ∀ q ∈ s.handles, ∃ inst, s.insts q.2 = some inst ∧ inst.refcount = s.refs q.2
  deleted : ∀ i < s.created, s.deleted.count i = if s.refs i = 0 then 1 else 0

/-- The sequence uses no deleted instance, and every state it reaches is correct. -/
def Sound (s : State T) : List (Op T) → Prop
  | [] => Correct s
  | op :: ops => Correct s ∧ (Legal s op → ∃ t, apply s op = some t ∧ Sound t ops)

/-- The memory of a new `VarNum` has a zero where its counter lies. -/
def Op.Blank : Op T → Prop
  | .construct _ _ junk => junk = 0
  | _ => True

/-- Every step of the sequence meets the condition. -/
def Meets (s : State T) : List (Op T) → Prop
  | [] => True
  | op :: ops => Legal s op → op.Blank ∧ ∀ t, apply s op = some t → Meets t ops

/-! ## Counters -/

variable {s t : State T} {h i k n : Nat} {c : Nat → Nat}

/-- The counters are `c`, and what `c` says is not referred to was deleted, once. -/
structure Counted (s : State T) (c : Nat → Nat) : Prop where
  held : ∀ i, c i ≠ 0 → i < s.created ∧ ∃ v, s.insts i = some ⟨c i, v⟩
  deleted : ∀ i < s.created, s.deleted.count i = if c i = 0 then 1 else 0
  past : ∀ i ∈ s.deleted, i < s.created

theorem Counted.addref (hc : Counted s c) (hi : c i ≠ 0) (hlt : c i + 1 < 2 ^ 64) :
    ∃ t, addref s i = some t ∧ t.handles = s.handles ∧ t.created = s.created ∧
      Counted t (Function.update c i (c i + 1)) := by
  obtain ⟨hin, v, hv⟩ := hc.held i hi
  refine ⟨{ s with insts := Function.update s.insts i (some ⟨c i + 1, v⟩) }, ?_, rfl, rfl, ?_, ?_, hc.past⟩
  · simp [Var.addref, hv, add64_eq hlt]
  · intro j hj
    by_cases e : j = i
    · subst e
      exact ⟨hin, v, by simp⟩
    · rw [Function.update_of_ne e] at hj ⊢
      obtain ⟨hlt, w, hw⟩ := hc.held j hj
      exact ⟨hlt, w, by simp [Function.update_of_ne e, hw]⟩
  · intro j hj
    by_cases e : j = i
    · subst e
      simpa [hi] using hc.deleted j hj
    · rw [Function.update_of_ne e]
      exact hc.deleted j hj

theorem Counted.decref (hc : Counted s c) (hi : c i ≠ 0) (hlt : c i < 2 ^ 64) :
    ∃ t, decref s i = some t ∧ t.handles = s.handles ∧ t.created = s.created ∧
      Counted t (Function.update c i (c i - 1)) := by
  obtain ⟨hin, v, hv⟩ := hc.held i hi
  have hsub : sub64 (c i) 1 = c i - 1 := sub64_eq hlt (by omega)
  by_cases hlast : c i = 1
  · have hzero : sub64 (c i) 1 = 0 := by rw [hsub, hlast]
    refine ⟨{ s with insts := Function.update s.insts i none, deleted := s.deleted ++ [i] }, ?_, rfl, rfl, ?_, ?_, ?_⟩
    · unfold Var.decref
      rw [hv, Option.bind_eq_bind, Option.bind_some]
      exact if_pos hzero
    · intro j hj
      have e : j ≠ i := by
        intro e
        rw [e, Function.update_self, hlast] at hj
        exact hj rfl
      rw [Function.update_of_ne e] at hj ⊢
      obtain ⟨hlt, w, hw⟩ := hc.held j hj
      exact ⟨hlt, w, (Function.update_of_ne e ..).trans hw⟩
    · intro j hj
      show (s.deleted ++ [i]).count j = _
      rw [List.count_append, hc.deleted j hj, List.count_singleton]
      by_cases e : j = i
      · simp [e, hlast]
      · simp [e, Ne.symm e]
    · intro j hj
      rcases List.mem_append.mp hj with hj | hj
      · exact hc.past j hj
      · exact List.mem_singleton.mp hj ▸ hin
  · have hmore : c i - 1 ≠ 0 := by omega
    refine ⟨{ s with insts := Function.update s.insts i (some ⟨c i - 1, v⟩) }, ?_, rfl, rfl, ?_, ?_, hc.past⟩
    · unfold Var.decref
      rw [hv, Option.bind_eq_bind, Option.bind_some, ← hsub]
      exact if_neg (hsub ▸ hmore)
    · intro j hj
      by_cases e : j = i
      · rw [e, Function.update_self]
        exact ⟨hin, v, Function.update_self ..⟩
      · rw [Function.update_of_ne e] at hj ⊢
        obtain ⟨hlt, w, hw⟩ := hc.held j hj
        exact ⟨hlt, w, (Function.update_of_ne e ..).trans hw⟩
    · intro j hj
      have hcount := hc.deleted j hj
      by_cases e : j = i
      · rw [e, if_neg hi] at hcount
        rw [e, Function.update_self, if_neg hmore]
        exact hcount
      · rw [Function.update_of_ne e]
        exact hcount

/-! ## Handles -/

/-- The handles lie apart, and they are what the counters count. -/
structure Inv (s : State T) : Prop where
  names : (s.handles.map Prod.fst).Nodup
  range : ∀ q ∈ s.handles, 0 < q.1 ∧ q.1 + 8 ≤ 2 ^ 64
  counted : Counted s s.refs

theorem init_inv : Inv (init : State T) := ⟨.nil, nofun, ⟨fun _ h => absurd rfl h, nofun, nofun⟩⟩

theorem refs_pos {q : Nat × Nat} (hq : q ∈ s.handles) : s.refs q.2 ≠ 0 := by
  have : 0 < s.refs q.2 := List.countP_pos_iff.mpr ⟨q, hq, decide_eq_true rfl⟩
  omega

theorem Inv.correct (hi : Inv s) : Correct s := by
  refine ⟨fun q hq => ?_, hi.counted.deleted⟩
  obtain ⟨-, v, hv⟩ := hi.counted.held q.2 (refs_pos hq)
  exact ⟨_, hv, rfl⟩

/-- There are fewer handles than bytes of memory, so a counter has room for one more. -/
theorem Inv.refs_lt (hi : Inv s) (i : Nat) : s.refs i + 1 < 2 ^ 64 := by
  have hr : ∀ q ∈ s.handles, 0 < q.1 ∧ q.1 < 2 ^ 64 - 7 := by
    intro q hq
    have := hi.range q hq
    omega
  have hlen := Named.length_lt (by omega) hi.names hr
  have hle : s.refs i ≤ s.handles.length := List.countP_le_length
  omega

/-- One more handle of `i`. -/
theorem refs_cons (ht : t.handles = (h, i) :: s.handles) : t.refs = Function.update s.refs i (s.refs i + 1) := by
  funext j
  unfold State.refs
  rw [ht, List.countP_cons]
  by_cases e : j = i
  · subst e
    simp
  · simp [e, Ne.symm e]

/-- The handle at `h` gone. -/
theorem refs_others (hn : (s.handles.map Prod.fst).Nodup) (hh : Named.find s.handles h = some i)
    (ht : t.handles = Named.others s.handles h) : t.refs = Function.update s.refs i (s.refs i - 1) := by
  funext j
  have hcount := Named.countP_others hn (Named.mem_of_find hh) fun q => decide (q.2 = j)
  unfold State.refs
  rw [ht]
  by_cases e : j = i
  · subst e
    simp only [decide_true, if_true] at hcount
    rw [Function.update_self, hcount, Nat.add_sub_cancel]
  · rw [Function.update_of_ne e]
    simpa [Ne.symm e] using hcount.symm

theorem names_cons (hi : Inv s) (hu : Unused s h) (ht : t.handles = (h, i) :: s.handles) :
    (t.handles.map Prod.fst).Nodup ∧ ∀ q ∈ t.handles, 0 < q.1 ∧ q.1 + 8 ≤ 2 ^ 64 := by
  rw [ht]
  refine ⟨List.nodup_cons.mpr ⟨hu.2.2, hi.names⟩, fun q hq => ?_⟩
  rcases List.mem_cons.mp hq with rfl | hq
  · exact ⟨hu.1, hu.2.1⟩
  · exact hi.range q hq

theorem find_some (hm : h ∈ s.handles.map Prod.fst) : ∃ i, Named.find s.handles h = some i := by
  obtain ⟨q, hq, rfl⟩ := List.mem_map.mp hm
  have hf : (s.handles.find? fun r => r.1 = q.1).isSome := List.find?_isSome.mpr ⟨q, hq, decide_eq_true rfl⟩
  obtain ⟨r, hr⟩ := Option.isSome_iff_exists.mp hf
  exact ⟨r.2, by rw [Named.find, hr, Option.map_some]⟩

/-! ## The operations -/

theorem construct_eq (s : State T) (h : Nat) (value : T) (junk : Nat) :
    construct s h value junk = some { s with
      insts := Function.update s.insts s.created (some ⟨add64 junk 1, value⟩)
      created := s.created + 1
      handles := (h, s.created) :: s.handles } := by
  simp [construct, addref, newVarNum]

theorem refs_created (hi : Inv s) : s.refs s.created = 0 := by
  by_contra h
  exact absurd (hi.counted.held _ h).1 (Nat.lt_irrefl _)

theorem construct_inv {value : T} (hi : Inv s) (hu : Unused s h) (ht : construct s h value 0 = some t) : Inv t := by
  rw [construct_eq] at ht
  obtain rfl := Option.some.inj ht
  obtain ⟨hn, hr⟩ := names_cons (t := ⟨_, _, _, _⟩) hi hu rfl
  refine ⟨hn, hr, ?_⟩
  rw [refs_cons (s := s) rfl, refs_created hi]
  refine ⟨fun j hj => ?_, fun j hj => ?_, fun j hj => Nat.lt_succ_of_lt (hi.counted.past j hj)⟩
  · by_cases e : j = s.created
    · subst e
      exact ⟨Nat.lt_succ_self _, value, by simp [add64]⟩
    · rw [Function.update_of_ne e] at hj ⊢
      obtain ⟨hlt, v, hv⟩ := hi.counted.held j hj
      exact ⟨Nat.lt_succ_of_lt hlt, v, by simp [Function.update_of_ne e, hv]⟩
  · by_cases e : j = s.created
    · subst e
      rw [Function.update_self, if_neg (by decide)]
      exact List.count_eq_zero.mpr fun hm => Nat.lt_irrefl _ (hi.counted.past _ hm)
    · rw [Function.update_of_ne e]
      exact hi.counted.deleted j (by simp only at hj; omega)

/-- A counter that does not start at zero is not right once. -/
theorem construct_junk {value : T} {junk : Nat} (hi : Inv s) (hlt : junk < 2 ^ 64) (hjunk : junk ≠ 0)
    (ht : construct s h value junk = some t) : ¬ Correct t := by
  rw [construct_eq] at ht
  obtain rfl := Option.some.inj ht
  intro hc
  obtain ⟨inst, hinst, hcount⟩ := hc.refcount (h, s.created) (List.mem_cons_self ..)
  rw [refs_cons (s := s) rfl, refs_created hi] at hcount
  simp only [Function.update_self, Option.some.injEq] at hinst hcount
  subst hinst
  simp only [add64] at hcount
  omega

theorem copy_inv {v : Nat} (hi : Inv s) (hu : Unused s h) (hv : v ∈ s.handles.map Prod.fst) :
    ∃ t, copy s h v = some t ∧ Inv t := by
  obtain ⟨i, hfind⟩ := find_some hv
  have hpos := refs_pos (Named.mem_of_find hfind)
  obtain ⟨hn, hr⟩ := names_cons (t := { s with handles := (h, i) :: s.handles }) hi hu rfl
  obtain ⟨t, ht, hhandles, -, hc⟩ := hi.counted.addref hpos (hi.refs_lt i)
  refine ⟨{ t with handles := (h, i) :: s.handles }, ?_, ⟨hn, hr, ?_⟩⟩
  · unfold copy
    rw [hfind, Option.bind_eq_bind, Option.bind_some, ht, Option.bind_eq_bind, Option.bind_some, hhandles]
    rfl
  · rw [refs_cons (s := s) rfl]
    exact ⟨hc.held, hc.deleted, hc.past⟩

theorem destroy_inv (hi : Inv s) (hm : h ∈ s.handles.map Prod.fst) : ∃ t, destroy s h = some t ∧ Inv t := by
  obtain ⟨i, hfind⟩ := find_some hm
  have hpos : s.refs i ≠ 0 := refs_pos (Named.mem_of_find hfind)
  obtain ⟨t, ht, hhandles, -, hc⟩ := hi.counted.decref hpos (Nat.lt_of_succ_lt (hi.refs_lt i))
  let u : State T := { t with handles := Named.others s.handles h }
  have hrefs : u.refs = Function.update s.refs i (s.refs i - 1) := refs_others hi.names hfind rfl
  refine ⟨u, ?_, ⟨Named.names_others hi.names, fun q hq => hi.range q (Named.mem_others.mp hq).1, ?_⟩⟩
  · unfold destroy
    rw [hfind, Option.bind_eq_bind, Option.bind_some, ht, Option.bind_eq_bind, Option.bind_some, hhandles]
    rfl
  · rw [hrefs]
    exact ⟨hc.held, hc.deleted, hc.past⟩

/-- Counting up first keeps the instance when a handle is assigned to one that shares it. -/
theorem assign_inv {vr : Nat} (hi : Inv s) (hh : h ∈ s.handles.map Prod.fst) (hvr : vr ∈ s.handles.map Prod.fst) :
    ∃ t, assign s h vr = some t ∧ Inv t := by
  obtain ⟨q, hq⟩ := find_some hvr
  obtain ⟨p, hp⟩ := find_some hh
  have hqpos : s.refs q ≠ 0 := refs_pos (Named.mem_of_find hq)
  have hppos : s.refs p ≠ 0 := refs_pos (Named.mem_of_find hp)
  obtain ⟨t, ht, hhandles, -, hc⟩ := hi.counted.addref hqpos (hi.refs_lt q)
  have hp1 : Function.update s.refs q (s.refs q + 1) p ≠ 0 ∧ Function.update s.refs q (s.refs q + 1) p < 2 ^ 64 := by
    by_cases e : p = q
    · rw [e, Function.update_self]
      exact ⟨Nat.succ_ne_zero _, hi.refs_lt q⟩
    · rw [Function.update_of_ne e]
      exact ⟨hppos, Nat.lt_of_succ_lt (hi.refs_lt p)⟩
  obtain ⟨u, hu, hhandles', -, hc'⟩ := hc.decref hp1.1 hp1.2
  let v : State T := { s with handles := Named.others s.handles h }
  let w : State T := { u with handles := (h, q) :: v.handles }
  have hv : v.refs = Function.update s.refs p (s.refs p - 1) := refs_others hi.names hp rfl
  have hw : w.refs = Function.update v.refs q (v.refs q + 1) := refs_cons rfl
  have hrefs : w.refs = Function.update (Function.update s.refs q (s.refs q + 1)) p
      (Function.update s.refs q (s.refs q + 1) p - 1) := by
    rw [hw, hv]
    by_cases e : p = q
    · subst e
      rw [Function.update_self, Function.update_self, Function.update_idem, Function.update_idem,
        Nat.sub_add_cancel (Nat.one_le_iff_ne_zero.mpr hppos), Nat.add_sub_cancel]
    · rw [Function.update_of_ne e, Function.update_of_ne (Ne.symm e), Function.update_comm e]
  have hhin : (h, p) ∈ s.handles := Named.mem_of_find hp
  refine ⟨w, ?_, ⟨List.nodup_cons.mpr ⟨?_, Named.names_others hi.names⟩, fun r hr => ?_, ?_⟩⟩
  · unfold assign
    rw [hq, Option.bind_eq_bind, Option.bind_some, ht, Option.bind_eq_bind, Option.bind_some, hhandles, hp,
      Option.bind_some, hu, Option.bind_some, hhandles', hhandles]
    rfl
  · intro hm
    obtain ⟨r, hr, he⟩ := List.mem_map.mp hm
    exact (Named.mem_others.mp hr).2 he
  · rcases List.mem_cons.mp hr with rfl | hr
    · exact hi.range (h, p) hhin
    · exact hi.range r (Named.mem_others.mp hr).1
  · rw [hrefs]
    exact ⟨hc'.held, hc'.deleted, hc'.past⟩

/-! ## Every sequence -/

theorem apply_inv {op : Op T} (hi : Inv s) (hl : Legal s op) (hb : op.Blank) : ∃ t, apply s op = some t ∧ Inv t := by
  cases op with
  | construct h value junk =>
    obtain rfl : junk = 0 := hb
    exact ⟨_, construct_eq s h value 0, construct_inv hi hl.1 (construct_eq s h value 0)⟩
  | copy h v => exact copy_inv hi hl.1 hl.2
  | assign h vr => exact assign_inv hi hl.1 hl.2
  | destroy h => exact destroy_inv hi hl

theorem apply_junk {op : Op T} (hi : Inv s) (hl : Legal s op) (hb : ¬ op.Blank) (ht : apply s op = some t) :
    ¬ Correct t := by
  cases op with
  | construct h value junk => exact construct_junk hi hl.2 hb ht
  | copy h v => exact absurd trivial hb
  | assign h vr => exact absurd trivial hb
  | destroy h => exact absurd trivial hb

theorem Sound.correct {ops : List (Op T)} (h : Sound s ops) : Correct s := by
  cases ops with
  | nil => exact h
  | cons op ops => exact h.1

theorem sound_iff_meets (hi : Inv s) (ops : List (Op T)) : Sound s ops ↔ Meets s ops := by
  induction ops generalizing s with
  | nil => exact iff_of_true hi.correct trivial
  | cons op ops ih =>
    constructor
    · intro ⟨_, hs⟩ hl
      obtain ⟨t, ht, hrest⟩ := hs hl
      have hb : op.Blank := by
        by_contra hb
        exact apply_junk hi hl hb ht hrest.correct
      obtain ⟨u, hu, hui⟩ := apply_inv hi hl hb
      obtain rfl : t = u := Option.some.inj (ht.symm.trans hu)
      refine ⟨hb, fun v hv => ?_⟩
      obtain rfl : t = v := Option.some.inj (ht.symm.trans hv)
      exact (ih hui).mp hrest
    · intro hm
      refine ⟨hi.correct, fun hl => ?_⟩
      obtain ⟨hb, hrest⟩ := hm hl
      obtain ⟨t, ht, hti⟩ := apply_inv hi hl hb
      exact ⟨t, ht, (ih hti).mpr (hrest t ht)⟩

/-- Counters and deletions are right in every state of a sequence exactly when every `VarNum` is
    placed where the word of its counter is zero. -/
theorem var_sound_iff (ops : List (Op T)) : Sound (init : State T) ops ↔ Meets init ops := sound_iff_meets init_inv ops

/-- One `Var` in memory that held a one: its counter is two, and it is never deleted. -/
theorem counter_starts_with_what_was_there : ¬ ∀ ops : List (Op Nat), Sound init ops := by
  intro h
  have hs := h [.construct 0x1000 0 1, .destroy 0x1000]
  obtain ⟨t, ht, hsound⟩ := hs.2 ⟨⟨by decide, by decide, nofun⟩, by decide⟩
  exact construct_junk init_inv (by decide) (by decide) ht hsound.correct

end Rodvin.Kernel.Var
