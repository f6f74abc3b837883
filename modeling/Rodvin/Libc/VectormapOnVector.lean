/-
  Rodvin.Libc.VectormapOnVector — `vectormap` (`kernel/src/libc/vectormap`) on the vector
  that it is (see `Rodvin.Libc.Vector`).

  An iterator and the reference that `operator[]` returns are the index of their pair; both
  functions look for the pair with one loop, so that is one definition. The keys have the
  equality that `K` defines, an equivalence. What a map asks of `malloc` grows from one
  request to the next, so one `Alloc` serves a whole sequence.

  Each call does on the vector what it does on the list of the pairs (`run_spec`, against
  `Rodvin.Libc.Vectormap`). Proved from that: after every sequence of calls whose allocations are served, the pairs from
  `begin()` to `end()` are an insertion-ordered map of the accesses made, `find` finds what
  is there and `end()` otherwise, and `operator[]` refers to the pair of its key
  (`vectormap_is_an_ordered_map`).
-/

import Rodvin.Libc.Vectormap
import Rodvin.Libc.VectorProofs

namespace Rodvin.Libc.VectormapOnVector

open Rodvin.Lib Vec

variable {K V : Type} [BEq K] [Inhabited V] {sizeof : ℕ+} (a : Alloc)

/-! ## The operations -/

/-- The loop over the pairs from the `n`th on, `left` of them. -/
def seek (v : Vec (K × V)) (key : K) : Nat → Nat → Checked Nat
  | 0, n => pure n
  | left + 1, n => do
    let p ← v.buf.load n
    if p.1 == key then pure n else seek v key left (n + 1)

def find (v : Vec (K × V)) (k : K) : Checked Nat := seek v k v.size 0

def subscript (key : K) (v : Vec (K × V)) : Checked (Vec (K × V) × Nat) := do
  let n ← find v key
  if n < v.size then pure (v, n)
  else do
    let v ← v.pushBack a (key, default)
    pure (v, sub64 v.size 1)

/-- An assignment through the reference. -/
def setSecond (v : Vec (K × V)) (i : Nat) (x : V) : Checked (Vec (K × V)) := do
  let p ← v.buf.load i
  let buf ← v.buf.assign i (p.1, x)
  pure { v with buf := buf }

/-- `m[key] = x`. -/
def write (key : K) (x : V) (v : Vec (K × V)) : Checked (Vec (K × V)) := do
  let (v, i) ← subscript a key v
  setSecond v i x

def insert (p : K × V) (v : Vec (K × V)) : Checked (Vec (K × V)) := write a p.1 p.2 v

/-! ## Sequences -/

inductive Op (K V : Type) where
  | read (key : K)
  | write (key : K) (x : V)
  | insert (p : K × V)
  | find (k : K)

def apply (v : Vec (K × V)) : Op K V → Checked (Vec (K × V))
  | .read key => do
    let (v, _) ← subscript a key v
    pure v
  | .write key x => write a key x v
  | .insert p => insert a p v
  | .find k => do
    let _ ← find v k
    pure v

def run (v : Vec (K × V)) : List (Op K V) → Checked (Vec (K × V))
  | [] => pure v
  | op :: ops => do run (← apply a v op) ops

/-- The key that `operator[]` is called with, and the value that is written. -/
def Op.access : Op K V → Option (K × Option V)
  | .read key => some (key, none)
  | .write key x => some (key, some x)
  | .insert p => some (p.1, some p.2)
  | .find _ => none

def accesses (ops : List (Op K V)) : List (K × Option V) := ops.filterMap Op.access

/-- What a search returns: a pair with the key, or `end()` where no pair has it. -/
def Finds (l : List (K × V)) (k : K) (i : Nat) : Prop :=
  (∃ p, l[i]? = some p ∧ p.1 == k) ∨ (i = l.length ∧ ∀ p ∈ l, (p.1 == k) = false)

/-- The vector holds the pairs `l`, and these are the map of the accesses. -/
structure IsMap (v : Vec (K × V)) (l : List (K × V)) (accesses : List (K × Option V)) : Prop where
  pairs : Agrees v l
  tracks : Tracks default l accesses
  finds : ∀ k, ∃ i, find v k = .ok i ∧ Finds l k i
  refers : ∀ k i p, l[i]? = some p → p.1 == k → subscript a k v = .ok (v, i)

/-- The allocation that a new pair of the sequence needs, if any, is served. -/
def Served (v : Vec (K × V)) : List (Op K V) → Prop
  | [] => True
  | op :: ops => (∀ c, op.access = some c → find v c.1 = .ok v.size → ∀ n ∈ v.needed, Fits a n) ∧
      ∀ v', apply a v op = .ok v' → Served v' ops

/-! ## The pairs as a list -/

/-- What a call does to the pairs. -/
def Op.onPairs (l : List (K × V)) : Op K V → List (K × V)
  | .read key => (Vectormap.subscript l key).1
  | .write key x => Vectormap.insert l (key, x)
  | .insert p => Vectormap.insert l p
  | .find _ => l

variable {a} {v v' : Vec (K × V)} {l : List (K × V)} {k : K} {p : K × V} {i n left : Nat}

omit [Inhabited V] in
theorem seek_spec (h : Rep sizeof v l) (hn : n + left = l.length) :
    seek v k left n = .ok (n + (l.drop n).findIdx fun p => p.1 == k) := by
  induction left generalizing n with
  | zero =>
    have hn : l.length ≤ n := Nat.le_of_eq hn.symm
    rw [List.drop_of_length_le hn]
    rfl
  | succ left ih =>
    have hlt : n < l.length := by omega
    have hq : l[n]? = some l[n] := List.getElem?_eq_getElem hlt
    unfold seek
    rw [ok_bind (load_eq_ok.mpr ((h.slots n).trans hq)), List.drop_eq_getElem_cons hlt, List.findIdx_cons]
    cases hk : l[n].1 == k with
    | true => rfl
    | false =>
      rw [if_neg Bool.false_ne_true, ih (by omega)]
      simp only [cond_false]
      rw [Nat.add_assoc, Nat.add_comm 1]

omit [Inhabited V] in
theorem find_spec (h : Rep sizeof v l) (k : K) : find v k = .ok (Vectormap.find l k) := by
  have hseek := seek_spec (k := k) h (show 0 + v.size = l.length by rw [h.size, Nat.zero_add])
  rw [Nat.zero_add] at hseek
  exact hseek

omit [Inhabited V] in
theorem finds_find (l : List (K × V)) (k : K) : Finds l k (Vectormap.find l k) := by
  by_cases hlt : Vectormap.find l k < l.length
  · exact .inl (Vectormap.find_present hlt)
  · exact .inr ⟨Nat.le_antisymm List.findIdx_le_length (Nat.not_lt.mp hlt), Vectormap.find_absent hlt⟩

/-- `operator[]` does on the vector what it does on the list of its pairs. -/
theorem subscript_spec (h : Rep a.sizeof v l) (hserved : find v k = .ok v.size → ∀ n ∈ v.needed, Fits a n) :
    ∃ v', subscript a k v = .ok (v', (Vectormap.subscript l k).2) ∧ Rep a.sizeof v' (Vectormap.subscript l k).1 := by
  have hfind := find_spec h k
  have hsize := h.size
  unfold subscript Vectormap.subscript
  rw [ok_bind hfind, hsize]
  by_cases hlt : Vectormap.find l k < l.length
  · rw [if_pos hlt, if_pos hlt]
    exact ⟨v, rfl, h⟩
  · have hend : Vectormap.find l k = v.size := by
      rw [hsize]
      exact Nat.le_antisymm List.findIdx_le_length (Nat.not_lt.mp hlt)
    obtain ⟨v', hpush, hrep, -⟩ := append_spec h (hserved (hend ▸ hfind)) (k, default)
    have hgrown : v'.size = l.length + 1 := by rw [hrep.size, List.length_append, List.length_singleton]
    have hlast : sub64 v'.size 1 = l.length := by
      have hcap := hrep.capacity
      have h64 := hrep.fits.lt
      rw [List.length_append, List.length_singleton] at hcap
      rw [hgrown, sub64_eq (by omega) (by omega), Nat.add_sub_cancel]
    rw [if_neg hlt, if_neg hlt]
    unfold pushBack
    rw [ok_bind hpush, hlast]
    exact ⟨v', rfl, hrep⟩

omit [BEq K] [Inhabited V] in
theorem setSecond_spec (h : Rep sizeof v l) (hp : l[i]? = some p) (x : V) :
    ∃ v', setSecond v i x = .ok v' ∧ Rep sizeof v' (l.set i (p.1, x)) := by
  have hslot : v.buf.slot i = some p := (h.slots i).trans hp
  have hi : i < l.length := (List.getElem?_eq_some_iff.mp hp).1
  have hassign := assign_eq_ok (x := (p.1, x)) |>.mpr ⟨by rw [hslot]; rfl, rfl⟩
  refine ⟨{ v with buf := ⟨v.buf.room, Function.update v.buf.slot i (some (p.1, x))⟩ }, ?_, ?_⟩
  · unfold setSecond
    rw [ok_bind (load_eq_ok.mpr hslot), ok_bind hassign]
    rfl
  · refine ⟨?_, ?_, h.room, h.fits, ?_⟩
    · rw [List.length_set]
      exact h.size
    · rw [List.length_set]
      exact h.capacity
    · intro j
      simp only
      by_cases hj : j = i
      · rw [hj, Function.update_self, List.getElem?_set_self hi]
      · rw [Function.update_of_ne hj, List.getElem?_set_ne (Ne.symm hj)]
        exact h.slots j

theorem write_spec (h : Rep a.sizeof v l) (hserved : find v k = .ok v.size → ∀ n ∈ v.needed, Fits a n) (x : V) :
    ∃ v', write a k x v = .ok v' ∧ Rep a.sizeof v' (Vectormap.insert l (k, x)) := by
  obtain ⟨v1, hsub, hrep⟩ := subscript_spec h hserved
  obtain ⟨p, hp⟩ := Vectormap.subscript_pair l k
  obtain ⟨v', hset, hrep'⟩ := setSecond_spec hrep hp x
  refine ⟨v', ?_, Vectormap.insert_eq hp x ▸ hrep'⟩
  unfold write
  rw [ok_bind hsub]
  exact hset

theorem apply_spec (h : Rep a.sizeof v l) {op : Op K V}
    (hserved : ∀ c, op.access = some c → find v c.1 = .ok v.size → ∀ n ∈ v.needed, Fits a n) :
    ∃ v', apply a v op = .ok v' ∧ Rep a.sizeof v' (op.onPairs l) := by
  cases op with
  | read key =>
    obtain ⟨v', hsub, hrep⟩ := subscript_spec h (hserved _ rfl)
    exact ⟨v', bind_eq_ok.mpr ⟨_, hsub, rfl⟩, hrep⟩
  | write key x => exact write_spec h (hserved _ rfl) x
  | insert p => exact write_spec h (hserved _ rfl) p.2
  | find k => exact ⟨v, bind_eq_ok.mpr ⟨_, find_spec h k, rfl⟩, h⟩

/-- The vector of a sequence of calls holds the pairs that the list has after them. -/
theorem run_spec (ops : List (Op K V)) (h : Rep a.sizeof v l) (hserved : Served a v ops) :
    ∃ v', run a v ops = .ok v' ∧ Rep a.sizeof v' (ops.foldl Op.onPairs l) := by
  induction ops generalizing v l with
  | nil => exact ⟨v, rfl, h⟩
  | cons op ops ih =>
    obtain ⟨v1, happly, hrep⟩ := apply_spec h hserved.1
    obtain ⟨v', hrun, hrep'⟩ := ih hrep (hserved.2 v1 happly)
    refine ⟨v', ?_, hrep'⟩
    unfold run
    rw [ok_bind happly]
    exact hrun

/-! ## The accesses -/

variable [EquivBEq K] {as : List (K × Option V)}

theorem onPairs_tracks (ht : Tracks default l as) (op : Op K V) :
    Tracks default (op.onPairs l) (as ++ op.access.toList) := by
  cases op with
  | read key => exact Vectormap.subscript_read ht key
  | write key x => exact Vectormap.insert_tracks ht (key, x)
  | insert p => exact Vectormap.insert_tracks ht p
  | find k =>
    rw [show (Op.find k : Op K V).access.toList = [] from rfl, List.append_nil]
    exact ht

omit [BEq K] [Inhabited V] [EquivBEq K] in
theorem accesses_cons (op : Op K V) (ops : List (Op K V)) :
    accesses (op :: ops) = op.access.toList ++ accesses ops := by
  unfold accesses
  rw [List.filterMap_cons]
  cases op.access with
  | none => rfl
  | some c => rfl

theorem foldl_tracks (ops : List (Op K V)) (ht : Tracks default l as) :
    Tracks default (ops.foldl Op.onPairs l) (as ++ accesses ops) := by
  induction ops generalizing l as with
  | nil => rwa [show accesses ([] : List (Op K V)) = [] from rfl, List.append_nil]
  | cons op ops ih =>
    rw [accesses_cons, ← List.append_assoc]
    exact ih (onPairs_tracks ht op)

theorem subscript_present (h : Rep a.sizeof v l) (ht : Tracks default l as) (hp : l[i]? = some p) (hk : p.1 == k) :
    subscript a k v = .ok (v, i) := by
  have hi : i < v.size := by
    rw [h.size]
    exact (List.getElem?_eq_some_iff.mp hp).1
  have hfind : find v k = .ok i := by rw [find_spec h k, Vectormap.find_eq ht hp hk]
  unfold subscript
  rw [ok_bind hfind, if_pos hi]
  rfl

theorem Rep.isMap (h : Rep a.sizeof v l) (ht : Tracks default l as) : IsMap a v l as :=
  ⟨h.agrees, ht, fun k => ⟨_, find_spec h k, finds_find l k⟩, fun _ _ _ hp hk => subscript_present h ht hp hk⟩

/-! ## Allocations -/

/-- A map never has more pairs than accesses, and never asks for more than twice as much. -/
theorem fits_needed (h : Rep a.sizeof v l) (ht : Tracks default l as) (hle : as.length ≤ n)
    (hf : ∀ m ≤ 8 + 2 * n, Fits a m) : ∀ m ∈ v.needed, Fits a m := by
  have hlen := ht.length_le
  have hsize := h.size
  intro m hm
  refine hf m ?_
  unfold needed at hm
  split at hm
  · cases hm
    omega
  · split at hm
    · cases hm
      omega
    · exact nomatch hm

/-- Every sequence is served whose accesses have room for twice as many pairs. -/
theorem served_of_fits (ops : List (Op K V)) (h : Rep a.sizeof v l) (ht : Tracks default l as)
    (hf : ∀ m ≤ 8 + 2 * (as.length + ops.length), Fits a m) : Served a v ops := by
  induction ops generalizing v l as with
  | nil => trivial
  | cons op ops ih =>
    have hneeded := fits_needed h ht (Nat.le_add_right ..) hf
    refine ⟨fun _ _ _ => hneeded, ?_⟩
    intro v' hv'
    obtain ⟨v1, happly, hrep⟩ := apply_spec h (show ∀ c, op.access = some c → _ from fun _ _ _ => hneeded)
    obtain rfl := Except.ok.inj (happly.symm.trans hv')
    have hone : op.access.toList.length ≤ 1 := by
      cases op.access with
      | none => exact Nat.zero_le 1
      | some _ => exact Nat.le_refl 1
    refine ih hrep (onPairs_tracks ht op) ?_
    intro m hm
    refine hf m ?_
    rw [List.length_append] at hm
    rw [List.length_cons]
    omega

/-! ## The map -/

/-- After every sequence of calls the pairs are an insertion-ordered map of the accesses: keys
    pairwise different and in the order of their first appearance, each with the value written last;
    `find` and `operator[]` go to the pair of their key. -/
theorem vectormap_is_an_ordered_map (a : Alloc) (ops : List (Op K V)) (hserved : Served a init ops) :
    ∃ v l, run a init ops = .ok v ∧ IsMap a v l (accesses ops) := by
  obtain ⟨v, hrun, hrep⟩ := run_spec ops init_rep hserved
  exact ⟨v, ops.foldl Op.onPairs [], hrun, Rep.isMap hrep (foldl_tracks ops tracks_nil)⟩

/-- Nine keys: the buffer grows from eight pairs to sixteen. -/
theorem vectormap_is_an_ordered_map_grown :
    ∃ v l, run ⟨8, fun _ => true⟩ init ((List.range 9).map fun n => Op.write n (n * n)) = .ok v ∧
      IsMap ⟨8, fun _ => true⟩ v l (accesses ((List.range 9).map fun n => Op.write n (n * n))) :=
  vectormap_is_an_ordered_map ⟨8, fun _ => true⟩ _ (served_of_fits _ init_rep tracks_nil fun m hm =>
    ⟨(show 26 * 8 < 2 ^ 64 by decide).trans_le' (Nat.mul_le_mul_right 8 hm), rfl⟩)

end Rodvin.Libc.VectormapOnVector
