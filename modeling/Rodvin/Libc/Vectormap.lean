/-
  Rodvin.Libc.Vectormap — the associative container (`kernel/src/libc/vectormap`:
  `operator[]`, `insert`, `find`) on a list of pairs.

  `operator[]` returns a reference to the value of the first pair with the key, after
  pushing one with a default value if there is none; here the reference is the index of
  the pair. The keys have the equality that `K` defines, an equivalence.

  Proved: inserting a list of pairs into an empty map leaves the keys in the order of
  their first occurrence, each with the last value given to it (`insertAll_eq`). What the
  vector below does is in `Rodvin.Libc.VectormapOnVector`.
-/

import Rodvin.Lib.Entries

namespace Rodvin.Libc.Vectormap

open Rodvin.Lib

variable {K V : Type} [BEq K] [Inhabited V]

/-- The index of the first pair with the key, `size()` for `end()`. -/
def find (m : List (K × V)) (key : K) : Nat := m.findIdx fun p => p.1 == key

def subscript (m : List (K × V)) (key : K) : List (K × V) × Nat :=
  if find m key < m.length then (m, find m key) else (m ++ [(key, default)], m.length)

def insert (m : List (K × V)) (p : K × V) : List (K × V) :=
  let (m, i) := subscript m p.1
  m.modify i fun q => (q.1, p.2)

def insertAll (ps : List (K × V)) : List (K × V) := ps.foldl insert []

/-- The value in the last pair with the key. -/
def lastValue (ps : List (K × V)) (key : K) : V := ((ps.reverse.find? fun p => p.1 == key).map Prod.snd).getD default

/-- The keys in the order of their first occurrence, each with its last value. -/
def ordered (ps : List (K × V)) : List (K × V) := (ps.map Prod.fst).eraseDups.map fun k => (k, lastValue ps k)

/-! ## `operator[]` -/

variable {m : List (K × V)} {as : List (K × Option V)} {key : K} {p : K × V} {i : Nat}

omit [Inhabited V] in
theorem find_present (h : find m key < m.length) : ∃ p, m[find m key]? = some p ∧ p.1 == key :=
  ⟨_, List.getElem?_eq_getElem h, List.findIdx_getElem (w := h)⟩

omit [Inhabited V] in
theorem find_absent (h : ¬ find m key < m.length) : ∀ p ∈ m, (p.1 == key) = false :=
  List.findIdx_eq_length.mp (Nat.le_antisymm List.findIdx_le_length (Nat.not_lt.mp h))

variable [EquivBEq K]

omit [Inhabited V] in
/-- The one pair with the key is found. -/
theorem find_eq {fresh : V} (ht : Tracks fresh m as) (hp : m[i]? = some p) (hk : p.1 == key) : find m key = i := by
  have hlt : find m key < m.length := List.findIdx_lt_length_of_exists ⟨p, List.mem_of_getElem? hp, hk⟩
  obtain ⟨q, hq, hqk⟩ := find_present hlt
  by_contra hne
  have hdistinct := ht.ne hq hp hne
  rw [BEq.trans hqk (BEq.symm hk)] at hdistinct
  exact nomatch hdistinct

/-- `operator[]` refers to a pair with the key, and what is written there is the access. -/
theorem subscript_tracks (ht : Tracks default m as) (key : K) :
    ∃ p, (subscript m key).1[(subscript m key).2]? = some p ∧
      ∀ w, Tracks default ((subscript m key).1.set (subscript m key).2 (p.1, w.getD p.2)) (as ++ [(key, w)]) := by
  unfold subscript
  by_cases h : find m key < m.length
  · obtain ⟨p, hp, hk⟩ := find_present h
    rw [if_pos h]
    exact ⟨p, hp, ht.update hp hk⟩
  · rw [if_neg h]
    refine ⟨(key, default), List.getElem?_concat_length, fun w => ?_⟩
    rw [List.set_append_right _ _ (Nat.le_refl _), Nat.sub_self]
    exact ht.enter (find_absent h) w

omit [EquivBEq K] in
theorem subscript_pair (m : List (K × V)) (key : K) : ∃ p, (subscript m key).1[(subscript m key).2]? = some p := by
  unfold subscript
  split
  · next hlt => exact ⟨_, List.getElem?_eq_getElem hlt⟩
  · exact ⟨_, List.getElem?_concat_length⟩

/-- A reference that nothing is written through. -/
theorem subscript_read (ht : Tracks default m as) (key : K) :
    Tracks default (subscript m key).1 (as ++ [(key, none)]) := by
  obtain ⟨p, hp, htracks⟩ := subscript_tracks ht key
  obtain ⟨hi, rfl⟩ := List.getElem?_eq_some_iff.mp hp
  have hset := htracks none
  have hself := List.set_getElem_self hi
  exact Eq.mp (congrArg (Tracks default · _) hself) hset

omit [EquivBEq K] in
theorem insert_eq (hp : (subscript m key).1[(subscript m key).2]? = some p) (x : V) :
    insert m (key, x) = (subscript m key).1.set (subscript m key).2 (p.1, x) := by
  obtain ⟨hi, rfl⟩ := List.getElem?_eq_some_iff.mp hp
  unfold insert
  simp only
  rw [List.modify_eq_take_cons_drop hi, List.set_eq_take_append_cons_drop, if_pos hi]

theorem insert_tracks (ht : Tracks default m as) (p : K × V) :
    Tracks default (insert m p) (as ++ [(p.1, some p.2)]) := by
  obtain ⟨q, hq, hset⟩ := subscript_tracks ht p.1
  rw [show p = (p.1, p.2) from rfl, insert_eq hq p.2]
  exact hset (some p.2)

/-! ## Insertion order -/

/-- The accesses that inserting makes. -/
def inserts (ps : List (K × V)) : List (K × Option V) := ps.map fun p => (p.1, some p.2)

omit [BEq K] [Inhabited V] [EquivBEq K] in
theorem inserts_concat (ps : List (K × V)) (p : K × V) : inserts (ps ++ [p]) = inserts ps ++ [(p.1, some p.2)] :=
  List.map_append

theorem insertAll_tracks (ps : List (K × V)) : Tracks default (insertAll ps) (inserts ps) := by
  induction ps using List.reverseRecOn with
  | nil => exact tracks_nil
  | append_singleton ps p ih =>
    have hlast : insertAll (ps ++ [p]) = insert (insertAll ps) p := List.foldl_append
    rw [hlast, inserts_concat]
    exact insert_tracks ih p

omit [EquivBEq K] in
theorem lastValue_eq (ps : List (K × V)) (key : K) :
    lastValue ps key = (lastWritten (inserts ps) key).getD default := by
  induction ps using List.reverseRecOn with
  | nil => rfl
  | append_singleton ps p ih =>
    rw [inserts_concat, lastWritten_concat]
    unfold lastValue at ih ⊢
    rw [List.reverse_append, List.reverse_singleton, List.singleton_append, List.find?_cons]
    cases hk : p.1 == key with
    | true => rfl
    | false => exact ih

theorem insertAll_eq (ps : List (K × V)) : insertAll ps = ordered ps := by
  have ht := insertAll_tracks ps
  have hkeys : (insertAll ps).map Prod.fst = (ps.map Prod.fst).eraseDups := by
    rw [ht.order, inserts, List.map_map]
    rfl
  have hpairs : ∀ p ∈ insertAll ps, (p.1, lastValue ps p.1) = p := by
    intro p hp
    rw [lastValue_eq, ← ht.last p hp]
  unfold ordered
  rw [← hkeys, List.map_map, List.map_congr_left (f := (fun k => (k, lastValue ps k)) ∘ Prod.fst) hpairs, List.map_id']

end Rodvin.Libc.Vectormap
