/-
  Rodvin.Lib.Bytes — little-endian numbers and runs of bytes in a byte memory.

  A memory is a function from addresses to bytes. `slice m a n` is the run of `n` bytes
  at `a`, `splice m a bs` the memory with `bs` stored at `a`. A number is read as the
  value of its bytes (`ofLE`), so what a field reads follows from the slice it lies in.
-/

import Mathlib.Tactic

namespace Rodvin.Lib

/-- The lowest `n` bytes of `v`. -/
def le : Nat → Nat → List UInt8
  | 0, _ => []
  | n + 1, v => UInt8.ofNat v :: le n (v / 256)

def ofLE : List UInt8 → Nat
  | [] => 0
  | b :: bs => b.toNat + 256 * ofLE bs

def slice (m : Nat → UInt8) (a n : Nat) : List UInt8 := (List.range n).map fun i => m (a + i)

def splice (m : Nat → UInt8) (a : Nat) (bs : List UInt8) : Nat → UInt8 := fun b =>
  if a ≤ b ∧ b < a + bs.length then bs.getD (b - a) 0 else m b

variable {m m' : Nat → UInt8} {a a' b n k v : Nat} {bs cs : List UInt8}

@[simp] theorem length_le (n v : Nat) : (le n v).length = n := by
  induction n generalizing v with
  | zero => rfl
  | succ n ih => simp [le, ih]

theorem ofLE_le (n v : Nat) : ofLE (le n v) = v % 256 ^ n := by
  induction n generalizing v with
  | zero => simp [le, ofLE, Nat.mod_one]
  | succ n ih =>
    have hb : (UInt8.ofNat v).toNat = v % 256 := UInt8.toNat_ofNat'
    rw [le, ofLE, ih, hb, Nat.pow_succ']
    exact Nat.mod_mul.symm

theorem le_inj {w : Nat} (hv : v < 256 ^ n) (hw : w < 256 ^ n) (h : le n v = le n w) : v = w := by
  rw [← Nat.mod_eq_of_lt hv, ← ofLE_le, h, ofLE_le, Nat.mod_eq_of_lt hw]

/-- The bytes above the lowest `n` do not matter. -/
theorem le_mod (n v : Nat) : le n (v % 256 ^ n) = le n v := by
  induction n generalizing v with
  | zero => rfl
  | succ n ih =>
    have hlow : UInt8.ofNat (v % 256 ^ (n + 1)) = UInt8.ofNat v := by
      refine UInt8.toNat_inj.mp ?_
      rw [UInt8.toNat_ofNat', UInt8.toNat_ofNat', Nat.pow_succ]
      exact Nat.mod_mul_left_mod v (256 ^ n) 256
    have hhigh : v % 256 ^ (n + 1) / 256 = v / 256 % 256 ^ n := by
      rw [Nat.pow_succ']
      exact Nat.mod_mul_right_div_self v 256 (256 ^ n)
    rw [le, le, hlow, hhigh, ih]

theorem ofLE_append (bs cs : List UInt8) : ofLE (bs ++ cs) = ofLE bs + 256 ^ bs.length * ofLE cs := by
  induction bs with
  | nil => simp [ofLE]
  | cons b bs ih =>
    rw [List.cons_append, ofLE, ofLE, ih, List.length_cons, Nat.pow_succ']
    ring

theorem getD_le {i : Nat} (h : i < n) : (le n v).getD i 0 = UInt8.ofNat (v / 256 ^ i) := by
  induction n generalizing i v with
  | zero => exact absurd h (Nat.not_lt_zero i)
  | succ n ih =>
    cases i with
    | zero => simp [le]
    | succ i =>
      rw [le, List.getD_cons_succ, ih (Nat.lt_of_succ_lt_succ h), Nat.div_div_eq_div_mul, Nat.pow_succ']

theorem ofLE_lt (bs : List UInt8) : ofLE bs < 256 ^ bs.length := by
  induction bs with
  | nil => decide
  | cons b bs ih =>
    have := b.toNat_lt
    rw [ofLE, List.length_cons, Nat.pow_succ']
    omega

@[simp] theorem length_slice (m : Nat → UInt8) (a n : Nat) : (slice m a n).length = n := by simp [slice]

theorem slice_congr (h : ∀ i < n, m (a + i) = m' (a' + i)) : slice m a n = slice m' a' n :=
  List.map_congr_left fun i hi => h i (List.mem_range.mp hi)

theorem slice_add (m : Nat → UInt8) (a n k : Nat) : slice m a (n + k) = slice m a n ++ slice m (a + n) k := by
  unfold slice
  rw [List.range_add, List.map_append, List.map_map]
  congr 1
  exact List.map_congr_left fun i _ => by simp [Nat.add_assoc]

/-- The parts of a run of bytes. -/
theorem slice_append (h : slice m a n = bs ++ cs) (hb : bs.length = k) :
    slice m a k = bs ∧ slice m (a + k) (n - k) = cs := by
  have hn : n = k + (n - k) := by
    have := congrArg List.length h
    rw [length_slice, List.length_append] at this
    omega
  rw [hn, slice_add] at h
  exact List.append_inj h (by rw [length_slice, hb])

theorem ofLE_slice_one (m : Nat → UInt8) (a : Nat) : ofLE (slice m a 1) = (m a).toNat := by simp [slice, ofLE]

theorem splice_of_lt (h : b < a) : splice m a bs b = m b := if_neg (by omega)

theorem splice_of_ge (h : a + bs.length ≤ b) : splice m a bs b = m b := if_neg (by omega)

theorem slice_splice (m : Nat → UInt8) (a : Nat) (bs : List UInt8) : slice (splice m a bs) a bs.length = bs := by
  refine List.ext_getElem (by simp) fun i h1 h2 => ?_
  simp [slice, splice, h2]

theorem slice_splice_of_disjoint (h : a' + n ≤ a ∨ a + bs.length ≤ a') :
    slice (splice m a bs) a' n = slice m a' n := by
  refine slice_congr fun i hi => ?_
  rcases h with h | h
  · exact splice_of_lt (by omega)
  · exact splice_of_ge (by omega)

theorem take_drop_slice (m : Nat → UInt8) (a : Nat) {i : Nat} (h : i + k ≤ n) :
    ((slice m a n).drop i).take k = slice m (a + i) k := by
  rw [show n = i + (k + (n - i - k)) by omega, slice_add, List.drop_left' (length_slice m a i), slice_add,
    List.take_left' (length_slice m (a + i) k)]

/-- A part of the `n`-th of a list of records of one length. -/
theorem take_drop_flatMap {α β : Type} {f : α → List β} {w i k : Nat} {l : List α} (hf : ∀ x ∈ l, (f x).length = w)
    (hk : i + k ≤ w) {n : Nat} {x : α} (hx : l[n]? = some x) :
    ((l.flatMap f).drop (w * n + i)).take k = ((f x).drop i).take k := by
  induction l generalizing n with
  | nil => exact absurd hx (by simp)
  | cons y l ih =>
    have hy := hf y (List.mem_cons_self ..)
    rw [List.flatMap_cons]
    cases n with
    | zero =>
      obtain rfl : y = x := by simpa using hx
      rw [Nat.mul_zero, Nat.zero_add, List.drop_append_of_le_length (by omega),
        List.take_append_of_le_length (by rw [List.length_drop]; omega)]
    | succ n =>
      rw [show w * (n + 1) + i = w + (w * n + i) by rw [Nat.mul_succ]; omega, ← List.drop_drop, ← hy, List.drop_left, hy]
      exact ih (fun z hz => hf z (List.mem_cons_of_mem y hz)) (by simpa using hx)

end Rodvin.Lib
