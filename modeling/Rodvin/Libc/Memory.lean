/-
  Rodvin.Libc.Memory — `memmove` and `memcpy` on the whole memory
  (`kernel/src/libc/string.cpp`).

  A range of memory does not wrap around the end of the address space, so an address in it is
  a `Nat`. The loop upwards never writes what it still has to read when the destination is
  in front of the source, the loop downwards when it is not:
  - `memmove_buffer`: within one buffer, the checked `memmove` writes the same bytes.
  - `memmove_handles_overlap`: for any two ranges the destination holds what the source held,
    and nothing else is written.
-/

import Rodvin.Lib.InPlace
import Rodvin.Libc.CString

namespace Rodvin.Libc.Memory

open Rodvin.Lib

abbrev Mem := Nat → UInt8

/-- The first loop of `memmove`, from `n` on with `k` bytes to go. -/
def copyUp (d s : Nat) : Nat → Nat → Mem → Mem
  | 0, _, m => m
  | k + 1, n, m => copyUp d s k (n + 1) (Function.update m (d + n) (m (s + n)))

/-- The second loop. -/
def copyDown (d s : Nat) : Nat → Mem → Mem
  | 0, m => m
  | n + 1, m => copyDown d s n (Function.update m (d + n) (m (s + n)))

def memmove (dst src count : Nat) (m : Mem) : Mem :=
  if dst < src then copyUp dst src count 0 m else copyDown dst src count m

def memcpy (dst src count : Nat) (m : Mem) : Mem := memmove dst src count m

/-- The destination holds what the source held before, the rest of the memory is as before. -/
structure Moved (m m' : Mem) (dst src count : Nat) : Prop where
  bytes : ∀ k < count, m' (dst + k) = m (src + k)
  rest : ∀ a, a < dst ∨ dst + count ≤ a → m' a = m a

/-! ## The two loops -/

variable {d s n k count : Nat} {m : Mem}

theorem copyUp_eq : copyUp d s k n m = copyEach (d + ·) (s + ·) m (List.range' n k) := by
  induction k generalizing n m with
  | zero => rfl
  | succ k ih =>
    rw [copyUp, ih, List.range'_succ]
    rfl

theorem copyDown_eq : copyDown d s n m = copyEach (d + ·) (s + ·) m (List.range n).reverse := by
  induction n generalizing m with
  | zero => rfl
  | succ n ih =>
    rw [copyDown, ih, List.range_succ, List.reverse_append]
    rfl

theorem inOrder_up (h : d < s) : InOrder (d + ·) (s + ·) (List.range' n k) := by
  have hlt : (List.range' n k).Pairwise (· < ·) := List.pairwise_lt_range' 1
  refine hlt.imp fun {i j} hij => ?_
  show d + i ≠ d + j ∧ d + i ≠ s + j
  omega

theorem inOrder_down (h : s ≤ d) : InOrder (d + ·) (s + ·) (List.range n).reverse := by
  refine List.pairwise_reverse.mpr (List.pairwise_lt_range.imp fun {i j} hij => ?_)
  show d + j ≠ d + i ∧ d + j ≠ s + i
  omega

/-- Copying all indices below `count` in an order that never overtakes itself. -/
theorem moved_of_inOrder {ks : List Nat} (h : InOrder (d + ·) (s + ·) ks) (hks : ∀ k, k ∈ ks ↔ k < count) :
    Moved m (copyEach (d + ·) (s + ·) m ks) d s count := by
  constructor
  · intro k hk
    exact copyEach_at h ((hks k).mpr hk)
  · intro a ha
    refine copyEach_else fun k hk => ?_
    have := (hks k).mp hk
    omega

theorem memmove_moved (dst src count : Nat) (m : Mem) : Moved m (memmove dst src count m) dst src count := by
  unfold memmove
  by_cases h : dst < src
  · rw [if_pos h, copyUp_eq]
    exact moved_of_inOrder (inOrder_up h) (by simp)
  · rw [if_neg h, copyDown_eq]
    exact moved_of_inOrder (inOrder_down (by omega)) (by simp)

/-! ## Within a buffer -/

/-- The bytes of a buffer, at its own offsets. -/
def ofBuffer (b : Bytes) : Mem := fun a => b.getD a 0

theorem memmove_buffer {b : Bytes} (hs : s + n ≤ b.length) (hd : d + n ≤ b.length) :
    ∃ c, Libc.memmove b d s n = .ok c ∧ c.length = b.length ∧ ofBuffer c = memmove d s n (ofBuffer b) := by
  obtain ⟨out, hout, hlen, hget⟩ := memmove_spec hs hd
  have hm := memmove_moved d s n (ofBuffer b)
  refine ⟨out, hout, hlen, funext fun a => ?_⟩
  have hread : ofBuffer out a = (out[a]?).getD 0 := List.getD_eq_getElem?_getD
  rw [hread, hget]
  by_cases ha : d ≤ a ∧ a < d + n
  · have hk := hm.bytes (a - d) (by omega)
    rw [show d + (a - d) = a by omega] at hk
    rw [if_pos ha, hk]
    exact List.getD_eq_getElem?_getD.symm
  · rw [if_neg ha, hm.rest a (by omega)]
    exact List.getD_eq_getElem?_getD.symm

/-- However the two ranges lie; and the `memmove` that stays in one buffer writes the same bytes. -/
theorem memmove_handles_overlap (m : Mem) (dst src count : Nat) :
    Moved m (memmove dst src count m) dst src count ∧ Moved m (memcpy dst src count m) dst src count ∧
      ∀ b : Bytes, src + count ≤ b.length → dst + count ≤ b.length →
        ∃ c, Libc.memmove b dst src count = .ok c ∧ c.length = b.length ∧
          ofBuffer c = memmove dst src count (ofBuffer b) :=
  ⟨memmove_moved dst src count m, memmove_moved dst src count m, fun _ => memmove_buffer⟩

example : (memmove 1 0 3 fun a => UInt8.ofNat a) 3 = 2 := by decide

end Rodvin.Libc.Memory
