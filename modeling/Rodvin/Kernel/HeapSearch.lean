/-
  Rodvin.Kernel.HeapSearch — the search of `malloc` (`kernel/src/common/mem.cpp`).

  The loop of `malloc` has no counter: it follows `next` from `last_used` until a block
  fits. In every state a run reaches the blocks are one ring, and `last_used` is one of
  them, so:
  - `search_eq`: on any fuel the search gives the first block that fits among as many
    blocks of the ring, from `last_used` on, as there is fuel.
  - `first_fit`: it ends iff some block fits, within as many steps as there are blocks,
    and `malloc` then takes the first that fits (`Allocates`). The other blocks stay, and
    so does every word of a payload in use (`malloc_word`).
-/

import Mathlib.Data.List.Rotate
import Rodvin.Kernel.HeapProofs

namespace Rodvin.Kernel.Heap

open Rodvin.Lib

/-! ## The search -/

/-- The loop of `malloc` stops at `b`. -/
def Fits (size : Nat) (b : Block) : Prop := b.free = true ∧ size ≤ b.length

instance (size : Nat) (b : Block) : Decidable (Fits size b) := inferInstanceAs (Decidable (_ ∧ _))

/-- The blocks `bs` in the order in which `next` visits them from `last_used` on. -/
structure RingOrder (h : Mem) (bs ring : List Block) : Prop where
  rotated : ring.IsRotated bs
  visits : ∀ i (hi : i < ring.length), (fun p => get h p .next)^[i] h.lastUsed = ring[i].addr

variable {r : Reserve} {h h' : Mem} {bs ring xs ys : List Block} {b : Block} {size fuel : Nat}

/-- The test of the loop, on an address. -/
def stops (h : Mem) (size p : Nat) : Bool := !decide (get h p .free = 0 ∨ get h p .length < size)

theorem search_seek : ∀ {fuel cur : Nat}, search h size fuel cur = seek (nextOf h) (stops h size) fuel cur := by
  intro fuel
  induction fuel with
  | zero => intro cur; rfl
  | succ fuel ih =>
    intro cur
    unfold search seek stops
    by_cases hgo : get h cur .free = 0 ∨ get h cur .length < size
    · simp only [hgo, if_true, decide_true, Bool.not_true, Bool.false_eq_true, if_false]
      exact ih
    · simp only [hgo, if_false, decide_false, Bool.not_false, if_true]

theorem stops_block (hs : Shape r h bs) (hb : b ∈ bs) : stops h size b.addr = decide (Fits size b) := by
  obtain ⟨hlen, hfree⟩ := hs.entries b hb
  unfold stops Fits
  rw [hlen, hfree, ← decide_not]
  refine decide_eq_decide.mpr ?_
  rw [not_or, Nat.not_lt, ← toNat_ne_zero]

/-- The search from a block of the ring, on any fuel. -/
theorem search_ring (hs : Shape r h bs) (hmem : ∀ q ∈ b :: ys, q ∈ bs)
    (hring : Ring (nextOf h) (prevOf h) ((b :: ys).map Block.addr)) :
    search h size fuel b.addr = (((b :: ys).take fuel).find? (Fits size ·)).map Block.addr := by
  have hblock : ∀ q ∈ (b :: ys).take fuel, (stops h size ∘ Block.addr) q = decide (Fits size q) := fun q hq =>
    stops_block hs (hmem q (List.mem_of_mem_take hq))
  calc search h size fuel b.addr = seek (nextOf h) (stops h size) fuel b.addr := search_seek
    _ = (((b :: ys).map Block.addr).take fuel).find? (stops h size) := hring.seek
    _ = (((b :: ys).take fuel).find? (stops h size ∘ Block.addr)).map Block.addr := by
      rw [← List.map_take, List.find?_map]
    _ = (((b :: ys).take fuel).find? (Fits size ·)).map Block.addr := by
      rw [List.find?_congr hblock]

/-- The ring is cut in front of `last_used`. -/
theorem search_eq (hr : Rep r h bs) : ∃ ring, RingOrder h bs ring ∧
    ∀ size fuel, search h size fuel h.lastUsed = ((ring.take fuel).find? (Fits size ·)).map Block.addr := by
  obtain ⟨b, hb, hl⟩ := hr.lastUsed
  obtain ⟨xs, ys, rfl⟩ := List.append_of_mem hb
  have hrot : (b :: (ys ++ xs)).IsRotated (xs ++ b :: ys) := List.isRotated_append (l := b :: ys)
  have hring : Ring (nextOf h) (prevOf h) ((b :: (ys ++ xs)).map Block.addr) := hr.shape.rotate.1
  rw [← hl]
  refine ⟨b :: (ys ++ xs), ⟨hrot, fun i hi => ?_⟩, fun size fuel =>
    search_ring hr.shape (fun q hq => hrot.mem_iff.mp hq) hring⟩
  rw [← hl]
  exact ring_visits hring i hi

/-! ## What `malloc` leaves alone -/

theorem put_word {p v x : Nat} {f : Field} (hx : x < p ∨ p + entrySize ≤ x) : (put h p f v).word x = h.word x := by
  refine Function.update_of_ne ?_ _ _
  cases f <;> simp only [Field.offset, entrySize] at * <;> omega

/-- `x` is behind the entry of `q` and in front of the next one. -/
def InPayload (q : Block) (x : Nat) : Prop := q.addr + entrySize ≤ x ∧ x < q.stop

variable {q : Block} {x k : Nat}

theorem Shape.off_entry (hs : Shape r h bs) (hb : b ∈ bs) (hq : q ∈ bs) (hx : InPayload q x) :
    x < b.addr ∨ b.addr + entrySize ≤ x := by
  obtain ⟨h1, h2⟩ := hx
  have hstop := b.addr_lt_stop
  rcases hs.tiles.separate hb hq with rfl | hsep | hsep
  · exact Or.inr h1
  · exact Or.inr (by omega)
  · exact Or.inl (by omega)

theorem Shape.split_word (hs : Shape r h bs) (hb : b ∈ bs) (hk : entrySize + k ≤ b.length) (hq : q ∈ bs) (hqb : q ≠ b)
    (hx : InPayload q x) : (Heap.split h b.addr (b.addr + entrySize + k)).word x = h.word x := by
  obtain ⟨z, hz, hzn⟩ := hs.next_block hb
  obtain ⟨hby, hbne⟩ := hs.inside hb hk hb
  obtain ⟨hzy, hzne⟩ := hs.inside hb hk hz
  have hxb := hs.off_entry hb hq hx
  have hxz := hs.off_entry hz hq hx
  have hxy : x < b.addr + entrySize + k ∨ b.addr + entrySize + k + entrySize ≤ x := by
    obtain ⟨h1, h2⟩ := hx
    rcases (hs.tiles.separate hq hb).resolve_left hqb with hsep | hsep
    · exact Or.inl (by omega)
    · refine Or.inr ?_
      unfold Block.stop at hsep
      omega
  rw [split_eq hzn.symm hby hbne hzy hzne]
  simp only [put_word hxb, put_word hxy, put_word hxz]

/-- No word of a payload in use changes. -/
theorem malloc_word {p : Nat} (hr : Rep r (ready h) bs) (hm : malloc fuel size h = some (p, h')) (hq : q ∈ bs)
    (hqf : q.free = false) (hx : InPayload q x) : h'.word x = (ready h).word x := by
  obtain ⟨cur, hcur, hp⟩ := Option.map_eq_some_iff.mp hm
  generalize ready h = h0 at hr hcur hp
  obtain ⟨b, hb, rfl, hfree, hsize⟩ := search_spec hr.shape hr.lastUsed hcur
  have hqb : q ≠ b := fun e => by rw [e, hfree] at hqf; cases hqf
  have hused : (put h0 b.addr .free 0).word x = h0.word x := put_word (hr.shape.off_entry hb hq hx)
  have hl1 : get (put h0 b.addr .free 0) b.addr .length = b.length := by
    rw [get_put (Apart.refl _), if_neg (by simp), (hr.shape.entries b hb).1]
  simp only [hl1, Prod.mk.injEq] at hp
  obtain ⟨-, rfl⟩ := hp
  by_cases hcond : add64 size entrySize ≤ b.length
  · obtain ⟨hfit, hpoint⟩ := hr.splitPoint_eq hb hsize hcond
    obtain ⟨xs, ys, rfl⟩ := List.append_of_mem hb
    have hs1 : Shape r (put h0 b.addr .free 0) (xs ++ ⟨b.addr, b.length, false⟩ :: ys) := hr.shape.setFree false
    have hq' : q ∈ xs ++ ⟨b.addr, b.length, false⟩ :: ys := mem_mid.mpr (Or.inr ((mem_mid.mp hq).resolve_left hqb))
    have hne : q ≠ ⟨b.addr, b.length, false⟩ := fun e =>
      hqb (hr.shape.tiles.eq_of_addr hq (by simp) (by rw [e]))
    rw [if_pos hcond, hpoint]
    have hcut := hs1.split_word (b := ⟨b.addr, b.length, false⟩) (by simp) (split_room (hr.rounded b hb) hfit) hq' hne hx
    exact hcut.trans hused
  · rw [if_neg hcond]
    exact hused

/-! ## First fit -/

/-- `malloc` returned the payload of `b`: that block is now in use and holds `size` bytes,
    the others and their payloads in use are as they were. -/
structure Allocates (r : Reserve) (s : St) (size : Nat) (bs : List Block) (b : Block) (p : Nat) (h' : Mem) : Prop where
  result : p = b.addr + entrySize
  heap : ∃ bs', HeapOk r ⟨h', (p, size) :: s.live⟩ bs' ∧ Takes bs size b bs'
  payloads : ∀ q ∈ bs, q.free = false → ∀ x, InPayload q x → h'.word x = s.heap.word x

/-- `bs` are the blocks after the first lines of `malloc`, `ring` the order of the search. -/
structure FirstFit (r : Reserve) (s : St) (bs ring : List Block) (size : Nat) : Prop where
  blocks : HeapOk r ⟨ready s.heap, s.live⟩ bs
  order : RingOrder (ready s.heap) bs ring
  ends : (∃ fuel cur, search (ready s.heap) size fuel (ready s.heap).lastUsed = some cur) ↔ ∃ b ∈ bs, Fits size b
  steps : ∀ fuel cur, search (ready s.heap) size fuel (ready s.heap).lastUsed = some cur →
    search (ready s.heap) size bs.length (ready s.heap).lastUsed = some cur
  first : ∀ fuel p h', malloc fuel size s.heap = some (p, h') →
    ∃ b, ring.find? (Fits size ·) = some b ∧ Allocates r s size bs b p h'

/-- Where some block is in use, the first lines of `malloc` do nothing. -/
theorem Reached.ready_eq {s : St} (hs : Reached r s) (hi : Inv r ⟨ready s.heap, s.live⟩ bs) (hq : q ∈ bs)
    (hqf : q.free = false) : ready s.heap = s.heap := by
  rcases hs with rfl | ⟨bs', hi'⟩
  · rw [hi.allFree rfl] at hq
    rw [List.mem_singleton.mp hq] at hqf
    cases hqf
  · exact hi'.rep.ready_eq

/-- In every state a run reaches: the loop of `malloc` ends iff a block fits, within as many
    steps as there are blocks, and the first block that fits is the one allocated. -/
theorem first_fit {es : List Ev} {s : St} (h : Run Step (initSt r) es s) :
    ∃ bs ring, ∀ size, FirstFit r s bs ring size := by
  have hs := run_reached h
  obtain ⟨bs, hi⟩ := hs.inv
  obtain ⟨ring, ho, hsearch⟩ := search_eq hi.rep
  have hmem : ∀ {q}, q ∈ ring ↔ q ∈ bs := ho.rotated.mem_iff
  have hall : ∀ {size fuel cur}, search (ready s.heap) size fuel (ready s.heap).lastUsed = some cur →
      ∃ b, ring.find? (Fits size ·) = some b ∧ b.addr = cur := by
    intro size fuel cur hcur
    rw [hsearch] at hcur
    obtain ⟨b, hfind, hb⟩ := Option.map_eq_some_iff.mp hcur
    exact ⟨b, (List.take_prefix fuel ring).find?_eq_some hfind, hb⟩
  have hround : ∀ size, search (ready s.heap) size bs.length (ready s.heap).lastUsed =
      (ring.find? (Fits size ·)).map Block.addr := by
    intro size
    rw [hsearch, List.take_of_length_le (Nat.le_of_eq ho.rotated.perm.length_eq)]
  refine ⟨bs, ring, fun size => ⟨hi.heapOk, ho, ⟨?_, ?_⟩, ?_, ?_⟩⟩
  · intro ⟨fuel, cur, hcur⟩
    obtain ⟨b, hfind, -⟩ := hall hcur
    exact ⟨b, hmem.mp (List.mem_of_find?_eq_some hfind), by simpa using List.find?_some hfind⟩
  · intro ⟨b, hb, hfits⟩
    have hsome : (ring.find? (Fits size ·)).isSome := List.find?_isSome.mpr ⟨b, hmem.mpr hb, decide_eq_true hfits⟩
    obtain ⟨c, hc⟩ := Option.isSome_iff_exists.mp hsome
    exact ⟨bs.length, c.addr, by rw [hround, hc]; rfl⟩
  · intro fuel cur hcur
    obtain ⟨b, hfind, hb⟩ := hall hcur
    rw [hround, hfind, Option.map_some, hb]
  · intro fuel p h' hm
    obtain ⟨b, bs', hcur, hp, htakes, hi'⟩ := malloc_inv hi hm
    obtain ⟨b', hfind, hb'⟩ := hall hcur
    obtain rfl : b' = b := hi.rep.shape.tiles.eq_of_addr (hmem.mp (List.mem_of_find?_eq_some hfind)) htakes.mem hb'
    refine ⟨b', hfind, hp, ⟨bs', hi'.heapOk, htakes⟩, fun q hq hqf x hx => ?_⟩
    rw [malloc_word hi.rep hm hq hqf hx, hs.ready_eq hi hq hqf]

theorem first_fit_two_blocks : ∃ s, Run Step (initSt reserveAt2M) [.malloc 1 100, .malloc 1 1, .free 0x200020] s ∧
    s.live = [(0x2000b0, 1)] ∧ ∃ bs ring, ∀ size, FirstFit reserveAt2M s bs ring size := by
  obtain ⟨s, h, hl⟩ := run_two_blocks
  exact ⟨s, h, hl, first_fit h⟩

end Rodvin.Kernel.Heap
