/-
  Rodvin.Kernel.HeapProofs — the heap representation invariant.

  `Shape r h bs`: the entries reached by `next` from the first one are the blocks `bs`,
  which tile the reserve, and `prev` goes back along them. Cutting a block in two and
  joining two neighbours are local edits of the list (`Shape.split`, `Shape.merge`).
  Two blocks are contiguous in the sense of `free` exactly when they are neighbours in
  the list (`contiguous_iff`), so the wrap-around of the ring never merges.

  `Inv` adds that lengths are multiples of 16, that no two neighbours are free and that
  the used blocks are the live allocations. The split of `malloc` does not wrap because
  a length that holds the size asked for, and one entry, also holds the size rounded up
  (`split_room`).
-/

import Rodvin.Kernel.Heap
import Rodvin.Lib.DoublyLinked

namespace Rodvin.Kernel.Heap

open Rodvin.Lib

/-! ## Words -/

/-- Two entries that are the same or do not overlap. -/
def Apart (p q : Nat) : Prop := p = q ∨ p + entrySize ≤ q ∨ q + entrySize ≤ p

theorem get_put {h : Mem} {p q v : Nat} {f g : Field} (hpq : Apart p q) :
    get (put h p f v) q g = if p = q ∧ f = g then v else get h q g := by
  unfold get put
  simp only [Function.update_apply]
  by_cases he : p = q ∧ f = g
  · rw [if_pos he, if_pos (by rw [he.1, he.2])]
  · rw [if_neg he, if_neg]
    rcases hpq with rfl | hpq | hpq
    · intro e
      exact he ⟨rfl, by cases f <;> cases g <;> simp_all [Field.offset]⟩
    all_goals cases f <;> cases g <;> simp only [Field.offset, entrySize] at * <;> omega

theorem get_store {h : Mem} {a q v : Nat} {g : Field} (haq : a < q ∨ q + entrySize ≤ a) :
    get { h with word := Function.update h.word a v } q g = get h q g := by
  unfold get
  simp only [Function.update_apply]
  rw [if_neg]
  cases g <;> simp only [Field.offset, entrySize] at * <;> omega

/-! ## Tilings -/

theorem tiles_append {ys : List Block} {hi : Nat} :
    ∀ {xs : List Block} {lo : Nat}, Tiles lo (xs ++ ys) hi ↔ ∃ mid, Tiles lo xs mid ∧ Tiles mid ys hi := by
  intro xs
  induction xs with
  | nil => intro lo; simp [Tiles]
  | cons x xs ih => intro lo; simp only [List.cons_append, Tiles, ih, and_assoc, exists_and_left]

theorem Tiles.le {bs : List Block} {lo hi : Nat} (h : Tiles lo bs hi) : lo ≤ hi := by
  induction bs generalizing lo with
  | nil => exact Nat.le_of_eq h
  | cons b bs ih =>
    have h1 := ih h.2
    have h2 := h.1
    unfold Block.stop at h1
    omega

theorem Tiles.bounds {bs : List Block} {lo hi : Nat} (h : Tiles lo bs hi) :
    ∀ b ∈ bs, lo ≤ b.addr ∧ b.stop ≤ hi := by
  intro b hb
  obtain ⟨xs, ys, rfl⟩ := List.append_of_mem hb
  obtain ⟨mid, h1, h2, h3⟩ := tiles_append.mp h
  exact ⟨h2 ▸ h1.le, h3.le⟩

theorem Block.addr_lt_stop (b : Block) : b.addr + entrySize ≤ b.stop := Nat.le_add_right _ _

theorem Tiles.sides {xs ys : List Block} {b : Block} {lo hi : Nat} (h : Tiles lo (xs ++ b :: ys) hi) :
    (∀ x ∈ xs, x.stop ≤ b.addr) ∧ ∀ y ∈ ys, b.stop ≤ y.addr := by
  obtain ⟨mid, h1, h2, h3⟩ := tiles_append.mp h
  exact ⟨fun x hx => h2 ▸ (h1.bounds x hx).2, fun y hy => (h3.bounds y hy).1⟩

theorem Tiles.separate {bs : List Block} {a b : Block} {lo hi : Nat} (h : Tiles lo bs hi) (ha : a ∈ bs) (hb : b ∈ bs) :
    a = b ∨ a.stop ≤ b.addr ∨ b.stop ≤ a.addr := by
  obtain ⟨xs, ys, rfl⟩ := List.append_of_mem ha
  rcases List.mem_append.mp hb with hb | hb
  · exact Or.inr (Or.inr (h.sides.1 b hb))
  · rcases List.mem_cons.mp hb with rfl | hb
    · exact Or.inl rfl
    · exact Or.inr (Or.inl (h.sides.2 b hb))

theorem Tiles.apart {bs : List Block} {a b : Block} {lo hi : Nat} (h : Tiles lo bs hi) (ha : a ∈ bs) (hb : b ∈ bs) :
    Apart a.addr b.addr := by
  have h1 := a.addr_lt_stop
  have h2 := b.addr_lt_stop
  rcases h.separate ha hb with rfl | h | h
  · exact Or.inl rfl
  · exact Or.inr (Or.inl (Nat.le_trans h1 h))
  · exact Or.inr (Or.inr (Nat.le_trans h2 h))

theorem Tiles.eq_of_addr {bs : List Block} {a b : Block} {lo hi : Nat} (h : Tiles lo bs hi) (ha : a ∈ bs) (hb : b ∈ bs)
    (e : a.addr = b.addr) : a = b := by
  have h1 := a.addr_lt_stop
  have h2 := b.addr_lt_stop
  rcases h.separate ha hb with h | h | h
  · exact h
  · simp only [entrySize] at *; omega
  · simp only [entrySize] at *; omega

theorem Tiles.increasing {bs : List Block} {lo hi : Nat} (h : Tiles lo bs hi) :
    bs.Pairwise fun a b => a.addr < b.addr := by
  induction bs generalizing lo with
  | nil => exact .nil
  | cons b bs ih =>
    refine List.pairwise_cons.mpr ⟨fun y hy => ?_, ih h.2⟩
    have h1 := (h.2.bounds y hy).1
    have h2 := b.addr_lt_stop
    simp only [entrySize] at h2
    omega

theorem Tiles.nodup {bs : List Block} {lo hi : Nat} (h : Tiles lo bs hi) : (bs.map Block.addr).Nodup :=
  List.pairwise_map.mpr (h.increasing.imp Nat.ne_of_lt)

/-- The block that ends where `b` begins is the one before it. -/
theorem Tiles.before {xs ys : List Block} {a b : Block} {lo hi : Nat} (h : Tiles lo (xs ++ b :: ys) hi)
    (ha : a ∈ xs ++ b :: ys) (e : a.stop = b.addr) : ∃ xs', xs = xs' ++ [a] := by
  have h0 := a.addr_lt_stop
  have hb := b.addr_lt_stop
  simp only [entrySize] at h0 hb
  have hax : a ∈ xs := by
    rcases List.mem_append.mp ha with ha | ha
    · exact ha
    · rcases List.mem_cons.mp ha with rfl | ha
      · omega
      · have := h.sides.2 a ha
        omega
  obtain ⟨xs', zs, rfl⟩ := List.append_of_mem hax
  rw [List.append_assoc, List.cons_append] at h
  obtain ⟨_, _, -, h⟩ := tiles_append.mp h
  cases zs with
  | nil => exact ⟨xs', rfl⟩
  | cons z zs =>
    have h1 := z.addr_lt_stop
    have h2 := (tiles_append.mp h).choose_spec
    have h3 := h2.1.2.le
    have h4 := h2.2.1
    have h5 := h2.1.1
    simp only [entrySize] at h1
    omega

/-! ## Shape -/

def nextOf (h : Mem) (p : Nat) : Nat := get h p .next

def prevOf (h : Mem) (p : Nat) : Nat := get h p .prev

structure Shape (r : Reserve) (h : Mem) (bs : List Block) : Prop where
  entries : ∀ b ∈ bs, get h b.addr .length = b.length ∧ get h b.addr .free = b.free.toNat
  tiles : Tiles r.base bs (r.base + entrySize + reserveSize)
  ring : Ring (nextOf h) (prevOf h) (bs.map Block.addr)

variable {r : Reserve} {h h' : Mem} {bs xs ys : List Block} {a b : Block}

theorem ring_rotate {n p : Nat → Nat} {zs : List Block} (hr : Ring n p ((xs ++ zs).map Block.addr)) :
    Ring n p ((zs ++ xs).map Block.addr) := by
  rw [List.map_append] at hr ⊢
  exact hr.rotate

theorem Shape.rotate {zs : List Block} (hs : Shape r h (xs ++ zs)) :
    Ring (nextOf h) (prevOf h) ((zs ++ xs).map Block.addr) ∧ ((zs ++ xs).map Block.addr).Nodup := by
  refine ⟨ring_rotate hs.ring, ?_⟩
  have hnd := hs.tiles.nodup
  rw [List.map_append] at hnd ⊢
  exact (List.perm_append_comm.nodup_iff).mp hnd

/-- Following `next` from a block visits the blocks of its ring in order. -/
theorem ring_visits (hring : Ring (nextOf h) (prevOf h) ((b :: ys).map Block.addr)) (i : Nat)
    (hi : i < (b :: ys).length) :
    (nextOf h)^[i] b.addr = (b :: ys)[i].addr := by
  have hlt : i < ((b :: ys).map Block.addr).length := by rwa [List.length_map]
  calc (nextOf h)^[i] b.addr = ((b :: ys).map Block.addr)[i] := hring.iterate hlt
    _ = (b :: ys)[i].addr := List.getElem_map ..

theorem mem_mid {q : Block} : q ∈ xs ++ b :: ys ↔ q = b ∨ q ∈ xs ++ ys := by
  simp only [List.mem_append, List.mem_cons]
  tauto

/-- A block may be exchanged for one of the same extent, if its entry now says so. -/
theorem Shape.replace {b' : Block} (hs : Shape r h (xs ++ b :: ys)) (ha : b'.addr = b.addr) (hl : b'.length = b.length)
    (hb : get h' b.addr .length = b'.length ∧ get h' b.addr .free = b'.free.toNat)
    (hget : ∀ q ∈ xs ++ b :: ys, ∀ g, g = .next ∨ g = .prev ∨ q ≠ b → get h' q.addr g = get h q.addr g) :
    Shape r h' (xs ++ b' :: ys) := by
  have hsides := hs.tiles.sides
  have h1 := b.addr_lt_stop
  refine ⟨fun q hq => ?_, ?_, ?_⟩
  · have hcase : q = b' ∨ (q ∈ xs ++ b :: ys ∧ q ≠ b) := by
      rcases List.mem_append.mp hq with hq | hq
      · refine Or.inr ⟨List.mem_append_left _ hq, ?_⟩
        rintro rfl
        have := hsides.1 q hq
        simp only [entrySize] at h1
        omega
      · rcases List.mem_cons.mp hq with rfl | hq
        · exact Or.inl rfl
        · refine Or.inr ⟨List.mem_append_right _ (List.mem_cons_of_mem _ hq), ?_⟩
          rintro rfl
          have := hsides.2 q hq
          simp only [entrySize] at h1
          omega
    rcases hcase with rfl | ⟨hq, hne⟩
    · rw [ha]; exact hb
    · rw [hget q hq _ (Or.inr (Or.inr hne)), hget q hq _ (Or.inr (Or.inr hne))]
      exact hs.entries q hq
  · have ht := hs.tiles
    rw [tiles_append] at ht ⊢
    obtain ⟨mid, ht1, ht2, ht3⟩ := ht
    exact ⟨mid, ht1, ha.trans ht2, by unfold Block.stop at ht3 ⊢; rw [ha, hl]; exact ht3⟩
  · have hm : (xs ++ b' :: ys).map Block.addr = (xs ++ b :: ys).map Block.addr := by simp [ha]
    rw [hm]
    refine hs.ring.congr (fun x hx => ?_) (fun x hx => ?_)
    · obtain ⟨q, hq, rfl⟩ := List.mem_map.mp hx
      exact hget q hq .next (Or.inl rfl)
    · obtain ⟨q, hq, rfl⟩ := List.mem_map.mp hx
      exact hget q hq .prev (Or.inr (Or.inl rfl))

theorem Shape.setFree (hs : Shape r h (xs ++ b :: ys)) (f : Bool) :
    Shape r (put h b.addr .free f.toNat) (xs ++ ⟨b.addr, b.length, f⟩ :: ys) := by
  have hb : b ∈ xs ++ b :: ys := by simp
  refine hs.replace rfl rfl ⟨?_, ?_⟩ (fun q hq g hg => ?_)
  · rw [get_put (Or.inl rfl), if_neg (by simp)]
    exact (hs.entries b hb).1
  · rw [get_put (Or.inl rfl), if_pos ⟨rfl, rfl⟩]
  · rw [get_put (hs.tiles.apart hb hq), if_neg]
    rintro ⟨he, rfl⟩
    rcases hg with hg | hg | hg
    · cases hg
    · cases hg
    · exact hg (hs.tiles.eq_of_addr hq hb he.symm)

/-- Cutting `b` in two, given what the new entries read. -/
theorem Shape.cut {c d : Block} (hs : Shape r h (xs ++ b :: ys)) (hc : c.addr = b.addr) (hd : d.addr = c.stop)
    (hstop : d.stop = b.stop) (hcl : get h' c.addr .length = c.length ∧ get h' c.addr .free = c.free.toNat)
    (hdl : get h' d.addr .length = d.length ∧ get h' d.addr .free = d.free.toNat)
    (hsame : ∀ q ∈ xs ++ ys, get h' q.addr .length = get h q.addr .length ∧ get h' q.addr .free = get h q.addr .free)
    (hcn : nextOf h' c.addr = d.addr) (hdp : prevOf h' d.addr = c.addr) (hdn : nextOf h' d.addr = nextOf h b.addr)
    (hnp : prevOf h' (nextOf h b.addr) = d.addr) (hnext : ∀ q ∈ xs ++ ys, nextOf h' q.addr = nextOf h q.addr)
    (hprev : ∀ q ∈ xs ++ b :: ys, q.addr ≠ nextOf h b.addr → prevOf h' q.addr = prevOf h q.addr) :
    Shape r h' (xs ++ c :: d :: ys) := by
  refine ⟨fun q hq => ?_, ?_, ?_⟩
  · rcases mem_mid.mp hq with rfl | hq
    · exact hcl
    · rcases mem_mid.mp hq with rfl | hq
      · exact hdl
      · rw [(hsame q hq).1, (hsame q hq).2]
        exact hs.entries q (mem_mid.mpr (Or.inr hq))
  · have ht := hs.tiles
    rw [tiles_append] at ht ⊢
    obtain ⟨mid, ht1, ht2, ht3⟩ := ht
    exact ⟨mid, ht1, hc.trans ht2, hd, hstop ▸ ht3⟩
  · obtain ⟨hring, hnd⟩ := hs.rotate
    have hin : ∀ q ∈ ys ++ xs, q ∈ xs ++ ys := fun q hq => (List.perm_append_comm.mem_iff).mp hq
    have hnew : Ring (nextOf h') (prevOf h') ((c :: d :: ys ++ xs).map Block.addr) := by
      simp only [List.cons_append, List.map_cons, hc] at hring hnd ⊢
      refine hring.insert hnd (hc ▸ hcn) (hc ▸ hdp) hdn hnp (fun x hx => ?_) (fun x hx hne => ?_)
      · obtain ⟨q, hq, rfl⟩ := List.mem_map.mp hx
        exact hnext q (hin q hq)
      · rcases List.mem_cons.mp hx with rfl | hx
        · exact hprev b (by simp) hne
        · obtain ⟨q, hq, rfl⟩ := List.mem_map.mp hx
          exact hprev q (mem_mid.mpr (Or.inr (hin q hq))) hne
    exact ring_rotate hnew

/-- Joining `a` and the block behind it, given what the entries read. -/
theorem Shape.merge (hs : Shape r h (xs ++ a :: b :: ys))
    (hlen : ∀ q ∈ xs ++ a :: ys, get h' q.addr .length = if q = a then a.length + entrySize + b.length else q.length)
    (hfree : ∀ q ∈ xs ++ a :: ys, get h' q.addr .free = get h q.addr .free)
    (hnext : ∀ q ∈ xs ++ a :: ys, nextOf h' q.addr = if q = a then nextOf h b.addr else nextOf h q.addr)
    (hprev : ∀ q ∈ xs ++ a :: ys, prevOf h' q.addr = if q.addr = nextOf h b.addr then a.addr else prevOf h q.addr) :
    Shape r h' (xs ++ ⟨a.addr, a.length + entrySize + b.length, a.free⟩ :: ys) := by
  have hsub : ∀ q ∈ xs ++ a :: ys, q ∈ xs ++ a :: b :: ys := by
    intro q hq
    rw [mem_mid, mem_mid]
    rcases mem_mid.mp hq with hq | hq
    · exact Or.inl hq
    · exact Or.inr (Or.inr hq)
  have hne : ∀ q ∈ xs ++ ys, q ≠ a := by
    rintro q hq rfl
    have hstop := q.addr_lt_stop
    have hsides := hs.tiles.sides
    simp only [entrySize] at hstop
    rcases List.mem_append.mp hq with hq | hq
    · have := hsides.1 q hq
      omega
    · have := hsides.2 q (List.mem_cons_of_mem _ hq)
      omega
  have ha : a ∈ xs ++ a :: ys := by simp
  refine ⟨fun q hq => ?_, ?_, ?_⟩
  · rcases mem_mid.mp hq with rfl | hq
    · refine ⟨?_, ?_⟩
      · rw [hlen a ha, if_pos rfl]
      · rw [hfree a ha]
        exact (hs.entries a (hsub a ha)).2
    · have hq' : q ∈ xs ++ a :: ys := mem_mid.mpr (Or.inr hq)
      rw [hlen q hq', hfree q hq', if_neg (hne q hq)]
      exact ⟨rfl, (hs.entries q (hsub q hq')).2⟩
  · have ht := hs.tiles
    rw [tiles_append] at ht ⊢
    obtain ⟨mid, ht1, ht2, ht3, ht4⟩ := ht
    have hstop : b.stop = a.addr + entrySize + (a.length + entrySize + b.length) := by
      unfold Block.stop at ht3 ⊢
      omega
    rw [hstop] at ht4
    exact ⟨mid, ht1, ht2, ht4⟩
  · obtain ⟨hring, hnd⟩ := hs.rotate
    have hin : ∀ q ∈ ys ++ xs, q ∈ xs ++ ys := fun q hq => (List.perm_append_comm.mem_iff).mp hq
    have hin' : ∀ q ∈ xs ++ ys, q ∈ xs ++ a :: ys := fun q hq => mem_mid.mpr (Or.inr hq)
    have hnew : Ring (nextOf h') (prevOf h') ((a :: ys ++ xs).map Block.addr) := by
      simp only [List.cons_append, List.map_cons] at hring hnd ⊢
      obtain ⟨c, hc, hca⟩ : ∃ q ∈ xs ++ a :: ys, q.addr = nextOf h b.addr := by
        have hm := hring.unlink_mem
        rcases List.mem_cons.mp hm with hm | hm
        · exact ⟨a, ha, hm.symm⟩
        · obtain ⟨q, hq, e⟩ := List.mem_map.mp hm
          exact ⟨q, hin' q (hin q hq), e⟩
      refine hring.unlink hnd ?_ ?_ (fun x hx => ?_) (fun x hx hne' => ?_)
      · rw [hnext a ha, if_pos rfl]
      · rw [← hca, hprev c hc, if_pos hca]
      · obtain ⟨q, hq, rfl⟩ := List.mem_map.mp hx
        rw [hnext q (hin' q (hin q hq)), if_neg (hne q (hin q hq))]
      · rcases List.mem_cons.mp hx with rfl | hx
        · rw [hprev a ha, if_neg hne']
        · obtain ⟨q, hq, rfl⟩ := List.mem_map.mp hx
          rw [hprev q (hin' q (hin q hq)), if_neg hne']
    exact ring_rotate hnew

/-! ## The edits of `malloc` and `free` -/

theorem Apart.refl (p : Nat) : Apart p p := Or.inl rfl

theorem Apart.symm {p q : Nat} (h : Apart p q) : Apart q p := by
  rcases h with rfl | h | h
  · exact Or.inl rfl
  · exact Or.inr (Or.inr h)
  · exact Or.inr (Or.inl h)

theorem Tiles.stop_lt (ht : Tiles r.base bs (r.base + entrySize + reserveSize)) (hb : b ∈ bs) : b.stop < 2 ^ 64 := by
  have h1 := (ht.bounds b hb).2
  have h2 := r.fits
  omega

theorem Shape.next_block (hs : Shape r h bs) (hb : b ∈ bs) : ∃ q ∈ bs, q.addr = nextOf h b.addr :=
  List.mem_map.mp (hs.ring.next_mem (List.mem_map_of_mem hb))

theorem Shape.prev_block (hs : Shape r h bs) (hb : b ∈ bs) : ∃ q ∈ bs, q.addr = prevOf h b.addr :=
  List.mem_map.mp (hs.ring.prev_mem (List.mem_map_of_mem hb))

@[simp] theorem get_lastUsed (p q : Nat) (g : Field) : get { h with lastUsed := p } q g = get h q g := rfl

theorem split_eq {c y z : Nat} (hz : get h c .next = z) (hcy : Apart c y) (hne : c ≠ y) (hzy : Apart z y)
    (hzne : z ≠ y) :
    split h c y = { put (put (put (put (put (put (put h y .free 1) y .length (sub64 (get h c .length) (sub64 y c)))
      c .length (sub64 (sub64 y c) entrySize)) y .prev c) y .next z) z .prev y) c .next y with lastUsed := y } := by
  simp only [split, get_put hcy.symm, get_put (Apart.refl y), get_put hzy, hz, get_put (Apart.refl c), hne.symm, hzne,
    reduceCtorEq, and_false, false_and, and_self, if_false, if_true]

/-- An entry inside the payload of `b` is off every entry. -/
theorem Shape.inside {k : Nat} {q : Block} (hs : Shape r h bs) (hb : b ∈ bs) (hk : entrySize + k ≤ b.length)
    (hq : q ∈ bs) :
    Apart q.addr (b.addr + entrySize + k) ∧ q.addr ≠ b.addr + entrySize + k := by
  have hq0 := q.addr_lt_stop
  unfold Block.stop at hq0
  rcases hs.tiles.separate hq hb with rfl | hq | hq <;> simp only [Apart, Block.stop, entrySize] at * <;> omega

theorem Shape.split {k : Nat} (hs : Shape r h (xs ++ b :: ys)) (hf : b.free = false) (hk : entrySize + k ≤ b.length) :
    Shape r (split h b.addr (b.addr + entrySize + k))
      (xs ++ ⟨b.addr, k, false⟩ :: ⟨b.addr + entrySize + k, b.length - (entrySize + k), true⟩ :: ys) := by
  have hb : b ∈ xs ++ b :: ys := by simp
  have hlt := hs.tiles.stop_lt hb
  obtain ⟨z, hz, hzn⟩ := hs.next_block hb
  have hy := fun q hq => hs.inside (q := q) hb hk hq
  have hsub : sub64 (b.addr + entrySize + k) b.addr = entrySize + k := by
    unfold Block.stop at hlt
    rw [sub64_eq (by omega) (by omega)]
    omega
  have hlen : get h b.addr .length = b.length := (hs.entries b hb).1
  have hl1 : sub64 b.length (entrySize + k) = b.length - (entrySize + k) := by
    unfold Block.stop at hlt
    exact sub64_eq (by omega) hk
  have hl2 : sub64 (entrySize + k) entrySize = k := by
    unfold Block.stop at hlt
    rw [sub64_eq (by omega) (by omega)]
    omega
  rw [split_eq hzn.symm (hy b hb).1 (hy b hb).2 (hy z hz).1 (hy z hz).2, hsub, hlen, hl1, hl2]
  have hyq : ∀ q ∈ xs ++ b :: ys, Apart (b.addr + entrySize + k) q.addr ∧ b.addr + entrySize + k ≠ q.addr :=
    fun q hq => ⟨(hy q hq).1.symm, (hy q hq).2.symm⟩
  have hyb := hyq b hb
  have hyz := hyq z hz
  have hby := hy b hb
  have hzy := hy z hz
  have hbz := hs.tiles.apart hb hz
  have hzb := hs.tiles.apart hz hb
  generalize hgen : b.addr + entrySize + k = y at *
  have hbb := Apart.refl b.addr
  have hyy := Apart.refl y
  have hfree : get h b.addr .free = 0 := by rw [(hs.entries b hb).2, hf]; rfl
  have hother : ∀ q ∈ xs ++ ys, q ∈ xs ++ b :: ys ∧ b.addr ≠ q.addr := by
    intro q hq
    have hstop := b.addr_lt_stop
    have hstop' := q.addr_lt_stop
    simp only [entrySize] at hstop hstop'
    rcases List.mem_append.mp hq with hq | hq
    · have := hs.tiles.sides.1 q hq
      exact ⟨by simp [hq], by omega⟩
    · have := hs.tiles.sides.2 q hq
      exact ⟨by simp [hq], by omega⟩
  refine hs.cut rfl hgen.symm ?_ ⟨?_, ?_⟩ ⟨?_, ?_⟩ (fun q hq => ⟨?_, ?_⟩) ?_ ?_ ?_ ?_ (fun q hq => ?_) (fun q hq hne => ?_)
  · simp only [Block.stop]
    omega
  · simp [get_put, hyb, hbb, hzb]
  · simp [get_put, hyb, hbb, hzb, hfree]
  · simp [get_put, hyy, hby, hzy]
  · simp [get_put, hyy, hby, hzy]
  · obtain ⟨hq, hbq⟩ := hother q hq
    simp [get_put, hyq q hq, hs.tiles.apart hb hq, hs.tiles.apart hz hq, hbq]
  · obtain ⟨hq, hbq⟩ := hother q hq
    simp [get_put, hyq q hq, hs.tiles.apart hb hq, hs.tiles.apart hz hq]
  · simp [nextOf, get_put, hbb]
  · simp [prevOf, get_put, hyy, hby, hzy]
  · rw [← hzn]
    simp [nextOf, get_put, hyy, hby, hzy]
  · simp [prevOf, ← hzn, get_put, hbz, Apart.refl z.addr]
  · obtain ⟨hq, hbq⟩ := hother q hq
    simp [nextOf, get_put, hyq q hq, hs.tiles.apart hb hq, hs.tiles.apart hz hq, hbq]
  · rw [← hzn] at hne
    simp [prevOf, get_put, hyq q hq, hs.tiles.apart hb hq, hs.tiles.apart hz hq, hne.symm]

/-- What the two merges of `free` leave behind: `a` has taken in `b`. -/
theorem Shape.joined (hs : Shape r h (xs ++ a :: b :: ys)) (n : Nat)
    (hn : n = a.length + entrySize + b.length) :
    Shape r (put (put (put h a.addr .length n) a.addr .next (nextOf h b.addr)) (nextOf h b.addr) .prev a.addr)
      (xs ++ ⟨a.addr, n, a.free⟩ :: ys) := by
  have hsub : ∀ q ∈ xs ++ a :: ys, q ∈ xs ++ a :: b :: ys := by
    intro q hq
    rw [mem_mid, mem_mid]
    rcases mem_mid.mp hq with hq | hq
    · exact Or.inl hq
    · exact Or.inr (Or.inr hq)
  have ha : a ∈ xs ++ a :: b :: ys := by simp
  obtain ⟨z, hz, hzn⟩ := hs.next_block (b := b) (by simp)
  have hcase : ∀ q ∈ xs ++ a :: ys, Apart a.addr q.addr ∧ Apart z.addr q.addr ∧ (a.addr = q.addr ↔ q = a) := by
    intro q hq
    refine ⟨hs.tiles.apart ha (hsub q hq), hs.tiles.apart hz (hsub q hq), fun e => ?_, fun e => by rw [e]⟩
    exact hs.tiles.eq_of_addr (hsub q hq) ha e.symm
  rw [← hzn, hn]
  refine hs.merge (fun q hq => ?_) (fun q hq => ?_) (fun q hq => ?_) (fun q hq => ?_)
  · obtain ⟨h1, h2, h3⟩ := hcase q hq
    simp [get_put, h1, h2, h3, (hs.entries q (hsub q hq)).1]
  · obtain ⟨h1, h2, h3⟩ := hcase q hq
    simp [get_put, h1, h2]
  · obtain ⟨h1, h2, h3⟩ := hcase q hq
    rw [← hzn]
    simp [nextOf, get_put, h1, h2, h3]
  · obtain ⟨h1, h2, h3⟩ := hcase q hq
    rw [← hzn]
    simp [prevOf, get_put, h1, h2, eq_comm]

theorem Shape.linked (hs : Shape r h (xs ++ a :: b :: ys)) : nextOf h a.addr = b.addr ∧ prevOf h b.addr = a.addr := by
  have hr := hs.ring
  simp only [List.map_append, List.map_cons] at hr
  exact hr.linked

/-- The sum of the lengths of two neighbours, in the arithmetic of `free`. -/
theorem Shape.join_length (hs : Shape r h (xs ++ a :: b :: ys)) :
    add64 a.length (add64 b.length entrySize) = a.length + entrySize + b.length := by
  have h1 := hs.tiles.stop_lt (b := b) (by simp)
  have h2 := (hs.tiles.sides.2 b (by simp))
  unfold Block.stop at h1 h2
  have h3 : add64 b.length entrySize = b.length + entrySize := add64_eq (by omega)
  rw [h3, add64_eq (by omega)]
  omega

/-- `mergeNext` writes the entries of the block and of the one behind the two. -/
theorem Shape.mergeNext_eq (hs : Shape r h (xs ++ a :: b :: ys)) : Heap.mergeNext h a.addr =
    put (put (put h a.addr .length (a.length + entrySize + b.length)) a.addr .next (nextOf h b.addr))
      (nextOf h b.addr) .prev a.addr := by
  have ha : a ∈ xs ++ a :: b :: ys := by simp
  have hb : b ∈ xs ++ a :: b :: ys := by simp
  have hab := hs.tiles.apart ha hb
  have hl : get h a.addr .next = b.addr := hs.linked.1
  simp [Heap.mergeNext, nextOf, get_put, hab, Apart.refl a.addr, hl, (hs.entries a ha).1, (hs.entries b hb).1,
    hs.join_length]

theorem Shape.mergeNext (hs : Shape r h (xs ++ a :: b :: ys)) :
    Shape r (mergeNext h a.addr) (xs ++ ⟨a.addr, a.length + entrySize + b.length, a.free⟩ :: ys) := by
  rw [hs.mergeNext_eq]
  exact hs.joined _ rfl

/-- `mergePrev` writes the entries of the block before and of the one behind the two. -/
theorem Shape.mergePrev_eq (hs : Shape r h (xs ++ a :: b :: ys)) : Heap.mergePrev h b.addr =
    put (put (put h a.addr .length (a.length + entrySize + b.length)) a.addr .next (nextOf h b.addr))
      (nextOf h b.addr) .prev a.addr := by
  have ha : a ∈ xs ++ a :: b :: ys := by simp
  have hb : b ∈ xs ++ a :: b :: ys := by simp
  have hab := hs.tiles.apart ha hb
  have hl : get h b.addr .prev = a.addr := hs.linked.2
  have hne : a.addr ≠ b.addr := by
    have h1 := hs.tiles.sides.2 b (by simp)
    have h2 := a.addr_lt_stop
    simp only [entrySize] at h2
    omega
  simp [Heap.mergePrev, nextOf, get_put, hab, hne, hl, (hs.entries a ha).1, (hs.entries b hb).1, hs.join_length]

theorem Shape.mergePrev (hs : Shape r h (xs ++ a :: b :: ys)) :
    Shape r (mergePrev h b.addr) (xs ++ ⟨a.addr, a.length + entrySize + b.length, a.free⟩ :: ys) ∧
      get (mergePrev h b.addr) b.addr .prev = a.addr := by
  have ha : a ∈ xs ++ a :: b :: ys := by simp
  have hb : b ∈ xs ++ a :: b :: ys := by simp
  have hl : get h b.addr .prev = a.addr := hs.linked.2
  obtain ⟨z, hz, hzn⟩ := hs.next_block hb
  rw [hs.mergePrev_eq]
  refine ⟨hs.joined _ rfl, ?_⟩
  rw [← hzn]
  simp [get_put, hs.tiles.apart ha hb, hs.tiles.apart hz hb, hl]

/-! ## Neighbours -/

theorem Tiles.stop_eq {lo hi : Nat} (h : Tiles lo (xs ++ a :: b :: ys) hi) : a.stop = b.addr := by
  obtain ⟨_, -, -, h, -⟩ := tiles_append.mp h
  exact h.symm

/-- The block that begins where `a` ends is the one behind it. -/
theorem Tiles.after {lo hi : Nat} (h : Tiles lo (xs ++ a :: ys) hi) (hb : b ∈ xs ++ a :: ys) (e : a.stop = b.addr) :
    ∃ ys', ys = b :: ys' := by
  have ha := a.addr_lt_stop
  have hb0 := b.addr_lt_stop
  simp only [entrySize] at ha hb0
  have hby : b ∈ ys := by
    rcases List.mem_append.mp hb with hx | hx
    · have := h.sides.1 b hx
      omega
    · rcases List.mem_cons.mp hx with rfl | hx
      · omega
      · exact hx
  cases ys with
  | nil => cases hby
  | cons y ys =>
    have hy : y = b := h.eq_of_addr (by simp) hb (h.stop_eq.symm.trans e)
    exact ⟨ys, by rw [hy]⟩

theorem contiguous_iff (hs : Shape r h bs) (ha : a ∈ bs) : Contiguous h a.addr b.addr ↔ a.stop = b.addr := by
  have h1 := hs.tiles.stop_lt ha
  unfold Contiguous Block.stop at *
  have h2 : add64 a.addr a.length = a.addr + a.length := add64_eq (by omega)
  rw [(hs.entries a ha).1, h2, add64_eq (by omega)]
  omega

theorem toNat_ne_zero {f : Bool} : f.toNat ≠ 0 ↔ f = true := by cases f <;> simp

/-- When `free` merges with the block before. -/
theorem Shape.prev_free_iff (hs : Shape r h (xs ++ b :: ys)) :
    (get h (get h b.addr .prev) .free ≠ 0 ∧ Contiguous h (get h b.addr .prev) b.addr) ↔
      ∃ xs' a, xs = xs' ++ [a] ∧ a.free = true := by
  constructor
  · obtain ⟨a, ha, hp⟩ := hs.prev_block (b := b) (by simp)
    have hp : get h b.addr .prev = a.addr := hp.symm
    rw [hp, contiguous_iff hs ha, (hs.entries a ha).2, toNat_ne_zero]
    intro ⟨hf, he⟩
    obtain ⟨xs', hx⟩ := hs.tiles.before ha he
    exact ⟨xs', a, hx, hf⟩
  · intro ⟨xs', a, hx, hf⟩
    subst hx
    rw [List.append_assoc, List.singleton_append] at hs
    have hp : get h b.addr .prev = a.addr := hs.linked.2
    rw [hp, contiguous_iff hs (by simp), (hs.entries a (by simp)).2, toNat_ne_zero]
    exact ⟨hf, hs.tiles.stop_eq⟩

/-- When `free` merges with the block behind. -/
theorem Shape.next_free_iff (hs : Shape r h (xs ++ a :: ys)) :
    (get h (get h a.addr .next) .free ≠ 0 ∧ Contiguous h a.addr (get h a.addr .next)) ↔
      ∃ b ys', ys = b :: ys' ∧ b.free = true := by
  constructor
  · obtain ⟨b, hb, hn⟩ := hs.next_block (b := a) (by simp)
    have hn : get h a.addr .next = b.addr := hn.symm
    rw [hn, contiguous_iff hs (by simp), (hs.entries b hb).2, toNat_ne_zero]
    intro ⟨hf, he⟩
    obtain ⟨ys', hy⟩ := hs.tiles.after hb he
    exact ⟨b, ys', hy, hf⟩
  · intro ⟨b, ys', hy, hf⟩
    subst hy
    have hn : get h a.addr .next = b.addr := hs.linked.1
    rw [hn, contiguous_iff hs (by simp), (hs.entries b (by simp)).2, toNat_ne_zero]
    exact ⟨hf, hs.tiles.stop_eq⟩

/-! ## The operations -/

def NotBothFree (a b : Block) : Prop := ¬ (a.free = true ∧ b.free = true)

/-- The parts of the invariant that do not mention allocations. -/
structure Rep (r : Reserve) (h : Mem) (bs : List Block) : Prop where
  shape : Shape r h bs
  rounded : ∀ b ∈ bs, b.length % 16 = 0
  coalesced : bs.IsChain NotBothFree
  lastUsed : ∃ b ∈ bs, b.addr = h.lastUsed

theorem ready_init (r : Reserve) : Rep r (ready (init r)) [⟨r.base, reserveSize, true⟩] := by
  have hb := Apart.refl r.base
  have hn : get (put (init r) r.base .next r.base) r.base .next = r.base := by
    rw [get_put hb, if_pos ⟨rfl, rfl⟩]
  have e : ready (init r) = put (put (put (put (init r) r.base .next r.base) r.base .prev r.base) r.base .length reserveSize)
      r.base .free 1 := by
    have h0 : get (init r) (init r).lastUsed .prev = 0 := rfl
    unfold ready
    rw [if_pos h0]
    show put (put (put _ r.base .prev (get (put (init r) r.base .next r.base) r.base .next)) _ _ _) _ _ _ = _
    rw [hn]
    rfl
  rw [e]
  have hlu : r.base = (init r).lastUsed := rfl
  generalize init r = h at hlu
  refine ⟨⟨fun b hb' => ?_, ⟨rfl, ?_⟩, ?_⟩, fun b hb' => ?_, List.isChain_singleton _, ?_⟩
  · obtain rfl := List.mem_singleton.mp hb'
    simp only [get_put hb]
    simp
  · simp only [Tiles, Block.stop]
  · exact ring_single.mpr ⟨by simp only [nextOf, get_put hb]; simp, by simp only [prevOf, get_put hb]; simp⟩
  · obtain rfl := List.mem_singleton.mp hb'
    exact (by decide : reserveSize % 16 = 0)
  · exact ⟨_, List.mem_singleton_self _, hlu⟩

theorem Rep.ready_eq (hr : Rep r h bs) : ready h = h := by
  obtain ⟨b, hb, hl⟩ := hr.lastUsed
  obtain ⟨q, hq, hp⟩ := hr.shape.prev_block hb
  have h1 := (hr.shape.tiles.bounds q hq).1
  have h2 := r.pos
  have hne : get h h.lastUsed .prev ≠ 0 := by
    rw [← hl, show get h b.addr .prev = q.addr from hp.symm]
    omega
  unfold ready
  simp only [hne, if_false]

/-- What the search stops at. -/
theorem search_spec {size : Nat} (hs : Shape r h bs) :
    ∀ {fuel cur c : Nat}, (∃ b ∈ bs, b.addr = cur) → search h size fuel cur = some c →
      ∃ b ∈ bs, b.addr = c ∧ b.free = true ∧ size ≤ b.length := by
  intro fuel
  induction fuel with
  | zero => intro cur c _ h; cases h
  | succ fuel ih =>
    intro cur c hcur hc
    obtain ⟨b, hb, rfl⟩ := hcur
    unfold search at hc
    by_cases hgo : get h b.addr .free = 0 ∨ get h b.addr .length < size
    · rw [if_pos hgo] at hc
      exact ih (hs.next_block hb) hc
    · rw [if_neg hgo] at hc
      obtain rfl := Option.some.inj hc
      rw [(hs.entries b hb).1, (hs.entries b hb).2, not_or] at hgo
      exact ⟨b, hb, rfl, toNat_ne_zero.mp hgo.1, Nat.le_of_not_lt hgo.2⟩

/-- Rounded up, a size that leaves room for an entry in a block still does. -/
theorem split_room {size n : Nat} (hn : n % 16 = 0) (hsize : size + entrySize ≤ n) :
    entrySize + (size + 15) / 16 * 16 ≤ n := by
  unfold entrySize at *
  omega

theorem splitPoint_eq {size : Nat} (hb : b.stop < 2 ^ 64) (hl : b.length ≤ reserveSize) (hround : b.length % 16 = 0)
    (hsize : size + entrySize ≤ b.length) : splitPoint b.addr size = b.addr + entrySize + (size + 15) / 16 * 16 := by
  have h1 := split_room hround hsize
  have h2 : add64 size 15 = size + 15 := add64_eq (by unfold reserveSize entrySize at *; omega)
  have h3 : (size + 15) &&& 0xFFFFFFF0 = (size + 15) / 16 * 16 := by
    simpa using and_align (k := 4) (n := 32) (x := size + 15) (by decide) (by unfold reserveSize entrySize at *; omega)
  unfold Block.stop at hb
  have h4 : add64 b.addr ((size + 15) / 16 * 16) = b.addr + (size + 15) / 16 * 16 := add64_eq (by omega)
  unfold splitPoint
  rw [h2, h3, h4, add64_eq (by omega)]
  omega

theorem Rep.length_le (hr : Rep r h bs) (hb : b ∈ bs) : b.length ≤ reserveSize := by
  have h1 := hr.shape.tiles.bounds b hb
  unfold Block.stop at h1
  omega

/-- The block found may be split without a wrap. -/
theorem Rep.splitPoint_eq {size : Nat} (hr : Rep r h bs) (hb : b ∈ bs) (hsize : size ≤ b.length)
    (hroom : add64 size entrySize ≤ b.length) :
    size + entrySize ≤ b.length ∧ splitPoint b.addr size = b.addr + entrySize + (size + 15) / 16 * 16 := by
  have hl := hr.length_le hb
  have hadd : add64 size entrySize = size + entrySize := add64_eq (by unfold reserveSize entrySize at *; omega)
  rw [hadd] at hroom
  exact ⟨hroom, Heap.splitPoint_eq (hr.shape.tiles.stop_lt hb) hl (hr.rounded b hb) hroom⟩

theorem chain_parts (hc : (xs ++ b :: ys).IsChain NotBothFree) (hb : b.free = true) :
    xs.IsChain NotBothFree ∧ ys.IsChain NotBothFree ∧ (∀ x ∈ xs.getLast?, x.free = false) ∧
      ∀ y ∈ ys.head?, y.free = false := by
  obtain ⟨h1, h2, h3⟩ := List.isChain_append.mp hc
  obtain ⟨h4, h5⟩ := List.isChain_cons.mp h2
  refine ⟨h1, h5, fun x hx => ?_, fun y hy => ?_⟩
  · have := h3 x hx b (by simp)
    simpa [NotBothFree, hb] using this
  · have := h4 y hy
    simpa [NotBothFree, hb] using this

theorem chain_join (hx : xs.IsChain NotBothFree) (hy : ys.IsChain NotBothFree)
    (hxb : b.free = true → ∀ x ∈ xs.getLast?, x.free = false) (hby : b.free = true → ∀ y ∈ ys.head?, y.free = false) :
    (xs ++ b :: ys).IsChain NotBothFree := by
  refine List.isChain_append.mpr ⟨hx, List.isChain_cons.mpr ⟨fun y hy' => ?_, hy⟩, fun x hx' y hy' => ?_⟩
  · intro ⟨h1, h2⟩
    rw [hby h1 y hy'] at h2
    cases h2
  · obtain rfl : b = y := Option.some.inj hy'
    intro ⟨h1, h2⟩
    rw [hxb h2 x hx'] at h1
    cases h1

/-- One call of `malloc`: a free block becomes a used one, cut off or whole. -/
theorem malloc_spec {fuel size p : Nat} (hr : Rep r (ready h) bs) (hm : malloc fuel size h = some (p, h')) :
    ∃ xs b ys c rest, bs = xs ++ b :: ys ∧ search (ready h) size fuel (ready h).lastUsed = some b.addr ∧ b.free = true ∧
      c.addr = b.addr ∧ c.free = false ∧ size ≤ c.length ∧ p = b.addr + entrySize ∧ (∀ q ∈ rest, q.free = true) ∧
      Rep r h' (xs ++ c :: (rest ++ ys)) := by
  unfold malloc at hm
  obtain ⟨cur, hcur, hp⟩ := Option.map_eq_some_iff.mp hm
  generalize ready h = h0 at hr hcur hp
  obtain ⟨b, hb, rfl, hfree, hsize⟩ := search_spec hr.shape hr.lastUsed hcur
  have hlt := hr.shape.tiles.stop_lt hb
  have hp1 : add64 b.addr entrySize = b.addr + entrySize := add64_eq (by unfold Block.stop at hlt; omega)
  have hroom := hr.splitPoint_eq hb hsize
  have hround := hr.rounded b hb
  obtain ⟨xs, ys, rfl⟩ := List.append_of_mem hb
  obtain ⟨hcx, hcy, hlx, hly⟩ := chain_parts hr.coalesced hfree
  have hs1 : Shape r (put h0 b.addr .free 0) (xs ++ ⟨b.addr, b.length, false⟩ :: ys) := hr.shape.setFree false
  have hl1 : get (put h0 b.addr .free 0) b.addr .length = b.length :=
    (hs1.entries ⟨b.addr, b.length, false⟩ (by simp)).1
  have hother : ∀ q ∈ xs ++ ys, q.length % 16 = 0 := fun q hq => hr.rounded q (mem_mid.mpr (Or.inr hq))
  simp only [hl1, hp1, Prod.mk.injEq] at hp
  obtain ⟨rfl, hp⟩ := hp
  by_cases hcond : add64 size entrySize ≤ b.length
  · -- the entry of the rest comes behind the size rounded up
    obtain ⟨hfit, hpoint⟩ := hroom hcond
    have hk := split_room hround hfit
    rw [if_pos hcond, hpoint] at hp
    subst hp
    refine ⟨xs, b, ys, ⟨b.addr, (size + 15) / 16 * 16, false⟩,
      [⟨b.addr + entrySize + (size + 15) / 16 * 16, b.length - (entrySize + (size + 15) / 16 * 16), true⟩], rfl, hcur, hfree,
      rfl, rfl, ?_, rfl, ?_, hs1.split rfl hk, ?_, ?_, ?_⟩
    · simp only
      omega
    · simp
    · intro q hq
      rcases mem_mid.mp hq with rfl | hq
      · simp
      · rcases mem_mid.mp hq with rfl | hq
        · simp only [entrySize] at *
          omega
        · exact hother q hq
    · refine chain_join hcx (chain_join .nil hcy (fun _ x hx => ?_) fun _ => hly) (fun e => ?_) (fun e => ?_)
      · cases hx
      · cases e
      · cases e
    · exact ⟨_, List.mem_append_right _ (List.mem_cons_of_mem _ List.mem_cons_self), rfl⟩
  · rw [if_neg hcond] at hp
    subst hp
    refine ⟨xs, b, ys, ⟨b.addr, b.length, false⟩, [], rfl, hcur, hfree, rfl, rfl, hsize, rfl, by simp, hs1, ?_, ?_, ?_⟩
    · intro q hq
      rcases mem_mid.mp hq with rfl | hq
      · exact hround
      · exact hother q hq
    · refine chain_join hcx hcy (fun e => ?_) (fun e => ?_)
      · cases e
      · cases e
    · obtain ⟨q, hq, hl⟩ := hr.lastUsed
      rcases mem_mid.mp hq with rfl | hq
      · exact ⟨⟨q.addr, q.length, false⟩, mem_mid.mpr (Or.inl rfl), hl⟩
      · exact ⟨q, mem_mid.mpr (Or.inr hq), hl⟩

/-- The first half of `free`: the freed block `b`, and the block before it if that is free. -/
theorem Shape.free_left (hs : Shape r h (xs ++ b :: ys)) (hf : b.free = true) (hc : xs.IsChain NotBothFree)
    (hround : ∀ q ∈ xs ++ [b], q.length % 16 = 0) :
    ∃ xs' c h', coalescePrev h b.addr = (h', c.addr) ∧ Shape r h' (xs' ++ c :: ys) ∧ c.free = true ∧
      c.length % 16 = 0 ∧ xs' <+: xs ∧ (∀ x ∈ xs'.getLast?, x.free = false) ∧ ∀ x ∈ xs, x.free = false → x ∈ xs' := by
  unfold coalescePrev
  by_cases hcond : get h (get h b.addr .prev) .free ≠ 0 ∧ Contiguous h (get h b.addr .prev) b.addr
  · rw [if_pos hcond]
    obtain ⟨xs', a, rfl, ha⟩ := hs.prev_free_iff.mp hcond
    rw [List.append_assoc, List.singleton_append] at hs
    have hra := hround a (by simp)
    have hrb := hround b (by simp)
    refine ⟨xs', ⟨a.addr, a.length + entrySize + b.length, a.free⟩, _, Prod.ext rfl hs.mergePrev.2, hs.mergePrev.1,
      ha, ?_, List.prefix_append _ _, (chain_parts hc ha).2.2.1, ?_⟩
    · simp only [entrySize]
      omega
    · intro x hx hxf
      rcases List.mem_append.mp hx with hx | hx
      · exact hx
      · rw [List.mem_singleton.mp hx, ha] at hxf
        cases hxf
  · rw [if_neg hcond]
    refine ⟨xs, b, h, rfl, hs, hf, hround b (by simp), List.prefix_refl _, fun x hx => ?_, fun x hx _ => hx⟩
    rcases List.eq_nil_or_concat xs with rfl | ⟨zs, z, rfl⟩
    · cases hx
    · have hx' : z = x := by simpa using hx
      rw [← hx', ← Bool.not_eq_true]
      exact fun hz => hcond (hs.prev_free_iff.mpr ⟨zs, z, by simp, hz⟩)

/-- The second half of `free`: the block behind, if that is free. -/
theorem Shape.free_right (hs : Shape r h (xs ++ a :: ys)) (hc : ys.IsChain NotBothFree)
    (hround : ∀ q ∈ a :: ys, q.length % 16 = 0) :
    ∃ c ys', Shape r (coalesceNext h a.addr) (xs ++ c :: ys') ∧ c.addr = a.addr ∧ c.free = a.free ∧
      c.length % 16 = 0 ∧ ys' <:+ ys ∧ (∀ y ∈ ys'.head?, y.free = false) ∧ ∀ y ∈ ys, y.free = false → y ∈ ys' := by
  unfold coalesceNext
  by_cases hcond : get h (get h a.addr .next) .free ≠ 0 ∧ Contiguous h a.addr (get h a.addr .next)
  · rw [if_pos hcond]
    obtain ⟨b, ys', rfl, hb⟩ := hs.next_free_iff.mp hcond
    have hra := hround a (by simp)
    have hrb := hround b (by simp)
    have hys : ([] ++ b :: ys').IsChain NotBothFree := hc
    refine ⟨_, ys', hs.mergeNext, rfl, rfl, ?_, List.suffix_cons _ _, (chain_parts hys hb).2.2.2, ?_⟩
    · simp only [entrySize]
      omega
    · intro y hy hyf
      rcases List.mem_cons.mp hy with rfl | hy
      · rw [hb] at hyf
        cases hyf
      · exact hy
  · rw [if_neg hcond]
    refine ⟨a, ys, hs, rfl, rfl, hround a (by simp), List.suffix_refl _, fun y hy => ?_, fun y hy _ => hy⟩
    cases ys with
    | nil => cases hy
    | cons z zs =>
      obtain rfl : z = y := Option.some.inj hy
      rw [← Bool.not_eq_true]
      exact fun hz => hcond (hs.next_free_iff.mpr ⟨z, zs, rfl, hz⟩)

/-- The entry in front of a payload. -/
theorem Shape.entry_eq (hs : Shape r h bs) (hb : b ∈ bs) : sub64 (b.addr + entrySize) entrySize = b.addr := by
  have hfit : b.addr + entrySize < 2 ^ 64 := Nat.lt_of_le_of_lt b.addr_lt_stop (hs.tiles.stop_lt hb)
  rw [sub64_eq hfit (Nat.le_add_left _ _), Nat.add_sub_cancel]

/-- `free` does not stop on a used block. -/
theorem Shape.free_eq (hs : Shape r h bs) (hb : b ∈ bs) (hf : b.free = false) : free (b.addr + entrySize) h =
    some { coalesceNext (coalescePrev (put h b.addr .free 1) b.addr).1 (coalescePrev (put h b.addr .free 1) b.addr).2 with
      lastUsed := (coalescePrev (put h b.addr .free 1) b.addr).2 } := by
  have hne : b.addr + entrySize ≠ 0 := Nat.ne_of_gt (Nat.add_pos_right _ (by decide))
  have hused : get h b.addr .free = 0 := by rw [(hs.entries b hb).2, hf]; rfl
  have h01 : ¬ 1 < get h b.addr .free := by rw [hused]; decide
  have h00 : ¬ get h b.addr .free ≠ 0 := not_not.mpr hused
  rw [free, if_neg hne, hs.entry_eq hb, freeEntry, if_neg h01, if_neg h00]

/-- One call of `free` on the payload of a used block: it returns, the block is free and
    the other used blocks stay. -/
theorem free_spec (hr : Rep r h (xs ++ b :: ys)) (hb : b.free = false) :
    ∃ h' bs', free (b.addr + entrySize) h = some h' ∧ Rep r h' bs' ∧
      ∀ q, q.free = false → (q ∈ bs' ↔ q ∈ xs ++ ys) := by
  have hround : ∀ q ∈ xs ++ ys, q.length % 16 = 0 := fun q hq => hr.rounded q (mem_mid.mpr (Or.inr hq))
  have hrb := hr.rounded b (by simp)
  obtain ⟨hcx, hcby, -⟩ := List.isChain_append.mp hr.coalesced
  obtain ⟨-, hcy⟩ := List.isChain_cons.mp hcby
  have hs1 : Shape r (put h b.addr .free 1) (xs ++ ⟨b.addr, b.length, true⟩ :: ys) := hr.shape.setFree true
  obtain ⟨xs', c, h2, he, hs2, hcf, hcr, hpre, hlast, hkeepx⟩ := hs1.free_left rfl hcx (fun q hq => by
    rcases List.mem_append.mp hq with hq | hq
    · exact hround q (by simp [hq])
    · rw [List.mem_singleton.mp hq]; exact hrb)
  obtain ⟨d, ys', hs3, hda, hdf, hdr, hsuf, hhead, hkeepy⟩ := hs2.free_right hcy (fun q hq => by
    rcases List.mem_cons.mp hq with rfl | hq
    · exact hcr
    · exact hround q (by simp [hq]))
  refine ⟨{ coalesceNext h2 c.addr with lastUsed := c.addr }, xs' ++ d :: ys', ?_,
    ⟨⟨hs3.entries, hs3.tiles, hs3.ring⟩, ?_, ?_, ⟨d, by simp, hda⟩⟩, fun q hq => ?_⟩
  · rw [hr.shape.free_eq (by simp) hb]
    simp only [he]
  · intro q hq
    rcases List.mem_append.mp hq with hq | hq
    · exact hround q (List.mem_append_left _ (hpre.subset hq))
    · rcases List.mem_cons.mp hq with rfl | hq
      · exact hdr
      · exact hround q (List.mem_append_right _ (hsuf.subset hq))
  · exact chain_join ( List.IsChain.prefix hcx hpre) (hcy.suffix hsuf) (fun _ => hlast) (fun _ => hhead)
  · constructor
    · intro hm
      rcases List.mem_append.mp hm with hm | hm
      · exact List.mem_append_left _ (hpre.subset hm)
      · rcases List.mem_cons.mp hm with rfl | hm
        · rw [hdf, hcf] at hq
          cases hq
        · exact List.mem_append_right _ (hsuf.subset hm)
    · intro hm
      rcases List.mem_append.mp hm with hm | hm
      · exact List.mem_append_left _ (hkeepx q hm hq)
      · exact List.mem_append_right _ (List.mem_cons_of_mem _ (hkeepy q hm hq))

/-! ## The invariant -/

/-- The used blocks are the live allocations. -/
structure Inv (r : Reserve) (s : St) (bs : List Block) : Prop where
  rep : Rep r s.heap bs
  payload : ∀ a ∈ s.live, ∃ b ∈ bs, b.addr + entrySize = a.1 ∧ b.free = false ∧ a.2 ≤ b.length
  used : ∀ b ∈ bs, b.free = false → ∃ a ∈ s.live, a.1 = b.addr + entrySize
  once : (s.live.map Prod.fst).Nodup

/-- The block `b` is taken into use for `size` bytes, the others stay. -/
structure Takes (bs : List Block) (size : Nat) (b : Block) (bs' : List Block) : Prop where
  mem : b ∈ bs
  used : ∃ c ∈ bs', c.addr = b.addr ∧ c.free = false ∧ size ≤ c.length
  others : ∀ q ∈ bs, q ≠ b → q ∈ bs'

/-- A call of `malloc` from a state whose first lines leave `Inv`. -/
theorem malloc_inv {s : St} {fuel size p : Nat} (hi : Inv r ⟨ready s.heap, s.live⟩ bs)
    (hm : malloc fuel size s.heap = some (p, h')) :
    ∃ b bs', search (ready s.heap) size fuel (ready s.heap).lastUsed = some b.addr ∧ p = b.addr + entrySize ∧
      Takes bs size b bs' ∧ Inv r ⟨h', (p, size) :: s.live⟩ bs' := by
  obtain ⟨hr, hp, hu, ho⟩ := hi
  obtain ⟨xs, b, ys, c, rest, rfl, hcur, hbf, hca, hcf, hsize, rfl, hrest, hr'⟩ := malloc_spec hr hm
  have hkeep : ∀ q ∈ xs ++ ys, q ∈ xs ++ c :: (rest ++ ys) := by
    intro q hq
    rcases List.mem_append.mp hq with hq | hq <;> simp [hq]
  have htakes : Takes (xs ++ b :: ys) size b (xs ++ c :: (rest ++ ys)) :=
    ⟨by simp, ⟨c, by simp, hca, hcf, hsize⟩, fun q hq hne => hkeep q ((mem_mid.mp hq).resolve_left hne)⟩
  refine ⟨b, _, hcur, rfl, htakes, hr', ?_, ?_, ?_⟩
  · intro a ha'
    rcases List.mem_cons.mp ha' with rfl | ha'
    · exact ⟨c, by simp, by rw [hca], hcf, hsize⟩
    · obtain ⟨q, hq, h1, h2, h3⟩ := hp a ha'
      rcases mem_mid.mp hq with rfl | hq
      · rw [hbf] at h2
        cases h2
      · exact ⟨q, hkeep q hq, h1, h2, h3⟩
  · intro q hq hqf
    rcases mem_mid.mp hq with rfl | hq
    · exact ⟨_, List.mem_cons_self, by rw [hca]⟩
    · have hq' : q ∈ xs ++ ys := by
        rcases List.mem_append.mp hq with hq | hq
        · exact List.mem_append_left _ hq
        · rcases List.mem_append.mp hq with hq | hq
          · rw [hrest q hq] at hqf
            cases hqf
          · exact List.mem_append_right _ hq
      obtain ⟨a, ha', e⟩ := hu q (mem_mid.mpr (Or.inr hq')) hqf
      exact ⟨a, List.mem_cons_of_mem _ ha', e⟩
  · refine List.nodup_cons.mpr ⟨fun hm' => ?_, ho⟩
    obtain ⟨a, ha', e⟩ := List.mem_map.mp hm'
    obtain ⟨q, hq, h1, h2, -⟩ := hp a ha'
    have hqb : q = b := hr.shape.tiles.eq_of_addr hq (by simp) (Nat.add_right_cancel (h1.trans e))
    rw [hqb, hbf] at h2
    cases h2

/-- The block of a live allocation. -/
theorem Inv.block {s : St} {a : Nat × Nat} (hi : Inv r s bs) (ha : a ∈ s.live) :
    ∃ xs b ys, bs = xs ++ b :: ys ∧ b.addr + entrySize = a.1 ∧ b.free = false ∧ a.2 ≤ b.length := by
  obtain ⟨b, hb, h1, h2, h3⟩ := hi.payload a ha
  obtain ⟨xs, ys, e⟩ := List.append_of_mem hb
  exact ⟨xs, b, ys, e, h1, h2, h3⟩

/-- A call of `free` on the block `b`: the other used blocks are those of before. -/
theorem free_blocks {s : St} (hi : Inv r s (xs ++ b :: ys)) (hb : b.free = false)
    (hf : free (b.addr + entrySize) s.heap = some h') :
    ∃ bs', Inv r ⟨h', s.live.filter fun a => a.1 ≠ b.addr + entrySize⟩ bs' ∧
      ∀ q, q.free = false → (q ∈ bs' ↔ q ∈ xs ++ ys) := by
  obtain ⟨h'', bs', hfree, hr', hmem⟩ := free_spec hi.rep hb
  obtain rfl : h'' = h' := Option.some.inj (hfree.symm.trans hf)
  have hlive : ∀ c, c ∈ s.live.filter (fun c => c.1 ≠ b.addr + entrySize) ↔ c ∈ s.live ∧ c.1 ≠ b.addr + entrySize := by
    intro c
    simp
  refine ⟨bs', ⟨hr', ?_, ?_, ?_⟩, hmem⟩
  · intro c hc
    obtain ⟨hc, hne⟩ := (hlive c).mp hc
    obtain ⟨q, hq, h1, h2, h3⟩ := hi.payload c hc
    rcases mem_mid.mp hq with rfl | hq
    · exact absurd h1.symm hne
    · exact ⟨q, (hmem q h2).mpr hq, h1, h2, h3⟩
  · intro q hq hqf
    have hq' := (hmem q hqf).mp hq
    obtain ⟨c, hc, e⟩ := hi.used q (mem_mid.mpr (Or.inr hq')) hqf
    refine ⟨c, (hlive c).mpr ⟨hc, fun he => ?_⟩, e⟩
    have hqb : q = b := hi.rep.shape.tiles.eq_of_addr (mem_mid.mpr (Or.inr hq')) (by simp)
      (Nat.add_right_cancel (e.symm.trans he))
    have hnd := hi.rep.shape.tiles.nodup
    rw [List.map_append, List.map_cons, List.nodup_middle, List.nodup_cons, ← List.map_append] at hnd
    exact hnd.1 (List.mem_map.mpr ⟨q, hq', by rw [hqb]⟩)
  · exact hi.once.sublist (List.filter_sublist.map _)

theorem free_inv {s t : St} {p : Nat} (hi : Inv r s bs) (hv : Valid s (.free p)) (ha : apply s (.free p) = some t) :
    ∃ bs', Inv r t bs' := by
  obtain ⟨a, ha', rfl⟩ := hv
  obtain ⟨xs, b, ys, rfl, hba, hbf, -⟩ := hi.block ha'
  obtain ⟨h', hfree, rfl⟩ := Option.map_eq_some_iff.mp ha
  rw [← hba] at hfree ⊢
  obtain ⟨bs', hi', -⟩ := free_blocks hi hbf hfree
  exact ⟨bs', hi'⟩

/-- A word written into a live payload is in no entry. -/
theorem store_inv {s t : St} {p i v : Nat} (hi : Inv r s bs) (hv : Valid s (.store p i v))
    (ha : apply s (.store p i v) = some t) : Inv r t bs := by
  obtain ⟨a, ha', rfl, hlt⟩ := hv
  obtain ⟨xs, b, ys, rfl, hba, hbf, hsize⟩ := hi.block ha'
  obtain rfl := Option.some.inj ha
  have hround := hi.rep.rounded b (by simp)
  have hget : ∀ q ∈ xs ++ b :: ys, ∀ g, get { s.heap with word := Function.update s.heap.word (a.1 + 8 * i) v } q.addr g =
      get s.heap q.addr g := by
    intro q hq g
    refine get_store ?_
    have hstop := q.addr_lt_stop
    rcases hi.rep.shape.tiles.separate hq (mem_mid.mpr (Or.inl rfl) : b ∈ xs ++ b :: ys) with rfl | h | h
    · omega
    · omega
    · unfold Block.stop at h
      omega
  refine ⟨⟨⟨fun q hq => ?_, hi.rep.shape.tiles, ?_⟩, hi.rep.rounded, hi.rep.coalesced, hi.rep.lastUsed⟩, hi.payload,
    hi.used,
    hi.once⟩
  · rw [hget q hq, hget q hq]
    exact hi.rep.shape.entries q hq
  · refine hi.rep.shape.ring.congr (fun x hx => ?_) (fun x hx => ?_)
    · obtain ⟨q, hq, rfl⟩ := List.mem_map.mp hx
      exact hget q hq .next
    · obtain ⟨q, hq, rfl⟩ := List.mem_map.mp hx
      exact hget q hq .prev

/-- Before the first `malloc` nothing has happened; from then on the invariant holds. -/
def Reached (r : Reserve) (s : St) : Prop := s = initSt r ∨ ∃ bs, Inv r s bs

/-- The first lines of `malloc` make the invariant hold where it did not before. -/
theorem Reached.inv {s : St} (hs : Reached r s) : ∃ bs, Inv r ⟨ready s.heap, s.live⟩ bs := by
  rcases hs with rfl | ⟨bs, hi⟩
  · refine ⟨_, ready_init r, fun a h => ?_, fun b hb hf => ?_, List.nodup_nil⟩
    · cases h
    · rw [List.mem_singleton.mp hb] at hf
      cases hf
  · rw [hi.rep.ready_eq]
    exact ⟨bs, hi⟩

theorem step_inv {s t : St} {e : Ev} (hs : Reached r s) (h : Step s e t) : ∃ bs, Inv r t bs := by
  obtain ⟨hv, ha⟩ := h
  cases e with
  | malloc fuel size =>
    obtain ⟨bs, hi⟩ := hs.inv
    obtain ⟨⟨p, h'⟩, hm, rfl⟩ := Option.map_eq_some_iff.mp ha
    obtain ⟨b, bs', -, -, -, hi'⟩ := malloc_inv hi hm
    exact ⟨bs', hi'⟩
  | free p =>
    rcases hs with rfl | ⟨bs, hi⟩
    · obtain ⟨a, h, -⟩ := hv
      cases h
    · exact free_inv hi hv ha
  | store p i v =>
    rcases hs with rfl | ⟨bs, hi⟩
    · obtain ⟨a, h, -⟩ := hv
      cases h
    · exact ⟨bs, store_inv hi hv ha⟩

theorem run_reached {s : St} {es : List Ev} (h : Run Step (initSt r) es s) : Reached r s :=
  h.invariant (fun _ _ _ hi hs => Or.inr (step_inv hi hs)) (Or.inl rfl)

/-- While anything is allocated, no block has the length of the whole reserve. -/
theorem malloc_whole {es : List Ev} {s : St} (h : Run Step (initSt r) es s) (hl : s.live ≠ []) {size : Nat}
    (hsize : reserveSize ≤ size) (fuel : Nat) : malloc fuel size s.heap = none := by
  obtain ⟨bs, hi⟩ := (run_reached h).inv
  obtain ⟨a, ha⟩ := List.exists_mem_of_ne_nil _ hl
  obtain ⟨q, hq, -, hqf, -⟩ := hi.payload a ha
  unfold malloc
  refine Option.map_eq_none_iff.mpr ?_
  cases hc : search (ready s.heap) size fuel (ready s.heap).lastUsed with
  | none => rfl
  | some c =>
    obtain ⟨b, hb, -, hbf, hlen⟩ := search_spec hi.rep.shape hi.rep.lastUsed hc
    have htiles := hi.rep.shape.tiles
    have hbounds := htiles.bounds b hb
    have hbounds' := htiles.bounds q hq
    have hstop := q.addr_lt_stop
    unfold Block.stop at hbounds hbounds' hstop
    rcases htiles.separate hb hq with rfl | hsep | hsep
    · rw [hbf] at hqf
      cases hqf
    · unfold Block.stop entrySize at *
      omega
    · unfold Block.stop entrySize at *
      omega

theorem Inv.disjoint {s : St} (hi : Inv r s bs) : s.live.Pairwise fun a b => a.1 + a.2 ≤ b.1 ∨ b.1 + b.2 ≤ a.1 := by
  have hnd : s.live.Pairwise fun a b => a.1 ≠ b.1 := List.pairwise_map.mp hi.once
  refine hnd.imp_of_mem fun {a b} ha hb hab => ?_
  obtain ⟨p, hp, hpa, -, hpl⟩ := hi.payload a ha
  obtain ⟨q, hq, hqa, -, hql⟩ := hi.payload b hb
  rcases hi.rep.shape.tiles.separate hp hq with rfl | h | h
  · exact absurd (hpa.symm.trans hqa) hab
  · unfold Block.stop at h
    omega
  · unfold Block.stop at h
    omega

/-- With nothing live the blocks are all free, so there is one of them. -/
theorem Inv.allFree {s : St} (hi : Inv r s bs) (hl : s.live = []) : bs = [⟨r.base, reserveSize, true⟩] := by
  have hfree : ∀ b ∈ bs, b.free = true := by
    intro b hb
    rw [← Bool.not_eq_false]
    intro hf
    obtain ⟨a, ha, -⟩ := hi.used b hb hf
    rw [hl] at ha
    cases ha
  have ht := hi.rep.shape.tiles
  cases bs with
  | nil =>
    obtain ⟨b, hb, -⟩ := hi.rep.lastUsed
    cases hb
  | cons b bs =>
    cases bs with
    | nil =>
      obtain ⟨n, l, f⟩ := b
      obtain ⟨h1, h2⟩ := ht
      have h3 : f = true := hfree _ List.mem_cons_self
      simp only [Block.stop] at h1 h2
      subst h1 h3
      rw [show l = reserveSize from Nat.add_left_cancel h2]
    | cons c cs =>
      have hc := (List.isChain_cons_cons.mp hi.rep.coalesced).1
      exact absurd ⟨hfree b (by simp), hfree c (by simp)⟩ hc

theorem Inv.heapOk {s : St} (hi : Inv r s bs) : HeapOk r s bs := by
  have ht := hi.rep.shape.tiles
  have hring := hi.rep.shape.ring
  have hwalk : (∀ i (h : i < bs.length), (nextOf s.heap)^[i] r.base = bs[i].addr) ∧
      (nextOf s.heap)^[bs.length] r.base = r.base := by
    cases bs with
    | nil => exact absurd hring id
    | cons b bs =>
      have hb : b.addr = r.base := ht.1
      rw [← hb]
      exact ⟨ring_visits hring, by simpa using hring.iterate_length⟩
  exact {
    entries := hi.rep.shape.entries
    visits := hwalk.1
    returns := hwalk.2
    increasing := ht.increasing
    tiles := ht
    inverse := fun b hb => hring.prev_next (List.mem_map_of_mem hb)
    rounded := hi.rep.rounded
    coalesced := hi.rep.coalesced
    lastUsed := hi.rep.lastUsed
    payload := hi.payload
    disjoint := hi.disjoint
    allFree := hi.allFree }

theorem Rep.splitFits {size : Nat} (hr : Rep r (ready h) bs) : SplitFits h size := by
  intro fuel cur hcur hroom
  obtain ⟨b, hb, rfl, -, hsize⟩ := search_spec hr.shape hr.lastUsed hcur
  rw [(hr.shape.entries b hb).1] at hroom ⊢
  obtain ⟨hfit, hpoint⟩ := hr.splitPoint_eq hb hsize hroom
  have hk := split_room (hr.rounded b hb) hfit
  rw [hpoint]
  omega

/-- In every run from the zeroed reserve: no split of a further `malloc` wraps, and from
    the first `malloc` on the entries are a well-formed heap. -/
theorem heap_invariant {es : List Ev} {s : St} (h : Run Step (initSt r) es s) :
    (∀ size, SplitFits s.heap size) ∧ ((∃ fuel size, Ev.malloc fuel size ∈ es) → ∃ bs, HeapOk r s bs) := by
  refine ⟨fun size => ?_, fun ⟨fuel, size, hm⟩ => ?_⟩
  · obtain ⟨bs, hi⟩ := (run_reached h).inv
    exact hi.rep.splitFits
  · obtain ⟨es', e, u, -, hu, hs⟩ := h.last (List.ne_nil_of_mem hm)
    obtain ⟨bs, hi⟩ := step_inv (run_reached hu) hs
    exact ⟨bs, hi.heapOk⟩

def reserveAt2M : Reserve := ⟨0x200000, by decide, by decide⟩

/-- Two allocations, the first freed. -/
theorem run_two_blocks : ∃ s, Run Step (initSt reserveAt2M) [.malloc 1 100, .malloc 1 1, .free 0x200020] s ∧
    s.live = [(0x2000b0, 1)] := by
  have e : ([Ev.malloc 1 100, .malloc 1 1, .free 0x200020].foldlM (guarded Valid apply) (initSt reserveAt2M)).map St.live =
      some [(0x2000b0, 1)] := by decide +kernel
  obtain ⟨s, hs, hl⟩ := Option.map_eq_some_iff.mp e
  exact ⟨s, run_of_foldlM Step (fun _ _ _ => guarded_eq_some.mp) _ _ hs, hl⟩

/-- Three blocks, the second of them used. -/
theorem heap_invariant_two_blocks : ∃ s, Run Step (initSt reserveAt2M) [.malloc 1 100, .malloc 1 1, .free 0x200020] s ∧
    s.live = [(0x2000b0, 1)] ∧ ∃ bs, HeapOk reserveAt2M s bs := by
  obtain ⟨s, h, hl⟩ := run_two_blocks
  exact ⟨s, h, hl, (heap_invariant h).2 ⟨1, 100, by simp⟩⟩

end Rodvin.Kernel.Heap
