/-
  Rodvin.Kernel.HeapRealloc — `realloc` (`kernel/src/common/mem.cpp`).

  `realloc` keeps a block that is longer than the size asked for; else it takes a block
  from `malloc`, copies as many bytes as the old block has and frees that one. The new
  block is carved while the old one is in use, so the two do not overlap, and the copy
  fits because the old block is no longer than the size. So:
  - `realloc_inv`: a run with calls of `realloc` keeps the heap representation invariant.
  - `realloc_preserves`: the block returned holds the size and the bytes of the old one,
    the old one is free iff another is returned, and the other blocks in use stay, with
    their payloads.

  A byte of a payload is a part of one of its words.
-/

import Rodvin.Kernel.HeapSearch
import Rodvin.Lib.BitField

namespace Rodvin.Kernel.Heap

open Rodvin.Lib

/-- Byte `k` of an object is 8 bits of one of its words. -/
def byteField (k : Nat) : BitField := ⟨8 * (k % 8), 8⟩

def wordOf (p k : Nat) : Nat := p + 8 * (k / 8)

/-- Byte `k` of the object at `p`. -/
def byte (h : Mem) (p k : Nat) : Nat := (byteField k).get (h.word (wordOf p k))

def setByte (h : Mem) (p k v : Nat) : Mem :=
  { h with word := Function.update h.word (wordOf p k) ((byteField k).set v (h.word (wordOf p k))) }

/-- The first loop of `memmove`. -/
def copyUp (dst src : Nat) : Nat → Mem → Mem
  | 0, h => h
  | n + 1, h => setByte (copyUp dst src n h) dst n (byte (copyUp dst src n h) src n)

/-- The second loop of `memmove`. -/
def copyDown (dst src : Nat) : Nat → Mem → Mem
  | 0, h => h
  | n + 1, h => copyDown dst src n (setByte h dst n (byte h src n))

/-- `memcpy` is `memmove`. -/
def memcpy (h : Mem) (dst src n : Nat) : Mem := if dst < src then copyUp dst src n h else copyDown dst src n h

/-- `cur` names the entry of `p` before and after the call of `malloc`. -/
def realloc (fuel p size : Nat) (h : Mem) : Option (Nat × Mem) :=
  let cur := sub64 p entrySize
  if p ≠ 0 ∧ size < get h cur .length then some (p, h)
  else
    (malloc fuel size h).bind fun (newp, h) =>
      if p ≠ 0 then (free p (memcpy h newp p (get h cur .length))).map fun h => (newp, h) else some (newp, h)

/-! ## Runs with `realloc` -/

inductive ReallocEv where
  | call (e : Ev)
  | realloc (fuel p size : Nat)
  deriving Repr

/-- What is live when `realloc` has returned `q` for `p`. -/
def relive (live : List (Nat × Nat)) (p q size : Nat) : List (Nat × Nat) := (q, size) :: live.filter fun a => a.1 ≠ p

def applyR (s : St) : ReallocEv → Option St
  | .call e => apply s e
  | .realloc fuel p size => (realloc fuel p size s.heap).map fun r => ⟨r.2, relive s.live p r.1 size⟩

/-- What is reallocated is live, or `NULL`. -/
def ValidR (s : St) : ReallocEv → Prop
  | .call e => Valid s e
  | .realloc _ p size => (p = 0 ∨ ∃ a ∈ s.live, a.1 = p) ∧ size < 2 ^ 64

def StepR (s : St) (e : ReallocEv) (t : St) : Prop := ValidR s e ∧ applyR s e = some t

instance (s : St) (e : ReallocEv) : Decidable (ValidR s e) :=
  match e with
  | .call e => inferInstanceAs (Decidable (Valid s e))
  | .realloc _ _ _ => inferInstanceAs (Decidable ((_ ∨ ∃ a ∈ s.live, _ = _) ∧ _ < _))

/-! ## The copy -/

variable {r : Reserve} {h h' : Mem} {bs xs ys : List Block} {a b q : Block} {dst src n k x v p size fuel : Nat}

theorem setByte_word_self : (setByte h p k v).word (wordOf p k) = (byteField k).set v (h.word (wordOf p k)) :=
  Function.update_self ..

theorem setByte_word (hx : x ≠ wordOf p k) : (setByte h p k v).word x = h.word x := Function.update_of_ne hx _ _

theorem byte_setByte_self : byte (setByte h p k v) p k = v % 2 ^ 8 := by
  unfold byte
  rw [setByte_word_self, BitField.get_set_self]
  rfl

/-- Another byte of the same object. -/
theorem byte_setByte_of_ne {j : Nat} (hjk : j ≠ k) : byte (setByte h p k v) p j = byte h p j := by
  unfold byte
  by_cases hw : wordOf p j = wordOf p k
  · have hd : (byteField j).lo + (byteField j).width ≤ (byteField k).lo ∨
        (byteField k).lo + (byteField k).width ≤ (byteField j).lo := by
      simp only [wordOf, byteField] at hw ⊢
      omega
    rw [hw, setByte_word_self, BitField.get_set_of_disjoint hd]
  · rw [setByte_word hw]

theorem byte_lt : byte h p k < 2 ^ 8 := Nat.mod_lt _ (Nat.two_pow_pos 8)

theorem byte_congr (hw : h'.word (wordOf p k) = h.word (wordOf p k)) : byte h' p k = byte h p k := by
  unfold byte
  rw [hw]

/-- `n` bytes are copied, no other byte of the target and no other word is written. -/
structure Copied (h h' : Mem) (dst src n : Nat) : Prop where
  bytes : ∀ k < n, byte h' dst k = byte h src k
  rest : ∀ k, n ≤ k → byte h' dst k = byte h dst k
  words : ∀ x, x < dst ∨ dst + n ≤ x → h'.word x = h.word x
  lastUsed : h'.lastUsed = h.lastUsed

/-- The two objects of `n` bytes do not overlap. -/
def Separate (dst src n : Nat) : Prop := dst + n ≤ src ∨ src + n ≤ dst

theorem Separate.wordOf {m : Nat} (hd : Separate dst src m) (hn : n ≤ m) (hk : k < m) :
    wordOf src k < dst ∨ dst + n ≤ wordOf src k := by
  unfold Heap.wordOf
  rcases hd with hd | hd <;> omega

theorem copyUp_copied {m : Nat} (hd : Separate dst src m) : ∀ n ≤ m, Copied h (copyUp dst src n h) dst src n := by
  intro n
  induction n with
  | zero => exact fun _ => ⟨fun k hk => absurd hk (Nat.not_lt_zero k), fun _ _ => rfl, fun _ _ => rfl, rfl⟩
  | succ n ih =>
    intro hn
    have hc := ih (by omega)
    have hsrc : byte (copyUp dst src n h) src n = byte h src n := byte_congr (hc.words _ (hd.wordOf (by omega) hn))
    unfold copyUp
    refine ⟨fun k hk => ?_, fun k hk => ?_, fun x hx => ?_, hc.lastUsed⟩
    · by_cases hkn : k = n
      · rw [hkn, byte_setByte_self, Nat.mod_eq_of_lt byte_lt, hsrc]
      · rw [byte_setByte_of_ne hkn]
        exact hc.bytes k (by omega)
    · rw [byte_setByte_of_ne (by omega)]
      exact hc.rest k (by omega)
    · have hne : x ≠ wordOf dst n := by unfold wordOf; omega
      rw [setByte_word hne]
      exact hc.words x (by omega)

/-- The bytes copied first stay: they are behind those still to come. -/
theorem copyDown_copied {m : Nat} (hd : Separate dst src m) :
    ∀ {h : Mem}, ∀ n ≤ m, Copied h (copyDown dst src n h) dst src n := by
  intro h n
  induction n generalizing h with
  | zero => exact fun _ => ⟨fun k hk => absurd hk (Nat.not_lt_zero k), fun _ _ => rfl, fun _ _ => rfl, rfl⟩
  | succ n ih =>
    intro hn
    unfold copyDown
    generalize hg : setByte h dst n (byte h src n) = g
    have hword : ∀ x, x < dst ∨ dst + (n + 1) ≤ x → g.word x = h.word x := by
      intro x hx
      have hne : x ≠ wordOf dst n := by unfold wordOf; omega
      rw [← hg, setByte_word hne]
    have hc := ih (h := g) (by omega)
    refine ⟨fun k hk => ?_, fun k hk => ?_, fun x hx => ?_, ?_⟩
    · by_cases hkn : k = n
      · rw [hkn, hc.rest n (Nat.le_refl n), ← hg, byte_setByte_self, Nat.mod_eq_of_lt byte_lt]
      · rw [hc.bytes k (by omega)]
        exact byte_congr (hword _ (hd.wordOf hn (by omega)))
    · rw [hc.rest k (by omega), ← hg, byte_setByte_of_ne (by omega)]
    · rw [hc.words x (by omega), hword x hx]
    · rw [hc.lastUsed, ← hg]
      rfl

theorem memcpy_copied (hd : Separate dst src n) : Copied h (memcpy h dst src n) dst src n := by
  unfold memcpy
  split
  · exact copyUp_copied hd n (Nat.le_refl n)
  · exact copyDown_copied hd n (Nat.le_refl n)

/-! ## What writing a payload leaves alone -/

/-- Every entry of a block is outside the payload of every block. -/
theorem Shape.entry_word (hs : Shape r h bs) (hb : b ∈ bs) (hq : q ∈ bs)
    (hw : ∀ x, ¬ InPayload b x → h'.word x = h.word x) (f : Field) : get h' q.addr f = get h q.addr f := by
  refine hw _ fun hx => ?_
  have := hs.off_entry hq hb hx
  cases f <;> simp only [Field.offset, entrySize] at this <;> omega

/-- Only words of the payload of `b` change: the heap stays what it is. -/
theorem Inv.write {s : St} (hi : Inv r s bs) (hb : b ∈ bs) (hw : ∀ x, ¬ InPayload b x → h'.word x = s.heap.word x)
    (hl : h'.lastUsed = s.heap.lastUsed) : Inv r ⟨h', s.live⟩ bs := by
  have hget : ∀ q ∈ bs, ∀ f, get h' q.addr f = get s.heap q.addr f := fun q hq => hi.rep.shape.entry_word hb hq hw
  refine ⟨⟨⟨fun q hq => ?_, hi.rep.shape.tiles, ?_⟩, hi.rep.rounded, hi.rep.coalesced, ?_⟩, hi.payload, hi.used,
    hi.once⟩
  · rw [hget q hq, hget q hq]
    exact hi.rep.shape.entries q hq
  · refine hi.rep.shape.ring.congr (fun x hx => ?_) (fun x hx => ?_)
    · obtain ⟨q, hq, rfl⟩ := List.mem_map.mp hx
      exact hget q hq .next
    · obtain ⟨q, hq, rfl⟩ := List.mem_map.mp hx
      exact hget q hq .prev
  · rw [hl]
    exact hi.rep.lastUsed

/-! ## What `free` leaves alone -/

/-- The words written when `a` takes in the block behind it. -/
theorem Shape.joined_word {z m : Nat} (hs : Shape r h bs) (ha : a ∈ bs) (hz : ∃ c ∈ bs, c.addr = z) (hq : q ∈ bs)
    (hx : InPayload q x) : (put (put (put h a.addr .length m) a.addr .next v) z .prev n).word x = h.word x := by
  obtain ⟨c, hc, rfl⟩ := hz
  rw [put_word (hs.off_entry hc hq hx), put_word (hs.off_entry ha hq hx), put_word (hs.off_entry ha hq hx)]

theorem Shape.coalescePrev_word (hs : Shape r h (xs ++ b :: ys)) (hq : q ∈ xs ++ b :: ys) (hx : InPayload q x) :
    (coalescePrev h b.addr).1.word x = h.word x := by
  unfold coalescePrev
  by_cases hcond : get h (get h b.addr .prev) .free ≠ 0 ∧ Contiguous h (get h b.addr .prev) b.addr
  · obtain ⟨xs', a, rfl, -⟩ := hs.prev_free_iff.mp hcond
    rw [if_pos hcond]
    rw [List.append_assoc, List.singleton_append] at hs hq
    show (Heap.mergePrev h b.addr).word x = h.word x
    rw [hs.mergePrev_eq]
    exact hs.joined_word (by simp) (hs.next_block (by simp)) hq hx
  · rw [if_neg hcond]

theorem Shape.coalesceNext_word (hs : Shape r h (xs ++ a :: ys)) (hq : q ∈ xs ++ a :: ys) (hx : InPayload q x) :
    (coalesceNext h a.addr).word x = h.word x := by
  unfold coalesceNext
  by_cases hcond : get h (get h a.addr .next) .free ≠ 0 ∧ Contiguous h a.addr (get h a.addr .next)
  · obtain ⟨b, ys', rfl, -⟩ := hs.next_free_iff.mp hcond
    rw [if_pos hcond, hs.mergeNext_eq]
    exact hs.joined_word (by simp) (hs.next_block (by simp)) hq hx
  · rw [if_neg hcond]

/-- No word of another payload in use changes. -/
theorem free_word (hr : Rep r h (xs ++ b :: ys)) (hb : b.free = false) (hf : free (b.addr + entrySize) h = some h')
    (hq : q ∈ xs ++ ys) (hqf : q.free = false) (hx : InPayload q x) : h'.word x = h.word x := by
  have hqb : q ∈ xs ++ b :: ys := mem_mid.mpr (Or.inr hq)
  have hround : ∀ p ∈ xs ++ [b], p.length % 16 = 0 := by
    intro p hp
    refine hr.rounded p ?_
    rcases List.mem_append.mp hp with hp | hp
    · simp [hp]
    · simp [List.mem_singleton.mp hp]
  have hs1 : Shape r (put h b.addr .free 1) (xs ++ ⟨b.addr, b.length, true⟩ :: ys) := hr.shape.setFree true
  have hq1 : q ∈ xs ++ ⟨b.addr, b.length, true⟩ :: ys := mem_mid.mpr (Or.inr hq)
  obtain ⟨xs', c, h2, he, hs2, -, -, -, -, hkeep⟩ := hs1.free_left rfl (List.isChain_append.mp hr.coalesced).1 (by
    intro p hp
    rcases List.mem_append.mp hp with hp | hp
    · exact hround p (List.mem_append_left _ hp)
    · rw [List.mem_singleton.mp hp]
      exact hround b (by simp))
  have hq2 : q ∈ xs' ++ c :: ys := by
    rcases List.mem_append.mp hq with hq | hq
    · exact List.mem_append_left _ (hkeep q hq hqf)
    · exact List.mem_append_right _ (List.mem_cons_of_mem _ hq)
  have he : coalescePrev (put h b.addr .free 1) b.addr = (h2, c.addr) := he
  rw [hr.shape.free_eq (by simp) hb, he] at hf
  obtain rfl := Option.some.inj hf
  calc (coalesceNext h2 c.addr).word x = h2.word x := hs2.coalesceNext_word hq2 hx
    _ = (coalescePrev (put h b.addr .free 1) b.addr).1.word x := by rw [he]
    _ = (put h b.addr .free 1).word x := hs1.coalescePrev_word hq1 hx
    _ = h.word x := put_word (hr.shape.off_entry (by simp) hqb hx)

/-! ## `realloc` -/

/-- `realloc` returned `q` for `p`, whose block is one of `bs` unless `p` is `NULL`. -/
structure Reallocates (r : Reserve) (s : St) (bs : List Block) (p size q : Nat) (h' : Mem) (bs' : List Block) : Prop where
  heap : HeapOk r ⟨h', relive s.live p q size⟩ bs'
  used : ∃ b ∈ bs', b.addr + entrySize = q ∧ b.free = false ∧ size ≤ b.length
  bytes : ∀ b ∈ bs, b.addr + entrySize = p → ∀ k < min b.length size, byte h' q k = byte s.heap p k
  freed : p ≠ 0 → ((∀ b ∈ bs', b.addr + entrySize = p → b.free = true) ↔ q ≠ p)
  others : ∀ b ∈ bs, b.free = false → b.addr + entrySize ≠ p →
    b ∈ bs' ∧ ∀ x, InPayload b x → h'.word x = s.heap.word x

/-- A live pointer is not `NULL`. -/
theorem Inv.live_ne_zero {s : St} (hi : Inv r s bs) {a : Nat × Nat} (ha : a ∈ s.live) : a.1 ≠ 0 := by
  obtain ⟨b, -, hb, -⟩ := hi.payload a ha
  simp only [entrySize] at hb
  omega

theorem Inv.relive_zero {s : St} (hi : Inv r s bs) : relive s.live 0 p size = (p, size) :: s.live := by
  unfold relive
  rw [List.filter_eq_self.mpr fun a ha => decide_eq_true (hi.live_ne_zero ha)]

/-- The block of `p` is longer than the size. -/
theorem realloc_keeps {s : St} (hi : Inv r s (xs ++ b :: ys)) (hb : b.free = false) (hsize : size < b.length)
    (hp : b.addr + entrySize = p) : Inv r ⟨s.heap, relive s.live p p size⟩ (xs ++ b :: ys) := by
  refine ⟨hi.rep, fun a ha => ?_, fun q hq hqf => ?_, ?_⟩
  · rcases List.mem_cons.mp ha with rfl | ha
    · exact ⟨b, by simp, hp, hb, Nat.le_of_lt hsize⟩
    · exact hi.payload a (List.mem_of_mem_filter ha)
  · obtain ⟨a, ha, e⟩ := hi.used q hq hqf
    by_cases hap : a.1 = p
    · exact ⟨_, List.mem_cons_self, hap ▸ e⟩
    · exact ⟨a, List.mem_cons_of_mem _ (List.mem_filter.mpr ⟨ha, decide_eq_true hap⟩), e⟩
  · refine List.nodup_cons.mpr ⟨fun hm => ?_, hi.once.sublist (List.filter_sublist.map _)⟩
    obtain ⟨a, ha, e⟩ := List.mem_map.mp hm
    exact absurd e (by simpa using (List.mem_filter.mp ha).2)

/-- A call of `malloc` beside blocks in use: the block returned is none of them, and they stay. -/
theorem malloc_beside {s : St} (hs : Reached r s) (hi : Inv r ⟨ready s.heap, s.live⟩ bs)
    (hm : malloc fuel size s.heap = some (p, h')) :
    ∃ d bs', Inv r ⟨h', (p, size) :: s.live⟩ bs' ∧ d ∈ bs' ∧ d.addr + entrySize = p ∧ d.free = false ∧ size ≤ d.length ∧
      ∀ q ∈ bs, q.free = false → q ∈ bs' ∧ q.addr ≠ d.addr ∧ ∀ x, InPayload q x → h'.word x = s.heap.word x := by
  obtain ⟨b, bs', hcur, rfl, htakes, hi'⟩ := malloc_inv hi hm
  obtain ⟨d, hd, hda, hdf, hsize⟩ := htakes.used
  refine ⟨d, bs', hi', hd, by rw [hda], hdf, hsize, fun q hq hqf => ?_⟩
  have hqb : q ≠ b := by
    obtain ⟨b', hb', e, hb'f, -⟩ := search_spec hi.rep.shape hi.rep.lastUsed hcur
    intro e'
    rw [e', ← hi.rep.shape.tiles.eq_of_addr hb' htakes.mem e, hb'f] at hqf
    cases hqf
  refine ⟨htakes.others q hq hqb, fun e => hqb (hi.rep.shape.tiles.eq_of_addr hq htakes.mem (e.trans hda)), ?_⟩
  intro x hx
  rw [malloc_word hi.rep hm hq hqf hx, hs.ready_eq hi hq hqf]

/-- Copied bytes go into the payload they are copied to. -/
theorem Copied.off_payload {m : Nat} (hc : Copied h h' (b.addr + entrySize) src m) (hm : m ≤ b.length) :
    ∀ x, ¬ InPayload b x → h'.word x = h.word x := by
  intro x hx
  refine hc.words x ?_
  unfold InPayload Block.stop at hx
  omega

theorem InPayload.of_lt (hk : k < b.length) : InPayload b (wordOf (b.addr + entrySize) k) := by
  unfold InPayload Block.stop wordOf
  omega

theorem InPayload.not_other {lo hi : Nat} (ht : Tiles lo bs hi) (hq : q ∈ bs) (hb : b ∈ bs) (hne : q.addr ≠ b.addr)
    (hx : InPayload q x) : ¬ InPayload b x := by
  intro hx'
  unfold InPayload at hx hx'
  rcases ht.separate hq hb with rfl | h | h
  · exact hne rfl
  · omega
  · omega

theorem Tiles.payloads_separate {lo hi : Nat} (ht : Tiles lo bs hi) (hq : q ∈ bs) (hb : b ∈ bs) (hne : q.addr ≠ b.addr)
    (hn : n ≤ q.length) (hn' : n ≤ b.length) : Separate (q.addr + entrySize) (b.addr + entrySize) n := by
  unfold Separate
  rcases ht.separate hq hb with rfl | h | h
  · exact absurd rfl hne
  · unfold Block.stop at h
    omega
  · unfold Block.stop at h
    omega

/-- The block `b` is exchanged for another: `malloc`, the copy and `free`. -/
theorem realloc_moves {s : St} {newp : Nat} {h1 : Mem} (hs : Reached r s)
    (hi : Inv r ⟨ready s.heap, s.live⟩ (xs ++ b :: ys))
    (hb : b.free = false) (hsize : b.length ≤ size) (hm : malloc fuel size s.heap = some (newp, h1)) :
    get h1 b.addr .length = b.length ∧
      ∃ h' bs', free (b.addr + entrySize) (memcpy h1 newp (b.addr + entrySize) b.length) = some h' ∧
      Inv r ⟨h', relive s.live (b.addr + entrySize) newp size⟩ bs' ∧
      Reallocates r s (xs ++ b :: ys) (b.addr + entrySize) size newp h' bs' := by
  obtain ⟨d, bs1, hi1, hd, rfl, hdf, hds, hkeep⟩ := malloc_beside hs hi hm
  obtain ⟨hb1, hbd, hbw⟩ := hkeep b (by simp) hb
  have ht := hi1.rep.shape.tiles
  have hc : Copied h1 (memcpy h1 (d.addr + entrySize) (b.addr + entrySize) b.length) (d.addr + entrySize) (b.addr + entrySize)
      b.length := memcpy_copied (ht.payloads_separate hd hb1 hbd.symm (by omega) (Nat.le_refl _))
  generalize memcpy h1 (d.addr + entrySize) (b.addr + entrySize) b.length = h2 at hc ⊢
  have hoff := hc.off_payload (by omega : b.length ≤ d.length)
  have hi2 : Inv r ⟨h2, (d.addr + entrySize, size) :: s.live⟩ bs1 := hi1.write hd hoff hc.lastUsed
  refine ⟨(hi1.rep.shape.entries b hb1).1, ?_⟩
  obtain ⟨xs1, ys1, rfl⟩ := List.append_of_mem hb1
  obtain ⟨h', -, hf, -⟩ := free_spec hi2.rep hb
  obtain ⟨bs', hi', hmem⟩ := free_blocks hi2 hb hf
  have hdb : d ∈ xs1 ++ ys1 := (mem_mid.mp hd).resolve_left fun e => hbd (by rw [e])
  have hlive : ((d.addr + entrySize, size) :: s.live).filter (fun a => a.1 ≠ b.addr + entrySize) =
      relive s.live (b.addr + entrySize) (d.addr + entrySize) size := by
    have hne : d.addr + entrySize ≠ b.addr + entrySize := fun e => hbd (Nat.add_right_cancel e).symm
    exact List.filter_cons_of_pos (by simpa using hne)
  rw [hlive] at hi'
  refine ⟨h', bs', hf, hi', hi'.heapOk, ⟨d, (hmem d hdf).mpr hdb, rfl, hdf, hds⟩, ?_, fun _ => ?_, ?_⟩
  · intro c hcm hca k hk
    obtain rfl : c = b := hi.rep.shape.tiles.eq_of_addr hcm (by simp) (Nat.add_right_cancel hca)
    have hk : k < c.length := by omega
    calc byte h' (d.addr + entrySize) k = byte h2 (d.addr + entrySize) k :=
          byte_congr (free_word hi2.rep hb hf hdb hdf (InPayload.of_lt (by omega)))
      _ = byte h1 (c.addr + entrySize) k := hc.bytes k hk
      _ = byte s.heap (c.addr + entrySize) k := byte_congr (hbw _ (InPayload.of_lt hk))
  · refine iff_of_true (fun c hc hca => ?_) fun e => hbd (Nat.add_right_cancel e).symm
    rw [← Bool.not_eq_false]
    intro hcf
    obtain ⟨a, ha, e⟩ := hi'.used c hc hcf
    rcases List.mem_cons.mp ha with rfl | ha
    · exact hbd (Nat.add_right_cancel (e.trans hca)).symm
    · exact absurd (e.trans hca) (by simpa using (List.mem_filter.mp ha).2)
  · intro q hq hqf hqp
    obtain ⟨hq1, hqd, hqw⟩ := hkeep q hq hqf
    have hqb : q ∈ xs1 ++ ys1 := (mem_mid.mp hq1).resolve_left fun e => hqp (by rw [e])
    refine ⟨(hmem q hqf).mpr hqb, fun x hx => ?_⟩
    rw [free_word hi2.rep hb hf hqb hqf hx, hoff x (hx.not_other ht hq1 hd hqd), hqw x hx]

/-- `realloc(NULL, size)` is `malloc(size)`. -/
theorem realloc_null {s : St} {q : Nat} (hs : Reached r s) (hi : Inv r ⟨ready s.heap, s.live⟩ bs)
    (hm : malloc fuel size s.heap = some (q, h')) :
    ∃ bs', Inv r ⟨h', relive s.live 0 q size⟩ bs' ∧ Reallocates r s bs 0 size q h' bs' := by
  obtain ⟨d, bs', hi', hd, hdq, hdf, hds, hkeep⟩ := malloc_beside hs hi hm
  rw [← hi.relive_zero] at hi'
  refine ⟨bs', hi', hi'.heapOk, ⟨d, hd, hdq, hdf, hds⟩, fun b _ hb => ?_, fun hp => absurd rfl hp, fun q hq hqf _ => ?_⟩
  · simp only [entrySize] at hb
    omega
  · obtain ⟨hq', -, hw⟩ := hkeep q hq hqf
    exact ⟨hq', hw⟩

/-- The first `if` of `realloc`. -/
theorem realloc_in_place {s : St} (hi : Inv r s (xs ++ b :: ys)) (hb : b.free = false) (hsize : size < b.length) :
    Inv r ⟨s.heap, relive s.live (b.addr + entrySize) (b.addr + entrySize) size⟩ (xs ++ b :: ys) ∧
      Reallocates r s (xs ++ b :: ys) (b.addr + entrySize) size (b.addr + entrySize) s.heap (xs ++ b :: ys) := by
  have hi' := realloc_keeps hi hb hsize rfl
  refine ⟨hi', hi'.heapOk, ⟨b, by simp, rfl, hb, Nat.le_of_lt hsize⟩, fun _ _ _ _ _ => rfl, fun _ => ?_,
    fun q hq _ _ => ⟨hq, fun _ _ => rfl⟩⟩
  refine iff_of_false (fun hall => ?_) fun hne => hne rfl
  rw [hall b (by simp) rfl] at hb
  cases hb

/-- One call of `realloc`: it returns where the allocation succeeds, and keeps the invariant. -/
theorem realloc_spec {s : St} (hs : Reached r s) (hp : p = 0 ∨ ∃ a ∈ s.live, a.1 = p)
    (hi : Inv r ⟨ready s.heap, s.live⟩ bs) :
    ((malloc fuel size s.heap).isSome → (realloc fuel p size s.heap).isSome) ∧
      ∀ q h', realloc fuel p size s.heap = some (q, h') →
        ∃ bs', Inv r ⟨h', relive s.live p q size⟩ bs' ∧ Reallocates r s bs p size q h' bs' := by
  rcases hp with rfl | ⟨a, ha, rfl⟩
  · have e : realloc fuel 0 size s.heap = malloc fuel size s.heap := by
      unfold realloc
      simp
    rw [e]
    exact ⟨id, fun q h' => realloc_null hs hi⟩
  · obtain ⟨xs, b, ys, rfl, hba, hbf, -⟩ := hi.block ha
    have hne : a.1 ≠ 0 := hi.live_ne_zero ha
    have hready : ready s.heap = s.heap := hs.ready_eq hi (by simp) hbf
    have his : Inv r s (xs ++ b :: ys) := by rwa [hready] at hi
    have hlen : get s.heap b.addr .length = b.length := (his.rep.shape.entries b (by simp)).1
    have hcur : sub64 a.1 entrySize = b.addr := by rw [← hba, his.rep.shape.entry_eq (by simp)]
    unfold realloc
    simp only [hcur, hlen, hne, ne_eq, not_false_eq_true, true_and, if_true]
    rw [← hba]
    by_cases hsize : size < b.length
    · rw [if_pos hsize]
      refine ⟨fun _ => rfl, fun q h' hq => ?_⟩
      obtain ⟨rfl, rfl⟩ := Prod.mk.inj (Option.some.inj hq)
      exact ⟨_, realloc_in_place his hbf hsize⟩
    · rw [if_neg hsize]
      cases hm : malloc fuel size s.heap with
      | none =>
        refine ⟨fun h => absurd h (by simp), fun q h' hq => ?_⟩
        cases hq
      | some m =>
        obtain ⟨newp, h1⟩ := m
        obtain ⟨hlen1, h2, bs', hf, hi', hr⟩ := realloc_moves hs hi hbf (Nat.le_of_not_lt hsize) hm
        simp only [Option.bind_some, hlen1, hf, Option.map_some]
        refine ⟨fun _ => rfl, fun q h' hq => ?_⟩
        obtain ⟨rfl, rfl⟩ := Prod.mk.inj (Option.some.inj hq)
        exact ⟨bs', hi', hr⟩

theorem stepR_inv {s t : St} {e : ReallocEv} (hs : Reached r s) (h : StepR s e t) : ∃ bs, Inv r t bs := by
  obtain ⟨hv, ha⟩ := h
  cases e with
  | call e => exact step_inv hs ⟨hv, ha⟩
  | realloc fuel p size =>
    obtain ⟨bs, hi⟩ := hs.inv
    obtain ⟨⟨q, h'⟩, hm, rfl⟩ := Option.map_eq_some_iff.mp ha
    obtain ⟨bs', hi', -⟩ := (realloc_spec hs hv.1 hi).2 q h' hm
    exact ⟨bs', hi'⟩

/-- In every run with calls of `realloc` the heap representation invariant holds. -/
theorem realloc_inv {es : List ReallocEv} {s : St} (h : Run StepR (initSt r) es s) : Reached r s :=
  h.invariant (fun _ _ _ hi hs => Or.inr (stepR_inv hi hs)) (Or.inl rfl)

/-- In every state reached, with `bs` the blocks after the first lines of `malloc`: `realloc`
    returns where the allocation succeeds, and what it returns is as `Reallocates` says. -/
theorem realloc_preserves {es : List ReallocEv} {s : St} (h : Run StepR (initSt r) es s) :
    ∃ bs, HeapOk r ⟨ready s.heap, s.live⟩ bs ∧ ∀ fuel p size, (p = 0 ∨ ∃ a ∈ s.live, a.1 = p) →
      ((malloc fuel size s.heap).isSome → (realloc fuel p size s.heap).isSome) ∧
      ∀ q h', realloc fuel p size s.heap = some (q, h') → ∃ bs', Reallocates r s bs p size q h' bs' := by
  have hs := realloc_inv h
  obtain ⟨bs, hi⟩ := hs.inv
  refine ⟨bs, hi.heapOk, fun fuel p size hp => ?_⟩
  obtain ⟨hreturns, hspec⟩ := realloc_spec hs hp hi
  refine ⟨hreturns, fun q h' hq => ?_⟩
  obtain ⟨bs', -, hr⟩ := hspec q h' hq
  exact ⟨bs', hr⟩

/-- A block of 112 bytes is left for one of 304 behind the second block. -/
theorem realloc_preserves_moved : ∃ s, Run StepR (initSt reserveAt2M)
      [.call (.malloc 1 100), .call (.malloc 1 1), .call (.store 0x200020 0 77), .realloc 1 0x200020 300] s ∧
    s.live = [(0x2000e0, 300), (0x2000b0, 1)] ∧ byte s.heap 0x2000e0 0 = 77 ∧
    ∃ bs, HeapOk reserveAt2M ⟨ready s.heap, s.live⟩ bs ∧ ∀ fuel p size, (p = 0 ∨ ∃ a ∈ s.live, a.1 = p) →
      ((malloc fuel size s.heap).isSome → (realloc fuel p size s.heap).isSome) ∧
      ∀ q h', realloc fuel p size s.heap = some (q, h') → ∃ bs', Reallocates reserveAt2M s bs p size q h' bs' := by
  have e : ([ReallocEv.call (.malloc 1 100), .call (.malloc 1 1), .call (.store 0x200020 0 77),
      .realloc 1 0x200020 300].foldlM (guarded ValidR applyR) (initSt reserveAt2M)).map
        (fun s => (s.live, byte s.heap 0x2000e0 0)) = some ([(0x2000e0, 300), (0x2000b0, 1)], 77) := by
    decide +kernel
  obtain ⟨s, hs, hl⟩ := Option.map_eq_some_iff.mp e
  have h := run_of_foldlM StepR (fun _ _ _ => guarded_eq_some.mp) _ _ hs
  obtain ⟨hlive, hbyte⟩ := Prod.mk.inj hl
  exact ⟨s, h, hlive, hbyte, realloc_preserves h⟩

end Rodvin.Kernel.Heap
