/-
  Rodvin.Libc.DequeProofs — `std::deque` against the list it stands for (see
  `Rodvin.Libc.Deque`).

  `Rep d l ps`: following `next` from `first` visits the strides `ps` and ends at
  `last`; every stride but the first starts at slot 0, every stride but the last ends
  at slot 255, none of several is empty, and the slots between the cursors hold `l`.
  A push keeps it unless it finds the deque empty with the cursor on the edge of the
  only stride: the new stride is then linked next to an empty one. `pop_back` keeps
  the cursors right and destroys the slot past the element (`popBack_destroys`).
-/

import Mathlib.Data.List.Nodup
import Mathlib.Data.List.Perm.Subperm
import Mathlib.Data.List.Range
import Rodvin.Libc.Deque

namespace Rodvin.Libc.Deque

variable {T : Type}

/-! ## The list -/

inductive Op (T : Type) where
  | pushBack (v : T)
  | pushFront (v : T)
  | popBack
  | popFront

def apply (d : Deque T) : Op T → Option (Deque T)
  | .pushBack v => d.pushBack v
  | .pushFront v => d.pushFront v
  | .popBack => d.popBack
  | .popFront => d.popFront

/-- The same operation on a list; `none` for a pop of the empty list. -/
def listOp : List T → Op T → Option (List T)
  | l, .pushBack v => some (l ++ [v])
  | l, .pushFront v => some (v :: l)
  | l, .popBack => if l.isEmpty then none else some l.dropLast
  | l, .popFront => if l.isEmpty then none else some l.tail

def removed : List T → Op T → List T
  | l, .popBack => l.getLast?.toList
  | l, .popFront => l.head?.toList
  | _, _ => []

structure Agrees (d : Deque T) (l : List T) : Prop where
  empty : d.empty = some l.isEmpty
  size : d.size = some (l.length % 2 ^ 64)
  front : l ≠ [] → d.front = l.head?
  back : l ≠ [] → d.back = l.getLast?

/-- Every operation of the sequence returns, agrees with the list's, and destroys
    exactly what the list loses. -/
def Refines (d : Deque T) (l : List T) : List (Op T) → Prop
  | [] => True
  | op :: ops => ∀ l', listOp l op = some l' → ∃ d', d.apply op = some d' ∧ Agrees d' l' ∧
      d'.destroyed = d.destroyed ++ (removed l op).map some ∧ Refines d' l' ops

/-- The cursors of the first and the last stride. -/
def firstCursor (d : Deque T) : Option Nat := (d.heap d.first).map Stride.first
def lastCursor (d : Deque T) : Option Nat := (d.heap d.last).map Stride.last

/-- Not a `pop_back`, nor a push that finds the deque empty at the edge of its stride. -/
def StepOk (d : Deque T) : Op T → Prop
  | .pushBack _ => ¬ (d.empty = some true ∧ d.lastCursor = some 255)
  | .pushFront _ => ¬ (d.empty = some true ∧ d.firstCursor = some 0)
  | .popBack => False
  | .popFront => True

/-- Every operation of the sequence meets `StepOk` in the state it finds. -/
def Meets (d : Deque T) (l : List T) : List (Op T) → Prop
  | [] => True
  | op :: ops => ∀ l', listOp l op = some l' → StepOk d op ∧ ∀ d', d.apply op = some d' → Meets d' l' ops

/-! ## The representation -/

/-- The slots between the cursors. -/
def live (s : Stride T) : List (Option T) := (List.range' s.first (s.last - s.first)).map s.buf

structure StrideOk (s : Stride T) : Prop where
  le : s.first ≤ s.last
  lt : s.last ≤ 255
  raw : ∀ i, i < s.first ∨ s.last ≤ i → s.buf i = none

/-- Neighbours: linked both ways, the cursors at the seam, neither stride empty. -/
def Link (p q : Nat × Stride T) : Prop :=
  p.2.next = some q.1 ∧ q.2.prev = some p.1 ∧ p.2.last = 255 ∧ q.2.first = 0 ∧ p.2.first < 255 ∧ 0 < q.2.last

structure Rep (d : Deque T) (l : List T) (ps : List (Nat × Stride T)) : Prop where
  heap : ∀ p ∈ ps, d.heap p.1 = some p.2
  fresh : ∀ p ∈ ps, p.1 < d.fresh
  nodup : (ps.map Prod.fst).Nodup
  chain : ps.IsChain Link
  first : ps.head?.map Prod.fst = some d.first
  last : ps.getLast?.map Prod.fst = some d.last
  ok : ∀ p ∈ ps, StrideOk p.2
  contents : ps.flatMap (fun p => live p.2) = l.map some

theorem init_rep : Rep (init : Deque T) [] [(0, ⟨none, none, fun _ => none, 0, 0⟩)] := by
  refine ⟨?_, ?_, by simp, List.isChain_singleton _, rfl, rfl, ?_, rfl⟩
  · intro p hp; simp only [List.mem_singleton] at hp; subst hp; simp [init]
  · intro p hp; simp only [List.mem_singleton] at hp; subst hp; simp [init]
  · intro p hp; simp only [List.mem_singleton] at hp; subst hp; exact ⟨Nat.le_refl _, by simp, fun _ _ => rfl⟩

theorem length_live (s : Stride T) : (live s).length = s.last - s.first := by simp [live]

theorem live_eq_nil {s : Stride T} (h : StrideOk s) : live s = [] ↔ s.first = s.last := by
  have := h.le
  rw [← List.length_eq_zero_iff, length_live]; omega

theorem live_concat {s : Stride T} (h : StrideOk s) (v : T) :
    live { s with buf := Function.update s.buf s.last (some v), last := s.last + 1 } = live s ++ [some v] := by
  have := h.le
  have e : s.last + 1 - s.first = (s.last - s.first) + 1 := by omega
  have e' : s.first + (s.last - s.first) = s.last := by omega
  simp only [live, e, List.range'_1_concat, List.map_append, List.map_cons, List.map_nil, e', Function.update_self]
  congr 1
  refine List.map_congr_left fun i hi => Function.update_of_ne ?_ _ _
  rw [List.mem_range'_1] at hi; omega

theorem live_cons {s : Stride T} (h : StrideOk s) (h0 : 0 < s.first) (v : T) :
    live { s with buf := Function.update s.buf (s.first - 1) (some v), first := s.first - 1 } = some v :: live s := by
  have := h.le
  have e : s.last - (s.first - 1) = (s.last - s.first) + 1 := by omega
  have e' : s.first - 1 + 1 = s.first := by omega
  simp only [live, e, List.range'_succ, List.map_cons, e', Function.update_self]
  congr 1
  refine List.map_congr_left fun i hi => Function.update_of_ne ?_ _ _
  rw [List.mem_range'_1] at hi; omega

theorem live_tail {s : Stride T} (h : s.first < s.last) :
    live s = s.buf s.first :: live { s with buf := Function.update s.buf s.first none, first := s.first + 1 } := by
  have e : s.last - s.first = (s.last - (s.first + 1)) + 1 := by omega
  simp only [live, e, List.range'_succ, List.map_cons]
  congr 1
  refine List.map_congr_left fun i hi => (Function.update_of_ne ?_ _ _).symm
  rw [List.mem_range'_1] at hi; omega

/-! ## What the accessors read -/

theorem Rep.length_le {d : Deque T} {l : List T} {ps : List (Nat × Stride T)} (h : Rep d l ps) :
    ps.length ≤ d.fresh := by
  have hsub : ps.map Prod.fst ⊆ List.range d.fresh := by
    intro a ha
    obtain ⟨p, hp, rfl⟩ := List.mem_map.mp ha
    exact List.mem_range.mpr (h.fresh p hp)
  simpa using (h.nodup.subperm hsub).length_le

/-- The size loop from the head of a chain of strides that ends at `last`. -/
theorem sizeFrom_chain {d : Deque T} (ps : List (Nat × Stride T)) : ∀ (p : Nat × Stride T) (fuel n : Nat),
    (∀ q ∈ p :: ps, d.heap q.1 = some q.2 ∧ StrideOk q.2) → ((p :: ps).map Prod.fst).Nodup →
    (p :: ps).IsChain Link → (p :: ps).getLast?.map Prod.fst = some d.last → ps.length < fuel → n < 2 ^ 64 →
    sizeFrom d fuel p.1 n = some ((n + ((p :: ps).flatMap fun q => live q.2).length) % 2 ^ 64) := by
  induction ps with
  | nil =>
    intro p fuel n hp _ _ hl hf hn
    obtain ⟨hh, hok⟩ := hp p (by simp)
    obtain ⟨k, rfl⟩ := Nat.exists_eq_succ_of_ne_zero (Nat.ne_of_gt hf)
    have hd : p.1 = d.last := by simpa using hl
    have hle := hok.le
    have hlen : ([p].flatMap fun q => live q.2).length = p.2.last - p.2.first := by simp [length_live]
    simp only [sizeFrom, hh, Option.bind_eq_bind, Option.bind_some, hlen]
    rw [if_pos hd]
    show some _ = some _
    congr 1; omega
  | cons q ps ih =>
    intro p fuel n hp hnd hc hl hf hn
    obtain ⟨hh, hok⟩ := hp p (by simp)
    obtain ⟨k, rfl⟩ := Nat.exists_eq_succ_of_ne_zero (Nat.ne_of_gt (Nat.lt_of_le_of_lt (Nat.zero_le _) hf))
    rw [List.isChain_cons_cons] at hc
    have hne : p.1 ≠ d.last := by
      have hmem : d.last ∈ (q :: ps).map Prod.fst := by
        rw [List.getLast?_cons_cons, Option.map_eq_some_iff] at hl
        obtain ⟨r, hr, e⟩ := hl
        exact e ▸ List.mem_map_of_mem (List.mem_of_getLast? hr)
      intro e
      exact (List.nodup_cons.mp hnd).1 (e ▸ hmem)
    have hnext : p.2.next = some q.1 := hc.1.1
    have hle := hok.le
    simp only [sizeFrom, hh, Option.bind_eq_bind, Option.bind_some]
    rw [if_neg hne, hnext, Option.bind_some,
      ih q k _ (fun r h => hp r (List.mem_cons_of_mem _ h)) (List.nodup_cons.mp hnd).2 hc.2 (by simpa using hl)
        (by simpa using hf) (Nat.mod_lt _ (by decide)),
      List.flatMap_cons (x := p), List.length_append, length_live]
    congr 1; omega

theorem Rep.cons {d : Deque T} {l : List T} {ps : List (Nat × Stride T)} (h : Rep d l ps) :
    ∃ p qs, ps = p :: qs ∧ d.first = p.1 ∧ d.heap d.first = some p.2 ∧ StrideOk p.2 := by
  cases ps with
  | nil => simpa using h.first
  | cons p qs =>
    have hf : d.first = p.1 := by simpa using h.first.symm
    exact ⟨p, qs, rfl, hf, hf ▸ h.heap p (by simp), h.ok p (by simp)⟩

theorem Rep.concat {d : Deque T} {l : List T} {ps : List (Nat × Stride T)} (h : Rep d l ps) :
    ∃ qs p, ps = qs ++ [p] ∧ d.last = p.1 ∧ d.heap d.last = some p.2 ∧ StrideOk p.2 := by
  rcases List.eq_nil_or_concat ps with rfl | ⟨qs, p, rfl⟩
  · simpa using h.last
  · have hl : d.last = p.1 := by simpa using h.last.symm
    exact ⟨qs, p, by simp, hl, hl ▸ h.heap p (by simp), h.ok p (by simp)⟩

theorem live_last {s : Stride T} (h : s.first < s.last) :
    live s = ((List.range' s.first (s.last - 1 - s.first)).map s.buf) ++ [s.buf (s.last - 1)] := by
  have e : s.last - s.first = (s.last - 1 - s.first) + 1 := by omega
  have e' : s.first + (s.last - 1 - s.first) = s.last - 1 := by omega
  simp only [live, e, List.range'_1_concat, List.map_append, List.map_cons, List.map_nil, e']

theorem live_ne_nil {s : Stride T} (h : StrideOk s) (hne : live s ≠ []) : s.first < s.last := by
  have := h.le
  have : s.first ≠ s.last := fun e => hne ((live_eq_nil h).mpr e)
  omega

/-- Only an empty deque has an empty first stride, and then no other. -/
theorem Rep.head_lt {d : Deque T} {l : List T} {p : Nat × Stride T} {qs : List (Nat × Stride T)}
    (h : Rep d l (p :: qs)) (hne : l ≠ []) : p.2.first < p.2.last := by
  cases qs with
  | nil =>
    refine live_ne_nil (h.ok p (by simp)) fun e => hne ?_
    simpa [e] using h.contents.symm
  | cons q qs =>
    obtain ⟨-, -, h1, -, h2, -⟩ := (List.isChain_cons_cons.mp h.chain).1
    omega

theorem Rep.last_lt {d : Deque T} {l : List T} {p : Nat × Stride T} {qs : List (Nat × Stride T)}
    (h : Rep d l (qs ++ [p])) (hne : l ≠ []) : p.2.first < p.2.last := by
  rcases List.eq_nil_or_concat qs with rfl | ⟨qs, q, rfl⟩
  · exact h.head_lt hne
  · have hc := h.chain
    rw [List.concat_eq_append, List.append_assoc] at hc
    obtain ⟨-, -, -, h1, -, h2⟩ := (List.isChain_append_cons_cons.mp hc).2.1
    omega

theorem Rep.single_iff {d : Deque T} {l : List T} {p : Nat × Stride T} {qs : List (Nat × Stride T)}
    (h : Rep d l (p :: qs)) : d.first = d.last ↔ qs = [] := by
  have hf : d.first = p.1 := by simpa using h.first.symm
  constructor
  · intro e
    rcases List.eq_nil_or_concat qs with rfl | ⟨rs, q, rfl⟩
    · rfl
    · have hl : d.last = q.1 := by
        have := h.last
        rw [List.concat_eq_append, ← List.cons_append, List.getLast?_concat] at this
        exact (Option.some.inj this).symm
      have hnd := (List.nodup_cons.mp h.nodup).1
      exact absurd (List.mem_map.mpr ⟨q, by simp, by rw [← hl, ← e, hf]⟩) hnd
  · rintro rfl
    rw [hf]; exact Option.some.inj h.last

theorem Rep.empty_iff {d : Deque T} {l : List T} {p : Nat × Stride T} {qs : List (Nat × Stride T)}
    (h : Rep d l (p :: qs)) : l = [] ↔ qs = [] ∧ p.2.first = p.2.last := by
  have hok := h.ok p (by simp)
  constructor
  · rintro rfl
    have hc := h.contents
    simp only [List.flatMap_cons, List.map_nil, List.append_eq_nil_iff, live_eq_nil hok] at hc
    refine ⟨?_, hc.1⟩
    cases qs with
    | nil => rfl
    | cons q qs =>
      obtain ⟨-, -, h1, -, h2, -⟩ := (List.isChain_cons_cons.mp h.chain).1
      omega
  · rintro ⟨rfl, e⟩
    simpa [(live_eq_nil hok).mpr e] using h.contents.symm

theorem agrees_of_rep {d : Deque T} {l : List T} {ps : List (Nat × Stride T)} (h : Rep d l ps) : Agrees d l := by
  obtain ⟨p, qs, rfl, hf, hs, hok⟩ := h.cons
  refine ⟨?_, ?_, fun hne => ?_, fun hne => ?_⟩
  · have hd := h.single_iff
    have he := h.empty_iff
    simp only [Deque.empty, hs, Option.bind_eq_bind, Option.bind_some]
    show some _ = some _
    rw [Option.some.injEq, Bool.eq_iff_iff]
    simp [hd, he]
  · have hlen : ((p :: qs).flatMap fun q => live q.2).length = l.length := by rw [h.contents, List.length_map]
    rw [size, hf, sizeFrom_chain qs p d.fresh 0 (fun q hq => ⟨h.heap q hq, h.ok q hq⟩) h.nodup h.chain h.last
      (Nat.lt_of_succ_le (by simpa using h.length_le)) (by decide), hlen, Nat.zero_add]
  · have hlt := h.head_lt hne
    have hc := h.contents
    rw [List.flatMap_cons, live_tail hlt] at hc
    obtain ⟨x, l', rfl⟩ := List.exists_cons_of_ne_nil hne
    simp only [List.cons_append, List.map_cons, List.cons.injEq] at hc
    have := hok.lt
    simp only [front, hs, Option.bind_eq_bind, Option.bind_some, Stride.slot, List.head?_cons]
    rw [if_pos (by omega), Int.toNat_natCast, hc.1]
  · obtain ⟨rs, q, e, hl, hq, hqok⟩ := h.concat
    rw [e] at h
    have hlt := h.last_lt hne
    have hc := h.contents
    rw [List.flatMap_append, List.flatMap_singleton, live_last hlt, ← List.append_assoc] at hc
    obtain ⟨l', x, rfl⟩ := (List.eq_nil_or_concat l).resolve_left hne
    rw [List.concat_eq_append, List.map_append, List.map_cons, List.map_nil] at hc
    have hx := List.append_inj_right' hc rfl
    have := hqok.lt
    simp only [back, hq, Option.bind_eq_bind, Option.bind_some, Stride.slot, List.concat_eq_append,
      List.getLast?_concat]
    rw [if_pos (by omega), ← List.singleton_inj, ← hx]
    congr 1; congr 1; omega

/-! ## One operation -/

theorem update_heap {heap : Nat → Option (Stride T)} {a : Nat} (rs : List (Nat × Stride T)) (s : Stride T)
    (h : ∀ p ∈ rs, heap p.1 = some p.2 ∧ p.1 ≠ a) {p : Nat × Stride T} (hp : p ∈ rs ∨ p = (a, s)) :
    Function.update heap a (some s) p.1 = some p.2 := by
  rcases hp with hp | rfl
  · rw [Function.update_of_ne (h p hp).2]; exact (h p hp).1
  · exact Function.update_self ..

/-- The last stride changes within its slots. -/
theorem Rep.set_last {d : Deque T} {l : List T} (xs : List T) {rs : List (Nat × Stride T)} {q : Nat × Stride T}
    {s : Stride T}
    (h : Rep d l (rs ++ [q])) (hok : StrideOk s) (hprev : s.prev = q.2.prev) (hfirst : s.first = q.2.first)
    (hlast : 0 < s.last) (hlive : live s = live q.2 ++ xs.map some) :
    Rep { d with heap := Function.update d.heap d.last (some s) } (l ++ xs) (rs ++ [(q.1, s)]) := by
  have hl : d.last = q.1 := by simpa using h.last.symm
  have hnd := h.nodup
  rw [List.map_append, List.nodup_append] at hnd
  refine ⟨fun p hp => ?_, fun p hp => ?_, by simpa using h.nodup, ?_, ?_, by simpa using hl.symm, fun p hp => ?_, ?_⟩
  · rw [hl]
    refine update_heap _ s (fun r hr => ⟨h.heap r (List.mem_append_left _ hr), ?_⟩) (by simpa using hp)
    exact hnd.2.2 r.1 (List.mem_map_of_mem hr) q.1 (by simp)
  · rcases List.mem_append.mp hp with hp | hp
    · exact h.fresh p (List.mem_append_left _ hp)
    · rw [List.mem_singleton.mp hp]; exact h.fresh q (by simp)
  · have hc := List.isChain_append.mp h.chain
    refine List.isChain_append.mpr ⟨hc.1, List.isChain_singleton _, fun x hx y hy => ?_⟩
    obtain ⟨h1, h2, h3, h4, h5, -⟩ := hc.2.2 x hx q rfl
    rw [List.head?_singleton, Option.mem_some_iff] at hy
    subst hy
    exact ⟨h1, hprev.trans h2, h3, hfirst.trans h4, h5, hlast⟩
  · have := h.first
    cases rs with
    | nil => simpa using this
    | cons r rs => simpa using this
  · rcases List.mem_append.mp hp with hp | hp
    · exact h.ok p (List.mem_append_left _ hp)
    · rw [List.mem_singleton.mp hp]; exact hok
  · have hc := h.contents
    rw [List.flatMap_append, List.flatMap_singleton] at hc ⊢
    rw [hlive, ← List.append_assoc, hc, List.map_append]

/-- A stride is linked behind the last one. -/
theorem Rep.link_last {d : Deque T} {l : List T} (xs : List T) {rs : List (Nat × Stride T)} {q : Nat × Stride T}
    {s : Stride T}
    (h : Rep d l (rs ++ [q])) (hq : q.2.first < 255 ∧ q.2.last = 255) (hok : StrideOk s) (hprev : s.prev = some q.1)
    (hfirst : s.first = 0) (hlast : 0 < s.last) (hlive : live s = xs.map some) (s₀ : Stride T) :
    Rep { d with heap := Function.update (Function.update (Function.update d.heap d.fresh (some s₀)) d.last
                    (some { q.2 with next := some d.fresh })) d.fresh (some s)
                 fresh := d.fresh + 1
                 last := d.fresh } (l ++ xs) (rs ++ [(q.1, { q.2 with next := some d.fresh }), (d.fresh, s)]) := by
  have hl : d.last = q.1 := by simpa using h.last.symm
  have hfr : q.1 < d.fresh := h.fresh q (by simp)
  have hnd := h.nodup
  rw [List.map_append, List.nodup_append] at hnd
  have hrs : ∀ r ∈ rs, r.1 ≠ q.1 ∧ r.1 < d.fresh := fun r hr =>
    ⟨hnd.2.2 r.1 (List.mem_map_of_mem hr) q.1 (by simp), h.fresh r (List.mem_append_left _ hr)⟩
  refine ⟨fun p hp => ?_, fun p hp => ?_, ?_, ?_, ?_, by simp, fun p hp => ?_, ?_⟩
  · refine update_heap (rs ++ [(q.1, { q.2 with next := some d.fresh })]) s (fun r hr => ⟨?_, ?_⟩)
      (by simpa [or_assoc] using hp)
    · rw [hl]
      refine update_heap _ _ (fun r hr => ⟨?_, (hrs r hr).1⟩) (by simpa using hr)
      rw [Function.update_of_ne (Nat.ne_of_lt (hrs r hr).2)]
      exact h.heap r (List.mem_append_left _ hr)
    · rcases List.mem_append.mp hr with hr | hr
      · exact Nat.ne_of_lt (hrs r hr).2
      · rw [List.mem_singleton.mp hr]; exact Nat.ne_of_lt hfr
  · simp only [List.mem_append, List.mem_cons, List.not_mem_nil, or_false] at hp
    rcases hp with hp | rfl | rfl
    · exact Nat.lt_succ_of_lt (hrs p hp).2
    · exact Nat.lt_succ_of_lt hfr
    · exact Nat.lt_succ_self _
  · have := h.nodup
    simp only [List.map_append, List.map_cons, List.map_nil, List.nodup_append] at this ⊢
    refine ⟨this.1, by simp; omega, fun a ha b hb => ?_⟩
    simp only [List.mem_cons, List.not_mem_nil, or_false] at hb
    obtain ⟨r, hr, rfl⟩ := List.mem_map.mp ha
    rcases hb with rfl | rfl
    · exact (hrs r hr).1
    · exact Nat.ne_of_lt (hrs r hr).2
  · have hc := List.isChain_append.mp h.chain
    refine List.isChain_append.mpr ⟨hc.1, List.isChain_pair.mpr ?_, fun x hx y hy => ?_⟩
    · exact ⟨rfl, hprev, hq.2, hfirst, hq.1, hlast⟩
    · rw [List.head?_cons, Option.mem_some_iff] at hy
      subst hy
      exact hc.2.2 x hx q rfl
  · have := h.first
    cases rs with
    | nil => simpa using this
    | cons r rs => simpa using this
  · simp only [List.mem_append, List.mem_cons, List.not_mem_nil, or_false] at hp
    rcases hp with hp | rfl | rfl
    · exact h.ok p (List.mem_append_left _ hp)
    · exact ⟨(h.ok q (by simp)).le, (h.ok q (by simp)).lt, (h.ok q (by simp)).raw⟩
    · exact hok
  · have hc := h.contents
    rw [List.flatMap_append, List.flatMap_singleton] at hc
    rw [List.flatMap_append, List.flatMap_cons, List.flatMap_singleton, hlive, ← List.append_assoc, List.map_append,
      ← hc]
    rfl

theorem pushBack_spec {d : Deque T} {l : List T} {ps : List (Nat × Stride T)} (h : Rep d l ps) (v : T)
    (hok : StepOk d (.pushBack v)) :
    ∃ d' ps', d.pushBack v = some d' ∧ Rep d' (l ++ [v]) ps' ∧ d'.destroyed = d.destroyed := by
  obtain ⟨rs, q, rfl, hl, hq, hqok⟩ := h.concat
  have hle := hqok.le
  have hlt := hqok.lt
  by_cases hfull : q.2.last = 255
  · have hne : l ≠ [] := by
      rintro rfl
      exact hok ⟨(agrees_of_rep h).empty, by simp [lastCursor, hq, hfull]⟩
    have hfr : q.1 < d.fresh := h.fresh q (by simp)
    refine ⟨_, _, ?_, h.link_last [v] (s := ⟨none, some d.last, Function.update (fun _ => none) 0 (some v), 0, 1⟩)
      ⟨hfull ▸ h.last_lt hne, hfull⟩ ?_ (by rw [hl]) rfl Nat.one_pos rfl
      ⟨none, some d.last, fun _ => none, 0, 0⟩, rfl⟩
    · simp only [pushBack, reserve1AtEnd, hq, Option.bind_eq_bind, Option.bind_some]
      rw [if_pos hfull]
      have : d.fresh ≠ d.last := by omega
      simp only [pure, Option.bind_some, Function.update_of_ne this, Function.update_self]
    · refine ⟨Nat.zero_le _, by simp, fun i hi => ?_⟩
      have h0 : i ≠ 0 := by simp only at hi; omega
      show Function.update (fun _ => none) 0 (some v) i = none
      rw [Function.update_of_ne h0]
  · have hmod : (q.2.last + 1) % 256 = q.2.last + 1 := by omega
    have hs : StrideOk { q.2 with buf := Function.update q.2.buf q.2.last (some v), last := q.2.last + 1 } := by
      refine ⟨Nat.le_succ_of_le hle, by simp only; omega, fun i hi => ?_⟩
      simp only at hi ⊢
      rw [Function.update_of_ne (by omega)]
      exact hqok.raw i (by omega)
    refine ⟨_, _, ?_, h.set_last [v] hs rfl rfl (Nat.succ_pos _) (live_concat hqok v), rfl⟩
    simp only [pushBack, reserve1AtEnd, hq, Option.bind_eq_bind, Option.bind_some]
    rw [if_neg hfull]
    simp only [pure, Option.bind_some, hq, hmod]

/-- The first stride changes within its slots. -/
theorem Rep.set_first {d : Deque T} {l : List T} (l' : List T) {qs : List (Nat × Stride T)} {p : Nat × Stride T}
    {s : Stride T}
    (h : Rep d l (p :: qs)) (hok : StrideOk s) (hnext : s.next = p.2.next) (hlast : s.last = p.2.last)
    (hfirst : qs ≠ [] → s.first < 255) (hlive : live s ++ qs.flatMap (fun q => live q.2) = l'.map some) :
    Rep { d with heap := Function.update d.heap d.first (some s) } l' ((p.1, s) :: qs) := by
  have hf : d.first = p.1 := by simpa using h.first.symm
  have hnd := List.nodup_cons.mp h.nodup
  refine ⟨fun q hq => ?_, fun q hq => ?_, h.nodup, ?_, by simpa using hf.symm, ?_, fun q hq => ?_, ?_⟩
  · rw [hf]
    refine update_heap _ s (fun r hr => ⟨h.heap r (List.mem_cons_of_mem _ hr), ?_⟩) ((List.mem_cons.mp hq).symm)
    exact fun e => hnd.1 (e ▸ List.mem_map_of_mem hr)
  · rcases List.mem_cons.mp hq with rfl | hq
    · exact h.fresh p (by simp)
    · exact h.fresh q (List.mem_cons_of_mem _ hq)
  · have hc := List.isChain_cons.mp h.chain
    refine List.isChain_cons.mpr ⟨fun y hy => ?_, hc.2⟩
    obtain ⟨h1, h2, h3, h4, -, h6⟩ := hc.1 y hy
    exact ⟨hnext.trans h1, h2, hlast.trans h3, h4, hfirst (by rintro rfl; simp at hy), h6⟩
  · have := h.last
    cases qs with
    | nil => simpa using this
    | cons q qs => rw [List.getLast?_cons_cons] at this ⊢; exact this
  · rcases List.mem_cons.mp hq with rfl | hq
    · exact hok
    · exact h.ok q (List.mem_cons_of_mem _ hq)
  · rw [List.flatMap_cons]; exact hlive

/-- A stride is linked before the first one. -/
theorem Rep.link_first {d : Deque T} {l : List T} (xs : List T) {qs : List (Nat × Stride T)} {p : Nat × Stride T}
    {s : Stride T}
    (h : Rep d l (p :: qs)) (hp : p.2.first = 0 ∧ 0 < p.2.last) (hok : StrideOk s) (hnext : s.next = some p.1)
    (hlast : s.last = 255) (hfirst : s.first < 255) (hlive : live s = xs.map some) (s₀ : Stride T) :
    Rep { d with heap := Function.update (Function.update (Function.update d.heap d.fresh (some s₀)) d.first
                    (some { p.2 with prev := some d.fresh })) d.fresh (some s)
                 fresh := d.fresh + 1
                 first := d.fresh } (xs ++ l) ((d.fresh, s) :: (p.1, { p.2 with prev := some d.fresh }) :: qs) := by
  have hf : d.first = p.1 := by simpa using h.first.symm
  have hfr : p.1 < d.fresh := h.fresh p (by simp)
  have hnd := List.nodup_cons.mp h.nodup
  have hqs : ∀ q ∈ qs, q.1 ≠ p.1 ∧ q.1 < d.fresh := fun q hq =>
    ⟨fun e => hnd.1 (e ▸ List.mem_map_of_mem hq), h.fresh q (List.mem_cons_of_mem _ hq)⟩
  refine ⟨fun q hq => ?_, fun q hq => ?_, ?_, ?_, by simp, ?_, fun q hq => ?_, ?_⟩
  · refine update_heap ((p.1, { p.2 with prev := some d.fresh }) :: qs) s (fun r hr => ⟨?_, ?_⟩)
      ((List.mem_cons.mp hq).symm)
    · rw [hf]
      refine update_heap _ _ (fun r hr => ⟨?_, (hqs r hr).1⟩) (List.mem_cons.mp hr).symm
      rw [Function.update_of_ne (Nat.ne_of_lt (hqs r hr).2)]
      exact h.heap r (List.mem_cons_of_mem _ hr)
    · rcases List.mem_cons.mp hr with rfl | hr
      · exact Nat.ne_of_lt hfr
      · exact Nat.ne_of_lt (hqs r hr).2
  · simp only [List.mem_cons] at hq
    rcases hq with rfl | rfl | hq
    · exact Nat.lt_succ_self _
    · exact Nat.lt_succ_of_lt hfr
    · exact Nat.lt_succ_of_lt (hqs q hq).2
  · refine List.nodup_cons.mpr ⟨fun hm => ?_, h.nodup⟩
    simp only [List.map_cons, List.mem_cons, List.mem_map] at hm
    rcases hm with e | ⟨q, hq, e⟩
    · omega
    · exact absurd e (Nat.ne_of_lt (hqs q hq).2)
  · have hc := List.isChain_cons.mp h.chain
    refine List.isChain_cons_cons.mpr ⟨⟨hnext, rfl, hlast, hp.1, hfirst, hp.2⟩, List.isChain_cons.mpr ⟨?_, hc.2⟩⟩
    exact fun y hy => hc.1 y hy
  · have := h.last
    cases qs with
    | nil => simpa using this
    | cons q qs => simpa using this
  · simp only [List.mem_cons] at hq
    rcases hq with rfl | rfl | hq
    · exact hok
    · exact ⟨(h.ok p (by simp)).le, (h.ok p (by simp)).lt, (h.ok p (by simp)).raw⟩
    · exact h.ok q (List.mem_cons_of_mem _ hq)
  · have hc := h.contents
    rw [List.flatMap_cons] at hc
    rw [List.flatMap_cons, List.flatMap_cons, hlive, List.map_append, ← hc]
    rfl

theorem Rep.log {d : Deque T} {l : List T} {ps : List (Nat × Stride T)} (h : Rep d l ps) (xs : List (Option T)) :
    Rep { d with destroyed := xs } l ps :=
  ⟨h.heap, h.fresh, h.nodup, h.chain, h.first, h.last, h.ok, h.contents⟩

/-- The first of several strides is dropped, whatever was written to it before. -/
theorem Rep.unlink_first {d : Deque T} {l l' : List T} {qs : List (Nat × Stride T)} {p q : Nat × Stride T}
    (h : Rep d l (p :: q :: qs)) (hl : (q :: qs).flatMap (fun r => live r.2) = l'.map some) (s : Stride T) :
    Rep { d with heap := Function.update (Function.update (Function.update d.heap d.first (some s)) q.1
                    (some { q.2 with prev := none })) d.first none
                 first := q.1 } l' ((q.1, { q.2 with prev := none }) :: qs) := by
  have hf : d.first = p.1 := by simpa using h.first.symm
  have hnd := List.nodup_cons.mp h.nodup
  have hnd' := List.nodup_cons.mp hnd.2
  have hne : ∀ r ∈ q :: qs, r.1 ≠ p.1 := fun r hr e => hnd.1 (e ▸ List.mem_map_of_mem hr)
  refine ⟨fun r hr => ?_, fun r hr => ?_, hnd.2, ?_, by simp, ?_, fun r hr => ?_, hl⟩
  · have hr1 : r.1 ≠ p.1 := by
      rcases List.mem_cons.mp hr with rfl | hr
      · exact hne q (by simp)
      · exact hne r (List.mem_cons_of_mem _ hr)
    simp only [hf, Function.update_of_ne hr1]
    refine update_heap _ _ (fun r hr => ⟨?_, ?_⟩) (List.mem_cons.mp hr).symm
    · rw [Function.update_of_ne (hne r (List.mem_cons_of_mem _ hr))]; exact h.heap r (by simp [hr])
    · exact fun e => hnd'.1 (e ▸ List.mem_map_of_mem hr)
  · rcases List.mem_cons.mp hr with rfl | hr
    · exact h.fresh q (by simp)
    · exact h.fresh r (by simp [hr])
  · have hc := List.isChain_cons.mp (List.isChain_cons_cons.mp h.chain).2
    exact List.isChain_cons.mpr ⟨fun y hy => hc.1 y hy, hc.2⟩
  · have := h.last
    cases qs with
    | nil => simpa using this
    | cons r qs => simpa using this
  · rcases List.mem_cons.mp hr with rfl | hr
    · exact ⟨(h.ok q (by simp)).le, (h.ok q (by simp)).lt, (h.ok q (by simp)).raw⟩
    · exact h.ok r (by simp [hr])

theorem pushFront_spec {d : Deque T} {l : List T} {ps : List (Nat × Stride T)} (h : Rep d l ps) (v : T)
    (hok : StepOk d (.pushFront v)) :
    ∃ d' ps', d.pushFront v = some d' ∧ Rep d' (v :: l) ps' ∧ d'.destroyed = d.destroyed := by
  obtain ⟨p, qs, rfl, hf, hp, hpok⟩ := h.cons
  have hle := hpok.le
  have hlt := hpok.lt
  by_cases h0 : p.2.first = 0
  · have hne : l ≠ [] := by
      rintro rfl
      exact hok ⟨(agrees_of_rep h).empty, by simp [firstCursor, hp, h0]⟩
    have hfr : p.1 < d.fresh := h.fresh p (by simp)
    have hs : StrideOk ⟨some d.first, none, Function.update (fun _ => none) 254 (some v), 254, 255⟩ := by
      refine ⟨by simp, by simp, fun i hi => ?_⟩
      have hi' : i ≠ 254 := by simp only at hi; omega
      show Function.update (fun _ => none) 254 (some v) i = none
      rw [Function.update_of_ne hi']
    refine ⟨_, _, ?_, h.link_first [v] ⟨h0, h0 ▸ h.head_lt hne⟩ hs (by rw [hf]) rfl (by simp)
      (by simp [live])
      ⟨some d.first, none, fun _ => none, 255, 255⟩, rfl⟩
    simp only [pushFront, reserve1AtBegin, hp, Option.bind_eq_bind, Option.bind_some]
    rw [if_pos h0]
    have : d.fresh ≠ d.first := by omega
    simp only [pure, Option.bind_some, Function.update_of_ne this, Function.update_self]
  · have hmod : (p.2.first + 255) % 256 = p.2.first - 1 := by omega
    have hs : StrideOk { p.2 with buf := Function.update p.2.buf (p.2.first - 1) (some v), first := p.2.first - 1 } := by
      refine ⟨by simp only; omega, hlt, fun i hi => ?_⟩
      simp only at hi ⊢
      rw [Function.update_of_ne (by omega)]
      exact hpok.raw i (by omega)
    refine ⟨_, _, ?_, h.set_first (v :: l) hs rfl rfl (fun _ => by simp only; omega) ?_, rfl⟩
    · simp only [pushFront, reserve1AtBegin, hp, Option.bind_eq_bind, Option.bind_some]
      rw [if_neg h0]
      simp only [pure, Option.bind_some, hp, hmod]
    · have hc := h.contents
      rw [List.flatMap_cons] at hc
      rw [live_cons hpok (by omega), List.cons_append, hc, List.map_cons]

theorem popFront_spec {d : Deque T} {x : T} {l : List T} {ps : List (Nat × Stride T)} (h : Rep d (x :: l) ps) :
    ∃ d' ps', d.popFront = some d' ∧ Rep d' l ps' ∧ d'.destroyed = d.destroyed ++ [some x] := by
  obtain ⟨p, qs, rfl, hf, hp, hpok⟩ := h.cons
  have hlt := hpok.lt
  have hpos := h.head_lt (List.cons_ne_nil x l)
  have hmod : (p.2.first + 1) % 256 = p.2.first + 1 := by omega
  have hc := h.contents
  rw [List.flatMap_cons, live_tail hpos, List.cons_append, List.map_cons, List.cons.injEq] at hc
  have hslot : p.2.slot p.2.first = some x := by
    rw [Stride.slot, if_pos (by omega), Int.toNat_natCast, hc.1]
  by_cases hend : p.2.first + 1 = 255 ∧ qs ≠ []
  · obtain ⟨q, rs, rfl⟩ := List.exists_cons_of_ne_nil hend.2
    have hlink := (List.isChain_cons_cons.mp h.chain).1
    have hqp : q.1 ≠ d.first := fun e => (List.nodup_cons.mp h.nodup).1 (by simp [← hf, ← e])
    have hlive : live { p.2 with buf := Function.update p.2.buf p.2.first none, first := p.2.first + 1 } = [] := by
      simp [live, hend.1, hlink.2.2.1]
    rw [hlive, List.nil_append] at hc
    refine ⟨_, _, ?_, (h.log (d.destroyed ++ [some x])).unlink_first hc.2
      { p.2 with buf := Function.update p.2.buf p.2.first none, first := p.2.first + 1 }, rfl⟩
    have hne : d.first ≠ d.last := fun e => by simpa using h.single_iff.mp e
    simp only [popFront, hp, hslot, hmod, Option.bind_eq_bind, Option.bind_some]
    rw [if_pos ⟨hend.1, hne⟩]
    simp only [hlink.1, Option.bind_some, Function.update_of_ne hqp, h.heap q (by simp), pure]
  · have hs : StrideOk { p.2 with buf := Function.update p.2.buf p.2.first none, first := p.2.first + 1 } := by
      refine ⟨hpos, hlt, fun i hi => ?_⟩
      simp only at hi ⊢
      by_cases e : i = p.2.first
      · rw [e, Function.update_self]
      · rw [Function.update_of_ne e]; exact hpok.raw i (by omega)
    refine ⟨_, _, ?_, (h.log (d.destroyed ++ [some x])).set_first l hs rfl rfl (fun hne => ?_) hc.2, rfl⟩
    · have hn : ¬ (p.2.first + 1 = 255 ∧ d.first ≠ d.last) := fun e => hend ⟨e.1, fun hq => e.2 (h.single_iff.mpr hq)⟩
      simp only [popFront, hp, hslot, hmod, Option.bind_eq_bind, Option.bind_some]
      rw [if_neg hn]
      rfl
    · have : p.2.first + 1 ≠ 255 := fun e => hend ⟨e, hne⟩
      simp only; omega

/-- `pop_back` runs the destructor on a raw slot, never on the element it removes. -/
theorem popBack_destroys {d d' : Deque T} {l : List T} {ps : List (Nat × Stride T)} (h : Rep d l ps)
    (hpop : d.popBack = some d') : d'.destroyed = d.destroyed ++ [none] := by
  obtain ⟨rs, q, rfl, hl, hq, hqok⟩ := h.concat
  have hslot : q.2.slot q.2.last = none := by
    unfold Stride.slot
    split
    · rw [Int.toNat_natCast]; exact hqok.raw _ (Or.inr (Nat.le_refl _))
    · rfl
  simp only [popBack, hq, hslot, Option.bind_eq_bind, Option.bind_some] at hpop
  split at hpop
  · simp only [pure, Option.bind_eq_some_iff, Option.some.injEq] at hpop
    obtain ⟨_, -, _, -, rfl⟩ := hpop
    rfl
  · exact (Option.some.inj hpop) ▸ rfl

/-! ## Every sequence -/

theorem apply_spec {d : Deque T} {l l' : List T} {ps : List (Nat × Stride T)} {op : Op T} (h : Rep d l ps)
    (hl : listOp l op = some l') (hok : StepOk d op) :
    ∃ d' ps', d.apply op = some d' ∧ Rep d' l' ps' ∧ d'.destroyed = d.destroyed ++ (removed l op).map some := by
  cases op with
  | pushBack v =>
    obtain rfl := Option.some.inj hl
    obtain ⟨d', ps', h1, h2, h3⟩ := pushBack_spec h v hok
    exact ⟨d', ps', h1, h2, by simpa [removed] using h3⟩
  | pushFront v =>
    obtain rfl := Option.some.inj hl
    obtain ⟨d', ps', h1, h2, h3⟩ := pushFront_spec h v hok
    exact ⟨d', ps', h1, h2, by simpa [removed] using h3⟩
  | popBack => exact hok.elim
  | popFront =>
    cases l with
    | nil => simp [listOp] at hl
    | cons x l =>
      obtain rfl := Option.some.inj hl
      exact popFront_spec h

/-- The only stride of an empty deque. -/
theorem Rep.of_empty {d : Deque T} {l : List T} {ps : List (Nat × Stride T)} (h : Rep d l ps)
    (he : d.empty = some true) :
    l = [] ∧ ∃ p : Nat × Stride T,
      d.first = p.1 ∧ d.last = p.1 ∧ d.heap p.1 = some p.2 ∧ p.2.first = p.2.last ∧ p.1 < d.fresh := by
  have hl : l = [] := by
    have := (agrees_of_rep h).empty
    rw [he, Option.some.injEq] at this
    exact List.isEmpty_iff.mp this.symm
  obtain ⟨p, qs, rfl, hf, hp, hpok⟩ := h.cons
  obtain ⟨rfl, hcur⟩ := h.empty_iff.mp hl
  have hs := h.single_iff.mpr rfl
  exact ⟨hl, p, hf, hs ▸ hf, hf ▸ hp, hcur, h.fresh p (by simp)⟩

/-- A push that finds the deque empty at the edge leaves the old stride in the way: its
    slot past the end is what the other end reads. -/
theorem pushBack_edge {d d' : Deque T} {l : List T} {ps : List (Nat × Stride T)} {v : T} (h : Rep d l ps)
    (he : d.empty = some true) (hc : d.lastCursor = some 255) (ha : d.pushBack v = some d') : d'.front = none := by
  obtain ⟨-, p, hf, hl, hp, hcur, hfr⟩ := h.of_empty he
  have hlast : p.2.last = 255 := by simpa [lastCursor, hl, hp] using hc
  have hne : d.fresh ≠ p.1 := Nat.ne_of_gt hfr
  simp only [pushBack, reserve1AtEnd, hl, hp, Option.bind_eq_bind, Option.bind_some, hlast, if_true, pure,
    Function.update_of_ne hne, Function.update_self, Option.some.injEq] at ha
  subst ha
  simp [front, hf, Function.update_of_ne hne.symm, Stride.slot, hcur, hlast]

theorem pushFront_edge {d d' : Deque T} {l : List T} {ps : List (Nat × Stride T)} {v : T} (h : Rep d l ps)
    (he : d.empty = some true) (hc : d.firstCursor = some 0) (ha : d.pushFront v = some d') : d'.back = none := by
  obtain ⟨-, p, hf, hl, hp, hcur, hfr⟩ := h.of_empty he
  have hfirst : p.2.first = 0 := by simpa [firstCursor, hf, hp] using hc
  have hne : d.fresh ≠ p.1 := Nat.ne_of_gt hfr
  simp only [pushFront, reserve1AtBegin, hf, hp, Option.bind_eq_bind, Option.bind_some, hfirst, if_true, pure,
    Function.update_of_ne hne, Function.update_self, Option.some.injEq] at ha
  subst ha
  simp [back, hl, Function.update_of_ne hne.symm, Stride.slot, ← hcur, hfirst]

/-- A step that is not `StepOk` faults, disagrees with the list or destroys something else. -/
theorem apply_bad {d d' : Deque T} {l l' : List T} {ps : List (Nat × Stride T)} {op : Op T} (h : Rep d l ps)
    (hl : listOp l op = some l') (hbad : ¬ StepOk d op) (ha : d.apply op = some d')
    (hd : d'.destroyed = d.destroyed ++ (removed l op).map some) : ¬ Agrees d' l' := by
  intro hag
  cases op with
  | pushBack v =>
    obtain ⟨he, hc⟩ := Classical.not_not.mp hbad
    obtain rfl := Option.some.inj hl
    have hfront := hag.front (by simp)
    rw [pushBack_edge h he hc ha, (h.of_empty he).1] at hfront
    cases hfront
  | pushFront v =>
    obtain ⟨he, hc⟩ := Classical.not_not.mp hbad
    obtain rfl := Option.some.inj hl
    have hback := hag.back (by simp)
    rw [pushFront_edge h he hc ha, (h.of_empty he).1] at hback
    cases hback
  | popBack =>
    have := popBack_destroys h ha
    rw [this, List.append_cancel_left_eq] at hd
    cases hr : removed l .popBack with
    | nil => simp [hr] at hd
    | cons x xs => simp [hr] at hd
  | popFront => exact hbad trivial

theorem refines_iff_meets {d : Deque T} {l : List T} {ps : List (Nat × Stride T)} (h : Rep d l ps) (ops : List (Op T)) :
    Refines d l ops ↔ Meets d l ops := by
  induction ops generalizing d l ps with
  | nil => exact Iff.rfl
  | cons op ops ih =>
    constructor
    · intro hr l' hl
      obtain ⟨d', ha, hag, hd, hrest⟩ := hr l' hl
      have hok : StepOk d op := Classical.byContradiction fun hbad => apply_bad h hl hbad ha hd hag
      refine ⟨hok, fun d'' ha' => ?_⟩
      obtain ⟨d₁, ps', h1, h2, -⟩ := apply_spec h hl hok
      rw [ha] at ha' h1
      obtain rfl := Option.some.inj ha'
      obtain rfl := Option.some.inj h1
      exact (ih h2).mp hrest
    · intro hm l' hl
      obtain ⟨hok, hrest⟩ := hm l' hl
      obtain ⟨d', ps', h1, h2, h3⟩ := apply_spec h hl hok
      exact ⟨d', h1, agrees_of_rep h2, h3, (ih h2).mpr (hrest d' h1)⟩

/-- Started empty, the deque is the list after every operation of a sequence, and its
    pops destroy what they remove, exactly when no operation of the sequence is a
    `pop_back` or a push that finds it empty at the edge of its only stride. -/
theorem deque_refines_list_iff (ops : List (Op T)) : Refines (init : Deque T) [] ops ↔ Meets init [] ops :=
  refines_iff_meets init_rep ops

/-- One `push_back` and one `pop_back`: the destructor runs on the raw slot 1. -/
theorem pop_back_destroys_the_wrong_slot : ¬ ∀ ops : List (Op Nat), Refines init [] ops := by
  intro h
  obtain ⟨d, hd, -, -, h⟩ := h [.pushBack 7, .popBack] [7] rfl
  obtain rfl := Option.some.inj hd
  obtain ⟨d, hd, -, hx, -⟩ := h [] rfl
  obtain rfl := Option.some.inj hd
  exact absurd hx (by decide)

end Rodvin.Libc.Deque
