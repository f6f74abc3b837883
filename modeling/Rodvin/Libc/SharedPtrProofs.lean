/-
  Rodvin.Libc.SharedPtrProofs — the counts of `shared_ptr` (see `Rodvin.Libc.SharedPtr`).

  Handles of one object are equal, handles of two have nothing in common (`Inv`), and the
  members of every object that lives are handles of their own (`Housed`). A new handle adds
  its blocks (`inv_attach`) or one count (`share_spec`). A destructor takes one count, and
  perhaps the object with its members: what the whole recursion does to the handles, the
  objects and the blocks is `Ended`, by induction on its depth (`destructor_spec`).
-/

import Mathlib.Data.List.Perm.Subperm
import Rodvin.Libc.SharedPtr

namespace Rodvin.Libc.SharedPtr

open Rodvin.Lib State

variable {τ : Type} {sizeof : τ → ℕ+} {s t : State τ} {h g a n o : Nat} {p q : Handle τ}

/-! ## Handles -/

theorem handle_mem (hp : s.handle h = some p) : (h, p) ∈ s.handles := Named.mem_of_find hp

theorem owners_add (s : State τ) (h o : Nat) (p : Handle τ) :
    (s.add h p).owners o = s.owners o + if p.obj = o then 1 else 0 := by
  unfold owners add
  rw [List.countP_cons]
  simp

theorem owners_remove (hn : (s.handles.map Prod.fst).Nodup) (hp : s.handle h = some p) (o : Nat) :
    s.owners o = (s.remove h).owners o + if p.obj = o then 1 else 0 := by
  have hcount := Named.countP_others hn (handle_mem hp) fun q => decide (q.2.obj = o)
  simp only [decide_eq_true_eq] at hcount
  exact hcount

theorem owners_eq_zero : s.owners o = 0 ↔ ∀ q ∈ s.handles, q.2.obj ≠ o := by
  unfold owners
  rw [List.countP_eq_zero]
  simp

theorem mem_remove {q : Nat × Handle τ} : q ∈ (s.remove h).handles ↔ q ∈ s.handles ∧ q.1 ≠ h := Named.mem_others

/-- Handles are named by addresses, so there are fewer of them than addresses. -/
theorem owners_lt (hn : (s.handles.map Prod.fst).Nodup) (hr : ∀ q ∈ s.handles, 0 < q.1 ∧ q.1 < 2 ^ 64) (o : Nat) :
    s.owners o < 2 ^ 64 := by
  have hlen := Named.length_lt (Nat.two_pow_pos 64) hn hr
  have hle : s.owners o ≤ s.handles.length := List.countP_le_length
  omega

/-! ## Blocks -/

def Disjoint (b c : Nat × Nat) : Prop := b.1 + b.2 ≤ c.1 ∨ c.1 + c.2 ≤ b.1

structure Blocks (live : List (Nat × Nat)) : Prop where
  apart : live.Pairwise Disjoint
  range : ∀ b ∈ live, 0 < b.2 ∧ b.1 + b.2 ≤ 2 ^ 64

/-- Where an object and its counter lie. -/
def Layout (sizeof : τ → ℕ+) (live : List (Nat × Nat)) (p : Handle τ) : Prop :=
  if p.inside then (p.ptr, minsize sizeof p.type + 8) ∈ live ∧ p.ctr = p.ptr + minsize sizeof p.type
  else (p.ptr, (sizeof p.type : Nat)) ∈ live ∧ (p.ctr, 8) ∈ live ∧ p.ptr ≠ p.ctr

theorem Layout.inside {live : List (Nat × Nat)} (h : Layout sizeof live p) (hi : p.inside = true) :
    (p.ptr, minsize sizeof p.type + 8) ∈ live ∧ p.ctr = p.ptr + minsize sizeof p.type := by
  unfold Layout at h
  rwa [if_pos hi] at h

theorem Layout.outside {live : List (Nat × Nat)} (h : Layout sizeof live p) (hi : ¬ p.inside = true) :
    (p.ptr, (sizeof p.type : Nat)) ∈ live ∧ (p.ctr, 8) ∈ live ∧ p.ptr ≠ p.ctr := by
  unfold Layout at h
  rwa [if_neg hi] at h

theorem Blocks.cons (hb : Blocks s.live) (hn : 0 < n) (hf : s.Fresh a n) : Blocks ((a, n) :: s.live) := by
  obtain ⟨-, hfit, hdis⟩ := hf
  refine ⟨List.pairwise_cons.mpr ⟨hdis, hb.apart⟩, fun b hm => ?_⟩
  rcases List.mem_cons.mp hm with rfl | hm
  · exact ⟨hn, hfit⟩
  · exact hb.range b hm

theorem Blocks.filter {live : List (Nat × Nat)} (hb : Blocks live) (f : Nat × Nat → Bool) : Blocks (live.filter f) :=
  ⟨hb.apart.filter f, fun b hm => hb.range b (List.mem_filter.mp hm).1⟩

theorem Layout.mono {live live' : List (Nat × Nat)} (h : Layout sizeof live p)
    (hm : ∀ b ∈ live, b.1 = p.ptr ∨ b.1 = p.ctr → b ∈ live') : Layout sizeof live' p := by
  by_cases hi : p.inside = true
  · obtain ⟨h1, h2⟩ := h.inside hi
    unfold Layout
    rw [if_pos hi]
    exact ⟨hm _ h1 (.inl rfl), h2⟩
  · obtain ⟨h1, h2, h3⟩ := h.outside hi
    unfold Layout
    rw [if_neg hi]
    exact ⟨hm _ h1 (.inl rfl), hm _ h2 (.inr rfl), h3⟩

theorem Layout.ptr_mem {live : List (Nat × Nat)} (h : Layout sizeof live p) : p.ptr ∈ live.map Prod.fst := by
  by_cases hi : p.inside = true
  · exact List.mem_map.mpr ⟨_, (h.inside hi).1, rfl⟩
  · exact List.mem_map.mpr ⟨_, (h.outside hi).1, rfl⟩

/-- The counter lies in a live block, so it can be stored to. -/
theorem Layout.store (h : Layout sizeof s.live p) (v : Nat) :
    s.store p.ctr v = some { s with word := Function.update s.word p.ctr v } := by
  refine if_pos ?_
  by_cases hi : p.inside = true
  · obtain ⟨h1, h2⟩ := h.inside hi
    exact ⟨_, h1, by simp only; omega, by simp only; omega⟩
  · exact ⟨_, (h.outside hi).2.1, by simp only; omega, by simp only; omega⟩

/-- Nothing of a handle lies in a block that is still to be returned. -/
theorem Layout.not_fresh (h : Layout sizeof s.live p) (hf : s.Fresh a n) {x : Nat}
    (h1 : a ≤ x) (h2 : x < a + n) : x ≠ p.ptr ∧ x ≠ p.ctr := by
  obtain ⟨-, -, hd⟩ := hf
  by_cases hi : p.inside = true
  · obtain ⟨hm, hc⟩ := h.inside hi
    have := hd _ hm
    simp only at this
    omega
  · obtain ⟨hm, hc, -⟩ := h.outside hi
    have d1 := hd _ hm
    have d2 := hd _ hc
    have := (sizeof p.type).pos
    simp only at d1 d2
    omega

/-! ## The invariant -/

structure Owned (sizeof : τ → ℕ+) (s : State τ) (p : Handle τ) : Prop where
  layout : Layout sizeof s.live p
  object : s.objects p.ptr = some p.obj
  created : p.obj < s.created
  counter : s.word p.ctr = s.owners p.obj

structure Apart (p q : Handle τ) : Prop where
  ptr : p.ptr ≠ q.ptr
  ptr_ctr : p.ptr ≠ q.ctr
  ctr_ptr : p.ctr ≠ q.ptr
  ctr : p.ctr ≠ q.ctr

theorem Apart.symm (h : Apart p q) : Apart q p := ⟨h.ptr.symm, h.ctr_ptr.symm, h.ptr_ctr.symm, h.ctr.symm⟩

structure Inv (sizeof : τ → ℕ+) (s : State τ) : Prop where
  blocks : Blocks s.live
  names : (s.handles.map Prod.fst).Nodup
  range : ∀ q ∈ s.handles, 0 < q.1 ∧ q.1 < 2 ^ 64
  owned : ∀ q ∈ s.handles, Owned sizeof s q.2
  same : ∀ q ∈ s.handles, ∀ r ∈ s.handles, q.2.obj = r.2.obj → q.2 = r.2
  apart : ∀ q ∈ s.handles, ∀ r ∈ s.handles, q.2.obj ≠ r.2.obj → Apart q.2 r.2
  deleted : ∀ o < s.created, s.deleted.count o = if s.owners o = 0 then 1 else 0
  past : ∀ o ∈ s.deleted, o < s.created

theorem init_inv : Inv sizeof (init : State τ) where
  blocks := ⟨.nil, nofun⟩
  names := .nil
  range := nofun
  owned := nofun
  same := nofun
  apart := nofun
  deleted := nofun
  past := nofun

theorem Inv.correct (hi : Inv sizeof s) : Correct s := ⟨fun q hq => (hi.owned q hq).counter, hi.deleted⟩

theorem Inv.owned_of_handle (hi : Inv sizeof s) (hp : s.handle h = some p) : Owned sizeof s p :=
  hi.owned _ (handle_mem hp)

/-- `operator=` tells by the pointers whether two handles own the same object. -/
theorem Inv.ptr_eq_iff (hi : Inv sizeof s) (hp : s.handle h = some p) (hq : s.handle g = some q) :
    p.ptr = q.ptr ↔ p.obj = q.obj := by
  constructor
  · intro e
    by_contra hne
    exact (hi.apart _ (handle_mem hp) _ (handle_mem hq) hne).ptr e
  · intro e
    exact congrArg Handle.ptr (hi.same _ (handle_mem hp) _ (handle_mem hq) e)

/-- An object not made yet has no handle. -/
theorem Inv.owners_created (hi : Inv sizeof s) : s.owners s.created = 0 :=
  owners_eq_zero.mpr fun q hq => Nat.ne_of_lt (hi.owned q hq).created

/-! ## New handles -/

theorem names_add (hn : (s.handles.map Prod.fst).Nodup) (hr : ∀ q ∈ s.handles, 0 < q.1 ∧ q.1 < 2 ^ 64)
    {within : Option Nat} (hu : Unused s h within) (p : Handle τ) :
    ((s.add h p).handles.map Prod.fst).Nodup ∧ ∀ q ∈ (s.add h p).handles, 0 < q.1 ∧ q.1 < 2 ^ 64 := by
  refine ⟨List.nodup_cons.mpr ⟨hu.2.2.1, hn⟩, fun q hq => ?_⟩
  rcases List.mem_cons.mp hq with rfl | hq
  · exact ⟨hu.1, hu.2.1⟩
  · exact hr q hq

/-- The state after the constructor of a new object and its first handle. -/
def attach (s : State τ) (live : List (Nat × Nat)) (h : Nat) (p : Handle τ) : State τ :=
  State.add { s with
    live := live
    word := Function.update s.word p.ctr 1
    objects := Function.update s.objects p.ptr (some s.created)
    created := s.created + 1 } h p

theorem inv_attach {live : List (Nat × Nat)} {within : Option Nat} (hi : Inv sizeof s) (hu : Unused s h within)
    (hb : Blocks live)
    (hsub : ∀ b ∈ s.live, b ∈ live) (hl : Layout sizeof live p) (hobj : p.obj = s.created)
    (hp : ∀ q ∈ s.handles, Apart p q.2) : Inv sizeof (attach s live h p) := by
  obtain ⟨hn, hr⟩ := names_add hi.names hi.range hu p
  have hown (o) : (attach s live h p).owners o = s.owners o + if p.obj = o then 1 else 0 := owners_add s h o p
  have hne : ∀ q ∈ s.handles, q.2.obj ≠ p.obj := fun q hq => hobj ▸ Nat.ne_of_lt (hi.owned q hq).created
  refine ⟨hb, hn, hr, ?_, ?_, ?_, ?_, ?_⟩
  · intro q hq
    rcases List.mem_cons.mp hq with rfl | hq
    · refine ⟨hl, ?_, Nat.lt_succ_of_le (Nat.le_of_eq hobj), ?_⟩
      · exact (Function.update_self ..).trans (congrArg some hobj.symm)
      · rw [hown, hobj, hi.owners_created, if_pos rfl]
        exact Function.update_self ..
    · have hq' := hi.owned q hq
      refine ⟨hq'.layout.mono fun b hm _ => hsub b hm, ?_, Nat.lt_succ_of_lt hq'.created, ?_⟩
      · exact (Function.update_of_ne (hp q hq).ptr.symm ..).trans hq'.object
      · rw [hown, if_neg (hne q hq).symm]
        exact (Function.update_of_ne (hp q hq).ctr.symm ..).trans hq'.counter
  · intro q hq r hr he
    rcases List.mem_cons.mp hq with rfl | hq <;> rcases List.mem_cons.mp hr with rfl | hr
    · rfl
    · exact absurd he.symm (hne r hr)
    · exact absurd he (hne q hq)
    · exact hi.same q hq r hr he
  · intro q hq r hr he
    rcases List.mem_cons.mp hq with rfl | hq <;> rcases List.mem_cons.mp hr with rfl | hr
    · exact absurd rfl he
    · exact hp r hr
    · exact (hp q hq).symm
    · exact hi.apart q hq r hr he
  · intro o ho
    rw [hown]
    rcases Nat.lt_succ_iff_lt_or_eq.mp ho with ho | rfl
    · have hno : p.obj ≠ o := by omega
      rw [if_neg hno, Nat.add_zero]
      exact hi.deleted o ho
    · rw [if_pos hobj, if_neg (Nat.succ_ne_zero _)]
      exact List.count_eq_zero.mpr fun hm => Nat.lt_irrefl _ (hi.past _ hm)
  · exact fun o ho => Nat.lt_succ_of_lt (hi.past o ho)

/-- What a new handle leaves of the handles and objects. -/
structure Added (s : State τ) (h : Nat) (t : State τ) : Prop where
  handles : ∃ q, t.handles = (h, q) :: s.handles
  members : t.members = s.members
  deleted : t.deleted = s.deleted

theorem newHandle_spec {ty : τ} {c : Nat} {within : Option Nat} (hi : Inv sizeof s)
    (hl : Legal sizeof s (.new h within ty a c)) : ∃ t, newHandle sizeof s h ty a c = some t ∧ Inv sizeof t ∧
      Added s h t := by
  obtain ⟨hu, hf, hfc⟩ := hl
  have hpos := (sizeof ty).pos
  let live := (c, 8) :: (a, (sizeof ty : Nat)) :: s.live
  let p : Handle τ := ⟨ty, a, c, s.created, false⟩
  have hdis := hfc.2.2 _ (List.mem_cons_self ..)
  simp only at hdis
  have hlay : Layout sizeof live p := ⟨by simp [live, p], by simp [live, p], by simp only [p]; omega⟩
  refine ⟨attach s live h p, ?_, inv_attach hi hu ?_ ?_ hlay rfl ?_, ⟨p, rfl⟩, rfl, rfl⟩
  · have hst := hlay.store (s := ((s.alloc a (sizeof ty)).construct a).alloc c 8) 1
    have hst' : (((s.alloc a (sizeof ty)).construct a).alloc c 8).store c 1 = _ := hst
    unfold newHandle
    simp only [hst', Option.bind_eq_bind, Option.bind_some]
    rfl
  · exact Blocks.cons (s := s.alloc a (sizeof ty)) (hi.blocks.cons hpos hf) (by decide) hfc
  · exact fun b hb => List.mem_cons_of_mem _ (List.mem_cons_of_mem _ hb)
  · intro q hq
    have hq' := (hi.owned q hq).layout
    obtain ⟨h1, h2⟩ := hq'.not_fresh hf (Nat.le_refl a) (by omega)
    have hfc' : s.Fresh c 8 := ⟨hfc.1, hfc.2.1, fun b hb => hfc.2.2 b (List.mem_cons_of_mem _ hb)⟩
    obtain ⟨h3, h4⟩ := hq'.not_fresh hfc' (Nat.le_refl c) (by omega)
    exact ⟨h1, h2, h3, h4⟩

theorem makeShared_spec {ty : τ} {within : Option Nat} (hi : Inv sizeof s)
    (hl : Legal sizeof s (.makeShared h within ty a)) :
    ∃ t, makeShared sizeof s h ty a = some t ∧ Inv sizeof t ∧ Added s h t := by
  obtain ⟨hu, hf⟩ := hl
  let live := (a, minsize sizeof ty + 8) :: s.live
  let p : Handle τ := ⟨ty, a, a + minsize sizeof ty, s.created, true⟩
  have hlay : Layout sizeof live p := ⟨by simp [live, p], rfl⟩
  refine ⟨attach s live h p, ?_, inv_attach hi hu (hi.blocks.cons (by omega) hf) ?_ hlay rfl ?_, ⟨p, rfl⟩, rfl, rfl⟩
  · have hst := hlay.store (s := (s.alloc a (minsize sizeof ty + 8)).construct a) 1
    have hst' : ((s.alloc a (minsize sizeof ty + 8)).construct a).store (a + minsize sizeof ty) 1 = _ := hst
    unfold makeShared
    simp only [hst', Option.bind_eq_bind, Option.bind_some]
    rfl
  · exact fun b hb => List.mem_cons_of_mem _ hb
  · intro q hq
    have hq' := (hi.owned q hq).layout
    obtain ⟨h1, h2⟩ := hq'.not_fresh hf (Nat.le_refl a) (by omega)
    obtain ⟨h3, h4⟩ := hq'.not_fresh hf (x := a + minsize sizeof ty) (by omega) (by omega)
    exact ⟨h1, h2, h3, h4⟩

/-! ## Handles of an object that has one -/

/-- A copy: the object gets one more handle. -/
theorem share_spec {within : Option Nat} (hi : Inv sizeof s) (hu : Unused s h within) (hq : s.handle g = some q) :
    ∃ t, share s h q = some t ∧ Inv sizeof t ∧ Added s h t := by
  have hmem := handle_mem hq
  have ho := hi.owned_of_handle hq
  obtain ⟨hn, hr⟩ := names_add hi.names hi.range hu q
  have hlt : s.owners q.obj + 1 < 2 ^ 64 := by
    have := owners_lt hn hr q.obj
    rwa [owners_add, if_pos rfl] at this
  have hword : add64 (s.word q.ctr) 1 = s.owners q.obj + 1 := by rw [ho.counter, add64_eq hlt]
  let t : State τ := State.add { s with word := Function.update s.word q.ctr (s.owners q.obj + 1) } h q
  have hown (o) : t.owners o = s.owners o + if q.obj = o then 1 else 0 := owners_add s h o q
  -- No record is new, so what holds of two records holds of them still.
  have hold : ∀ r ∈ t.handles, ∃ r' ∈ s.handles, r.2 = r'.2 := by
    intro r hr
    rcases List.mem_cons.mp hr with rfl | hr
    · exact ⟨_, hmem, rfl⟩
    · exact ⟨r, hr, rfl⟩
  refine ⟨t, ?_, ⟨hi.blocks, hn, hr, ?_, ?_, ?_, ?_, hi.past⟩, ⟨q, rfl⟩, rfl, rfl⟩
  · unfold share
    rw [ho.layout.store, hword]
    rfl
  · intro r hr
    obtain ⟨r', hr', e⟩ := hold r hr
    have ho' := hi.owned r' hr'
    rw [e]
    refine ⟨ho'.layout, ho'.object, ho'.created, ?_⟩
    rw [hown]
    by_cases he : q.obj = r'.2.obj
    · rw [if_pos he, ← hi.same _ hmem r' hr' he]
      exact Function.update_self ..
    · rw [if_neg he, Nat.add_zero, ← ho'.counter]
      exact Function.update_of_ne (hi.apart _ hmem r' hr' he).ctr.symm ..
  · intro a ha b hb
    obtain ⟨a', ha', ea⟩ := hold a ha
    obtain ⟨b', hb', eb⟩ := hold b hb
    rw [ea, eb]
    exact hi.same a' ha' b' hb'
  · intro a ha b hb
    obtain ⟨a', ha', ea⟩ := hold a ha
    obtain ⟨b', hb', eb⟩ := hold b hb
    rw [ea, eb]
    exact hi.apart a' ha' b' hb'
  · intro o hlt
    have hz : t.owners o = 0 ↔ s.owners o = 0 := by
      rw [hown]
      by_cases he : q.obj = o
      · have := owners_eq_zero.not.mpr fun hz => hz _ hmem he
        omega
      · rw [if_neg he, Nat.add_zero]
    exact (hi.deleted o hlt).trans (if_congr hz.symm rfl rfl)

/-! ## Dropping a count -/

/-- The state without a handle, while the other handles of its object stay. -/
def detach (s : State τ) (h : Nat) (p : Handle τ) : State τ :=
  State.remove { s with word := Function.update s.word p.ctr (s.owners p.obj - 1) } h

/-- The state without the last handle of an object, which ends with it. -/
def orphan (s : State τ) (h : Nat) (p : Handle τ) : State τ :=
  State.bury (State.remove { s with word := Function.update s.word p.ctr 0 } h) p.ptr p.obj

theorem names_remove (hi : Inv sizeof s) (h : Nat) :
    ((s.remove h).handles.map Prod.fst).Nodup ∧ ∀ q ∈ (s.remove h).handles, 0 < q.1 ∧ q.1 < 2 ^ 64 :=
  ⟨hi.names.sublist (List.filter_sublist.map _), fun q hq => hi.range q (mem_remove.mp hq).1⟩

theorem inv_detach (hi : Inv sizeof s) (hp : s.handle h = some p) (hmore : s.owners p.obj ≠ 1) :
    Inv sizeof (detach s h p) := by
  have hmem := handle_mem hp
  obtain ⟨hn, hr⟩ := names_remove hi h
  have hrem (o) : s.owners o = (detach s h p).owners o + if p.obj = o then 1 else 0 := owners_remove hi.names hp o
  have hin {q} (hq : q ∈ (detach s h p).handles) : q ∈ s.handles := (mem_remove.mp hq).1
  refine ⟨hi.blocks, hn, hr, fun q hq => ?_, fun q hq r hr => hi.same q (hin hq) r (hin hr),
    fun q hq r hr => hi.apart q (hin hq) r (hin hr), fun o ho => ?_, hi.past⟩
  · have ho := hi.owned q (hin hq)
    refine ⟨ho.layout, ho.object, ho.created, ?_⟩
    have hc := hrem q.2.obj
    by_cases he : p.obj = q.2.obj
    · have e : p = q.2 := hi.same _ hmem q (hin hq) he
      rw [if_pos he] at hc
      rw [← e] at hc ⊢
      refine (Function.update_self ..).trans ?_
      omega
    · rw [if_neg he] at hc
      refine (Function.update_of_ne (hi.apart _ hmem q (hin hq) he).ctr.symm ..).trans ?_
      rw [ho.counter]
      exact hc
  · have hz : (detach s h p).owners o = 0 ↔ s.owners o = 0 := by
      have hc := hrem o
      by_cases he : p.obj = o
      · rw [he] at hmore
        rw [if_pos he] at hc
        omega
      · rw [if_neg he] at hc
        omega
    exact (hi.deleted o ho).trans (if_congr hz.symm rfl rfl)

/-- What is left belongs to other objects. -/
theorem Inv.others_apart (hi : Inv sizeof s) (hp : s.handle h = some p) (hlast : s.owners p.obj = 1) :
    ∀ q ∈ (s.remove h).handles, Apart p q.2 := by
  have hrem := owners_remove hi.names hp p.obj
  rw [hlast, if_pos rfl] at hrem
  intro q hq
  refine hi.apart _ (handle_mem hp) q (mem_remove.mp hq).1 fun e => ?_
  exact owners_eq_zero.mp (show (s.remove h).owners p.obj = 0 by omega) q hq e.symm

theorem inv_orphan (hi : Inv sizeof s) (hp : s.handle h = some p) (hlast : s.owners p.obj = 1) :
    Inv sizeof (orphan s h p) := by
  have hmem := handle_mem hp
  obtain ⟨hn, hr⟩ := names_remove hi h
  have hrem (o) : s.owners o = (orphan s h p).owners o + if p.obj = o then 1 else 0 := owners_remove hi.names hp o
  have hin {q} (hq : q ∈ (orphan s h p).handles) : q ∈ s.handles := (mem_remove.mp hq).1
  have hgone : (orphan s h p).owners p.obj = 0 := by
    have := hrem p.obj
    rw [if_pos rfl] at this
    omega
  have hother {q} (hq : q ∈ (orphan s h p).handles) : p.obj ≠ q.2.obj := fun e => owners_eq_zero.mp hgone q hq e.symm
  refine ⟨hi.blocks, hn, hr, fun q hq => ?_, fun q hq r hr => hi.same q (hin hq) r (hin hr),
    fun q hq r hr => hi.apart q (hin hq) r (hin hr), fun o ho => ?_, fun o ho => ?_⟩
  · have ho := hi.owned q (hin hq)
    have ha := hi.others_apart hp hlast q hq
    refine ⟨ho.layout, ?_, ho.created, ?_⟩
    · exact (Function.update_of_ne ha.ptr.symm ..).trans ho.object
    · have hc := hrem q.2.obj
      rw [if_neg (hother hq)] at hc
      exact (Function.update_of_ne ha.ctr.symm ..).trans (ho.counter.trans hc)
  · have hd := hi.deleted o ho
    have hc := hrem o
    show (s.deleted ++ [p.obj]).count o = _
    rw [List.count_append, hd]
    by_cases he : p.obj = o
    · subst he
      rw [hgone, if_neg (by omega), if_pos rfl]
      simp
    · rw [if_neg he, Nat.add_zero] at hc
      rw [hc]
      simp [he]
  · rcases List.mem_append.mp ho with ho | ho
    · exact hi.past o ho
    · rw [List.mem_singleton.mp ho]
      exact (hi.owned _ hmem).created

/-- Blocks of no handle may go. -/
theorem Inv.filter (hi : Inv sizeof s) {f : Nat × Nat → Bool}
    (hf : ∀ b ∈ s.live, ∀ q ∈ s.handles, b.1 = q.2.ptr ∨ b.1 = q.2.ctr → f b = true) :
    Inv sizeof { s with live := s.live.filter f } where
  blocks := hi.blocks.filter f
  names := hi.names
  range := hi.range
  owned q hq := by
    have ho := hi.owned q hq
    exact ⟨ho.layout.mono fun b hb he => List.mem_filter.mpr ⟨hb, hf b hb q hq he⟩, ho.object, ho.created, ho.counter⟩
  same := hi.same
  apart := hi.apart
  deleted := hi.deleted
  past := hi.past

theorem release_eq (ha : a ∈ s.live.map Prod.fst) :
    s.release a = some { s with live := s.live.filter fun b => b.1 ≠ a } := if_pos ha

/-- The test by which the destructor tells a counter inside from one of its own. -/
theorem sub64_ctr_inside {live : List (Nat × Nat)} (hb : Blocks live) (hl : Layout sizeof live p)
    (hi : p.inside = true) : sub64 p.ctr (sizeof p.type) = p.ptr ↔ 8 ≤ (sizeof p.type : Nat) := by
  obtain ⟨h1, h2⟩ := hl.inside hi
  have hr := (hb.range _ h1).2
  have hmin : minsize sizeof p.type = if (sizeof p.type : Nat) < 8 then 8 else (sizeof p.type : Nat) := rfl
  have hpos := (sizeof p.type).pos
  simp only at hr
  rw [sub64_eq (by omega) (by split at hmin <;> omega)]
  split at hmin <;> omega

/-! ## Members -/

/-- The members of the objects that live are handles, each of one object. -/
structure Housed (s : State τ) : Prop where
  named : ∀ o, o ∉ s.deleted → ∀ m ∈ s.members o, m ∈ s.handles.map Prod.fst
  nodup : ∀ o, o ∉ s.deleted → (s.members o).Nodup
  once : ∀ o o', o ∉ s.deleted → o' ∉ s.deleted → o ≠ o' → ∀ m ∈ s.members o, m ∉ s.members o'

theorem init_housed : Housed (init : State τ) := ⟨nofun, fun _ _ => .nil, nofun⟩

theorem mem_names : (h ∈ s.handles.map Prod.fst) ↔ ∃ q, (h, q) ∈ s.handles := by simp

theorem Added.housed {within : Option Nat} (ha : Added s h t) (hu : Unused s h within) (hh : Housed s) :
    Housed (t.place h within) := by
  obtain ⟨⟨q, hq⟩, hm, hd⟩ := ha
  obtain ⟨-, -, hnew, -⟩ := hu
  have hfresh : ∀ o, o ∉ s.deleted → h ∉ s.members o := fun o ho hm => hnew (hh.named o ho h hm)
  cases within with
  | none =>
    refine ⟨fun o ho m hmo => ?_, fun o ho => ?_, fun o o' ho ho' => ?_⟩
    · rw [State.place, hq, List.map_cons]
      rw [State.place, hm] at hmo
      exact List.mem_cons_of_mem _ (hh.named o (hd ▸ ho) m hmo)
    · rw [State.place, hm]
      exact hh.nodup o (hd ▸ ho)
    · rw [State.place, hm]
      exact hh.once o o' (hd ▸ ho) (hd ▸ ho')
  | some w =>
    have hmem : (t.place h (some w)).members = Function.update s.members w (h :: s.members w) := by rw [← hm]; rfl
    have hdel : (t.place h (some w)).deleted = s.deleted := hd
    have hhand : (t.place h (some w)).handles = (h, q) :: s.handles := hq
    have hself : (t.place h (some w)).members w = h :: s.members w := by rw [hmem, Function.update_self]
    have hother {o} (ho : o ≠ w) : (t.place h (some w)).members o = s.members o := by rw [hmem, Function.update_of_ne ho]
    refine ⟨fun o ho m hmo => ?_, fun o ho => ?_, fun o o' ho ho' hne m hmo => ?_⟩
    · rw [hdel] at ho
      rw [hhand, List.map_cons, List.mem_cons]
      by_cases e : o = w
      · rw [e, hself, List.mem_cons] at hmo
        exact hmo.imp id (hh.named w (e ▸ ho) m)
      · rw [hother e] at hmo
        exact .inr (hh.named o ho m hmo)
    · rw [hdel] at ho
      by_cases e : o = w
      · rw [e, hself]
        exact List.nodup_cons.mpr ⟨hfresh w (e ▸ ho), hh.nodup w (e ▸ ho)⟩
      · rw [hother e]
        exact hh.nodup o ho
    · rw [hdel] at ho ho'
      by_cases e : o = w
      · rw [e, hself, List.mem_cons] at hmo
        rw [hother fun e' => hne (e.trans e'.symm)]
        rcases hmo with rfl | hmo
        · exact hfresh o' ho'
        · exact hh.once w o' (e ▸ ho) ho' (e ▸ hne) m hmo
      · rw [hother e] at hmo
        by_cases e' : o' = w
        · rw [e', hself, List.mem_cons, not_or]
          exact ⟨fun em => hfresh o ho (em ▸ hmo), hh.once o w ho (e' ▸ ho') e m hmo⟩
        · rw [hother e']
          exact hh.once o o' ho ho' hne m hmo

theorem Inv.place (hi : Inv sizeof s) (h : Nat) (within : Option Nat) : Inv sizeof (s.place h within) := by
  cases within with
  | none => exact hi
  | some w =>
    refine ⟨hi.blocks, hi.names, hi.range, fun q hq => ?_, hi.same, hi.apart, hi.deleted, hi.past⟩
    have ho := hi.owned q hq
    exact ⟨ho.layout, ho.object, ho.created, ho.counter⟩

/-! ## Destructors -/

theorem handle_of_mem (hi : Inv sizeof s) (hm : (h, p) ∈ s.handles) : s.handle h = some p :=
  Named.find_of_mem hi.names hm

section Cascade

/- The value of `top` goes in the state `r`, and the objects of `gone` may go with it. -/
variable (r : State τ) (top : Nat) (gone : Nat → Prop)

/-- A member of an object that went. -/
def Freed (s : State τ) (m : Nat) : Prop := ∃ o, m ∈ r.members o ∧ gone o ∧ o ∉ r.deleted ∧ o ∈ s.deleted

/-- A state on the way: only `top` and members of objects that went are missing. -/
structure Underway (sizeof : τ → ℕ+) (s : State τ) : Prop where
  inv : Inv sizeof s
  members : s.members = r.members
  deleted : ∀ o ∈ r.deleted, o ∈ s.deleted
  sub : ∀ q ∈ s.handles, q ∈ r.handles
  missing : ∀ q ∈ r.handles, q ∉ s.handles → q.1 = top ∨ Freed r gone s q.1

/-- What destructors of the handles `hs` do. -/
structure Ended (sizeof : τ → ℕ+) (s : State τ) (hs : List Nat) (t : State τ) : Prop where
  underway : Underway r top gone sizeof t
  sub : ∀ q ∈ t.handles, q ∈ s.handles ∧ q.1 ∉ hs
  stays : ∀ q ∈ s.handles, q.1 ∉ hs → (∀ o, o ∉ s.deleted → gone o → q.1 ∉ r.members o) → q ∈ t.handles
  deleted : ∀ o ∈ s.deleted, o ∈ t.deleted
  blocks : ∀ b ∈ s.live, (∀ q ∈ s.handles, b.1 ≠ q.2.ptr ∧ b.1 ≠ q.2.ctr) → b ∈ t.live

/-- What the value of `top` may take with it, and that it is no object of the bad kind. -/
structure Takes (sizeof : τ → ℕ+) : Prop where
  inv : Inv sizeof r
  housed : Housed r
  closed : Closed r top gone
  outside : ∀ o, o ∉ r.deleted → gone o → top ∉ r.members o
  large : ∀ q ∈ r.handles, gone q.2.obj → ¬ (q.2.inside = true ∧ (sizeof q.2.type : Nat) < 8)

variable {r top gone} {hs : List Nat} {u : State τ} {m : Nat}

theorem Ended.trans (h1 : Ended r top gone sizeof s [m] t) (h2 : Ended r top gone sizeof t hs u) :
    Ended r top gone sizeof s (m :: hs) u where
  underway := h2.underway
  sub q hq := by
    obtain ⟨hq, hn⟩ := h2.sub q hq
    obtain ⟨hq, hm⟩ := h1.sub q hq
    exact ⟨hq, by simpa using ⟨by simpa using hm, hn⟩⟩
  stays q hq hn ho := by
    rw [List.mem_cons, not_or] at hn
    exact h2.stays q (h1.stays q hq (by simpa using hn.1) ho) hn.2 fun o ho' => ho o fun hd => ho' (h1.deleted o hd)
  deleted o ho := h2.deleted o (h1.deleted o ho)
  blocks b hb hq := h2.blocks b (h1.blocks b hb hq) fun q hq' => hq q (h1.sub q hq').1

theorem Ended.length_le (he : Ended r top gone sizeof s hs t) : t.handles.length ≤ s.handles.length :=
  (he.underway.inv.names.of_map.subperm fun q hq => (he.sub q hq).1).length_le

/-- A handle that goes, `top` or a member of an object that went, lies in no object that is still to go. -/
theorem Takes.free (ht : Takes r top gone sizeof) (hm : m = top ∨ Freed r gone s m) {o : Nat} (ho : o ∉ r.deleted)
    (hs : o ∉ s.deleted) (hg : gone o) : m ∉ r.members o := by
  rcases hm with rfl | ⟨o', hmem, -, hlive, hdead⟩
  · exact ht.outside o ho hg
  · exact ht.housed.once o' o hlive ho (fun e => hs (e ▸ hdead)) m hmem

theorem Ended.refl (hu : Underway r top gone sizeof s) : Ended r top gone sizeof s [] s where
  underway := hu
  sub _ hq := ⟨hq, List.not_mem_nil⟩
  stays _ hq _ _ := hq
  deleted _ ho := ho
  blocks _ hb _ := hb

/-- What the recursion gives at some depth. -/
def Recurses (r : State τ) (top : Nat) (gone : Nat → Prop) (sizeof : τ → ℕ+) (depth : Nat) : Prop :=
  ∀ s m, Underway r top gone sizeof s → m ∈ s.handles.map Prod.fst → (m = top ∨ Freed r gone s m) →
    s.handles.length ≤ depth → ∃ t, destructor sizeof depth s m = some t ∧ Ended r top gone sizeof s [m] t

/-- The destructors of the members of an object that went. -/
theorem members_end {depth : Nat} (ht : Takes r top gone sizeof) (ih : Recurses r top gone sizeof depth)
    (hg : gone o) (hl : o ∉ r.deleted) (hu : Underway r top gone sizeof s) (ho : o ∈ s.deleted) (hn : hs.Nodup)
    (hm : ∀ m ∈ hs, m ∈ s.handles.map Prod.fst ∧ m ∈ r.members o) (hlen : s.handles.length ≤ depth) :
    ∃ t, hs.foldlM (destructor sizeof depth) s = some t ∧ Ended r top gone sizeof s hs t := by
  induction hs generalizing s with
  | nil => exact ⟨s, rfl, .refl hu⟩
  | cons m hs ihs =>
    obtain ⟨hnm, hn⟩ := List.nodup_cons.mp hn
    obtain ⟨hname, hmem⟩ := hm m (List.mem_cons_self ..)
    obtain ⟨t, hdt, het⟩ := ih s m hu hname (.inr ⟨o, hmem, hg, hl, ho⟩) hlen
    have hleft : ∀ m' ∈ hs, m' ∈ t.handles.map Prod.fst ∧ m' ∈ r.members o := by
      intro m' hm'
      obtain ⟨hname', hmem'⟩ := hm m' (List.mem_cons_of_mem _ hm')
      obtain ⟨q, hq⟩ := mem_names.mp hname'
      have hne : m' ≠ m := fun e => hnm (e ▸ hm')
      refine ⟨mem_names.mpr ⟨q, het.stays _ hq (by simpa using hne) fun o' ho' hg' => ?_⟩, hmem'⟩
      exact ht.housed.once o o' hl (fun h => ho' (hu.deleted o' h)) (fun e => ho' (e ▸ ho)) m' hmem'
    obtain ⟨u, hfu, heu⟩ := ihs het.underway (het.deleted o ho) hn hleft (het.length_le.trans hlen)
    refine ⟨u, ?_, het.trans heu⟩
    rw [List.foldlM_cons, hdt]
    exact hfu

/-- An object none of whose handles is left but one that goes is one that may go. -/
theorem Takes.last_gone (ht : Takes r top gone sizeof) (hu : Underway r top gone sizeof s) (hp : (h, p) ∈ s.handles)
    (hh : h = top ∨ Freed r gone s h) (hlast : s.owners p.obj = 1) : gone p.obj := by
  have hother := hu.inv.others_apart (handle_of_mem hu.inv hp) hlast
  refine ht.closed p.obj ?_ fun q hq hobj => ?_
  · exact Nat.pos_of_ne_zero fun hz => owners_eq_zero.mp hz _ (hu.sub _ hp) rfl
  · have hgoes : q.1 = top ∨ Freed r gone s q.1 := by
      by_cases hin : q ∈ s.handles
      · by_cases e : q.1 = h
        · exact e ▸ hh
        · have hsame := hu.inv.same q hin _ hp hobj
          exact absurd (congrArg Handle.ptr hsame.symm) (hother q (mem_remove.mpr ⟨hin, e⟩)).ptr
      · exact hu.missing q hq hin
    exact hgoes.imp id fun ⟨o', h1, h2, _⟩ => ⟨o', h1, h2⟩

/-- With its last handle an object is on its way. -/
theorem Underway.orphan (hu : Underway r top gone sizeof s) (hp : (h, p) ∈ s.handles)
    (hh : h = top ∨ Freed r gone s h) (hlast : s.owners p.obj = 1) : Underway r top gone sizeof (orphan s h p) where
  inv := inv_orphan hu.inv (handle_of_mem hu.inv hp) hlast
  members := hu.members
  deleted o ho := List.mem_append_left _ (hu.deleted o ho)
  sub q hq := hu.sub q (mem_remove.mp hq).1
  missing q hq hn := by
    have hgoes : q.1 = top ∨ Freed r gone s q.1 := by
      by_cases hin : q ∈ s.handles
      · have e : q.1 = h := by_contra fun e => hn (mem_remove.mpr ⟨hin, e⟩)
        exact e ▸ hh
      · exact hu.missing q hq hin
    exact hgoes.imp id fun ⟨o, h1, h2, h3, h4⟩ => ⟨o, h1, h2, h3, List.mem_append_left _ h4⟩

/-- The members of an object that may go are there as long as it lives. -/
theorem Takes.member_left (ht : Takes r top gone sizeof) (hu : Underway r top gone sizeof s)
    (hh : h = top ∨ Freed r gone s h) (ho : o ∉ s.deleted) (hg : gone o) (hm : m ∈ r.members o) :
    m ∈ (s.remove h).handles.map Prod.fst := by
  have hlive : o ∉ r.deleted := fun hd => ho (hu.deleted o hd)
  obtain ⟨q, hq⟩ := mem_names.mp (ht.housed.named o hlive m hm)
  refine mem_names.mpr ⟨q, mem_remove.mpr ⟨?_, ?_⟩⟩
  · by_contra hin
    exact ht.free (hu.missing _ hq hin) hlive ho hg hm
  · rintro rfl
    exact ht.free hh hlive ho hg hm

/-- The block of an object, and that of its counter if it is one of its own, are freed last. -/
theorem blocks_end (hi : Inv sizeof s) (hp : (h, p) ∈ s.handles) (hlast : s.owners p.obj = 1)
    (hsmall : ¬ (p.inside = true ∧ (sizeof p.type : Nat) < 8)) (he : Ended r top gone sizeof (orphan s h p) hs t) :
    ∃ u, (t.release p.ptr).bind (fun t => if sub64 p.ctr (sizeof p.type) ≠ p.ptr then t.release p.ctr else some t) = some u ∧
      Underway r top gone sizeof u ∧ u.handles = t.handles ∧ u.deleted = t.deleted ∧
      ∀ b ∈ t.live, b.1 ≠ p.ptr → b.1 ≠ p.ctr → b ∈ u.live := by
  have hh := handle_of_mem hi hp
  have hlay := (hi.owned_of_handle hh).layout
  have hother := hi.others_apart hh hlast
  -- no other handle has anything of the object's
  have hleft : ∀ q ∈ t.handles, Apart p q.2 := fun q hq => hother q (he.sub q hq).1
  have hkept : ∀ b ∈ s.live, b.1 = p.ptr ∨ b.1 = p.ctr → b ∈ t.live := by
    intro b hb hbp
    refine he.blocks b hb fun q hq => ?_
    have ha := hother q hq
    rcases hbp with e | e
    · exact e ▸ ⟨ha.ptr, ha.ptr_ctr⟩
    · exact e ▸ ⟨ha.ctr_ptr, ha.ctr⟩
  have hptr : p.ptr ∈ t.live.map Prod.fst := (hlay.mono hkept).ptr_mem
  have hti := he.underway.inv
  have hone : Inv sizeof { t with live := t.live.filter fun b => b.1 ≠ p.ptr } :=
    hti.filter fun _ _ q hq hbq => decide_eq_true (by
      have ha := hleft q hq
      rcases hbq with e | e
      · exact e ▸ ha.ptr.symm
      · exact e ▸ ha.ptr_ctr.symm)
  rw [release_eq hptr, Option.bind_some]
  by_cases htest : sub64 p.ctr (sizeof p.type) = p.ptr
  · rw [if_neg (not_not.mpr htest)]
    exact ⟨_, rfl, ⟨hone, he.underway.members, he.underway.deleted, he.underway.sub, he.underway.missing⟩, rfl, rfl,
      fun b hb h1 _ => List.mem_filter.mpr ⟨hb, decide_eq_true h1⟩⟩
  · have hins : ¬ p.inside = true := fun hins => hsmall
      ⟨hins, not_le.mp fun h8 => htest ((sub64_ctr_inside hi.blocks hlay hins).mpr h8)⟩
    obtain ⟨-, hc, hne⟩ := hlay.outside hins
    have hctr : p.ctr ∈ (t.live.filter fun b => b.1 ≠ p.ptr).map Prod.fst :=
      List.mem_map.mpr ⟨_, List.mem_filter.mpr ⟨hkept _ hc (.inr rfl), decide_eq_true hne.symm⟩, rfl⟩
    have htwo : Inv sizeof { t with live := (t.live.filter fun b => b.1 ≠ p.ptr).filter fun b => b.1 ≠ p.ctr } :=
      hone.filter fun b _ q hq hbq => decide_eq_true (by
        have ha := hleft q hq
        rcases hbq with e | e
        · exact e ▸ ha.ctr_ptr.symm
        · exact e ▸ ha.ctr.symm)
    rw [if_pos htest, release_eq hctr]
    exact ⟨_, rfl, ⟨htwo, he.underway.members, he.underway.deleted, he.underway.sub, he.underway.missing⟩, rfl, rfl,
      fun b hb h1 h2 => List.mem_filter.mpr ⟨List.mem_filter.mpr ⟨hb, decide_eq_true h1⟩, decide_eq_true h2⟩⟩

/-- The count of an object with other handles goes down. -/
theorem dropCount_shared {dtor : State τ → Nat → Option (State τ)} (hu : Underway r top gone sizeof s)
    (hp : (h, p) ∈ s.handles)
    (hh : h = top ∨ Freed r gone s h) (hmore : s.owners p.obj ≠ 1) :
    ∃ t, dropCount sizeof dtor (s.remove h) p = some t ∧ Ended r top gone sizeof s [h] t := by
  have hfind := handle_of_mem hu.inv hp
  have ho := hu.inv.owned_of_handle hfind
  have hstore := ho.layout.store (s := s.remove h) (sub64 (s.word p.ctr) 1)
  have hlt := owners_lt hu.inv.names hu.inv.range p.obj
  have hpos : 1 ≤ s.owners p.obj := Nat.one_le_iff_ne_zero.mpr fun hz => owners_eq_zero.mp hz _ hp rfl
  have hsub : sub64 (s.word p.ctr) 1 = s.owners p.obj - 1 := by rw [ho.counter, sub64_eq hlt hpos]
  rw [hsub] at hstore
  refine ⟨detach s h p, ?_, ⟨inv_detach hu.inv hfind hmore, hu.members, hu.deleted, ?_, ?_⟩, ?_, ?_, ?_, ?_⟩
  · unfold dropCount
    rw [show (s.remove h).word = s.word from rfl, hsub, hstore]
    simp only [Option.bind_eq_bind, Option.bind_some, Function.update_self]
    rw [if_neg (by omega)]
    rfl
  · exact fun q hq => hu.sub q (mem_remove.mp hq).1
  · intro q hq hn
    by_cases hin : q ∈ s.handles
    · have e : q.1 = h := by_contra fun e => hn (mem_remove.mpr ⟨hin, e⟩)
      exact e ▸ hh
    · exact hu.missing q hq hin
  · intro q hq
    obtain ⟨hq, hn⟩ := mem_remove.mp hq
    exact ⟨hq, by simpa using hn⟩
  · exact fun q hq hne _ => mem_remove.mpr ⟨hq, by simpa using hne⟩
  · exact fun o ho => ho
  · exact fun b hb _ => hb

/-- That of its last one takes the object with it, with its members, and then its blocks. -/
theorem dropCount_last {depth : Nat} (ht : Takes r top gone sizeof) (ih : Recurses r top gone sizeof depth)
    (hu : Underway r top gone sizeof s) (hp : (h, p) ∈ s.handles) (hh : h = top ∨ Freed r gone s h)
    (hlast : s.owners p.obj = 1) (hlen : s.handles.length ≤ depth + 1) :
    ∃ t, dropCount sizeof (destructor sizeof depth) (s.remove h) p = some t ∧ Ended r top gone sizeof s [h] t := by
  have ho := hu.inv.owned_of_handle (handle_of_mem hu.inv hp)
  have hzero : sub64 (s.word p.ctr) 1 = 0 := by
    rw [ho.counter, hlast]
    rfl
  have hstore := ho.layout.store (s := s.remove h) 0
  have hg := ht.last_gone hu hp hh hlast
  have hlive : p.obj ∉ s.deleted := by
    have hcount := hu.inv.deleted p.obj ho.created
    rw [hlast, if_neg Nat.one_ne_zero] at hcount
    exact List.count_eq_zero.mp hcount
  have hlr : p.obj ∉ r.deleted := fun hd => hlive (hu.deleted _ hd)
  have hmembers : s.members p.obj = r.members p.obj := by rw [hu.members]
  have hshort : (orphan s h p).handles.length ≤ depth := by
    have := (Named.perm_others hu.inv.names hp).length_eq
    rw [List.length_cons] at this
    show (Named.others s.handles h).length ≤ depth
    omega
  obtain ⟨t, hft, het⟩ := members_end ht ih hg hlr (hu.orphan hp hh hlast) (List.mem_append_right _ (List.mem_singleton.mpr rfl))
    (ht.housed.nodup _ hlr) (fun m hm => ⟨ht.member_left (s := s) hu hh hlive hg hm, hm⟩) hshort
  obtain ⟨u, hru, huu, hhand, hdel, hblocks⟩ := blocks_end hu.inv hp hlast (ht.large _ (hu.sub _ hp) hg) het
  refine ⟨u, ?_, huu, fun q hq => ?_, fun q hq hne hfree => ?_, fun o' ho' => ?_, fun b hb hapart => ?_⟩
  · unfold dropCount
    rw [show (s.remove h).word = s.word from rfl, hzero, hstore]
    simp only [Option.bind_eq_bind, Option.bind_some, Function.update_self, if_true]
    rw [show (s.remove h).objects p.ptr = some p.obj from ho.object, Option.bind_some]
    rw [show (s.remove h).members p.obj = r.members p.obj from hmembers]
    exact (congrArg (Option.bind · _) hft).trans hru
  · rw [hhand] at hq
    obtain ⟨hq, hn⟩ := mem_remove.mp (het.sub q hq).1
    exact ⟨hq, by simpa using hn⟩
  · rw [hhand]
    refine het.stays q (mem_remove.mpr ⟨hq, by simpa using hne⟩) (hfree p.obj hlive hg) fun o' ho' hg' => ?_
    exact hfree o' (fun hd => ho' (List.mem_append_left _ hd)) hg'
  · rw [hdel]
    exact het.deleted o' (List.mem_append_left _ ho')
  · obtain ⟨h1, h2⟩ := hapart _ hp
    exact hblocks b (het.blocks b hb fun q hq => hapart q (mem_remove.mp hq).1) h1 h2

theorem dropCount_ends {depth : Nat} (ht : Takes r top gone sizeof) (ih : Recurses r top gone sizeof depth)
    (hu : Underway r top gone sizeof s) (hp : (h, p) ∈ s.handles) (hh : h = top ∨ Freed r gone s h)
    (hlen : s.handles.length ≤ depth + 1) :
    ∃ t, dropCount sizeof (destructor sizeof depth) (s.remove h) p = some t ∧ Ended r top gone sizeof s [h] t := by
  by_cases hlast : s.owners p.obj = 1
  · exact dropCount_last ht ih hu hp hh hlast hlen
  · exact dropCount_shared hu hp hh hlast

theorem destructor_spec (ht : Takes r top gone sizeof) (depth : Nat) : Recurses r top gone sizeof depth := by
  induction depth with
  | zero =>
    intro s m _ hm _ hlen
    rw [List.eq_nil_of_length_eq_zero (Nat.le_zero.mp hlen)] at hm
    cases hm
  | succ depth ih =>
    intro s m hu hm hgoes hlen
    obtain ⟨p, hp⟩ := mem_names.mp hm
    obtain ⟨t, hdt, het⟩ := dropCount_ends ht ih hu hp hgoes hlen
    refine ⟨t, ?_, het⟩
    unfold destructor
    rw [handle_of_mem hu.inv hp]
    exact hdt

theorem Underway.start (ht : Takes r top gone sizeof) : Underway r top gone sizeof r where
  inv := ht.inv
  members := rfl
  deleted _ ho := ho
  sub _ hq := hq
  missing _ hq hn := absurd hq hn

/-- With the value of `top` gone, the members of the objects left are there, `top` perhaps apart. -/
theorem Ended.housed (ht : Takes r top gone sizeof) (he : Ended r top gone sizeof r [top] t) :
    (∀ o, o ∉ t.deleted → ∀ m ∈ t.members o, m = top ∨ m ∈ t.handles.map Prod.fst) ∧
    (∀ o, o ∉ t.deleted → (t.members o).Nodup) ∧
    ∀ o o', o ∉ t.deleted → o' ∉ t.deleted → o ≠ o' → ∀ m ∈ t.members o, m ∉ t.members o' := by
  have hlive {o} (ho : o ∉ t.deleted) : o ∉ r.deleted := fun hd => ho (he.deleted o hd)
  rw [he.underway.members]
  refine ⟨fun o ho m hm => ?_, fun o ho => ht.housed.nodup o (hlive ho), fun o o' ho ho' =>
    ht.housed.once o o' (hlive ho) (hlive ho')⟩
  obtain ⟨q, hq⟩ := mem_names.mp (ht.housed.named o (hlive ho) m hm)
  by_cases hin : (m, q) ∈ t.handles
  · exact .inr (mem_names.mpr ⟨q, hin⟩)
  · rcases he.underway.missing _ hq hin with e | ⟨o', hm', -, hlive', hdead⟩
    · exact .inl e
    · exact absurd hm' (ht.housed.once o o' (hlive ho) hlive' (fun e => ho (e ▸ hdead)) m hm)

end Cascade

/-! ## Every sequence -/

theorem closed_goes (s : State τ) (h : Nat) : Closed s h (Goes s h) := by
  intro o hpos hall gone hc
  exact hc o hpos fun q hq ho => (hall q hq ho).imp id fun ⟨o', hm, hg⟩ => ⟨o', hm, hg gone hc⟩

theorem takes_goes (hi : Inv sizeof s) (hh : Housed s) (hout : ¬ GoesWith s h h) (hsmall : ¬ TakesSmall sizeof s h) :
    Takes s h (Goes s h) sizeof where
  inv := hi
  housed := hh
  closed := closed_goes s h
  outside o ho hg hm := hout ⟨o, ho, hm, hg⟩
  large q hq hg hs := hsmall ⟨q, hq, hg, hs.1, hs.2⟩

theorem destroy_spec (hi : Inv sizeof s) (hh : Housed s) (hl : Legal sizeof s (.destroy h))
    (hok : ¬ TakesSmall sizeof s h) : ∃ t, destroy sizeof s h = some t ∧ Inv sizeof t ∧ Housed t := by
  obtain ⟨⟨p, hp⟩, hout⟩ := hl
  have ht := takes_goes hi hh (fun ⟨o, ho, hm, _⟩ => hout o ho hm) hok
  obtain ⟨t, hdt, he⟩ := destructor_spec ht s.handles.length s h (.start ht) (mem_names.mpr ⟨p, handle_mem hp⟩) (.inl rfl)
    (Nat.le_refl _)
  obtain ⟨h1, h2, h3⟩ := he.housed ht
  refine ⟨t, hdt, he.underway.inv, fun o ho m hm => ?_, h2, h3⟩
  refine (h1 o ho m hm).resolve_left ?_
  rintro rfl
  rw [he.underway.members] at hm
  exact hout o (fun hd => ho (he.deleted o hd)) hm

theorem assign_spec (hi : Inv sizeof s) (hh : Housed s) (hp : s.handle h = some p) (hq : s.handle g = some q)
    (hok : p.obj ≠ q.obj → ¬ TakesSmall sizeof s h ∧ ¬ GoesWith s h h ∧ ¬ GoesWith s h g) :
    ∃ t, assign sizeof s h g = some t ∧ Inv sizeof t ∧ Housed t := by
  unfold assign
  simp only [hp, hq, Option.bind_eq_bind, Option.bind_some]
  by_cases he : p.ptr = q.ptr
  · rw [if_pos he]
    exact ⟨s, rfl, hi, hh⟩
  · rw [if_neg he]
    obtain ⟨hsmall, hself, hother⟩ := hok fun e => he ((hi.ptr_eq_iff hp hq).mpr e)
    have ht := takes_goes hi hh hself hsmall
    obtain ⟨t, hdt, het⟩ := dropCount_ends ht (destructor_spec ht s.handles.length) (.start ht) (handle_mem hp) (.inl rfl)
      (Nat.le_succ _)
    have hgh : g ≠ h := by
      rintro rfl
      rw [hp] at hq
      exact he (congrArg Handle.ptr (Option.some.inj hq))
    -- `sp` is still there to be read
    have hq' : t.handle g = some q := handle_of_mem het.underway.inv
      (het.stays _ (handle_mem hq) (by simpa using hgh) fun o ho hg hm => hother ⟨o, ho, hm, hg⟩)
    have hunused : Unused t h none := by
      obtain ⟨h0, h1⟩ := hi.range _ (handle_mem hp)
      refine ⟨h0, h1, fun hm => ?_, nofun⟩
      obtain ⟨q', hq''⟩ := mem_names.mp hm
      exact (het.sub _ hq'').2 (List.mem_singleton.mpr rfl)
    obtain ⟨u, hsu, hui, ⟨q', hhand⟩, hmem, hdel⟩ := share_spec het.underway.inv hunused hq'
    rw [hdt]
    simp only [Option.bind_some, hq']
    obtain ⟨h1, h2, h3⟩ := het.housed ht
    rw [← hmem, ← hdel] at h1 h2 h3
    refine ⟨u, hsu, hui, fun o ho m hm => ?_, h2, h3⟩
    rw [hhand, List.map_cons, List.mem_cons]
    exact h1 o ho m hm

theorem apply_spec {op : Op τ} (hi : Inv sizeof s) (hh : Housed s) (hl : Legal sizeof s op) (hok : StepOk sizeof s op) :
    ∃ t, apply sizeof s op = some t ∧ Inv sizeof t ∧ Housed t := by
  cases op with
  | new h within ty p c =>
    obtain ⟨t, ht, hti, ha⟩ := newHandle_spec hi hl
    exact ⟨_, congrArg (Option.map _) ht, hti.place h within, ha.housed hl.1 hh⟩
  | makeShared h within ty buf =>
    obtain ⟨t, ht, hti, ha⟩ := makeShared_spec hi hl
    exact ⟨_, congrArg (Option.map _) ht, hti.place h within, ha.housed hl.1 hh⟩
  | copy h within g =>
    obtain ⟨hu, q, hq⟩ := hl
    obtain ⟨t, ht, hti, ha⟩ := share_spec hi hu hq
    refine ⟨t.place h within, ?_, hti.place h within, ha.housed hu hh⟩
    show (copy s h g).map _ = _
    unfold copy
    rw [hq]
    exact congrArg (Option.map _) ht
  | assign h g =>
    obtain ⟨p, q, hp, hq, -⟩ := hl
    exact assign_spec hi hh hp hq (hok p q hp hq)
  | destroy h => exact destroy_spec hi hh hl hok

theorem sound_of_meets (hi : Inv sizeof s) (hh : Housed s) (ops : List (Op τ)) (hm : Meets sizeof s ops) :
    Sound sizeof s ops := by
  induction ops generalizing s with
  | nil => exact hi.correct
  | cons op ops ih =>
    refine ⟨hi.correct, fun hl => ?_⟩
    obtain ⟨hok, hrest⟩ := hm hl
    obtain ⟨t, ht, hti, hth⟩ := apply_spec hi hh hl hok
    exact ⟨t, ht, ih hti hth (hrest t ht)⟩

/-- Counts, deletions and frees are right in every state of a sequence that never takes an object
    smaller than a counter that `make_shared` made, and never assigns to or from a handle that
    goes with the old value. -/
theorem shared_ptr_sound (sizeof : τ → ℕ+) (ops : List (Op τ)) (h : Meets sizeof (init : State τ) ops) :
    Sound sizeof (init : State τ) ops :=
  sound_of_meets init_inv init_housed ops h

/-- Objects of `new` are never smaller than they should be. -/
theorem not_takesSmall (hn : (s.handles.all fun q => !q.2.inside) = true) : ¬ TakesSmall sizeof s h := by
  rintro ⟨q, hq, -, hins, -⟩
  have hq := List.all_eq_true.mp hn q hq
  rw [hins] at hq
  cases hq

/-- Two nodes: `head` moves to the second, which takes the first with it, its member included; then
    the second goes with its last handle. -/
def twoNodes : List (Op Unit) :=
  [.new 0x100 none () 0x1000 0x2000, .new 0x1008 (some 0) () 0x3000 0x4000, .copy 0x200 none 0x1008, .assign 0x100 0x200,
    .destroy 0x200, .destroy 0x100]

theorem shared_ptr_sound_two_nodes : Sound (fun _ : Unit => 24) init twoNodes := by
  refine shared_ptr_sound (fun _ => 24) twoNodes fun _ => ⟨trivial, fun s1 h1 _ => ⟨trivial, fun s2 h2 _ =>
    ⟨trivial, fun s3 h3 _ => ⟨fun p q _ _ _ => ⟨?_, ?_, ?_⟩, fun s4 h4 _ => ⟨?_, fun s5 h5 _ => ⟨?_, fun _ _ => trivial⟩⟩⟩⟩⟩⟩
  all_goals
    obtain rfl := Option.some.inj h1
    obtain rfl := Option.some.inj h2
    obtain rfl := Option.some.inj h3
  · exact not_takesSmall (by decide)
  · rintro ⟨o, -, hm, -⟩
    have hm : 0x100 ∈ Function.update (fun _ => []) 0 [0x1008] o := hm
    by_cases e : o = 0
    · rw [e] at hm
      revert hm
      decide
    · rw [Function.update_of_ne e] at hm
      cases hm
  · rintro ⟨o, -, hm, -⟩
    have hm : 0x200 ∈ Function.update (fun _ => []) 0 [0x1008] o := hm
    by_cases e : o = 0
    · rw [e] at hm
      revert hm
      decide
    · rw [Function.update_of_ne e] at hm
      cases hm
  · refine not_takesSmall (Option.some.inj ?_)
    rw [← Option.map_some (f := fun s : State Unit => s.handles.all fun q => !q.2.inside), ← h4]
    decide
  · refine not_takesSmall (Option.some.inj ?_)
    rw [← Option.map_some (f := fun s : State Unit => s.handles.all fun q => !q.2.inside), ← h5,
      ← Option.bind_some (f := fun s => apply (fun _ => 24) s (.destroy 0x200)), ← h4]
    decide

/-- `make_shared<char>` at 0x1000: the handle's destructor frees 0x1008. -/
theorem small_shared_frees_its_middle :
    ¬ ∀ (sizeof : Unit → ℕ+) (ops : List (Op Unit)), Sound sizeof init ops := by
  intro h
  have hs := h (fun _ => 1) [.makeShared 0x100 none () 0x1000, .destroy 0x100]
  have hnone : ((apply (fun _ : Unit => 1) init (.makeShared 0x100 none () 0x1000)).bind fun s =>
      apply (fun _ => 1) s (.destroy 0x100)).isNone = true := by decide
  obtain ⟨t, ht, -, hrest⟩ := hs.2 ⟨⟨by decide, by decide, nofun, nofun⟩, by decide⟩
  have hlegal : Legal (fun _ : Unit => 1) t (.destroy 0x100) := by
    obtain rfl := Option.some.inj ht
    exact ⟨⟨_, rfl⟩, fun _ _ => nofun⟩
  obtain ⟨u, hu, -⟩ := hrest hlegal
  rw [ht, Option.bind_some, hu] at hnone
  cases hnone

end Rodvin.Libc.SharedPtr
