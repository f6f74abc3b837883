/-
  Rodvin.Kernel.PageAlloc — the physical page allocator (`kernel/src/common/mem.cpp`:
  `malloc_add_region`, `get_free_page`; `kernel/src/x8664/platform.cpp`: the e820 loop
  of `platform_setup`).

  The page list is a linked list of runs `{address, pagecount}`. `malloc_add_region`
  pushes one run per region; `get_free_page` takes the first page of the first run and
  drops the run when its count reaches zero.

  `malloc_add_region` rounds the start up but subtracts a whole page from the length
  when the start is aligned already, and it pushes runs of no page at all. A region
  whose start is not aligned and which holds a whole page is entered exactly
  (`pages_mallocAddRegion`). Under that condition the pages handed out and the pages
  listed are at every moment the whole pages of the regions, each once (`Inv`).
-/

import Rodvin.Lib.Runs
import Rodvin.Lib.Words

namespace Rodvin.Kernel.PageAlloc

open Rodvin.Lib

/-- `struct free_page_list`, without the link. -/
structure FreePageList where
  address : Nat
  pagecount : Nat
  deriving DecidableEq, Repr

/-- `get_free_page` on the list at `head`; `none` when `head` is `NULL`. -/
def getFreePage : List FreePageList → Option (Nat × List FreePageList)
  | [] => none
  | c :: next =>
    let page := c.address
    let c : FreePageList := ⟨add64 c.address 4096, sub64 c.pagecount 1⟩
    if c.pagecount = 0 then some (page, next) else some (page, c :: next)

def mallocAddRegion (start length : Nat) (head : List FreePageList) : List FreePageList :=
  let length := sub64 length (4096 - (start &&& 0xFFF))
  let start := add64 start 4095 &&& 0xFFFFFFFFFFFFF000
  ⟨start, length / 4096⟩ :: head

structure E820map where
  offset : Nat
  size : Nat
  type : Nat

/-- The fields of an entry are words, and its range ends in the address space. -/
def E820map.Fits (e : E820map) : Prop := e.size < 2 ^ 64 ∧ e.offset + e.size ≤ 2 ^ 64

structure St where
  head : List FreePageList
  regions : List (Nat × Nat)
  returned : List Nat
  deriving DecidableEq

def init : St := ⟨[], [], []⟩

inductive Ev where
  | addRegion (start length : Nat)
  | getPage
  deriving Repr

def apply (s : St) : Ev → Option St
  | .addRegion start length =>
    some { s with head := mallocAddRegion start length s.head, regions := s.regions ++ [(start, length)] }
  | .getPage => (getFreePage s.head).map fun r => { s with head := r.2, returned := s.returned ++ [r.1] }

/-- Regions `(start, length)` with no address in common. -/
def Disjoint (r q : Nat × Nat) : Prop := r.1 + r.2 ≤ q.1 ∨ q.1 + q.2 ≤ r.1

/-- A region that ends in the address space and is disjoint from the regions before. -/
def Valid (s : St) : Ev → Prop
  | .addRegion start length => start + length ≤ 2 ^ 64 ∧ ∀ r ∈ s.regions, Disjoint r (start, length)
  | .getPage => True

def Step (s : St) (e : Ev) (t : St) : Prop := Valid s e ∧ apply s e = some t

/-- `p` is a page that lies inside the region. -/
def WholePage (r : Nat × Nat) (p : Nat) : Prop := p % 4096 = 0 ∧ r.1 ≤ p ∧ p + 4096 ≤ r.1 + r.2

structure Correct (s : St) : Prop where
  inside : ∀ p ∈ s.returned, ∃ r ∈ s.regions, WholePage r p
  once : s.returned.Nodup
  complete : s.head = [] → ∀ r ∈ s.regions, ∀ p, WholePage r p → p ∈ s.returned

/-- The start of an added region is not page-aligned, and the region holds a whole page. -/
def StepOk : Ev → Prop
  | .addRegion start length => start % 4096 ≠ 0 ∧ start / 4096 * 4096 + 8192 ≤ start + length
  | .getPage => True

def OkStep (s : St) (e : Ev) (t : St) : Prop := StepOk e ∧ Step s e t

instance (s : St) (e : Ev) : Decidable (Valid s e) :=
  match e with
  | .addRegion _ _ => inferInstanceAs (Decidable (_ ∧ ∀ r ∈ s.regions, _ ∨ _))
  | .getPage => isTrue trivial

instance (e : Ev) : Decidable (StepOk e) :=
  match e with
  | .addRegion _ _ => inferInstanceAs (Decidable (_ ∧ _))
  | .getPage => isTrue trivial

/-! ## The pages of a run -/

def pages (c : FreePageList) : List Nat := (List.range c.pagecount).map fun i => c.address + 4096 * i

theorem mem_pages {c : FreePageList} {p : Nat} :
    p ∈ pages c ↔ ∃ i < c.pagecount, c.address + 4096 * i = p := by
  simp [pages]

theorem pages_nodup (c : FreePageList) : (pages c).Nodup :=
  List.Nodup.map (fun i j h => by omega) List.nodup_range

theorem pages_succ (a n : Nat) : pages ⟨a, n + 1⟩ = a :: pages ⟨a + 4096, n⟩ := by
  simp only [pages, List.range_succ_eq_map, List.map_cons, List.map_map, Nat.mul_zero, Nat.add_zero, List.cons.injEq,
    true_and]
  refine List.map_congr_left fun i _ => ?_
  simp only [Function.comp_apply]; omega

/-- A run of pages that ends in the address space. -/
def RunOk (c : FreePageList) : Prop := 0 < c.pagecount ∧ c.address % 4096 = 0 ∧ c.address + 4096 * c.pagecount ≤ 2 ^ 64

theorem mallocAddRegion_eq {start length : Nat} (h : StepOk (.addRegion start length)) (hw : start + length ≤ 2 ^ 64)
    (head : List FreePageList) : mallocAddRegion start length head =
      ⟨(start + 4095) / 4096 * 4096, (length - (4096 - start % 4096)) / 4096⟩ :: head := by
  obtain ⟨hs, hl⟩ := h
  have hlow : start &&& 0xFFF = start % 4096 := Nat.and_two_pow_sub_one_eq_mod start 12
  have hadd : add64 start 4095 = start + 4095 := add64_eq (by omega)
  have hsub : sub64 length (4096 - start % 4096) = length - (4096 - start % 4096) := sub64_eq (by omega) (by omega)
  have halign : (start + 4095) &&& 0xFFFFFFFFFFFFF000 = (start + 4095) / 4096 * 4096 := by
    simpa using and_align (k := 12) (n := 64) (x := start + 4095) (by decide) (by omega)
  simp only [mallocAddRegion, hlow, hadd, halign, hsub]

theorem round_up {start length : Nat} (h : StepOk (.addRegion start length)) :
    (start + 4095) / 4096 * 4096 = start + (4096 - start % 4096) ∧ 4096 - start % 4096 < 4096 ∧
      4096 - start % 4096 + 4096 ≤ length := by
  obtain ⟨hs, hl⟩ := h
  refine ⟨?_, by omega, ?_⟩
  · clear hl; omega
  · clear hs; omega

/-- A region that starts off a page boundary and holds a whole page: its run is its whole
    pages. -/
theorem mallocAddRegion_ok {start length : Nat} (h : StepOk (.addRegion start length)) (hw : start + length ≤ 2 ^ 64)
    (head : List FreePageList) :
    ∃ c, mallocAddRegion start length head = c :: head ∧ RunOk c ∧ ∀ p, p ∈ pages c ↔ WholePage (start, length) p := by
  obtain ⟨hup, hlt, hlen⟩ := round_up h
  have haligned : (start + 4095) / 4096 * 4096 % 4096 = 0 := Nat.mul_mod_left _ _
  refine ⟨_, mallocAddRegion_eq h hw head, ?_, fun p => ?_⟩
  · have hfits := Nat.mul_div_le (length - (4096 - start % 4096)) 4096
    refine ⟨Nat.div_pos (by omega) (by decide), haligned, Nat.le_trans ?_ hw⟩
    simp only [hup]
    generalize 4096 - start % 4096 = x at hlt hlen hfits
    omega
  · simp only [mem_pages, WholePage]
    rw [hup] at haligned ⊢
    generalize 4096 - start % 4096 = x at hlt hlen haligned
    constructor
    · rintro ⟨i, hi, rfl⟩
      omega
    · rintro ⟨h1, h2, h3⟩
      exact ⟨(p - (start + x)) / 4096, by omega, by omega⟩

theorem getFreePage_ok {c : FreePageList} (h : RunOk c) (next : List FreePageList) :
    ∃ head, getFreePage (c :: next) = some (c.address, head) ∧
      pages c ++ next.flatMap pages = c.address :: head.flatMap pages ∧ ∀ b ∈ head, b ∈ next ∨ RunOk b := by
  obtain ⟨a, n⟩ := c
  obtain ⟨hn, ha, he⟩ := h
  simp only at hn ha he
  obtain ⟨k, rfl⟩ := Nat.exists_eq_succ_of_ne_zero (Nat.ne_of_gt hn)
  have hsub : sub64 (k + 1) 1 = k := sub64_eq (by omega) (by omega)
  simp only [getFreePage, Nat.succ_eq_add_one, hsub]
  by_cases hk : k = 0
  · subst hk
    refine ⟨next, by simp, by simp [pages], fun b hb => Or.inl hb⟩
  · have hadd : add64 a 4096 = a + 4096 := add64_eq (by omega)
    refine ⟨⟨a + 4096, k⟩ :: next, by rw [if_neg hk, hadd], by simp [pages_succ], fun b hb => ?_⟩
    rcases List.mem_cons.mp hb with rfl | hb
    · exact Or.inr ⟨by simp only; omega, by simp only; omega, by simp only; omega⟩
    · exact Or.inl hb

/-! ## The invariant -/

/-- The pages handed out and the pages listed are the whole pages of the regions, each
    once. -/
structure Inv (s : St) : Prop where
  runs : ∀ c ∈ s.head, RunOk c
  once : (s.returned ++ s.head.flatMap pages).Nodup
  exact : ∀ p, p ∈ s.returned ++ s.head.flatMap pages ↔ ∃ r ∈ s.regions, WholePage r p

theorem init_inv : Inv init := by
  refine ⟨?_, ?_, ?_⟩ <;> simp [init]

theorem wholePage_disjoint {r q : Nat × Nat} {p : Nat} (h : Disjoint r q) (hr : WholePage r p) : ¬ WholePage q p := by
  rintro ⟨-, h1, h2⟩
  obtain ⟨-, h3, h4⟩ := hr
  rcases h with h | h <;> omega

theorem step_inv {s t : St} {e : Ev} (hi : Inv s) (h : OkStep s e t) : Inv t := by
  obtain ⟨hok, hv, ha⟩ := h
  cases e with
  | addRegion start length =>
    obtain ⟨hw, hd⟩ := hv
    obtain ⟨c, hc, hrun, hp⟩ := mallocAddRegion_ok hok hw s.head
    obtain rfl := Option.some.inj ha
    refine ⟨?_, ?_, fun p => ?_⟩
    · simp only [hc]
      intro b hb
      rcases List.mem_cons.mp hb with rfl | hb
      · exact hrun
      · exact hi.runs b hb
    · simp only [hc, List.flatMap_cons]
      have hperm : (s.returned ++ (pages c ++ s.head.flatMap pages)).Perm
          (pages c ++ (s.returned ++ s.head.flatMap pages)) := by
        rw [← List.append_assoc, ← List.append_assoc]; exact List.perm_append_comm.append_right _
      rw [hperm.nodup_iff, List.nodup_append]
      refine ⟨pages_nodup c, hi.once, fun p hpc q hq e => ?_⟩
      subst e
      obtain ⟨r, hr, hwr⟩ := (hi.exact p).mp hq
      exact wholePage_disjoint (hd r hr) hwr ((hp p).mp hpc)
    · have := hi.exact p
      have := hp p
      simp only [hc, List.flatMap_cons, List.mem_append, List.mem_singleton] at *
      grind
  | getPage =>
    cases hh : s.head with
    | nil => simp [apply, hh, getFreePage] at ha
    | cons c next =>
      obtain ⟨head, h1, h2, h3⟩ := getFreePage_ok (hi.runs c (by simp [hh])) next
      simp only [apply, hh, h1, Option.map_some, Option.some.injEq] at ha
      subst ha
      have hlist : s.returned ++ [c.address] ++ head.flatMap pages = s.returned ++ s.head.flatMap pages := by
        rw [hh, List.flatMap_cons, h2, List.append_assoc]; rfl
      refine ⟨fun b hb => ?_, hlist ▸ hi.once, fun p => hlist ▸ hi.exact p⟩
      rcases h3 b hb with hb | hb
      · exact hi.runs b (by simp [hh, hb])
      · exact hb

theorem correct_of_inv {s : St} (hi : Inv s) : Correct s := by
  refine ⟨fun p hp => (hi.exact p).mp (List.mem_append_left _ hp), hi.once.of_append_left, fun he r hr p hp => ?_⟩
  simpa [he] using (hi.exact p).mpr ⟨r, hr, hp⟩

/-! ## The regions of `platform_setup` -/

/-- In every run whose added regions meet `StepOk`, the pages returned so far are distinct
    whole pages of the regions, and all of them once the list is empty. -/
theorem pages_correct {es : List Ev} {s : St} (h : Run OkStep init es s) : Correct s :=
  correct_of_inv (h.invariant (fun _ _ _ => step_inv) init_inv)

/-- A region of two pages off a page boundary, and one page taken from it. -/
theorem pages_correct_unaligned : ∃ s, Run OkStep init [.addRegion 0x2400800 0x2800, .getPage] s ∧
    s.returned = [0x2401000] ∧ Correct s := by
  have e : ([Ev.addRegion 0x2400800 0x2800, .getPage].foldlM
      (guarded (fun s e => StepOk e ∧ Valid s e) apply) init).map St.returned = some [0x2401000] := by decide +kernel
  obtain ⟨s, hs, hd⟩ := Option.map_eq_some_iff.mp e
  have h := run_of_foldlM OkStep (fun s e t h => by
    obtain ⟨⟨h1, h2⟩, h3⟩ := guarded_eq_some.mp h
    exact ⟨h1, h2, h3⟩) _ _ hs
  exact ⟨s, h, hd, pages_correct h⟩

/-- An aligned region of two pages: the list is empty after the first. -/
theorem aligned_region_loses_a_page : ¬ ∀ es s, Run Step init es s → Correct s := by
  intro h
  have e : [Ev.addRegion 0x2400000 0x2000, .getPage].foldlM (guarded Valid apply) init =
      some ⟨[], [(0x2400000, 0x2000)], [0x2400000]⟩ := by decide +kernel
  have hc := h _ _ (run_of_foldlM Step (fun _ _ _ => guarded_eq_some.mp) _ _ e)
  have hm := hc.complete rfl (0x2400000, 0x2000) (by simp) 0x2401000 ⟨by decide, by decide, by decide⟩
  simp at hm

end Rodvin.Kernel.PageAlloc
