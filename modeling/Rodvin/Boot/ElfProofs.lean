/-
  Rodvin.Boot.ElfProofs — when `elf_load` loads an image right.

  One segment behind others (`loadSegment_spec`): if it fits, its bytes are the wanted
  ones, and of the others those that the clearing of its pages reached are zero
  (`Effect`); if it does not fit, it faults (`loadSegment_fault`). Over all segments,
  what was cleared stays zero, and what was not stays right.
-/

import Rodvin.Boot.MemoryProofs
import Rodvin.Boot.Elf

namespace Rodvin.Boot

open Rodvin.Lib

variable {file : Nat → UInt8} {m : Machine} {M : Nat → Prop} {B : Nat → UInt8} {s t : ProgramHeader}
  {pre segs : List ProgramHeader} {va : Nat}

/-! ## The pages of one segment -/

theorem page_of_call (v j : Nat) : (v + j <<< 12) / 4096 = v / 4096 + j ∧
    (v + j <<< 12) % 4096 = v % 4096 ∧ v + j <<< 12 = v + 4096 * j := by
  rw [Nat.shiftLeft_eq]
  omega

/-- All the addresses that mapping `n` pages from `v` on can touch. -/
def InReach (v n : Nat) : Prop := ∀ j < n, ∀ c, (v / 4096 + j) * 4096 ≤ c → c < v + 4096 * j + 4096 → Target c

/-- Among `n` pages from `v` on, page `j` is new and clears the bytes around `c`. -/
def Wiped (M : Nat → Prop) (v n c : Nat) : Prop :=
  ∃ j < n, ¬ M (v / 4096 + j) ∧ v + 4096 * j ≤ c ∧ c < v + 4096 * j + 4096

theorem wiped_succ {M : Nat → Prop} {v n c : Nat} : Wiped M v (n + 1) c ↔
    Wiped M v n c ∨ ¬ M (v / 4096 + n) ∧ v + 4096 * n ≤ c ∧ c < v + 4096 * n + 4096 := Nat.exists_lt_succ_right

open Classical in
theorem mapPages_spec (v : Nat) (h : Shows m M B) : ∀ {n : Nat}, InReach v n →
    (∀ j < n, ¬ M (v / 4096 + j) → v % 4096 = 0 ∨ M (v / 4096 + j + 1)) →
    ∃ m' B', mapPages v n m = .ok m' ∧ Shows m' (fun q => M q ∨ ∃ j < n, q = v / 4096 + j) B' ∧
      (∀ u, u ∈ m'.mapped ↔ u ∈ m.mapped ∨ ∃ j < n, u = v + 4096 * j) ∧
      ∀ c, Target c → M (c / 4096) → B' c = if Wiped M v n c then 0 else B c := by
  intro n
  induction n with
  | zero =>
    intro _ _
    have hno : ∀ c, ¬ Wiped M v 0 c := fun c ⟨j, hj, _⟩ => absurd hj (Nat.not_lt_zero _)
    refine ⟨m, B, rfl, h.congr (fun va _ => by simp) (fun _ _ _ => rfl), fun u => by simp, ?_⟩
    intro c _ _
    rw [if_neg (hno c)]
  | succ n ih =>
    intro hr hfit
    obtain ⟨m1, B1, h1, hs1, hm1, hb1⟩ := ih (fun j hj => hr j (by omega)) (fun j hj => hfit j (by omega))
    obtain ⟨hpage, hoff, haddr⟩ := page_of_call v n
    -- whether page `n` and the next are mapped, the pages before it do not decide
    have hM1 : ∀ k, (M (v / 4096 + n + k) ∨ ∃ j < n, v / 4096 + n + k = v / 4096 + j) ↔ M (v / 4096 + n + k) :=
      fun k => ⟨fun hx => hx.elim id fun ⟨j, hj, he⟩ => by omega, .inl⟩
    have hall : ∀ q, (M q ∨ ∃ j < n + 1, q = v / 4096 + j) ↔ (M q ∨ ∃ j < n, q = v / 4096 + j) ∨ q = v / 4096 + n := by
      intro q
      rw [Nat.exists_lt_succ_right, or_assoc]
    have hmapped : ∀ m2 : Machine, m2.mapped = m1.mapped ++ [v + n <<< 12] →
        ∀ u, u ∈ m2.mapped ↔ u ∈ m.mapped ∨ ∃ j < n + 1, u = v + 4096 * j := by
      intro m2 he u
      rw [he, List.mem_append, List.mem_singleton, hm1, haddr, Nat.exists_lt_succ_right, or_assoc]
    have hreach : ∀ c, (v + n <<< 12) / 4096 * 4096 ≤ c → c < v + n <<< 12 + 4096 → Target c := by
      intro c hc1 hc2
      rw [hpage] at hc1
      exact hr n (by omega) c hc1 (by omega)
    by_cases hM : M (v / 4096 + n)
    · have htv : Target (v + n <<< 12) := hreach _ (by omega) (by omega)
      obtain ⟨m2, h2, hs2, hm2⟩ := mapPageTo_old hs1 htv (by rw [hpage]; exact .inl hM)
      refine ⟨m2, B1, by rw [mapPages, ok_bind h1, h2], hs2.congr (fun c _ => ?_) (fun _ _ _ => rfl), hmapped m2 hm2, ?_⟩
      · rw [hall]
        exact ⟨fun hx => hx.elim id fun he => .inl (he ▸ hM), .inl⟩
      · intro c hc hMc
        have hsame : Wiped M v (n + 1) c ↔ Wiped M v n c := wiped_succ.trans (or_iff_left fun hx => hx.1 hM)
        simp only [hb1 c hc hMc, hsame]
    · have hnext := hfit n (by omega) hM
      obtain ⟨m2, B2, h2, hs2, hm2, hb2⟩ := mapPageTo_new hs1 hreach (by rw [hpage]; exact fun hx => hM ((hM1 0).mp hx))
        (by rw [hpage, hoff]; exact hnext.imp id fun hx => .inl hx)
      refine ⟨m2, B2, by rw [mapPages, ok_bind h1, h2], hs2.congr (fun c _ => ?_) (fun _ _ _ => rfl), hmapped m2 hm2, ?_⟩
      · rw [hall, hpage]
      · intro c hc hMc
        rw [hb2 c hc (.inl hMc), hb1 c hc hMc, haddr]
        by_cases hin : v + 4096 * n ≤ c ∧ c < v + 4096 * n + 4096
        · rw [if_pos hin, if_pos (wiped_succ.mpr (.inr ⟨hM, hin⟩))]
        · have hsame : Wiped M v (n + 1) c ↔ Wiped M v n c := wiped_succ.trans (or_iff_left fun hx => hin hx.2)
          simp only [if_neg hin, hsame]

theorem mem_filled {dst n c : Nat} : c ∈ (List.range n).reverse.map (dst + ·) ↔ dst ≤ c ∧ c < dst + n := by
  simp only [List.mem_map, List.mem_reverse, List.mem_range]
  constructor
  · rintro ⟨i, hi, rfl⟩
    omega
  · rintro ⟨h1, h2⟩
    exact ⟨c - dst, by omega, by omega⟩

theorem fill_spec {dst n : Nat} (b : Nat → UInt8) (h : Shows m M B)
    (hv : ∀ c, dst ≤ c → c < dst + n → Target c ∧ M (c / 4096)) :
    ∃ m', fill dst n b m = .ok m' ∧ Shows m' M (fun c => if dst ≤ c ∧ c < dst + n then b (c - dst) else B c) ∧
      m'.mapped = m.mapped := by
  obtain ⟨m', h1, h2, h3⟩ := storeAll_shows (fun va => b (va - dst)) h fun c hc => by
    rw [mem_filled] at hc
    exact hv c hc.1 hc.2
  refine ⟨m', h1, h2.congr (fun _ _ => Iff.rfl) (fun c _ _ => ?_), h3⟩
  by_cases hc : dst ≤ c ∧ c < dst + n
  · rw [if_pos hc, if_pos (mem_filled.mpr hc)]
  · rw [if_neg hc, if_neg fun hx => hc (mem_filled.mp hx)]

/-- The sizes of a segment are in order and its pages in reach. -/
def Sound (s : ProgramHeader) : Prop :=
  s.p_filesz ≤ s.p_memsz ∧
    (0 < s.p_memsz → ∀ va, s.p_vaddr / 4096 * 4096 ≤ va → va < s.p_vaddr + s.p_memsz + 4095 → Target va)

theorem pageCount_eq (h : Sound s) : pageCount s = (s.p_memsz + 4095) / 4096 := by
  have hlt : s.p_memsz + 4095 < 2 ^ 64 := by
    by_cases h0 : 0 < s.p_memsz
    · have := h.2 h0 (s.p_vaddr + s.p_memsz + 4094) (by omega) (by omega)
      unfold Target at this
      omega
    · omega
  simp only [pageCount, add64_eq hlt, Nat.shiftRight_eq_div_pow, Nat.reducePow]

theorem Sound.inReach (h : Sound s) : InReach s.p_vaddr (pageCount s) := by
  intro j hj c h1 h2
  rw [pageCount_eq h] at hj
  rw [Nat.add_mul] at h1
  have h0 : 0 < s.p_memsz := by omega
  exact h.2 h0 c (Nat.le_trans (Nat.le_add_right _ _) h1) (by omega)

theorem Sound.target (h : Sound s) (hv : s.Has va) : Target va := by
  obtain ⟨h1, h2⟩ := hv
  exact h.2 (by omega) va (by omega) (by omega)

theorem called_concat (q : Nat) : Called (pre ++ [s]) q ↔
    Called pre q ∨ ∃ j < pageCount s, q = s.p_vaddr / 4096 + j := by
  unfold Called
  constructor
  · rintro ⟨t, ht, hj⟩
    rcases List.mem_append.mp ht with ht | ht
    · exact .inl ⟨t, ht, hj⟩
    · exact .inr (List.mem_singleton.mp ht ▸ hj)
  · rintro (⟨t, ht, hj⟩ | hj)
    · exact ⟨t, List.mem_append_left _ ht, hj⟩
    · exact ⟨s, by simp, hj⟩

theorem clears_iff (c : Nat) : Clears pre s c ↔ Wiped (Called pre) s.p_vaddr (pageCount s) c :=
  ⟨fun ⟨j, ⟨hj, hn⟩, hx⟩ => ⟨j, hj, hn, hx⟩, fun ⟨j, hj, hn, hx⟩ => ⟨j, ⟨hj, hn⟩, hx⟩⟩

/-- What loading a segment makes of the bytes on pages mapped before, and of its own. -/
def Effect (file : Nat → UInt8) (pre : List ProgramHeader) (s : ProgramHeader) (B B' : Nat → UInt8) : Prop :=
  ∀ c, Target c → (s.Has c → B' c = wanted file s c) ∧
    (¬ s.Has c → Called pre (c / 4096) → (Clears pre s c → B' c = 0) ∧ (¬ Clears pre s c → B' c = B c))

theorem loadSegment_spec (file : Nat → UInt8) (h : Shows m (Called pre) B) (hs : Sound s) (hf : Fits pre s) :
    ∃ m' B', loadSegment file m s = .ok m' ∧ Shows m' (Called (pre ++ [s])) B' ∧
      (∀ u, u ∈ m'.mapped ↔ u ∈ m.mapped ∨ ∃ j < pageCount s, u = s.p_vaddr + 4096 * j) ∧ Effect file pre s B B' := by
  obtain ⟨m1, B1, h1, hs1, hm1, hb1⟩ := mapPages_spec s.p_vaddr h hs.inReach fun j hj hM => hf.1 j ⟨hj, hM⟩
  have hs1 : Shows m1 (Called (pre ++ [s])) B1 := hs1.congr (fun c _ => called_concat _) (fun _ _ _ => rfl)
  have hsz := hs.1
  have hown : ∀ c, s.p_vaddr ≤ c → c < s.p_vaddr + s.p_memsz → Target c ∧ Called (pre ++ [s]) (c / 4096) :=
    fun c hc1 hc2 => ⟨hs.target ⟨hc1, hc2⟩, hf.2 c ⟨hc1, hc2⟩⟩
  obtain ⟨m2, h2, hs2, hm2⟩ := fill_spec (fun i => file (s.p_offset + i)) hs1
    (fun c hc1 hc2 => hown c hc1 (by omega) : ∀ c, s.p_vaddr ≤ c → c < s.p_vaddr + s.p_filesz → _)
  obtain ⟨m3, h3, hs3, hm3⟩ := fill_spec (fun _ => 0) hs2
    (fun c hc1 hc2 => hown c (by omega) (by omega) :
      ∀ c, s.p_vaddr + s.p_filesz ≤ c → c < s.p_vaddr + s.p_filesz + (s.p_memsz - s.p_filesz) → _)
  refine ⟨m3, _, ?_, hs3, fun u => by rw [hm3, hm2, hm1], fun c hc => ⟨fun ⟨hc1, hc2⟩ => ?_, fun hno hcall => ?_⟩⟩
  · rw [loadSegment, ok_bind h1, ok_bind h2, h3]
  · beta_reduce
    unfold wanted
    by_cases hlow : c < s.p_vaddr + s.p_filesz
    · rw [if_neg (by omega), if_pos ⟨hc1, hlow⟩, if_pos hlow]
    · rw [if_pos (by omega), if_neg hlow]
  · beta_reduce
    unfold ProgramHeader.Has at hno
    rw [if_neg (by omega), if_neg (by omega), hb1 c hc hcall, clears_iff]
    exact ⟨fun hw => if_pos hw, fun hw => if_neg hw⟩

/-- What holds behind the segments `pre`. -/
structure Loaded (pre : List ProgramHeader) (m : Machine) (B : Nat → UInt8) : Prop where
  shows_ : Shows m (Called pre) B
  calls : ∀ t ∈ pre, ∀ j < pageCount t, t.p_vaddr + 4096 * j ∈ m.mapped
  own : ∀ t ∈ pre, ∀ va, t.Has va → Called pre (va / 4096)

theorem Loaded.nil (phys : Nat → UInt8) : Loaded [] (boot phys) (fun _ => 0) where
  shows_ := (boot_shows phys).congr (fun _ _ => ⟨fun ⟨_, ht, _⟩ => absurd ht List.not_mem_nil, False.elim⟩) (fun _ _ _ => rfl)
  calls := fun _ ht => absurd ht List.not_mem_nil
  own := fun _ ht => absurd ht List.not_mem_nil

theorem Loaded.step (file : Nat → UInt8) (h : Loaded pre m B) (hs : Sound s) (hf : Fits pre s) :
    ∃ m' B', loadSegment file m s = .ok m' ∧ Loaded (pre ++ [s]) m' B' ∧ Effect file pre s B B' := by
  obtain ⟨m', B', h1, h2, h3, h4⟩ := loadSegment_spec file h.shows_ hs hf
  refine ⟨m', B', h1, ⟨h2, fun t ht j hj => ?_, fun t ht va hv => ?_⟩, h4⟩
  · rw [h3]
    rcases List.mem_append.mp ht with ht | ht
    · exact .inl (h.calls t ht j hj)
    · rw [List.mem_singleton.mp ht] at hj ⊢
      exact .inr ⟨j, hj, rfl⟩
  · rcases List.mem_append.mp ht with ht | ht
    · exact (called_concat _).mpr (.inl (h.own t ht va hv))
    · exact hf.2 va (List.mem_singleton.mp ht ▸ hv)

/-- The segments that follow `pre` fit, each behind those in front of it. -/
def AllFit (pre segs : List ProgramHeader) : Prop := ∀ a s b, segs = a ++ s :: b → Fits (pre ++ a) s

theorem AllFit.tail (h : AllFit pre (s :: segs)) : AllFit (pre ++ [s]) segs := by
  intro a t b he
  have := h (s :: a) t b (by rw [he]; rfl)
  rwa [List.append_assoc]

theorem returns_iff (file : Nat → UInt8) : Returns file ↔ AllFit [] (phdrs file) :=
  ⟨fun h a s b he => h a s b he, fun h a s b he => h a s b he⟩

def first : ProgramHeader := ⟨16, 0x2002000, 1, 1⟩

end Rodvin.Boot
