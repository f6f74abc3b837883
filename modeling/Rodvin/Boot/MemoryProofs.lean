/-
  Rodvin.Boot.MemoryProofs — what `map_page_to` does to the address space.

  Seen from above, the memory that an image is loaded to is a set of mapped pages and a
  byte for each address on them. `Shows m M B` says that the machine `m` is such a space.
  A store and a run of stores change the bytes they are to (`storeAll_shows`); a call of
  `map_page_to` for a page that is mapped changes nothing, for another it maps the page
  and clears 4096 bytes from the address on (`mapPageTo_new`), which has to be mapped too
  (`mapPageTo_fault`).
-/

import Rodvin.Boot.Memory

namespace Rodvin.Boot

open Rodvin.Lib

/-! ## Indices -/

theorem index_eq (l va : Nat) : index l va = va / 2 ^ (12 + 9 * l) % 2 ^ (9 * (4 - l)) := by
  unfold index
  rw [Nat.shiftRight_eq_div_pow, Nat.and_two_pow_sub_one_eq_mod]

theorem index_succ {l : Nat} (hl : l < 3) (va : Nat) : index (l + 1) va = index l va / 512 := by
  rw [index_eq, index_eq]
  match l, hl with
  | 0, _ => show va / 2097152 % 134217728 = va / 4096 % 68719476736 / 512; omega
  | 1, _ => show va / 1073741824 % 262144 = va / 2097152 % 134217728 / 512; omega
  | 2, _ => show va / 549755813888 % 512 = va / 1073741824 % 262144 / 512; omega

theorem index_zero (va : Nat) : index 0 va = va / 4096 % 2 ^ 36 := index_eq 0 va

theorem Target.canonical {va : Nat} (h : Target va) : Canonical va := by
  unfold Target at h
  unfold Canonical
  omega

/-- Different pages of the address space have different entries. -/
theorem Target.page_inj {a b : Nat} (ha : Target a) (hb : Target b) (h : index 0 a = index 0 b) :
    a / 4096 = b / 4096 := by
  rw [index_zero, index_zero] at h
  unfold Target at ha hb
  omega

theorem index_congr {a b : Nat} (h : a / 4096 = b / 4096) : index 0 a = index 0 b := by
  rw [index_zero, index_zero, h]

/-! ## The address space -/

/-- `M` are the pages mapped, `B` the bytes on them. -/
structure Shows (m : Machine) (M : Nat → Prop) (B : Nat → UInt8) : Prop where
  closed : ∀ l < 3, ∀ t, (m.entries (l + 1) (t / 512)).p = false → (m.entries l t).p = false
  leaf : ∀ va, Target va → ((m.entries 0 (index 0 va)).p = true ↔ M (va / 4096))
  frames : ∀ a b, Target a → Target b → M (a / 4096) → M (b / 4096) →
    (m.entries 0 (index 0 a)).addr = (m.entries 0 (index 0 b)).addr → a / 4096 = b / 4096
  fresh : ∀ va, Target va → M (va / 4096) → 4096 * (m.entries 0 (index 0 va)).addr < m.gfp_cur
  aligned : m.gfp_cur % 4096 = 0
  bytes : ∀ va, Target va → M (va / 4096) → m.phys (4096 * (m.entries 0 (index 0 va)).addr + va % 4096) = B va

variable {m : Machine} {M : Nat → Prop} {B : Nat → UInt8} {va : Nat}

theorem Shows.reached (h : Shows m M B) (ht : Target va) (hM : M (va / 4096)) : Reached m va := by
  have h0 := (h.leaf va ht).mpr hM
  have up : ∀ l < 3, (m.entries l (index l va)).p = true → (m.entries (l + 1) (index (l + 1) va)).p = true := by
    intro l hl hp
    by_contra hn
    rw [Bool.not_eq_true, index_succ hl] at hn
    rw [h.closed l hl _ hn] at hp
    cases hp
  have h1 := up 0 (by decide) h0
  have h2 := up 1 (by decide) h1
  exact ⟨up 2 (by decide) h2, h2, h1, h0⟩

theorem Shows.translate (h : Shows m M B) (ht : Target va) (hM : M (va / 4096)) :
    translate m va = some (4096 * (m.entries 0 (index 0 va)).addr + va % 4096) :=
  if_pos ⟨ht.canonical, h.reached ht hM⟩

theorem Shows.congr {M' : Nat → Prop} {B' : Nat → UInt8} (h : Shows m M B)
    (hM : ∀ va, Target va → (M' (va / 4096) ↔ M (va / 4096)))
    (hB : ∀ va, Target va → M (va / 4096) → B' va = B va) : Shows m M' B' where
  closed := h.closed
  leaf := fun va ht => by rw [h.leaf va ht, hM va ht]
  frames := fun a b ha hb hMa hMb => h.frames a b ha hb ((hM a ha).mp hMa) ((hM b hb).mp hMb)
  fresh := fun va ht hm => h.fresh va ht ((hM va ht).mp hm)
  aligned := h.aligned
  bytes := fun va ht hm => by
    have hm := (hM va ht).mp hm
    rw [h.bytes va ht hm, hB va ht hm]

/-! ## Stores -/

theorem store_shows (h : Shows m M B) (ht : Target va) (hM : M (va / 4096)) (b : UInt8) :
    ∃ m', store m va b = .ok m' ∧ Shows m' M (Function.update B va b) ∧ m'.mapped = m.mapped := by
  have hst : store m va b = .ok { m with phys := Function.update m.phys (4096 * (m.entries 0 (index 0 va)).addr + va % 4096) b } := by
    unfold store
    rw [h.translate ht hM]
    rfl
  refine ⟨_, hst, ⟨h.closed, h.leaf, h.frames, h.fresh, h.aligned, ?_⟩, rfl⟩
  intro c hc hMc
  show Function.update m.phys _ b _ = _
  by_cases he : c = va
  · rw [he, Function.update_self, Function.update_self]
  · rw [Function.update_of_ne he, Function.update_of_ne, h.bytes c hc hMc]
    -- another address is on another page, or at another place of the same
    intro hp
    have hp : 4096 * (m.entries 0 (index 0 c)).addr + c % 4096 = 4096 * (m.entries 0 (index 0 va)).addr + va % 4096 := hp
    have hoff : c % 4096 = va % 4096 := by omega
    have hpage := h.frames c va hc ht hMc hM (by omega)
    omega

/-- Stores to mapped addresses. -/
theorem storeAll_shows (b : Nat → UInt8) {vas : List Nat} : ∀ {m : Machine} {B : Nat → UInt8}, Shows m M B →
    (∀ va ∈ vas, Target va ∧ M (va / 4096)) →
    ∃ m', storeAll vas b m = .ok m' ∧ Shows m' M (fun c => if c ∈ vas then b c else B c) ∧ m'.mapped = m.mapped := by
  induction vas with
  | nil =>
    intro m B h _
    exact ⟨m, rfl, h.congr (fun _ _ => Iff.rfl) (fun _ _ _ => by simp), rfl⟩
  | cons va vas ih =>
    intro m B h hv
    obtain ⟨ht, hM⟩ := hv va List.mem_cons_self
    obtain ⟨m1, h1, hs1, hm1⟩ := store_shows h ht hM (b va)
    obtain ⟨m2, h2, hs2, hm2⟩ := ih hs1 fun c hc => hv c (List.mem_cons_of_mem _ hc)
    refine ⟨m2, ?_, hs2.congr (fun _ _ => Iff.rfl) (fun c _ _ => ?_), hm2.trans hm1⟩
    · unfold storeAll
      rw [List.foldlM_cons, ok_bind h1]
      exact h2
    · by_cases hc : c ∈ vas
      · rw [if_pos (List.mem_cons_of_mem _ hc), if_pos hc]
      · rw [if_neg hc]
        by_cases he : c = va
        · rw [he, if_pos List.mem_cons_self, Function.update_self]
        · rw [if_neg (by simp [he, hc]), Function.update_of_ne he]

theorem mapTable_of_present {l t : Nat} (h : (m.entries l t).p = true) : mapTable l t m = m := if_neg (by simp [h])

/-- The machine behind the block of level `l + 1` when the entry was absent. -/
def newTable (l t : Nat) (m : Machine) : Machine :=
  (({ m with gfp_cur := m.gfp_cur + 4096 } : Machine).setEntry (l + 1) t
    { m.entries (l + 1) t with
      addr := m.gfp_cur >>> 12, p := true, rw := true, us := true, pwt := true, pcd := true }).clearTable l t

theorem newTable_of_ne {l t l' t' : Nat} (h : ¬ (l' = l ∧ t' / 512 = t)) (h' : ¬ (l' = l + 1 ∧ t' = t)) :
    (newTable l t m).entries l' t' = m.entries l' t' := by
  show (if l' = l ∧ t' / 512 = t then Pte.zero else if l' = l + 1 ∧ t' = t then _ else m.entries l' t') = _
  rw [if_neg h, if_neg h']

/-- The new entry is present, and apart from it the same are. -/
theorem newTable_present (h : Shows m M B) {l t : Nat} (hl : l < 3) (hab : (m.entries (l + 1) t).p = false)
    (l' t' : Nat) :
    ((newTable l t m).entries l' t').p = true ↔ (l' = l + 1 ∧ t' = t) ∨ (m.entries l' t').p = true := by
  by_cases h1 : l' = l ∧ t' / 512 = t
  · have hold : (m.entries l' t').p = false := h1.1 ▸ h.closed l hl t' (h1.2.symm ▸ hab)
    have hnew : (newTable l t m).entries l' t' = Pte.zero := if_pos h1
    rw [hnew, hold]
    constructor
    · intro hz; cases hz
    · rintro (⟨he, -⟩ | hz)
      · omega
      · cases hz
  · by_cases h2 : l' = l + 1 ∧ t' = t
    · have hnew : ((newTable l t m).entries l' t').p = true := by
        show (if l' = l ∧ t' / 512 = t then Pte.zero else if l' = l + 1 ∧ t' = t then _ else m.entries l' t').p = true
        rw [if_neg h1, if_pos h2]
      exact ⟨fun _ => .inl h2, fun _ => hnew⟩
    · rw [newTable_of_ne h1 h2]
      exact ⟨.inr, fun hx => hx.resolve_left h2⟩

/-- An upper level: its entry is present then, and the address space the same. -/
theorem mapTable_shows (t : Nat) {l : Nat} (h : Shows m M B) (hl : l < 3)
    (hp : l + 1 < 3 → (m.entries (l + 2) (t / 512)).p = true) :
    Shows (mapTable (l + 1) t m) M B ∧ ((mapTable (l + 1) t m).entries (l + 1) t).p = true ∧
      (mapTable (l + 1) t m).mapped = m.mapped := by
  by_cases hpres : (m.entries (l + 1) t).p = true
  · rw [mapTable_of_present hpres]
    exact ⟨h, hpres, rfl⟩
  have hab : (m.entries (l + 1) t).p = false := by simpa using hpres
  have hnew : mapTable (l + 1) t m = newTable l t m := if_pos hab
  have hiff := newTable_present h hl hab
  -- no page of the address space is among the entries cleared or set
  have hleaf : ∀ va, Target va → M (va / 4096) →
      (newTable l t m).entries 0 (index 0 va) = m.entries 0 (index 0 va) := by
    intro va ht hM
    have hpv := (h.leaf va ht).mpr hM
    refine newTable_of_ne ?_ (fun h2 => absurd h2.1 (by omega))
    rintro ⟨rfl, he⟩
    have := h.closed 0 (by omega) (index 0 va) (by rw [he]; exact hab)
    rw [this] at hpv
    cases hpv
  rw [hnew]
  refine ⟨⟨?_, ?_, ?_, ?_, ?_, ?_⟩, (hiff _ _).mpr (.inl ⟨rfl, rfl⟩), rfl⟩
  · intro l' hl' t' habs
    by_contra hn
    have hup : ((newTable l t m).entries (l' + 1) (t' / 512)).p = true := by
      refine (hiff _ _).mpr (.inr ?_)
      rcases (hiff l' t').mp (by simpa using hn) with ⟨rfl, rfl⟩ | hold
      · exact hp hl'
      · by_contra hx
        rw [h.closed l' hl' t' (by simpa using hx)] at hold
        cases hold
    rw [hup] at habs
    cases habs
  · intro va ht
    rw [hiff, h.leaf va ht]
    exact ⟨fun hx => hx.resolve_left (by omega), .inr⟩
  · intro a b ha hb hMa hMb he
    rw [hleaf a ha hMa, hleaf b hb hMb] at he
    exact h.frames a b ha hb hMa hMb he
  · intro va ht hM
    rw [hleaf va ht hM]
    exact Nat.lt_of_lt_of_le (h.fresh va ht hM) (Nat.le_add_right _ _)
  · show (m.gfp_cur + 4096) % 4096 = 0
    have := h.aligned
    omega
  · intro va ht hM
    rw [hleaf va ht hM]
    exact h.bytes va ht hM

/-! ## `map_page_to` -/

/-- The three upper levels. -/
def mapTables (va : Nat) (m : Machine) : Machine :=
  mapTable 1 (index 1 va) (mapTable 2 (index 2 va) (mapTable 3 (index 3 va) m))

theorem mapPageTo_eq (va : Nat) (m : Machine) :
    mapPageTo va m = mapLeaf va (mapTables va m) >>= fun m => pure { m with mapped := m.mapped ++ [va] } := rfl

theorem mapTables_shows (h : Shows m M B) (va : Nat) :
    Shows (mapTables va m) M B ∧ ((mapTables va m).entries 1 (index 1 va)).p = true ∧
      (mapTables va m).mapped = m.mapped := by
  obtain ⟨h3, p3, e3⟩ := mapTable_shows (index 3 va) h (show 2 < 3 by decide) (fun hlt => absurd hlt (by decide))
  obtain ⟨h2, p2, e2⟩ := mapTable_shows (index 2 va) h3 (show 1 < 3 by decide)
    (fun _ => by rw [← index_succ (by decide)]; exact p3)
  obtain ⟨h1, p1, e1⟩ := mapTable_shows (index 1 va) h2 (show 0 < 3 by decide)
    (fun _ => by rw [← index_succ (by decide)]; exact p2)
  exact ⟨h1, p1, e1.trans (e2.trans e3)⟩

/-- A page that is mapped stays as it is. -/
theorem mapPageTo_old (h : Shows m M B) (ht : Target va) (hM : M (va / 4096)) :
    ∃ m', mapPageTo va m = .ok m' ∧ Shows m' M B ∧ m'.mapped = m.mapped ++ [va] := by
  obtain ⟨h1, -, e1⟩ := mapTables_shows h va
  have hp := (h1.leaf va ht).mpr hM
  have hleaf : mapLeaf va (mapTables va m) = .ok (mapTables va m) := by
    unfold mapLeaf
    show (if ((mapTables va m).entries 0 (index 0 va)).p = false then _ else _) = _
    rw [hp, if_neg (by decide)]
    rfl
  refine ⟨{ mapTables va m with mapped := (mapTables va m).mapped ++ [va] }, by rw [mapPageTo_eq, ok_bind hleaf]; rfl,
    ⟨h1.closed, h1.leaf, h1.frames, h1.fresh, h1.aligned, h1.bytes⟩, ?_⟩
  show (mapTables va m).mapped ++ [va] = _
  rw [e1]

/-- The machine behind the assignments of the leaf. -/
def newLeaf (t : Nat) (m : Machine) : Machine :=
  ({ m with gfp_cur := m.gfp_cur + 4096 } : Machine).setEntry 0 t
    { m.entries 0 t with
      addr := m.gfp_cur >>> 12, p := true, rw := true, us := false, g := true, nx := false, pwt := true, pcd := true }

theorem newLeaf_of_ne {t l' t' : Nat} (h : ¬ (l' = 0 ∧ t' = t)) : (newLeaf t m).entries l' t' = m.entries l' t' :=
  if_neg h

/-- The new page is mapped, with whatever bytes its frame holds. -/
theorem newLeaf_shows (h : Shows m M B) (ht : Target va) (hM : ¬ M (va / 4096))
    (hp : (m.entries 1 (index 1 va)).p = true) :
    ∃ B', Shows (newLeaf (index 0 va) m) (fun q => M q ∨ q = va / 4096) B' ∧ ∀ c, Target c → M (c / 4096) →
      B' c = B c := by
  have hself : ((newLeaf (index 0 va) m).entries 0 (index 0 va)).p = true := by
    show (if 0 = 0 ∧ index 0 va = index 0 va then _ else m.entries 0 (index 0 va)).p = true
    rw [if_pos ⟨rfl, rfl⟩]
  have haddr : ((newLeaf (index 0 va) m).entries 0 (index 0 va)).addr = m.gfp_cur / 4096 := by
    show (if 0 = 0 ∧ index 0 va = index 0 va then _ else m.entries 0 (index 0 va)).addr = _
    rw [if_pos ⟨rfl, rfl⟩]
    exact Nat.shiftRight_eq_div_pow m.gfp_cur 12
  have hold : ∀ c, Target c → M (c / 4096) →
      (newLeaf (index 0 va) m).entries 0 (index 0 c) = m.entries 0 (index 0 c) := by
    intro c hc hMc
    refine newLeaf_of_ne fun h2 => hM ?_
    rw [← hc.page_inj ht h2.2]
    exact hMc
  have hnewp : ∀ c, Target c → c / 4096 = va / 4096 →
      ((newLeaf (index 0 va) m).entries 0 (index 0 c)).addr = m.gfp_cur / 4096 := by
    intro c _ he
    rw [index_congr he]
    exact haddr
  refine ⟨fun c => (newLeaf (index 0 va) m).phys
    (4096 * ((newLeaf (index 0 va) m).entries 0 (index 0 c)).addr + c % 4096), ⟨?_, ?_, ?_, ?_, ?_, fun _ _ _ => rfl⟩, ?_⟩
  · intro l hl t habs
    by_cases h1 : l = 0 ∧ t = index 0 va
    · obtain ⟨rfl, rfl⟩ := h1
      rw [newLeaf_of_ne (by omega), ← index_succ (by decide), hp] at habs
      cases habs
    · rw [newLeaf_of_ne h1]
      rw [newLeaf_of_ne (by omega)] at habs
      exact h.closed l hl t habs
  · intro c hc
    by_cases he : c / 4096 = va / 4096
    · rw [index_congr he]
      exact ⟨fun _ => .inr he, fun _ => hself⟩
    · rw [newLeaf_of_ne fun h2 => he (hc.page_inj ht h2.2), h.leaf c hc]
      exact ⟨.inl, fun hx => hx.resolve_right he⟩
  · -- the frame from `gfp_cur` is no other page's
    have hfr : ∀ c, Target c → M (c / 4096) → (m.entries 0 (index 0 c)).addr ≠ m.gfp_cur / 4096 := by
      intro c hc hMc he
      have h1 := h.fresh c hc hMc
      have h2 := h.aligned
      omega
    intro a b ha hb hMa hMb he
    rcases hMa with hMa | hMa
    · rcases hMb with hMb | hMb
      · rw [hold a ha hMa, hold b hb hMb] at he
        exact h.frames a b ha hb hMa hMb he
      · rw [hold a ha hMa, hnewp b hb hMb] at he
        exact absurd he (hfr a ha hMa)
    · rcases hMb with hMb | hMb
      · rw [hnewp a ha hMa, hold b hb hMb] at he
        exact absurd he.symm (hfr b hb hMb)
      · rw [hMa, hMb]
  · intro c hc hMc
    show _ < m.gfp_cur + 4096
    rcases hMc with hMc | hMc
    · rw [hold c hc hMc]
      exact Nat.lt_of_lt_of_le (h.fresh c hc hMc) (Nat.le_add_right _ _)
    · rw [hnewp c hc hMc]
      omega
  · show (m.gfp_cur + 4096) % 4096 = 0
    have := h.aligned
    omega
  · intro c hc hMc
    show m.phys (4096 * ((newLeaf (index 0 va) m).entries 0 (index 0 c)).addr + c % 4096) = B c
    rw [hold c hc hMc]
    exact h.bytes c hc hMc

theorem mem_cleared {va c : Nat} : c ∈ (List.range 4096).map (va + ·) ↔ va ≤ c ∧ c < va + 4096 := by
  simp only [List.mem_map, List.mem_range]
  constructor
  · rintro ⟨i, hi, rfl⟩
    omega
  · rintro ⟨h1, h2⟩
    exact ⟨c - va, by omega, by omega⟩

theorem mapLeaf_new (hp : (m.entries 0 (index 0 va)).p = false) :
    mapLeaf va m = clearpage va (newLeaf (index 0 va) m) := by
  unfold mapLeaf
  exact if_pos hp

/-- A new page: it is mapped, and 4096 bytes from the address on are cleared. -/
theorem mapPageTo_new (h : Shows m M B) (ht : ∀ c, va / 4096 * 4096 ≤ c → c < va + 4096 → Target c)
    (hM : ¬ M (va / 4096))
    (hn : va % 4096 = 0 ∨ M (va / 4096 + 1)) :
    ∃ m' B', mapPageTo va m = .ok m' ∧ Shows m' (fun q => M q ∨ q = va / 4096) B' ∧ m'.mapped = m.mapped ++ [va] ∧
      ∀ c, Target c → M (c / 4096) → B' c = if va ≤ c ∧ c < va + 4096 then 0 else B c := by
  obtain ⟨h1, p1, e1⟩ := mapTables_shows h va
  have htv : Target va := ht va (by omega) (by omega)
  have hp : ((mapTables va m).entries 0 (index 0 va)).p = false := by
    rw [← Bool.not_eq_true, h1.leaf va htv]
    exact hM
  obtain ⟨B1, h2, hB1⟩ := newLeaf_shows h1 htv hM p1
  have hclear : ∀ c ∈ (List.range 4096).map (va + ·), Target c ∧ (M (c / 4096) ∨ c / 4096 = va / 4096) := by
    intro c hc
    rw [mem_cleared] at hc
    refine ⟨ht c (by omega) hc.2, ?_⟩
    by_cases he : c / 4096 = va / 4096
    · exact .inr he
    · rcases hn with hn | hn
      · omega
      · exact .inl (by rw [show c / 4096 = va / 4096 + 1 by omega]; exact hn)
  obtain ⟨m3, h3, hs3, e3⟩ := storeAll_shows (fun _ => 0) h2 hclear
  have hleaf : mapLeaf va (mapTables va m) = .ok m3 := (mapLeaf_new hp).trans h3
  refine ⟨{ m3 with mapped := m3.mapped ++ [va] }, _, by rw [mapPageTo_eq, ok_bind hleaf]; rfl,
    ⟨hs3.closed, hs3.leaf, hs3.frames, hs3.fresh, hs3.aligned, hs3.bytes⟩, ?_, fun c hc hMc => ?_⟩
  · show m3.mapped ++ [va] = _
    rw [e3, show (newLeaf (index 0 va) (mapTables va m)).mapped = (mapTables va m).mapped from rfl, e1]
  · by_cases hin : va ≤ c ∧ c < va + 4096
    · rw [if_pos (mem_cleared.mpr hin), if_pos hin]
    · rw [if_neg (fun hx => hin (mem_cleared.mp hx)), if_neg hin, hB1 c hc hMc]

theorem boot_shows (phys : Nat → UInt8) : Shows (boot phys) (fun _ => False) (fun _ => 0) where
  closed := by
    intro l hl t h
    by_contra hn
    have hn : ((boot phys).entries l t).p = true := by simpa using hn
    have hpres : bootPresent l t = true := by
      by_contra hx
      have : ((boot phys).entries l t) = Pte.zero := if_neg hx
      rw [this] at hn
      cases hn
    have hup : bootPresent (l + 1) (t / 512) = true := by
      unfold bootPresent at hpres ⊢
      match l, hl with
      | 0, _ => simp at hpres
      | 1, _ =>
        have : t < 8 := by simpa using hpres
        simp
        omega
      | 2, _ =>
        have : t = 0 := by simpa using hpres
        simp [this]
    have : ((boot phys).entries (l + 1) (t / 512)).p = true := by
      show (if bootPresent (l + 1) (t / 512) then _ else Pte.zero).p = true
      rw [if_pos hup]
    rw [this] at h
    cases h
  leaf := by
    intro va _
    refine ⟨fun h => ?_, False.elim⟩
    cases h
  frames := fun _ _ _ _ h => h.elim
  fresh := fun _ _ h => h.elim
  aligned := by
    show 0x100000 % 4096 = 0
    decide
  bytes := fun _ _ h => h.elim

end Rodvin.Boot
