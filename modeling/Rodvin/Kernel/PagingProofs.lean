/-
  Rodvin.Kernel.PagingProofs — the page tables are a map from pages to frames.

  The window `entriesAt k` shows the tables of depth `k`: an address in it descends
  through entry 511 until `4 - k` levels are used up and then along the indices of the
  page (`descent_path`). The tables form a tree, so the entry a call edits lies on
  none of the words its window descends through, and a new table is zeroed before
  anything is read from it (`ensure_ends`). A new link adds one empty table
  (`table_link`) and changes no walk (`walkFrom_link`); a leaf entry belongs to one page
  (`walk_put_leaf`). Over every run see `page_tables_are_a_map`.
-/

import Rodvin.Kernel.Paging

namespace Rodvin.Kernel.Paging

open Rodvin.Lib

/-! ## The addresses of the tables -/

/-- Where the tables of depth `k` appear. -/
def entriesAt : Nat → Nat
  | 0 => 0xFFFFFFFFFFFFF000
  | 1 => 0xFFFFFFFFFFE00000
  | 2 => 0xFFFFFFFFC0000000
  | _ => 0xFFFFFF8000000000

/-- The number of the entry of depth `k` that `v` goes through. -/
def number (k v : Nat) : Nat := v >>> (12 + 9 * (3 - k)) &&& (2 ^ (9 * (k + 1)) - 1)

/-- The address `va` descends to the table of depth `d` on the way to `v`. -/
def Leads (d va v : Nat) : Prop := ∀ l < 4, index l va = if d ≤ l then 511 else index (l + 4 - d) v

theorem index_eq (l va : Nat) : index l va = va / 2 ^ (12 + 9 * l) % 512 := by
  unfold index
  rw [Nat.shiftRight_eq_div_pow, show (0x1FF : Nat) = 2 ^ 9 - 1 by rfl, Nat.and_two_pow_sub_one_eq_mod]

theorem index_lt (l va : Nat) : index l va < 512 := by
  rw [index_eq]
  exact Nat.mod_lt _ (by decide)

theorem number_eq (k v : Nat) : number k v = v / 2 ^ (12 + 9 * (3 - k)) % 2 ^ (9 * (k + 1)) := by
  unfold number
  rw [Nat.shiftRight_eq_div_pow, Nat.and_two_pow_sub_one_eq_mod]

/-- A page of the window of depth `d` is one table of depth `d`. -/
theorem leads_page {k : Nat} (hk : k < 3) (v : Nat) {j : Nat} (hj : j < 512) :
    Leads (k + 1) (entriesAt (k + 1) + number k v <<< 12 + 8 * j) v ∧
    (entriesAt (k + 1) + number k v <<< 12 + 8 * j) % 4096 / 8 = j := by
  rw [number_eq, Nat.shiftLeft_eq]
  obtain rfl | rfl | rfl : k = 0 ∨ k = 1 ∨ k = 2 := by omega
  all_goals
    refine ⟨fun l hl => ?_, by simp only [entriesAt]; omega⟩
    obtain rfl | rfl | rfl | rfl : l = 0 ∨ l = 1 ∨ l = 2 ∨ l = 3 := by omega
    all_goals simp only [index_eq, entriesAt]; norm_num; omega

theorem leads_entry {k : Nat} (hk : k ≤ 3) (v : Nat) :
    Leads k (entriesAt k + 8 * number k v) v ∧ (entriesAt k + 8 * number k v) % 4096 / 8 = index (3 - k) v := by
  rw [number_eq]
  obtain rfl | rfl | rfl | rfl : k = 0 ∨ k = 1 ∨ k = 2 ∨ k = 3 := by omega
  all_goals
    refine ⟨fun l hl => ?_, by simp only [index_eq, entriesAt]; norm_num; omega⟩
    obtain rfl | rfl | rfl | rfl : l = 0 ∨ l = 1 ∨ l = 2 ∨ l = 3 := by omega
    all_goals simp only [index_eq, entriesAt]; norm_num; try omega

theorem leads_self (v : Nat) : Leads 4 v v := fun l hl => by rw [if_neg (by omega), Nat.add_sub_cancel]

theorem samePage_of_index {v v' : Nat} (h : ∀ l < 4, index l v = index l v') : SamePage v v' := by
  have h0 := h 0 (by decide)
  have h1 := h 1 (by decide)
  have h2 := h 2 (by decide)
  have h3 := h 3 (by decide)
  simp only [index_eq] at h0 h1 h2 h3
  unfold SamePage
  omega

/-! ## Descents -/

/-- `va` leads from the root to frame `f` over entries that are fit for every access and
    lie outside `S`; level `l` is the last one used. -/
inductive Descent (mem : Nat → Nat) (root va : Nat) (S : Nat → Prop) : Nat → Nat → Prop
  | root : Descent mem root va S 4 root
  | step {l f : Nat} : Descent mem root va S (l + 1) f → ¬ S (512 * f + index l va) →
      Upper (mem (512 * f + index l va)) → Descent mem root va S l (frameOf (mem (512 * f + index l va)))

variable {mem mem' : Nat → Nat} {root va f g i k : Nat} {S S' : Nat → Prop} {m m' : Machine}

theorem Descent.congr {l : Nat} (mem' : Nat → Nat) (S' : Nat → Prop) (h : Descent mem root va S l f)
    (hm : ∀ a, ¬ S a → mem' a = mem a) (hS : ∀ a, ¬ S a → ¬ S' a) : Descent mem' root va S' l f := by
  induction h with
  | root => exact .root
  | step h hs hu ih =>
    rw [← hm _ hs] at hu ⊢
    exact .step ih (hS _ hs) hu

theorem walkFrom_succ (l : Nat) : walkFrom mem va (l + 1) f =
    let e := mem (512 * f + index (l + 1) va)
    if !present e then none
    else if pageSize e then
      if l + 1 = 3 then none
      else some (permits e (frameOf e / 2 ^ (9 * (l + 1)) * 2 ^ (9 * (l + 1)) + va / 4096 % 2 ^ (9 * (l + 1))))
    else (walkFrom mem va l (frameOf e)).map (·.under e) := rfl

theorem walkFrom_absent {l : Nat} (h : present (mem (512 * f + index l va)) = false) :
    walkFrom mem va l f = none := by
  cases l with
  | zero => simp [walkFrom, h]
  | succ l => simp [walkFrom_succ, h]

theorem walkFrom_upper {l : Nat} (h : Upper (mem (512 * f + index (l + 1) va))) :
    walkFrom mem va (l + 1) f = (walkFrom mem va l (frameOf (mem (512 * f + index (l + 1) va)))).map
      fun t => { t with user := t.user && (mem (512 * f + index (l + 1) va)).testBit 2 } := by
  obtain ⟨hp, hw, hs, hx⟩ := h
  simp [walkFrom_succ, hp, hs, Translation.under, hw, hx]

theorem Descent.walk_eq {l : Nat} (h : Descent mem root va S (l + 1) f) :
    ∃ u : Bool, walkFrom mem va 3 root = (walkFrom mem va l f).map fun t => { t with user := t.user && u } := by
  generalize hl : l + 1 = n at h
  induction h generalizing l with
  | root =>
    obtain rfl : l = 3 := by omega
    exact ⟨true, by simp⟩
  | @step n f h hs hu ih =>
    subst hl
    obtain ⟨u, e⟩ := ih rfl
    rw [walkFrom_upper hu, Option.map_map] at e
    exact ⟨_ && u, by simpa [Function.comp_def, Bool.and_assoc] using e⟩

theorem Descent.resolves (h : Descent mem root va S 0 f) :
    ∃ t, walkFrom mem va 3 root = some t ∧ t.frame = f ∧ t.writable = true := by
  cases h with
  | step h hs hu =>
    obtain ⟨u, e⟩ := h.walk_eq
    obtain ⟨hp, hw, -, -⟩ := hu
    exact ⟨_, by rw [e]; simp [walkFrom, hp]; rfl, rfl, hw⟩

/-! ## Loads and stores -/

theorem bind_ok {α β : Type} {c : Exec α} {d : α → Exec β} {a : α} (h : c m = .ok (a, m')) :
    (c >>= d) m = d a m' := by
  simp only [bind, StateT.bind, h, Except.bind]

theorem bind_error {α β : Type} {c : Exec α} {d : α → Exec β} {e : Fault} (h : c m = .error e) :
    (c >>= d) m = .error e := by
  simp only [bind, StateT.bind, h, Except.bind]

theorem Machine.put_put (m : Machine) (a w w' : Nat) : (m.put a w).put a w' = m.put a w' := by
  simp [Machine.put]

theorem Machine.put_self (m : Machine) (a : Nat) : m.put a (m.mem a) = m := by
  simp [Machine.put]

theorem Machine.put_mem_self (m : Machine) (a w : Nat) : (m.put a w).mem a = w := by
  simp [Machine.put]

theorem Machine.put_mem_ne {a b w : Nat} (m : Machine) (h : b ≠ a) : (m.put a w).mem b = m.mem b := by
  simp [Machine.put, h]

theorem Descent.put {a : Nat} (h : Descent m.mem m.cr3 va S 0 f) (ha : S a) (w : Nat) :
    Descent (m.put a w).mem (m.put a w).cr3 va S 0 f :=
  h.congr _ _ (fun _ hb => m.put_mem_ne fun e => hb (e ▸ ha)) fun _ hb => hb

theorem load_eq (h : Descent m.mem m.cr3 va S 0 f) : load va m = .ok (m.mem (512 * f + va % 4096 / 8), m) := by
  obtain ⟨t, ht, rfl, -⟩ := h.resolves
  unfold load walk
  rw [ht]
  rfl

theorem store_eq (h : Descent m.mem m.cr3 va S 0 f) (w : Nat) :
    store va w m = .ok ((), m.put (512 * f + va % 4096 / 8) w) := by
  obtain ⟨t, ht, rfl, hw⟩ := h.resolves
  unfold store walk
  rw [ht]
  exact if_pos hw

/-- What assignments to its fields make of a word. -/
def fields (fs : List (BitField × Nat)) (w : Nat) : Nat := fs.foldl (fun w x => x.1.set x.2 w) w

theorem assign_eq {a : Nat} (h : Descent m.mem m.cr3 va S 0 f) (ha : 512 * f + va % 4096 / 8 = a) (hS : S a)
    (fs : List (BitField × Nat)) : assign va fs m = .ok ((), m.put a (fields fs (m.mem a))) := by
  induction fs generalizing m with
  | nil =>
    rw [show fields [] (m.mem a) = m.mem a from rfl, Machine.put_self]
    rfl
  | cons x fs ih =>
    obtain ⟨b, v⟩ := x
    have hl := load_eq h
    have hs := store_eq h (b.set v (m.mem a))
    have hi := ih (h.put hS (b.set v (m.mem a)))
    rw [ha] at hl hs
    rw [m.put_mem_self, m.put_put] at hi
    show (load va >>= fun w => store va (b.set v w) >>= fun _ => assign va fs) m = _
    rw [bind_ok hl, bind_ok hs, hi]
    rfl

/-- The machine with frame `g` zeroed. -/
def Machine.zero (m : Machine) (g : Nat) : Machine := { m with mem := fun a => if a / 512 = g then 0 else m.mem a }

theorem memset_eq (s g n i : Nat) (hi : i + n = 512) (h : ∀ j < 512, Descent m.mem m.cr3 (s + 8 * j) S 0 g)
    (ho : ∀ j < 512, (s + 8 * j) % 4096 / 8 = j) (hS : ∀ j < 512, S (512 * g + j)) :
    memset (s + 8 * i) n m =
      .ok ((), { m with mem := fun a => if 512 * g + i ≤ a ∧ a < 512 * g + 512 then 0 else m.mem a }) := by
  induction n generalizing i m with
  | zero =>
    have hm : (fun a => if 512 * g + i ≤ a ∧ a < 512 * g + 512 then 0 else m.mem a) = m.mem :=
      funext fun a => if_neg (by omega)
    rw [hm]
    rfl
  | succ n ih =>
    have hs := store_eq (h i (by omega)) 0
    rw [ho i (by omega)] at hs
    have hr := ih (m := m.put (512 * g + i) 0) (i + 1) (by omega) fun j hj => (h j hj).put (hS i (by omega)) 0
    show (store (s + 8 * i) 0 >>= fun _ => memset (s + 8 * i + 8) n) m = _
    rw [bind_ok hs, show s + 8 * i + 8 = s + 8 * (i + 1) by ring, hr]
    congr 3
    funext a
    by_cases ha : a = 512 * g + i
    · rw [if_neg (by omega), if_pos (by omega), ha, m.put_mem_self]
    · by_cases hb : 512 * g + i ≤ a ∧ a < 512 * g + 512
      · rw [if_pos (by omega), if_pos hb]
      · rw [if_neg (by omega), if_neg hb, m.put_mem_ne ha]

theorem memset_page {s g : Nat} (h : ∀ j < 512, Descent m.mem m.cr3 (s + 8 * j) S 0 g)
    (ho : ∀ j < 512, (s + 8 * j) % 4096 / 8 = j) (hS : ∀ j < 512, S (512 * g + j)) :
    memset s 512 m = .ok ((), m.zero g) := by
  have e := memset_eq s g 512 0 rfl h ho hS
  rw [Nat.mul_zero, Nat.add_zero] at e
  rw [e]
  unfold Machine.zero
  congr 3
  funext a
  exact if_congr (by omega) rfl rfl

/-! ## The tables on the way to a page -/

/-- The indices of the first `k` levels of `v`, the last one first. -/
def path (v : Nat) : Nat → List Nat
  | 0 => []
  | k + 1 => index (3 - k) v :: path v k

@[simp] theorem length_path (v k : Nat) : (path v k).length = k := by
  induction k with
  | zero => rfl
  | succ k ih => simp [path, ih]

theorem index_of_path_nil {v : Nat} (hv : index 3 v ≠ 511) (e : path v k = []) : index (3 - k) v ≠ 511 := by
  have hl := congrArg List.length e
  rw [length_path] at hl
  obtain rfl : k = 0 := hl
  exact hv

theorem child_of_present {v : Nat} (hv : index 3 v ≠ 511) (hk : k < 3) (hf : Table mem root (path v k) f)
    (hp : present (mem (512 * f + index (3 - k) v)) = true) :
    Table mem root (path v (k + 1)) (frameOf (mem (512 * f + index (3 - k) v))) := by
  exact .child hf (by rwa [length_path]) (index_lt _ _) (index_of_path_nil hv) hp

/-- `child_of_present` by the level of the table. -/
theorem child_at_level {v l : Nat} (hv : index 3 v ≠ 511) (hl : l + 1 ≤ 3)
    (hf : Table mem root (path v (3 - (l + 1))) f)
    (hp : present (mem (512 * f + index (l + 1) v)) = true) :
    Table mem root (path v (3 - l)) (frameOf (mem (512 * f + index (l + 1) v))) := by
  have hi : 3 - (3 - (l + 1)) = l + 1 := by omega
  have h := child_of_present hv (by omega) hf (by rwa [hi])
  rwa [hi, show 3 - (l + 1) + 1 = 3 - l by omega] at h

theorem Tables.recursive_upper (hT : Tables mem root) : Upper (mem (512 * root + 511)) :=
  hT.upper .root (by decide) (by decide) hT.recursive.1

theorem descent_recursive {v d : Nat} (hT : Tables mem root) (hl : Leads d va v) (h511 : ¬ S (512 * root + 511)) :
    ∀ n, n + d ≤ 4 → Descent mem root va S (4 - n) root := by
  intro n
  induction n with
  | zero => exact fun _ => .root
  | succ n ih =>
    intro hn
    have hi : index (4 - (n + 1)) va = 511 := by rw [hl _ (by omega), if_pos (by omega)]
    have h := ih (by omega)
    rw [show 4 - n = 4 - (n + 1) + 1 by omega] at h
    have hs := h.step (by rwa [hi]) (by rw [hi]; exact hT.recursive_upper)
    rwa [hi, hT.recursive.2] at hs

/-- An address that leads through `d` entries of the page passes the tables of its path. -/
theorem descent_path {v d : Nat} (hT : Tables mem root) (hd : d ≤ 4) (hl : Leads d va v)
    (h511 : ¬ S (512 * root + 511)) {j : Nat} (hj : j ≤ d) (hf : Table mem root (path v j) f)
    (hS : ∀ π h, Table mem root π h → π.length < j → ∀ i < 512, ¬ S (512 * h + i)) :
    Descent mem root va S (d - j) f := by
  induction j generalizing f with
  | zero =>
    cases hf
    have h := descent_recursive hT hl h511 (4 - d) (by omega)
    rwa [show 4 - (4 - d) = d - 0 by omega] at h
  | succ j ih =>
    cases hf with
    | @child _ f _ hf hlen hi _ hp =>
      have h := ih (by omega) hf fun π h hh hlt => hS π h hh (by omega)
      rw [show d - j = d - (j + 1) + 1 by omega] at h
      have hi' : index (d - (j + 1)) va = index (3 - j) v := by
        rw [hl _ (by omega), if_neg (by omega)]
        congr 1
        omega
      have hs := h.step (hS _ _ hf (by simp) _ (index_lt _ _)) (by rw [hi']; exact hT.upper hf hlen hi hp)
      rwa [hi'] at hs

theorem walk_of_path {v : Nat} (hT : Tables mem root) {j : Nat} (hj : j < 4) (hf : Table mem root (path v j) f) :
    ∃ u : Bool, walkFrom mem v 3 root = (walkFrom mem v (3 - j) f).map fun t => { t with user := t.user && u } := by
  have h := descent_path (S := fun _ => False) hT (by decide) (leads_self v) id (by omega : j ≤ 4) hf
    fun _ _ _ _ _ _ => id
  rw [show 4 - j = 3 - j + 1 by omega] at h
  exact h.walk_eq

/-! ## A new table -/

/-- Entry `i` of the table `f` at `π`, absent before, points to the zeroed frame `g`. -/
structure Linked (mem mem' : Nat → Nat) (root : Nat) (π : List Nat) (f i g : Nat) : Prop where
  tables : Tables mem root
  table : Table mem root π f
  short : π.length < 3
  bound : i < 512
  window : π = [] → i ≠ 511
  absent : present (mem (512 * f + i)) = false
  apart : ∀ {ρ h}, Table mem root ρ h → h ≠ g
  entry : Upper (mem' (512 * f + i))
  target : frameOf (mem' (512 * f + i)) = g
  zero : ∀ j < 512, mem' (512 * g + j) = 0
  same : ∀ a, a ≠ 512 * f + i → a / 512 ≠ g → mem' a = mem a

variable {π ρ : List Nat} {h j : Nat}

/-- A word of a table is the new entry or what it was. -/
theorem Linked.word (hL : Linked mem mem' root π f i g) (hh : Table mem root ρ h) (hj : j < 512) :
    (h = f ∧ j = i ∧ ρ = π) ∨ mem' (512 * h + j) = mem (512 * h + j) := by
  by_cases e : 512 * h + j = 512 * f + i
  · have hi := hL.bound
    obtain ⟨rfl, rfl⟩ : h = f ∧ j = i := by omega
    exact .inl ⟨rfl, rfl, hL.tables.once hh hL.table⟩
  · have hg := hL.apart hh
    exact .inr (hL.same _ e (by omega))

theorem Linked.table_iff (hL : Linked mem mem' root π f i g) :
    Table mem' root ρ h ↔ Table mem root ρ h ∨ (ρ = i :: π ∧ h = g) := by
  have keep : ∀ {ρ h}, Table mem root ρ h → Table mem' root ρ h := by
    intro ρ h hh
    induction hh with
    | root => exact .root
    | @child ρ h j hh hlen hj hw hp ih =>
      obtain ⟨rfl, rfl, rfl⟩ | e := hL.word hh hj
      · rw [hL.absent] at hp
        cases hp
      · rw [← e] at hp ⊢
        exact .child ih hlen hj hw hp
  constructor
  · intro hh
    induction hh with
    | root => exact .inl .root
    | @child ρ h j _ hlen hj hw hp ih =>
      obtain hh | ⟨-, rfl⟩ := ih
      · obtain ⟨rfl, rfl, rfl⟩ | e := hL.word hh hj
        · exact .inr ⟨rfl, hL.target⟩
        · rw [e] at hp ⊢
          exact .inl (.child hh hlen hj hw hp)
      · rw [hL.zero j hj] at hp
        cases hp
  · rintro (hh | ⟨rfl, rfl⟩)
    · exact keep hh
    · have := Table.child (keep hL.table) hL.short hL.bound hL.window hL.entry.1
      rwa [hL.target] at this

theorem Linked.tables' (hL : Linked mem mem' root π f i g) : Tables mem' root where
  recursive := by
    obtain ⟨rfl, e, rfl⟩ | e := hL.word .root (by decide : 511 < 512)
    · exact absurd e.symm (hL.window rfl)
    · rw [e]
      exact hL.tables.recursive
  once := by
    intro ρ σ h h1 h2
    obtain h1 | ⟨rfl, rfl⟩ := hL.table_iff.mp h1
    · obtain h2 | ⟨rfl, rfl⟩ := hL.table_iff.mp h2
      · exact hL.tables.once h1 h2
      · exact absurd rfl (hL.apart h1)
    · obtain h2 | ⟨rfl, -⟩ := hL.table_iff.mp h2
      · exact absurd rfl (hL.apart h2)
      · rfl
  upper := by
    intro ρ h j hh hlen hj hp
    obtain hh | ⟨rfl, rfl⟩ := hL.table_iff.mp hh
    · obtain ⟨rfl, rfl, rfl⟩ | e := hL.word hh hj
      · exact hL.entry
      · rw [e] at hp ⊢
        exact hL.tables.upper hh hlen hj hp
    · rw [hL.zero j hj] at hp
      cases hp
  absent := by
    intro ρ h j hh hlen hj hp
    obtain hh | ⟨rfl, rfl⟩ := hL.table_iff.mp hh
    · obtain ⟨rfl, rfl, rfl⟩ | e := hL.word hh hj
      · rw [hL.entry.1] at hp
        cases hp
      · rw [e] at hp ⊢
        exact hL.tables.absent hh hlen hj hp
    · exact hL.zero j hj

theorem walkFrom_congr {l : Nat} (he : mem' (512 * f + index l va) = mem (512 * f + index l va))
    (hn : ∀ n, l = n + 1 → present (mem (512 * f + index l va)) = true →
      walkFrom mem' va n (frameOf (mem (512 * f + index l va))) = walkFrom mem va n (frameOf (mem (512 * f + index l va)))) :
    walkFrom mem' va l f = walkFrom mem va l f := by
  cases l with
  | zero => simp [walkFrom, he]
  | succ l =>
    rw [walkFrom_succ, walkFrom_succ, he]
    dsimp only
    by_cases hp : present (mem (512 * f + index (l + 1) va)) = true
    · rw [hn l rfl hp]
    · simp [hp]

/-- No walk outside the recursive window changes. -/
theorem Linked.walkFrom_eq (hL : Linked mem mem' root π f i g) {v : Nat} (hv : index 3 v ≠ 511) {l : Nat} (hl : l ≤ 3)
    (hh : Table mem root (path v (3 - l)) h) : walkFrom mem' v l h = walkFrom mem v l h := by
  induction l generalizing h with
  | zero =>
    obtain ⟨-, -, e⟩ | e := hL.word hh (index_lt 0 v)
    · have := hL.short
      rw [← e, length_path] at this
      omega
    · exact walkFrom_congr e fun n hn => absurd hn (by omega)
  | succ l ih =>
    obtain ⟨rfl, e, -⟩ | e := hL.word hh (index_lt (l + 1) v)
    · have ha := hL.absent
      have hu := hL.entry
      have ht := hL.target
      rw [← e] at ha hu ht
      rw [walkFrom_absent ha, walkFrom_upper hu, ht, walkFrom_absent (by rw [hL.zero _ (index_lt l v)]; rfl)]
      rfl
    · refine walkFrom_congr e fun n hn hp => ?_
      obtain rfl : l = n := by omega
      exact ih (by omega) (child_at_level hv hl hh hp)

/-! ## The entries written -/

theorem frameOf_eq (e : Nat) : frameOf e = Pte.addr.get e := rfl

theorem tableFields_spec {page : Nat} (h : page < 2 ^ 52) :
    Upper (fields (tableFields page) 0) ∧ frameOf (fields (tableFields page) 0) = page >>> 12 := by
  refine ⟨⟨?_, ?_, ?_, ?_⟩, ?_⟩
  · simp [-Nat.testBit_zero, Nat.testBit_one_zero, fields, tableFields, present, BitField.testBit_set, Pte.p, Pte.rw,
      Pte.us, Pte.pwt, Pte.pcd]
  · simp [fields, tableFields, BitField.testBit_set, Pte.rw, Pte.us, Pte.pwt, Pte.pcd]
  · simp [fields, tableFields, pageSize, BitField.testBit_set, Pte.p, Pte.rw, Pte.us, Pte.pwt, Pte.pcd, Pte.addr]
  · simp [fields, tableFields, BitField.testBit_set, Pte.p, Pte.rw, Pte.us, Pte.pwt, Pte.pcd, Pte.addr]
  · have hp : page >>> 12 < 2 ^ 40 := by
      rw [Nat.shiftRight_eq_div_pow]
      omega
    rw [frameOf_eq]
    simp only [fields, tableFields, List.foldl_cons, List.foldl_nil]
    iterate 5 rw [BitField.get_set_of_disjoint (by decide)]
    rw [BitField.get_set_self]
    exact Nat.mod_eq_of_lt hp

/-- The leaf that `platform_map` writes, whatever the entry was. -/
theorem leaf_spec {physaddr : Nat} (h : physaddr < 2 ^ 52) (use : MappingUse) (w : Nat) :
    let e := fields (useFields use) (fields (leafFields physaddr) w)
    present e = true ∧ permits e (frameOf e) = mapping physaddr use := by
  have hp : physaddr >>> 12 % 2 ^ 40 = physaddr >>> 12 := by
    rw [Nat.shiftRight_eq_div_pow]
    omega
  have hf : Pte.addr.get (fields (leafFields physaddr) w) = physaddr >>> 12 := by
    simp only [fields, leafFields, List.foldl_cons, List.foldl_nil]
    iterate 8 rw [BitField.get_set_of_disjoint (by decide)]
    rw [BitField.get_set_self]
    exact hp
  have hu : Pte.addr.get (fields (useFields use) (fields (leafFields physaddr) w)) = physaddr >>> 12 := by
    rw [← hf]
    cases use with
    | DeviceRegisters | DeviceMemory | ReadWriteMemory => rfl
    | ReadOnlyMemory | CopyOnWriteMemory | ExecutableMemory => exact BitField.get_set_of_disjoint (by decide)
  have hb : ∀ i, i = 0 ∨ i = 1 ∨ i = 2 ∨ i = 63 → (fields (leafFields physaddr) w).testBit i = !(i == 2) := by
    rintro i (rfl | rfl | rfl | rfl)
    all_goals
      simp [-Nat.testBit_zero, Nat.testBit_one_zero, fields, leafFields, BitField.testBit_set, Pte.p, Pte.rw, Pte.us,
        Pte.nx, Pte.g, Pte.pcd, Pte.pwt, Pte.pat]
  have h0 := hb 0 (by simp)
  have h1 := hb 1 (by simp)
  have h2 := hb 2 (by simp)
  have h63 := hb 63 (by simp)
  generalize fields (leafFields physaddr) w = x at hu h0 h1 h2 h63
  refine ⟨?_, ?_⟩
  · cases use with
    | DeviceRegisters | DeviceMemory | ReadWriteMemory => exact h0
    | ReadOnlyMemory | CopyOnWriteMemory | ExecutableMemory =>
      simpa [-Nat.testBit_zero, fields, useFields, present, BitField.testBit_set, Pte.rw, Pte.nx] using h0
  · unfold permits
    rw [frameOf_eq, hu]
    cases use with
    | DeviceRegisters | DeviceMemory | ReadWriteMemory => simp [fields, useFields, mapping, h1, h2, h63]
    | ReadOnlyMemory | CopyOnWriteMemory | ExecutableMemory =>
      simp [fields, useFields, mapping, BitField.testBit_set, Pte.rw, Pte.nx, h1, h2, h63]

/-! ## One upper level -/

/-- `c` does not page-fault, `n` free pages are enough for it, and its end satisfies `Q`. -/
def Ends {α : Type} (c : Exec α) (m : Machine) (n : Nat) (Q : α → Machine → Prop) : Prop :=
  match c m with
  | .ok (a, m') => Q a m'
  | .error .outOfPages => m.free.length < n
  | .error (.pageFault _) => False

theorem Ends.bind {α β : Type} {c : Exec α} {d : α → Exec β} {n n' : Nat} {Q : α → Machine → Prop}
    {R : β → Machine → Prop} (h : Ends c m n Q)
    (hd : ∀ a m', Q a m' → m.free.length ≤ m'.free.length + n ∧ Ends (d a) m' n' R) : Ends (c >>= d) m (n + n') R := by
  unfold Ends at h ⊢
  rcases hc : c m with (va | _) | ⟨a, m'⟩
  · rw [hc] at h
    exact h.elim
  · rw [hc] at h
    rw [bind_error hc]
    exact Nat.lt_add_right n' h
  · rw [hc] at h
    obtain ⟨hle, hd⟩ := hd a m' h
    unfold Ends at hd
    rw [bind_ok hc]
    rcases hr : d a m' with (va | _) | ⟨b, m''⟩
    · rw [hr] at hd
      exact hd
    · rw [hr] at hd
      refine lt_of_le_of_lt hle ?_
      rw [Nat.add_comm]
      exact Nat.add_lt_add_left hd n
    · rw [hr] at hd
      exact hd

/-- Well-formed as before, with every walk outside the recursive window as before. -/
structure Kept (m m' : Machine) : Prop where
  wellFormed : WellFormed m'
  cr3 : m'.cr3 = m.cr3
  walk : ∀ v, index 3 v ≠ 511 → walk m' v = walk m v

theorem Kept.trans {m'' : Machine} (h : Kept m m') (h' : Kept m' m'') : Kept m m'' where
  wellFormed := h'.wellFormed
  cr3 := h'.cr3.trans h.cr3
  walk v hv := (h'.walk v hv).trans (h.walk v hv)

/-- The machine after the block of one upper level made a new table at word `a` from the page. -/
def newTable (m : Machine) (a page : Nat) (rest : List Nat) : Machine :=
  (({ m with free := rest }).put a (fields (tableFields page) 0)).zero (page >>> 12)

theorem linked_newTable {page : Nat} {rest : List Nat} (hm : WellFormed m) (hf : Table m.mem m.cr3 π f)
    (hπ : π.length < 3) (hi : i < 512) (hw : π = [] → i ≠ 511) (ha : present (m.mem (512 * f + i)) = false)
    (hp : m.free = page :: rest) :
    Linked m.mem (newTable m (512 * f + i) page rest).mem m.cr3 π f i (page >>> 12) := by
  have hpage := hm.fresh.aligned page (by rw [hp]; exact List.mem_cons_self)
  have hg : 4096 * (page >>> 12) = page := by
    rw [Nat.shiftRight_eq_div_pow]
    omega
  have apart : ∀ {ρ h}, Table m.mem m.cr3 ρ h → h ≠ page >>> 12 := by
    rintro ρ h hh rfl
    exact hm.fresh.apart hh (by rw [hg, hp]; exact List.mem_cons_self)
  have he : (newTable m (512 * f + i) page rest).mem (512 * f + i) = fields (tableFields page) 0 := by
    have := apart hf
    show (if (512 * f + i) / 512 = page >>> 12 then 0 else _) = _
    rw [if_neg (by omega), Machine.put_mem_self]
  exact {
    tables := hm.tables
    table := hf
    short := hπ
    bound := hi
    window := hw
    absent := ha
    apart := apart
    entry := he ▸ (tableFields_spec hpage.2).1
    target := he ▸ (tableFields_spec hpage.2).2
    zero := fun j hj => if_pos (by omega)
    same := fun a hne hz => (if_neg hz).trans (Machine.put_mem_ne _ hne) }

theorem Linked.kept (hm : WellFormed m) (hL : Linked m.mem m'.mem m.cr3 π f i g) (hc : m'.cr3 = m.cr3)
    (hp : m.free = 4096 * g :: m'.free) : Kept m m' where
  wellFormed := by
    have hf := hm.fresh
    refine ⟨hc ▸ hL.tables', ⟨fun p hp' => hf.aligned p (by rw [hp]; exact List.mem_cons_of_mem _ hp'), ?_, ?_⟩⟩
    · have := hf.nodup
      rw [hp] at this
      exact this.of_cons
    · intro ρ h hh
      rw [hc] at hh
      obtain hh | ⟨-, rfl⟩ := hL.table_iff.mp hh
      · exact fun hmem => hf.apart hh (by rw [hp]; exact List.mem_cons_of_mem _ hmem)
      · have := hf.nodup
        rw [hp] at this
        exact (List.nodup_cons.mp this).1
  cr3 := hc
  walk v hv := by
    unfold Paging.walk
    rw [hc]
    exact hL.walkFrom_eq hv (by decide) .root

/-- The words that an edit of entry `i` of table `f`, and of the frames `G`, may change. -/
def Touched (f i : Nat) (G : Nat → Prop) (a : Nat) : Prop := a = 512 * f + i ∨ G (a / 512)

/-- The window of the table `f` on the path of `v` leads over none of the words an edit of
    its entry changes. -/
theorem descent_window {v d : Nat} {G : Nat → Prop} (hT : Tables m.mem m.cr3) (hv : index 3 v ≠ 511) (hk : k ≤ 3)
    (hd : d ≤ 4) (hkd : k ≤ d) (hf : Table m.mem m.cr3 (path v k) f) (hl : Leads d va v)
    (hG : ∀ ρ h, Table m.mem m.cr3 ρ h → ¬ G h) :
    Descent m.mem m.cr3 va (Touched f (index (3 - k) v) G) (d - k) f := by
  have hi := index_lt (3 - k) v
  refine descent_path hT hd hl ?_ hkd hf ?_
  · rintro (e | e)
    · obtain ⟨rfl, hi'⟩ : f = m.cr3 ∧ 511 = index (3 - k) v := by omega
      have hp := congrArg List.length (hT.once hf .root)
      rw [length_path] at hp
      obtain rfl : k = 0 := hp
      exact hv hi'.symm
    · rw [show (512 * m.cr3 + 511) / 512 = m.cr3 by omega] at e
      exact hG _ _ .root e
  · rintro ρ h hh hlt j hj (e | e)
    · obtain rfl : h = f := by omega
      have hp := congrArg List.length (hT.once hh hf)
      rw [length_path] at hp
      omega
    · rw [show (512 * h + j) / 512 = h by omega] at e
      exact hG _ _ hh e

theorem load_window {v : Nat} (hT : Tables m.mem m.cr3) (hv : index 3 v ≠ 511) (hk : k ≤ 3)
    (hf : Table m.mem m.cr3 (path v k) f) :
    load (entriesAt k + 8 * number k v) m = .ok (m.mem (512 * f + index (3 - k) v), m) := by
  obtain ⟨hl, ho⟩ := leads_entry hk v
  have h := descent_window (G := fun _ => False) hT hv hk (by omega) (le_refl k) hf hl fun _ _ _ => id
  rw [Nat.sub_self] at h
  rw [load_eq h, ho]

theorem assign_window {v : Nat} (hT : Tables m.mem m.cr3) (hv : index 3 v ≠ 511) (hk : k ≤ 3)
    (hf : Table m.mem m.cr3 (path v k) f) (fs : List (BitField × Nat)) :
    assign (entriesAt k + 8 * number k v) fs m =
      .ok ((), m.put (512 * f + index (3 - k) v) (fields fs (m.mem (512 * f + index (3 - k) v)))) := by
  obtain ⟨hl, ho⟩ := leads_entry hk v
  have h := descent_window (G := fun _ => False) hT hv hk (by omega) (le_refl k) hf hl fun _ _ _ => id
  rw [Nat.sub_self] at h
  exact assign_eq h (by rw [ho]) (.inl rfl) fs

theorem present_iff (e : Nat) : Pte.p.get e = 0 ↔ present e = false := BitField.get_eq_zero_iff rfl

/-- The entry is linked to the page, and the window of the next level shows the page. -/
theorem ensure_absent {v page : Nat} {rest : List Nat} (hm : WellFormed m) (hv : index 3 v ≠ 511) (hk : k < 3)
    (hf : Table m.mem m.cr3 (path v k) f) (ha : present (m.mem (512 * f + index (3 - k) v)) = false)
    (hp : m.free = page :: rest) :
    ensure (entriesAt k) (entriesAt (k + 1)) (number k v) m =
      .ok ((), newTable m (512 * f + index (3 - k) v) page rest) := by
  have hlen : (path v k).length < 3 := by rwa [length_path]
  have h0 := hm.tables.absent hf hlen (index_lt _ _) ha
  have hL := linked_newTable hm hf hlen (index_lt _ _) (index_of_path_nil hv) ha hp
  have hG : ∀ ρ h, Table m.mem m.cr3 ρ h → ¬ (h = page >>> 12) := fun ρ h hh => hL.apart hh
  have hw := assign_window (m := { m with free := rest }) hm.tables hv (by omega) hf (tableFields page)
  rw [show ({ m with free := rest } : Machine).mem = m.mem from rfl, h0] at hw
  have hz : memset (entriesAt (k + 1) + number k v <<< 12) 512
      (({ m with free := rest } : Machine).put (512 * f + index (3 - k) v) (fields (tableFields page) 0)) =
      .ok ((), newTable m (512 * f + index (3 - k) v) page rest) := by
    refine memset_page (S := fun a => a / 512 = page >>> 12) (fun j hj => ?_) (fun j hj => (leads_page hk v hj).2)
      fun j hj => by omega
    obtain ⟨hl, -⟩ := leads_page hk v hj
    have h := descent_window hm.tables hv (by omega) (by omega) (Nat.le_succ k) hf hl hG
    rw [Nat.succ_sub (le_refl k), Nat.sub_self] at h
    have hi : index 0 (entriesAt (k + 1) + number k v <<< 12 + 8 * j) = index (3 - k) v := by
      rw [hl 0 (by decide), if_neg (by omega)]
      congr 1
      omega
    have h := (h.congr (({ m with free := rest } : Machine).put (512 * f + index (3 - k) v)
      (fields (tableFields page) 0)).mem (fun a => a / 512 = page >>> 12)
      (fun a hn => Machine.put_mem_ne _ fun e => hn (.inl e)) fun a hn e => hn (.inr e)).step
    rw [hi, Machine.put_mem_self] at h
    have hpage := (hm.fresh.aligned page (by rw [hp]; exact List.mem_cons_self)).2
    rw [(tableFields_spec hpage).2] at h
    refine h (fun e => hG _ _ hf ?_) (tableFields_spec hpage).1
    have := index_lt (3 - k) v
    omega
  have hg : getFreePage m = .ok (page, { m with free := rest }) := by
    unfold getFreePage
    rw [hp]
  unfold ensure
  rw [bind_ok (load_window hm.tables hv (by omega) hf), if_pos ((present_iff _).mpr ha), bind_ok hg, bind_ok hw, hz]

/-- One upper level: afterwards the path of `v` goes on, and no walk has changed. -/
theorem ensure_ends {v : Nat} (hm : WellFormed m) (hv : index 3 v ≠ 511) (hk : k < 3)
    (hf : Table m.mem m.cr3 (path v k) f) :
    Ends (ensure (entriesAt k) (entriesAt (k + 1)) (number k v)) m 1 fun _ m' =>
      Kept m m' ∧ m.free.length ≤ m'.free.length + 1 ∧ ∃ g, Table m'.mem m'.cr3 (path v (k + 1)) g := by
  have hlen : (path v k).length < 3 := by rwa [length_path]
  cases ha : present (m.mem (512 * f + index (3 - k) v)) with
  | true =>
    have he : ensure (entriesAt k) (entriesAt (k + 1)) (number k v) m = .ok ((), m) := by
      unfold ensure
      rw [bind_ok (load_window hm.tables hv (by omega) hf), if_neg (by rw [present_iff, ha]; decide)]
      rfl
    unfold Ends
    rw [he]
    exact ⟨⟨hm, rfl, fun _ _ => rfl⟩, Nat.le_succ _, _, child_of_present hv hk hf ha⟩
  | false =>
    rcases hp : m.free with _ | ⟨page, rest⟩
    · have he : ensure (entriesAt k) (entriesAt (k + 1)) (number k v) m = .error .outOfPages := by
        have hg : getFreePage m = .error .outOfPages := by
          unfold getFreePage
          rw [hp]
        unfold ensure
        rw [bind_ok (load_window hm.tables hv (by omega) hf), if_pos ((present_iff _).mpr ha), bind_error hg]
      unfold Ends
      rw [he]
      simp [hp]
    · have hL := linked_newTable hm hf hlen (index_lt _ _) (index_of_path_nil hv) ha hp
      have hg : 4096 * (page >>> 12) = page := by
        have := (hm.fresh.aligned page (by rw [hp]; exact List.mem_cons_self)).1
        rw [Nat.shiftRight_eq_div_pow]
        omega
      unfold Ends
      rw [ensure_absent hm hv hk hf ha hp]
      exact ⟨hL.kept hm rfl (by rw [hg]; exact hp), le_refl _, _, hL.table_iff.mpr (.inr ⟨rfl, rfl⟩)⟩

/-! ## The leaf -/

variable {v v' w : Nat}

/-- The leaf entry of a page is a word of no upper table. -/
theorem leaf_ne_upper (hT : Tables mem root) (hf : Table mem root (path v 3) f) (hh : Table mem root π h)
    (hπ : π.length < 3) (hj : j < 512) : 512 * h + j ≠ 512 * f + index 0 v := by
  intro e
  have hi := index_lt 0 v
  obtain rfl : h = f := by omega
  have hlen := congrArg List.length (hT.once hh hf)
  rw [length_path] at hlen
  omega

/-- The leaf entry of a page is that of no other page. -/
theorem leaf_ne_leaf (hT : Tables mem root) (hf : Table mem root (path v 3) f) (hh : Table mem root (path v' 3) h)
    (hne : ¬ SamePage v v') : 512 * h + index 0 v' ≠ 512 * f + index 0 v := by
  intro e
  have hi := index_lt 0 v
  have hi' := index_lt 0 v'
  obtain ⟨rfl, h0⟩ : h = f ∧ index 0 v' = index 0 v := by omega
  have hp := hT.once hh hf
  simp only [path, List.cons.injEq] at hp
  refine hne (samePage_of_index fun n hn => ?_)
  obtain rfl | rfl | rfl | rfl : n = 0 ∨ n = 1 ∨ n = 2 ∨ n = 3 := by omega
  · exact h0.symm
  · exact hp.1.symm
  · exact hp.2.1.symm
  · exact hp.2.2.1.symm

theorem upper_put (hT : Tables m.mem m.cr3) (hf : Table m.mem m.cr3 (path v 3) f) (hh : Table m.mem m.cr3 π h)
    (hπ : π.length < 3) (hj : j < 512) (w : Nat) :
    (m.put (512 * f + index 0 v) w).mem (512 * h + j) = m.mem (512 * h + j) :=
  m.put_mem_ne (leaf_ne_upper hT hf hh hπ hj)

theorem table_put_iff (hT : Tables m.mem m.cr3) (hf : Table m.mem m.cr3 (path v 3) f) (w : Nat) :
    Table (m.put (512 * f + index 0 v) w).mem m.cr3 π h ↔ Table m.mem m.cr3 π h := by
  constructor
  · intro hh
    induction hh with
    | root => exact .root
    | @child π h j _ hlen hj hw hp ih =>
      rw [upper_put hT hf ih hlen hj] at hp ⊢
      exact .child ih hlen hj hw hp
  · intro hh
    induction hh with
    | root => exact .root
    | @child π h j hh hlen hj hw hp ih =>
      rw [← upper_put hT hf hh hlen hj w] at hp ⊢
      exact .child ih hlen hj hw hp

/-- Whatever is written to a leaf entry. -/
theorem wellFormed_put (hm : WellFormed m) (hf : Table m.mem m.cr3 (path v 3) f) (w : Nat) :
    WellFormed (m.put (512 * f + index 0 v) w) where
  tables := by
    have hT := hm.tables
    exact {
      recursive := by
        rw [show (m.put (512 * f + index 0 v) w).cr3 = m.cr3 from rfl, upper_put hT hf .root (by decide) (by decide)]
        exact hT.recursive
      once := fun h1 h2 => hT.once ((table_put_iff hT hf w).mp h1) ((table_put_iff hT hf w).mp h2)
      upper := fun hh hlen hj hp => by
        have hh := (table_put_iff hT hf w).mp hh
        rw [upper_put hT hf hh hlen hj] at hp ⊢
        exact hT.upper hh hlen hj hp
      absent := fun hh hlen hj hp => by
        have hh := (table_put_iff hT hf w).mp hh
        rw [upper_put hT hf hh hlen hj] at hp ⊢
        exact hT.absent hh hlen hj hp }
  fresh := ⟨hm.fresh.aligned, hm.fresh.nodup, fun hh => hm.fresh.apart ((table_put_iff hm.tables hf w).mp hh)⟩

/-- A leaf entry belongs to one page. -/
theorem walkFrom_put (hT : Tables m.mem m.cr3) (hf : Table m.mem m.cr3 (path v 3) f) (hv : index 3 v' ≠ 511)
    (hne : ¬ SamePage v v') {l : Nat} (hl : l ≤ 3) (hh : Table m.mem m.cr3 (path v' (3 - l)) h) :
    walkFrom (m.put (512 * f + index 0 v) w).mem v' l h = walkFrom m.mem v' l h := by
  induction l generalizing h with
  | zero => exact walkFrom_congr (m.put_mem_ne (leaf_ne_leaf hT hf hh hne)) fun n hn => absurd hn (by omega)
  | succ l ih =>
    refine walkFrom_congr (upper_put hT hf hh (by rw [length_path]; omega) (index_lt _ _) w) fun n hn hp => ?_
    obtain rfl : l = n := by omega
    exact ih (by omega) (child_at_level hv hl hh hp)

theorem walk_put (hm : WellFormed m) (hf : Table m.mem m.cr3 (path v 3) f) (hv : index 3 v' ≠ 511)
    (hne : ¬ SamePage v v') (w : Nat) : walk (m.put (512 * f + index 0 v) w) v' = walk m v' :=
  walkFrom_put hm.tables hf hv hne (le_refl 3) .root

/-- What the leaf entry says of its page. -/
theorem walk_leaf (hm : WellFormed m) (hf : Table m.mem m.cr3 (path v 3) f) :
    ∃ u : Bool, walk m v = (if present (m.mem (512 * f + index 0 v)) then
      some (permits (m.mem (512 * f + index 0 v)) (frameOf (m.mem (512 * f + index 0 v)))) else none).map
        fun t => { t with user := t.user && u } :=
  walk_of_path hm.tables (by decide) hf

/-! ## The calls -/

/-- The walk of the page of `v` became `t`, and no other walk changed. -/
structure Updated (m m' : Machine) (v : Nat) (t : Option Translation) : Prop where
  wellFormed : WellFormed m'
  self : walk m' v = t
  other : ∀ v', index 3 v' ≠ 511 → ¬ SamePage v v' → walk m' v' = walk m v'

theorem leaf_assigned {physaddr : Nat} (use : MappingUse) (hm : WellFormed m) (hv : index 3 v ≠ 511)
    (hf : Table m.mem m.cr3 (path v 3) f) (hp : physaddr < 2 ^ 52) :
    let a := 512 * f + index 0 v
    let w := fields (useFields use) (fields (leafFields physaddr) (m.mem a))
    (assign (entriesAt 3 + 8 * number 3 v) (leafFields physaddr) >>= fun _ =>
      assign (entriesAt 3 + 8 * number 3 v) (useFields use)) m = .ok ((), m.put a w) ∧
    Updated m (m.put a w) v (some (mapping physaddr use)) := by
  intro a w
  obtain ⟨hw, hmap⟩ := leaf_spec hp use (m.mem a)
  refine ⟨?_, wellFormed_put hm hf w, ?_, fun v' hv' hne => walk_put hm hf hv' hne w⟩
  · have h1 := assign_window hm.tables hv (le_refl 3) hf (leafFields physaddr)
    have hm' := wellFormed_put hm hf (fields (leafFields physaddr) (m.mem a))
    have h2 := assign_window hm'.tables hv (le_refl 3) ((table_put_iff hm.tables hf _).mpr hf) (useFields use)
    rw [bind_ok h1, Nat.sub_self, h2, Nat.sub_self, Machine.put_mem_self, Machine.put_put]
  · obtain ⟨u, e⟩ := walk_leaf (wellFormed_put hm hf w) ((table_put_iff hm.tables hf w).mpr hf)
    rw [Machine.put_mem_self, if_pos hw, hmap] at e
    rw [e]
    simp [mapping]

theorem platformMap_ends {physaddr : Nat} (use : MappingUse) (hm : WellFormed m) (hv : index 3 v ≠ 511)
    (hp : physaddr < 2 ^ 52) :
    Ends (platformMap v physaddr use) m 3 fun _ m' => Updated m m' v (some (mapping physaddr use)) := by
  show Ends (ensure (entriesAt 0) (entriesAt 1) (number 0 v) >>= fun _ =>
    ensure (entriesAt 1) (entriesAt 2) (number 1 v) >>= fun _ =>
    ensure (entriesAt 2) (entriesAt 3) (number 2 v) >>= fun _ =>
    assign (entriesAt 3 + 8 * number 3 v) (leafFields physaddr) >>= fun _ =>
    assign (entriesAt 3 + 8 * number 3 v) (useFields use)) m (1 + (1 + (1 + 0))) _
  refine (ensure_ends hm hv (by decide : 0 < 3) .root).bind ?_
  rintro - m1 ⟨k1, n1, f1, h1⟩
  refine ⟨n1, (ensure_ends k1.wellFormed hv (by decide : 1 < 3) h1).bind ?_⟩
  rintro - m2 ⟨k2, n2, f2, h2⟩
  refine ⟨n2, (ensure_ends k2.wellFormed hv (by decide : 2 < 3) h2).bind ?_⟩
  rintro - m3 ⟨k3, n3, f3, h3⟩
  obtain ⟨he, hu⟩ := leaf_assigned use k3.wellFormed hv h3 hp
  refine ⟨n3, ?_⟩
  unfold Ends
  rw [he]
  exact ⟨hu.wellFormed, hu.self, fun v' hv' hne => (hu.other v' hv' hne).trans (((k1.trans k2).trans k3).walk v' hv')⟩

/-- A missing entry on the way to a page. -/
theorem walk_of_absent (hm : WellFormed m) (hk : k < 4) (hf : Table m.mem m.cr3 (path v k) f)
    (ha : present (m.mem (512 * f + index (3 - k) v)) = false) : walk m v = none := by
  obtain ⟨u, e⟩ := walk_of_path hm.tables hk hf
  rw [walkFrom_absent ha] at e
  exact e

theorem unmapped_spec (hm : WellFormed m) (hf : Table m.mem m.cr3 (path v 3) f) :
    Updated m (m.put (512 * f + index 0 v) (fields [(Pte.p, 0)] (m.mem (512 * f + index 0 v)))) v none where
  wellFormed := wellFormed_put hm hf _
  self := by
    refine walk_of_absent (wellFormed_put hm hf _) (by decide : 3 < 4) ((table_put_iff hm.tables hf _).mpr hf) ?_
    rw [Nat.sub_self, Machine.put_mem_self]
    simp [-Nat.testBit_zero, present, fields, BitField.testBit_set, Pte.p]
  other v' hv' hne := walk_put hm hf hv' hne _

/-- What `platform_unmap(v)` returns, and what it leaves. -/
def UnmapSpec (m : Machine) (v r : Nat) (m' : Machine) : Prop :=
  match walk m v with
  | some t => r = 4096 * t.frame ∧ Updated m m' v none
  | none => r = 0 ∧ m' = m

/-- One test of `platform_unmap`: an absent entry ends it. -/
theorem unmap_level {d : Nat → Exec Nat} (hm : WellFormed m) (hv : index 3 v ≠ 511) (hk : k ≤ 3)
    (hf : Table m.mem m.cr3 (path v k) f)
    (hd : present (m.mem (512 * f + index (3 - k) v)) = true →
      Ends (d (m.mem (512 * f + index (3 - k) v))) m 0 (UnmapSpec m v)) :
    Ends (load (entriesAt k + 8 * number k v) >>= fun w => if Pte.p.get w = 0 then pure 0 else d w) m 0
      (UnmapSpec m v) := by
  have hl := load_window hm.tables hv hk hf
  cases hp : present (m.mem (512 * f + index (3 - k) v)) with
  | false =>
    unfold Ends
    rw [bind_ok hl, if_pos ((present_iff _).mpr hp)]
    show UnmapSpec m v 0 m
    unfold UnmapSpec
    rw [walk_of_absent hm (by omega) hf hp]
    exact ⟨rfl, rfl⟩
  | true =>
    have h := hd hp
    unfold Ends at h ⊢
    rwa [bind_ok hl, if_neg (by rw [present_iff, hp]; decide)]

theorem platformUnmap_ends (hm : WellFormed m) (hv : index 3 v ≠ 511) :
    Ends (platformUnmap v) m 0 (UnmapSpec m v) := by
  show Ends (load (entriesAt 0 + 8 * number 0 v) >>= fun w => if Pte.p.get w = 0 then pure 0 else
    load (entriesAt 1 + 8 * number 1 v) >>= fun w => if Pte.p.get w = 0 then pure 0 else
    load (entriesAt 2 + 8 * number 2 v) >>= fun w => if Pte.p.get w = 0 then pure 0 else
    load (entriesAt 3 + 8 * number 3 v) >>= fun w => if Pte.p.get w = 0 then pure 0 else
    load (entriesAt 3 + 8 * number 3 v) >>= fun w =>
    assign (entriesAt 3 + 8 * number 3 v) [(Pte.p, 0)] >>= fun _ => pure (Pte.addr.get w <<< 12)) m 0 _
  have hT := hm.tables
  have h0 : Table m.mem m.cr3 (path v 0) m.cr3 := .root
  refine unmap_level hm hv (by decide) h0 fun p0 => ?_
  obtain ⟨f1, h1⟩ : ∃ f1, Table m.mem m.cr3 (path v 1) f1 := ⟨_, child_of_present hv (by decide) h0 p0⟩
  refine unmap_level hm hv (by decide) h1 fun p1 => ?_
  obtain ⟨f2, h2⟩ : ∃ f2, Table m.mem m.cr3 (path v 2) f2 := ⟨_, child_of_present hv (by decide) h1 p1⟩
  refine unmap_level hm hv (by decide) h2 fun p2 => ?_
  obtain ⟨f3, h3⟩ : ∃ f3, Table m.mem m.cr3 (path v 3) f3 := ⟨_, child_of_present hv (by decide) h2 p2⟩
  refine unmap_level hm hv (by decide) h3 fun p3 => ?_
  unfold Ends
  rw [bind_ok (load_window hT hv (by decide) h3), bind_ok (assign_window hT hv (by decide) h3 _)]
  obtain ⟨u, e⟩ := walk_leaf hm h3
  rw [if_pos p3] at e
  show UnmapSpec m v _ _
  unfold UnmapSpec
  rw [e]
  refine ⟨?_, unmapped_spec hm h3⟩
  show Pte.addr.get _ <<< 12 = 4096 * Pte.addr.get _
  rw [Nat.shiftLeft_eq, Nat.mul_comm]

/-- A run keeps the tables well-formed. -/
theorem exec_wellFormed {op : Op} {r : Nat} (hm : WellFormed m) (hv : Valid op) (he : exec op m = .ok (r, m')) :
    WellFormed m' := by
  cases op with
  | map v p use =>
    have h := platformMap_ends use hm hv.1 hv.2
    unfold Ends at h
    rcases hc : platformMap v p use m with (_ | _) | ⟨⟨⟩, m''⟩
    · rw [hc] at h
      exact h.elim
    · have := (bind_error (d := fun _ => pure 0) hc).symm.trans he
      cases this
    · rw [hc] at h
      have := (bind_ok (d := fun _ => (pure 0 : Exec Nat)) hc).symm.trans he
      obtain ⟨-, rfl⟩ := this
      exact h.wellFormed
  | unmap v =>
    have h := platformUnmap_ends hm hv
    unfold Ends at h
    rw [show platformUnmap v m = .ok (r, m') from he] at h
    replace h : UnmapSpec m v r m' := h
    unfold UnmapSpec at h
    split at h
    · exact h.2.wellFormed
    · exact h.2 ▸ hm

/-- After every run from tables in order: `platform_map(v, p, use)` faults nowhere and makes `v`
    lead to frame `p >> 12` with the rights of `use`, `platform_unmap(v)` returns the address that
    was mapped and takes the mapping away (or returns 0 and changes nothing), and the walks of all
    other pages outside the recursive window stay. -/
theorem page_tables_are_a_map {m₀ : Machine} {ops : List Op} (h0 : WellFormed m₀) (hrun : Run Step m₀ ops m) (v : Nat)
    (hv : index 3 v ≠ 511) :
    (∀ physaddr use, physaddr < 2 ^ 52 →
      Ends (platformMap v physaddr use) m 3 fun _ m' => Updated m m' v (some (mapping physaddr use))) ∧
    Ends (platformUnmap v) m 0 (UnmapSpec m v) := by
  have hm : WellFormed m := hrun.invariant (I := WellFormed) (fun _ _ _ hs ⟨hvalid, _, he⟩ => exec_wellFormed hs hvalid he) h0
  exact ⟨fun p use hp => platformMap_ends use hm hv hp, platformUnmap_ends hm hv⟩

/-- With three free pages the call returns. -/
theorem map_returns {p : Nat} (use : MappingUse) (hm : WellFormed m) (hv : index 3 v ≠ 511) (hp : p < 2 ^ 52)
    (hfree : 3 ≤ m.free.length) : ∃ m', Step m (.map v p use) m' := by
  have h := platformMap_ends use hm hv hp
  unfold Ends at h
  rcases hc : platformMap v p use m with (_ | _) | ⟨⟨⟩, m'⟩
  · rw [hc] at h
    exact h.elim
  · rw [hc] at h
    exact absurd h (Nat.not_lt.mpr hfree)
  · exact ⟨m', ⟨hv, hp⟩, 0, (bind_ok (d := fun _ => (pure 0 : Exec Nat)) hc).trans rfl⟩

/-- A PML4 in frame 1 with nothing but the entry that points to itself. -/
def blank : Machine := ⟨fun a => if a = 512 * 1 + 511 then 0x1003 else 0, 1, [0x2000, 0x3000, 0x4000]⟩

theorem blank_word {i : Nat} (h : i ≠ 511) : blank.mem (512 * 1 + i) = 0 := if_neg (by omega)

theorem blank_table {π : List Nat} {f : Nat} (h : Table blank.mem 1 π f) : π = [] ∧ f = 1 := by
  induction h with
  | root => exact ⟨rfl, rfl⟩
  | @child π f i _ _ _ hw hp ih =>
    obtain ⟨rfl, rfl⟩ := ih
    rw [blank_word (hw rfl)] at hp
    cases hp

theorem blank_wellFormed : WellFormed blank where
  tables := {
    recursive := by decide
    once := fun h h' => (blank_table h).1.trans (blank_table h').1.symm
    upper := by
      intro π f i h _ _ hp
      obtain ⟨rfl, rfl⟩ := blank_table h
      by_cases hi : i = 511
      · subst hi
        exact ⟨rfl, rfl, rfl, rfl⟩
      · rw [blank_word hi] at hp
        cases hp
    absent := by
      intro π f i h _ _ hp
      obtain ⟨rfl, rfl⟩ := blank_table h
      by_cases hi : i = 511
      · subst hi
        cases hp
      · exact blank_word hi }
  fresh := {
    aligned := by decide
    nodup := by decide
    apart := by
      intro π f h
      obtain ⟨rfl, rfl⟩ := blank_table h
      decide }

theorem page_tables_are_a_map_blank :
    ∃ m, Run Step blank [.map 0x8000000 0xFEE00000 .DeviceRegisters] m ∧
      ((∀ physaddr use, physaddr < 2 ^ 52 →
        Ends (platformMap 0x9000000 physaddr use) m 3 fun _ m' => Updated m m' 0x9000000 (some (mapping physaddr use))) ∧
      Ends (platformUnmap 0x9000000) m 0 (UnmapSpec m 0x9000000)) := by
  obtain ⟨m, hs⟩ := map_returns (v := 0x8000000) (p := 0xFEE00000) .DeviceRegisters blank_wellFormed (by decide)
    (by decide) (by decide)
  have hrun := Run.single hs
  exact ⟨m, hrun, page_tables_are_a_map blank_wellFormed hrun 0x9000000 (by decide)⟩

end Rodvin.Kernel.Paging
