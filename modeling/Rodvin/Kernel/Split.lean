/-
  Rodvin.Kernel.Split — cutting the command line into arguments (`split` in
  `kernel/src/common/Shell.cpp`).

  The loop over the spaces between two arguments does not look at `end()`. Behind the last
  character it stops at the terminator, or at the lead byte that `pop_back` left there; an
  erased space leads it out of the string (`passSpaces_trailing`). And the last argument is
  made whether there is one or not.

  `split_iff`: the arguments are the maximal runs without a space exactly when the line does
  not end with a space and is not empty. `split_eq_ok_iff`: on which lines `split` returns,
  and what it gives there.
-/

import Mathlib.Data.List.TakeWhile
import Rodvin.Lib.Separated
import Rodvin.Kernel.EditLine

namespace Rodvin.Kernel.Split

open Rodvin.Lib Rodvin.Libc Rodvin.Libc.Str Rodvin.Kernel.Console Rodvin.Kernel.EditLine

def space : UInt32 := 0x20

/-- `string(const_iterator& b, const_iterator& e)`. -/
def ofIterators (fresh : Nat → UInt8) (b e : ConstIterator) : Checked Str := do
  let size := sub64 e.offset b.offset
  let storage ← new fresh (add64 size 1)
  let storage ← memcpy storage 0 (← deref b.str.storage) b.offset size
  let storage ← write storage size 0
  pure ⟨some storage, size, size⟩

/-- `while (it != str.end() && *it == ' ') ++it`, in at most so many turns. -/
def leadingSpaces : Nat → ConstIterator → Checked ConstIterator
  | fuel, it =>
    if it.offset = it.str.size_ then pure it
    else
      match fuel with
      | 0 => .error .noReturn
      | fuel + 1 => do
        if (← it.value) = space then leadingSpaces fuel (← it.increment) else pure it

/-- `while (*it == ' ') ++it`. -/
def passSpaces : Nat → ConstIterator → Checked ConstIterator
  | 0, _ => .error .noReturn
  | fuel + 1, it => do
    if (← it.value) = space then passSpaces fuel (← it.increment) else pure it

/-- The loop over the arguments, with those so far and the start of the next one. -/
def splitFrom (fresh : Nat → Nat → UInt8) : Nat → List Str → ConstIterator → ConstIterator → Checked (List Str)
  | fuel, v, cur, it =>
    if it.offset = it.str.size_ then do pure (v ++ [← ofIterators (fresh v.length) cur it])
    else
      match fuel with
      | 0 => .error .noReturn
      | fuel + 1 => do
        if (← it.value) = space then
          let arg ← ofIterators (fresh v.length) cur it
          let it ← passSpaces (it.str.capacity_ + 2) it
          splitFrom fresh fuel (v ++ [arg]) it it
        else splitFrom fresh fuel v cur (← it.increment)

/-- `split`. Every turn of a loop goes up in the buffer, so they end or leave it in as many
    turns as it has bytes. -/
def split (fresh : Nat → Nat → UInt8) (str : Str) : Checked (List Str) := do
  let it ← leadingSpaces (str.capacity_ + 2) (begin_ str)
  splitFrom fresh (str.capacity_ + 2) [] it it

/-! ## What it is to do -/

/-- The maximal runs of code points without a space. -/
def runs (cs : List UInt32) : List (List UInt32) := (parts space cs).filter (· ≠ [])

/-- The string in a buffer of its bytes and one more, the terminator's. -/
def trim (s : Str) : Str := ⟨s.storage.map (List.take (s.size_ + 1)), s.size_, s.size_⟩

/-- The arguments are the runs, and only the bytes of the string and of its terminator are
    read for them. -/
def Splits (fresh : Nat → Nat → UInt8) (s : Str) (cs : List UInt32) : Prop :=
  ∃ args, split fresh s = .ok args ∧ split fresh (trim s) = .ok args ∧ args.mapM values = .ok (runs cs)

variable {fresh : Nat → Nat → UInt8} {s : Str} {cs p q w t : List UInt32} {c : UInt32} {x : UInt8} {junk : Bytes} {n : Nat}
variable {v : List Str}

/-! ## Runs -/

theorem runs_word (hw : space ∉ w) (hne : w ≠ []) (q : List UInt32) : runs (w ++ space :: q) = w :: runs q := by
  unfold runs
  rw [parts_append hw, List.filter_cons_of_pos (by simpa using hne)]

theorem runs_last (hw : space ∉ w) (hne : w ≠ []) : runs w = [w] := by
  unfold runs
  rw [parts_of_free hw, List.filter_cons_of_pos (by simpa using hne)]
  rfl

theorem runs_spaces (ht : ∀ c ∈ t, c = space) (q : List UInt32) : runs (t ++ q) = runs q := by
  induction t with
  | nil => rfl
  | cons c t ih =>
    have hc : c = space := ht c List.mem_cons_self
    rw [hc, List.cons_append]
    unfold runs at ih ⊢
    rw [parts, if_pos rfl, List.filter_cons_of_neg (by simp)]
    exact ih fun d hd => ht d (List.mem_cons_of_mem _ hd)

theorem runs_behind (hw : space ∉ w) (hne : w ≠ []) (ht : ∀ c ∈ t, c = space) (hsome : t ≠ []) (q : List UInt32) :
    runs (w ++ (t ++ q)) = w :: runs q := by
  cases t with
  | nil => exact absurd rfl hsome
  | cons c t =>
    have hc : c = space := ht c List.mem_cons_self
    rw [hc, List.cons_append, runs_word hw hne, runs_spaces fun d hd => ht d (List.mem_cons_of_mem _ hd)]

theorem runs_all_spaces (ht : ∀ c ∈ t, c = space) : runs t = [] := by
  have h := runs_spaces ht []
  rwa [List.append_nil] at h

/-! ## Arguments -/

/-- The string of the code points, in a buffer of its size. -/
def ofPoints (cs : List UInt32) : Str := ⟨some (encoding cs ++ [0]), (encoding cs).length, (encoding cs).length⟩

theorem values_ofPoints (hc : ∀ c ∈ cs, c < 0x200000) : values (ofPoints cs) = .ok cs := by
  have hreads : Reads (ofPoints cs) cs 0 [] := ⟨rfl, rfl, rfl⟩
  exact valuesFrom_eq hc hreads (p := []) rfl (length_le_encoding cs)

theorem mapM_values {css : List (List UInt32)} (hc : ∀ cs ∈ css, ∀ c ∈ cs, c < 0x200000) :
    (css.map ofPoints).mapM values = .ok css := by
  induction css with
  | nil => rfl
  | cons cs css ih =>
    rw [List.map_cons, List.mapM_cons, ok_bind (values_ofPoints (hc cs List.mem_cons_self)),
      ok_bind (ih fun ds hds => hc ds (List.mem_cons_of_mem _ hds))]
    rfl

/-- Between two boundaries lies the string of the code points between them. -/
theorem ofIterators_eq (fresh : Nat → UInt8) {post : Bytes} (hs : s.storage = some (encoding p ++ (encoding w ++ post)))
    (hlim : (encoding p).length + (encoding w).length < heapLimit) :
    ofIterators fresh (boundary s p) (boundary s (p ++ w)) = .ok (ofPoints w) := by
  have hsize : sub64 (boundary s (p ++ w)).offset (boundary s p).offset = (encoding w).length := by
    show sub64 (encoding (p ++ w)).length (encoding p).length = _
    rw [encoding_append, List.length_append]
    unfold heapLimit at hlim
    rw [sub64_eq (by omega) (by omega)]
    omega
  have hadd : add64 (encoding w).length 1 = (encoding w).length + 1 := by
    unfold heapLimit at hlim
    exact add64_eq (by omega)
  have hderef : deref (boundary s p).str.storage = .ok (encoding p ++ (encoding w ++ post)) := by
    show deref s.storage = _
    rw [hs]
    rfl
  rcases new_cases fresh ((encoding w).length + 1) with ⟨d, hd, hdlen, -⟩ | ⟨-, hfull⟩
  · have hcopy : ∃ e, memcpy d 0 (encoding p ++ (encoding w ++ post)) (encoding p).length (encoding w).length = .ok e ∧
        Copied e (encoding p ++ (encoding w ++ post)) d 0 (encoding p).length (encoding w).length :=
      memcpy_spec (by simp only [List.length_append]; omega) (by omega)
    obtain ⟨e, he, helen, heget⟩ := hcopy
    have hend : (encoding w).length < e.length := by omega
    have hwrite : write e (encoding w).length 0 = .ok (e.set (encoding w).length 0) := if_pos hend
    have hbuf : e.set (encoding w).length 0 = encoding w ++ [0] := by
      refine List.ext_getElem? fun i => ?_
      rw [getElem?_set_of_lt hend, heget, List.getElem?_append_right (Nat.le_add_right _ _), Nat.add_sub_cancel_left,
        Nat.sub_zero]
      by_cases hi : i = (encoding w).length
      · rw [if_pos hi, hi, List.getElem?_append_right (Nat.le_refl _), Nat.sub_self]
        rfl
      · rw [if_neg hi]
        by_cases hlt : i < (encoding w).length
        · rw [if_pos (by omega), List.getElem?_append_left hlt, List.getElem?_append_left hlt]
        · rw [if_neg (by omega), List.getElem?_eq_none (by omega), List.getElem?_eq_none (by simp; omega)]
    unfold ofIterators
    simp only [hsize, hadd]
    rw [ok_bind hd, ok_bind hderef, show (boundary s p).offset = (encoding p).length from rfl, ok_bind he,
      ok_bind hwrite, hbuf]
    rfl
  · unfold heapLimit at *
    omega

/-! ## The loops inside the string -/

/-- The loop in front of the first argument stops at it, or at the end. -/
theorem leadingSpaces_eq (hq : ∀ c ∈ q.head?, c ≠ space) (hr : Reads s (p ++ (t ++ q)) x junk)
    (hc : ∀ c ∈ q, c < 0x200000)
    (ht : ∀ c ∈ t, c = space) (hn : t.length < n) : leadingSpaces n (boundary s p) = .ok (boundary s (p ++ t)) := by
  induction t generalizing p n with
  | nil =>
    rw [List.append_nil]
    unfold leadingSpaces
    cases q with
    | nil =>
      have hend := boundary_end hr
      rw [List.append_nil, List.append_nil] at hend
      rw [if_pos hend]
      rfl
    | cons c q =>
      have hval := boundary_value hr (hc c List.mem_cons_self)
      obtain ⟨n, rfl⟩ := Nat.exists_eq_succ_of_ne_zero (Nat.ne_of_gt hn)
      rw [if_neg (boundary_ne_end hr)]
      simp only
      rw [ok_bind hval, if_neg (hq c rfl)]
      rfl
  | cons c t ih =>
    have hspace : c = space := ht c List.mem_cons_self
    have hval := boundary_value hr (by rw [hspace]; decide)
    have hnext : Reads s (p ++ [c] ++ (t ++ q)) x junk := by rwa [List.append_assoc]
    obtain ⟨n, rfl⟩ := Nat.exists_eq_succ_of_ne_zero (Nat.ne_of_gt (Nat.lt_of_le_of_lt (Nat.zero_le _) hn))
    unfold leadingSpaces
    rw [if_neg (boundary_ne_end hr)]
    simp only
    rw [ok_bind hval, if_pos hspace, ok_bind (boundary_increment hr),
      ih hnext (fun d hd => ht d (List.mem_cons_of_mem _ hd)) (by simpa using hn), List.append_assoc]
    rfl

/-- The loop behind an argument stops at the next one. -/
theorem passSpaces_eq (hr : Reads s (p ++ (t ++ c :: q)) x junk) (hlt : c < 0x200000) (hne : c ≠ space)
    (ht : ∀ c ∈ t, c = space)
    (hn : t.length < n) : passSpaces n (boundary s p) = .ok (boundary s (p ++ t)) := by
  induction t generalizing p n with
  | nil =>
    obtain ⟨n, rfl⟩ := Nat.exists_eq_succ_of_ne_zero (Nat.ne_of_gt hn)
    rw [List.append_nil]
    unfold passSpaces
    rw [ok_bind (boundary_value hr hlt), if_neg hne]
    rfl
  | cons d t ih =>
    have hspace : d = space := ht d List.mem_cons_self
    have hval := boundary_value hr (by rw [hspace]; decide)
    have hnext : Reads s (p ++ [d] ++ (t ++ c :: q)) x junk := by rwa [List.append_assoc]
    obtain ⟨n, rfl⟩ := Nat.exists_eq_succ_of_ne_zero (Nat.ne_of_gt (Nat.lt_of_le_of_lt (Nat.zero_le _) hn))
    unfold passSpaces
    rw [ok_bind hval, if_pos hspace, ok_bind (boundary_increment hr),
      ih hnext (fun d hd => ht d (List.mem_cons_of_mem _ hd)) (by simpa using hn), List.append_assoc]
    rfl

/-- What precedes a part that does not start with a space. -/
theorem exists_spaces (q : List UInt32) : ∃ t r, q = t ++ r ∧ (∀ c ∈ t, c = space) ∧ ∀ c ∈ r.head?, c ≠ space := by
  refine ⟨q.takeWhile (· == space), q.dropWhile (· == space), List.takeWhile_append_dropWhile.symm, fun c hc => ?_,
    fun c hc => ?_⟩
  · simpa using List.mem_takeWhile_imp hc
  · have hhead := List.head?_dropWhile_not (· == space) q
    rw [Option.mem_def.mp hc] at hhead
    simpa using hhead

/-! ## Beyond the end -/

theorem skipUp_le {l : Bytes} {o o' : Nat} (h : skipUp l o = .ok o') : o ≤ o' := by
  induction l generalizing o with
  | nil => cases h
  | cons y l ih =>
    unfold skipUp at h
    by_cases hy : continues y = true
    · rw [if_pos hy] at h
      exact Nat.le_of_succ_le (ih h)
    · rw [if_neg hy] at h
      exact Nat.le_of_eq (Except.ok.inj h)

variable {it it' cur : ConstIterator}

theorem increment_up (h : it.increment = .ok it') : it'.str = it.str ∧ it.offset < it'.offset := by
  obtain ⟨b, -, h⟩ := bind_eq_ok.mp h
  obtain ⟨o, ho, h⟩ := bind_eq_ok.mp h
  obtain rfl := Except.ok.inj h
  exact ⟨rfl, skipUp_le ho⟩

theorem passSpaces_up (h : passSpaces n it = .ok it') : it'.str = it.str ∧ it.offset ≤ it'.offset := by
  induction n generalizing it with
  | zero => cases h
  | succ n ih =>
    unfold passSpaces at h
    obtain ⟨c, -, h⟩ := bind_eq_ok.mp h
    by_cases hc : c = space
    · rw [if_pos hc] at h
      obtain ⟨it1, hinc, h⟩ := bind_eq_ok.mp h
      obtain ⟨h1, h2⟩ := increment_up hinc
      obtain ⟨h3, h4⟩ := ih h
      exact ⟨h3.trans h1, by omega⟩
    · rw [if_neg hc] at h
      obtain rfl := Except.ok.inj h
      exact ⟨rfl, Nat.le_refl _⟩

/-- Behind the end the loop never meets it. -/
theorem splitFrom_beyond (hit : it.str.size_ < it.offset) {args : List Str} :
    splitFrom fresh n v cur it ≠ .ok args := by
  induction n generalizing v cur it with
  | zero =>
    intro h
    unfold splitFrom at h
    rw [if_neg (Nat.ne_of_gt hit)] at h
    cases h
  | succ n ih =>
    intro h
    unfold splitFrom at h
    rw [if_neg (Nat.ne_of_gt hit)] at h
    simp only at h
    obtain ⟨c, -, h⟩ := bind_eq_ok.mp h
    by_cases hc : c = space
    · rw [if_pos hc] at h
      obtain ⟨arg, -, h⟩ := bind_eq_ok.mp h
      obtain ⟨it1, hpass, h⟩ := bind_eq_ok.mp h
      obtain ⟨h1, h2⟩ := passSpaces_up hpass
      exact ih (by rw [h1]; omega) h
    · rw [if_neg hc] at h
      obtain ⟨it1, hinc, h⟩ := bind_eq_ok.mp h
      obtain ⟨h1, h2⟩ := increment_up hinc
      exact ih (by rw [h1]; omega) h

/-- What stands at `end()` is a character, and no space. -/
def Stops (s : Str) : Prop := ∃ c, (end_ s).value = .ok c ∧ c ≠ space

theorem boundary_eq_end (hr : Reads s cs x junk) : boundary s cs = end_ s := by
  unfold boundary end_
  rw [hr.size]

/-- At the end of the line the loop over the spaces stops, or the byte there is another
    one. -/
theorem passSpaces_trailing (hr : Reads s (p ++ t) x junk) (ht : ∀ c ∈ t, c = space)
    (h : passSpaces n (boundary s p) = .ok it) :
    (it = boundary s (p ++ t) ∧ Stops s) ∨ (it.str = s ∧ s.size_ < it.offset) := by
  induction t generalizing p n with
  | nil =>
    have hend := boundary_end hr
    rw [List.append_nil] at hend ⊢
    cases n with
    | zero => cases h
    | succ n =>
      unfold passSpaces at h
      obtain ⟨c, hval, h⟩ := bind_eq_ok.mp h
      by_cases hc : c = space
      · rw [if_pos hc] at h
        obtain ⟨it1, hinc, h⟩ := bind_eq_ok.mp h
        obtain ⟨h1, h2⟩ := increment_up hinc
        obtain ⟨h3, h4⟩ := passSpaces_up h
        refine .inr ⟨h3.trans h1, ?_⟩
        have hsize : (boundary s p).offset = s.size_ := hend
        omega
      · rw [if_neg hc] at h
        rw [List.append_nil] at hr
        exact .inl ⟨(Except.ok.inj h).symm, c, boundary_eq_end hr ▸ hval, hc⟩
  | cons d t ih =>
    have hspace : d = space := ht d List.mem_cons_self
    have hval := boundary_value hr (by rw [hspace]; decide)
    have hnext : Reads s (p ++ [d] ++ t) x junk := by rwa [List.append_assoc]
    cases n with
    | zero => cases h
    | succ n =>
      unfold passSpaces at h
      rw [ok_bind hval, if_pos hspace, ok_bind (boundary_increment hr)] at h
      have := ih hnext (fun d hd => ht d (List.mem_cons_of_mem _ hd)) h
      rwa [List.append_assoc] at this

theorem passSpaces_stops (hr : Reads s (p ++ t) x junk) (ht : ∀ c ∈ t, c = space) (hstop : Stops s)
    (hn : t.length < n) :
    passSpaces n (boundary s p) = .ok (boundary s (p ++ t)) := by
  induction t generalizing p n with
  | nil =>
    obtain ⟨c, hval, hne⟩ := hstop
    rw [List.append_nil] at hr ⊢
    obtain ⟨n, rfl⟩ := Nat.exists_eq_succ_of_ne_zero (Nat.ne_of_gt hn)
    rw [← boundary_eq_end hr] at hval
    unfold passSpaces
    rw [ok_bind hval, if_neg hne]
    rfl
  | cons d t ih =>
    have hspace : d = space := ht d List.mem_cons_self
    have hval := boundary_value hr (by rw [hspace]; decide)
    have hnext : Reads s (p ++ [d] ++ t) x junk := by rwa [List.append_assoc]
    obtain ⟨n, rfl⟩ := Nat.exists_eq_succ_of_ne_zero (Nat.ne_of_gt (Nat.lt_of_le_of_lt (Nat.zero_le _) hn))
    unfold passSpaces
    rw [ok_bind hval, if_pos hspace, ok_bind (boundary_increment hr),
      ih hnext (fun d hd => ht d (List.mem_cons_of_mem _ hd)) (by simpa using hn), List.append_assoc]
    rfl

/-! ## The loop over the arguments -/

/-- The string has a buffer in the heap. -/
structure Sized (s : Str) : Prop where
  size : s.size_ ≤ s.capacity_
  limit : s.capacity_ < heapLimit

/-- A loop has turns for every code point. -/
theorem turns_suffice (hsz : Sized s) (hr : Reads s cs x junk) (hn : n ≤ cs.length) : n < s.capacity_ + 2 := by
  have h1 := hr.size
  have h2 := hsz.size
  have h3 := length_le_encoding cs
  omega

theorem argument (fresh : Nat → UInt8) (hsz : Sized s) (hr : Reads s (p ++ (w ++ q)) x junk) :
    ofIterators fresh (boundary s p) (boundary s (p ++ w)) = .ok (ofPoints w) := by
  have hs : s.storage = some (encoding p ++ (encoding w ++ (encoding q ++ x :: junk))) := by
    rw [hr.storage, encoding_append, encoding_append, List.append_assoc, List.append_assoc]
  have hsize := hr.size
  rw [encoding_append, encoding_append, List.length_append, List.length_append] at hsize
  have h1 := hsz.size
  have h2 := hsz.limit
  exact ofIterators_eq fresh hs (by omega)

/-- One turn inside an argument. -/
theorem splitFrom_plain (hr : Reads s (p ++ (w ++ c :: q)) x junk) (hlt : c < 0x200000) (hne : c ≠ space) :
    splitFrom fresh (n + 1) v (boundary s p) (boundary s (p ++ w)) =
      splitFrom fresh n v (boundary s p) (boundary s (p ++ (w ++ [c]))) := by
  have hr' : Reads s (p ++ w ++ c :: q) x junk := by rwa [List.append_assoc]
  conv_lhs => unfold splitFrom
  rw [if_neg (boundary_ne_end hr')]
  simp only
  rw [ok_bind (boundary_value hr' hlt), if_neg hne, ok_bind (boundary_increment hr'), List.append_assoc]

/-- One turn at its end. -/
theorem splitFrom_space (hsz : Sized s) (hr : Reads s (p ++ (w ++ space :: q)) x junk) :
    splitFrom fresh (n + 1) v (boundary s p) (boundary s (p ++ w)) =
      passSpaces (s.capacity_ + 2) (boundary s (p ++ w)) >>= fun it => splitFrom fresh n (v ++ [ofPoints w]) it it := by
  have hr' : Reads s (p ++ w ++ space :: q) x junk := by rwa [List.append_assoc]
  conv_lhs => unfold splitFrom
  rw [if_neg (boundary_ne_end hr')]
  simp only
  rw [ok_bind (boundary_value hr' (by decide)), if_pos rfl, ok_bind (argument (fresh v.length) hsz hr)]
  rfl

theorem splitFrom_end (hsz : Sized s) (hr : Reads s (p ++ w) x junk) :
    splitFrom fresh n v (boundary s p) (boundary s (p ++ w)) = .ok (v ++ [ofPoints w]) := by
  have hr' : Reads s (p ++ (w ++ [])) x junk := by rwa [List.append_nil]
  unfold splitFrom
  rw [if_pos (boundary_end hr), ok_bind (argument (fresh v.length) hsz hr')]
  rfl

/-- What `splitFrom` gives from an argument on. -/
def Arguments (s : Str) (m : Checked (List Str)) (v : List Str) (cs : List UInt32) : Prop :=
  (cs.getLast? ≠ some space → m = .ok (v ++ (runs cs).map ofPoints)) ∧
    (cs.getLast? = some space → ∀ args, m = .ok args ↔ Stops s ∧ args = v ++ (runs cs).map ofPoints ++ [ofPoints []])

theorem splitFrom_last (hsz : Sized s) (hr : Reads s (p ++ w) x junk) (hw : space ∉ w) (hne : w ≠ []) :
    Arguments s (splitFrom fresh n v (boundary s p) (boundary s (p ++ w))) v w := by
  refine ⟨fun _ => ?_, fun h => absurd (List.mem_of_getLast? h) hw⟩
  rw [splitFrom_end hsz hr, runs_last hw hne]
  rfl

/-- Spaces that end the line: one argument more, where the loop over them stops. -/
theorem splitFrom_trailing (hsz : Sized s) (hr : Reads s (p ++ t) x junk) (ht : ∀ c ∈ t, c = space) (args : List Str) :
    (passSpaces (s.capacity_ + 2) (boundary s p) >>= fun it => splitFrom fresh n v it it) = .ok args ↔
      Stops s ∧ args = v ++ [ofPoints []] := by
  have hdone : splitFrom fresh n v (boundary s (p ++ t)) (boundary s (p ++ t)) = .ok (v ++ [ofPoints []]) := by
    have hnil : Reads s (p ++ t ++ []) x junk := by rwa [List.append_nil]
    have hempty : splitFrom fresh n v (boundary s (p ++ t)) (boundary s (p ++ t ++ [])) = .ok (v ++ [ofPoints []]) :=
      splitFrom_end hsz hnil
    rwa [List.append_nil] at hempty
  constructor
  · intro h
    obtain ⟨it, hpass, h⟩ := bind_eq_ok.mp h
    rcases passSpaces_trailing hr ht hpass with ⟨hit, hstop⟩ | ⟨hstr, hoff⟩
    · rw [hit, hdone] at h
      exact ⟨hstop, (Except.ok.inj h).symm⟩
    · exact absurd h (splitFrom_beyond (by rw [hstr]; exact hoff))
  · rintro ⟨hstop, rfl⟩
    rw [ok_bind (passSpaces_stops hr ht hstop (turns_suffice hsz hr (by simp only [List.length_append]; omega)))]
    exact hdone

/-- An argument and the spaces behind it, in front of what is still to come. -/
theorem Arguments.behind {m : Checked (List Str)} (hw : space ∉ w) (hne : w ≠ []) (ht : ∀ c ∈ t, c = space)
    (hsome : t ≠ [])
    (hq : q ≠ []) (h : Arguments s m (v ++ [ofPoints w]) q) : Arguments s m v (w ++ (t ++ q)) := by
  have hlast : (w ++ (t ++ q)).getLast? = q.getLast? := by
    rw [← List.append_assoc, List.getLast?_append_of_ne_nil _ hq]
  have hsame : v ++ [ofPoints w] ++ (runs q).map ofPoints = v ++ (w :: runs q).map ofPoints := by
    rw [List.map_cons, List.append_assoc]
    rfl
  unfold Arguments at h ⊢
  rw [hsame] at h
  rwa [hlast, runs_behind hw hne ht hsome]

/-- Without a space at the end of the line it gives the runs, with one an argument more at
    best. -/
theorem splitFrom_cases (hsz : Sized s) (hr : Reads s (p ++ (w ++ q)) x junk) (hc : ∀ c ∈ q, c < 0x200000)
    (hw : space ∉ w)
    (hstart : w ≠ [] ∨ ∃ c ∈ q.head?, c ≠ space) (hn : q.length ≤ n) :
    Arguments s (splitFrom fresh n v (boundary s p) (boundary s (p ++ w))) v (w ++ q) := by
  induction n generalizing p w q v with
  | zero =>
    obtain rfl := List.length_eq_zero_iff.mp (Nat.le_zero.mp hn)
    rw [List.append_nil] at hr ⊢
    exact splitFrom_last hsz hr hw (hstart.resolve_right (by simp))
  | succ n ih =>
    cases q with
    | nil =>
      rw [List.append_nil] at hr ⊢
      exact splitFrom_last hsz hr hw (hstart.resolve_right (by simp))
    | cons c q =>
      have hlt := hc c List.mem_cons_self
      rw [List.length_cons] at hn
      by_cases hspace : c = space
      · have hne : w ≠ [] := by
          rcases hstart with h | ⟨d, hd, h⟩
          · exact h
          · exact absurd (Option.some.inj hd ▸ hspace) h
        obtain ⟨t, r, rfl, ht, hhead⟩ := exists_spaces q
        have hspaces : ∀ d ∈ c :: t, d = space := by
          intro d hd
          rcases List.mem_cons.mp hd with hd | hd
          · exact hd.trans hspace
          · exact ht d hd
        have hrest : Reads s (p ++ w ++ (c :: t ++ r)) x junk := by rwa [List.append_assoc]
        have hfew : (c :: t).length < s.capacity_ + 2 :=
          turns_suffice hsz hrest (by simp only [List.length_append]; omega)
        rw [splitFrom_space hsz (hspace ▸ hr)]
        cases r with
        | nil =>
          -- the line ends in these spaces
          rw [List.append_nil] at hrest
          have hlast : (w ++ c :: (t ++ [])).getLast? = some space := by
            rw [List.append_nil, List.getLast?_append_of_ne_nil _ (List.cons_ne_nil c t),
              List.getLast?_eq_some_getLast (List.cons_ne_nil c t)]
            exact congrArg some (hspaces _ (List.getLast_mem _))
          refine ⟨fun h => absurd hlast h, fun _ args => ?_⟩
          rw [splitFrom_trailing hsz hrest hspaces, ← List.cons_append,
            runs_behind hw hne hspaces (List.cons_ne_nil c t)]
          rfl
        | cons d r =>
          have hd : d ≠ space := hhead d rfl
          have hd21 : d < 0x200000 := hc d (by simp)
          have hlen : (d :: r).length ≤ n := by
            rw [List.length_append] at hn
            omega
          have hnext : Reads s (p ++ w ++ (c :: t) ++ ([] ++ d :: r)) x junk := by
            rw [List.nil_append, List.append_assoc (p ++ w)]
            exact hrest
          have hrec := ih (v := v ++ [ofPoints w]) hnext
            (fun e he => hc e (List.mem_cons_of_mem _ (List.mem_append_right _ he))) List.not_mem_nil (.inr ⟨d, rfl, hd⟩) hlen
          rw [List.append_nil, List.nil_append] at hrec
          rw [ok_bind (passSpaces_eq hrest hd21 hd hspaces hfew)]
          exact hrec.behind hw hne hspaces (List.cons_ne_nil c t) (List.cons_ne_nil d r)
      · have hw' : space ∉ w ++ [c] := by
          rw [List.mem_append, List.mem_singleton]
          rintro (h | h)
          · exact hw h
          · exact hspace h.symm
        have hsame : w ++ [c] ++ q = w ++ c :: q := by rw [List.append_assoc]; rfl
        have hnext : Reads s (p ++ (w ++ [c] ++ q)) x junk := by rwa [hsame]
        have hrec := ih (v := v) hnext (fun e he => hc e (List.mem_cons_of_mem _ he)) hw' (.inl (by simp)) (by omega)
        rw [splitFrom_plain hr hlt hspace]
        rwa [hsame] at hrec

/-! ## Lines -/

/-- The line ends with an argument. -/
def EndsWithArgument (cs : List UInt32) : Prop := ∃ c, cs.getLast? = some c ∧ c ≠ space

theorem endsWithArgument_iff : EndsWithArgument cs ↔ cs.getLast?.getD space ≠ space := by
  unfold EndsWithArgument
  cases cs.getLast? with
  | none => simp
  | some c => simp

/-- What `split` gives where it returns: behind a space one argument more. -/
def arguments (cs : List UInt32) : List (List UInt32) :=
  if cs.getLast?.getD space = space then runs cs ++ [[]] else runs cs

/-- It returns where the line ends with an argument, has none, or is followed by a byte that
    stops the loop over the spaces. -/
def Divided (s : Str) (cs : List UInt32) : Prop := EndsWithArgument cs ∨ (∀ c ∈ cs, c = space) ∨ Stops s

theorem arguments_of_ends (h : EndsWithArgument cs) : arguments cs = runs cs := if_neg (endsWithArgument_iff.mp h)

theorem arguments_of_not_ends (h : ¬ EndsWithArgument cs) : arguments cs = runs cs ++ [[]] :=
  if_pos (not_not.mp fun hne => h (endsWithArgument_iff.mpr hne))

theorem split_cases (fresh : Nat → Nat → UInt8) (hsz : Sized s) (hr : Reads s cs x junk) (hc : ∀ c ∈ cs, c < 0x200000)
    (args : List Str) : split fresh s = .ok args ↔ Divided s cs ∧ args = (arguments cs).map ofPoints := by
  obtain ⟨t, r, hsplit, ht, hhead⟩ := exists_spaces cs
  have hbegin : Reads s ([] ++ (t ++ r)) x junk := by rwa [List.nil_append, ← hsplit]
  have hlen := congrArg List.length hsplit
  rw [List.length_append] at hlen
  have hlead : leadingSpaces (s.capacity_ + 2) (begin_ s) = .ok (boundary s t) :=
    leadingSpaces_eq hhead hbegin (fun c hm => hc c (hsplit ▸ List.mem_append_right _ hm)) ht (turns_suffice hsz hr (by omega))
  have heq : split fresh s = splitFrom fresh (s.capacity_ + 2) [] (boundary s t) (boundary s (t ++ [])) := by
    unfold split
    rw [ok_bind hlead, List.append_nil]
  rw [heq]
  cases r with
  | nil =>
    rw [List.append_nil] at hsplit hbegin
    have hnot : ¬ EndsWithArgument cs := by
      intro ⟨c, hlast, hne⟩
      exact hne (ht c (hsplit ▸ List.mem_of_getLast? hlast))
    have hend : Reads s (t ++ []) x junk := by rwa [List.append_nil]
    have hdivided : Divided s cs := .inr (.inl (hsplit ▸ ht))
    rw [splitFrom_end hsz hend, arguments_of_not_ends hnot, hsplit, runs_all_spaces ht, ← hsplit,
      and_iff_right hdivided]
    exact ⟨fun h => (Except.ok.inj h).symm, fun h => h ▸ rfl⟩
  | cons d r =>
    have hd : d ≠ space := hhead d rfl
    have hrest : Reads s (t ++ ([] ++ d :: r)) x junk := hbegin
    have hlast : cs.getLast? = ([] ++ d :: r).getLast? := by
      rw [hsplit, List.getLast?_append_of_ne_nil _ (List.cons_ne_nil d r), List.nil_append]
    have hfew : (d :: r).length ≤ s.capacity_ + 2 := Nat.le_of_lt (turns_suffice hsz hr (by omega))
    have hargs : Arguments s (splitFrom fresh (s.capacity_ + 2) [] (boundary s t) (boundary s (t ++ []))) [] ([] ++ d :: r) :=
      splitFrom_cases hsz hrest (fun c hm => hc c (hsplit ▸ List.mem_append_right _ hm)) List.not_mem_nil (.inr ⟨d, rfl, hd⟩) hfew
    have hruns : runs cs = runs ([] ++ d :: r) := by
      rw [hsplit, runs_spaces ht]
      rfl
    obtain ⟨h1, h2⟩ := hargs
    rw [← hlast, ← hruns] at h1 h2
    by_cases hends : EndsWithArgument cs
    · obtain ⟨c, hc, hne⟩ := id hends
      have hdivided : Divided s cs := .inl hends
      rw [h1 (by rw [hc]; exact fun e => hne (Option.some.inj e)), arguments_of_ends hends, and_iff_right hdivided]
      exact ⟨fun h => (Except.ok.inj h).symm, fun h => h ▸ rfl⟩
    · have hspace : cs.getLast? = some space := by
        have hsome : cs ≠ [] := by
          rw [hsplit]
          simp
        by_contra hne
        exact hends ⟨cs.getLast hsome, List.getLast?_eq_some_getLast hsome, fun e => hne (by
          rw [List.getLast?_eq_some_getLast hsome, e])⟩
      have hdivided : Divided s cs ↔ Stops s := by
        refine ⟨fun h => (h.resolve_left hends).resolve_left fun hall => hd (hall d ?_), fun h => .inr (.inr h)⟩
        rw [hsplit]
        simp
      rw [h2 hspace, arguments_of_not_ends hends, hdivided, List.map_append]
      rfl

theorem trim_reads (h : Reads s cs x junk) : Reads (trim s) cs x [] := by
  refine ⟨?_, h.size, h.lead⟩
  have htake : (encoding cs ++ x :: junk).take (s.size_ + 1) = encoding cs ++ [x] := by
    rw [h.size, List.take_append]
    simp
  show s.storage.map (List.take (s.size_ + 1)) = _
  rw [h.storage, Option.map_some, htake]

/-- A list of results is as long as the list. -/
theorem mapM_length {args : List Str} {css : List (List UInt32)} (h : args.mapM values = .ok css) :
    css.length = args.length := by
  induction args generalizing css with
  | nil =>
    obtain rfl := Except.ok.inj h
    rfl
  | cons a args ih =>
    rw [List.mapM_cons] at h
    obtain ⟨b, -, h⟩ := bind_eq_ok.mp h
    obtain ⟨bs, hbs, h⟩ := bind_eq_ok.mp h
    obtain rfl := Except.ok.inj h
    rw [List.length_cons, List.length_cons, ih hbs]

/-- The empty line still has an argument. -/
theorem split_empty (hedit : Editing s [] x junk) : split fresh s = .ok [ofPoints []] := by
  have hsize : s.size_ = 0 := hedit.size
  have hone : ofIterators (fresh 0) (boundary s []) (boundary s ([] ++ [])) = .ok (ofPoints []) :=
    ofIterators_eq (fresh 0) (show s.storage = some (encoding [] ++ (encoding [] ++ x :: junk)) from hedit.storage) (by decide)
  have hlead : leadingSpaces (s.capacity_ + 2) (begin_ s) = .ok (begin_ s) := by
    unfold leadingSpaces
    rw [if_pos (show (begin_ s).offset = (begin_ s).str.size_ from hsize.symm)]
    rfl
  unfold split
  rw [ok_bind hlead]
  unfold splitFrom
  rw [if_pos (show (begin_ s).offset = (begin_ s).str.size_ from hsize.symm)]
  exact ok_bind hone

theorem reads_of_editing (h : Editing s cs x junk) (hne : cs ≠ []) : Reads s cs x junk :=
  ⟨h.storage, h.size, h.lead hne⟩

theorem sized_of_editing (h : Editing s cs x junk) : Sized s := ⟨by have := h.capacity; omega, h.limit⟩

/-- On an edited line, whatever was erased at its end. -/
theorem split_eq_ok_iff (fresh : Nat → Nat → UInt8) (hedit : Editing s cs x junk) (hc : ∀ c ∈ cs, c < 0x200000)
    (args : List Str) :
    split fresh s = .ok args ↔ Divided s cs ∧ args = (arguments cs).map ofPoints := by
  by_cases hne : cs = []
  · subst hne
    have hdivided : Divided s [] := .inr (.inl fun c hc => absurd hc List.not_mem_nil)
    rw [split_empty hedit, and_iff_right hdivided]
    exact ⟨fun h => (Except.ok.inj h).symm, fun h => h ▸ rfl⟩
  · exact split_cases fresh (sized_of_editing hedit) (reads_of_editing hedit hne) hc args

theorem splits_iff (hedit : Editing s cs x junk) (hc : ∀ c ∈ cs, c < 0x200000) :
    Splits fresh s cs ↔ EndsWithArgument cs := by
  constructor
  · intro ⟨args, hargs, _, hvalues⟩
    by_contra hn
    have hlen := mapM_length hvalues
    obtain ⟨-, rfl⟩ := (split_eq_ok_iff fresh hedit hc args).mp hargs
    rw [arguments_of_not_ends hn, List.length_map, List.length_append, List.length_singleton] at hlen
    omega
  · intro h
    have hne : cs ≠ [] := by
      rintro rfl
      obtain ⟨c, hlast, -⟩ := h
      cases hlast
    have hr := reads_of_editing hedit hne
    have hsz := sized_of_editing hedit
    have htrim : Sized (trim s) := ⟨Nat.le_refl _, Nat.lt_of_le_of_lt hsz.size hsz.limit⟩
    have hruns : ∀ w ∈ runs cs, ∀ c ∈ w, c < 0x200000 := by
      intro w hw c hm
      have hjoined : c ∈ joined space (parts space cs) :=
        List.mem_flatMap.mpr ⟨w, List.mem_of_mem_filter hw, List.mem_cons_of_mem _ hm⟩
      rw [joined_parts] at hjoined
      rcases List.mem_cons.mp hjoined with h | h
      · rw [h]
        decide
      · exact hc c h
    refine ⟨(runs cs).map ofPoints, ?_, ?_, mapM_values hruns⟩
    · exact (split_eq_ok_iff fresh hedit hc _).mpr ⟨.inl h, by rw [arguments_of_ends h]⟩
    · exact (split_cases fresh htrim (trim_reads hr) hc _).mpr ⟨.inl h, by rw [arguments_of_ends h]⟩

/-- The line that keys leave is cut into its maximal runs without a space, inside the string
    and its terminator, exactly when it ends with one of them. -/
theorem split_iff {fresh : Nat → Nat → Nat → UInt8} {execute : Shell → Checked Shell} {sh sh' : Shell}
    {keys : List UInt32}
    (fresh' : Nat → Nat → UInt8) (hs : Blank sh.currentCmd) (hk : ∀ c ∈ keys, Typed c)
    (hrun : handleAll execute fresh sh keys = .ok sh') :
    Splits fresh' sh'.currentCmd (edited [] keys) ↔ EndsWithArgument (edited [] keys) := by
  obtain ⟨x, junk, hedit⟩ := hs.editing
  have hlt : ∀ c ∈ edited [] keys, c < 0x200000 := fun c hc =>
    (hk c ((edited_mem hc).resolve_left List.not_mem_nil)).2.1
  rcases handleAll_cases fresh execute hedit hk with ⟨-, sh'', y, junk', hok, hline, -⟩ | ⟨-, he⟩ | ⟨he, -⟩
  · obtain rfl := Except.ok.inj (hok.symm.trans hrun)
    exact splits_iff hline hlt
  · rw [he] at hrun
    cases hrun
  · rw [he] at hrun
    cases hrun

/-- " a" with an erased character behind it. -/
theorem split_iff_erased : ∃ sh, handleAll pure (fun _ _ _ => 0) started [space, 0x61, 0x62, backspace] = .ok sh ∧
    (Splits (fun _ _ => 0) sh.currentCmd [space, 0x61] ↔ EndsWithArgument [space, 0x61]) := by
  have hok : ∃ sh, handleAll pure (fun _ _ _ => 0) started [space, 0x61, 0x62, backspace] = .ok sh := ⟨_, rfl⟩
  obtain ⟨sh, hsh⟩ := hok
  have hk : ∀ c ∈ [space, 0x61, 0x62, backspace], Typed c := by simp [Typed, space, backspace, newline]
  exact ⟨sh, hsh, split_iff (fun _ _ => 0) blank_started hk hsh⟩

/-- An empty line has the empty string for an argument. -/
theorem empty_line_has_an_argument : ¬ ∀ (fresh : Nat → Nat → Nat → UInt8) (fresh' : Nat → Nat → UInt8)
    (execute : Shell → Checked Shell) (sh sh' : Shell) (keys : List UInt32), Blank sh.currentCmd →
    (∀ c ∈ keys, Typed c) →
    handleAll execute fresh sh keys = .ok sh' → Splits fresh' sh'.currentCmd (edited [] keys) := by
  intro h
  obtain ⟨args, hargs, -, hvalues⟩ := h (fun _ _ _ => 0) (fun _ _ => 0) pure started started [] blank_started
    (fun c hc => absurd hc List.not_mem_nil) rfl
  have hlen := mapM_length hvalues
  obtain ⟨x, junk, hedit⟩ := Blank.editing blank_started
  obtain rfl := Except.ok.inj ((split_empty hedit).symm.trans hargs)
  cases hlen

end Rodvin.Kernel.Split
