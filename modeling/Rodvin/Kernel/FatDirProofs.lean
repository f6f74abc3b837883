/-
  Rodvin.Kernel.FatDirProofs — enumerating a directory (`FatDir::readdir`).

  What the directory still has to deliver is a list of slots (`remaining`); one call of
  `get_next_entry` takes the first of them (`getNext_spec`). So `readdir` is a scan of that
  list (`readdir_scan`): it steps over long-name slots, as many as `utf16buf` has room for,
  and takes any other slot for an entry, deleted or not. Behind the last slot of the chain
  it reads the end mark as a cluster (`getNext_end`).
-/

import Rodvin.Kernel.FatVolume

namespace Rodvin.Kernel.Fat

open Rodvin.Lib

variable {disk : Disk} {cs rest : List Nat} {d d' : FatDir} {s : Slot} {ss : List Slot} {k : Nat}

/-! ## Slots -/

/-- The 32-byte slots of a block. -/
def slots (b : List UInt8) : List Slot := (List.range (b.length / 32)).map fun j => (b.drop (32 * j)).take 32

/-- The slots of a directory. -/
def dirSlots (disk : Disk) (cs : List Nat) : List Slot := cs.flatMap fun c => slots (cluster disk c)

def Slot.isLong (s : Slot) : Bool := s.attributes = 0xF

def Slot.isDeleted (s : Slot) : Bool := s.name0 = 0xE5

/-- First cluster, size and directory flag. -/
def Slot.info (s : Slot) : Nat × Nat × Bool :=
  (s.high_cluster * 65536 + s.low_cluster, s.filesize, s.attributes &&& 0x10 != 0)

def DirEntry.info (e : DirEntry) : Nat × Nat × Bool := (e.inodeId, e.size, e.flags)

/-- The slots before the first whose first byte is 0. -/
def used (ss : List Slot) : List Slot := ss.takeWhile fun s => s.name0 ≠ 0

/-- The entries that are not deleted. -/
def live (ss : List Slot) : List (Nat × Nat × Bool) :=
  ((used ss).filter fun s => !s.isLong && !s.isDeleted).map Slot.info

/-- The calls of `readdir` until it returns `NULL`. -/
inductive Enumerates : FatDir → List DirEntry → FatDir → Prop
  | done {d d' : FatDir} : readdir d = .ok (none, d') → Enumerates d [] d'
  | entry {d d' d'' : FatDir} {e : DirEntry} {es : List DirEntry} :
      readdir d = .ok (some e, d') → Enumerates d' es d'' → Enumerates d (e :: es) d''

/-- Exactly the entries that are not deleted, read from the clusters of the chain. -/
def ListsLive (disk : Disk) (cs : List Nat) (d : FatDir) : Prop :=
  ∃ es d', Enumerates d es d' ∧ es.map DirEntry.info = live (dirSlots disk cs) ∧ ∀ c ∈ d'.reads, c ∈ cs

/-- Some slot has first byte 0. -/
def Terminated (ss : List Slot) : Prop := ∃ s ∈ ss, s.name0 = 0

/-- No deleted slot but long-name slots. -/
def NoDeleted (ss : List Slot) : Prop := ∀ s ∈ used ss, s.isLong = false → s.isDeleted = false

/-- At most `k` long-name slots, and then at most 20 in a row. -/
def LongRuns : Nat → List Slot → Prop
  | _, [] => True
  | k, s :: ss => if s.isLong then 0 < k ∧ LongRuns (k - 1) ss else LongRuns 20 ss

/-! ## `get_next_entry` -/

/-- The clusters still to be read, from the one that `cluster` names on. -/
structure DirAt (disk : Disk) (d : FatDir) (rest : List Nat) : Prop where
  fat : d.fat = FatFilesystem.new disk
  chain : IsChain disk rest
  head : ∀ c ∈ rest.head?, d.cluster = c
  last : rest = [] → endMark ≤ d.cluster ∧ d.cluster < 2 ^ 32
  block : ∀ b ∈ d.db, b.length = clusterSize disk
  index : d.db ≠ none → d.index ≤ clusterSize disk / 32

/-- The slots of the current cluster that were not delivered yet. -/
def pending (d : FatDir) : List Slot :=
  match d.db with
  | none => []
  | some b => (slots b).drop d.index

def remaining (disk : Disk) (d : FatDir) (rest : List Nat) : List Slot := pending d ++ dirSlots disk rest

theorem length_slots (b : List UInt8) : (slots b).length = b.length / 32 := by simp [slots]

theorem clusterSize_div (h : WellFormed disk) : 0 < clusterSize disk / 32 := by
  have := h.nonempty
  unfold clusterSize
  omega

/-- The test whether a cluster has to be read. -/
theorem DirAt.pending_eq_nil (h : WellFormed disk) (hd : DirAt disk d rest) :
    (d.db = none ∨ d.index = u32 (d.fat.sect_per_clus * 512) / 32) ↔ pending d = [] := by
  rw [hd.fat, u32_clusterSize h]
  unfold pending
  cases hb : d.db with
  | none => simp
  | some b =>
    have hlen := hd.block b hb
    have hi := hd.index (by rw [hb]; exact nofun)
    simp only [reduceCtorEq, false_or]
    rw [List.drop_eq_nil_iff, length_slots, hlen]
    omega

/-- The slot that `index` names. -/
theorem bytesAt_slot {b : List UInt8} {i : Nat} (hs : (slots b).drop i = s :: ss) :
    bytesAt b (32 * i) 32 = .ok s ∧ (slots b).drop (i + 1) = ss := by
  have hget : (slots b)[i]? = some s := by
    rw [← List.head?_drop, hs]
    rfl
  obtain ⟨hi, hx⟩ := List.getElem?_eq_some_iff.mp hget
  have hlen := length_slots b
  have hs' : (b.drop (32 * i)).take 32 = s := by
    rw [← hx]
    simp [slots]
  refine ⟨?_, ?_⟩
  · unfold bytesAt
    rw [if_pos (by omega), hs']
  · rw [← List.tail_drop, hs]
    rfl

theorem advance_spec {c : Nat} (h : WellFormed disk) (hd : DirAt disk d (c :: rest)) :
    ∃ d', advance d = .ok d' ∧ DirAt disk d' rest ∧ pending d' = slots (cluster disk c) ∧
      d'.reads = d.reads ++ [c] := by
  have hc : d.cluster = c := hd.head c rfl
  have hv := hd.chain.valid c (List.mem_cons_self ..)
  have hlt := hv.lt h
  have h32 : u32 d.cluster = c := by
    rw [hc]
    exact Nat.mod_eq_of_lt (Nat.lt_trans hlt (by decide))
  have hn : nextCluster d.fat (u32 d.cluster) = .ok (fatEntry disk c) := by
    rw [h32, hd.fat]
    exact nextCluster_eq h hv
  have hr : readCluster d.fat (u32 d.cluster) = cluster disk c := by
    rw [h32, hd.fat]
    exact readCluster_eq h hv
  have hf : fatEntry disk c < 2 ^ 32 := Nat.lt_trans (Nat.mod_lt _ (by decide)) (by decide : 2 ^ 28 < 2 ^ 32)
  unfold advance
  rw [ok_bind hn, hr, h32]
  refine ⟨_, rfl, ⟨hd.fat, ?_, ?_, ?_, ?_, fun _ => Nat.zero_le _⟩, rfl, rfl⟩
  · cases rest with
    | nil => trivial
    | cons c' rest => exact hd.chain.2.2
  · cases rest with
    | nil => exact nofun
    | cons c' rest =>
      intro x hx
      obtain rfl := Option.some.inj hx
      exact hd.chain.2.1
  · rintro rfl
    exact ⟨hd.chain.2, hf⟩
  · intro b hb
    obtain rfl := Option.some.inj hb
    exact length_cluster disk c

/-- Taking a slot of the current cluster. -/
theorem DirAt.take (hd : DirAt disk d rest) (hp : pending d ≠ []) (hr : remaining disk d rest = s :: ss) :
    bytesAt (d.db.getD []) (32 * d.index) 32 = .ok s ∧ DirAt disk { d with index := d.index + 1 } rest ∧
      remaining disk { d with index := d.index + 1 } rest = ss := by
  obtain ⟨fat, cluster, index, db, reads⟩ := d
  cases db with
  | none => exact absurd rfl hp
  | some b =>
    unfold remaining at hr
    obtain ⟨x, xs, hx⟩ := List.exists_cons_of_ne_nil hp
    rw [hx, List.cons_append] at hr
    obtain ⟨rfl, hss⟩ := List.cons.inj hr
    obtain ⟨h1, h2⟩ := bytesAt_slot hx
    have hi : index + 1 ≤ clusterSize disk / 32 := by
      have hlen := congrArg List.length hx
      have hb : b.length = clusterSize disk := hd.block b rfl
      simp only [pending, List.length_drop, length_slots, hb, List.length_cons] at hlen
      omega
    refine ⟨h1, ⟨hd.fat, hd.chain, hd.head, hd.last, hd.block, fun _ => hi⟩, ?_⟩
    rw [← hss, ← h2]
    rfl

/-- A call takes the first of the remaining slots. -/
theorem getNext_spec (h : WellFormed disk) (hd : DirAt disk d rest) (hr : remaining disk d rest = s :: ss) :
    ∃ d' rest', get_next_entry d = .ok (s, d') ∧ DirAt disk d' rest' ∧ remaining disk d' rest' = ss ∧
      (∀ c ∈ d'.reads, c ∈ d.reads ∨ c ∈ rest) ∧ rest' ⊆ rest := by
  unfold get_next_entry
  by_cases hp : pending d = []
  · cases rest with
    | nil =>
      unfold remaining at hr
      rw [hp] at hr
      cases hr
    | cons c rest =>
      obtain ⟨d1, h1, h2, h3, h4⟩ := advance_spec h hd
      have hr1 : remaining disk d1 rest = s :: ss := by
        unfold remaining at hr ⊢
        rw [h3, ← hr, hp]
        rfl
      have hp1 : pending d1 ≠ [] := by
        intro he
        have := congrArg List.length (h3.symm.trans he)
        rw [length_slots, length_cluster, List.length_nil] at this
        exact absurd this (Nat.ne_of_gt (clusterSize_div h))
      obtain ⟨h5, h6, h7⟩ := h2.take hp1 hr1
      have hload : loaded d = .ok d1 := (if_pos ((hd.pending_eq_nil h).mpr hp)).trans h1
      simp only [ok_bind hload, ok_bind h5]
      refine ⟨_, rest, rfl, h6, h7, fun x hx => ?_, fun x hx => List.mem_cons_of_mem _ hx⟩
      rw [h4] at hx
      rcases List.mem_append.mp hx with hx | hx
      · exact .inl hx
      · exact .inr (List.mem_singleton.mp hx ▸ List.mem_cons_self ..)
  · obtain ⟨h5, h6, h7⟩ := hd.take hp hr
    have hload : loaded d = .ok d := if_neg fun e => hp ((hd.pending_eq_nil h).mp e)
    simp only [ok_bind hload, ok_bind h5]
    exact ⟨_, rest, rfl, h6, h7, fun x hx => .inl hx, fun x hx => hx⟩

/-- Where no slot remains the end mark is read as a cluster. -/
theorem getNext_end (h : WellFormed disk) (hd : DirAt disk d rest) (hr : remaining disk d rest = [])
    (hn : get_next_entry d = .ok (s, d')) : ∃ c ∈ d'.reads, endMark ≤ c := by
  obtain ⟨hp, hrest⟩ := List.append_eq_nil_iff.mp hr
  have hnil : rest = [] := by
    cases rest with
    | nil => rfl
    | cons c rest =>
      have hlen := congrArg List.length hrest
      rw [dirSlots, List.flatMap_cons, List.length_append, length_slots, length_cluster, List.length_nil] at hlen
      have := clusterSize_div h
      omega
  obtain ⟨hmark, h32⟩ := hd.last hnil
  obtain ⟨d1, h1, hn⟩ := bind_eq_ok.mp hn
  rw [show loaded d = advance d from if_pos ((hd.pending_eq_nil h).mpr hp)] at h1
  obtain ⟨next, -, h1⟩ := bind_eq_ok.mp h1
  obtain ⟨ent, -, hn⟩ := bind_eq_ok.mp hn
  cases h1
  cases hn
  refine ⟨d.cluster, ?_, hmark⟩
  show d.cluster ∈ d.reads ++ [u32 d.cluster]
  rw [show u32 d.cluster = d.cluster from Nat.mod_eq_of_lt h32]
  simp

/-- What was read is not forgotten. -/
theorem getNext_reads (hn : get_next_entry d = .ok (s, d')) : d.reads ⊆ d'.reads := by
  obtain ⟨d1, h1, hn⟩ := bind_eq_ok.mp hn
  obtain ⟨ent, -, hn⟩ := bind_eq_ok.mp hn
  cases hn
  unfold loaded at h1
  split at h1
  · obtain ⟨next, -, h1⟩ := bind_eq_ok.mp h1
    cases h1
    exact List.subset_append_left ..
  · cases h1
    exact List.Subset.refl _

/-! ## `readdir` -/

/-- What a call does with the slots that remain. -/
inductive Outcome where
  | entry (s : Slot) (ss : List Slot)
  | null
  | overrun
  | off

/-- The scan of a call, with room for `k` long-name slots. -/
def scan : Nat → List Slot → Outcome
  | _, [] => .off
  | k, s :: ss =>
    if s.name0 = 0 then .null
    else if s.isLong then
      match k with
      | 0 => .overrun
      | k + 1 => scan k ss
    else .entry s ss

theorem scan_nil (k : Nat) : scan k [] = .off := by
  unfold scan
  rfl

/-- What the outcome says of the call. -/
def Follows (disk : Disk) (d : FatDir) (rest : List Nat) (r : Checked (Option DirEntry × FatDir)) : Outcome → Prop
  | .entry s ss => ∃ e d' rest', r = .ok (some e, d') ∧ e.info = s.info ∧ DirAt disk d' rest' ∧ remaining disk d' rest' = ss ∧
      (∀ c ∈ d'.reads, c ∈ d.reads ∨ c ∈ rest) ∧ rest' ⊆ rest
  | .null => ∃ d', r = .ok (none, d') ∧ ∀ c ∈ d'.reads, c ∈ d.reads ∨ c ∈ rest
  | .overrun => r = fault
  | .off => ∀ x d', r = .ok (x, d') → ∃ c ∈ d'.reads, endMark ≤ c

/-- The call goes on from a later state. -/
theorem Follows.trans {rest' : List Nat} {r : Checked (Option DirEntry × FatDir)} {o : Outcome}
    (hd : ∀ c ∈ d'.reads, c ∈ d.reads ∨ c ∈ rest) (hsub : rest' ⊆ rest) (h : Follows disk d' rest' r o) :
    Follows disk d rest r o := by
  have hreads {c : Nat} {l : List Nat} (hl : ∀ c ∈ l, c ∈ d'.reads ∨ c ∈ rest') (hc : c ∈ l) : c ∈ d.reads ∨ c ∈ rest :=
    (hl c hc).elim (hd c) fun hr => .inr (hsub hr)
  cases o with
  | entry s ss =>
    obtain ⟨e, d2, rest2, h1, h2, h3, h4, h5, h6⟩ := h
    exact ⟨e, d2, rest2, h1, h2, h3, h4, fun c => hreads h5, List.Subset.trans h6 hsub⟩
  | null =>
    obtain ⟨d2, h1, h2⟩ := h
    exact ⟨d2, h1, fun c => hreads h2⟩
  | overrun => exact h
  | off => exact h

theorem isLong_iff : s.isLong = true ↔ s.attributes = 0xF := decide_eq_true_iff

theorem info_toEntry (s : Slot) (name : List UInt8) : (toEntry s name).info = s.info := by
  have hh : s.high_cluster < 256 ^ 2 := field_lt
  have hl : s.low_cluster < 256 ^ 2 := field_lt
  have h32 : u32 (s.high_cluster * 65536 + s.low_cluster) = s.high_cluster * 65536 + s.low_cluster :=
    Nat.mod_eq_of_lt (by omega)
  unfold DirEntry.info Slot.info toEntry
  rw [h32]

theorem longNames_reads {name : List UInt8} {ent : Slot} {x : Option DirEntry}
    (h : longNames k name ent d = .ok (x, d')) :
    d.reads ⊆ d'.reads := by
  induction k generalizing name ent d with
  | zero =>
    unfold longNames at h
    split at h
    · cases h
    · cases h
      exact List.Subset.refl _
  | succ k ih =>
    unfold longNames at h
    split at h
    · obtain ⟨⟨next, d1⟩, h1, h⟩ := bind_eq_ok.mp h
      refine List.Subset.trans (getNext_reads h1) ?_
      simp only at h
      split at h
      · cases h
        exact List.Subset.refl _
      · exact ih h
    · cases h
      exact List.Subset.refl _

/-- The next slot of a call, and what follows when it has a name. -/
theorem next_scan (h : WellFormed disk) {name : List UInt8} (hd : DirAt disk d rest)
    (hk : ∀ {d rest} {ent : Slot}, DirAt disk d rest → ent.name0 ≠ 0 →
      Follows disk d rest (longNames k name ent d) (scan k (ent :: remaining disk d rest))) :
    Follows disk d rest (get_next_entry d >>= fun p => if p.1.name0 = 0 then pure (none, p.2) else longNames k name p.1 p.2)
      (scan k (remaining disk d rest)) := by
  cases hr : remaining disk d rest with
  | nil =>
    rw [scan_nil]
    intro x d' hx
    obtain ⟨⟨next, d1⟩, h1, hx⟩ := bind_eq_ok.mp hx
    obtain ⟨c, hc, hm⟩ := getNext_end h hd hr h1
    refine ⟨c, ?_, hm⟩
    simp only at hx
    split at hx
    · cases hx
      exact hc
    · exact longNames_reads hx hc
  | cons s ss =>
    obtain ⟨d1, rest1, h1, h2, h3, h4, h5⟩ := getNext_spec h hd hr
    simp only [ok_bind h1]
    by_cases hs : s.name0 = 0
    · rw [if_pos hs]
      unfold scan
      rw [if_pos hs]
      exact ⟨d1, rfl, h4⟩
    · rw [if_neg hs, ← h3]
      exact (hk h2 hs).trans h4 h5

/-- The rest of a call, once a slot with a name is there. -/
theorem longNames_scan (h : WellFormed disk) {name : List UInt8} {ent : Slot} (hd : DirAt disk d rest)
    (hent : ent.name0 ≠ 0) :
    Follows disk d rest (longNames k name ent d) (scan k (ent :: remaining disk d rest)) := by
  induction k generalizing name ent d rest with
  | zero =>
    unfold longNames scan
    rw [if_neg hent]
    by_cases hl : ent.attributes = 0xF
    · rw [if_pos hl, if_pos (isLong_iff.mpr hl)]
      rfl
    · rw [if_neg hl, if_neg (isLong_iff.not.mpr hl)]
      exact ⟨_, d, rest, rfl, info_toEntry .., hd, rfl, fun c hc => .inl hc, fun x hx => hx⟩
  | succ k ih =>
    unfold longNames scan
    rw [if_neg hent]
    by_cases hl : ent.attributes = 0xF
    · rw [if_pos hl, if_pos (isLong_iff.mpr hl)]
      exact next_scan h hd ih
    · rw [if_neg hl, if_neg (isLong_iff.not.mpr hl)]
      exact ⟨_, d, rest, rfl, info_toEntry .., hd, rfl, fun c hc => .inl hc, fun x hx => hx⟩

theorem readdir_scan (h : WellFormed disk) (hd : DirAt disk d rest) :
    Follows disk d rest (readdir d) (scan 20 (remaining disk d rest)) :=
  next_scan h hd (longNames_scan h)

/-! ## Scans -/

/-- The slots that a directory delivers as entries. -/
def shorts (ss : List Slot) : List Slot := (used ss).filter fun s => !s.isLong

theorem used_cons (hs : s.name0 ≠ 0) : used (s :: ss) = s :: used ss := by
  unfold used
  rw [List.takeWhile_cons_of_pos (by simpa using hs)]

theorem used_cons_zero (hs : s.name0 = 0) : used (s :: ss) = [] := by
  unfold used
  rw [List.takeWhile_cons_of_neg (by simpa using hs)]

theorem terminated_cons (hs : s.name0 ≠ 0) : Terminated (s :: ss) ↔ Terminated ss := by
  unfold Terminated
  simp [hs]

/-- What the outcome of a scan says of the list. -/
theorem scan_spec (k : Nat) (ss : List Slot) :
    match scan k ss with
    | .entry s ss' => (Terminated ss ↔ Terminated ss') ∧ (LongRuns k (used ss) ↔ LongRuns 20 (used ss')) ∧
        shorts ss = s :: shorts ss' ∧ ss'.length < ss.length
    | .null => Terminated ss ∧ LongRuns k (used ss) ∧ shorts ss = []
    | .overrun => ¬ LongRuns k (used ss)
    | .off => ¬ Terminated ss := by
  induction ss generalizing k with
  | nil =>
    rw [scan_nil]
    exact nofun
  | cons s ss ih =>
    unfold scan
    by_cases hs : s.name0 = 0
    · rw [if_pos hs, shorts, used_cons_zero hs]
      exact ⟨⟨s, List.mem_cons_self .., hs⟩, trivial, rfl⟩
    · rw [if_neg hs]
      by_cases hl : s.isLong = true
      · have hshort : shorts (s :: ss) = shorts ss := by
          unfold shorts
          rw [used_cons hs, List.filter_cons_of_neg (by simp [hl])]
        rw [if_pos hl, used_cons hs, terminated_cons hs, hshort, LongRuns, if_pos hl]
        cases k with
        | zero => exact fun hr => absurd hr.1 (Nat.lt_irrefl 0)
        | succ k =>
          have hi := ih k
          rw [Nat.add_sub_cancel]
          simp only [Nat.zero_lt_succ, true_and]
          cases he : scan k ss with
          | entry s' ss' =>
            rw [he] at hi
            exact ⟨hi.1, hi.2.1, hi.2.2.1, Nat.lt_succ_of_lt hi.2.2.2⟩
          | null =>
            rw [he] at hi
            exact hi
          | overrun =>
            rw [he] at hi
            exact hi
          | off =>
            rw [he] at hi
            exact hi
      · rw [if_neg hl, used_cons hs, terminated_cons hs, LongRuns, if_neg hl]
        refine ⟨Iff.rfl, Iff.rfl, ?_, Nat.lt_succ_self _⟩
        unfold shorts
        rw [used_cons hs, List.filter_cons_of_pos (by simpa using hl)]

/-! ## All calls -/

theorem readdir_reads {x : Option DirEntry} (hr : readdir d = .ok (x, d')) : d.reads ⊆ d'.reads := by
  obtain ⟨⟨next, d1⟩, h1, hx⟩ := bind_eq_ok.mp hr
  refine List.Subset.trans (getNext_reads h1) ?_
  simp only at hx
  split at hx
  · cases hx
    exact List.Subset.refl _
  · exact longNames_reads hx

theorem enumerates_reads {es : List DirEntry} (he : Enumerates d es d') : d.reads ⊆ d'.reads := by
  induction he with
  | done hr => exact readdir_reads hr
  | entry hr _ ih => exact List.Subset.trans (readdir_reads hr) ih

/-- An enumeration that never reads an end mark delivers every slot but the long-name
    slots, and ends at a slot with first byte 0. -/
theorem enumerates_sound (h : WellFormed disk) {es : List DirEntry} (he : Enumerates d es d') (hd : DirAt disk d rest)
    (hm : ∀ c ∈ d'.reads, c < endMark) :
    es.map DirEntry.info = (shorts (remaining disk d rest)).map Slot.info ∧ Terminated (remaining disk d rest) ∧
      LongRuns 20 (used (remaining disk d rest)) := by
  induction he generalizing rest with
  | @done d d' hr =>
    have hf := readdir_scan h hd
    have hs := scan_spec 20 (remaining disk d rest)
    rw [hr] at hf
    cases ho : scan 20 (remaining disk d rest) with
    | entry s ss =>
      rw [ho] at hf
      obtain ⟨e, d2, rest2, h1, -⟩ := hf
      cases h1
    | null =>
      rw [ho] at hs
      exact ⟨by rw [hs.2.2]; rfl, hs.1, hs.2.1⟩
    | overrun =>
      rw [ho] at hf
      cases hf
    | off =>
      rw [ho] at hf
      obtain ⟨c, hc, hle⟩ := hf _ _ rfl
      exact absurd (hm c hc) (Nat.not_lt.mpr hle)
  | @entry d d1 d2 e es hr he ih =>
    have hf := readdir_scan h hd
    have hs := scan_spec 20 (remaining disk d rest)
    rw [hr] at hf
    cases ho : scan 20 (remaining disk d rest) with
    | entry s ss =>
      rw [ho] at hf hs
      obtain ⟨e', d', rest', h1, h2, h3, h4, -⟩ := hf
      cases h1
      obtain ⟨i1, i2, i3⟩ := ih h3 hm
      rw [h4] at i1 i2 i3
      refine ⟨?_, hs.1.mpr i2, hs.2.1.mpr i3⟩
      rw [hs.2.2.1, List.map_cons, List.map_cons, i1, h2]
    | null =>
      rw [ho] at hf
      obtain ⟨d', h1, -⟩ := hf
      cases h1
    | overrun =>
      rw [ho] at hf
      cases hf
    | off =>
      rw [ho] at hf
      obtain ⟨c, hc, hle⟩ := hf _ _ rfl
      exact absurd (hm c (enumerates_reads he hc)) (Nat.not_lt.mpr hle)

/-- A directory that is terminated, with long-name runs that fit, is enumerated within its chain. -/
theorem enumerates_total (h : WellFormed disk) (n : Nat) (hn : (remaining disk d rest).length = n)
    (hd : DirAt disk d rest)
    (ht : Terminated (remaining disk d rest)) (hl : LongRuns 20 (used (remaining disk d rest))) :
    ∃ es d', Enumerates d es d' ∧ es.map DirEntry.info = (shorts (remaining disk d rest)).map Slot.info ∧
      ∀ c ∈ d'.reads, c ∈ d.reads ∨ c ∈ rest := by
  induction n using Nat.strong_induction_on generalizing d rest with
  | _ n ih =>
    have hf := readdir_scan h hd
    have hs := scan_spec 20 (remaining disk d rest)
    cases ho : scan 20 (remaining disk d rest) with
    | entry s ss =>
      rw [ho] at hf hs
      obtain ⟨e, d', rest', h1, h2, h3, h4, h5, h6⟩ := hf
      obtain ⟨es, d'', i1, i2, i3⟩ := ih ss.length (hn ▸ hs.2.2.2) (congrArg List.length h4) h3 (h4 ▸ hs.1.mp ht)
        (h4 ▸ hs.2.1.mp hl)
      rw [h4] at i2
      refine ⟨e :: es, d'', .entry h1 i1, ?_, fun c hc => ?_⟩
      · rw [hs.2.2.1, List.map_cons, List.map_cons, i2, h2]
      · exact (i3 c hc).elim (h5 c) fun hr => .inr (h6 hr)
    | null =>
      rw [ho] at hf hs
      obtain ⟨d', h1, h2⟩ := hf
      exact ⟨[], d', .done h1, by rw [hs.2.2]; rfl, h2⟩
    | overrun =>
      rw [ho] at hs
      exact absurd hl hs
    | off =>
      rw [ho] at hs
      exact absurd ht hs

/-- Deleted slots are what sets the entries delivered apart from the live ones. -/
theorem shorts_eq_live_iff (ss : List Slot) : (shorts ss).map Slot.info = live ss ↔ NoDeleted ss := by
  have hlive : live ss = ((shorts ss).filter fun s => !s.isDeleted).map Slot.info := by
    unfold live shorts
    rw [List.filter_filter]
    congr 2
    funext s
    exact Bool.and_comm ..
  have hno : NoDeleted ss ↔ ∀ s ∈ shorts ss, (!s.isDeleted) = true := by
    unfold NoDeleted shorts
    simp only [List.mem_filter, Bool.not_eq_true', and_imp]
  rw [hlive, hno]
  constructor
  · intro he
    have hlen := congrArg List.length he
    rw [List.length_map, List.length_map] at hlen
    exact List.length_filter_eq_length_iff.mp hlen.symm
  · intro ha
    rw [List.filter_eq_self.mpr ha]

theorem new_at {fat : FatFilesystem} {c : Nat} (hf : fat = FatFilesystem.new disk) (hc : IsChain disk (c :: cs)) :
    DirAt disk (FatDir.new fat c) (c :: cs) where
  fat := hf
  chain := hc
  head := fun _ hx => Option.some.inj hx
  last := nofun
  block := nofun
  index := fun hne => absurd rfl hne

theorem remaining_new (disk : Disk) (fat : FatFilesystem) (c : Nat) (cs : List Nat) :
    remaining disk (FatDir.new fat c) cs = dirSlots disk cs := rfl

/-- A directory is enumerated as it should be exactly when some slot of it has first byte 0,
    and before the first such slot none is deleted but long-name slots and at most 20
    long-name slots stand in a row. -/
theorem readdir_lists_live_iff {c : Nat} (h : WellFormed disk) (hc : IsChain disk (c :: cs)) :
    ListsLive disk (c :: cs) (FatDir.new (FatFilesystem.new disk) c) ↔
      Terminated (dirSlots disk (c :: cs)) ∧ NoDeleted (dirSlots disk (c :: cs)) ∧
        LongRuns 20 (used (dirSlots disk (c :: cs))) := by
  have hd := new_at rfl hc
  have hr := remaining_new disk (FatFilesystem.new disk) c (c :: cs)
  constructor
  · rintro ⟨es, d', he, hl, hreads⟩
    obtain ⟨h1, h2, h3⟩ := enumerates_sound h he hd fun x hx => (hc.valid x (hreads x hx)).lt h
    rw [hr] at h1 h2 h3
    exact ⟨h2, (shorts_eq_live_iff _).mp (h1.symm.trans hl), h3⟩
  · rintro ⟨ht, hno, hl⟩
    obtain ⟨es, d', he, h1, h2⟩ := enumerates_total h _ rfl hd (hr ▸ ht) (hr ▸ hl)
    rw [hr] at h1
    exact ⟨es, d', he, h1.trans ((shorts_eq_live_iff _).mpr hno), fun x hx => (h2 x hx).resolve_left nofun⟩

theorem readdir_lists_live_iff_small : ListsLive smallVolume [2, 3] (FatDir.new (FatFilesystem.new smallVolume) 2) ↔
    Terminated (dirSlots smallVolume [2, 3]) ∧ NoDeleted (dirSlots smallVolume [2, 3]) ∧
      LongRuns 20 (used (dirSlots smallVolume [2, 3])) :=
  readdir_lists_live_iff smallVolume_wellFormed smallVolume_chain

/-- The root directory of `smallVolume` has one slot, which was deleted. -/
theorem deleted_slot_is_listed : ¬ ∀ (disk : Disk) (c : Nat) (cs : List Nat), WellFormed disk → IsChain disk (c :: cs) →
    ListsLive disk (c :: cs) (FatDir.new (FatFilesystem.new disk) c) := by
  intro hall
  obtain ⟨es, d', he, hl, hreads⟩ := hall smallVolume 2 [3] smallVolume_wellFormed smallVolume_chain
  have hm : ∀ x ∈ d'.reads, x < endMark := fun x hx =>
    (smallVolume_chain.valid x (hreads x hx)).lt smallVolume_wellFormed
  obtain ⟨h1, -, -⟩ := enumerates_sound smallVolume_wellFormed he (new_at rfl smallVolume_chain) hm
  rw [remaining_new] at h1
  have hshorts : (shorts (dirSlots smallVolume [2, 3])).map Slot.info = live (dirSlots smallVolume [2, 3]) :=
    h1.symm.trans hl
  exact absurd hshorts (by decide +kernel)

end Rodvin.Kernel.Fat
