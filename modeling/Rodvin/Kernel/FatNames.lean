/-
  Rodvin.Kernel.FatNames — the long names of directory entries (`FatDir::readdir` and the
  string it makes of `utf16buf`).

  A name is stored in slots of 13 units that stand in reverse order before the short entry
  (`StoredAs`). `readdir` puts the pieces in order again (`readdir_longNames`), and the
  string ends at the first zero unit: a name that fills its slots has none, and the
  constructor reads on behind `utf16buf` (`long_name_decodes_iff`).
-/

import Rodvin.Lib.Runs
import Rodvin.Libc.Utf16Proofs
import Rodvin.Kernel.FatDirProofs

namespace Rodvin.Kernel.Fat

open Rodvin.Lib
open Rodvin.Libc (Str)

/-! ## Names in memory -/

/-- The units of a run of bytes. -/
def units : List UInt8 → List UInt16
  | a :: b :: bs => UInt16.ofNat (ofLE [a, b]) :: units bs
  | _ => []

def unitBytes (u : UInt16) : List UInt8 := le 2 u.toNat

/-- `dirent->name = rodvin::string((uint16_t*)ptr)`, where the units `behind` lie behind
    `utf16buf`, with whose end the name ends. -/
def nameOver (fresh : Nat → Nat → UInt8) (behind : List UInt16) (dirent : DirEntry) : Checked Str := do
  let name ← Str.ofUtf16 (fun n => fresh (n + 1)) (units dirent.name ++ behind)
  Str.assign (fresh 0) Str.empty name

/-- The same where nothing behind `utf16buf` may be read. -/
def entryName (fresh : Nat → Nat → UInt8) (dirent : DirEntry) : Checked Str := nameOver fresh [] dirent

/-! ## Names in slots -/

/-- A name with what fills its last slot. -/
def padded (name : List UInt16) : List UInt16 :=
  if name.length % 13 = 0 then name else name ++ 0 :: List.replicate (12 - name.length % 13) 0xFFFF

/-- The slots of a name, in the order of the directory, and the short entry behind them. -/
structure StoredAs (long : List Slot) (short : Slot) (name : List UInt16) : Prop where
  size : ∀ s ∈ long, s.length = 32
  isLong : ∀ s ∈ long, s.isLong = true
  inUse : ∀ s ∈ short :: long, s.name0 ≠ 0
  isShort : short.isLong = false
  units : long.reverse.flatMap Slot.utfdata = (padded name).flatMap unitBytes

/-- The directory delivers a slot. -/
def Delivers (d : FatDir) (s : Slot) (d' : FatDir) : Prop := get_next_entry d = .ok (s, d')

variable {disk : Disk} {fresh : Nat → Nat → UInt8} {d d' : FatDir} {long ss : List Slot} {short ent s : Slot}
  {name us : List UInt16} {rest : List Nat} {acc bs : List UInt8} {k : Nat}

/-! ## Bytes and units -/

theorem units_unitBytes (u : UInt16) (bs : List UInt8) : units (unitBytes u ++ bs) = u :: units bs := by
  have hu : UInt16.ofNat (ofLE (unitBytes u)) = u := by
    rw [unitBytes, ofLE_le]
    exact UInt16.ofNat_mod_size.trans UInt16.ofNat_toNat
  exact congrArg (· :: units bs) hu

theorem units_flatMap (us : List UInt16) : units (us.flatMap unitBytes) = us := by
  induction us with
  | nil => rfl
  | cons u us ih => rw [List.flatMap_cons, units_unitBytes, ih]

theorem length_flatMap_unitBytes (us : List UInt16) : (us.flatMap unitBytes).length = 2 * us.length := by
  induction us with
  | nil => rfl
  | cons u us ih =>
    rw [List.flatMap_cons, List.length_append, ih, unitBytes, length_le, List.length_cons]
    omega

theorem length_utfdata (h : s.length = 32) : s.utfdata.length = 26 := by
  unfold Slot.utfdata
  simp [h]

theorem length_flatMap_utfdata (h : ∀ s ∈ ss, s.length = 32) : (ss.flatMap Slot.utfdata).length = 26 * ss.length := by
  induction ss with
  | nil => rfl
  | cons s ss ih =>
    rw [List.flatMap_cons, List.length_append, length_utfdata (h s (List.mem_cons_self ..)),
      ih fun t ht => h t (List.mem_cons_of_mem _ ht), List.length_cons]
    omega

theorem length_padded (name : List UInt16) : (padded name).length = (name.length + 12) / 13 * 13 := by
  unfold padded
  split
  · omega
  · rw [List.length_append, List.length_cons, List.length_replicate]
    omega

/-- As many slots as the name needs. -/
theorem StoredAs.length (h : StoredAs long short name) : long.length = (name.length + 12) / 13 := by
  have hlen := congrArg List.length h.units
  rw [length_flatMap_utfdata fun s hs => h.size s (List.mem_reverse.mp hs), List.length_reverse,
    length_flatMap_unitBytes, length_padded] at hlen
  omega

/-! ## `readdir` -/

/-- The loop goes back over the slots and puts each piece in front of those it has. -/
theorem longNames_spec (k : Nat) (acc : List UInt8) (hlong : ∀ s ∈ ent :: ss, s.isLong = true)
    (huse : ∀ s ∈ short :: ss, s.name0 ≠ 0)
    (hshort : short.isLong = false) (hk : ss.length < k) (hrun : Run Delivers d (ss ++ [short]) d') :
    longNames k acc ent d = .ok (some (toEntry short ((ent :: ss).reverse.flatMap Slot.utfdata ++ acc)), d') := by
  induction ss generalizing k acc ent d with
  | nil =>
    obtain ⟨k, rfl⟩ := Nat.exists_eq_succ_of_ne_zero (Nat.ne_of_gt hk)
    cases hrun with
    | cons hnext hrun =>
      cases hrun
      have hnext : get_next_entry d = .ok (short, d') := hnext
      unfold longNames
      rw [if_pos (isLong_iff.mp (hlong ent (List.mem_cons_self ..)))]
      simp only [ok_bind hnext, if_neg (huse short (List.mem_cons_self ..))]
      unfold longNames
      rw [if_neg (isLong_iff.not.mp (by simp [hshort]))]
      simp
      rfl
  | cons l ss ih =>
    obtain ⟨k, rfl⟩ := Nat.exists_eq_succ_of_ne_zero (Nat.ne_of_gt (Nat.lt_of_le_of_lt (Nat.zero_le _) hk))
    cases hrun with
    | cons hnext hrun =>
      have hnext : get_next_entry d = .ok (l, _) := hnext
      unfold longNames
      rw [if_pos (isLong_iff.mp (hlong ent (List.mem_cons_self ..)))]
      simp only [ok_bind hnext, if_neg (huse l (by simp))]
      rw [ih k _ (fun s hs => hlong s (List.mem_cons_of_mem _ hs)) (fun s hs => huse s (by simp at hs ⊢; tauto))
        (by simpa using hk) hrun]
      simp [List.flatMap_append]

/-- The entry that is returned: its name is what the slots hold, in order. -/
theorem readdir_longNames (h : StoredAs long short name) (hn : name ≠ []) (hl : name.length ≤ 255)
    (hrun : Run Delivers d (long ++ [short]) d') :
    readdir d = .ok (some (toEntry short ((padded name).flatMap unitBytes)), d') := by
  have hlen := h.length
  have hpos := List.length_pos_iff.mpr hn
  cases long with
  | nil => exact absurd hlen (by simp only [List.length_nil]; omega)
  | cons l long =>
    rw [List.length_cons] at hlen
    cases hrun with
    | cons hnext hrun =>
      have hnext : get_next_entry d = .ok (l, _) := hnext
      have huse : ∀ s ∈ short :: long, s.name0 ≠ 0 := fun s hs => h.inUse s (by simp at hs ⊢; tauto)
      have hloop := longNames_spec 20 [] h.isLong huse h.isShort (by omega) hrun
      unfold readdir
      simp only [ok_bind hnext, if_neg (h.inUse l (by simp))]
      rw [hloop, h.units, List.append_nil]

/-! ## The string -/

theorem toEntry_name (short : Slot) (bs : List UInt8) : (toEntry short bs).name = bs := rfl

/-- A string of few units fits into the heap. -/
theorem length_encoding_le (hl : us.length ≤ 2 ^ 17) : ¬ Str.heapLimit < (Str.encoding (Str.utf16 us)).length + 9 := by
  have h1 := Str.length_utf16 us
  have h2 : (Str.encoding (Str.utf16 us)).length ≤ 4 * (Str.utf16 us).length := by
    generalize Str.utf16 us = cs
    induction cs with
    | nil => exact Nat.zero_le _
    | cons c cs ih =>
      have := Str.length_utf8 c
      rw [Str.length_encoding_cons, List.length_cons]
      omega
  unfold Str.heapLimit
  omega

/-- The string is made of the units in front of the first zero. -/
theorem nameOver_terminated {e : DirEntry} {behind r : List UInt16} (fresh : Nat → Nat → UInt8)
    (hunits : units e.name ++ behind = us ++ 0 :: r) (h0 : 0 ∉ us) (hl : us.length ≤ 2 ^ 17) :
    ∃ s, nameOver fresh behind e = .ok s ∧ Str.bytes s = Str.encoding (Str.utf16 us) := by
  have hlim := length_encoding_le hl
  unfold nameOver
  rw [hunits]
  rcases Str.ofUtf16_makes (fun n => fresh (n + 1)) r h0 with ⟨s, hs, hheld, hbytes⟩ | ⟨-, hfull⟩
  · have hzero : 0 ∉ Str.bytes s := hbytes ▸ Str.zero_not_mem_encoding (Str.utf16_ne_zero h0)
    rw [ok_bind hs]
    rcases Str.assign_makes (fresh 0) Str.empty hheld hzero with ⟨t, ht, -, hsame⟩ | ⟨-, hfull⟩
    · exact ⟨t, ht, hsame.trans hbytes⟩
    · exact absurd (hbytes ▸ hfull) hlim
  · exact absurd hfull hlim

/-- A name that leaves room for a terminator is decoded. -/
theorem entryName_terminated (fresh : Nat → Nat → UInt8) (short : Slot) (hn : name.length % 13 ≠ 0)
    (hl : name.length ≤ 255) (h0 : 0 ∉ name) :
    ∃ s, entryName fresh (toEntry short ((padded name).flatMap unitBytes)) = .ok s ∧
      Str.bytes s = Str.encoding (Str.utf16 name) := by
  refine nameOver_terminated fresh (r := List.replicate (12 - name.length % 13) 0xFFFF) ?_ h0 (by omega)
  rw [toEntry_name, units_flatMap, padded, if_neg hn, List.append_nil]

/-- A name that fills its slots is not. -/
theorem entryName_unterminated (hn : name.length % 13 = 0) (h0 : 0 ∉ name) {t : Str} :
    entryName fresh (toEntry short ((padded name).flatMap unitBytes)) ≠ .ok t := by
  unfold entryName nameOver
  rw [toEntry_name, units_flatMap, padded, if_pos hn, List.append_nil]
  intro h
  obtain ⟨s, hs, -⟩ := bind_eq_ok.mp h
  exact Str.ofUtf16_unterminated h0 hs

/-- The entry of a long name has that name, and only `utf16buf` is read, exactly when the
    length is not a multiple of 13. -/
theorem long_name_decodes_iff (fresh : Nat → Nat → UInt8) (h : StoredAs long short name) (hn : 1 ≤ name.length)
    (hl : name.length ≤ 255) (h0 : 0 ∉ name) (hrun : Run Delivers d (long ++ [short]) d') :
    (∃ e d'' s, readdir d = .ok (some e, d'') ∧ entryName fresh e = .ok s ∧
      Str.bytes s = Str.encoding (Str.utf16 name)) ↔ name.length % 13 ≠ 0 := by
  have hread := readdir_longNames h (List.length_pos_iff.mp hn) hl hrun
  constructor
  · intro ⟨e, d'', s, he, hs, _⟩ h13
    rw [hread] at he
    obtain ⟨h1, -⟩ := Prod.mk.inj (Except.ok.inj he)
    rw [← Option.some.inj h1] at hs
    exact entryName_unterminated h13 h0 hs
  · intro h13
    obtain ⟨s, hs, hbytes⟩ := entryName_terminated fresh short h13 hl h0
    exact ⟨_, d', s, hread, hs, hbytes⟩

/-! ## A directory with one name -/

/-- A call after the other delivers what a directory has left. -/
theorem delivers_remaining (h : WellFormed disk) (hd : DirAt disk d rest) (hr : remaining disk d rest = long ++ ss) :
    ∃ d' rest', Run Delivers d long d' ∧ DirAt disk d' rest' ∧ remaining disk d' rest' = ss := by
  induction long generalizing d rest with
  | nil => exact ⟨d, rest, .nil d, hd, hr⟩
  | cons l long ih =>
    obtain ⟨d1, rest1, h1, h2, h3, -⟩ := getNext_spec h hd hr
    obtain ⟨d2, rest2, h4, h5, h6⟩ := ih h2 h3
    exact ⟨d2, rest2, .cons h1 h4, h5, h6⟩

/-- A slot of thirteen units of a name. -/
def longSlot (sequence : UInt8) (us : List UInt16) : Slot :=
  let bs := us.flatMap unitBytes
  sequence :: (bs.take 10 ++ [0x0F, 0, 0] ++ (bs.drop 10).take 12 ++ [0, 0] ++ (bs.drop 22).take 4)

/-- The slot of a name of one slot. -/
def lastSlot (us : List UInt16) : Slot := longSlot 0x41 us

/-- The slots of a name of at most 26 units, the last one first. -/
def longSlots (name : List UInt16) : List Slot :=
  if name.length ≤ 13 then [lastSlot (padded name)]
  else [longSlot 0x42 ((padded name).drop 13), longSlot 1 ((padded name).take 13)]

def shortSlot : Slot := List.replicate 11 0x41 ++ 0x20 :: List.replicate 20 0

/-- `smallVolume` with a root directory of one name. -/
def nameVolume (name : List UInt16) : Disk := splice smallVolume (512 * 1056) ((longSlots name).flatten ++ shortSlot)

/-- Thirteen times "a" and a "b", in two slots. -/
def twoSlotName : List UInt16 := List.replicate 13 0x61 ++ [0x62]

/-- Thirteen times "a". -/
def fullName : List UInt16 := List.replicate 13 0x61

theorem nameVolume_delivers (hw : WellFormed (nameVolume name)) (hc : IsChain (nameVolume name) [2, 3])
    (hs : (dirSlots (nameVolume name) [2, 3]).take n = longSlots name ++ [shortSlot]) :
    ∃ d', Run Delivers (FatDir.new (FatFilesystem.new (nameVolume name)) 2) (longSlots name ++ [shortSlot]) d' := by
  have hr := (List.take_append_drop n (dirSlots (nameVolume name) [2, 3])).symm
  rw [hs, ← remaining_new (nameVolume name) (FatFilesystem.new (nameVolume name)) 2 [2, 3]] at hr
  obtain ⟨d', -, hrun, -⟩ := delivers_remaining hw (new_at rfl hc) hr
  exact ⟨d', hrun⟩

theorem twoSlotName_wellFormed : WellFormed (nameVolume twoSlotName) :=
  ⟨by decide +kernel, by decide +kernel, by decide +kernel⟩

theorem twoSlotName_chain : IsChain (nameVolume twoSlotName) [2, 3] :=
  ⟨⟨by decide, by decide +kernel⟩, by decide +kernel, ⟨by decide, by decide +kernel⟩, by decide +kernel⟩

theorem fullName_wellFormed : WellFormed (nameVolume fullName) :=
  ⟨by decide +kernel, by decide +kernel, by decide +kernel⟩

theorem fullName_chain : IsChain (nameVolume fullName) [2, 3] :=
  ⟨⟨by decide, by decide +kernel⟩, by decide +kernel, ⟨by decide, by decide +kernel⟩, by decide +kernel⟩

theorem twoSlotName_stored : StoredAs (longSlots twoSlotName) shortSlot twoSlotName :=
  ⟨by decide +kernel, by decide +kernel, by decide +kernel, by decide +kernel, by decide +kernel⟩

theorem fullName_stored : StoredAs (longSlots fullName) shortSlot fullName :=
  ⟨by decide +kernel, by decide +kernel, by decide +kernel, by decide +kernel, by decide +kernel⟩

theorem long_name_decodes_iff_two_slots : ∃ d', Run Delivers (FatDir.new (FatFilesystem.new (nameVolume twoSlotName)) 2)
      (longSlots twoSlotName ++ [shortSlot]) d' ∧
    ((∃ e d'' s, readdir (FatDir.new (FatFilesystem.new (nameVolume twoSlotName)) 2) = .ok (some e, d'') ∧
      entryName (fun _ _ => 0) e = .ok s ∧
        Str.bytes s = Str.encoding (Str.utf16 twoSlotName)) ↔ twoSlotName.length % 13 ≠ 0) := by
  obtain ⟨d', hrun⟩ := nameVolume_delivers (n := 3) twoSlotName_wellFormed twoSlotName_chain (by decide +kernel)
  exact ⟨d', hrun, long_name_decodes_iff _ twoSlotName_stored (by decide) (by decide) (by decide) hrun⟩

/-- Thirteen units fill their slot, and no terminator follows. -/
theorem full_slot_has_no_terminator : ¬ ∀ (fresh : Nat → Nat → UInt8) (long : List Slot) (short : Slot) (name : List UInt16)
    (d d' : FatDir), StoredAs long short name → 1 ≤ name.length → name.length ≤ 255 → 0 ∉ name →
    Run Delivers d (long ++ [short]) d' → ∃ e d'' s, readdir d = .ok (some e, d'') ∧ entryName fresh e = .ok s ∧
      Str.bytes s = Str.encoding (Str.utf16 name) := by
  intro hall
  obtain ⟨d', hrun⟩ := nameVolume_delivers (n := 2) fullName_wellFormed fullName_chain (by decide +kernel)
  obtain ⟨e, d'', s, he, hs, -⟩ :=
    hall (fun _ _ => 0) _ _ _ _ _ fullName_stored (by decide) (by decide) (by decide) hrun
  rw [readdir_longNames fullName_stored (by decide) (by decide) hrun] at he
  obtain ⟨h1, -⟩ := Prod.mk.inj (Except.ok.inj he)
  rw [← Option.some.inj h1] at hs
  exact entryName_unterminated (by decide) (by decide) hs

end Rodvin.Kernel.Fat
