/-
  Rodvin.Kernel.PciDetect — the search for PCI devices (`pci_detect` of
  `kernel/src/x8664/pci.cpp`).

  The search goes through the slots of a bus, and into the bus behind every bridge it
  meets; it remembers nothing. Function 0 of a slot says in bit 7 of its header type
  whether there are others, and the loop bound is raised when it is read. `onDevice` is
  its list of calls, and does not change the configuration space.

  Proved: the search ends and calls `onDevice` once for every function that is there,
  exactly when no bus it reaches leads back to itself, and no bus where a function answers
  is reached along two ways (`pci_detect_enumerates_iff`).
-/

import Rodvin.Kernel.Pci
import Rodvin.Lib.Checked
import Rodvin.Lib.Descent
import Rodvin.Lib.Ways

namespace Rodvin.Kernel.Pci

open Rodvin.Lib
open Relation (ReflTransGen TransGen)

/-! ## The search -/

variable (sp : Space)

/-- The reads of the search; a read leaves the space as it is, and no address in the port. -/
def read32 (dev : pcidevice) (regno : UInt8) : UInt32 := (pciread32 dev regno ⟨0, sp⟩).1

def read8 (dev : pcidevice) (regno : UInt8) : UInt8 := (pciread8 dev regno ⟨0, sp⟩).1

def device (bus : UInt8) (slot function : Nat) : pcidevice :=
  UInt32.ofNat (bus.toNat <<< 8 ||| slot <<< 3 ||| function)

/-- The vendor reads as one. -/
def Answers (dev : pcidevice) : Prop := read32 sp dev 0 ≠ 0 ∧ read32 sp dev 0 ≠ 0xFFFFFFFF

def IsBridge (dev : pcidevice) : Prop := read8 sp dev 0x0E &&& 0x7F = 0x01

/-- Bit 7 of the header type. -/
def HasMore (dev : pcidevice) : Prop := read8 sp dev 0x0E &&& 0x80 ≠ 0

def subbusid (dev : pcidevice) : UInt8 := read8 sp dev 0x19

instance (dev : pcidevice) : Decidable (Answers sp dev) := inferInstanceAs (Decidable (_ ∧ _))
instance (dev : pcidevice) : Decidable (IsBridge sp dev) := inferInstanceAs (Decidable (_ = _))
instance (dev : pcidevice) : Decidable (HasMore sp dev) := inferInstanceAs (Decidable (_ ≠ _))

/-- What is found behind a device. -/
def detectBehind (detect : UInt8 → Checked (List pcidevice)) (dev : pcidevice) : Checked (List pcidevice) :=
  if IsBridge sp dev then detect (subbusid sp dev) else pure []

/-- The loop over the functions of a slot, from `function` on; `k` is `8 - function`, which
    `num_functions` never goes beyond. -/
def detectFrom (detect : UInt8 → Checked (List pcidevice)) (bus : UInt8) (slot : Nat) :
    Nat → Nat → Nat → Checked (List pcidevice)
  | 0, _, _ => pure []
  | k + 1, function, num_functions =>
    if function < num_functions then do
      let dev := device bus slot function
      let called := if Answers sp dev then [dev] else []
      let num_functions := if HasMore sp dev then 8 else num_functions
      let below ← detectBehind sp detect dev
      let others ← detectFrom detect bus slot k (function + 1) num_functions
      return called ++ below ++ others
    else return []

/-- The calls of `onDevice`; `depth` bounds the calls of `pci_detect` that are open at a time. -/
def pci_detect : Nat → UInt8 → Checked (List pcidevice)
  | 0, _ => .error .noReturn
  | depth + 1, bus => do
    let slots ← (List.range 32).mapM fun slot => detectFrom sp (pci_detect depth) bus slot 8 0 1
    return slots.flatten

/-! ## What it should find -/

/-- The functions of a slot that are looked at. -/
def functions (bus : UInt8) (slot : Nat) : List Nat := List.range (if HasMore sp (device bus slot 0) then 8 else 1)

def scanned (bus : UInt8) : List pcidevice :=
  (List.range 32).flatMap fun slot => (functions sp bus slot).map (device bus slot)

/-- The bridges on a bus. -/
def bridges (bus : UInt8) : List pcidevice := (scanned sp bus).filter fun dev => IsBridge sp dev

/-- A bridge on one bus has the other behind it. -/
def Behind (a b : UInt8) : Prop := Ways.Leads (bridges sp) (subbusid sp) a b

/-- The function answers; only function 0 can say that a slot has others. -/
def Present (bus : UInt8) (slot function : Nat) : Prop :=
  Answers sp (device bus slot function) ∧ (function = 0 ∨ HasMore sp (device bus slot 0))

/-- From bus 0, every bus is reached along at most one way. -/
def Tree : Prop := ∀ ds es, Ways.IsWay (bridges sp) (subbusid sp) 0 ds → Ways.IsWay (bridges sp) (subbusid sp) 0 es →
  Ways.stop (subbusid sp) 0 ds = Ways.stop (subbusid sp) 0 es → ds = es

/-- The search ends, calls `onDevice` at most once for each device, and once for each that is
    there when the bridges form a tree. -/
def Enumerates : Prop := ∃ depth calls, pci_detect sp depth 0 = .ok calls ∧ (∀ dev, calls.count dev ≤ 1) ∧
  (Tree sp → ∀ bus, ReflTransGen (Behind sp) 0 bus → ∀ slot < 32, ∀ function < 8, Present sp bus slot function →
    calls.count (device bus slot function) = 1)

/-! ## One call -/

variable {sp} {detect : UInt8 → Checked (List pcidevice)} {bus : UInt8} {slot k f n : Nat} {dev : pcidevice}
  {l calls : List pcidevice}

/-- The calls of a search that ends. -/
def callsOf (r : Checked (List pcidevice)) : List pcidevice :=
  match r with
  | .ok l => l
  | .error _ => []

def below (sp : Space) (detect : UInt8 → Checked (List pcidevice)) (dev : pcidevice) : List pcidevice :=
  if IsBridge sp dev then callsOf (detect (subbusid sp dev)) else []

def visit (sp : Space) (detect : UInt8 → Checked (List pcidevice)) (dev : pcidevice) : List pcidevice :=
  (if Answers sp dev then [dev] else []) ++ below sp detect dev

/-- The search behind the device ends, if there is one. -/
def Returns (sp : Space) (detect : UInt8 → Checked (List pcidevice)) (dev : pcidevice) : Prop :=
  IsBridge sp dev → ∃ l, detect (subbusid sp dev) = .ok l

theorem detectBehind_eq_ok : detectBehind sp detect dev = .ok l ↔ Returns sp detect dev ∧ l = below sp detect dev := by
  unfold detectBehind Returns below
  by_cases h : IsBridge sp dev
  · rw [if_pos h, if_pos h]
    constructor
    · intro hl
      exact ⟨fun _ => ⟨l, hl⟩, by rw [hl]; rfl⟩
    · intro ⟨hr, hl⟩
      obtain ⟨l', hl'⟩ := hr h
      rw [hl, hl']
      rfl
  · rw [if_neg h, if_neg h]
    exact ⟨fun hl => ⟨fun h' => absurd h' h, (Except.ok.inj hl).symm⟩, fun hl => hl.2 ▸ rfl⟩

/-- One turn of the loop over functions. -/
theorem detectFrom_succ {num : Nat} (hf : f < num) : detectFrom sp detect bus slot (k + 1) f num = .ok l ↔
    Returns sp detect (device bus slot f) ∧
      ∃ others, detectFrom sp detect bus slot k (f + 1) (if HasMore sp (device bus slot f) then 8 else num) = .ok others ∧
        l = visit sp detect (device bus slot f) ++ others := by
  rw [detectFrom, if_pos hf]
  simp only
  rw [bind_eq_ok]
  constructor
  · intro ⟨b, hb, h⟩
    obtain ⟨hr, rfl⟩ := detectBehind_eq_ok.mp hb
    obtain ⟨others, ho, h⟩ := bind_eq_ok.mp h
    exact ⟨hr, others, ho, (Except.ok.inj h).symm⟩
  · intro ⟨hr, others, ho, h⟩
    exact ⟨_, detectBehind_eq_ok.mpr ⟨hr, rfl⟩, by rw [ok_bind ho, h]; rfl⟩

/-- Once the bound is eight it stays there. -/
theorem detectFrom_eight (hk : f + k = 8) : detectFrom sp detect bus slot k f 8 = .ok l ↔
    (∀ g ∈ List.range' f k, Returns sp detect (device bus slot g)) ∧
      l = (List.range' f k).flatMap fun g => visit sp detect (device bus slot g) := by
  induction k generalizing f l with
  | zero => exact ⟨fun h => ⟨nofun, (Except.ok.inj h).symm⟩, fun h => h.2 ▸ rfl⟩
  | succ k ih =>
    rw [detectFrom_succ (by omega), ite_self, List.range'_succ, List.forall_mem_cons, List.flatMap_cons]
    constructor
    · intro ⟨hr, others, ho, h⟩
      obtain ⟨hl, rfl⟩ := (ih (by omega)).mp ho
      exact ⟨⟨hr, hl⟩, h⟩
    · intro ⟨⟨hr, hl⟩, h⟩
      exact ⟨hr, _, (ih (by omega)).mpr ⟨hl, rfl⟩, h⟩

theorem detectSlot_eq_ok : detectFrom sp detect bus slot 8 0 1 = .ok l ↔
    (∀ g ∈ functions sp bus slot, Returns sp detect (device bus slot g)) ∧
      l = (functions sp bus slot).flatMap fun g => visit sp detect (device bus slot g) := by
  rw [detectFrom_succ (by decide)]
  unfold functions
  by_cases hm : HasMore sp (device bus slot 0)
  · rw [if_pos hm, List.range_eq_range', List.range'_succ, List.forall_mem_cons, List.flatMap_cons]
    constructor
    · intro ⟨hr, others, ho, h⟩
      obtain ⟨hl, rfl⟩ := (detectFrom_eight rfl).mp ho
      exact ⟨⟨hr, hl⟩, h⟩
    · intro ⟨⟨hr, hl⟩, h⟩
      exact ⟨hr, _, (detectFrom_eight rfl).mpr ⟨hl, rfl⟩, h⟩
  · rw [if_neg hm]
    constructor
    · intro ⟨hr, others, ho, h⟩
      obtain rfl : [] = others := Except.ok.inj ho
      exact ⟨by simpa using hr, by simpa using h⟩
    · intro ⟨hr, h⟩
      exact ⟨hr 0 (by simp), [], rfl, by simpa using h⟩

theorem pci_detect_succ : pci_detect sp (n + 1) bus = .ok calls ↔
    (∀ dev ∈ scanned sp bus, Returns sp (pci_detect sp n) dev) ∧ calls = (scanned sp bus).flatMap
    (visit sp (pci_detect sp n)) := by
  unfold pci_detect
  rw [bind_eq_ok]
  have hslots {slots : List (List pcidevice)} :
      (List.range 32).mapM (fun slot => detectFrom sp (pci_detect sp n) bus slot 8 0 1) = .ok slots ↔ _ :=
    mapM_eq_ok_iff fun slot l => detectSlot_eq_ok
  have hscan : (∀ slot ∈ List.range 32, ∀ g ∈ functions sp bus slot, Returns sp (pci_detect sp n) (device bus slot g)) ↔
      ∀ dev ∈ scanned sp bus, Returns sp (pci_detect sp n) dev := by
    simp only [scanned, List.forall_mem_flatMap, List.forall_mem_map]
  have hflat : ((List.range 32).map fun slot =>
      (functions sp bus slot).flatMap fun g => visit sp (pci_detect sp n) (device bus slot g)).flatten =
        (scanned sp bus).flatMap (visit sp (pci_detect sp n)) := by
    rw [← List.flatMap_def]
    simp only [scanned, List.flatMap_assoc, List.flatMap_map]
  constructor
  · intro ⟨slots, hs, h⟩
    obtain ⟨hr, rfl⟩ := hslots.mp hs
    exact ⟨hscan.mp hr, (Except.ok.inj h).symm.trans hflat⟩
  · intro ⟨hr, h⟩
    exact ⟨_, hslots.mpr ⟨hscan.mpr hr, rfl⟩, by rw [h, ← hflat]; rfl⟩

/-! ## Numbers of devices -/

theorem toNat_device (hs : slot < 32) (hf : f < 8) : (device bus slot f).toNat = bus.toNat * 256 + slot * 8 + f := by
  have hb := bus.toNat_lt
  have hlow : slot <<< 3 ||| f = slot * 8 + f := by
    rw [Nat.shiftLeft_eq, Nat.mul_comm]
    exact (Nat.two_pow_add_eq_or_of_lt hf slot).symm
  have hhigh : bus.toNat <<< 8 ||| (slot * 8 + f) = bus.toNat * 256 + (slot * 8 + f) := by
    rw [Nat.shiftLeft_eq, Nat.mul_comm]
    exact (Nat.two_pow_add_eq_or_of_lt (by omega) bus.toNat).symm
  have hor : bus.toNat <<< 8 ||| slot <<< 3 ||| f = bus.toNat * 256 + (slot * 8 + f) := by
    rw [Nat.or_assoc, hlow, hhigh]
  unfold device
  rw [hor, UInt32.toNat_ofNat', Nat.mod_eq_of_lt (by omega)]
  omega

theorem device_inj {bus' : UInt8} {slot' f' : Nat} (hs : slot < 32) (hf : f < 8) (hs' : slot' < 32) (hf' : f' < 8)
    (h : device bus slot f = device bus' slot' f') : bus = bus' ∧ slot = slot' ∧ f = f' := by
  have hnum := congrArg UInt32.toNat h
  rw [toNat_device hs hf, toNat_device hs' hf'] at hnum
  exact ⟨UInt8.toNat_inj.mp (by omega), by omega, by omega⟩

theorem functions_lt {g : Nat} (hg : g ∈ functions sp bus slot) : g < 8 := by
  have hlt := List.mem_range.mp hg
  split at hlt <;> omega

theorem mem_functions {g : Nat} (hg : g < 8) : g ∈ functions sp bus slot ↔ g = 0 ∨ HasMore sp (device bus slot 0) := by
  unfold functions
  rw [List.mem_range]
  split <;> simp [*]

theorem mem_scanned : dev ∈ scanned sp bus ↔ ∃ slot < 32, ∃ g ∈ functions sp bus slot, device bus slot g = dev := by
  simp [scanned]

/-- A device is on one bus. -/
theorem scanned_bus {bus' : UInt8} (h : dev ∈ scanned sp bus) (h' : dev ∈ scanned sp bus') : bus = bus' := by
  obtain ⟨slot, hs, g, hg, rfl⟩ := mem_scanned.mp h
  obtain ⟨slot', hs', g', hg', he⟩ := mem_scanned.mp h'
  exact (device_inj hs' (functions_lt hg') hs (functions_lt hg) he).1.symm

theorem nodup_scanned (bus : UInt8) : (scanned sp bus).Nodup := by
  refine List.nodup_flatMap.mpr ⟨fun slot hs => ?_, List.nodup_range.imp_of_mem fun {slot slot'} hs hs' hne => ?_⟩
  · refine List.Nodup.map_on (fun g hg g' hg' he => ?_) List.nodup_range
    exact (device_inj (List.mem_range.mp hs) (functions_lt hg) (List.mem_range.mp hs) (functions_lt hg') he).2.2
  · intro dev hd hd'
    obtain ⟨g, hg, rfl⟩ := List.mem_map.mp hd
    obtain ⟨g', hg', he⟩ := List.mem_map.mp hd'
    exact hne (device_inj (List.mem_range.mp hs) (functions_lt hg) (List.mem_range.mp hs') (functions_lt hg') he.symm).2.1

/-! ## The calls -/

/-- The devices of a bus that `onDevice` is called with. -/
def answered (sp : Space) (bus : UInt8) : List pcidevice := (scanned sp bus).filter fun dev => Answers sp dev

theorem nodup_answered (bus : UInt8) : (answered sp bus).Nodup := (nodup_scanned bus).filter _

theorem nodup_bridges (bus : UInt8) : (bridges sp bus).Nodup := (nodup_scanned bus).filter _

theorem mem_bridges : dev ∈ bridges sp bus ↔ dev ∈ scanned sp bus ∧ IsBridge sp dev := by
  unfold bridges
  rw [List.mem_filter, decide_eq_true_eq]

theorem finite_buses (p : Set UInt8) : p.Finite := by
  have : Finite UInt8 := Finite.of_injective UInt8.toFin fun _ _ h => UInt8.toFin_inj.mp h
  exact Set.toFinite p

/-- A search ends when those behind its bridges do. -/
theorem returns_succ : (∃ l, pci_detect sp (n + 1) bus = .ok l) ↔
    ∀ c, Behind sp bus c → ∃ l, pci_detect sp n c = .ok l := by
  constructor
  · intro ⟨l, hl⟩ c ⟨dev, hd, hc⟩
    obtain ⟨hs, hb⟩ := mem_bridges.mp hd
    obtain ⟨l', hl'⟩ := (pci_detect_succ.mp hl).1 dev hs hb
    exact ⟨l', hc ▸ hl'⟩
  · intro h
    exact ⟨_, pci_detect_succ.mpr ⟨fun dev hs hb => h _ ⟨dev, mem_bridges.mpr ⟨hs, hb⟩, rfl⟩, rfl⟩⟩

theorem returns_iff : (∃ depth l, pci_detect sp depth bus = .ok l) ↔
    ∀ b, ReflTransGen (Behind sp) bus b → ¬ TransGen (Behind sp) b b := by
  have hacc := acc_iff_depth (P := fun n b => ∃ l, pci_detect sp n b = .ok l) (r := Behind sp) (a := bus)
    (fun _ => finite_buses _) (fun _ ⟨_, h⟩ => nomatch h) fun _ _ => returns_succ
  rw [hacc]
  exact acc_iff_no_cycle (finite_buses _)

/-- When the search ends, its depth is more than the bridges of any way. -/
theorem way_lt {ds : List pcidevice} (h : pci_detect sp n bus = .ok l)
    (hds : Ways.IsWay (bridges sp) (subbusid sp) bus ds) :
    ds.length < n := by
  induction n generalizing bus l ds with
  | zero => exact nomatch h
  | succ n ih =>
    cases ds with
    | nil => exact Nat.succ_pos n
    | cons d ds =>
      obtain ⟨l', hl'⟩ := returns_succ.mp ⟨l, h⟩ _ ⟨d, hds.1, rfl⟩
      exact Nat.succ_lt_succ (ih hl' hds.2)

theorem flatMap_ite {α β : Type} (p : α → Prop) [DecidablePred p] (g : α → List β) (l : List α) :
    l.flatMap (fun a => if p a then g a else []) = (l.filter p).flatMap g := by
  induction l with
  | nil => rfl
  | cons a l ih => by_cases h : p a <;> simp [h, ih]

/-- Its calls are those of every way, up to their order. -/
theorem calls_perm (h : pci_detect sp n bus = .ok l) :
    l.Perm ((Ways.ways (bridges sp) (subbusid sp) n bus).flatMap fun ds => answered sp (Ways.stop (subbusid sp) bus ds)) := by
  induction n generalizing bus l with
  | zero => exact nomatch h
  | succ n ih =>
    obtain ⟨hr, rfl⟩ := pci_detect_succ.mp h
    have hcalled : (scanned sp bus).flatMap (fun dev => if Answers sp dev then [dev] else []) = answered sp bus := by
      rw [flatMap_ite, List.flatMap_singleton']
      rfl
    have hbelow : (scanned sp bus).flatMap (below sp (pci_detect sp n)) =
        (bridges sp bus).flatMap fun dev => callsOf (pci_detect sp n (subbusid sp dev)) := flatMap_ite ..
    have hways : ∀ dev ∈ bridges sp bus, (callsOf (pci_detect sp n (subbusid sp dev))).Perm
        ((Ways.ways (bridges sp) (subbusid sp) n (subbusid sp dev)).flatMap fun ds =>
          answered sp (Ways.stop (subbusid sp) (subbusid sp dev) ds)) := by
      intro dev hdev
      obtain ⟨hs, hb⟩ := mem_bridges.mp hdev
      obtain ⟨l', hl'⟩ := hr dev hs hb
      rw [hl']
      exact ih hl'
    have hsplit : ((scanned sp bus).flatMap (visit sp (pci_detect sp n))).Perm
        (answered sp bus ++ (bridges sp bus).flatMap fun dev => callsOf (pci_detect sp n (subbusid sp dev))) := by
      rw [← hcalled, ← hbelow]
      exact (List.flatMap_append_perm _ _ _).symm
    refine hsplit.trans (((List.Perm.flatMap_left _ hways).append_left _).trans (List.Perm.of_eq ?_))
    rw [Ways.ways, List.flatMap_cons, List.flatMap_assoc]
    simp only [List.flatMap_map]
    rfl

theorem nodup_calls_iff (h : pci_detect sp n 0 = .ok calls) : calls.Nodup ↔
    ∀ ds es, Ways.IsWay (bridges sp) (subbusid sp) 0 ds → Ways.IsWay (bridges sp) (subbusid sp) 0 es →
      Ways.stop (subbusid sp) 0 ds = Ways.stop (subbusid sp) 0 es →
        (∃ dev ∈ scanned sp (Ways.stop (subbusid sp) 0 ds), Answers sp dev) → ds = es := by
  have hsep : ∀ {a b : UInt8} {dev : pcidevice}, dev ∈ answered sp a → dev ∈ answered sp b → a = b := fun h h' =>
    scanned_bus (List.mem_filter.mp h).1 (List.mem_filter.mp h').1
  have hfound (bus : UInt8) : answered sp bus ≠ [] ↔ ∃ dev ∈ scanned sp bus, Answers sp dev := by
    simp [answered]
  have hall (ds : List pcidevice) : ds ∈ Ways.ways (bridges sp) (subbusid sp) n 0 ↔
      Ways.IsWay (bridges sp) (subbusid sp) 0 ds :=
    Ways.mem_ways.trans ⟨And.left, fun hds => ⟨hds, way_lt h hds⟩⟩
  rw [(calls_perm h).nodup_iff, Ways.nodup_found_iff nodup_bridges nodup_answered hsep]
  simp only [hall, hfound]
  exact ⟨fun h ds es hds hes => h ds hds es hes, fun h ds hds es hes => h ds es hds hes⟩

/-- Every function there on a bus that is reached is among the calls. -/
theorem mem_calls (h : pci_detect sp n 0 = .ok calls) (hbus : ReflTransGen (Behind sp) 0 bus) (hs : slot < 32)
    (hf : f < 8)
    (hp : Present sp bus slot f) : device bus slot f ∈ calls := by
  obtain ⟨ds, hds, rfl⟩ := Ways.reaches_iff.mp hbus
  have hscan : device (Ways.stop (subbusid sp) 0 ds) slot f ∈ scanned sp (Ways.stop (subbusid sp) 0 ds) :=
    mem_scanned.mpr ⟨slot, hs, f, (mem_functions hf).mpr hp.2, rfl⟩
  refine (calls_perm h).mem_iff.mpr (List.mem_flatMap.mpr ⟨ds, Ways.mem_ways.mpr ⟨hds, way_lt h hds⟩, ?_⟩)
  exact List.mem_filter.mpr ⟨hscan, decide_eq_true hp.1⟩

/-- The search enumerates the devices exactly when no bus it reaches leads back to itself and no
    bus where a function answers is reached along two ways. -/
theorem pci_detect_enumerates_iff (sp : Space) : Enumerates sp ↔
    (∀ b, ReflTransGen (Behind sp) 0 b → ¬ TransGen (Behind sp) b b) ∧
      ∀ ds es, Ways.IsWay (bridges sp) (subbusid sp) 0 ds → Ways.IsWay (bridges sp) (subbusid sp) 0 es →
        Ways.stop (subbusid sp) 0 ds = Ways.stop (subbusid sp) 0 es →
          (∃ dev ∈ scanned sp (Ways.stop (subbusid sp) 0 ds), Answers sp dev) → ds = es := by
  constructor
  · intro ⟨depth, calls, h, honce, _⟩
    exact ⟨returns_iff.mp ⟨depth, calls, h⟩, (nodup_calls_iff h).mp (List.nodup_iff_count_le_one.mpr honce)⟩
  · intro ⟨hcycle, hways⟩
    obtain ⟨depth, calls, h⟩ := returns_iff.mpr hcycle
    have honce := List.nodup_iff_count_le_one.mp ((nodup_calls_iff h).mpr hways)
    refine ⟨depth, calls, h, honce, fun _ bus hbus slot hs f hf hp => ?_⟩
    have hpos := List.count_pos_iff.mpr (mem_calls h hbus hs hf hp)
    have := honce (device bus slot f)
    omega

/-- A bridge at slot 0 of bus 0 that no firmware has set up: its secondary bus is 0. Where there
    is no device, all bits read as ones. -/
def unconfigured : Space := fun dev reg => if dev = 0 then [0x86, 0x80, 0x48, 0x24].getD reg (if reg = 0x0E then 1 else 0) else 0xFF

theorem unconfigured_bridge_is_searched_for_ever : ¬ ∀ sp, Enumerates sp := by
  intro h
  obtain ⟨hcycle, -⟩ := (pci_detect_enumerates_iff unconfigured).mp (h unconfigured)
  have hhead : read8 unconfigured 0 0x0E = 1 := congrArg Prod.fst (pciread8_eq 0 0x0E ⟨0, unconfigured⟩)
  have hsub : subbusid unconfigured 0 = 0 := congrArg Prod.fst (pciread8_eq 0 0x19 ⟨0, unconfigured⟩)
  have hscan : (0 : pcidevice) ∈ scanned unconfigured 0 :=
    mem_scanned.mpr ⟨0, by decide, 0, (mem_functions (by decide)).mpr (.inl rfl), rfl⟩
  have hbridge : IsBridge unconfigured 0 := by
    unfold IsBridge
    rw [hhead]
    rfl
  exact hcycle 0 .refl (.single ⟨0, mem_bridges.mpr ⟨hscan, hbridge⟩, hsub⟩)

end Rodvin.Kernel.Pci
