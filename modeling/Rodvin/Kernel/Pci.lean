/-
  Rodvin.Kernel.Pci — access to PCI configuration space (`kernel/src/x8664/pci.cpp`,
  the same file for i386).

  The host bridge has two ports: one takes the address of a register, the other reads and
  writes 32 bits there. The functions of the file pick a lane out of these 32 bits; the
  space of a device is 256 bytes, and a device number is 16 bits of an address.

  Proved: writes of any width are stores to the bytes of the device, and reads of 8 and 32
  bits read them; a read of 16 bits gives the lower byte alone, so it is right exactly
  where the upper one is zero (`one_byte_array_iff`).
-/

import Rodvin.Lib.Lanes
import Rodvin.Lib.Words

namespace Rodvin.Kernel.Pci

open Rodvin.Lib

/-! ## The host bridge -/

/-- The address that stands in port 0xCF8, and the configuration space of every device. -/
structure Machine where
  address : UInt32
  space : Nat → Nat → UInt8

namespace Machine

/-- Bits 8 to 23 of the address, behind the bit that enables it. -/
def device (m : Machine) : Nat := m.address.toNat >>> 8 % 2 ^ 16

def register (m : Machine) : Nat := m.address.toNat % 2 ^ 8

def enabled (m : Machine) : Bool := m.address.toNat.testBit 31

end Machine

def outd (port : Nat) (value : UInt32) (m : Machine) : Machine :=
  if port = 0xCF8 then { m with address := value }
  else if port = 0xCFC ∧ m.enabled then
    { m with space := Function.update m.space m.device (splice (m.space m.device) m.register (le 4 value.toNat)) }
  else m

def ind (port : Nat) (m : Machine) : UInt32 :=
  if port = 0xCFC ∧ m.enabled then UInt32.ofNat (ofLE (slice (m.space m.device) m.register 4)) else 0xFFFFFFFF

/-! ## `pci.cpp` -/

abbrev pcidevice := UInt32

def pciread32 (dev : pcidevice) (regno : UInt8) (m : Machine) : UInt32 × Machine :=
  let m := outd 0xCF8 ((0x80000000 : UInt32) ||| (dev <<< 8) ||| (regno &&& 0xFC).toUInt32) m
  let value := ind 0xCFC m
  (value, outd 0xCF8 0x00000000 m)

def pciread8 (dev : pcidevice) (regno : UInt8) (m : Machine) : UInt8 × Machine :=
  let (value, m) := pciread32 dev regno m
  (((value >>> (8 * (regno &&& 3)).toUInt32) &&& 0xFF).toUInt8, m)

def pciread16 (dev : pcidevice) (regno : UInt8) (m : Machine) : UInt16 × Machine :=
  let (value, m) := pciread32 dev regno m
  (((value >>> (8 * (regno &&& 2)).toUInt32) &&& 0xFF).toUInt16, m)

def pciwrite32 (dev : pcidevice) (regno : UInt8) (value : UInt32) (m : Machine) : Machine :=
  let m := outd 0xCF8 ((0x80000000 : UInt32) ||| (dev <<< 8) ||| (regno &&& 0xFC).toUInt32) m
  let m := outd 0xCFC value m
  outd 0xCF8 0x00000000 m

def pciwrite8 (dev : pcidevice) (regno : UInt8) (value : UInt8) (m : Machine) : Machine :=
  let (cvalue, m) := pciread32 dev regno m
  let cvalue := cvalue &&& ~~~((0xFF : UInt32) <<< (8 * (regno &&& 3)).toUInt32)
  let cvalue := cvalue ||| value.toUInt32 <<< (8 * (regno &&& 3)).toUInt32
  pciwrite32 dev regno cvalue m

def pciwrite16 (dev : pcidevice) (regno : UInt8) (value : UInt16) (m : Machine) : Machine :=
  let (cvalue, m) := pciread32 dev regno m
  let cvalue := cvalue &&& ~~~((0xFFFF : UInt32) <<< (8 * (regno &&& 2)).toUInt32)
  let cvalue := cvalue ||| value.toUInt32 <<< (8 * (regno &&& 2)).toUInt32
  pciwrite32 dev regno cvalue m

/-! ## The address -/

variable {dev : pcidevice} {regno : UInt8} {m : Machine} {n : Nat}

/-- The address that both 32-bit functions send. -/
def addressOf (dev : pcidevice) (regno : UInt8) : UInt32 :=
  (0x80000000 : UInt32) ||| (dev <<< 8) ||| (regno &&& 0xFC).toUInt32

/-- The device that answers. -/
def numberOf (dev : pcidevice) : Nat := dev.toNat % 2 ^ 16

/-- The first register of the aligned four. -/
def base (regno : UInt8) : Nat := regno.toNat / 4 * 4

theorem toNat_low {r : UInt8} : (r &&& 0xFC).toNat = base r := by
  rw [UInt8.toNat_and]
  exact and_align (k := 2) (n := 8) (by decide) r.toNat_lt

theorem toNat_addressOf : (addressOf dev regno).toNat = 2 ^ 31 ||| dev.toNat <<< 8 % 2 ^ 32 ||| base regno := by
  unfold addressOf
  rw [UInt32.toNat_or, UInt32.toNat_or, UInt32.toNat_shiftLeft, UInt8.toNat_toUInt32, toNat_low]
  rfl

theorem testBit_addressOf (i : Nat) : (addressOf dev regno).toNat.testBit i =
    (decide (i = 31) || decide (i < 32) && (decide (8 ≤ i) && dev.toNat.testBit (i - 8)) || (base regno).testBit i) := by
  rw [toNat_addressOf, Nat.testBit_or, Nat.testBit_or, Nat.testBit_two_pow, Nat.testBit_mod_two_pow,
    Nat.testBit_shiftLeft]
  simp [eq_comm]

theorem base_lt (regno : UInt8) : base regno + 4 ≤ 2 ^ 8 := by
  have := regno.toNat_lt
  unfold base
  omega

theorem testBit_base {i : Nat} (hi : 8 ≤ i) : (base regno).testBit i = false := by
  have := base_lt regno
  exact Nat.testBit_lt_two_pow (Nat.lt_of_lt_of_le (by omega) (Nat.pow_le_pow_right (by decide) hi))

/-- The machine with the address in its port. -/
def aim (dev : pcidevice) (regno : UInt8) (m : Machine) : Machine := { m with address := addressOf dev regno }

theorem aim_enabled : (aim dev regno m).enabled = true := by
  show (addressOf dev regno).toNat.testBit 31 = true
  simp [testBit_addressOf]

theorem aim_device : (aim dev regno m).device = numberOf dev := by
  refine Nat.eq_of_testBit_eq fun i => ?_
  show ((addressOf dev regno).toNat >>> 8 % 2 ^ 16).testBit i = (dev.toNat % 2 ^ 16).testBit i
  rw [Nat.testBit_mod_two_pow, Nat.testBit_mod_two_pow, Nat.testBit_shiftRight, testBit_addressOf,
    testBit_base (by omega)]
  by_cases hi : i < 16
  · simp [hi, show 8 + i ≠ 31 by omega, show 8 + i < 32 by omega]
  · simp [hi]

theorem aim_register : (aim dev regno m).register = base regno := by
  refine Nat.eq_of_testBit_eq fun i => ?_
  show ((addressOf dev regno).toNat % 2 ^ 8).testBit i = (base regno).testBit i
  rw [Nat.testBit_mod_two_pow, testBit_addressOf]
  by_cases hi : i < 8
  · simp [hi, show i ≠ 31 by omega, show ¬ 8 ≤ i by omega]
  · simp [hi, testBit_base (Nat.le_of_not_lt hi)]

/-! ## 32 bits -/

/-- The bytes of a device. -/
def bytesOf (m : Machine) (dev : pcidevice) : Nat → UInt8 := m.space (numberOf dev)

/-- The machine with other bytes of a device, and no address in its port. -/
def stored (m : Machine) (dev : pcidevice) (bytes : Nat → UInt8) : Machine :=
  ⟨0, Function.update m.space (numberOf dev) bytes⟩

theorem pciread32_eq (dev : pcidevice) (regno : UInt8) (m : Machine) :
    pciread32 dev regno m = (UInt32.ofNat (ofLE (slice (bytesOf m dev) (base regno) 4)), { m with address := 0 }) := by
  have hind : ind 0xCFC (aim dev regno m) = UInt32.ofNat (ofLE (slice (bytesOf m dev) (base regno) 4)) := by
    unfold ind
    rw [if_pos ⟨rfl, aim_enabled⟩, aim_device, aim_register]
    rfl
  exact Prod.ext hind rfl

theorem pciwrite32_eq (dev : pcidevice) (regno : UInt8) (value : UInt32) (m : Machine) :
    pciwrite32 dev regno value m = stored m dev (splice (bytesOf m dev) (base regno) (le 4 value.toNat)) := by
  have hout : outd 0xCFC value (aim dev regno m) =
      { aim dev regno m with
        space := Function.update m.space (numberOf dev) (splice (bytesOf m dev) (base regno) (le 4 value.toNat)) } := by
    unfold outd
    rw [if_neg (by decide), if_pos ⟨rfl, aim_enabled⟩, aim_device, aim_register]
    rfl
  show outd 0xCF8 0 (outd 0xCFC value (aim dev regno m)) = _
  rw [hout]
  rfl

/-! ## Lanes -/

theorem base_add (regno : UInt8) : base regno + regno.toNat % 4 = regno.toNat := Nat.div_add_mod' _ 4

theorem toNat_shift8 : (8 * (regno &&& 3)).toUInt32.toNat = 8 * (regno.toNat % 4) := by
  have hand : regno.toNat &&& 3 = regno.toNat % 4 := Nat.and_two_pow_sub_one_eq_mod regno.toNat 2
  rw [UInt8.toNat_toUInt32, UInt8.toNat_mul, UInt8.toNat_and]
  show 8 * (regno.toNat &&& 3) % 2 ^ 8 = _
  rw [hand]
  omega

/-- For an even register the two masks are the same. -/
theorem toNat_shift16 (h : regno.toNat % 2 = 0) : (8 * (regno &&& 2)).toUInt32.toNat = 8 * (regno.toNat % 4) := by
  have hand : regno.toNat &&& 2 = regno.toNat % 4 := by
    have heven : regno.toNat.testBit 0 = false := by simp [Nat.testBit_zero, h]
    refine Nat.eq_of_testBit_eq fun i => ?_
    rw [Nat.testBit_and, show regno.toNat % 4 = regno.toNat % 2 ^ 2 from rfl, Nat.testBit_mod_two_pow,
      show (2 : Nat) = 2 ^ 1 from rfl, Nat.testBit_two_pow]
    rcases i with _ | _ | i
    · simp [heven]
    · simp
    · simp
  rw [UInt8.toNat_toUInt32, UInt8.toNat_mul, UInt8.toNat_and]
  show 8 * (regno.toNat &&& 2) % 2 ^ 8 = _
  rw [hand]
  omega

/-- The aligned word around a register. -/
def word (m : Machine) (dev : pcidevice) (regno : UInt8) : Nat := ofLE (slice (bytesOf m dev) (base regno) 4)

theorem word_lt (m : Machine) (dev : pcidevice) (regno : UInt8) : word m dev regno < 2 ^ 32 := by
  have := ofLE_lt (slice (bytesOf m dev) (base regno) 4)
  rwa [length_slice] at this

theorem toNat_word : (UInt32.ofNat (word m dev regno)).toNat = word m dev regno :=
  UInt32.toNat_ofNat_of_lt' (word_lt m dev regno)

/-- A byte of the word, taken out with a shift and a mask. -/
theorem toNat_picked (m : Machine) (dev : pcidevice) (regno : UInt8) {s : UInt32} {k : Nat} (hk : k < 4)
    (hs : s.toNat = 8 * k) :
    ((UInt32.ofNat (word m dev regno) >>> s) &&& 0xFF).toNat = (bytesOf m dev (base regno + k)).toNat := by
  rw [UInt32.toNat_and, UInt32.toNat_shiftRight, toNat_word, hs, Nat.mod_eq_of_lt (by omega)]
  have hget := get_slice (m := bytesOf m dev) (a := base regno) (k := k) (n := 1) (w := 4) (by omega)
  rw [ofLE_slice_one] at hget
  rw [← hget]
  exact Nat.and_two_pow_sub_one_eq_mod _ 8

/-- A value put into the word with a mask and a shift. -/
theorem toNat_put (m : Machine) (dev : pcidevice) (regno : UInt8) {s : UInt32} (mask v : UInt32) {k n : Nat}
    (hk : k + n ≤ 4) (hn : 0 < n) (hs : s.toNat = 8 * k)
    (hmask : mask.toNat = 2 ^ (8 * n) - 1) (hv : v.toNat < 2 ^ (8 * n)) :
    ((UInt32.ofNat (word m dev regno) &&& ~~~(mask <<< s)) ||| v <<< s).toNat =
      (lane k n).set v.toNat (word m dev regno) := by
  have hfit (x : Nat) (hx : x < 2 ^ (8 * n)) : x <<< (8 * k) % 2 ^ 32 = x <<< (8 * k) := by
    refine Nat.mod_eq_of_lt ?_
    rw [Nat.shiftLeft_eq]
    calc x * 2 ^ (8 * k) < 2 ^ (8 * n) * 2 ^ (8 * k) := Nat.mul_lt_mul_of_pos_right hx (Nat.two_pow_pos _)
      _ = 2 ^ (8 * n + 8 * k) := (Nat.pow_add 2 _ _).symm
      _ ≤ 2 ^ 32 := Nat.pow_le_pow_right (by decide) (by omega)
  have hshift : s.toNat % 32 = 8 * k := by omega
  rw [UInt32.toNat_or, UInt32.toNat_and, UInt32.toNat_not, UInt32.toNat_shiftLeft, UInt32.toNat_shiftLeft, hshift,
    toNat_word,
    hfit v.toNat hv, hmask, hfit _ (Nat.sub_lt (Nat.two_pow_pos _) (by decide))]
  have hset := BitField.clear_or_eq_set (b := lane k n) (n := 32) (by simp only [lane]; omega)
    (word_lt m dev regno) hv
  rwa [Nat.add_comm, ← Nat.sub_sub] at hset

/-! ## 8 and 16 bits -/

theorem pciread8_eq (dev : pcidevice) (regno : UInt8) (m : Machine) :
    pciread8 dev regno m = (bytesOf m dev regno.toNat, { m with address := 0 }) := by
  unfold pciread8
  rw [pciread32_eq]
  refine Prod.ext (UInt8.toNat_inj.mp ?_) rfl
  have h := toNat_picked m dev regno (Nat.mod_lt regno.toNat (by decide)) toNat_shift8
  rw [base_add] at h
  rw [UInt32.toNat_toUInt8]
  exact (congrArg (· % 2 ^ 8) h).trans (Nat.mod_eq_of_lt (UInt8.toNat_lt _))

/-- Only the lower byte arrives. -/
theorem pciread16_eq (h : regno.toNat % 2 = 0) (dev : pcidevice) (m : Machine) :
    pciread16 dev regno m = ((bytesOf m dev regno.toNat).toUInt16, { m with address := 0 }) := by
  unfold pciread16
  rw [pciread32_eq]
  refine Prod.ext (UInt16.toNat_inj.mp ?_) rfl
  have h := toNat_picked m dev regno (Nat.mod_lt regno.toNat (by decide)) (toNat_shift16 h)
  have hlt := (bytesOf m dev regno.toNat).toNat_lt
  rw [base_add] at h
  rw [UInt32.toNat_toUInt16, UInt8.toNat_toUInt16]
  exact (congrArg (· % 2 ^ 16) h).trans (Nat.mod_eq_of_lt (by omega))

theorem stored_address (bytes : Nat → UInt8) : stored { m with address := 0 } dev bytes = stored m dev bytes := rfl

theorem pciwrite8_eq (dev : pcidevice) (regno value : UInt8) (m : Machine) :
    pciwrite8 dev regno value m = stored m dev (splice (bytesOf m dev) regno.toNat (le 1 value.toNat)) := by
  have hk := Nat.mod_lt regno.toNat (show 0 < 4 by decide)
  have hput := toNat_put m dev regno 0xFF value.toUInt32
    (k := regno.toNat % 4) (n := 1) (by omega) (by decide) toNat_shift8 rfl (by simpa using value.toNat_lt)
  unfold pciwrite8
  rw [pciread32_eq]
  show pciwrite32 dev regno _ { m with address := 0 } = _
  rw [pciwrite32_eq, stored_address]
  congr 1
  show splice (bytesOf m dev) (base regno) (le 4 _) = _
  rw [← base_add regno, ← splice_set (k := regno.toNat % 4) (n := 1) (w := 4) (by omega)]
  exact congrArg (fun v => splice (bytesOf m dev) (base regno) (le 4 v)) hput

theorem pciwrite16_eq (h : regno.toNat % 2 = 0) (dev : pcidevice) (value : UInt16) (m : Machine) :
    pciwrite16 dev regno value m = stored m dev (splice (bytesOf m dev) regno.toNat (le 2 value.toNat)) := by
  have hput := toNat_put m dev regno 0xFFFF value.toUInt32
    (k := regno.toNat % 4) (n := 2) (by omega) (by decide) (toNat_shift16 h) rfl (by simpa using value.toNat_lt)
  unfold pciwrite16
  rw [pciread32_eq]
  show pciwrite32 dev regno _ { m with address := 0 } = _
  rw [pciwrite32_eq, stored_address]
  congr 1
  show splice (bytesOf m dev) (base regno) (le 4 _) = _
  rw [← base_add regno, ← splice_set (k := regno.toNat % 4) (n := 2) (w := 4) (by omega)]
  exact congrArg (fun v => splice (bytesOf m dev) (base regno) (le 4 v)) hput

/-! ## Sequences of writes -/

/-- A call of a function that writes, at a register of its alignment. -/
inductive Write where
  | write8 (dev : pcidevice) (regno value : UInt8)
  | write16 (dev : pcidevice) (regno : UInt8) (value : UInt16) (even : regno.toNat % 2 = 0)
  | write32 (dev : pcidevice) (regno : UInt8) (value : UInt32) (aligned : regno.toNat % 4 = 0)

def Write.call : Write → Machine → Machine
  | .write8 dev regno value => pciwrite8 dev regno value
  | .write16 dev regno value _ => pciwrite16 dev regno value
  | .write32 dev regno value _ => pciwrite32 dev regno value

def run (ws : List Write) (m : Machine) : Machine := ws.foldl (fun m w => w.call m) m

abbrev Space := Nat → Nat → UInt8

/-- The bytes of a device with some of them replaced. -/
def put (sp : Space) (dev : pcidevice) (regno : UInt8) (bs : List UInt8) : Space :=
  Function.update sp (numberOf dev) (splice (sp (numberOf dev)) regno.toNat bs)

/-- What a write means: its bytes are stored, one, two or four. -/
def Write.store (sp : Space) : Write → Space
  | .write8 dev regno value => put sp dev regno (le 1 value.toNat)
  | .write16 dev regno value _ => put sp dev regno (le 2 value.toNat)
  | .write32 dev regno value _ => put sp dev regno (le 4 value.toNat)

def storeAll (ws : List Write) (sp : Space) : Space := ws.foldl Write.store sp

/-- Every write changes the bytes it should and no other, and every read of a device at a register
    of its alignment gives the number in the bytes there. -/
structure OneByteArray (m : Machine) (ws : List Write) (dev : pcidevice) : Prop where
  writes : ∀ pre, pre <+: ws → (run pre m).space = storeAll pre m.space
  read8 : ∀ regno, (pciread8 dev regno (run ws m)).1 = storeAll ws m.space (numberOf dev) regno.toNat
  read16 : ∀ regno, regno.toNat % 2 = 0 → (pciread16 dev regno (run ws m)).1 =
    UInt16.ofNat (ofLE (slice (storeAll ws m.space (numberOf dev)) regno.toNat 2))
  read32 : ∀ regno, regno.toNat % 4 = 0 → (pciread32 dev regno (run ws m)).1 =
    UInt32.ofNat (ofLE (slice (storeAll ws m.space (numberOf dev)) regno.toNat 4))

theorem base_of_aligned (h : regno.toNat % 4 = 0) : base regno = regno.toNat := by
  unfold base
  omega

theorem call_space (w : Write) (m : Machine) : (w.call m).space = w.store m.space := by
  cases w with
  | write8 dev regno value => exact congrArg Machine.space (pciwrite8_eq dev regno value m)
  | write16 dev regno value even => exact congrArg Machine.space (pciwrite16_eq even dev value m)
  | write32 dev regno value aligned =>
    have h := pciwrite32_eq dev regno value m
    rw [base_of_aligned aligned] at h
    exact congrArg Machine.space h

theorem run_space (ws : List Write) (m : Machine) : (run ws m).space = storeAll ws m.space := by
  induction ws generalizing m with
  | nil => rfl
  | cons w ws ih =>
    show (run ws (w.call m)).space = storeAll ws (w.store m.space)
    rw [ih, call_space]

/-- The lower byte is the number in two bytes exactly when the upper one is zero. -/
theorem toUInt16_eq_iff (bytes : Nat → UInt8) (r : Nat) :
    (bytes r).toUInt16 = UInt16.ofNat (ofLE (slice bytes r 2)) ↔ bytes (r + 1) = 0 := by
  have hlow := (bytes r).toNat_lt
  have hhigh := (bytes (r + 1)).toNat_lt
  have htwo : ofLE (slice bytes r 2) = (bytes r).toNat + 256 * (bytes (r + 1)).toNat := by
    rw [show 2 = 1 + 1 from rfl, slice_add, ofLE_append, ofLE_slice_one, ofLE_slice_one, length_slice, pow_one]
  rw [← UInt16.toNat_inj, ← UInt8.toNat_inj, htwo, UInt16.toNat_ofNat', UInt8.toNat_toUInt16,
    Nat.mod_eq_of_lt (by omega)]
  simp only [UInt8.toNat_zero]
  omega

/-- The functions make one array of bytes out of the space of a device exactly when, after the
    writes, every odd register holds zero: `pciread16` masks with `0xFF`. -/
theorem one_byte_array_iff (m : Machine) (ws : List Write) (dev : pcidevice) :
    OneByteArray m ws dev ↔
      ∀ regno : UInt8, regno.toNat % 2 = 0 → storeAll ws m.space (numberOf dev) (regno.toNat + 1) = 0 := by
  have hbytes : bytesOf (run ws m) dev = storeAll ws m.space (numberOf dev) := congrFun (run_space ws m) _
  have hread16 : ∀ regno : UInt8, regno.toNat % 2 = 0 →
      (pciread16 dev regno (run ws m)).1 = (storeAll ws m.space (numberOf dev) regno.toNat).toUInt16 := by
    intro regno h
    rw [pciread16_eq h, hbytes]
  constructor
  · intro h regno heven
    exact (toUInt16_eq_iff _ _).mp ((hread16 regno heven).symm.trans (h.read16 regno heven))
  · intro h
    refine ⟨fun pre _ => run_space pre m, fun regno => ?_, fun regno heven => ?_, fun regno haligned => ?_⟩
    · rw [pciread8_eq, hbytes]
    · rw [hread16 regno heven]
      exact (toUInt16_eq_iff _ _).mpr (h regno heven)
    · rw [pciread32_eq, hbytes, base_of_aligned haligned]

/-- After `pciwrite16(dev, 0, 0x1234)`, `pciread16` gives 0x34. -/
theorem pciread16_loses_the_upper_byte : ¬ ∀ m ws dev, OneByteArray m ws dev := by
  intro h
  have h16 := (h ⟨0, fun _ _ => 0⟩ [.write16 0 0 0x1234 rfl] 0).read16 0 rfl
  rw [pciread16_eq rfl] at h16
  have hbytes : bytesOf (run [.write16 0 0 0x1234 rfl] ⟨0, fun _ _ => 0⟩) 0 = _ := congrFun (run_space _ _) _
  rw [hbytes] at h16
  exact absurd h16 (by decide)

end Rodvin.Kernel.Pci
