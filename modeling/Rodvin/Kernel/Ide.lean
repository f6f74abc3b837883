/-
  Rodvin.Kernel.Ide — disks on an IDE channel (`kernel/src/x8664/ide.cpp`, and `i386/ide.cpp`,
  which differs in an unused buffer).

  A channel has eight registers and two devices. A register that takes an address or a count
  keeps the byte written before: the commands with 48-bit addresses take both. A command goes
  to the device that bit 4 of the drive register selects. What a device has to send it sends
  block by block, and is busy before each for as many reads of its status as it likes
  (`latency`); a busy device shows no other bit. A block behind the end of a disk ends the
  command with an error. A channel is known by the number of its first port; `ctrl` is never
  used. `WritePio` is never called. `new DiskBlock` does not return where the heap has no
  room, so each read comes with the sizes that there is room for.
-/

import Rodvin.Lib.Fuel
import Rodvin.Kernel.Fat

namespace Rodvin.Kernel.Ide

open Rodvin.Lib
open Rodvin.Kernel.Fat (Disk)

/-! ## Devices -/

/-- A register and what was in it before. -/
structure Latch where
  now : Nat
  before : Nat
  deriving DecidableEq, Repr

def Latch.put (l : Latch) (v : Nat) : Latch := ⟨v, l.now⟩

structure Registers where
  count : Latch
  lba1 : Latch
  lba2 : Latch
  lba3 : Latch
  drive : Nat
  deriving DecidableEq, Repr

/-- The address and the count of a command. Zero stands for one more than fits. -/
def Registers.lba28 (r : Registers) : Nat :=
  r.lba1.now + 2 ^ 8 * r.lba2.now + 2 ^ 16 * r.lba3.now + 2 ^ 24 * (r.drive % 16)

def Registers.count8 (r : Registers) : Nat := if r.count.now = 0 then 2 ^ 8 else r.count.now

def Registers.lba48 (r : Registers) : Nat :=
  r.lba1.now + 2 ^ 8 * r.lba2.now + 2 ^ 16 * r.lba3.now +
    2 ^ 24 * (r.lba1.before + 2 ^ 8 * r.lba2.before + 2 ^ 16 * r.lba3.before)

def Registers.count16 (r : Registers) : Nat :=
  let count := r.count.now + 2 ^ 8 * r.count.before
  if count = 0 then 2 ^ 16 else count

/-- A disk of `capacity` sectors, and the 512 bytes it identifies itself with. -/
structure Drive where
  disk : Disk
  capacity : Nat
  identify : List UInt8
  size : identify.length = 512

def Drive.lbasupport (v : Drive) : Bool := (v.identify.getD 99 0).toNat &&& 0x2 = 0x2

def Drive.is48bit (v : Drive) : Bool := (v.identify.getD 167 0).toNat &&& 0x4 = 0x4

/-- What is at the end of the cable. Where nothing is, the status is 0xFF if the lines float
    and 0 if the other device answers. -/
inductive Kind where
  | empty (floats : Bool)
  | packet
  | drive (v : Drive)

abbrev Block := List UInt8

/-- `none` is a block that the disk does not have. -/
inductive Phase where
  | idle
  | aborted
  | busy (wait : Nat) (block : Option Block) (blocks : List (Option Block))
  | offering (data : Block) (blocks : List (Option Block))

structure Device where
  kind : Kind
  phase : Phase
  latency : Nat → Nat
  served : Nat

def Drive.sector (v : Drive) (n : Nat) : Option Block :=
  if n < v.capacity then some (Fat.readBlock v.disk n 1) else none

def Drive.sectors (v : Drive) (start count : Nat) : List (Option Block) :=
  (List.range count).map fun n => v.sector (start + n)

/-- The next block is sought. -/
def Device.proceed (d : Device) : List (Option Block) → Device
  | [] => { d with phase := .idle }
  | b :: bs => { d with phase := .busy (d.latency d.served) b bs, served := d.served + 1 }

/-- A packet device takes none of these commands. -/
def Device.command (d : Device) (r : Registers) (c : Nat) : Device :=
  match d.kind with
  | .empty _ => d
  | .packet => { d with phase := .aborted }
  | .drive v =>
    if c = 0xEC then d.proceed [some v.identify]
    else if c = 0x20 ∧ v.lbasupport then d.proceed (v.sectors r.lba28 r.count8)
    else if c = 0x24 ∧ v.is48bit then d.proceed (v.sectors r.lba48 r.count16)
    else { d with phase := .aborted }

/-- The status of a device that is there. -/
def Device.answer (d : Device) : Nat × Device :=
  match d.phase with
  | .idle => (0x50, d)
  | .aborted => (0x51, d)
  | .busy (wait + 1) b bs => (0x80, { d with phase := .busy wait b bs })
  | .busy 0 none _ => (0x51, { d with phase := .aborted })
  | .busy 0 (some data) bs => (0x58, { d with phase := .offering data bs })
  | .offering _ _ => (0x58, d)

def Device.status (d : Device) : Nat × Device :=
  match d.kind with
  | .empty floats => (if floats then 0xFF else 0, d)
  | _ => d.answer

/-- One word of what a device offers. -/
def Device.word (d : Device) : Nat × Device :=
  match d.phase with
  | .offering (a :: b :: data) bs =>
    (a.toNat + 256 * b.toNat, if data = [] then d.proceed bs else { d with phase := .offering data bs })
  | _ => (0xFFFF, d)

/-! ## Ports -/

inductive Register where
  | REG_DATA
  | REG_ERROR
  | REG_COUNT
  | REG_LBA1
  | REG_LBA2
  | REG_LBA3
  | REG_DRIVE
  | REG_CMD
  deriving DecidableEq, Repr

/-- The devices are the master and, at `true`, the slave. -/
structure Channel where
  regs : Registers
  devices : Bool → Device

def Channel.selected (c : Channel) : Bool := c.regs.drive.testBit 4

def Channel.put (c : Channel) (d : Device) : Channel := { c with devices := Function.update c.devices c.selected d }

def Channel.write (c : Channel) (v : Nat) : Register → Channel
  | .REG_DATA | .REG_ERROR => c
  | .REG_COUNT => { c with regs := { c.regs with count := c.regs.count.put v } }
  | .REG_LBA1 => { c with regs := { c.regs with lba1 := c.regs.lba1.put v } }
  | .REG_LBA2 => { c with regs := { c.regs with lba2 := c.regs.lba2.put v } }
  | .REG_LBA3 => { c with regs := { c.regs with lba3 := c.regs.lba3.put v } }
  | .REG_DRIVE => { c with regs := { c.regs with drive := v } }
  | .REG_CMD => c.put ((c.devices c.selected).command c.regs v)

/-- The channels, by their first port. -/
abbrev Bus := Nat → Channel

abbrev Io := StateT Bus Checked

def outb (cmd : Nat) (reg : Register) (val : Nat) : Io Unit := fun m =>
  .ok ((), Function.update m cmd ((m cmd).write (val % 256) reg))

/-- `inb` of the status register, the only one the driver reads so. -/
def GetInterruptStatus (cmd : Nat) : Io Nat := fun m =>
  let c := m cmd
  .ok ((c.devices c.selected).status.1, Function.update m cmd (c.put (c.devices c.selected).status.2))

/-- `inw` of the data register. -/
def inw (cmd : Nat) : Io Nat := fun m =>
  let c := m cmd
  .ok ((c.devices c.selected).word.1, Function.update m cmd (c.put (c.devices c.selected).word.2))

/-! ## `IdeStorage` -/

structure IdeStorage where
  cmd : Nat
  slave : Bool
  is48bit : Bool
  deriving DecidableEq, Repr

def SendCommand (cmd : Nat) (slave : Bool) (addr count command : Nat) (isLongCommand : Bool) : Io Unit := do
  if isLongCommand then
    outb cmd .REG_ERROR 0x0
    outb cmd .REG_ERROR 0x0
    outb cmd .REG_DRIVE (0xE0 ||| slave.toNat <<< 4)
    outb cmd .REG_COUNT (count >>> 8 &&& 0xFF)
    outb cmd .REG_COUNT (count >>> 0 &&& 0xFF)
    outb cmd .REG_LBA3 (addr >>> 40 &&& 0xFF)
    outb cmd .REG_LBA2 (addr >>> 32 &&& 0xFF)
    outb cmd .REG_LBA1 (addr >>> 24 &&& 0xFF)
    outb cmd .REG_LBA3 (addr >>> 16 &&& 0xFF)
    outb cmd .REG_LBA2 (addr >>> 8 &&& 0xFF)
    outb cmd .REG_LBA1 (addr >>> 0 &&& 0xFF)
    outb cmd .REG_CMD command
  else
    outb cmd .REG_ERROR 0x0
    outb cmd .REG_DRIVE (0xE0 ||| slave.toNat <<< 4 ||| addr >>> 24)
    outb cmd .REG_COUNT (count &&& 0xFF)
    outb cmd .REG_LBA3 (addr >>> 16 &&& 0xFF)
    outb cmd .REG_LBA2 (addr >>> 8 &&& 0xFF)
    outb cmd .REG_LBA1 (addr >>> 0 &&& 0xFF)
    outb cmd .REG_CMD command

/-- The loop ends with a second look at the status. -/
def WaitForInterrupt (cmd : Nat) : Nat → Io Nat
  | 0 => fun _ => .error .noReturn
  | fuel + 1 => do
    let status ← GetInterruptStatus cmd
    if status &&& 0x08 = 0 then WaitForInterrupt cmd fuel else GetInterruptStatus cmd

/-- `n` turns of the loop of `ReadPio`, which makes 256. -/
def readWords (cmd : Nat) : Nat → Io (List UInt8)
  | 0 => pure []
  | n + 1 => do
    let value ← inw cmd
    let buffer ← readWords cmd n
    return UInt8.ofNat (value &&& 0xFF) :: UInt8.ofNat (value >>> 8 &&& 0xFF) :: buffer

/-- Into a buffer of `room` bytes. -/
def ReadPio (cmd room : Nat) : Io (List UInt8) := if room < 512 then fun _ => fault else readWords cmd 256

/-- `new DiskBlock(size)`: the block and its data. -/
def newDiskBlock (gives : Nat → Bool) (size : Nat) : Io Unit := fun m =>
  if gives size then .ok ((), m) else .error .noReturn

/-- The loop of `readBlock`; `room` bytes of the data are left. -/
def readSectors (fuel cmd : Nat) : Nat → Nat → Io (List UInt8)
  | _, 0 => pure []
  | room, count + 1 => do
    let _ ← WaitForInterrupt cmd fuel
    let data ← ReadPio cmd room
    let rest ← readSectors fuel cmd (room - 512) count
    return data ++ rest

def IdeStorage.readBlock (st : IdeStorage) (gives : Nat → Bool) (sector count fuel : Nat) : Io (List UInt8) := do
  newDiskBlock gives (count * 512 % 2 ^ 64)
  if st.is48bit then SendCommand st.cmd st.slave sector (count % 2 ^ 16) 0x24 true
  else SendCommand st.cmd st.slave sector (count % 2 ^ 16) 0x20 false
  readSectors fuel st.cmd (count * 512 % 2 ^ 64) count

/-- The loop of the constructor; `false` where it sets `failed`. -/
def identified (cmd : Nat) : Nat → Io Bool
  | 0 => fun _ => .error .noReturn
  | fuel + 1 => do
    let status ← GetInterruptStatus cmd
    if status = 0 ∨ status = 0xFF then return false
    else if status &&& 0x8 = 0x8 then return true
    else identified cmd fuel

/-- The constructor: `none` if it has failed, else the storage and whether it is registered. -/
def IdeStorage.new (cmd : Nat) (slave : Bool) (fuel : Nat) : Io (Option (IdeStorage × Bool)) := do
  SendCommand cmd slave 0 0 0xEC false
  if ← identified cmd fuel then
    let buffer ← ReadPio cmd 512
    let lbasupport : Bool := (buffer.getD 99 0).toNat &&& 0x2 = 0x2
    let is48bit : Bool := (buffer.getD 167 0).toNat &&& 0x4 = 0x4
    return some (⟨cmd, slave, is48bit⟩, lbasupport)
  else return none

/-! ## Users of storages -/

/-- A program that reads storages, and what the heap has room for at each read; both may depend on
    what it has read. -/
inductive Client (α : Type) where
  | done (a : α)
  | read (st : IdeStorage) (gives : Nat → Bool) (sector count : Nat) (k : List UInt8 → Client α)

def Client.exec {α : Type} (fuel : Nat) : Client α → Io α
  | .done a => pure a
  | .read st gives sector count k => do
    let bs ← st.readBlock gives sector count fuel
    (k bs).exec fuel

/-- `new IdeStorage`, with what the constructor does last, and `delete` if it has failed. -/
def attach (register_storage : IdeStorage → Client Unit) (fuel cmd : Nat) (slave : Bool) : Io (List IdeStorage) := do
  match ← IdeStorage.new cmd slave fuel with
  | some (device, true) => do
    (register_storage device).exec fuel
    return [device]
  | _ => return []

/-- The first port of a channel: what a base address register says, or where such channels are. -/
def portOf (bar legacy : Nat) : Nat := if bar &&& 0xFFFF8 ≤ 1 then legacy else bar &&& 0xFFFF8

/-- The devices of the two channels, in the order in which they are tried. -/
def places (bar0 bar2 : Nat) : List (Nat × Bool) :=
  [(portOf bar0 0x1F0, false), (portOf bar0 0x1F0, true), (portOf bar2 0x170, false), (portOf bar2 0x170, true)]

def attachAll (register_storage : IdeStorage → Client Unit) (fuel : Nat) : List (Nat × Bool) → Io (List IdeStorage)
  | [] => pure []
  | (cmd, slave) :: ps => do
    let found ← attach register_storage fuel cmd slave
    let rest ← attachAll register_storage fuel ps
    return found ++ rest

/-- The storages that are registered. -/
def createIdeStorage (register_storage : IdeStorage → Client Unit) (bar0 bar2 fuel : Nat) : Io (List IdeStorage) :=
  attachAll register_storage fuel (places bar0 bar2)

end Rodvin.Kernel.Ide
