/-
  Rodvin.Kernel.IdeProofs — the IDE driver's properties (see `Rodvin.Kernel.Ide`).

  - `readBlock_ends_or_hangs`: which reads come back, and with what. A short command takes 28
    bits of the sector and leaves bit 28 to select the device; more sectors than one command
    can ask for are waited for in vain. The heap never has room for 65536 (`not_room_reserve`).
  - `client_sees_disks`: to a program that reads storages the driver is the disks' own bytes.
  - `createIdeStorage_registers`: which disks are registered; a packet device stops it all.
  No bound is set on how long a device is busy.
-/

import Mathlib.Data.Nat.Bitwise
import Rodvin.Kernel.HeapProofs
import Rodvin.Kernel.Ide

namespace Rodvin.Kernel.Ide

open Rodvin.Lib

variable {m t : Bus} {cmd : Nat} {slave : Bool} {addr count command : Nat} {c : Channel} {r : Registers}
  {d : Device} {v : Drive}

/-! ## Commands -/

/-- The registers behind a command. -/
def Registers.short (r : Registers) (slave : Bool) (addr count : Nat) : Registers where
  count := r.count.put (count % 2 ^ 8)
  lba1 := r.lba1.put (addr % 2 ^ 8)
  lba2 := r.lba2.put (addr >>> 8 % 2 ^ 8)
  lba3 := r.lba3.put (addr >>> 16 % 2 ^ 8)
  drive := (0xE0 ||| slave.toNat <<< 4 ||| addr >>> 24) % 2 ^ 8

def Registers.long (slave : Bool) (addr count : Nat) : Registers where
  count := ⟨count % 2 ^ 8, count >>> 8 % 2 ^ 8⟩
  lba1 := ⟨addr % 2 ^ 8, addr >>> 24 % 2 ^ 8⟩
  lba2 := ⟨addr >>> 8 % 2 ^ 8, addr >>> 32 % 2 ^ 8⟩
  lba3 := ⟨addr >>> 16 % 2 ^ 8, addr >>> 40 % 2 ^ 8⟩
  drive := 0xE0 ||| slave.toNat <<< 4

/-- The channel behind a command. -/
def Channel.sent (c : Channel) (r : Registers) (command : Nat) : Channel :=
  Channel.put { c with regs := r } ((c.devices (r.drive.testBit 4)).command r command)

theorem low_byte (n : Nat) : (n &&& 0xFF) % 256 = n % 2 ^ 8 := by
  rw [show (0xFF : Nat) = 2 ^ 8 - 1 from rfl, Nat.and_two_pow_sub_one_eq_mod]
  exact Nat.mod_mod ..

theorem outb_ok (cmd : Nat) (reg : Register) (val : Nat) (m : Bus) :
    outb cmd reg val m = .ok ((), Function.update m cmd ((m cmd).write (val % 256) reg)) := rfl

theorem SendCommand_short (hc : command < 256) : SendCommand cmd slave addr count command false m =
    .ok ((), Function.update m cmd ((m cmd).sent ((m cmd).regs.short slave addr count) command)) := by
  unfold SendCommand
  rw [if_neg Bool.false_ne_true]
  simp only [state_bind_ok (outb_ok ..), outb_ok, Function.update_self, Function.update_idem, Channel.write,
    low_byte, Nat.mod_eq_of_lt hc, Nat.shiftRight_zero]
  rfl

theorem SendCommand_long (hc : command < 256) : SendCommand cmd slave addr count command true m =
    .ok ((), Function.update m cmd ((m cmd).sent (.long slave addr count) command)) := by
  have hdrive : (0xE0 ||| slave.toNat <<< 4) % 256 = 0xE0 ||| slave.toNat <<< 4 := by
    cases slave with
    | false => rfl
    | true => rfl
  unfold SendCommand
  rw [if_pos rfl]
  simp only [state_bind_ok (outb_ok ..), outb_ok, Function.update_self, Function.update_idem, Channel.write,
    low_byte, Nat.mod_eq_of_lt hc, hdrive, Nat.shiftRight_zero]
  rfl

/-- An address of 29 bits reaches the other device. -/
theorem short_selects (r : Registers) (slave : Bool) (addr count : Nat) :
    (r.short slave addr count).drive.testBit 4 = (slave || addr.testBit 28) := by
  show ((0xE0 ||| slave.toNat <<< 4 ||| addr >>> 24) % 2 ^ 8).testBit 4 = _
  rw [Nat.testBit_mod_two_pow, Nat.testBit_or, Nat.testBit_or, Nat.testBit_shiftRight]
  cases slave with
  | false => rfl
  | true => rfl

theorem short_lba28 (r : Registers) (slave : Bool) (addr count : Nat) :
    (r.short slave addr count).lba28 = addr % 2 ^ 28 := by
  have hlow : (0xE0 ||| slave.toNat <<< 4 ||| addr >>> 24) % 2 ^ 8 % 16 = addr / 2 ^ 24 % 2 ^ 4 := by
    rw [show (16 : Nat) = 2 ^ 4 from rfl, Nat.mod_mod_of_dvd _ (by decide), Nat.or_mod_two_pow,
      Nat.shiftRight_eq_div_pow]
    cases slave with
    | false => exact Nat.zero_or _
    | true => exact Nat.zero_or _
  show addr % 2 ^ 8 + 2 ^ 8 * (addr >>> 8 % 2 ^ 8) + 2 ^ 16 * (addr >>> 16 % 2 ^ 8) +
    2 ^ 24 * ((0xE0 ||| slave.toNat <<< 4 ||| addr >>> 24) % 2 ^ 8 % 16) = _
  rw [hlow]
  omega

theorem long_selects (slave : Bool) (addr count : Nat) : (Registers.long slave addr count).drive.testBit 4 = slave := by
  show (0xE0 ||| slave.toNat <<< 4).testBit 4 = slave
  cases slave with
  | false => decide
  | true => decide

theorem long_lba48 (slave : Bool) (addr count : Nat) : (Registers.long slave addr count).lba48 = addr % 2 ^ 48 := by
  show addr % 2 ^ 8 + 2 ^ 8 * (addr >>> 8 % 2 ^ 8) + 2 ^ 16 * (addr >>> 16 % 2 ^ 8) +
    2 ^ 24 * (addr >>> 24 % 2 ^ 8 + 2 ^ 8 * (addr >>> 32 % 2 ^ 8) + 2 ^ 16 * (addr >>> 40 % 2 ^ 8)) = _
  omega

/-! ## The selected device -/

def Bus.device (m : Bus) (cmd : Nat) : Device := (m cmd).devices (m cmd).selected

def Bus.put (m : Bus) (cmd : Nat) (d : Device) : Bus := Function.update m cmd ((m cmd).put d)

@[simp] theorem device_put (m : Bus) (cmd : Nat) (d : Device) : (m.put cmd d).device cmd = d := by
  unfold Bus.device Bus.put
  rw [Function.update_self]
  exact Function.update_self ..

@[simp] theorem put_put (m : Bus) (cmd : Nat) (d e : Device) : (m.put cmd d).put cmd e = m.put cmd e := by
  unfold Bus.put
  rw [Function.update_self, Function.update_idem]
  refine congrArg (Function.update m cmd) ?_
  exact congrArg (Channel.mk _) (Function.update_idem ..)

theorem put_self (m : Bus) (cmd : Nat) : m.put cmd (m.device cmd) = m := by
  unfold Bus.put Bus.device Channel.put
  rw [Function.update_eq_self]
  exact Function.update_eq_self ..

theorem GetInterruptStatus_ok (cmd : Nat) (m : Bus) :
    GetInterruptStatus cmd m = .ok ((m.device cmd).status.1, m.put cmd (m.device cmd).status.2) := rfl

theorem inw_ok (cmd : Nat) (m : Bus) : inw cmd m = .ok ((m.device cmd).word.1, m.put cmd (m.device cmd).word.2) := rfl

/-! ## One block -/

variable {data : Block} {b : Option Block} {bs : List (Option Block)} {datas : List Block} {w n : Nat}

/-- Something answers. -/
def Device.There (d : Device) : Prop := ∀ floats, d.kind ≠ .empty floats

theorem Device.There.status (h : d.There) : d.status = d.answer := by
  unfold Device.status
  cases hk : d.kind with
  | empty floats => exact absurd hk (h floats)
  | packet => rfl
  | drive v => rfl

theorem answer_busy (hp : d.phase = .busy (w + 1) b bs) : d.answer = (0x80, { d with phase := .busy w b bs }) := by
  unfold Device.answer
  rw [hp]

theorem answer_found (hp : d.phase = .busy 0 (some data) bs) :
    d.answer = (0x58, { d with phase := .offering data bs }) := by
  unfold Device.answer
  rw [hp]

theorem answer_missing (hp : d.phase = .busy 0 none bs) : d.answer = (0x51, { d with phase := .aborted }) := by
  unfold Device.answer
  rw [hp]

theorem answer_offering (hp : d.phase = .offering data bs) : d.answer = (0x58, d) := by
  unfold Device.answer
  rw [hp]

theorem answer_idle (hp : d.phase = .idle) : d.answer = (0x50, d) := by
  unfold Device.answer
  rw [hp]

theorem answer_aborted (hp : d.phase = .aborted) : d.answer = (0x51, d) := by
  unfold Device.answer
  rw [hp]

/-- It will not offer anything. -/
inductive Device.Silent (d : Device) : Prop
  | idle : d.phase = .idle → Silent d
  | aborted : d.phase = .aborted → Silent d
  | missing {w : Nat} {bs : List (Option Block)} : d.phase = .busy w none bs → Silent d

theorem Device.Silent.answer (h : d.Silent) :
    ∃ status ∈ [0x50, 0x51, 0x80], ∃ e : Device, d.answer = (status, e) ∧ e.Silent ∧ e.kind = d.kind := by
  cases h with
  | idle hp => exact ⟨_, by decide, _, answer_idle hp, .idle hp, rfl⟩
  | aborted hp => exact ⟨_, by decide, _, answer_aborted hp, .aborted hp, rfl⟩
  | @missing w bs hp =>
    cases w with
    | zero => exact ⟨_, by decide, _, answer_missing hp, .aborted rfl, rfl⟩
    | succ w => exact ⟨_, by decide, _, answer_busy hp, .missing rfl, rfl⟩

/-! ## Waiting -/

theorem status_of_answer {x : Nat} {e : Device} (ht : (m.device cmd).There) (h : (m.device cmd).answer = (x, e)) :
    GetInterruptStatus cmd m = .ok (x, m.put cmd e) := by
  rw [GetInterruptStatus_ok, ht.status, h]

/-- A loop that looks at the status until it has seen what it waits for. -/
structure Polls {α : Type} (cmd : Nat) (loop : Nat → Io α) (goes : Nat → Prop) (k : Nat → Io α) : Prop where
  zero : ∀ m, loop 0 m = .error .noReturn
  again : ∀ {x : Nat} {m t : Bus}, goes x → GetInterruptStatus cmd m = .ok (x, t) →
    ∀ fuel, loop (fuel + 1) m = loop fuel t
  stops : ∀ {x : Nat} {m t : Bus}, ¬ goes x → GetInterruptStatus cmd m = .ok (x, t) → ∀ fuel, loop (fuel + 1) m = k x t

variable {α : Type} {loop k : Nat → Io α} {goes : Nat → Prop} {a : α}

theorem Polls.found (h : Polls cmd loop goes k) (hbusy : goes 0x80) (hready : ¬ goes 0x58) (ht : (m.device cmd).There)
    (hp : (m.device cmd).phase = .busy w (some data) bs)
    (hk : k 0x58 (m.put cmd { m.device cmd with phase := .offering data bs }) = .ok (a, t)) : Ends loop m a t := by
  induction w generalizing m with
  | zero => exact .stop (h.zero m) fun fuel => (h.stops hready (status_of_answer ht (answer_found hp)) fuel).trans hk
  | succ w ih =>
    have hput : (m.put cmd { m.device cmd with phase := .busy w (some data) bs }).device cmd =
      { m.device cmd with phase := .busy w (some data) bs } := device_put ..
    have hrec := ih (m := m.put cmd { m.device cmd with phase := .busy w (some data) bs })
      (by rw [hput]; exact ht) (by rw [hput])
    rw [hput, put_put] at hrec
    exact .turn (h.zero m) (h.again hbusy (status_of_answer ht (answer_busy hp))) (hrec hk)

theorem Polls.silent (h : Polls cmd loop goes k) (hgoes : ∀ x ∈ [0x50, 0x51, 0x80], goes x) (ht : (m.device cmd).There)
    (hs : (m.device cmd).Silent) : Hangs loop m := by
  refine Hangs.of_invariant (I := fun m => (m.device cmd).There ∧ (m.device cmd).Silent)
    (fun m _ => h.zero m) ?_ ⟨ht, hs⟩
  intro fuel m ⟨ht, hs⟩
  obtain ⟨x, hx, e, he, hse, hk⟩ := hs.answer
  refine ⟨m.put cmd e, ?_, h.again (hgoes x hx) (status_of_answer ht he) fuel⟩
  rw [device_put]
  exact ⟨fun floats h => ht floats (hk.symm.trans h), hse⟩

theorem WaitForInterrupt_polls (cmd : Nat) :
    Polls cmd (WaitForInterrupt cmd) (fun x => x &&& 0x08 = 0) fun _ => GetInterruptStatus cmd where
  zero _ := rfl
  again hx hs _ := (state_bind_ok hs).trans (congrFun (if_pos hx) _)
  stops hx hs _ := (state_bind_ok hs).trans (congrFun (if_neg hx) _)

theorem WaitForInterrupt_found (ht : (m.device cmd).There) (hp : (m.device cmd).phase = .busy w (some data) bs) :
    Ends (WaitForInterrupt cmd) m 0x58 (m.put cmd { m.device cmd with phase := .offering data bs }) := by
  refine (WaitForInterrupt_polls cmd).found (by decide) (by decide) ht hp ?_
  -- the second look
  have hput : (m.put cmd { m.device cmd with phase := .offering data bs }).device cmd =
    { m.device cmd with phase := .offering data bs } := device_put ..
  rw [status_of_answer (by rw [hput]; exact ht) (answer_offering (by rw [hput])), hput, put_put]

theorem WaitForInterrupt_silent (ht : (m.device cmd).There) (hs : (m.device cmd).Silent) :
    Hangs (WaitForInterrupt cmd) m :=
  (WaitForInterrupt_polls cmd).silent (by decide) ht hs

/-! ## Reading -/

theorem word_bytes (x y : UInt8) : UInt8.ofNat (x.toNat + 256 * y.toNat &&& 0xFF) = x ∧
    UInt8.ofNat ((x.toNat + 256 * y.toNat) >>> 8 &&& 0xFF) = y := by
  have hx := x.toNat_lt
  have hy := y.toNat_lt
  rw [show (0xFF : Nat) = 2 ^ 8 - 1 from rfl, Nat.and_two_pow_sub_one_eq_mod, Nat.and_two_pow_sub_one_eq_mod,
    Nat.shiftRight_eq_div_pow]
  constructor
  · rw [show (x.toNat + 256 * y.toNat) % 2 ^ 8 = x.toNat by omega]
    exact UInt8.ofNat_toNat
  · rw [show (x.toNat + 256 * y.toNat) / 2 ^ 8 % 2 ^ 8 = y.toNat by omega]
    exact UInt8.ofNat_toNat

theorem proceed_phase (d : Device) (p : Phase) : Device.proceed { d with phase := p } = d.proceed := by
  funext bs
  cases bs with
  | nil => rfl
  | cons b bs => rfl

theorem readWords_offering (hlen : data.length = 2 * (n + 1)) (hp : (m.device cmd).phase = .offering data bs) :
    readWords cmd (n + 1) m = .ok (data, m.put cmd ((m.device cmd).proceed bs)) := by
  induction n generalizing m data with
  | zero =>
    obtain ⟨x, y, rfl⟩ := List.length_eq_two.mp hlen
    have hw : (m.device cmd).word = (x.toNat + 256 * y.toNat, (m.device cmd).proceed bs) := by
      unfold Device.word
      rw [hp]
      rfl
    unfold readWords
    rw [state_bind_ok (inw_ok cmd m), hw, (word_bytes x y).1, (word_bytes x y).2]
    rfl
  | succ n ih =>
    obtain ⟨x, data, rfl⟩ := List.exists_cons_of_length_pos (l := data) (by omega)
    obtain ⟨y, data, rfl⟩ := List.exists_cons_of_length_pos (l := data) (by simp at hlen; omega)
    have hne : data ≠ [] := by
      rintro rfl
      simp at hlen
    have hw : (m.device cmd).word = (x.toNat + 256 * y.toNat, { m.device cmd with phase := .offering data bs }) := by
      unfold Device.word
      rw [hp]
      simp only [if_neg hne]
    have hput : (m.put cmd { m.device cmd with phase := .offering data bs }).device cmd =
      { m.device cmd with phase := .offering data bs } := device_put ..
    have hlen' : data.length = 2 * (n + 1) := by
      rw [List.length_cons, List.length_cons] at hlen
      omega
    have hrest := ih (m := m.put cmd { m.device cmd with phase := .offering data bs }) hlen' (by rw [hput])
    rw [hput, put_put, proceed_phase] at hrest
    unfold readWords
    rw [state_bind_ok (inw_ok cmd m), hw, state_bind_ok hrest, (word_bytes x y).1, (word_bytes x y).2]
    rfl

/-- What a device has to say, and how much it has said. -/
def Device.sending (d : Device) (n : Nat) (bs : List (Option Block)) : Device :=
  { d with served := d.served + n }.proceed bs

theorem sending_zero (d : Device) : d.sending 0 = d.proceed := rfl

theorem sending_cons (d : Device) (b : Option Block) (n : Nat) (bs : List (Option Block)) (p : Phase) :
    Device.proceed { d.sending n (b :: bs) with phase := p } bs = d.sending (n + 1) bs := by
  rw [proceed_phase]
  cases bs with
  | nil => rfl
  | cons b bs => rfl

theorem sending_there (ht : d.There) (n : Nat) (bs : List (Option Block)) : (d.sending n bs).There := by
  cases bs with
  | nil => exact ht
  | cons b bs => exact ht

theorem ReadPio_offering {room : Nat} (hroom : 512 ≤ room) (hlen : data.length = 512)
    (hp : (m.device cmd).phase = .offering data bs) : ReadPio cmd room m = .ok (data, m.put cmd ((m.device cmd).proceed bs)) := by
  have h256 : ∃ n, 256 = n + 1 := ⟨255, rfl⟩
  unfold ReadPio
  rw [if_neg (Nat.not_lt.mpr hroom)]
  obtain ⟨n, hn⟩ := h256
  rw [hn]
  exact readWords_offering (by omega) hp

/-- One block comes over. -/
theorem block_ends {room : Nat} (hroom : 512 ≤ room) (ht : d.There) (hd : m.device cmd = d.sending n (some data :: bs))
    (hlen : data.length = 512) : Ends (fun fuel => WaitForInterrupt cmd fuel >>= fun _ => ReadPio cmd room) m data
      (m.put cmd (d.sending (n + 1) bs)) := by
  have hthere : (m.device cmd).There := by
    rw [hd]
    exact sending_there ht n _
  have hphase : ∃ w, (m.device cmd).phase = .busy w (some data) bs := by
    rw [hd]
    exact ⟨_, rfl⟩
  obtain ⟨w, hphase⟩ := hphase
  have hwait := WaitForInterrupt_found hthere hphase
  have hread : ReadPio cmd room (m.put cmd { m.device cmd with phase := .offering data bs }) =
      .ok (data, m.put cmd (d.sending (n + 1) bs)) := by
    rw [ReadPio_offering hroom hlen (by rw [device_put]), device_put, put_put, hd, sending_cons]
  exact hwait.bind (.of_eq hread)

theorem readSectors_succ (fuel cmd room count : Nat) : readSectors fuel cmd room (count + 1) =
    (WaitForInterrupt cmd fuel >>= fun _ => ReadPio cmd room) >>= fun data =>
      readSectors fuel cmd (room - 512) count >>= fun rest => pure (data ++ rest) := by
  rw [bind_assoc]
  rfl

/-- The blocks that are there come over one after the other. -/
theorem readSectors_ends {room : Nat} (ht : d.There) (hlen : ∀ data ∈ datas, data.length = 512)
    (hd : m.device cmd = d.sending n (datas.map some ++ bs)) (hroom : datas.length * 512 ≤ room) :
    Ends (fun fuel => readSectors fuel cmd room datas.length) m datas.flatten
      (m.put cmd (d.sending (n + datas.length) bs)) := by
  induction datas generalizing m n room with
  | nil =>
    have hself : m.put cmd (d.sending n bs) = m := by
      have hd : m.device cmd = d.sending n bs := hd
      rw [← hd]
      exact put_self m cmd
    refine Ends.of_eq ?_
    rw [List.length_nil, Nat.add_zero, hself]
    rfl
  | cons data datas ih =>
    rw [List.length_cons, Nat.succ_mul] at hroom
    have hblock := block_ends (show 512 ≤ room by omega) ht hd (hlen data (List.mem_cons_self ..))
    have hleft : datas.length * 512 ≤ room - 512 := Nat.le_sub_of_add_le hroom
    have hrest := ih (m := m.put cmd (d.sending (n + 1) (datas.map some ++ bs))) (n := n + 1)
      (fun x hx => hlen x (List.mem_cons_of_mem _ hx)) (device_put ..) hleft
    rw [put_put, Nat.add_assoc, Nat.add_comm 1] at hrest
    simp only [List.length_cons, readSectors_succ]
    exact hblock.bind (hrest.bind (.of_eq rfl))

/-- Behind them, the loop waits for ever. -/
theorem readSectors_hangs {room : Nat} (ht : d.There) (hlen : ∀ data ∈ datas, data.length = 512)
    (hd : m.device cmd = d.sending n (datas.map some ++ bs)) (hbs : ∀ data rest, bs ≠ some data :: rest)
    (hcount : datas.length < count) (hroom : count * 512 ≤ room) :
    Hangs (fun fuel => readSectors fuel cmd room count) m := by
  induction datas generalizing m n count room with
  | nil =>
    obtain ⟨count, rfl⟩ := Nat.exists_eq_succ_of_ne_zero (Nat.ne_of_gt hcount)
    have hd : m.device cmd = d.sending n bs := hd
    have hthere : (m.device cmd).There := by
      rw [hd]
      exact sending_there ht n _
    have hsilent : (m.device cmd).Silent := by
      rw [hd]
      cases bs with
      | nil => exact .idle rfl
      | cons b bs =>
        cases b with
        | none => exact .missing rfl
        | some data => exact absurd rfl (hbs data bs)
    simp only [Nat.succ_eq_add_one, readSectors_succ]
    exact (WaitForInterrupt_silent hthere hsilent).bind.bind
  | cons data datas ih =>
    obtain ⟨count, rfl⟩ := Nat.exists_eq_succ_of_ne_zero (Nat.ne_of_gt (Nat.zero_lt_of_lt hcount))
    have hblock := block_ends (show 512 ≤ room by omega) ht hd (hlen data (List.mem_cons_self ..))
    have hleft : count * 512 ≤ room - 512 := Nat.le_sub_of_add_le (Nat.succ_mul count 512 ▸ hroom)
    have hrest := ih (m := m.put cmd (d.sending (n + 1) (datas.map some ++ bs))) (n := n + 1)
      (fun x hx => hlen x (List.mem_cons_of_mem _ hx)) (device_put ..) (Nat.lt_of_succ_lt_succ hcount) hleft
    simp only [Nat.succ_eq_add_one, readSectors_succ]
    exact hblock.hangs hrest.bind

/-! ## The sectors of a disk -/

variable {start k : Nat}

/-- The bytes of sectors that follow each other. -/
theorem readBlock_flatten (disk : Fat.Disk) (start k : Nat) :
    ((List.range k).map fun i => Fat.readBlock disk (start + i) 1).flatten = Fat.readBlock disk start k := by
  induction k with
  | zero => rfl
  | succ k ih =>
    rw [List.range_succ, List.map_append, List.flatten_append, ih]
    unfold Fat.readBlock
    rw [Nat.mul_add 512 k 1, slice_add, ← Nat.mul_add]
    simp

/-- Of the sectors that are asked for, `k` are there. -/
theorem sectors_split (hk : k ≤ n) (hc : start + k ≤ v.capacity) : v.sectors start n =
    ((List.range k).map fun i => Fat.readBlock v.disk (start + i) 1).map some ++ v.sectors (start + k) (n - k) := by
  obtain ⟨j, rfl⟩ := Nat.exists_eq_add_of_le hk
  unfold Drive.sectors
  rw [List.range_add, List.map_append, List.map_map, List.map_map, Nat.add_sub_cancel_left]
  refine congrArg₂ _ (List.map_congr_left fun i hi => ?_) (List.map_congr_left fun i _ => ?_)
  · have := List.mem_range.mp hi
    exact if_pos (by omega)
  · show v.sector _ = v.sector _
    rw [Nat.add_assoc]

theorem sectors_zero (v : Drive) (start : Nat) : v.sectors start 0 = [] := rfl

theorem sectors_missing (h : v.capacity ≤ start) (data : Block) (rest : List (Option Block)) :
    v.sectors start n ≠ some data :: rest := by
  intro he
  cases n with
  | zero => cases he
  | succ n =>
    unfold Drive.sectors at he
    rw [List.range_succ_eq_map, List.map_cons] at he
    have hsec : v.sector (start + 0) = some data := (List.cons.inj he).1
    unfold Drive.sector at hsec
    rw [if_neg (by omega)] at hsec
    cases hsec

theorem length_block {x : Block} (hx : x ∈ (List.range k).map fun i => Fat.readBlock v.disk (start + i) 1) :
    x.length = 512 := by
  obtain ⟨i, -, rfl⟩ := List.mem_map.mp hx
  exact length_slice ..

/-- All of them that are there, and no more. -/
theorem sectors_run (v : Drive) (start n : Nat) :
    ∃ (datas : List Block) (bs : List (Option Block)), v.sectors start n = datas.map some ++ bs ∧
    (∀ data ∈ datas, data.length = 512) ∧ (∀ data rest, bs ≠ some data :: rest) ∧
    datas.length = min n (v.capacity - start) := by
  by_cases hs : start ≤ v.capacity
  · refine ⟨_, _, sectors_split (Nat.min_le_left n (v.capacity - start)) (by omega), fun x => length_block, ?_, by simp⟩
    by_cases hn : n ≤ v.capacity - start
    · rw [Nat.min_eq_left hn, Nat.sub_self]
      exact fun _ _ => nofun
    · rw [Nat.min_eq_right (by omega)]
      exact fun data rest => sectors_missing (by omega) data rest
  · refine ⟨[], v.sectors start n, rfl, nofun, fun data rest => sectors_missing (by omega) data rest, ?_⟩
    rw [List.length_nil]
    omega

/-! ## `readBlock` -/

/-- The device a command reaches, and the sector it names there. -/
def IdeStorage.target (st : IdeStorage) (sector : Nat) : Bool :=
  if st.is48bit then st.slave else st.slave || sector.testBit 28

def IdeStorage.lba (st : IdeStorage) (sector : Nat) : Nat := if st.is48bit then sector % 2 ^ 48 else sector % 2 ^ 28

def IdeStorage.limit (st : IdeStorage) : Nat := if st.is48bit then 2 ^ 16 else 2 ^ 8

/-- How many sectors it asks for. -/
def IdeStorage.asked (st : IdeStorage) (count : Nat) : Nat :=
  if count % st.limit = 0 then st.limit else count % st.limit

/-- The disk takes the commands of the storage. -/
def IdeStorage.Suits (st : IdeStorage) (v : Drive) : Prop := if st.is48bit then v.is48bit else v.lbasupport

/-- A command has gone to a device, which is now `d`. -/
def Commanded (m : Bus) (cmd : Nat) (b : Bool) (d : Device) (t : Bus) : Prop :=
  ∃ r : Registers, r.drive.testBit 4 = b ∧ t = Function.update m cmd (Channel.put { m cmd with regs := r } d)

theorem Commanded.device {s : Bool} (h : Commanded m cmd s d t) : t.device cmd = d := by
  obtain ⟨r, -, rfl⟩ := h
  unfold Bus.device
  rw [Function.update_self]
  exact Function.update_self ..

/-- The command of `readBlock`. -/
def IdeStorage.send (st : IdeStorage) (sector count : Nat) : Io Unit :=
  if st.is48bit then SendCommand st.cmd st.slave sector (count % 2 ^ 16) 0x24 true
  else SendCommand st.cmd st.slave sector (count % 2 ^ 16) 0x20 false

variable {st : IdeStorage} {sector : Nat} {gives : Nat → Bool}

/-- A `DiskBlock` for so many sectors is found. -/
def Room (gives : Nat → Bool) (count : Nat) : Prop := gives (count * 512) = true

instance (gives : Nat → Bool) (count : Nat) : Decidable (Room gives count) := inferInstanceAs (Decidable (_ = _))

/-- What a heap has room for: the `DiskBlock` itself, of 16 bytes, and then its data. -/
def HeapGives (s : Heap.St) (gives : Nat → Bool) : Prop :=
  ∀ size, gives size = true → ∃ fuel p h, Heap.malloc fuel 16 s.heap = some (p, h) ∧
    ∃ fuel q h', Heap.malloc fuel size h = some (q, h')

/-- 65536 sectors are as many bytes as the reserve has, and the `DiskBlock` is there before them. -/
theorem not_room_reserve {r : Heap.Reserve} {es : List Heap.Ev} {s : Heap.St} (h : Run Heap.Step (Heap.initSt r) es s)
    (hg : HeapGives s gives) : ¬ Room gives (2 ^ 16) := by
  intro hroom
  obtain ⟨fuel, p, h', hm, fuel', q, h'', hm'⟩ := hg _ hroom
  have hstep : Heap.Step s (.malloc fuel 16) ⟨h', (p, 16) :: s.live⟩ := by
    refine ⟨show (16 : Nat) < 2 ^ 64 by decide, ?_⟩
    show (Heap.malloc fuel 16 s.heap).map _ = _
    rw [hm]
    rfl
  have hnone := Heap.malloc_whole (h.append (.single hstep)) (List.cons_ne_nil _ _)
    (show Heap.reserveSize ≤ 2 ^ 16 * 512 by decide) fuel'
  rw [hnone] at hm'
  cases hm'

/-- The sizes that are no `size_t` are left out from here on. -/
theorem readBlock_eq (hroom : Room gives count) (hsize : count < 2 ^ 55) (sector : Nat) (m : Bus) (fuel : Nat) :
    st.readBlock gives sector count fuel m =
      (st.send sector count >>= fun _ => readSectors fuel st.cmd (count * 512) count) m := by
  have hmod : count * 512 % 2 ^ 64 = count * 512 := Nat.mod_eq_of_lt (by omega)
  have hnew : newDiskBlock gives (count * 512) m = .ok ((), m) := if_pos hroom
  unfold IdeStorage.readBlock IdeStorage.send
  rw [hmod, state_bind_ok hnew]
  split
  · rfl
  · rfl

theorem readBlock_no_room (hroom : ¬ Room gives count) (hsize : count < 2 ^ 55) (sector : Nat) (m : Bus) :
    Hangs (st.readBlock gives sector count) m := by
  have hmod : count * 512 % 2 ^ 64 = count * 512 := Nat.mod_eq_of_lt (by omega)
  have hnew : newDiskBlock gives (count * 512) m = .error .noReturn := if_neg hroom
  intro fuel
  unfold IdeStorage.readBlock
  rw [hmod, state_bind_error hnew]

theorem Ends.of_readBlock {bs : List UInt8} (hroom : Room gives count) (hsize : count < 2 ^ 55)
    (h : Ends (fun fuel => st.send sector count >>= fun _ => readSectors fuel st.cmd (count * 512) count) m bs t) :
    Ends (st.readBlock gives sector count) m bs t := by
  obtain ⟨n, hn⟩ := h
  exact ⟨n, fun fuel => (readBlock_eq hroom hsize sector m fuel).trans (hn fuel)⟩

theorem command_read (hk : d.kind = .drive v) (hs : v.lbasupport) (r : Registers) :
    d.command r 0x20 = d.proceed (v.sectors r.lba28 r.count8) := by
  unfold Device.command
  rw [hk]
  exact (if_neg (by decide)).trans (if_pos ⟨rfl, hs⟩)

theorem command_readExt (hk : d.kind = .drive v) (hs : v.is48bit) (r : Registers) :
    d.command r 0x24 = d.proceed (v.sectors r.lba48 r.count16) := by
  unfold Device.command
  rw [hk]
  exact (if_neg (by decide)).trans ((if_neg (by simp)).trans (if_pos ⟨rfl, hs⟩))

theorem short_count8 (r : Registers) (slave : Bool) (addr count : Nat) : (r.short slave addr (count % 2 ^ 16)).count8 =
    if count % 2 ^ 8 = 0 then 2 ^ 8 else count % 2 ^ 8 := by
  show (if count % 2 ^ 16 % 2 ^ 8 = 0 then 2 ^ 8 else count % 2 ^ 16 % 2 ^ 8) = _
  rw [Nat.mod_mod_of_dvd _ (by decide)]

theorem long_count16 (slave : Bool) (addr count : Nat) : (Registers.long slave addr (count % 2 ^ 16)).count16 =
    if count % 2 ^ 16 = 0 then 2 ^ 16 else count % 2 ^ 16 := by
  have hsum : count % 2 ^ 16 % 2 ^ 8 + 2 ^ 8 * ((count % 2 ^ 16) >>> 8 % 2 ^ 8) = count % 2 ^ 16 := by omega
  show (if count % 2 ^ 16 % 2 ^ 8 + 2 ^ 8 * ((count % 2 ^ 16) >>> 8 % 2 ^ 8) = 0 then 2 ^ 16
    else count % 2 ^ 16 % 2 ^ 8 + 2 ^ 8 * ((count % 2 ^ 16) >>> 8 % 2 ^ 8)) = _
  rw [hsum]

theorem send_ok (hk : ((m st.cmd).devices (st.target sector)).kind = .drive v) (hs : st.Suits v) (count : Nat) :
    ∃ t, st.send sector count m = .ok ((), t) ∧ Commanded m st.cmd (st.target sector)
      (((m st.cmd).devices (st.target sector)).proceed (v.sectors (st.lba sector) (st.asked count))) t := by
  unfold IdeStorage.Suits at hs
  unfold IdeStorage.send IdeStorage.lba IdeStorage.asked IdeStorage.limit
  unfold IdeStorage.target at hk ⊢
  cases h48 : st.is48bit with
  | true =>
    simp only [h48, if_true] at hk hs ⊢
    refine ⟨_, SendCommand_long (by decide), .long st.slave sector (count % 2 ^ 16), long_selects .., ?_⟩
    unfold Channel.sent
    rw [long_selects, command_readExt hk hs, long_lba48, long_count16]
  | false =>
    simp only [h48, Bool.false_eq_true, if_false] at hk hs ⊢
    refine ⟨_, SendCommand_short (by decide), (m st.cmd).regs.short st.slave sector (count % 2 ^ 16),
      short_selects .., ?_⟩
    unfold Channel.sent
    rw [short_selects, command_read hk hs, short_lba28, short_count8]

theorem asked_eq (h0 : count ≠ 0) (hl : count ≤ st.limit) : st.asked count = count := by
  unfold IdeStorage.asked
  by_cases he : count = st.limit
  · rw [he, Nat.mod_self, if_pos rfl]
  · rw [Nat.mod_eq_of_lt (by omega), if_neg h0]

theorem IdeStorage.limit_le (st : IdeStorage) : st.limit ≤ 2 ^ 16 := by
  unfold IdeStorage.limit
  split
  · exact Nat.le_refl _
  · decide

theorem asked_le (st : IdeStorage) (count : Nat) : st.asked count ≤ st.limit := by
  have hlimit : 0 < st.limit := by
    unfold IdeStorage.limit
    split
    · decide
    · decide
  unfold IdeStorage.asked
  split
  · exact Nat.le_refl _
  · exact Nat.le_of_lt (Nat.mod_lt _ hlimit)

theorem there_of_drive (hk : d.kind = .drive v) : d.There := by
  intro floats he
  rw [hk] at he
  cases he

/-- A read of sectors that are there, as many as one command can ask for. -/
theorem readBlock_ends (hk : ((m st.cmd).devices (st.target sector)).kind = .drive v) (hs : st.Suits v)
    (hroom : Room gives count) (h0 : count ≠ 0)
    (hl : count ≤ st.limit) (hc : st.lba sector + count ≤ v.capacity) : ∃ t, Commanded m st.cmd (st.target sector)
      (((m st.cmd).devices (st.target sector)).proceed (v.sectors (st.lba sector) count)) t ∧
    Ends (st.readBlock gives sector count) m (Fat.readBlock v.disk (st.lba sector) count)
      (t.put st.cmd (((m st.cmd).devices (st.target sector)).sending count [])) := by
  obtain ⟨t, hsend, hcmd⟩ := send_ok hk hs count
  rw [asked_eq h0 hl] at hcmd
  have hdev := hcmd.device
  rw [sectors_split (Nat.le_refl count) hc, Nat.sub_self, sectors_zero, ← sending_zero] at hdev
  have hlen : ((List.range count).map fun i => Fat.readBlock v.disk (st.lba sector + i) 1).length * 512 ≤
      count * 512 := by rw [List.length_map, List.length_range]
  have hread := readSectors_ends (there_of_drive hk) (fun x => length_block) hdev hlen
  rw [readBlock_flatten, List.length_map, List.length_range, Nat.zero_add] at hread
  exact ⟨t, hcmd, Ends.of_readBlock hroom (by have := st.limit_le; omega) ((Ends.of_eq hsend).bind hread)⟩

/-- `readBlock` returns if there is room for its block and it asks for nothing, or for sectors that
    are there and no more than one command can ask for. Then it returns what the disk has. -/
theorem readBlock_ends_or_hangs (gives : Nat → Bool)
    (hk : ((m st.cmd).devices (st.target sector)).kind = .drive v) (hs : st.Suits v)
    (hsize : count < 2 ^ 55) :
    if Room gives count ∧ (count = 0 ∨ count ≤ st.limit ∧ st.lba sector + count ≤ v.capacity) then
      ∃ t, Ends (st.readBlock gives sector count) m (Fat.readBlock v.disk (st.lba sector) count) t
    else Hangs (st.readBlock gives sector count) m := by
  obtain ⟨t, hsend, hcmd⟩ := send_ok hk hs count
  by_cases hroom : Room gives count
  · split
    next h =>
      by_cases h0 : count = 0
      · subst h0
        exact ⟨t, Ends.of_readBlock hroom hsize ((Ends.of_eq hsend).bind (.of_eq rfl))⟩
      · obtain ⟨hl, hc⟩ := h.2.resolve_left h0
        obtain ⟨u, -, hread⟩ := readBlock_ends hk hs hroom h0 hl hc
        exact ⟨_, hread⟩
    next h =>
      obtain ⟨h0, h⟩ := not_or.mp fun hr => h ⟨hroom, hr⟩
      obtain ⟨datas, bs, hsplit, hlen, hbs, hcount⟩ := sectors_run v (st.lba sector) (st.asked count)
      have hdev := hcmd.device
      rw [hsplit, ← sending_zero] at hdev
      have hlt : datas.length < count := by
        rw [hcount]
        by_cases hl : count ≤ st.limit
        · have : ¬ st.lba sector + count ≤ v.capacity := fun hc => h ⟨hl, hc⟩
          omega
        · have := asked_le st count
          omega
      have hloop := readSectors_hangs (there_of_drive hk) hlen hdev hbs hlt (Nat.le_refl _)
      intro fuel
      rw [readBlock_eq hroom hsize]
      have hh : Hangs (fun fuel => st.send sector count >>= fun _ => readSectors fuel st.cmd (count * 512) count) m :=
        (Ends.of_eq hsend).hangs hloop
      exact hh fuel
  · rw [if_neg fun h => hroom h.1]
    exact readBlock_no_room hroom hsize sector m

/-! ## Channels at rest -/

variable {kinds : Nat → Bool → Kind} {b : Bool} {e : Device}

/-- What is connected, and no device has anything to do. -/
def Rest (kinds : Nat → Bool → Kind) (m : Bus) : Prop :=
  ∀ cmd b, ((m cmd).devices b).kind = kinds cmd b ∧ ((m cmd).devices b).phase = .idle

theorem Rest.commanded (h : Rest kinds m) (hc : Commanded m cmd slave d t) (hk : e.kind = kinds cmd slave)
    (hp : e.phase = .idle) :
    Rest kinds (t.put cmd e) := by
  obtain ⟨r, hr, rfl⟩ := hc
  intro cmd' b
  unfold Bus.put
  rw [Function.update_self, Function.update_idem]
  by_cases hcmd : cmd' = cmd
  · subst hcmd
    rw [Function.update_self]
    have hdev : (Channel.put (Channel.put { m cmd' with regs := r } d) e).devices =
        Function.update (m cmd').devices slave e := by
      rw [← hr]
      exact Function.update_idem ..
    rw [hdev]
    by_cases hb : b = slave
    · subst hb
      rw [Function.update_self]
      exact ⟨hk, hp⟩
    · rw [Function.update_of_ne hb]
      exact h cmd' b
  · rw [Function.update_of_ne hcmd]
    exact h cmd' b

theorem identify_sent (cmd : Nat) (slave : Bool) (m : Bus) :
    ∃ t r, SendCommand cmd slave 0 0 0xEC false m = .ok ((), t) ∧
    Commanded m cmd slave (((m cmd).devices slave).command r 0xEC) t := by
  have hsel := short_selects (m cmd).regs slave 0 0
  rw [Nat.zero_testBit, Bool.or_false] at hsel
  refine ⟨_, (m cmd).regs.short slave 0 0, SendCommand_short (by decide), _, hsel, ?_⟩
  unfold Channel.sent
  rw [hsel]

/-! ## The constructor -/

theorem identified_polls (cmd : Nat) : Polls cmd (identified cmd) (fun x => ¬ (x = 0 ∨ x = 0xFF) ∧ ¬ x &&& 0x8 = 0x8)
    fun x => pure (decide (¬ (x = 0 ∨ x = 0xFF))) where
  zero _ := rfl
  again hx hs _ := (state_bind_ok hs).trans (congrFun ((if_neg hx.1).trans (if_neg hx.2)) _)
  stops {x m t} hx hs _ := by
    refine (state_bind_ok hs).trans ?_
    by_cases h0 : x = 0 ∨ x = 0xFF
    · rw [if_pos h0, decide_eq_false (not_not.mpr h0)]
    · have h8 : x &&& 0x8 = 0x8 := by
        by_contra h8
        exact hx ⟨h0, h8⟩
      rw [if_neg h0, if_pos h8, decide_eq_true h0]

theorem new_drive (h : Rest kinds m) (hk : kinds cmd slave = .drive v) : ∃ t, Rest kinds t ∧
    Ends (IdeStorage.new cmd slave) m (some (⟨cmd, slave, v.is48bit⟩, v.lbasupport)) t := by
  obtain ⟨t, r, hsend, hcmd⟩ := identify_sent cmd slave m
  obtain ⟨hkind, -⟩ := h cmd slave
  rw [hk] at hkind
  have hproceed : ((m cmd).devices slave).command r 0xEC = ((m cmd).devices slave).sending 0 [some v.identify] := by
    unfold Device.command
    rw [hkind]
    exact if_pos rfl
  rw [hproceed] at hcmd
  have hdev := hcmd.device
  have hthere : (t.device cmd).There := by
    rw [hdev]
    exact sending_there (there_of_drive hkind) 0 _
  have hphase : ∃ w, (t.device cmd).phase = .busy w (some v.identify) [] := by
    rw [hdev]
    exact ⟨_, rfl⟩
  obtain ⟨w, hphase⟩ := hphase
  have hfound : Ends (identified cmd) t true (t.put cmd { t.device cmd with phase := .offering v.identify [] }) :=
    (identified_polls cmd).found (by decide) (by decide) hthere hphase rfl
  have hread : ReadPio cmd 512 (t.put cmd { t.device cmd with phase := .offering v.identify [] }) =
      .ok (v.identify, t.put cmd (((m cmd).devices slave).sending 1 [])) := by
    rw [ReadPio_offering (Nat.le_refl 512) v.size (by rw [device_put]), device_put, put_put, hdev, sending_cons]
  refine ⟨t.put cmd (((m cmd).devices slave).sending 1 []), h.commanded hcmd (hkind.trans hk.symm) rfl,
    (Ends.of_eq hsend).bind (hfound.bind ?_)⟩
  exact (Ends.of_eq hread).bind (.of_eq rfl)

theorem new_empty {floats : Bool} (h : Rest kinds m) (hk : kinds cmd slave = .empty floats) :
    ∃ t, Rest kinds t ∧ Ends (IdeStorage.new cmd slave) m none t := by
  obtain ⟨t, r, hsend, hcmd⟩ := identify_sent cmd slave m
  obtain ⟨hkind, hphase⟩ := h cmd slave
  rw [hk] at hkind
  have hself : ((m cmd).devices slave).command r 0xEC = (m cmd).devices slave := by
    unfold Device.command
    rw [hkind]
  rw [hself] at hcmd
  have hstatus : GetInterruptStatus cmd t = .ok (if floats then 0xFF else 0, t) := by
    have hst : (t.device cmd).status = (if floats then 0xFF else 0, t.device cmd) := by
      unfold Device.status
      rw [hcmd.device, hkind]
    rw [GetInterruptStatus_ok, hst, put_self]
  have hstop : ¬ (¬ ((if floats then 0xFF else 0) = 0 ∨ (if floats then 0xFF else 0) = 0xFF) ∧
      ¬ (if floats then 0xFF else 0) &&& 0x8 = 0x8) := by
    cases floats with
    | false => decide
    | true => decide
  have hrest := h.commanded hcmd (hkind.trans hk.symm) hphase
  rw [← hcmd.device, put_self] at hrest
  have hfail : Ends (identified cmd) t false t := by
    refine .stop rfl fun fuel => ((identified_polls cmd).stops hstop hstatus fuel).trans ?_
    cases floats with
    | false => rfl
    | true => rfl
  exact ⟨t, hrest, (Ends.of_eq hsend).bind (hfail.bind (.of_eq rfl))⟩

/-- A packet device is waited for for ever. -/
theorem new_packet (h : Rest kinds m) (hk : kinds cmd slave = .packet) : Hangs (IdeStorage.new cmd slave) m := by
  obtain ⟨t, r, hsend, hcmd⟩ := identify_sent cmd slave m
  obtain ⟨hkind, -⟩ := h cmd slave
  rw [hk] at hkind
  have habort : ((m cmd).devices slave).command r 0xEC = { (m cmd).devices slave with phase := .aborted } := by
    unfold Device.command
    simp only [hkind]
  rw [habort] at hcmd
  have hdev := hcmd.device
  have hthere : (t.device cmd).There := by
    rw [hdev]
    intro floats he
    exact absurd (hkind.symm.trans he) nofun
  have hsilent : (t.device cmd).Silent := by
    rw [hdev]
    exact .aborted rfl
  exact (Ends.of_eq hsend).hangs ((identified_polls cmd).silent (by decide) hthere hsilent).bind

/-! ## Users of the disks -/

/-- The storage that is registered for what is connected. -/
def found (kinds : Nat → Bool → Kind) (p : Nat × Bool) : Option IdeStorage :=
  match kinds p.1 p.2 with
  | .drive v => if v.lbasupport then some ⟨p.1, p.2, v.is48bit⟩ else none
  | _ => none

theorem found_eq_some {p : Nat × Bool} (h : found kinds p = some st) :
    st.cmd = p.1 ∧ st.slave = p.2 ∧ ∃ v, kinds st.cmd st.slave = .drive v ∧ v.lbasupport ∧ st.is48bit = v.is48bit := by
  unfold found at h
  split at h
  next v hk =>
    split at h
    next hl =>
      obtain rfl := Option.some.inj h
      exact ⟨rfl, rfl, v, hk, hl, rfl⟩
    next => cases h
  next => cases h

/-- What sectors hold. -/
def contents (kinds : Nat → Bool → Kind) (st : IdeStorage) (sector count : Nat) : List UInt8 :=
  match kinds st.cmd st.slave with
  | .drive v => Fat.readBlock v.disk sector count
  | _ => []

def Client.run (kinds : Nat → Bool → Kind) : Client α → α
  | .done a => a
  | .read st _ sector count k => (k (contents kinds st sector count)).run kinds

/-- What an address of the storage can name. -/
def IdeStorage.reach (st : IdeStorage) : Nat := if st.is48bit then 2 ^ 48 else 2 ^ 28

/-- There is room for the block, one command can ask for the sectors, and they are there. -/
def Fits (kinds : Nat → Bool → Kind) (st : IdeStorage) (gives : Nat → Bool) (sector count : Nat) : Prop :=
  Room gives count ∧ count ≤ st.limit ∧ ∀ v, kinds st.cmd st.slave = .drive v → sector + count ≤ v.capacity

/-- It reads storages that have been found, at addresses they can name, and never nothing or more
    than a `size_t` counts the bytes of. -/
def Client.Proper (kinds : Nat → Bool → Kind) : Client α → Prop
  | .done _ => True
  | .read st _ sector count k => found kinds (st.cmd, st.slave) = some st ∧ sector < st.reach ∧
      (count ≠ 0 ∧ count < 2 ^ 55) ∧ (k (contents kinds st sector count)).Proper kinds

/-- All it reads can be read. -/
def Client.Served (kinds : Nat → Bool → Kind) : Client α → Prop
  | .done _ => True
  | .read st gives sector count k => Fits kinds st gives sector count ∧
      (k (contents kinds st sector count)).Served kinds

theorem lba_of_lt (h : sector < st.reach) : st.lba sector = sector ∧ st.target sector = st.slave := by
  unfold IdeStorage.reach at h
  unfold IdeStorage.lba IdeStorage.target
  cases h48 : st.is48bit with
  | true =>
    simp only [h48, if_true] at h ⊢
    exact ⟨Nat.mod_eq_of_lt h, trivial⟩
  | false =>
    simp only [h48, Bool.false_eq_true, if_false] at h ⊢
    rw [Nat.testBit_lt_two_pow h, Bool.or_false]
    exact ⟨Nat.mod_eq_of_lt h, rfl⟩

theorem suits_of_found (hl : v.lbasupport) (h48 : st.is48bit = v.is48bit) : st.Suits v := by
  unfold IdeStorage.Suits
  split
  next h =>
    rw [← h48]
    exact h
  next => exact hl

/-- One read. -/
theorem read_fits (h : Rest kinds m) (hf : found kinds (st.cmd, st.slave) = some st) (hs : sector < st.reach)
    (h0 : count ≠ 0) (hfit : Fits kinds st gives sector count) :
    ∃ t, Ends (st.readBlock gives sector count) m (contents kinds st sector count) t ∧ Rest kinds t := by
  obtain ⟨-, -, v, hv, hl, h48⟩ := found_eq_some hf
  obtain ⟨hlba, htarget⟩ := lba_of_lt hs
  have hk : ((m st.cmd).devices (st.target sector)).kind = .drive v := by
    rw [htarget, (h st.cmd st.slave).1, hv]
  obtain ⟨hroom, hlimit, hthere⟩ := hfit
  obtain ⟨t, hcmd, hread⟩ := readBlock_ends hk (suits_of_found hl h48) hroom h0 hlimit (by rw [hlba]; exact hthere v hv)
  have hc : contents kinds st sector count = Fat.readBlock v.disk (st.lba sector) count := by
    unfold contents
    rw [hv, hlba]
  rw [htarget] at hcmd hk hread
  rw [hc]
  exact ⟨_, hread, h.commanded hcmd (hk.trans hv.symm) rfl⟩

theorem read_not_fits (h : Rest kinds m) (hf : found kinds (st.cmd, st.slave) = some st) (hs : sector < st.reach)
    (h0 : count ≠ 0 ∧ count < 2 ^ 55) (hfit : ¬ Fits kinds st gives sector count) :
    Hangs (st.readBlock gives sector count) m := by
  obtain ⟨-, -, v, hv, hl, h48⟩ := found_eq_some hf
  obtain ⟨hlba, htarget⟩ := lba_of_lt hs
  have hk : ((m st.cmd).devices (st.target sector)).kind = .drive v := by
    rw [htarget, (h st.cmd st.slave).1, hv]
  have hread := readBlock_ends_or_hangs gives hk (suits_of_found hl h48) h0.2
  rw [hlba, if_neg ?_] at hread
  · exact hread
  · rintro ⟨hroom, hz | ⟨h1, h2⟩⟩
    · exact h0.1 hz
    · refine hfit ⟨hroom, h1, fun w hw => ?_⟩
      obtain rfl := Kind.drive.inj (hv.symm.trans hw)
      exact h2

theorem client_ends {p : Client α} (h : Rest kinds m) (hp : p.Proper kinds) (hs : p.Served kinds) :
    ∃ t, Ends (fun fuel => p.exec fuel) m (p.run kinds) t ∧ Rest kinds t := by
  induction p generalizing m with
  | done a => exact ⟨m, .of_eq rfl, h⟩
  | read st gives sector count k ih =>
    obtain ⟨hf, hsec, h0, hp⟩ := hp
    obtain ⟨hfit, hs⟩ := hs
    obtain ⟨t, hread, ht⟩ := read_fits h hf hsec h0.1 hfit
    obtain ⟨u, hrest, hu⟩ := ih _ ht hp hs
    exact ⟨u, hread.bind hrest, hu⟩

theorem client_hangs {p : Client α} (h : Rest kinds m) (hp : p.Proper kinds) (hs : ¬ p.Served kinds) :
    Hangs (fun fuel => p.exec fuel) m := by
  induction p generalizing m with
  | done a => exact absurd trivial hs
  | read st gives sector count k ih =>
    obtain ⟨hf, hsec, h0, hp⟩ := hp
    by_cases hfit : Fits kinds st gives sector count
    · obtain ⟨t, hread, ht⟩ := read_fits h hf hsec h0.1 hfit
      exact hread.hangs (ih _ ht hp fun hs' => hs ⟨hfit, hs'⟩)
    · exact (read_not_fits h hf hsec h0 hfit).bind

/-- A program that reads the disks through the driver returns exactly when all it reads can be read,
    and what it returns is what it would of the disks' own bytes. -/
theorem client_sees_disks {p : Client α} (h : Rest kinds m) (hp : p.Proper kinds) :
    ((∃ a t, Ends (fun fuel => p.exec fuel) m a t) ↔ p.Served kinds) ∧
    ∀ fuel a t, p.exec fuel m = .ok (a, t) → a = p.run kinds ∧ Rest kinds t := by
  by_cases hs : p.Served kinds
  · obtain ⟨t, he, ht⟩ := client_ends h hp hs
    refine ⟨iff_of_true ⟨_, t, he⟩ hs, fun fuel a u hu => ?_⟩
    obtain ⟨rfl, rfl⟩ := Prod.mk.inj (he.unique hu)
    exact ⟨rfl, ht⟩
  · have hh := client_hangs h hp hs
    refine ⟨iff_of_false (fun ⟨a, t, he⟩ => he.not_hangs hh) hs, fun fuel a u hu => ?_⟩
    rw [show p.exec fuel m = _ from hh fuel] at hu
    cases hu

/-! ## All devices -/

variable {register_storage : IdeStorage → Client Unit} {p : Nat × Bool} {ps : List (Nat × Bool)} {bar0 bar2 : Nat}

/-- `register_storage` reads only what is there. -/
def Probes (kinds : Nat → Bool → Kind) (register_storage : IdeStorage → Client Unit) : Prop :=
  ∀ p st, found kinds p = some st → (register_storage st).Proper kinds ∧ (register_storage st).Served kinds

/-- A packet device hangs the constructor. -/
def NoPacket (kinds : Nat → Bool → Kind) (p : Nat × Bool) : Prop := kinds p.1 p.2 ≠ .packet

theorem attach_ends (hreg : Probes kinds register_storage) (h : Rest kinds m) (hp : NoPacket kinds p) :
    ∃ t, Ends (fun fuel => attach register_storage fuel p.1 p.2) m (found kinds p).toList t ∧ Rest kinds t := by
  obtain ⟨cmd, slave⟩ := p
  cases hk : kinds cmd slave with
  | empty floats =>
    obtain ⟨t, ht, hnew⟩ := new_empty h hk
    refine ⟨t, hnew.bind ?_, ht⟩
    unfold found
    simp only [hk]
    exact .of_eq rfl
  | packet => exact absurd hk hp
  | drive v =>
    obtain ⟨t, ht, hnew⟩ := new_drive h hk
    have hfound : found kinds (cmd, slave) = if v.lbasupport then some ⟨cmd, slave, v.is48bit⟩ else none := by
      unfold found
      simp only [hk]
    cases hl : v.lbasupport with
    | false =>
      rw [hl] at hnew hfound
      rw [hfound]
      exact ⟨t, hnew.bind (.of_eq rfl), ht⟩
    | true =>
      rw [hl] at hnew hfound
      obtain ⟨hproper, hserved⟩ := hreg _ _ hfound
      obtain ⟨u, hu, hrest⟩ := client_ends ht hproper hserved
      rw [hfound]
      exact ⟨u, hnew.bind (hu.bind (.of_eq rfl)), hrest⟩

theorem attachAll_ends (hreg : Probes kinds register_storage) (h : Rest kinds m) (hps : ∀ p ∈ ps, NoPacket kinds p) :
    ∃ t, Ends (fun fuel => attachAll register_storage fuel ps) m (ps.filterMap (found kinds)) t ∧ Rest kinds t := by
  induction ps generalizing m with
  | nil => exact ⟨m, .of_eq rfl, h⟩
  | cons p ps ih =>
    obtain ⟨t, ht, hrest⟩ := attach_ends hreg h (hps p (List.mem_cons_self ..))
    obtain ⟨u, hu, hrest'⟩ := ih hrest fun q hq => hps q (List.mem_cons_of_mem _ hq)
    refine ⟨u, ?_, hrest'⟩
    have happ : (p :: ps).filterMap (found kinds) = (found kinds p).toList ++ ps.filterMap (found kinds) := by
      cases hf : found kinds p with
      | none => rw [List.filterMap_cons_none hf]; rfl
      | some st => rw [List.filterMap_cons_some hf]; rfl
    rw [happ]
    exact ht.bind (hu.bind (.of_eq rfl))

theorem attachAll_hangs (hreg : Probes kinds register_storage) (h : Rest kinds m) (hps : ¬ ∀ p ∈ ps, NoPacket kinds p) :
    Hangs (fun fuel => attachAll register_storage fuel ps) m := by
  induction ps generalizing m with
  | nil => exact absurd (fun p hp => absurd hp List.not_mem_nil) hps
  | cons p ps ih =>
    by_cases hp : NoPacket kinds p
    · obtain ⟨t, ht, hrest⟩ := attach_ends hreg h hp
      exact ht.hangs (ih hrest fun hall => hps (List.forall_mem_cons.mpr ⟨hp, hall⟩)).bind
    · exact (new_packet h (not_not.mp hp)).bind.bind

/-- The driver comes back exactly when no packet device is on its channels, and then it has
    registered the disks that take linear addresses, in the order of their places. -/
theorem createIdeStorage_registers (hreg : Probes kinds register_storage) (h : Rest kinds m) :
    ((∃ sts t, Ends (createIdeStorage register_storage bar0 bar2) m sts t) ↔ ∀ p ∈ places bar0 bar2, NoPacket kinds p) ∧
    ∀ fuel sts t, createIdeStorage register_storage bar0 bar2 fuel m = .ok (sts, t) →
      sts = (places bar0 bar2).filterMap (found kinds) ∧ Rest kinds t := by
  by_cases hps : ∀ p ∈ places bar0 bar2, NoPacket kinds p
  · obtain ⟨t, he, ht⟩ := attachAll_ends hreg h hps
    refine ⟨iff_of_true ⟨_, t, he⟩ hps, fun fuel sts u hu => ?_⟩
    obtain ⟨rfl, rfl⟩ := Prod.mk.inj (he.unique hu)
    exact ⟨rfl, ht⟩
  · have hh := attachAll_hangs hreg h hps
    refine ⟨iff_of_false (fun ⟨sts, t, he⟩ => he.not_hangs hh) hps, fun fuel sts u hu => ?_⟩
    rw [show createIdeStorage register_storage bar0 bar2 fuel m = _ from hh fuel] at hu
    cases hu

/-! ## A channel with two disks -/

def identity (bits48 : UInt8) : List UInt8 :=
  List.replicate 99 0 ++ 2 :: (List.replicate 67 0 ++ bits48 :: List.replicate 344 0)

theorem length_identity (bits48 : UInt8) : (identity bits48).length = 512 := by
  unfold identity
  simp only [List.length_append, List.length_cons, List.length_replicate]

/-- Eight sectors, each filled with `offset` and its number. -/
def smallDrive (offset : Nat) (bits48 : UInt8) : Drive :=
  ⟨fun a => UInt8.ofNat (offset + a / 512), 8, identity bits48, length_identity bits48⟩

/-- Two disks on the first channel, nothing on the other ones. -/
def twoDisks (cmd : Nat) (slave : Bool) : Kind :=
  if cmd = 0x1F0 then .drive (if slave then smallDrive 0 4 else smallDrive 5 0) else .empty true

/-- Nothing has been written to any register, and no block comes at once. -/
def board : Bus := fun cmd =>
  ⟨⟨⟨0, 0⟩, ⟨0, 0⟩, ⟨0, 0⟩, ⟨0, 0⟩, 0⟩, fun slave => ⟨twoDisks cmd slave, .idle, fun n => n + 1, 0⟩⟩

theorem board_rest : Rest twoDisks board := fun _ _ => ⟨rfl, rfl⟩

def master : IdeStorage := ⟨0x1F0, false, false⟩

def slave48 : IdeStorage := ⟨0x1F0, true, true⟩

theorem twoDisks_evaluate :
    (found twoDisks (0x1F0, false) = some master ∧ found twoDisks (0x1F0, true) = some slave48) ∧
    ((smallDrive 0 4).lbasupport = true ∧ (smallDrive 5 0).lbasupport = true) ∧
    ((contents twoDisks master 0 1).getD 0 0).toNat = 5 ∧ (contents twoDisks slave48 5 1).getD 0 0 = 5 := by
  decide +kernel

/-- A heap with room for one sector. -/
def oneSector (size : Nat) : Bool := size ≤ 512

def secondRead (sector : Nat) : Client UInt8 := .read slave48 oneSector sector 1 fun cs => .done (cs.getD 0 0)

/-- The first disk names a sector of the second. -/
def smallClient : Client UInt8 := .read master oneSector 0 1 fun bs => secondRead (bs.getD 0 0).toNat

theorem fits_small {st : IdeStorage} {sector : Nat} {b : Bool} (hc : st.cmd = 0x1F0) (hb : st.slave = b)
    (h : sector + 1 ≤ 8) : Fits twoDisks st oneSector sector 1 := by
  refine ⟨rfl, ?_, fun v hv => ?_⟩
  · unfold IdeStorage.limit
    split
    · decide
    · decide
  · rw [hc, hb] at hv
    cases b with
    | false =>
      cases hv
      exact h
    | true =>
      cases hv
      exact h

theorem client_sees_disks_small : ∃ fuel t, smallClient.exec fuel board = .ok (5, t) := by
  obtain ⟨⟨hmaster, hslave⟩, -, hfirst, hsecond⟩ := twoDisks_evaluate
  have hp : smallClient.Proper twoDisks := by
    refine ⟨hmaster, by decide, by decide, ?_⟩
    beta_reduce
    rw [hfirst]
    exact ⟨hslave, by decide, by decide, trivial⟩
  have hs : smallClient.Served twoDisks := by
    refine ⟨fits_small rfl rfl (by decide), ?_⟩
    beta_reduce
    rw [hfirst]
    exact ⟨fits_small rfl rfl (by decide), trivial⟩
  have hr : smallClient.run twoDisks = 5 := by
    unfold smallClient Client.run
    beta_reduce
    rw [hfirst]
    exact hsecond
  obtain ⟨hiff, hval⟩ := client_sees_disks board_rest hp
  obtain ⟨a, t, he⟩ := hiff.mpr hs
  obtain ⟨fuel, hrun⟩ := he.returns
  obtain ⟨ha, -⟩ := hval fuel a t hrun
  rw [ha, hr] at hrun
  exact ⟨fuel, t, hrun⟩

/-- Bit 28 of a sector selects the other disk; 257 sectors are one and no more; two are there, but
    the heap has no room for them. -/
theorem readBlock_ends_or_hangs_small :
    (∃ t, Ends (master.readBlock oneSector (2 ^ 28 + 3) 1) board (Fat.readBlock (smallDrive 0 4).disk 3 1) t) ∧
    Hangs (master.readBlock (fun _ => true) 0 257) board ∧ Hangs (master.readBlock oneSector 0 2) board := by
  have hother : ((board master.cmd).devices (master.target (2 ^ 28 + 3))).kind = .drive (smallDrive 0 4) := rfl
  have hself : ((board master.cmd).devices (master.target 0)).kind = .drive (smallDrive 5 0) := rfl
  obtain ⟨-, ⟨hlba48, hlba28⟩, -⟩ := twoDisks_evaluate
  have h1 := readBlock_ends_or_hangs oneSector hother hlba48 (show 1 < 2 ^ 55 by decide)
  have h2 := readBlock_ends_or_hangs (fun _ => true) hself hlba28 (show 257 < 2 ^ 55 by decide)
  have h3 := readBlock_ends_or_hangs oneSector hself hlba28 (show 2 < 2 ^ 55 by decide)
  rw [if_pos (by decide)] at h1
  rw [if_neg (by decide)] at h2
  rw [if_neg (by decide)] at h3
  exact ⟨h1, h2, h3⟩

/-- Both disks are registered, in order. -/
theorem createIdeStorage_registers_two : ∃ fuel t,
    createIdeStorage (fun st => .read st oneSector 0 1 fun _ => .done ()) 0 0 fuel board = .ok ([master, slave48], t) := by
  have hreg : Probes twoDisks fun st => .read st oneSector 0 1 fun _ => .done () := by
    intro p st hf
    obtain ⟨hcmd, hslave, v, hv, -, -⟩ := found_eq_some hf
    have hport : st.cmd = 0x1F0 := by
      by_contra hne
      unfold twoDisks at hv
      rw [if_neg hne] at hv
      cases hv
    have hreach : 0 < st.reach := by
      unfold IdeStorage.reach
      split
      · decide
      · decide
    have hfound : found twoDisks (st.cmd, st.slave) = some st := by
      rw [hcmd, hslave]
      exact hf
    exact ⟨⟨hfound, hreach, by decide, trivial⟩, fits_small hport rfl (by decide), trivial⟩
  have hnone : ∀ p ∈ places 0 0, NoPacket twoDisks p := by
    intro p _ hp
    unfold twoDisks at hp
    split at hp
    · cases hp
    · cases hp
  have hplaces : (places 0 0).filterMap (found twoDisks) = [master, slave48] := by
    rw [show places 0 0 = [(0x1F0, false), (0x1F0, true), (0x170, false), (0x170, true)] from rfl]
    rw [List.filterMap_cons_some twoDisks_evaluate.1.1, List.filterMap_cons_some twoDisks_evaluate.1.2]
    rfl
  obtain ⟨hiff, hval⟩ :
      ((∃ sts t, Ends (createIdeStorage (fun st => .read st oneSector 0 1 fun _ => .done ()) 0 0) board sts t) ↔ _) ∧ _ :=
    createIdeStorage_registers hreg board_rest
  obtain ⟨sts, t, he⟩ := hiff.mpr hnone
  obtain ⟨fuel, hrun⟩ := he.returns
  obtain ⟨hsts, -⟩ := hval fuel sts t hrun
  rw [hsts, hplaces] at hrun
  exact ⟨fuel, t, hrun⟩

end Rodvin.Kernel.Ide
