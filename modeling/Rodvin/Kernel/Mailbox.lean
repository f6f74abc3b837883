/-
  Rodvin.Kernel.Mailbox — the Raspberry Pi's mailboxes (`kernel/src/rpi/mailbox.cpp`,
  `property.cpp`, `rpifb.cpp`, `power.cpp`).

  The kernel and the GPU exchange words through two queues and share two blocks of memory.
  `mailbox_send` waits for room and writes one word; `mailbox_poll` empties the other queue
  and calls the callback of each word's channel, its lowest four bits. A call prepares its
  block, sends its address and polls until its callback has been called. The GPU takes the
  words, changes the block a word points to and answers on the same channel, in its own
  time and order, and sends what it likes on other channels.

  `replay` is what the calls are for: a caller with a server at hand.
-/

import Mathlib.Tactic
import Rodvin.Lib.Runs

namespace Rodvin.Kernel.Mailbox

open Rodvin.Lib

/-! ## What the kernel and the GPU share -/

inductive Channel where
  | Power | FramebufferConfig | Property
  deriving DecidableEq, Repr

def Channel.number : Channel → UInt32
  | Power => 0
  | FramebufferConfig => 1
  | Property => 8

/-- The buffer of `property.cpp`. -/
structure PropertyBuffer where
  buffersize : UInt32
  code : UInt32
  tagid : UInt32
  bufsize : UInt32
  datasize : UInt32
  buffer : List UInt8
  deriving DecidableEq, Repr

/-- `framebuffer_data`. -/
structure FramebufferData where
  physwidth : UInt32
  physheight : UInt32
  virtwidth : UInt32
  virtheight : UInt32
  pitch : UInt32
  bpp : UInt32
  disp_x : UInt32
  disp_y : UInt32
  framebuffer : UInt32
  fb_size : UInt32
  deriving DecidableEq, Repr

structure Shared where
  prop : PropertyBuffer
  fb_config : FramebufferData
  deriving DecidableEq, Repr

/-- Where the two blocks are (`aligned(16)`), how many words a queue holds, and what the GPU does. -/
structure Board where
  propAddr : UInt32
  fbAddr : UInt32
  prop_aligned : propAddr &&& 0xF = 0
  fb_aligned : fbAddr &&& 0xF = 0
  depth : Nat
  property : PropertyBuffer → PropertyBuffer
  framebuffer : FramebufferData → FramebufferData

/-! ## The kernel -/

inductive Callback where
  | mailbox_ignore | power_cb | mode_cb | prop_cb
  deriving DecidableEq, Repr

structure Vars where
  shared : Shared
  cbs : Fin 16 → Callback
  got_prop_cb : Bool
  modeset_rv : UInt32
  powerEnabled : UInt32
  powerUpdate : Bool

def Vars.runCallback (k : Vars) (msg : UInt32) : Callback → Vars
  | .mailbox_ignore => k
  | .power_cb => { k with powerUpdate := true }
  | .mode_cb => { k with modeset_rv := msg }
  | .prop_cb => { k with got_prop_cb := true }

def target (val : UInt32) : Fin 16 := Fin.ofNat 16 (val &&& 0xF).toNat

/-- The body of the loop of `mailbox_poll`. -/
def Vars.dispatch (k : Vars) (val : UInt32) : Vars := k.runCallback (val &&& 0xFFFFFFF0) (k.cbs (target val))

def Vars.mailbox_register (k : Vars) (channel : Channel) (cb : Callback) : Vars :=
  { k with cbs := Function.update k.cbs (target channel.number) cb }

/-- What `property_read` is called with; `memcpy` has to stay inside the buffer. -/
structure PropertyArgs where
  id : UInt32
  length : UInt32
  inbuf : Option (List UInt8)
  size : UInt32
  fits : ∀ bs ∈ inbuf, bs.length = size.toNat ∧ bs.length ≤ 44

inductive PowerChannel where
  | UsbPower
  deriving DecidableEq, Repr

def PowerChannel.number : PowerChannel → UInt32
  | UsbPower => 3

inductive Call where
  | property_read (args : PropertyArgs)
  | setResolution (x y bufferCount : UInt32)
  | set_power (pc : PowerChannel) (on : Bool)

def Call.channel : Call → Channel
  | property_read _ => .Property
  | setResolution .. => .FramebufferConfig
  | set_power .. => .Power

def Call.callback : Call → Callback
  | property_read _ => .prop_cb
  | setResolution .. => .mode_cb
  | set_power .. => .power_cb

/-- What a call writes into the block it shares with the GPU. -/
def Call.prepare (m : Shared) : Call → Shared
  | property_read a => { m with prop := ⟨64, 0, a.id, a.length, a.size,
      match a.inbuf with
      | some bs => bs ++ m.prop.buffer.drop bs.length
      | none => m.prop.buffer⟩ }
  | setResolution x y n => { m with fb_config := { m.fb_config with
      physwidth := x, physheight := y, virtwidth := x, virtheight := n * y, bpp := 32, disp_x := 0, disp_y := 0 } }
  | set_power .. => m

/-- A call up to `mailbox_send`. -/
def Call.begin (k : Vars) (c : Call) : Vars :=
  match c with
  | property_read a =>
    { k with got_prop_cb := false, shared := (property_read a).prepare k.shared }.mailbox_register .Property .prop_cb
  | setResolution x y n => { k with modeset_rv := 0xFFFFFFFF, shared := (setResolution x y n).prepare k.shared }
  | set_power pc on =>
    let shiftedBit := (1 : UInt32) <<< (pc.number + 4)
    { k with
      powerEnabled := (k.powerEnabled &&& ~~~shiftedBit) ||| (if on then shiftedBit else 0)
      powerUpdate := false }.mailbox_register .Power .power_cb

def Call.message (b : Board) (k : Vars) : Call → UInt32
  | property_read _ => b.propAddr + 0x40000000
  | setResolution .. => b.fbAddr + 0x40000000
  | set_power .. => k.powerEnabled

/-- What the loop behind `mailbox_send` waits for. -/
def Call.done (k : Vars) : Call → Bool
  | property_read _ => k.got_prop_cb
  | setResolution .. => k.modeset_rv != 0xFFFFFFFF
  | set_power .. => k.powerUpdate

def Call.polls : Call → Bool
  | set_power .. => false
  | _ => true

/-- Where the kernel is in a call: in front of a look at the status or an access of the data
    register of `mailbox_send`, in front of the test of its own loop, in front of these two of
    `mailbox_poll`. -/
inductive Pc where
  | idle
  | status (c : Call)
  | write (c : Call)
  | waiting (c : Call)
  | polling (c : Call)
  | reading (c : Call)

/-- `working` are the words that the GPU has taken; `returned` the calls that have returned, with
    what the blocks held then; `dispatched` the words that callbacks were called for. -/
structure St where
  pc : Pc
  vars : Vars
  toGpu : List UInt32
  working : List UInt32
  toCpu : List UInt32
  returned : List (Call × Shared)
  dispatched : List UInt32

variable (b : Board)

/-- One step of the kernel; `none` is a write to a full queue or a read from an empty one. -/
def cpu (s : St) : Option St :=
  match s.pc with
  | .idle => some s
  | .status c => if b.depth ≤ s.toGpu.length then some s else some { s with pc := .write c }
  | .write c =>
    if b.depth ≤ s.toGpu.length then none
    else some { s with toGpu := s.toGpu ++ [c.message b s.vars ||| c.channel.number], pc := .waiting c }
  | .waiting c =>
    if c.done s.vars then some { s with pc := .idle, returned := s.returned ++ [(c, s.vars.shared)] }
    else if c.polls then some { s with pc := .polling c }
    else some s
  | .polling c => if s.toCpu = [] then some { s with pc := .waiting c } else some { s with pc := .reading c }
  | .reading c =>
    match s.toCpu with
    | [] => none
    | val :: rest =>
      some { s with pc := .polling c, vars := s.vars.dispatch val, toCpu := rest, dispatched := s.dispatched ++ [val] }

/-! ## The GPU, and everything together -/

def propMessage : UInt32 := (b.propAddr + 0x40000000) ||| Channel.Property.number

def fbMessage : UInt32 := (b.fbAddr + 0x40000000) ||| Channel.FramebufferConfig.number

/-- What the GPU does to the memory for a word. -/
def Board.serve (val : UInt32) (m : Shared) : Shared :=
  if val = propMessage b then { m with prop := b.property m.prop }
  else if val = fbMessage b then { m with fb_config := b.framebuffer m.fb_config }
  else m

inductive Event where
  | call (c : Call)
  | construct
  | cpu
  | take
  | answer (val : UInt32)
  | post (val : UInt32)

def channelOf (val : UInt32) : UInt32 := val &&& 0xF

/-- The words that callbacks wait for. -/
def isReply (val : UInt32) : Bool :=
  channelOf val == Channel.Property.number || channelOf val == Channel.FramebufferConfig.number

inductive Step : St → Event → St → Prop
  /-- Of a constructed framebuffer only, `setResolution`. -/
  | call {s : St} {c : Call} : s.pc = .idle → (c.channel = .FramebufferConfig → s.vars.cbs 1 = .mode_cb) →
      Step s (.call c) { s with pc := .status c, vars := c.begin s.vars }
  /-- `RpiFramebuffer::RpiFramebuffer`. -/
  | construct {s : St} : s.pc = .idle →
      Step s .construct { s with vars := s.vars.mailbox_register .FramebufferConfig .mode_cb }
  | cpu {s t : St} : cpu b s = some t → Step s .cpu t
  | take {s : St} {val : UInt32} {rest : List UInt32} : s.toGpu = val :: rest →
      Step s .take { s with toGpu := rest, working := s.working ++ [val] }
  /-- The GPU is done with one of its words, and answers on its channel. -/
  | answer {s : St} {val reply : UInt32} {xs ys : List UInt32} : s.working = xs ++ val :: ys →
      channelOf reply = channelOf val →
      Step s (.answer reply)
        { s with
          working := xs ++ ys, vars := { s.vars with shared := b.serve val s.vars.shared }, toCpu := s.toCpu ++ [reply] }
  /-- What nobody asked for. -/
  | post {s : St} {val : UInt32} : isReply val = false → Step s (.post val) { s with toCpu := s.toCpu ++ [val] }

/-! ## A caller with a server at hand -/

/-- The word that a call sends. -/
def Call.word : Call → UInt32
  | property_read _ => propMessage b
  | setResolution .. => fbMessage b
  | set_power .. => 0

/-- A call and its answer in one step. -/
def Call.apply (m : Shared) (c : Call) : Shared := b.serve (c.word b) (c.prepare m)

def replay (m : Shared) (cs : List Call) : Shared := cs.foldl (Call.apply b) m

end Rodvin.Kernel.Mailbox
