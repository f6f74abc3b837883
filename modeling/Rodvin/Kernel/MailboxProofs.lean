/-
  Rodvin.Kernel.MailboxProofs — calls over the mailboxes (see `Rodvin.Kernel.Mailbox`).

  At any moment the word of a call that has been sent is with the GPU, or its answer is in
  the queue, or its callback has been called (`Phase`). So in every interleaving:
  - `mailbox_refines`: a call returns with what the GPU makes of the block that it prepared
    (`replay`), and every word from the GPU reaches its callback once and in order.
  - `waits_only_for_gpu`: when the GPU has nothing left to do, a call that has been sent
    returns within two steps for each word in the queue, and three.
  - `set_power_never_returns`: it waits for its callback and does not poll.
-/

import Rodvin.Kernel.Mailbox

namespace Rodvin.Kernel.Mailbox

open Rodvin.Lib

variable (b : Board)

/-! ## Words and channels -/

theorem and_or_distrib (a n m : UInt32) : (a ||| n) &&& m = (a &&& m) ||| (n &&& m) := by
  refine UInt32.toBitVec_inj.mp ?_
  simp [BitVec.and_or_distrib_right]

theorem aligned_add {a : UInt32} (h : a &&& 0xF = 0) : (a + 0x40000000) &&& 0xF = 0 := by
  have h' := congrArg UInt32.toNat h
  refine UInt32.toNat_inj.mp ?_
  rw [UInt32.toNat_and] at h' ⊢
  rw [UInt32.toNat_add]
  have hmod : ∀ x : Nat, x &&& UInt32.toNat 0xF = x % 16 := fun x => Nat.and_two_pow_sub_one_eq_mod x 4
  rw [hmod] at h' ⊢
  have h' : a.toNat % 16 = 0 := h'
  show (a.toNat + 0x40000000) % 2 ^ 32 % 16 = 0
  omega

theorem channelOf_number (c : Channel) : channelOf c.number = c.number := by
  cases c
  · decide
  · decide
  · decide

theorem channelOf_or {a : UInt32} (h : a &&& 0xF = 0) (c : Channel) : channelOf (a ||| c.number) = c.number := by
  have hn : c.number &&& 0xF = c.number := channelOf_number c
  unfold channelOf
  rw [and_or_distrib, h, hn, UInt32.zero_or]

theorem channelOf_propMessage : channelOf (propMessage b) = Channel.Property.number :=
  channelOf_or (aligned_add b.prop_aligned) _

theorem channelOf_fbMessage : channelOf (fbMessage b) = Channel.FramebufferConfig.number :=
  channelOf_or (aligned_add b.fb_aligned) _

theorem target_eq_iff {v w : UInt32} : target v = target w ↔ channelOf v = channelOf w := by
  have hlt : ∀ x : UInt32, (x &&& 0xF).toNat < 16 := by
    intro x
    rw [UInt32.toNat_and]
    exact lt_of_le_of_lt Nat.and_le_right (by decide)
  constructor
  · intro h
    have h := congrArg Fin.val h
    unfold target at h
    rw [Fin.val_ofNat, Fin.val_ofNat, Nat.mod_eq_of_lt (hlt v), Nat.mod_eq_of_lt (hlt w)] at h
    exact UInt32.toNat_inj.mp h
  · intro h
    unfold target
    rw [show v &&& 0xF = w &&& 0xF from h]

/-- The block pointer of a reply has its channel's bits cleared, so it is not -1. -/
theorem masked_ne (val : UInt32) : val &&& 0xFFFFFFF0 ≠ 0xFFFFFFFF := by
  intro h
  have h' := congrArg (· &&& (0xF : UInt32)) h
  rw [UInt32.and_assoc, show (0xFFFFFFF0 : UInt32) &&& 0xF = 0 by decide, UInt32.and_zero] at h'
  exact absurd h' (by decide)

/-! ## The callbacks -/

variable {b : Board} {s t : St} {k : Vars} {c : Call} {m m₀ : Shared} {val reply : UInt32} {e : Event}
  {events : List Event}

@[simp] theorem shared_runCallback (k : Vars) (msg : UInt32) (cb : Callback) :
    (k.runCallback msg cb).shared = k.shared := by
  cases cb <;> rfl

@[simp] theorem cbs_runCallback (k : Vars) (msg : UInt32) (cb : Callback) : (k.runCallback msg cb).cbs = k.cbs := by
  cases cb <;> rfl

@[simp] theorem shared_dispatch (k : Vars) (val : UInt32) : (k.dispatch val).shared = k.shared := shared_runCallback ..

@[simp] theorem cbs_dispatch (k : Vars) (val : UInt32) : (k.dispatch val).cbs = k.cbs := cbs_runCallback ..

/-- No callback stands at a channel that is not its own. -/
def Own (cbs : Fin 16 → Callback) : Prop :=
  ∀ i, (cbs i = .prop_cb → i = target Channel.Property.number) ∧
    (cbs i = .mode_cb → i = target Channel.FramebufferConfig.number)

/-- A call that polls has its callback registered. -/
def Registered (k : Vars) (c : Call) : Prop := k.cbs (target c.channel.number) = c.callback

/-- What nobody waits for changes nothing that is waited for. -/
theorem done_dispatch_other (ho : Own k.cbs) (hv : isReply val = false) (hc : c.polls = true) :
    c.done (k.dispatch val) = c.done k := by
  have hprop : k.cbs (target val) ≠ .prop_cb := by
    intro h
    have := target_eq_iff.mp ((ho _).1 h)
    rw [channelOf_number] at this
    simp [isReply, this] at hv
  have hmode : k.cbs (target val) ≠ .mode_cb := by
    intro h
    have := target_eq_iff.mp ((ho _).2 h)
    rw [channelOf_number] at this
    simp [isReply, this] at hv
  unfold Vars.dispatch
  cases hcb : k.cbs (target val) with
  | mailbox_ignore => rfl
  | power_cb =>
    cases c with
    | property_read => rfl
    | setResolution => rfl
    | set_power => cases hc
  | mode_cb => exact absurd hcb hmode
  | prop_cb => exact absurd hcb hprop

/-- A word on the channel of the call ends its wait. -/
theorem done_dispatch (hr : Registered k c) (hv : channelOf val = c.channel.number) (hc : c.polls = true) :
    c.done (k.dispatch val) = true := by
  have ht : target val = target c.channel.number := target_eq_iff.mpr (hv.trans (channelOf_number _).symm)
  unfold Vars.dispatch
  rw [ht, hr]
  cases c with
  | property_read => rfl
  | setResolution => exact bne_iff_ne.mpr (masked_ne val)
  | set_power => cases hc

theorem own_register {k : Vars} (ho : Own k.cbs) {ch : Channel} {cb : Callback} (hp : cb = .prop_cb → ch = .Property)
    (hm : cb = .mode_cb → ch = .FramebufferConfig) : Own (k.mailbox_register ch cb).cbs := by
  intro i
  show (Function.update k.cbs (target ch.number) cb i = _ → _) ∧ (Function.update k.cbs (target ch.number) cb i = _ → _)
  by_cases hi : i = target ch.number
  · subst hi
    rw [Function.update_self]
    exact ⟨fun h => congrArg (fun c => target c.number) (hp h), fun h => congrArg (fun c => target c.number) (hm h)⟩
  · rw [Function.update_of_ne hi]
    exact ho i

/-! ## Where the word of a call is -/

def rpc (l : List UInt32) : List UInt32 := l.filter isReply

theorem isReply_word (hc : c.polls = true) : isReply (c.word b) = true := by
  cases c with
  | property_read =>
    show isReply (propMessage b) = true
    simp [isReply, channelOf_propMessage]
  | setResolution =>
    show isReply (fbMessage b) = true
    simp [isReply, channelOf_fbMessage]
  | set_power => cases hc

theorem channelOf_word (hc : c.polls = true) : channelOf (c.word b) = c.channel.number := by
  cases c with
  | property_read => exact channelOf_propMessage b
  | setResolution => exact channelOf_fbMessage b
  | set_power => cases hc

theorem isReply_of_channelOf (h : channelOf reply = channelOf val) : isReply reply = isReply val := by
  unfold isReply
  rw [h]

/-- The GPU does nothing for a word on a channel without calls. -/
theorem serve_other (hv : isReply val = false) (m : Shared) : b.serve val m = m := by
  unfold Board.serve
  rw [if_neg, if_neg]
  · rintro rfl
    simp [isReply, channelOf_fbMessage] at hv
  · rintro rfl
    simp [isReply, channelOf_propMessage] at hv

/-- In the loops behind `mailbox_send`. -/
def Loops (pc : Pc) (c : Call) : Prop := pc = .waiting c ∨ pc = .polling c ∨ pc = .reading c

/-- Where the kernel is, and where the word of its call; `m` is what the calls before have left. -/
inductive Phase (b : Board) (s : St) (m : Shared) : Prop
  | idle : s.pc = .idle → s.vars.shared = m → rpc (s.toGpu ++ s.working) = [] → rpc s.toCpu = [] → Phase b s m
  | unsent {c : Call} :
    s.pc = .status c ∨ s.pc = .write c → c.polls = true → Registered s.vars c → c.done s.vars = false →
      s.vars.shared = c.prepare m → rpc (s.toGpu ++ s.working) = [] → rpc s.toCpu = [] → Phase b s m
  | sent {c : Call} : Loops s.pc c → c.polls = true → Registered s.vars c → c.done s.vars = false →
      s.vars.shared = c.prepare m → rpc (s.toGpu ++ s.working) = [c.word b] → rpc s.toCpu = [] → Phase b s m
  | answered {c : Call} {reply : UInt32} : Loops s.pc c → c.polls = true → Registered s.vars c → c.done s.vars = false →
      s.vars.shared = c.apply b m → rpc (s.toGpu ++ s.working) = [] → rpc s.toCpu = [reply] →
      channelOf reply = c.channel.number → Phase b s m
  | delivered {c : Call} : Loops s.pc c → c.polls = true → c.done s.vars = true → s.vars.shared = c.apply b m →
      rpc (s.toGpu ++ s.working) = [] → rpc s.toCpu = [] → Phase b s m
  | power {c : Call} :
    s.pc = .status c ∨ s.pc = .write c ∨ s.pc = .waiting c → c.polls = false → c.done s.vars = false →
      Phase b s m

/-- Each call has returned with what the calls up to it make of `m₀`. -/
def Replayed (b : Board) (m₀ : Shared) (returned : List (Call × Shared)) : Prop :=
  ∀ i c m, returned[i]? = some (c, m) → m = replay b m₀ ((returned.take (i + 1)).map Prod.fst)

/-- `m₀` is what the blocks held at the start. -/
structure Inv (b : Board) (m₀ : Shared) (s : St) : Prop where
  own : Own s.vars.cbs
  history : Replayed b m₀ s.returned
  phase : Phase b s (replay b m₀ (s.returned.map Prod.fst))
  room : ∀ c, s.pc = .write c → s.toGpu.length < b.depth
  word : ∀ c, s.pc = .reading c → s.toCpu ≠ []

theorem rpc_append (l l' : List UInt32) : rpc (l ++ l') = rpc l ++ rpc l' := List.filter_append ..

theorem rpc_cons_of_not (l : List UInt32) (h : isReply val = false) : rpc (val :: l) = rpc l :=
  List.filter_cons_of_neg (by simp [h])

theorem rpc_cons_of (l : List UInt32) (h : isReply val = true) : rpc (val :: l) = val :: rpc l :=
  List.filter_cons_of_pos h

/-- The phase only looks at the words of calls. -/
theorem Phase.congr (h : Phase b s m) (hpc : t.pc = s.pc) (hvars : t.vars = s.vars)
    (hgpu : rpc (t.toGpu ++ t.working) = rpc (s.toGpu ++ s.working)) (hcpu : rpc t.toCpu = rpc s.toCpu) :
    Phase b t m := by
  cases h with
  | idle h1 h2 h3 h4 => exact .idle (hpc.trans h1) (hvars ▸ h2) (hgpu.trans h3) (hcpu.trans h4)
  | unsent h1 h2 h3 h4 h5 h6 h7 =>
    rw [← hpc] at h1
    rw [← hvars] at h3 h4 h5
    exact .unsent h1 h2 h3 h4 h5 (hgpu.trans h6) (hcpu.trans h7)
  | sent h1 h2 h3 h4 h5 h6 h7 =>
    rw [← hpc] at h1
    rw [← hvars] at h3 h4 h5
    exact .sent h1 h2 h3 h4 h5 (hgpu.trans h6) (hcpu.trans h7)
  | answered h1 h2 h3 h4 h5 h6 h7 h8 =>
    rw [← hpc] at h1
    rw [← hvars] at h3 h4 h5
    exact .answered h1 h2 h3 h4 h5 (hgpu.trans h6) (hcpu.trans h7) h8
  | delivered h1 h2 h3 h4 h5 h6 =>
    rw [← hpc] at h1
    rw [← hvars] at h3 h4
    exact .delivered h1 h2 h3 h4 (hgpu.trans h5) (hcpu.trans h6)
  | power h1 h2 h3 =>
    rw [← hpc] at h1
    rw [← hvars] at h3
    exact .power h1 h2 h3

/-! ## What the GPU does -/

theorem done_shared (k : Vars) (m : Shared) (c : Call) : c.done { k with shared := m } = c.done k := by
  cases c with
  | property_read => simp only [Call.done]
  | setResolution => simp only [Call.done]
  | set_power => simp only [Call.done]

/-- A word that is taken is still with the GPU. -/
theorem rpc_take {xs ys : List UInt32} {l : List UInt32} (h : rpc (val :: xs ++ ys) = l) (hl : l.length ≤ 1) :
    rpc (xs ++ (ys ++ [val])) = l := by
  have hperm : (rpc (xs ++ (ys ++ [val]))).Perm l := by
    rw [← h]
    refine List.Perm.filter _ ?_
    rw [← List.append_assoc, List.cons_append]
    exact List.perm_append_singleton ..
  cases l with
  | nil => exact List.perm_nil.mp hperm
  | cons a l =>
    obtain rfl : l = [] := List.length_eq_zero_iff.mp (by simpa using hl)
    exact List.perm_singleton.mp hperm

/-- At most one word of a call is with the GPU; of `set_power` none is waited for. -/
theorem Phase.one_or_power (h : Phase b s m) : (rpc (s.toGpu ++ s.working)).length ≤ 1 ∨
    ∀ t : St, t.pc = s.pc → t.vars.powerUpdate = s.vars.powerUpdate → Phase b t m := by
  cases h with
  | idle _ _ h => exact .inl (by simp [h])
  | unsent _ _ _ _ _ h => exact .inl (by simp [h])
  | sent _ _ _ _ _ h => exact .inl (by simp [h])
  | answered _ _ _ _ _ h => exact .inl (by simp [h])
  | delivered _ _ _ _ h => exact .inl (by simp [h])
  | @power c h1 h2 h3 =>
    refine .inr fun t hpc hupd => ?_
    rw [← hpc] at h1
    refine .power h1 h2 ?_
    cases c with
    | property_read => cases h2
    | setResolution => cases h2
    | set_power => exact hupd.trans h3

theorem Phase.take {rest : List UInt32} (h : Phase b s m) (hg : s.toGpu = val :: rest) :
    Phase b { s with toGpu := rest, working := s.working ++ [val] } m := by
  rcases h.one_or_power with hle | hp
  · exact h.congr rfl rfl (rpc_take (congrArg (fun l => rpc (l ++ s.working)) hg).symm hle) rfl
  · exact hp _ rfl rfl

/-- A word of a call is answered once. -/
theorem Phase.answer {xs ys : List UInt32} (h : Phase b s m) (hw : s.working = xs ++ val :: ys)
    (hr : channelOf reply = channelOf val) :
    Phase b { s with
      working := xs ++ ys
      vars := { s.vars with shared := b.serve val s.vars.shared }
      toCpu := s.toCpu ++ [reply] } m := by
  have hsplit : rpc (s.toGpu ++ s.working) = rpc (s.toGpu ++ xs) ++ rpc (val :: ys) := by
    rw [hw, ← List.append_assoc, rpc_append]
  have hrest : rpc (s.toGpu ++ (xs ++ ys)) = rpc (s.toGpu ++ xs) ++ rpc ys := by
    rw [← List.append_assoc, rpc_append]
  cases hv : isReply val with
  | false =>
    -- nothing that a call waits for
    have hreply := (isReply_of_channelOf hr).trans hv
    refine h.congr rfl ?_ ?_ ?_
    · dsimp only
      rw [serve_other hv]
    · dsimp only
      rw [hrest, hsplit, rpc_cons_of_not _ hv]
    · dsimp only
      rw [rpc_append, rpc_cons_of_not _ hreply]
      exact List.append_nil _
  | true =>
    rw [rpc_cons_of _ hv] at hsplit
    have hreply := (isReply_of_channelOf hr).trans hv
    cases h with
    | idle _ _ h3 => exact absurd (hsplit.symm.trans h3) (by simp)
    | unsent _ _ _ _ _ h6 => exact absurd (hsplit.symm.trans h6) (by simp)
    | answered _ _ _ _ _ h6 => exact absurd (hsplit.symm.trans h6) (by simp)
    | delivered _ _ _ _ h5 => exact absurd (hsplit.symm.trans h5) (by simp)
    | power h1 h2 h3 => exact .power h1 h2 ((done_shared ..).trans h3)
    | @sent c h1 h2 h3 h4 h5 h6 h7 =>
      obtain ⟨hnil, hcons⟩ : rpc (s.toGpu ++ xs) = [] ∧ val :: rpc ys = [c.word b] := by
        rcases List.append_eq_singleton_iff.mp (hsplit.symm.trans h6) with h | ⟨-, h⟩
        · exact h
        · cases h
      obtain ⟨rfl, hnil'⟩ := List.cons.inj hcons
      refine .answered h1 h2 h3 ?_ ?_ ?_ ?_ (hr.trans (channelOf_word h2))
      · exact (done_shared ..).trans h4
      · show b.serve (c.word b) s.vars.shared = b.serve (c.word b) (c.prepare m)
        rw [h5]
      · show rpc (s.toGpu ++ (xs ++ ys)) = []
        rw [hrest, hnil, hnil']
        rfl
      · show rpc (s.toCpu ++ [reply]) = [reply]
        rw [rpc_append, h7, rpc_cons_of _ hreply]
        rfl

/-! ## What the kernel does -/

/-- The steps of the kernel, with what each has seen. -/
inductive CpuStep (b : Board) (s : St) : St → Prop
  | rest : (∀ c, ¬ Loops s.pc c ∨ c.polls = false) → CpuStep b s s
  | room {c : Call} : s.pc = .status c → s.toGpu.length < b.depth → CpuStep b s { s with pc := .write c }
  | send {c : Call} : s.pc = .write c →
      CpuStep b s { s with toGpu := s.toGpu ++ [c.message b s.vars ||| c.channel.number], pc := .waiting c }
  | ret {c : Call} : s.pc = .waiting c → c.done s.vars = true →
      CpuStep b s { s with pc := .idle, returned := s.returned ++ [(c, s.vars.shared)] }
  | poll {c : Call} : s.pc = .waiting c → c.polls = true → CpuStep b s { s with pc := .polling c }
  | empty {c : Call} : s.pc = .polling c → s.toCpu = [] → CpuStep b s { s with pc := .waiting c }
  | word {c : Call} : s.pc = .polling c → s.toCpu ≠ [] → CpuStep b s { s with pc := .reading c }
  | dispatch {c : Call} {val : UInt32} {rest : List UInt32} : s.pc = .reading c → s.toCpu = val :: rest →
      CpuStep b s { s with
        pc := .polling c
        vars := s.vars.dispatch val
        toCpu := rest
        dispatched := s.dispatched ++ [val] }

theorem cpu_step (h : cpu b s = some t) : CpuStep b s t := by
  unfold cpu at h
  cases hpc : s.pc with
  | idle =>
    rw [hpc] at h
    obtain rfl := Option.some.inj h
    exact .rest fun c => .inl (by simp [Loops, hpc])
  | status c =>
    rw [hpc] at h
    dsimp only at h
    split at h
    · obtain rfl := Option.some.inj h
      exact .rest fun c => .inl (by simp [Loops, hpc])
    · obtain rfl := Option.some.inj h
      exact .room hpc (by omega)
  | write c =>
    rw [hpc] at h
    dsimp only at h
    split at h
    · cases h
    · obtain rfl := Option.some.inj h
      exact .send hpc
  | waiting c =>
    rw [hpc] at h
    dsimp only at h
    split at h
    next hd =>
      obtain rfl := Option.some.inj h
      exact .ret hpc hd
    next =>
      split at h
      next hp =>
        obtain rfl := Option.some.inj h
        exact .poll hpc hp
      next hp =>
        obtain rfl := Option.some.inj h
        refine .rest fun c' => ?_
        by_cases hc : c' = c
        · exact .inr (hc ▸ Bool.eq_false_iff.mpr hp)
        · exact .inl (by simp [Loops, hpc, Ne.symm hc])
  | polling c =>
    rw [hpc] at h
    dsimp only at h
    split at h
    next he =>
      obtain rfl := Option.some.inj h
      exact .empty hpc he
    next he =>
      obtain rfl := Option.some.inj h
      exact .word hpc he
  | reading c =>
    rw [hpc] at h
    cases hq : s.toCpu with
    | nil =>
      rw [hq] at h
      cases h
    | cons val rest =>
      rw [hq] at h
      obtain rfl := Option.some.inj h
      exact .dispatch hpc hq

theorem Phase.call (h : Phase b s m) (hpc : s.pc = .idle)
    (hc : c.channel = .FramebufferConfig → s.vars.cbs 1 = .mode_cb) :
    Phase b { s with pc := .status c, vars := c.begin s.vars } m := by
  cases h with
  | idle _ h2 h3 h4 =>
    cases c with
    | property_read a =>
      exact .unsent (.inl rfl) rfl (Function.update_self ..) rfl
        (congrArg (fun m => (Call.property_read a).prepare m) h2) h3 h4
    | setResolution x y n =>
      have hreg : s.vars.cbs (target Channel.FramebufferConfig.number) = .mode_cb := hc rfl
      exact .unsent (.inl rfl) rfl hreg (bne_self_eq_false _)
        (congrArg (fun m => (Call.setResolution x y n).prepare m) h2) h3 h4
    | set_power pc on => exact .power (.inl rfl) rfl rfl
  | unsent h => simp [hpc] at h
  | sent h => simp [Loops, hpc] at h
  | answered h => simp [Loops, hpc] at h
  | delivered h => simp [Loops, hpc] at h
  | power h => simp [hpc] at h

theorem Loops.inj {pc : Pc} {c c' : Call} (h : Loops pc c) (h' : Loops pc c') : c = c' := by
  rcases h with rfl | rfl | rfl
  · simpa [Loops, eq_comm] using h'
  · simpa [Loops, eq_comm] using h'
  · simpa [Loops, eq_comm] using h'

/-- Moving about in the loops of a call that polls. -/
theorem Phase.move (h : Phase b s m) (hs : Loops s.pc c) (hc : c.polls = true) {pc : Pc} (ht : Loops pc c) :
    Phase b { s with pc := pc } m := by
  cases h with
  | idle h => simp [Loops, h] at hs
  | unsent h =>
    rcases h with h | h
    · simp [Loops, h] at hs
    · simp [Loops, h] at hs
  | sent h1 h2 h3 h4 h5 h6 h7 =>
    obtain rfl := h1.inj hs
    exact .sent ht h2 h3 h4 h5 h6 h7
  | answered h1 h2 h3 h4 h5 h6 h7 h8 =>
    obtain rfl := h1.inj hs
    exact .answered ht h2 h3 h4 h5 h6 h7 h8
  | delivered h1 h2 h3 h4 h5 h6 =>
    obtain rfl := h1.inj hs
    exact .delivered ht h2 h3 h4 h5 h6
  | @power c' h1 h2 h3 =>
    rcases h1 with h1 | h1 | h1
    · simp [Loops, h1] at hs
    · simp [Loops, h1] at hs
    · obtain rfl : c' = c := by simpa [Loops, h1] using hs
      rw [hc] at h2
      cases h2

theorem Phase.polls (h : Phase b s m) (hpc : s.pc = .polling c) : c.polls = true := by
  have hs : Loops s.pc c := .inr (.inl hpc)
  cases h with
  | idle h => simp [hpc] at h
  | unsent h => simp [hpc] at h
  | sent h1 h2 => exact h1.inj hs ▸ h2
  | answered h1 h2 => exact h1.inj hs ▸ h2
  | delivered h1 h2 => exact h1.inj hs ▸ h2
  | power h => simp [hpc] at h

/-- A word of the queue reaches its callback. -/
theorem Phase.dispatch {rest : List UInt32} (h : Phase b s m) (ho : Own s.vars.cbs) (hpc : s.pc = .reading c)
    (hq : s.toCpu = val :: rest) :
    Phase b { s with
      pc := .polling c
      vars := s.vars.dispatch val
      toCpu := rest
      dispatched := s.dispatched ++ [val] } m := by
  have hs : Loops s.pc c := .inr (.inr hpc)
  have ht : Loops (.polling c) c := .inr (.inl rfl)
  have hother : rpc s.toCpu = [] → isReply val = false ∧ rpc rest = [] := by
    intro h
    rw [hq] at h
    cases hv : isReply val with
    | true => rw [rpc_cons_of _ hv] at h; cases h
    | false => exact ⟨rfl, by rwa [rpc_cons_of_not _ hv] at h⟩
  cases h with
  | idle h => simp [hpc] at h
  | unsent h => simp [hpc] at h
  | power h => simp [hpc] at h
  | sent h1 h2 h3 h4 h5 h6 h7 =>
    obtain rfl := h1.inj hs
    obtain ⟨hv, hrest⟩ := hother h7
    refine .sent ht h2 ?_ ?_ ((shared_dispatch ..).trans h5) h6 hrest
    · exact (congrFun (cbs_dispatch ..) _).trans h3
    · exact (done_dispatch_other ho hv h2).trans h4
  | delivered h1 h2 h3 h4 h5 h6 =>
    obtain rfl := h1.inj hs
    obtain ⟨hv, hrest⟩ := hother h6
    exact .delivered ht h2 ((done_dispatch_other ho hv h2).trans h3) ((shared_dispatch ..).trans h4) h5 hrest
  | @answered _ reply h1 h2 h3 h4 h5 h6 h7 h8 =>
    obtain rfl := h1.inj hs
    rw [hq] at h7
    cases hv : isReply val with
    | true =>
      rw [rpc_cons_of _ hv] at h7
      obtain ⟨rfl, hrest⟩ := List.cons.inj h7
      exact .delivered ht h2 (done_dispatch h3 h8 h2) ((shared_dispatch ..).trans h5) h6 hrest
    | false =>
      rw [rpc_cons_of_not _ hv] at h7
      refine .answered ht h2 ?_ ?_ ((shared_dispatch ..).trans h5) h6 h7 h8
      · exact (congrFun (cbs_dispatch ..) _).trans h3
      · exact (done_dispatch_other ho hv h2).trans h4

theorem word_eq (hc : c.polls = true) (k : Vars) : c.message b k ||| c.channel.number = c.word b := by
  cases c with
  | property_read => rfl
  | setResolution => rfl
  | set_power => cases hc

theorem Phase.send (h : Phase b s m) (hpc : s.pc = .write c) :
    Phase b { s with toGpu := s.toGpu ++ [c.message b s.vars ||| c.channel.number], pc := .waiting c } m := by
  cases h with
  | idle h => simp [hpc] at h
  | sent h => simp [Loops, hpc] at h
  | answered h => simp [Loops, hpc] at h
  | delivered h => simp [Loops, hpc] at h
  | @unsent c' h1 h2 h3 h4 h5 h6 h7 =>
    obtain rfl : c = c' := by simpa [hpc] using h1
    refine .sent (.inl rfl) h2 h3 h4 h5 ?_ h7
    rw [rpc_append] at h6
    obtain ⟨h6, h6'⟩ := List.append_eq_nil_iff.mp h6
    dsimp only
    rw [rpc_append, rpc_append, h6, h6', word_eq h2, rpc_cons_of _ (isReply_word h2)]
    rfl
  | @power c' h1 h2 h3 =>
    obtain rfl : c = c' := by simpa [hpc] using h1
    exact .power (.inr (.inr rfl)) h2 h3

/-- A call that returns has been answered. -/
theorem Phase.ret (h : Phase b s m) (hpc : s.pc = .waiting c) (hd : c.done s.vars = true)
    {returned : List (Call × Shared)} :
    s.vars.shared = c.apply b m ∧ Phase b { s with pc := .idle, returned := returned } (c.apply b m) := by
  have hs : Loops s.pc c := .inl hpc
  cases h with
  | idle h => simp [hpc] at h
  | unsent h => simp [hpc] at h
  | sent h1 _ _ h4 =>
    obtain rfl := h1.inj hs
    rw [hd] at h4
    cases h4
  | answered h1 _ _ h4 =>
    obtain rfl := h1.inj hs
    rw [hd] at h4
    cases h4
  | delivered h1 h2 h3 h4 h5 h6 =>
    obtain rfl := h1.inj hs
    exact ⟨h4, .idle rfl h4 h5 h6⟩
  | @power c' h1 _ h3 =>
    obtain rfl : c = c' := by simpa [hpc] using h1
    rw [hd] at h3
    cases h3

/-! ## Every step keeps the invariant -/

theorem replay_concat (m : Shared) (cs : List Call) (c : Call) :
    replay b m (cs ++ [c]) = c.apply b (replay b m cs) := by
  unfold replay
  rw [List.foldl_append]
  rfl

theorem Replayed.concat {returned : List (Call × Shared)} (h : Replayed b m₀ returned)
    (hm : m = c.apply b (replay b m₀ (returned.map Prod.fst))) : Replayed b m₀ (returned ++ [(c, m)]) := by
  intro i c' m' hi
  by_cases hlt : i < returned.length
  · rw [List.getElem?_append_left hlt] at hi
    rw [List.take_append_of_le_length hlt]
    exact h i c' m' hi
  · obtain ⟨hlen, -⟩ := List.getElem?_eq_some_iff.mp hi
    rw [List.length_append, List.length_singleton] at hlen
    obtain rfl : i = returned.length := by omega
    rw [List.getElem?_concat_length] at hi
    obtain ⟨rfl, rfl⟩ := Prod.mk.inj (Option.some.inj hi)
    rw [List.take_of_length_le (by simp), List.map_append, List.map_singleton, replay_concat]
    exact hm

theorem Inv.cpu (h : Inv b m₀ s) (hs : CpuStep b s t) : Inv b m₀ t := by
  obtain ⟨ho, hh, hp, hroom, hword⟩ := h
  cases hs with
  | rest => exact ⟨ho, hh, hp, hroom, hword⟩
  | @room c hpc hlt =>
    refine ⟨ho, hh, ?_, fun _ _ => hlt, nofun⟩
    cases hp with
    | idle h => simp [hpc] at h
    | unsent h1 h2 h3 h4 h5 h6 h7 =>
      obtain rfl := by simpa [hpc] using h1
      exact .unsent (.inr rfl) h2 h3 h4 h5 h6 h7
    | sent h => simp [Loops, hpc] at h
    | answered h => simp [Loops, hpc] at h
    | delivered h => simp [Loops, hpc] at h
    | power h1 h2 h3 =>
      obtain rfl := by simpa [hpc] using h1
      exact .power (.inr (.inl rfl)) h2 h3
  | send hpc => exact ⟨ho, hh, hp.send hpc, nofun, nofun⟩
  | @ret c hpc hd =>
    obtain ⟨hm, hp⟩ := hp.ret hpc hd
    refine ⟨ho, hh.concat hm, ?_, nofun, nofun⟩
    dsimp only
    rw [List.map_append, List.map_singleton, replay_concat]
    exact hp
  | poll hpc hc => exact ⟨ho, hh, hp.move (.inl hpc) hc (.inr (.inl rfl)), nofun, nofun⟩
  | empty hpc hq => exact ⟨ho, hh, hp.move (.inr (.inl hpc)) (hp.polls hpc) (.inl rfl), nofun, nofun⟩
  | word hpc hq =>
    exact ⟨ho, hh, hp.move (.inr (.inl hpc)) (hp.polls hpc) (.inr (.inr rfl)), nofun, fun _ _ => hq⟩
  | dispatch hpc hq =>
    refine ⟨?_, hh, hp.dispatch ho hpc hq, nofun, nofun⟩
    rw [cbs_dispatch]
    exact ho

theorem own_begin (c : Call) (ho : Own k.cbs) : Own (c.begin k).cbs := by
  cases c with
  | property_read a =>
    exact own_register (k := { k with got_prop_cb := false, shared := _ }) ho (fun _ => rfl) nofun
  | setResolution => exact ho
  | set_power pc on => exact own_register (k := { k with powerEnabled := _, powerUpdate := false }) ho nofun nofun

theorem Inv.step (h : Inv b m₀ s) (hs : Step b s e t) : Inv b m₀ t := by
  obtain ⟨ho, hh, hp, hroom, hword⟩ := h
  cases hs with
  | call hpc hc => exact ⟨own_begin _ ho, hh, hp.call hpc hc, nofun, nofun⟩
  | construct hpc =>
    refine ⟨own_register ho nofun (fun _ => rfl), hh, ?_, hroom, hword⟩
    cases hp with
    | idle h1 h2 h3 h4 => exact .idle h1 h2 h3 h4
    | unsent h => simp [hpc] at h
    | sent h => simp [Loops, hpc] at h
    | answered h => simp [Loops, hpc] at h
    | delivered h => simp [Loops, hpc] at h
    | power h => simp [hpc] at h
  | cpu hs => exact Inv.cpu ⟨ho, hh, hp, hroom, hword⟩ (cpu_step hs)
  | take hg =>
    refine ⟨ho, hh, hp.take hg, fun c hc => ?_, hword⟩
    have := hroom c hc
    rw [hg, List.length_cons] at this
    exact Nat.lt_of_succ_lt this
  | answer hw hr => exact ⟨ho, hh, hp.answer hw hr, hroom, fun _ _ => by simp⟩
  | post hv =>
    refine ⟨ho, hh, hp.congr rfl rfl rfl ?_, hroom, fun _ _ => by simp⟩
    dsimp only
    rw [rpc_append, rpc_cons_of_not _ hv]
    exact List.append_nil _

/-! ## Whole runs -/

/-- Between calls, and nothing of a call on its way. -/
structure Start (s : St) : Prop where
  idle : s.pc = .idle
  own : Own s.vars.cbs
  gpu : rpc (s.toGpu ++ s.working) = []
  cpu : rpc s.toCpu = []
  returned : s.returned = []
  dispatched : s.dispatched = []

theorem Start.inv (h : Start s) : Inv b s.vars.shared s := by
  refine ⟨h.own, ?_, ?_, fun c hc => ?_, fun c hc => ?_⟩
  · rw [h.returned]
    exact nofun
  · rw [h.returned]
    exact .idle h.idle rfl h.gpu h.cpu
  · rw [h.idle] at hc
    cases hc
  · rw [h.idle] at hc
    cases hc

def Pc.call? : Pc → Option Call
  | .idle => none
  | .status c => some c
  | .write c => some c
  | .waiting c => some c
  | .polling c => some c
  | .reading c => some c

/-- The calls that have been made, the one that goes on included. -/
def St.calls (s : St) : List Call := s.returned.map Prod.fst ++ s.pc.call?.toList

def Event.call? : Event → Option Call
  | .call c => some c
  | _ => none

/-- The word that the GPU sends. -/
def Event.word? : Event → Option UInt32
  | .answer val => some val
  | .post val => some val
  | _ => none

theorem calls_step (hs : Step b s e t) : t.calls = s.calls ++ e.call?.toList := by
  cases hs with
  | @call c hpc _ => simp [St.calls, hpc, Pc.call?, Event.call?]
  | construct => simp [St.calls, Event.call?]
  | cpu hs =>
    cases cpu_step hs with
    | rest => simp [Event.call?]
    | room hpc => simp [St.calls, hpc, Pc.call?, Event.call?]
    | send hpc => simp [St.calls, hpc, Pc.call?, Event.call?]
    | ret hpc => simp [St.calls, hpc, Pc.call?, Event.call?]
    | poll hpc => simp [St.calls, hpc, Pc.call?, Event.call?]
    | empty hpc => simp [St.calls, hpc, Pc.call?, Event.call?]
    | word hpc => simp [St.calls, hpc, Pc.call?, Event.call?]
    | dispatch hpc => simp [St.calls, hpc, Pc.call?, Event.call?]
  | take => simp [St.calls, Event.call?]
  | answer => simp [St.calls, Event.call?]
  | post => simp [St.calls, Event.call?]

theorem words_step (hs : Step b s e t) : t.dispatched ++ t.toCpu = s.dispatched ++ s.toCpu ++ e.word?.toList := by
  cases hs with
  | call => simp [Event.word?]
  | construct => simp [Event.word?]
  | cpu hs =>
    cases cpu_step hs with
    | rest => simp [Event.word?]
    | room => simp [Event.word?]
    | send => simp [Event.word?]
    | ret => simp [Event.word?]
    | poll => simp [Event.word?]
    | empty => simp [Event.word?]
    | word => simp [Event.word?]
    | dispatch _ hq => simp [Event.word?, hq]
  | take => simp [Event.word?]
  | answer => simp [Event.word?]
  | post => simp [Event.word?]

/-- What each event adds at the end of a list is there at the end of a run. -/
theorem added_run {α : Type} {f : St → List α} {g : Event → Option α}
    (hstep : ∀ s e t, Step b s e t → f t = f s ++ (g e).toList) (hrun : Run (Step b) s events t) :
    f t = f s ++ events.filterMap g := by
  induction hrun with
  | nil => simp
  | @cons _ _ _ e _ hs _ ih =>
    rw [ih, hstep _ _ _ hs, List.append_assoc]
    cases hg : g e with
    | none => simp [hg]
    | some x => simp [hg]

/-- The calls are those of a caller with a server at hand, and the callbacks get the words. -/
theorem mailbox_refines (h : Start s) (hrun : Run (Step b) s events t) :
    Replayed b s.vars.shared t.returned ∧ t.calls = events.filterMap Event.call? ∧
    t.dispatched ++ t.toCpu = s.toCpu ++ events.filterMap Event.word? ∧ cpu b t ≠ none := by
  have hinv : Inv b s.vars.shared t := hrun.invariant (fun _ _ _ hi hs => hi.step hs) h.inv
  refine ⟨hinv.history, ?_, ?_, ?_⟩
  · rw [added_run (fun _ _ _ => calls_step) hrun, St.calls, h.returned, h.idle]
    rfl
  · rw [added_run (f := fun s => s.dispatched ++ s.toCpu) (fun _ _ _ => words_step) hrun, h.dispatched]
    rfl
  · unfold cpu
    cases hpc : t.pc with
    | idle => simp
    | status c => dsimp only; split <;> simp
    | write c =>
      dsimp only
      rw [if_neg (Nat.not_le.mpr (hinv.room c hpc))]
      simp
    | waiting c => dsimp only; split <;> (try split) <;> simp
    | polling c => dsimp only; split <;> simp
    | reading c =>
      cases hq : t.toCpu with
      | nil => exact absurd hq (hinv.word c hpc)
      | cons val rest => simp

/-! ## Returning -/

/-- Steps of the kernel alone. -/
def runCpu (b : Board) : Nat → St → Option St
  | 0, s => some s
  | n + 1, s => (cpu b s).bind (runCpu b n)

theorem runCpu_run {n : Nat} (h : runCpu b n s = some t) : Run (Step b) s (List.replicate n .cpu) t := by
  induction n generalizing s with
  | zero => exact (Option.some.inj h) ▸ .nil s
  | succ n ih =>
    obtain ⟨u, hu, h⟩ := Option.bind_eq_some_iff.mp h
    exact .cons (.cpu hu) (ih h)

theorem runCpu_succ {n : Nat} {u : St} (h : cpu b s = some u) (h' : runCpu b n u = some t) :
    runCpu b (n + 1) s = some t :=
  Option.bind_eq_some_iff.mpr ⟨u, h, h'⟩

theorem runCpu_add {n k : Nat} {u : St} (h : runCpu b n s = some u) (h' : runCpu b k u = some t) :
    runCpu b (n + k) s = some t := by
  induction n generalizing s with
  | zero =>
    obtain rfl := Option.some.inj h
    rwa [Nat.zero_add]
  | succ n ih =>
    obtain ⟨v, hv, h⟩ := Option.bind_eq_some_iff.mp h
    rw [Nat.add_right_comm]
    exact runCpu_succ hv (ih h)

/-- `mailbox_poll` empties the queue. -/
theorem poll_drains {l : List UInt32} (hpc : s.pc = .polling c) (hq : s.toCpu = l) :
    ∃ t, runCpu b (2 * l.length + 1) s = some t ∧
    t.pc = .waiting c ∧ t.toCpu = [] ∧ t.toGpu = s.toGpu ∧ t.working = s.working ∧ t.returned = s.returned := by
  induction l generalizing s with
  | nil =>
    have hstep : cpu b s = some { s with pc := .waiting c } := by
      unfold cpu
      rw [hpc]
      exact if_pos hq
    exact ⟨_, runCpu_succ hstep rfl, rfl, hq, rfl, rfl, rfl⟩
  | cons val l ih =>
    have hlook : cpu b s = some { s with pc := .reading c } := by
      unfold cpu
      rw [hpc]
      exact if_neg (by simp [hq])
    have hread : cpu b { s with pc := .reading c } = some { s with
        pc := .polling c
        vars := s.vars.dispatch val
        toCpu := l
        dispatched := s.dispatched ++ [val] } := by
      unfold cpu
      dsimp only
      rw [hq]
    obtain ⟨t, ht, h1, h2, h3, h4, h5⟩ := ih (s := { s with
        pc := .polling c
        vars := s.vars.dispatch val
        toCpu := l
        dispatched := s.dispatched ++ [val] }) rfl rfl
    exact ⟨t, runCpu_succ hlook (runCpu_succ hread ht), h1, h2, h3, h4, h5⟩

theorem Inv.runCpu {n : Nat} (h : Inv b m₀ s) (hr : runCpu b n s = some t) : Inv b m₀ t :=
  (runCpu_run hr).invariant (fun _ _ _ hi hs => hi.step hs) h

/-- With no word of a call on its way, its callback has been called. -/
theorem Inv.done_of_none (h : Inv b m₀ s) (hpc : s.pc = .waiting c) (hc : c.polls = true) (hg : s.toGpu = [])
    (hw : s.working = [])
    (hq : s.toCpu = []) : c.done s.vars = true := by
  have hs : Loops s.pc c := .inl hpc
  cases h.phase with
  | idle h => simp [hpc] at h
  | unsent h => simp [hpc] at h
  | sent _ _ _ _ _ h6 => simp [hg, hw, rpc] at h6
  | answered _ _ _ _ _ _ h7 => simp [hq, rpc] at h7
  | delivered h1 _ h3 => exact h1.inj hs ▸ h3
  | @power c' h1 h2 =>
    obtain rfl : c = c' := by simpa [hpc] using h1
    rw [hc] at h2
    cases h2

/-- From `mailbox_poll` with nothing left at the GPU. -/
theorem Inv.returns_polling (h : Inv b m₀ s) (hpc : s.pc = .polling c) (hg : s.toGpu = []) (hw : s.working = []) :
    ∃ t, Mailbox.runCpu b (2 * s.toCpu.length + 2) s = some t ∧ t.pc = .idle ∧
      t.returned.map Prod.fst = s.returned.map Prod.fst ++ [c] := by
  obtain ⟨u, hu, hupc, hq, hg', hw', hret⟩ := poll_drains (b := b) hpc rfl
  have hd := (h.runCpu hu).done_of_none hupc (h.phase.polls hpc) (hg'.trans hg) (hw'.trans hw) hq
  have hstep : Mailbox.cpu b u = some { u with pc := .idle, returned := u.returned ++ [(c, u.vars.shared)] } := by
    unfold Mailbox.cpu
    rw [hupc]
    exact if_pos hd
  exact ⟨_, runCpu_add (k := 1) hu (runCpu_succ hstep rfl), rfl, by simp [hret]⟩

/-- A call that has been sent returns, once the GPU has nothing left to do. -/
theorem waits_only_for_gpu (h : Start s) (hrun : Run (Step b) s events t) (hpc : Loops t.pc c) (hc : c.polls = true)
    (hg : t.toGpu = []) (hw : t.working = []) :
    ∃ n ≤ 2 * t.toCpu.length + 3, ∃ u, runCpu b n t = some u ∧ u.pc = .idle ∧
      u.returned.map Prod.fst = t.returned.map Prod.fst ++ [c] := by
  have hinv : Inv b s.vars.shared t := hrun.invariant (fun _ _ _ hi hs => hi.step hs) h.inv
  rcases hpc with hpc | hpc | hpc
  · cases hd : c.done t.vars with
    | true =>
      have hstep : cpu b t = some { t with pc := .idle, returned := t.returned ++ [(c, t.vars.shared)] } := by
        unfold cpu
        rw [hpc]
        exact if_pos hd
      exact ⟨1, by omega, _, runCpu_succ hstep rfl, rfl, by simp⟩
    | false =>
      have hstep : cpu b t = some { t with pc := .polling c } := by
        unfold cpu
        rw [hpc]
        dsimp only
        rw [hd, if_neg (by simp), if_pos hc]
      have hinv' : Inv b s.vars.shared { t with pc := .polling c } := hinv.step (.cpu hstep)
      obtain ⟨u, hu, hidle, hret⟩ := hinv'.returns_polling rfl hg hw
      exact ⟨_, le_refl _, u, runCpu_succ hstep hu, hidle, hret⟩
  · obtain ⟨u, hu, hidle, hret⟩ := hinv.returns_polling hpc hg hw
    exact ⟨_, by omega, u, hu, hidle, hret⟩
  · obtain ⟨val, rest, hq⟩ := List.exists_cons_of_ne_nil (hinv.word c hpc)
    have hstep : cpu b t = some { t with
        pc := .polling c
        vars := t.vars.dispatch val
        toCpu := rest
        dispatched := t.dispatched ++ [val] } := by
      unfold cpu
      rw [hpc]
      dsimp only
      rw [hq]
    obtain ⟨u, hu, hidle, hret⟩ := (hinv.step (.cpu hstep)).returns_polling rfl hg hw
    refine ⟨2 * rest.length + 2 + 1, ?_, u, runCpu_succ hstep hu, hidle, hret⟩
    rw [hq, List.length_cons]
    omega

/-! ## A board -/

def board : Board where
  propAddr := 0x1000
  fbAddr := 0x2000
  prop_aligned := by decide
  fb_aligned := by decide
  depth := 8
  property p := { p with code := 0x80000000, buffer := List.replicate 44 7 }
  framebuffer f := { f with pitch := 4 * f.physwidth, framebuffer := 0x1C000000 }

def blank : St where
  pc := .idle
  vars :=
    ⟨⟨⟨0, 0, 0, 0, 0, List.replicate 44 0⟩, ⟨0, 0, 0, 0, 0, 0, 0, 0, 0, 0⟩⟩, fun _ => .mailbox_ignore, false, 0, 0,
      false⟩
  toGpu := []
  working := []
  toCpu := []
  returned := []
  dispatched := []

theorem blank_start : Start blank := ⟨rfl, fun _ => ⟨nofun, nofun⟩, rfl, rfl, rfl, rfl⟩

/-- `setup_memory` asks for the memory of the CPU. -/
def memQuery : Call := .property_read ⟨0x10005, 16, none, 0, nofun⟩

/-- The query up to its answer. -/
theorem memQuery_answered : ∃ t, Run (Step board) blank [.call memQuery, .cpu, .cpu, .take, .answer 0x40001008] t ∧
    t.pc = .waiting memQuery ∧ t.toGpu = [] ∧ t.working = [] ∧ t.toCpu.length = 1 :=
  ⟨_, .cons (.call rfl nofun) (.cons (.cpu rfl) (.cons (.cpu rfl) (.cons (.take rfl)
    (.cons (.answer rfl rfl) (.nil _))))), rfl, rfl, rfl, rfl⟩

/-- The query with its return: the answer is polled for, read and dispatched. -/
theorem memQuery_returned : ∃ t, Run (Step board) blank
      [.call memQuery, .cpu, .cpu, .take, .answer 0x40001008, .cpu, .cpu, .cpu, .cpu, .cpu] t ∧
    t.pc = .idle ∧ t.returned.map Prod.fst = [memQuery] :=
  ⟨_, .cons (.call rfl nofun) (.cons (.cpu rfl) (.cons (.cpu rfl) (.cons (.take rfl) (.cons (.answer rfl rfl)
    (.cons (.cpu rfl) (.cons (.cpu rfl) (.cons (.cpu rfl) (.cons (.cpu rfl) (.cons (.cpu rfl) (.nil _)))))))))),
    rfl, rfl⟩

theorem mailbox_refines_query : ∃ t, Run (Step board) blank
      [.call memQuery, .cpu, .cpu, .take, .answer 0x40001008, .cpu, .cpu, .cpu, .cpu, .cpu] t ∧
    t.pc = .idle ∧ t.returned.map Prod.fst = [memQuery] ∧ Replayed board blank.vars.shared t.returned ∧
      t.calls = [memQuery] ∧ t.dispatched ++ t.toCpu = [0x40001008] := by
  obtain ⟨t, hrun, hpc, hreturned⟩ := memQuery_returned
  obtain ⟨hreplayed, hcalls, hwords, -⟩ := mailbox_refines blank_start hrun
  exact ⟨t, hrun, hpc, hreturned, hreplayed, hcalls, hwords⟩

theorem waits_only_for_gpu_query :
    ∃ t, Run (Step board) blank [.call memQuery, .cpu, .cpu, .take, .answer 0x40001008] t ∧
    ∃ n ≤ 5, ∃ u, runCpu board n t = some u ∧ u.pc = .idle := by
  obtain ⟨t, hrun, hpc, hg, hw, hl⟩ := memQuery_answered
  obtain ⟨n, hn, u, hu, hidle, -⟩ := waits_only_for_gpu blank_start hrun (.inl hpc) rfl hg hw
  rw [hl] at hn
  exact ⟨t, hrun, n, hn, u, hu, hidle⟩

/-! ## `set_power` -/

/-- In `set_power`, and its callback not called. -/
def Stuck (s : St) : Prop :=
  ∃ c : Call, c.polls = false ∧ c.done s.vars = false ∧ (s.pc = .status c ∨ s.pc = .write c ∨ s.pc = .waiting c)

theorem Stuck.step (h : Stuck s) (hs : Step b s e t) : Stuck t := by
  obtain ⟨c, hc, hd, hpc⟩ := h
  cases hs with
  | call h => simp [h] at hpc
  | construct h => simp [h] at hpc
  | take => exact ⟨c, hc, hd, hpc⟩
  | answer => exact ⟨c, hc, (done_shared ..).trans hd, hpc⟩
  | post => exact ⟨c, hc, hd, hpc⟩
  | cpu hs =>
    cases cpu_step hs with
    | rest => exact ⟨c, hc, hd, hpc⟩
    | room h =>
      obtain rfl := by simpa [h] using hpc
      exact ⟨_, hc, hd, .inr (.inl rfl)⟩
    | send h =>
      obtain rfl := by simpa [h] using hpc
      exact ⟨_, hc, hd, .inr (.inr rfl)⟩
    | ret h h' =>
      obtain rfl := by simpa [h] using hpc
      rw [hd] at h'
      cases h'
    | poll h h' =>
      obtain rfl := by simpa [h] using hpc
      rw [hc] at h'
      cases h'
    | empty h => simp [h] at hpc
    | word h => simp [h] at hpc
    | dispatch h => simp [h] at hpc

/-- Once `set_power` has been called, the kernel is never done with it. -/
theorem set_power_never_returns {pc : PowerChannel} {on : Bool} (hrun : Run (Step b) s events t)
    (hcall : Event.call (.set_power pc on) ∈ events) : t.pc ≠ .idle := by
  obtain ⟨pre, post, rfl⟩ := List.append_of_mem hcall
  obtain ⟨u, -, hpost⟩ := hrun.split
  cases hpost with
  | @cons _ v _ _ _ hs hpost =>
    have hstuck : Stuck v := by
      cases hs with
      | call => exact ⟨.set_power pc on, rfl, rfl, .inl rfl⟩
    obtain ⟨c, -, -, h⟩ := hpost.invariant (fun _ _ _ h hs => Stuck.step h hs) hstuck
    rcases h with h | h | h
    · simp [h]
    · simp [h]
    · simp [h]

/-- Not even when the GPU has answered. -/
theorem set_power_never_returns_usb : ∃ t, Run (Step board) blank
    [.call (.set_power .UsbPower true), .cpu, .cpu, .take, .answer 0x80, .cpu] t ∧ t.toCpu = [0x80] ∧ t.pc ≠ .idle := by
  have hrun : Run (Step board) blank [.call (.set_power .UsbPower true), .cpu, .cpu, .take, .answer 0x80, .cpu] _ :=
    .cons (.call rfl nofun) (.cons (.cpu rfl) (.cons (.cpu rfl) (.cons (.take rfl)
      (.cons (.answer rfl rfl) (.cons (.cpu rfl) (.nil _))))))
  exact ⟨_, hrun, rfl, set_power_never_returns hrun (List.mem_cons_self ..)⟩

end Rodvin.Kernel.Mailbox
