/-
  Rodvin.Starfs.OwnershipRuns — block ownership over runs.

  Each request that meets its condition keeps `Inv` (`step_inv`), and a new volume has it
  (`new_inv`). So the blocks stay owned over every run of such requests
  (`blocks_stay_owned`). A file that is written past its last block grows where it is
  (`writeFile_grows`), over what follows it (`growing_file_takes_free_blocks`).
-/

import Rodvin.Starfs.OwnershipProofs

namespace Rodvin.Starfs.Ownership

open Rodvin.Lib

variable {blocks n disksize ino newino : Nat} {s t u : Fs} {b : Bool} {path : Path} {name : Name}

/-! ## Contents -/

theorem length_appendEntry {c d : Buf} {filesize : Nat} (h : appendEntry c filesize name newino = .ok d) :
    d.bytes.length = c.bytes.length := by
  obtain ⟨c', h1, h2⟩ := Lib.bind_eq_ok.mp h
  exact (length_put h2).trans (length_put h1)

/-- What is cut is shorter, and the buffer was not empty. -/
theorem length_cutEntry {c : Buf} {o : Nat} {content : List UInt8} (h : cutEntry c o = .ok content) :
    content.length ≤ c.bytes.length ∧ c.bytes.length ≠ 0 := by
  have hnext : nextEntry c o = o + filenamelength c o + 6 := rfl
  unfold cutEntry at h
  split at h
  · obtain rfl := Except.ok.inj h
    simp only [List.length_append, List.length_take, List.length_drop]
    omega
  · exact nomatch h

/-! ## The condition in other states -/

theorem WriteOk.of_lessens {size : Nat} (h : WriteOk blocks s n size) (hl : Lessens s t n) (hi : t.ino n = s.ino n) :
    WriteOk blocks t n size := by
  cases h with
  | nothing h0 => exact .nothing h0
  | refused hf hlt => exact .refused (by rwa [hi]) (by rwa [hi])
  | first hf he hlt => exact .first (by rwa [hi]) (by rwa [hi]) hlt
  | own h2 hc => exact .own h2 (by rw [hi]; exact hc.of_lessens hl)

/-- What may hold its size where it is has settled blocks. -/
theorem WriteOk.settled {size : Nat} (h : WriteOk blocks s n size) (h0 : size ≠ 0) (hle : size ≤ (s.ino n).filesize) :
    Settled blocks s n (s.ino n).ext := by
  intro hp
  cases h with
  | nothing hz => exact absurd hz h0
  | refused _ hlt => omega
  | first _ he _ =>
    rw [he] at hp
    exact absurd rfl hp
  | own _ hc => exact hc.mono (le_refl _) (Nat.add_le_add_left (le_max_left _ _) _)

theorem Inv.of_quiet (h : Inv blocks s) (hq : Quiet s t) : Inv blocks t := h.same (sameTable_of_quiet hq)

theorem WriteOk.of_quiet {size : Nat} (h : WriteOk blocks s n size) (hi : Inv blocks s) (hq : Quiet s t) :
    WriteOk blocks t n size := h.of_lessens (hi.lessens (sameTable_of_quiet hq) n) (hq.ino n)

/-- What was only read before does not count. -/
theorem Written.after (h : Written blocks t u n) (hi : Inv blocks s) (hq : Quiet s t) : Written blocks s u n := by
  refine ⟨h.inv, h.maplen.trans hq.maplen, h.exhausted.trans hq.exhausted, fun k hk hn h4 => ?_, fun hset => ?_⟩
  · rw [h.others k (hq.mapped.mpr hk) hn h4, hq.ino]
  · refine h.settled ?_
    rw [hq.ino]
    exact hset.same hi (sameTable_of_quiet hq)

/-! ## Entries -/

theorem addToDir_directory (h : addToDir ino name newino s = .ok (true, t)) :
    (s.ino ino).flags &&& INO_DIRECTORY ≠ 0 := by
  obtain ⟨x, s1, h1, h⟩ := bind_eq_ok.mp h
  obtain ⟨-, rfl, rfl⟩ := inodetab_eq_ok.mp h1
  intro hf
  rw [if_pos hf] at h
  exact nomatch (pure_eq_ok.mp h).1

theorem addToDir_written (h : Inv blocks s)
    (hw : (s.ino ino).flags &&& INO_DIRECTORY ≠ 0 → WriteOk blocks s ino (7 + name.length + (s.ino ino).filesize))
    (hr : addToDir ino name newino s = .ok (b, t)) : t.exhausted = true ∨ Written blocks s t ino := by
  cases b with
  | false => exact .inr ((Inv.unwritten (h.of_quiet (addToDir_refused hr)) ino).after h (addToDir_refused hr))
  | true =>
    have hw := hw (addToDir_directory hr)
    obtain ⟨x, s1, h1, hr⟩ := bind_eq_ok.mp hr
    obtain ⟨-, rfl, rfl⟩ := inodetab_eq_ok.mp h1
    split at hr
    · exact nomatch (pure_eq_ok.mp hr).1
    obtain ⟨c, s2, h2, hr⟩ := bind_eq_ok.mp hr
    split at hr
    · exact nomatch (pure_eq_ok.mp hr).1
    cases hs : seekEntry c name (entrycount c) 8 with
    | some o =>
      rw [hs] at hr
      exact nomatch (pure_eq_ok.mp hr).1
    | none =>
    rw [hs] at hr
    obtain ⟨c1, s3, h3, hr⟩ := bind_eq_ok.mp hr
    obtain ⟨c2, s4, h4, hr⟩ := bind_eq_ok.mp hr
    obtain ⟨c3, s5, h5, hr⟩ := bind_eq_ok.mp hr
    obtain ⟨w, s6, h6, hr⟩ := bind_eq_ok.mp hr
    obtain ⟨-, rfl⟩ := pure_eq_ok.mp hr
    obtain ⟨hput, rfl⟩ := lift_eq_ok.mp h4
    obtain ⟨happend, rfl⟩ := lift_eq_ok.mp h5
    have hq : Quiet s s3 := ((isQuiet_readinode ino).quiet h2).trans ((isQuiet_malloc _).quiet h3)
    have hlength : c3.bytes.length = 7 + name.length + (s.ino ino).filesize := by
      obtain ⟨rfl, -⟩ := malloc_eq_ok.mp h3
      rw [length_appendEntry happend, length_put hput, length_slice]
    rw [← hlength] at hw
    rcases writeinode_written (h.of_quiet hq) (hw.of_quiet h hq) h6 with hex | hwritten
    · exact .inl hex
    · exact .inr (hwritten.after h hq)

theorem removeFromDir_inv (h : Inv blocks s)
    (hw : (s.ino ino).flags &&& INO_DIRECTORY ≠ 0 → ∀ size ≤ (s.ino ino).filesize, WriteOk blocks s ino size)
    (hr : removeFromDir ino name s = .ok (b, t)) : t.exhausted = true ∨ Inv blocks t := by
  obtain ⟨x, s1, h1, hr⟩ := bind_eq_ok.mp hr
  obtain ⟨hm, rfl, rfl⟩ := inodetab_eq_ok.mp h1
  split at hr
  · obtain ⟨-, rfl⟩ := pure_eq_ok.mp hr
    exact .inr h
  next hdir =>
  obtain ⟨c, s2, h2, hr⟩ := bind_eq_ok.mp hr
  have hq := (isQuiet_readinode ino).quiet h2
  split at hr
  · obtain ⟨-, rfl⟩ := pure_eq_ok.mp hr
    exact .inr (h.of_quiet hq)
  cases hs : seekEntry c name (entrycount c) 8 with
  | none =>
    rw [hs] at hr
    obtain ⟨-, rfl⟩ := pure_eq_ok.mp hr
    exact .inr (h.of_quiet hq)
  | some o =>
    rw [hs] at hr
    obtain ⟨content, s3, h3, hr⟩ := bind_eq_ok.mp hr
    obtain ⟨w, s4, h4, hr⟩ := bind_eq_ok.mp hr
    obtain ⟨⟨⟩, s5, h5, hr⟩ := bind_eq_ok.mp hr
    obtain ⟨hcut, rfl⟩ := lift_eq_ok.mp h3
    obtain ⟨-, rfl⟩ := assign_eq_ok.mp h5
    obtain ⟨hle, h0⟩ := length_cutEntry hcut
    rw [length_readinode h2] at hle h0
    have hw := hw hdir
    have hset := (hw _ (le_refl _)).settled h0 (le_refl _)
    have hsame : t.exhausted = s4.exhausted ∧ (Inv blocks (s4.putIno ino { s4.ino ino with
        linkcount := ((s4.ino ino).linkcount + 2 ^ 32 - 1) % 2 ^ 32 }) → Inv blocks t) := by
      obtain ⟨y, s6, h6, hr⟩ := bind_eq_ok.mp hr
      obtain ⟨-, rfl, rfl⟩ := inodetab_eq_ok.mp h6
      split at hr
      · obtain ⟨⟨⟩, s7, h7, hr⟩ := bind_eq_ok.mp hr
        obtain ⟨-, rfl⟩ := pure_eq_ok.mp hr
        have hq' := (isQuiet_freeInode ino).quiet h7
        exact ⟨hq'.exhausted, fun hi => hi.of_quiet hq'⟩
      · obtain ⟨-, rfl⟩ := pure_eq_ok.mp hr
        exact ⟨rfl, id⟩
    rcases writeinode_written (h.of_quiet hq) ((hw _ hle).of_quiet h hq) h4 with hex | hwritten
    · exact .inl (hsame.1.trans hex)
    · right
      have hi := ino_wf s4 ino
      have hwf : ({ s4.ino ino with linkcount := ((s4.ino ino).linkcount + 2 ^ 32 - 1) % 2 ^ 32 } : Inode).Wf :=
        ⟨hi.flags, Nat.mod_lt _ (by decide), hi.filesize, hi.startblock, hi.length⟩
      obtain ⟨h2, h4⟩ := h.ne_of_directory hdir
      exact hsame.2 (hwritten.inv.putIno hwf h2 h4 fun _ _ => (hwritten.after h hq).settled hset)

/-! ## Requests -/

theorem sticky_addToDir (ino : Nat) (name : Name) (newino : Nat) : Sticky (addToDir ino name newino) := by
  refine .bind (sticky_inodetab ino) fun i => .ite (.pure _) ?_
  refine .bind (.of_quiet (isQuiet_readinode ino)) fun c => .ite (.pure _) ?_
  split
  · exact .pure _
  · refine .bind (.of_quiet (isQuiet_malloc _)) fun _ => .bind (.of_quiet (.lift _)) fun _ => .bind (.of_quiet (.lift _)) fun _ =>
      .bind (sticky_writeinode _ _) fun _ => .pure _

/-- A new inode has no blocks. -/
theorem lessens_newInode (h2 : newino ≠ 2) (n : Nat) : Lessens s (s.putIno newino newInode) n := by
  intro k hk _
  have hne : k ≠ newino := by
    rintro rfl
    have hplaced := hk.placed
    rw [ino_putIno_self s k newInode_wf] at hplaced
    exact hplaced rfl
  exact lessens_putIno h2 k hk hne

/-- The inode that `create` and `mkdir` take, when its name was entered. -/
structure Taken (blocks : Nat) (s : Fs) (n : Nat) : Prop where
  mapped : s.Mapped n
  fresh : s.ino n = newInode
  notTable : n ≠ 2
  notFree : n ≠ 4

theorem enter_inv {s1 s2 s3 : Fs} (h : Inv blocks s)
    (hw : ∀ npath, splitLast path = some (npath, name) → (s.ino ino).flags &&& INO_DIRECTORY ≠ 0 →
      WriteOk blocks s ino (7 + name.length + (s.ino ino).filesize))
    (h1 : getparentinode path s = .ok (ino, s1)) (h2 : allocInode s1 = .ok (newino, s2))
    (h3 : lastName path s2 = .ok (name, s3)) (h4 : addToDir ino name newino s3 = .ok (b, t)) :
    t.exhausted = true ∨ Inv blocks t ∧ (b = true → Taken blocks t newino) := by
  have hq := (isQuiet_getparentinode path).quiet h1
  obtain ⟨rfl, npath, hsplit⟩ := lastName_eq_ok h3
  rcases allocInode_eq_ok h2 with ⟨hm, -, h0, rfl⟩ | ⟨-, rfl⟩
  · have hi := h.of_quiet hq
    have hne2 : newino ≠ 2 := by
      rintro rfl
      exact hi.table.linked h0
    have hne4 : newino ≠ 4 := by
      rintro rfl
      exact hi.free.linked h0
    have hnew : Inv blocks (s1.putIno newino newInode) := hi.putIno newInode_wf hne2 hne4 fun _ _ hp => absurd rfl hp
    have hself := ino_putIno_self s1 newino newInode_wf
    have hother : ((s1.putIno newino newInode).ino ino).flags &&& INO_DIRECTORY ≠ 0 → newino ≠ ino := by
      rintro hdir rfl
      rw [hself] at hdir
      exact hdir (by decide)
    have hok : ((s1.putIno newino newInode).ino ino).flags &&& INO_DIRECTORY ≠ 0 →
        WriteOk blocks (s1.putIno newino newInode) ino (7 + name.length + ((s1.putIno newino newInode).ino ino).filesize) := by
      intro hdir
      have hino : (s1.putIno newino newInode).ino ino = s1.ino ino := ino_putIno_of_ne s1 _ (Ne.symm (hother hdir))
      rw [hino, hq.ino] at hdir
      have hs1 := (hw npath hsplit hdir).of_quiet h hq
      rw [hino, hq.ino]
      exact hs1.of_lessens (lessens_newInode hne2 ino) hino
    rcases addToDir_written hnew hok h4 with hex | hwritten
    · exact .inl hex
    · refine .inr ⟨hwritten.inv, ?_⟩
      rintro rfl
      have hne := hother (addToDir_directory h4)
      refine ⟨?_, ?_, hne2, hne4⟩
      · unfold Fs.Mapped
        rw [hwritten.maplen]
        exact hm
      · rw [hwritten.others newino hm hne hne4, hself]
  · exact .inl ((sticky_addToDir _ _ _).sticky h4 rfl)

theorem create_inv {r : Int × Option Nat} (h : Inv blocks s) (hm : (Request.create path).Meets blocks s)
    (hr : create path s = .ok (r, t)) : t.exhausted = true ∨ Inv blocks t := by
  obtain ⟨ino, s1, h1, hr⟩ := bind_eq_ok.mp hr
  obtain ⟨newino, s2, h2, hr⟩ := bind_eq_ok.mp hr
  obtain ⟨name, s3, h3, hr⟩ := bind_eq_ok.mp hr
  obtain ⟨b, s4, h4, hr⟩ := bind_eq_ok.mp hr
  have hpost := enter_inv h (fun npath hs hdir => hm ino _ (.create h1 hs hdir)) h1 h2 h3 h4
  cases b with
  | false =>
    obtain ⟨⟨⟩, s5, h5, hr⟩ := bind_eq_ok.mp hr
    obtain ⟨-, rfl⟩ := pure_eq_ok.mp hr
    have hq := (isQuiet_freeInode newino).quiet h5
    rcases hpost with hex | ⟨hi, -⟩
    · exact .inl (hq.exhausted.trans hex)
    · exact .inr (hi.of_quiet hq)
  | true =>
    obtain ⟨⟨⟩, s5, h5, hr⟩ := bind_eq_ok.mp hr
    obtain ⟨-, rfl⟩ := pure_eq_ok.mp hr
    obtain ⟨-, rfl⟩ := assign_eq_ok.mp h5
    rcases hpost with hex | ⟨hi, htaken⟩
    · exact .inl hex
    · obtain ⟨-, hfresh, h2, h4⟩ := htaken rfl
      rw [hfresh]
      exact .inr (hi.putIno ⟨by decide, by decide, by decide, by decide, by decide⟩ h2 h4 fun _ _ hp => absurd rfl hp)

theorem mkdir_inv {r : Int} (h : Inv blocks s) (hm : (Request.mkdir path).Meets blocks s)
    (hr : mkdir path s = .ok (r, t)) : t.exhausted = true ∨ Inv blocks t := by
  obtain ⟨ino, s1, h1, hr⟩ := bind_eq_ok.mp hr
  obtain ⟨newino, s2, h2, hr⟩ := bind_eq_ok.mp hr
  obtain ⟨name, s3, h3, hr⟩ := bind_eq_ok.mp hr
  obtain ⟨b, s4, h4, hr⟩ := bind_eq_ok.mp hr
  have hpost := enter_inv h (fun npath hs hdir => hm ino _ (.mkdir h1 hs hdir)) h1 h2 h3 h4
  cases b with
  | false =>
    obtain ⟨⟨⟩, s5, h5, hr⟩ := bind_eq_ok.mp hr
    obtain ⟨-, rfl⟩ := pure_eq_ok.mp hr
    have hq := (isQuiet_freeInode newino).quiet h5
    rcases hpost with hex | ⟨hi, -⟩
    · exact .inl (hq.exhausted.trans hex)
    · exact .inr (hi.of_quiet hq)
  | true =>
    obtain ⟨⟨⟩, s5, h5, hr⟩ := bind_eq_ok.mp hr
    obtain ⟨w, s6, h6, hr⟩ := bind_eq_ok.mp hr
    obtain ⟨-, rfl⟩ := pure_eq_ok.mp hr
    obtain ⟨-, rfl⟩ := assign_eq_ok.mp h5
    rcases hpost with hex | ⟨hi, htaken⟩
    · exact .inl ((sticky_writeinode _ _).sticky h6 hex)
    · obtain ⟨-, hfresh, h2, h4⟩ := htaken rfl
      rw [hfresh] at h6
      have hwf : ({ newInode with flags := INO_DIRECTORY } : Inode).Wf :=
        ⟨by decide, by decide, by decide, by decide, by decide⟩
      have hself := ino_putIno_self s4 newino hwf
      have hok : WriteOk blocks (s4.putIno newino { newInode with flags := INO_DIRECTORY }) newino (le 4 1 ++ le 4 0).length :=
        .first (by rw [hself]; decide) (by rw [hself]; rfl) (by decide)
      rcases writeinode_written (hi.putIno hwf h2 h4 fun _ _ hp => absurd rfl hp) hok h6 with hex | hwritten
      · exact .inl hex
      · exact .inr hwritten.inv

/-- The buffer has the size that the file gets. -/
theorem writeBuffer_length {c d : Buf} {filesize newsize : Nat} (hc : c.bytes.length = filesize)
    (h : writeBuffer c filesize (max filesize newsize) s = .ok (d, t)) :
    Quiet s t ∧ d.bytes.length = max filesize newsize := by
  unfold writeBuffer at h
  split at h
  · obtain ⟨c', s1, h1, h⟩ := bind_eq_ok.mp h
    obtain ⟨hput, rfl⟩ := lift_eq_ok.mp h
    refine ⟨(isQuiet_malloc _).quiet h1, ?_⟩
    obtain ⟨rfl, -⟩ := malloc_eq_ok.mp h1
    rw [length_put hput, length_slice]
  · obtain ⟨rfl, rfl⟩ := pure_eq_ok.mp h
    refine ⟨.refl _, ?_⟩
    omega

theorem writeFile_inv {buf : List UInt8} {offset : Nat} {r : Int} (h : Inv blocks s)
    (hm : (Request.write path buf offset).Meets blocks s) (hr : writeFile path buf offset s = .ok (r, t)) :
    t.exhausted = true ∨ Inv blocks t := by
  obtain ⟨ino, s1, h1, hr⟩ := bind_eq_ok.mp hr
  obtain ⟨c, s2, h2, hr⟩ := bind_eq_ok.mp hr
  obtain ⟨x, s3, h3, hr⟩ := bind_eq_ok.mp hr
  obtain ⟨c1, s4, h4, hr⟩ := bind_eq_ok.mp hr
  obtain ⟨c2, s5, h5, hr⟩ := bind_eq_ok.mp hr
  obtain ⟨w, s6, h6, hr⟩ := bind_eq_ok.mp hr
  obtain ⟨-, rfl⟩ := pure_eq_ok.mp hr
  obtain ⟨hput, rfl⟩ := lift_eq_ok.mp h5
  obtain ⟨-, rfl, rfl⟩ := inodetab_eq_ok.mp h3
  have hq1 := (isQuiet_getinode path).quiet h1
  have hq2 := hq1.trans ((isQuiet_readinode ino).quiet h2)
  rw [hq2.ino] at h4
  obtain ⟨hq3, hlength⟩ := writeBuffer_length (by rw [length_readinode h2, hq1.ino]) h4
  have hq := hq2.trans hq3
  have hw := hm ino _ (.write h1)
  rw [← hlength, ← length_put hput] at hw
  rcases writeinode_written (h.of_quiet hq) (hw.of_quiet h hq) h6 with hex | hwritten
  · exact .inl hex
  · exact .inr hwritten.inv

theorem truncate_inv {size : Nat} {r : Int} (h : Inv blocks s) (hm : (Request.truncate path size).Meets blocks s)
    (hr : truncate path size s = .ok (r, t)) : t.exhausted = true ∨ Inv blocks t := by
  obtain ⟨ino, s1, h1, hr⟩ := bind_eq_ok.mp hr
  have hq1 := (isQuiet_getinode path).quiet h1
  split at hr
  · obtain ⟨-, rfl⟩ := pure_eq_ok.mp hr
    exact .inr (h.of_quiet hq1)
  obtain ⟨x, s2, h2, hr⟩ := bind_eq_ok.mp hr
  obtain ⟨-, rfl, rfl⟩ := inodetab_eq_ok.mp h2
  rw [hq1.ino] at hr
  split at hr
  · obtain ⟨-, rfl⟩ := pure_eq_ok.mp hr
    exact .inr (h.of_quiet hq1)
  next hf =>
  split at hr
  next hsize =>
    obtain ⟨c, s3, h3, hr⟩ := bind_eq_ok.mp hr
    obtain ⟨w, s4, h4, hr⟩ := bind_eq_ok.mp hr
    obtain ⟨-, rfl⟩ := pure_eq_ok.mp hr
    have hq := hq1.trans ((isQuiet_readinode ino).quiet h3)
    have hlength : (c.bytes.take size).length = size := by
      rw [List.length_take, length_readinode h3, hq1.ino]
      exact Nat.min_eq_left hsize.1.le
    have hw := hm ino size (.truncate h1 (not_not.mp hf) hsize.1)
    rw [← hlength] at hw
    rcases writeinode_written (h.of_quiet hq) (hw.of_quiet h hq) h4 with hex | hwritten
    · exact .inl hex
    · exact .inr hwritten.inv
  next =>
    obtain ⟨-, rfl⟩ := pure_eq_ok.mp hr
    exact .inr (h.of_quiet hq1)

theorem unlink_inv {r : Int} (h : Inv blocks s) (hm : (Request.unlink path).Meets blocks s)
    (hr : unlink path s = .ok (r, t)) : t.exhausted = true ∨ Inv blocks t := by
  obtain ⟨file, s1, h1, hr⟩ := bind_eq_ok.mp hr
  have hq1 := (isQuiet_getinode path).quiet h1
  obtain ⟨x, s2, h2, hr⟩ := bind_eq_ok.mp hr
  obtain ⟨-, rfl, rfl⟩ := inodetab_eq_ok.mp h2
  rw [hq1.ino] at hr
  split at hr
  · obtain ⟨-, rfl⟩ := pure_eq_ok.mp hr
    exact .inr (h.of_quiet hq1)
  next hf =>
  obtain ⟨parent, s3, h3, hr⟩ := bind_eq_ok.mp hr
  obtain ⟨name, s4, h4, hr⟩ := bind_eq_ok.mp hr
  obtain ⟨w, s5, h5, hr⟩ := bind_eq_ok.mp hr
  obtain ⟨-, rfl⟩ := pure_eq_ok.mp hr
  obtain ⟨rfl, -⟩ := lastName_eq_ok h4
  have hq := hq1.trans ((isQuiet_getparentinode path).quiet h3)
  refine removeFromDir_inv (h.of_quiet hq) (fun hdir size hle => ?_) h5
  rw [hq.ino] at hdir hle
  exact (hm parent size (.unlink h1 (not_not.mp hf) h3 hdir hle)).of_quiet h hq

theorem step_inv {req : Request} (h : Inv blocks s) (hs : OkStep blocks s req t) : Inv blocks t := by
  obtain ⟨hm, ⟨r, hr⟩, hex⟩ := hs
  have hpost : t.exhausted = true ∨ Inv blocks t := by
    cases req with
    | create path =>
      obtain ⟨x, s1, h1, hr⟩ := bind_eq_ok.mp hr
      obtain ⟨-, rfl⟩ := pure_eq_ok.mp hr
      exact create_inv h hm h1
    | mkdir path => exact mkdir_inv h hm hr
    | write path buf offset => exact writeFile_inv h hm hr
    | truncate path size => exact truncate_inv h hm hr
    | unlink path => exact unlink_inv h hm hr
  rcases hpost with he | hi
  · rw [hex] at he
    exact nomatch he
  · exact hi

/-! ## A new volume -/

/-- On a new volume the first five inodes have the blocks. -/
theorem used_new (h : NewLinks s disksize) (hn : Used s n) : n < 5 := by
  have hlt := hn.lt
  have hlinked := hn.linked
  have hplaced := hn.placed
  have h2 : s.ino 2 = tableInode disksize := h.isNew.ino rfl
  have htable : (s.ino 2).filesize = disksize / 16384 * 32 := by
    rw [h2]
    rfl
  have h6 : n < 6 := by
    rw [h.linked n (by omega)] at hlinked
    by_contra hge
    exact hlinked (if_neg hge)
  have h5 : n ≠ 5 := by
    rintro rfl
    rw [h.isNew.ino (n := 5) rfl] at hplaced
    exact hplaced rfl
  omega

theorem new_inv (h : NewLinks s disksize) (hd : disksize < 2 ^ 63) : Inv (disksize / 4096) s := by
  have h6 := h.enough
  have hw := noWrap_of_inodes (lt_trans hd (by decide)) h6
  have hr : rootBlock disksize = 9 + (disksize / 16384 + 127) / 128 := rfl
  have h2 : s.ino 2 = tableInode disksize := h.isNew.ino rfl
  have h4 : s.ino 4 = freeInode4 disksize := h.isNew.ino rfl
  have htable : (s.ino 2).filesize = disksize / 16384 * 32 ∧ (s.ino 2).ext = ⟨9, (disksize / 16384 + 127) / 128⟩ := by
    rw [h2]
    exact ⟨rfl, rfl⟩
  have hfree : (s.ino 4).ext.startblock = rootBlock disksize + 1 := by
    rw [h4]
    rfl
  have hend : s.tableEnd = 4096 * rootBlock disksize := by
    unfold Fs.tableEnd
    rw [h.isNew.maplen]
    omega
  have hlinked : ∀ n < 6, (s.ino n).linkcount ≠ 0 := by
    intro n hn
    rw [h.linked n (by omega), if_pos hn]
    exact Nat.one_ne_zero
  have hext : ∀ n < 5, (s.ino n).ext = ⟨layoutStart disksize n, layoutStart disksize (n + 1) - layoutStart disksize n⟩ := by
    intro n hn
    obtain ⟨i, hi, he⟩ := inodetbl_ext (lt_trans hd (by decide)) hw hn
    rw [h.isNew.ino hi, he]
  have hmono : ∀ {n k : Nat}, n ≤ k → layoutStart disksize n ≤ layoutStart disksize k := layoutStart_mono hw
  refine ⟨⟨fun n k hn hk hne b hb hb' => ?_, fun n hn => ?_⟩, by omega, fun n hn => ?_,
    ⟨by omega, hlinked 2 (by decide), ?_⟩,
    ?_, ⟨?_, ?_⟩, ⟨by omega, hlinked 4 (by decide), ?_⟩, ?_, ?_⟩
  · have hn5 := used_new h hn
    have hk5 := used_new h hk
    unfold Holds at hb hb'
    rw [hext n hn5] at hb
    rw [hext k hk5] at hb'
    dsimp only at hb hb'
    rcases Nat.lt_or_gt_of_ne hne with hlt | hlt
    · have := hmono (show n + 1 ≤ k by omega)
      omega
    · have := hmono (show k + 1 ≤ n by omega)
      omega
  · have hn5 := used_new h hn
    have h1 := hmono (show n ≤ n + 1 by omega)
    have h5 : layoutStart disksize (n + 1) ≤ disksize / 4096 := hmono (show n + 1 ≤ 5 by omega)
    rw [hext n hn5]
    dsimp only
    omega
  · rw [htable.1] at hn
    exact h.isNew.mapped.mpr (by omega)
  · rw [htable.2]
    show 9 ≠ INVALID_BLOCK
    decide
  · rw [h2]
    rfl
  · rw [htable.2]
  · rw [htable.2, hend]
    dsimp only
    omega
  · rw [hfree]
    unfold INVALID_BLOCK
    omega
  · rw [h4]
    rfl
  · rw [hfree, hend]
    omega

/-- From a new volume on, in every run whose requests meet their conditions, the inodes in use have
    their blocks for themselves, on the disk. -/
theorem blocks_stay_owned {img : Image} {junk : Nat → Nat → UInt8} {reqs : List Request} (hd : disksize < 2 ^ 63)
    (h6 : 6 ≤ disksize / 16384) (hz : ∀ n, 128 ≤ n → n < disksize / 16384 → (img.ino n).linkcount = 0)
    (hm : mount (mkfs img disksize) junk = some s) (hrun : Run (OkStep (disksize / 4096)) s reqs t) :
    Owned (disksize / 4096) t := by
  have h0 := new_inv (newLinks (lt_trans hd (by decide)) h6 hz hm) hd
  have ht : Inv (disksize / 4096) t := hrun.invariant (fun _ _ _ hi hs => step_inv hi hs) h0
  exact ht.owned

/-- The request as a function, where it is a step. -/
def Request.exec (s : Fs) (req : Request) : Option Fs :=
  match req.run s with
  | .ok (_, t) => if t.exhausted then none else some t
  | .error _ => none

theorem step_of_exec {req : Request} (h : req.exec s = some t) : Step s req t := by
  unfold Request.exec at h
  split at h
  next r t' hr =>
    split at h
    · exact nomatch h
    next hex =>
      obtain rfl := Option.some.inj h
      exact ⟨⟨r, hr⟩, Bool.eq_false_iff.mpr hex⟩
  next => exact nomatch h

/-- What an inode in use can hold in its own blocks may be written. -/
theorem writeOk_of_fits {size : Nat} (h : Owned blocks s) (hn : Used s n) (h2 : n ≠ 2)
    (hs : size ≤ 4096 * (s.ino n).ext.length) : WriteOk blocks s n size := by
  have hspan : span (s.ino n) size = (s.ino n).ext.length := by
    unfold span
    omega
  refine .own h2 ?_
  rw [hspan]
  exact h.clear hn

/-- `"/a"` -/
def filePath : Path := [slash, 0x61]

theorem splitLast_filePath : splitLast filePath = some ([], [0x61]) := by decide

theorem getparentinode_filePath (s : Fs) : getparentinode filePath s = .ok (3, s) := by
  unfold getparentinode
  rw [splitLast_filePath]
  rfl

theorem create_meets (hnew : NewLinks s (2 ^ 20)) : (Request.create filePath).Meets (2 ^ 20 / 4096) s := by
  have hinv := new_inv hnew (by decide)
  have h2 : s.ino 2 = tableInode (2 ^ 20) := hnew.isNew.ino rfl
  have h3 : s.ino 3 = rootInode (2 ^ 20) := hnew.isNew.ino rfl
  have hused : Used s 3 := by
    refine ⟨?_, ?_, ?_⟩
    · rw [h2]
      decide
    · rw [h3]
      decide
    · rw [h3]
      decide
  intro ino size hw
  cases hw with
  | @create _ npath name _ t hget hsplit _ =>
    obtain ⟨rfl, rfl⟩ : npath = [] ∧ name = [0x61] := by
      rw [splitLast_filePath] at hsplit
      obtain ⟨h1, h2⟩ := Prod.mk.inj (Option.some.inj hsplit)
      exact ⟨h1.symm, h2.symm⟩
    have hino : ino = 3 := by
      rw [getparentinode_filePath] at hget
      exact (Prod.mk.inj (Except.ok.inj hget)).1.symm
    rw [hino]
    refine writeOk_of_fits hinv.owned hused (by decide) ?_
    rw [h3]
    decide

/-- The new file has no blocks, and a byte written into it takes its first one. -/
theorem created_file {t : Fs} (h : ((Request.create filePath).exec fresh).map (fun s =>
      ((s.ino 6).flags, (s.ino 6).ext, (s.ino 6).filesize, (getinode filePath s).toOption.map Prod.fst)) =
      some (0, ⟨INVALID_BLOCK, 0⟩, 0, some 6)) (ht : (Request.create filePath).exec fresh = some t) :
    (Request.write filePath [1] 0).Meets (2 ^ 20 / 4096) t := by
  rw [ht] at h
  obtain ⟨hflags, h⟩ := Prod.mk.inj (Option.some.inj h)
  obtain ⟨hext, h⟩ := Prod.mk.inj h
  obtain ⟨hsize, hlookup⟩ := Prod.mk.inj h
  intro ino size hw
  cases hw with
  | @write _ _ _ _ u hget =>
    have hino : ino = 6 := by
      rw [hget] at hlookup
      exact Option.some.inj hlookup
    subst hino
    refine .first (by rw [hflags]; rfl) hext ?_
    rw [hsize]
    decide

theorem blocks_stay_owned_write : ∃ t, Run (OkStep (2 ^ 20 / 4096)) fresh [.create filePath, .write filePath [1] 0] t ∧
    (t.ino 6).ext = ⟨11, 1⟩ ∧ Owned (2 ^ 20 / 4096) t := by
  have hnew : NewLinks fresh (2 ^ 20) := newLinks (by decide) (by decide) (fun n h1 h2 => by omega) fresh_mounted
  have hruns : ((Request.create filePath).exec fresh).map (fun s =>
        ((s.ino 6).flags, (s.ino 6).ext, (s.ino 6).filesize, (getinode filePath s).toOption.map Prod.fst)) =
        some (0, ⟨INVALID_BLOCK, 0⟩, 0, some 6) ∧
      (((Request.create filePath).exec fresh).bind (Request.exec · (.write filePath [1] 0))).map (fun s => (s.ino 6).ext) =
        some ⟨11, 1⟩ := by
    decide +kernel
  obtain ⟨hcreated, hwritten⟩ := hruns
  obtain ⟨t, ht, hext⟩ := Option.map_eq_some_iff.mp hwritten
  obtain ⟨s, hs, ht⟩ := Option.bind_eq_some_iff.mp ht
  have hrun : Run (OkStep (2 ^ 20 / 4096)) fresh [.create filePath, .write filePath [1] 0] t :=
    .cons ⟨create_meets hnew, step_of_exec hs⟩ (.single ⟨created_file hcreated hs, step_of_exec ht⟩)
  exact ⟨t, hrun, hext, blocks_stay_owned (by decide) (by decide) (fun n h1 h2 => by omega) fresh_mounted hrun⟩

/-! ## A file that grows -/

theorem put_ok {c : Buf} {k : Nat} (bs : List UInt8) (h : k + bs.length ≤ c.bytes.length) :
    ∃ d, c.put k bs = .ok d ∧ d.bytes.length = c.bytes.length := by
  have hput : c.put k bs = .ok { c with bytes := c.bytes.take k ++ bs ++ c.bytes.drop (k + bs.length) } := if_pos h
  exact ⟨_, hput, length_put hput⟩

/-- A write past the end of a file that does not start in the free extent: the file has the blocks
    for it where it is. -/
theorem writeFile_grows (buf : List UInt8) (offset : Nat) (hget : getinode path s = .ok (n, t)) (hr : Readable s n)
    (hw : Writable s n (offset + buf.length)) (hlt : (s.ino n).filesize < offset + buf.length) :
    ∃ bytes u, writeFile path buf offset s = .ok (Int.bmod buf.length (2 ^ 32), u) ∧
      bytes.length = offset + buf.length ∧
      Stored s u n ((s.ino n).grown (offset + buf.length)) bytes := by
  have hq1 := (isQuiet_getinode path).quiet hget
  obtain ⟨s2, h2, hq2⟩ := readinode_ok (hr.quiet hq1)
  have hq := hq1.trans hq2
  have hsize : max (s2.ino n).filesize (add64 buf.length offset) = offset + buf.length := by
    have ho := hw.offset
    rw [hq.ino, add64_eq (by omega)]
    omega
  obtain ⟨c, hc, hclen⟩ := put_ok (c := ⟨slice (s2.junk s2.mallocs) 0 (offset + buf.length), s2.junk s2.mallocs⟩) (k := 0)
    (t.content n) (by rw [length_slice, Fs.content, length_slice, hq1.ino]; omega)
  rw [length_slice] at hclen
  obtain ⟨d, hd, hdlen⟩ := put_ok (c := c) (k := offset) buf (by omega)
  have hq3 : Quiet s { s2 with mallocs := s2.mallocs + 1 } := hq.trans ⟨rfl, rfl, rfl, rfl, rfl⟩
  have hbytes : d.bytes.length = offset + buf.length := hdlen.trans hclen
  have hne : d.bytes ≠ [] := by
    intro h0
    rw [h0, List.length_nil] at hbytes
    omega
  have hw3 := hw.quiet hq3
  rw [← hbytes] at hw3
  obtain ⟨u, hu, hst⟩ := writeinode_ok d.bytes hw3 hne
  refine ⟨d.bytes, u, ?_, hbytes, ?_⟩
  · unfold writeFile
    rw [bind_ok hget, bind_ok h2, bind_ok (inodetab_ok (hq.mapped.mpr hr.mapped)), hsize]
    unfold writeBuffer
    rw [if_pos (by rw [hq.ino]; exact hlt)]
    have hbuffer : (malloc (offset + buf.length) >>= fun newbuf => (newbuf.put 0 (t.content n) : Checked Buf)) s2 =
        .ok (c, { s2 with mallocs := s2.mallocs + 1 }) := by
      rw [bind_ok (malloc_ok _ _)]
      exact lift_ok hc
    rw [bind_ok hbuffer, bind_ok (lift_ok hd), bind_ok hu]
    rfl
  · rw [hbytes, hq3.ino] at hst
    exact hst.of_quiet hq3

/-- The new file is one byte long, and the free extent starts behind its block. -/
structure OneByte (s : Fs) : Prop where
  file : s.ino 6 = ⟨0, 2, 1, ⟨11, 1⟩⟩
  free : s.ino 4 = systemInode 1003520 12 244
  table : (s.ino 2).filesize = 2048
  maplen : s.maplen = 2048
  size : s.size = 2 ^ 20
  exhausted : s.exhausted = false
  lookup : ∃ t, getinode filePath s = .ok (6, t)

theorem one_byte_written : ∃ s, Run Step fresh [.create filePath, .write filePath [1] 0] s ∧ OneByte s := by
  have h : ([Request.create filePath, .write filePath [1] 0].foldlM Request.exec fresh).map (fun s =>
      ([s.ino 6, s.ino 4], [(s.ino 2).filesize, s.maplen, s.size], s.exhausted,
        (getinode filePath s).toOption.map Prod.fst)) =
      some ([⟨0, 2, 1, ⟨11, 1⟩⟩, systemInode 1003520 12 244], [2048, 2048, 2 ^ 20], false, some 6) := by decide +kernel
  obtain ⟨s, hs, h⟩ := Option.map_eq_some_iff.mp h
  obtain ⟨hinos, h⟩ := Prod.mk.inj h
  obtain ⟨hsizes, h⟩ := Prod.mk.inj h
  obtain ⟨hexhausted, hlookup⟩ := Prod.mk.inj h
  obtain ⟨h6, hinos⟩ := List.cons.inj hinos
  obtain ⟨h2, hsizes⟩ := List.cons.inj hsizes
  obtain ⟨hmaplen, hsizes⟩ := List.cons.inj hsizes
  refine ⟨s, run_of_foldlM Step (fun _ _ _ => step_of_exec) _ _ hs, h6, (List.cons.inj hinos).1, h2, hmaplen,
    (List.cons.inj hsizes).1, hexhausted, ?_⟩
  cases hget : getinode filePath s with
  | error e =>
    rw [hget] at hlookup
    exact nomatch hlookup
  | ok p =>
    obtain ⟨ino, t⟩ := p
    rw [hget] at hlookup
    obtain rfl : ino = 6 := Option.some.inj hlookup
    exact ⟨t, rfl⟩

namespace OneByte

theorem mapped (h : OneByte s) (hk : k ≤ 6) : s.Mapped k := by
  unfold Fs.Mapped
  rw [h.maplen]
  omega

theorem tableEnd (h : OneByte s) : s.tableEnd = 40960 := by
  unfold Fs.tableEnd
  rw [h.maplen]

theorem readable (h : OneByte s) : Readable s 6 := by
  refine ⟨h.mapped (Nat.le_refl 6), ?_, ?_, ?_, fun _ => ?_, fun _ => ?_⟩
  · unfold Inode.Direct
    rw [h.file]
    rfl
  · rw [h.file]
    decide
  · rw [h.file]
    decide
  · rw [h.file]
    decide
  · rw [h.file, h.size]
    decide

theorem writable (h : OneByte s) : Writable s 6 4097 := by
  refine ⟨h.mapped (Nat.le_refl 6), ?_, ⟨h.mapped (by decide), ?_⟩, ?_, ?_, ?_⟩
  · rw [h.file]
    rfl
  · unfold Inode.Direct
    rw [h.free]
    rfl
  · rw [h.file, h.free]
    exact .inl (by decide)
  · rw [h.file]
    decide
  · rw [h.file]
    decide

end OneByte

/-- Its second block is the first of the free extent, and is not taken from there. -/
theorem one_byte_grows (h : OneByte s) : ∃ t, Step s (.write filePath [1] 4096) t ∧ ¬ Owned (2 ^ 20 / 4096) t := by
  obtain ⟨t, hget⟩ := h.lookup
  obtain ⟨bytes, u, hu, -, hst⟩ := writeFile_grows [1] 4096 hget h.readable h.writable (by rw [h.file]; decide)
  refine ⟨u, ⟨⟨_, hu⟩, hst.exhausted.trans h.exhausted⟩, fun howned => ?_⟩
  have hstart : s.tableEnd ≤ 4096 * ((s.ino 6).grown (4096 + 1)).ext.startblock := by
    rw [h.tableEnd, h.file]
    decide
  have hself : u.ino 6 = ⟨0, 2, 4097, ⟨11, 2⟩⟩ := by
    have hwf : ((s.ino 6).grown (4096 + 1)).Wf := (ino_wf s 6).grown _ (by decide)
    have hi : u.ino 6 = (s.ino 6).grown (4096 + 1) := hst.ino_self (h.mapped (Nat.le_refl 6)) hstart hwf
    rw [hi, h.file]
    rfl
  have hfree : u.ino 4 = systemInode 1003520 12 244 := by
    rw [hst.ino_of_ne (h.mapped (by decide)) hstart (by decide), h.free]
  have htable : (u.ino 2).filesize = 2048 := by
    rw [hst.ino_of_ne (h.mapped (by decide)) hstart (by decide), h.table]
  have hused : Used u 6 ∧ Used u 4 := by
    refine ⟨⟨?_, ?_, ?_⟩, ?_, ?_, ?_⟩
    · rw [htable]
      decide
    · rw [hself]
      decide
    · rw [hself]
      decide
    · rw [htable]
      decide
    · rw [hfree]
      decide
    · rw [hfree]
      decide
  refine howned.disjoint 6 4 hused.1 hused.2 (by decide) 12 ?_ ?_
  · unfold Holds
    rw [hself]
    decide
  · unfold Holds
    rw [hfree]
    decide

/-- The file is written behind its only block. -/
theorem growing_file_takes_free_blocks :
    mount (mkfs (created (2 ^ 20)) (2 ^ 20)) (fun _ _ => 0) = some fresh ∧
      ∃ t, Run Step fresh [.create filePath, .write filePath [1] 0, .write filePath [1] 4096] t ∧
        ¬ Owned (2 ^ 20 / 4096) t := by
  obtain ⟨s, hrun, hs⟩ := one_byte_written
  obtain ⟨t, hstep, hnot⟩ := one_byte_grows hs
  exact ⟨fresh_mounted, t, hrun.append (.single hstep), hnot⟩

end Rodvin.Starfs.Ownership
