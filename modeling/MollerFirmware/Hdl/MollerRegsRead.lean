import MollerFirmware.Hdl.MollerRegsWrite

/-!
# moller_regs: the read channels

A read is answered with what its register contains in the clock in which its
address is transferred. Together with the order of the writes this makes the
bank one register file for both state machines: a read sees every write that
was answered before and none that was not yet accepted.
-/

namespace MollerFirmware
namespace MollerRegs

open Clocked Memory

variable {P : Params}

/-- Data and response of a read. -/
def readAnswer (P : Params) (addr : Addr P) (regs : Regs) (s : Status) :
    BitVec 32 × BitVec 2 :=
  (readData P addr regs s, readResp P addr)

/-! ## One clock -/

/-- What a clock edge can do to `read_fsm`. -/
inductive ReadFsm.Step (s : ReadFsm P) (regs : Regs) (i : Input P) :
    ReadFsm P → Prop
  | take (hs : s.state = .idle) (har : i.arvalid = true) :
      Step s regs i
        { s.defaults with
          araddrReg := i.araddr
          arready := true
          state := .register }
  | fetch (hs : s.state = .register) :
      Step s regs i (s.defaults.fetch regs i.status)
  | memory (hs : s.state = .waitMemory) (s' : ReadFsm P) :
      Step s regs i s'
  | respond (hs : s.state = .response) :
      Step s regs i
        { s.defaults with
          rvalid := true
          rresp := s.vRresp
          rdata := s.vRdata
          state := .done }
  | finish (hs : s.state = .done) (hr : i.rready = true) :
      Step s regs i
        { s.defaults with
          rvalid := false
          rdata := 0
          state := .idle }
  | stay (hidle : s.state = .idle → i.arvalid = false)
      (hdone : s.state = .done → i.rready = false)
      (hs : s.state = .idle ∨ s.state = .done) :
      Step s regs i s.defaults

theorem ReadFsm.step_cases (s : ReadFsm P) (regs : Regs) (i : Input P) :
    ReadFsm.Step s regs i (s.step regs i) := by
  unfold ReadFsm.step
  cases hs : s.state with
  | idle =>
      cases har : i.arvalid
      · exact .stay (fun _ => har) (by simp [hs]) (.inl hs)
      · exact .take hs har
  | register => exact .fetch hs
  | waitMemory => exact .memory hs _
  | response => exact .respond hs
  | done =>
      cases hr : i.rready
      · exact .stay (by simp [hs]) (fun _ => hr) (.inr hs)
      · exact .finish hs hr

/-- How the outputs go with the state. -/
structure ReadFsm.Wf (s : ReadFsm P) : Prop where
  arready : s.arready = true ↔ s.state = .register
  rvalid : s.rvalid = true ↔ s.state = .done
  noMemory : s.state ≠ .waitMemory

theorem ReadFsm.Wf.next {s s' : ReadFsm P} {regs : Regs} {i : Input P}
    (h : s.Wf) (hstep : s.Step regs i s') :
    s'.Wf := by
  have hr := h.rvalid
  cases hstep with
  | take hs har =>
      exact ⟨by simp, by simp_all [defaults], by simp⟩
  | fetch hs =>
      exact ⟨by simp [defaults, fetch], by simp_all [defaults, fetch],
        by simp [fetch]⟩
  | memory hs => exact absurd hs h.noMemory
  | respond hs => exact ⟨by simp [defaults], by simp, by simp⟩
  | finish hs hrr => exact ⟨by simp [defaults], by simp, by simp⟩
  | stay hidle hdone hs =>
      refine ⟨?_, hr, h.noMemory⟩
      rcases hs with hs | hs <;> simp [defaults, hs]

/-- An answer that the master has not taken. -/
def ReadFsm.pending (s : ReadFsm P) : List (BitVec 32 × BitVec 2) :=
  if s.state = .response then [(s.vRdata, s.vRresp)]
  else if s.state = .done then [(s.rdata, s.rresp)]
  else []

theorem ReadFsm.Wf.read_clock {s s' : ReadFsm P} {regs : Regs} {i : Input P}
    (h : s.Wf) (hstep : s.Step regs i s')
    (hoffer : s.arready = true → i.arvalid = true ∧ i.araddr = s.araddrReg) :
    (if s.rvalid && i.rready then [(s.rdata, s.rresp)] else []) ++ s'.pending =
      s.pending ++
        if i.arvalid && s.arready then [readAnswer P i.araddr regs i.status]
        else [] := by
  have har := h.arready
  have hr := h.rvalid
  cases hstep with
  | take hs => simp_all [pending]
  | fetch hs =>
      obtain ⟨hvalid, haddr⟩ := hoffer (har.mpr hs)
      simp_all [pending, defaults, ReadFsm.fetch, readAnswer]
  | memory hs => exact absurd hs h.noMemory
  | respond hs => simp_all [pending]
  | finish hs => simp_all [pending]
  | stay hidle hdone hs => rcases hs with hs | hs <;> simp_all [pending, defaults]

/-! ## Cells -/

/-- A write as one register sees it. -/
def cellWrite (P : Params) (reg : Register) (c : BitVec 32)
    (q : WriteReq P) : BitVec 32 :=
  if hits P q.addr reg then strobed q.data.1 q.data.2 0 c &&& reg.mask else c

theorem content_apply (hwidth : 9 ≤ P.axiAddrWidth) {reg : Register}
    (hw : reg.writable = true) (regs : Regs) (s : Status) (q : WriteReq P) :
    content ((file P).apply regs q) s reg =
      cellWrite P reg (content regs s reg) q := by
  show content (writeRegs P q.addr q.data.1 q.data.2 regs) s reg = _
  unfold cellWrite
  by_cases hreg : hits P q.addr reg = true
  · rw [if_pos hreg, writeRegs_of_hits hwidth hreg hw, content_write_self _ _ _ _ hw]
  · rw [if_neg hreg]
    by_cases hresp : writeResp P q.addr = axiOkay
    · obtain ⟨other, hwother, hother⟩ := (writeResp_eq_okay_iff _).mp hresp
      rw [writeRegs_of_hits hwidth hother hwother]
      exact content_write_of_ne _ _ _ _ fun heq => hreg (heq ▸ hother)
    · rw [writeRegs_of_slverr hresp]

/-- Writes to other registers. -/
theorem foldl_cellWrite_of_others {reg : Register} {qs : List (WriteReq P)}
    (hothers : ∀ q ∈ qs, hits P q.addr reg = false) (c : BitVec 32) :
    qs.foldl (cellWrite P reg) c = c := by
  induction qs generalizing c with
  | nil => rfl
  | cons q qs ih =>
      rw [List.foldl_cons, cellWrite, if_neg (by simp [hothers q (by simp)])]
      exact ih (fun q' hq' => hothers q' (by simp [hq'])) c

/-- The other registers show the status only. -/
theorem content_readOnly {reg : Register} (hw : reg.writable = false)
    (regs regs' : Regs) (s : Status) :
    content regs s reg = content regs' s reg := by
  cases reg <;> simp_all [Register.writable, content]

theorem content_reset {reg : Register} (hw : reg.writable = true)
    (s : Status) :
    content Regs.reset s reg = 0 := by
  cases reg with
  | adcDelayIn i => simp [content, Regs.reset]
  | _ => first | exact absurd hw Bool.false_ne_true | rfl

/-- **The registers are independent cells.** After any requests a writable
register holds what the requests for its address alone make of it; the other
registers show the status. -/
theorem content_after (hwidth : 9 ≤ P.axiAddrWidth) (qs : List (WriteReq P))
    (s : Status) (reg : Register) :
    content ((file P).after Regs.reset qs) s reg =
      if reg.writable then qs.foldl (cellWrite P reg) 0
      else content Regs.reset s reg := by
  split_ifs with hw
  · rw [← content_reset hw s]
    generalize Regs.reset = regs
    induction qs generalizing regs with
    | nil => rfl
    | cons q qs ih =>
        rw [List.foldl_cons, ← content_apply hwidth hw, ← ih]
        rfl
  · exact content_readOnly (by simpa using hw) _ _ s

/-! ## Runs -/

namespace Run

variable (r : Run P)

/-- Registers of `read_fsm` before clock edge `t`. -/
def readFsm (t : Nat) : ReadFsm P :=
  (r.state t).read

/-- A read address is transferred. -/
def arHandshake (t : Nat) : Bool :=
  (r.input t).arvalid && (r.readFsm t).arready

/-- Data and responses transferred on the read data channel. -/
def rTransfers (t : Nat) : List (BitVec 32 × BitVec 2) :=
  transfers (fun u => (r.readFsm u).rvalid) (fun u => (r.input u).rready)
    (fun u => ((r.readFsm u).rdata, (r.readFsm u).rresp)) t

/-- The master does not withdraw a read address. -/
def ReadMaster : Prop :=
  Persistent (fun u => (r.input u).arvalid) (fun u => (r.readFsm u).arready)
    (fun u => (r.input u).araddr)

/-- The answers of the register file to the reads before clock `t`: each read
sees the writes served when its address is transferred. -/
def readAnswers (t : Nat) : List (BitVec 32 × BitVec 2) :=
  eventsBefore
    (fun u =>
      if r.arHandshake u then
        [readAnswer P (r.input u).araddr
          ((file P).after Regs.reset (r.served u)) (r.input u).status]
      else [])
    t

theorem readFsm_step (t : Nat) :
    (r.readFsm t).Step (r.writeFsm t).regs (r.input t) (r.readFsm (t + 1)) :=
  (r.readFsm t).step_cases (r.writeFsm t).regs (r.input t)

theorem readFsm_wf (t : Nat) : (r.readFsm t).Wf := by
  induction t with
  | zero => exact ⟨by simp [readFsm, state, reset],
      by simp [readFsm, state, reset], by simp [readFsm, state, reset]⟩
  | succ t ih => exact ih.next (r.readFsm_step t)

variable {r}

theorem ReadMaster.ar_offer (h : r.ReadMaster) (t : Nat)
    (hready : (r.readFsm t).arready = true) :
    (r.input t).arvalid = true ∧
      (r.input t).araddr = (r.readFsm t).araddrReg := by
  cases t with
  | zero => exact absurd hready (by simp [readFsm, state, reset])
  | succ t =>
      have hwf := r.readFsm_wf t
      have har := hwf.arready
      have hkeep := h t
      have hstep := r.readFsm_step t
      generalize r.readFsm (t + 1) = s' at hready hstep hkeep ⊢
      cases hstep with
      | take hs hvalid => simp_all
      | fetch hs => exact absurd hready Bool.false_ne_true
      | memory hs => exact absurd hs hwf.noMemory
      | respond hs => exact absurd hready Bool.false_ne_true
      | finish hs => exact absurd hready Bool.false_ne_true
      | stay => exact absurd hready Bool.false_ne_true

/-- The answers are those of the register file. -/
theorem ReadMaster.rTransfers_pending (h : r.ReadMaster) (t : Nat) :
    r.rTransfers t ++ (r.readFsm t).pending = r.readAnswers t := by
  refine eventsBefore_conservation (fun u => (r.readFsm u).pending)
    (fun u => ?_) rfl t
  have hclock := (r.readFsm_wf u).read_clock (r.readFsm_step u) (h.ar_offer u)
  rwa [r.served_regs u] at hclock

/-- **The bank is linearizable.** The answers on the read data channel are, in
order and up to one, those of the register file in the clocks in which the
addresses were transferred. What the register file has served at any time
includes the writes that were answered and only writes that were accepted. -/
theorem reads_linearized (hread : r.ReadMaster) (hwrite : r.WriteMaster)
    (t : Nat) :
    (∃ rest, rest.length ≤ 1 ∧ r.readAnswers t = r.rTransfers t ++ rest) ∧
      ∀ u, (r.bTransfers u).length ≤ (r.served u).length ∧
        (r.served u).map (·.addr) <+: r.awTransfers u ∧
        (r.served u).map (·.data) <+: r.wTransfers u := by
  constructor
  · refine ⟨(r.readFsm t).pending, ?_, ?_⟩
    · unfold ReadFsm.pending
      split_ifs <;> simp
    · exact (hread.rTransfers_pending t).symm
  · intro u
    refine ⟨?_, ⟨_, hwrite.served_addr u⟩, ⟨_, hwrite.served_data u⟩⟩
    have hlength := congrArg List.length (r.served_resp u)
    rw [List.length_append, Service.length_answers] at hlength
    omega

theorem streamOn_readMaster : streamOn.ReadMaster :=
  fun _ _ _ => ⟨rfl, rfl⟩

theorem reads_linearized_streamOn :
    streamOn.rTransfers 8 = [(0, axiOkay), (0x80002000, axiOkay)] ∧
      (∃ rest, rest.length ≤ 1 ∧
        streamOn.readAnswers 8 = streamOn.rTransfers 8 ++ rest) ∧
      ∀ u, (streamOn.bTransfers u).length ≤ (streamOn.served u).length ∧
        (streamOn.served u).map (·.addr) <+: streamOn.awTransfers u ∧
        (streamOn.served u).map (·.data) <+: streamOn.wTransfers u :=
  ⟨by decide +kernel,
    reads_linearized streamOn_readMaster streamOn_writeMaster 8⟩

variable (r)

/-- The read whose address is transferred in clock `u` gets its answer as the
next one after those of the earlier reads. -/
theorem ReadMaster.answer {r : Run P} (hread : r.ReadMaster) {u t : Nat}
    (hhand : r.arHandshake u = true)
    (hanswered : (r.readAnswers u).length < (r.rTransfers t).length) :
    (r.rTransfers t)[(r.readAnswers u).length]? =
      some (readAnswer P (r.input u).araddr (r.writeFsm u).regs
        (r.input u).status) := by
  have hpending := hread.rTransfers_pending t
  have hut : u + 1 ≤ t := by
    by_contra hlate
    have hearlier : r.readAnswers t <+: r.readAnswers u :=
      eventsBefore_prefix _ (by omega)
    have hle := hearlier.length_le
    have hlength := congrArg List.length hpending
    rw [List.length_append] at hlength
    omega
  have hnext : r.readAnswers (u + 1) =
      r.readAnswers u ++
        [readAnswer P (r.input u).araddr (r.writeFsm u).regs
          (r.input u).status] := by
    rw [readAnswers, eventsBefore_succ, if_pos hhand, ← r.served_regs]
    rfl
  obtain ⟨more, hmore⟩ : r.readAnswers (u + 1) <+: r.readAnswers t :=
    eventsBefore_prefix _ hut
  rw [← List.getElem?_append_left hanswered, hpending, ← hmore, hnext,
    List.append_assoc, List.getElem?_append_right (le_refl _)]
  simp

/-- **What was written is read back.** A read of a register whose last write
had all its strobes gives the data of that write, without the bits that the
register does not have. -/
theorem read_back (hread : r.ReadMaster) (hwidth : 9 ≤ P.axiAddrWidth)
    {u t : Nat} {reg : Register} (hhand : r.arHandshake u = true)
    (hw : reg.writable = true) (hreg : hits P (r.input u).araddr reg = true)
    {before later : List (WriteReq P)} {q : WriteReq P}
    (hserved : r.served u = before ++ q :: later)
    (hq : hits P q.addr reg = true) (hall : q.data.2 = BitVec.allOnes 4)
    (hlater : ∀ q' ∈ later, hits P q'.addr reg = false)
    (hanswered : (r.readAnswers u).length < (r.rTransfers t).length) :
    (r.rTransfers t)[(r.readAnswers u).length]? =
      some (q.data.1 &&& reg.mask, axiOkay) := by
  rw [hread.answer hhand hanswered, readAnswer, readData_of_hits hwidth hreg,
    readResp_of_hits hreg, r.served_regs, hserved, content_after hwidth,
    if_pos hw, List.foldl_append, List.foldl_cons,
    foldl_cellWrite_of_others hlater, cellWrite, if_pos hq, hall,
    strobed_allOnes _ _ (by decide)]
  simp

/-- The first read of `streamOn` that sees a write. -/
theorem read_back_streamOn :
    (streamOn.rTransfers 8)[(streamOn.readAnswers 5).length]? =
      some (0x80002000 &&& Register.streamCtrl.mask, axiOkay) := by
  have hserved : streamOn.served 5 =
      [⟨0x44, 0x80002000, 0xF⟩] ++ ⟨0x44, 0x80002000, 0xF⟩ :: [] :=
    rfl
  exact streamOn.read_back streamOn_readMaster (by decide) (by decide +kernel)
    rfl (by decide +kernel) hserved (by decide +kernel) rfl (by simp)
    (by decide +kernel)

end Run

end MollerRegs
end MollerFirmware
