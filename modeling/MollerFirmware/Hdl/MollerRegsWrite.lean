import MollerFirmware.Hdl.MollerRegsMap

/-!
# moller_regs: the write channels

Address and data of a write arrive on two channels, in either order. The bank
saves each of them one clock before it acknowledges it, so that what it has
saved is what is transferred only because an offer is not withdrawn.

A write is served in `WRITE_UPDATE_REGISTER`. The requests served so far are
the addresses and the data transferred so far, paired in order; the registers
and the responses are those of a register file that serves these requests one
after another.
-/

namespace MollerFirmware
namespace MollerRegs

open Clocked Memory

/-- A write request: an address with the data and strobes that go with it. -/
structure WriteReq (P : Params) where
  addr : Addr P
  data : BitVec 32 × BitVec 4

/-- The register file that serves one write after another. -/
def file (P : Params) : Service Regs (WriteReq P) (BitVec 2) :=
  { apply := fun regs q => writeRegs P q.addr q.data.1 q.data.2 regs
    answer := fun _ q => writeResp P q.addr }

variable {P : Params}

theorem file_answers (regs : Regs) (qs : List (WriteReq P)) :
    (file P).answers regs qs = qs.map fun q => writeResp P q.addr := by
  induction qs generalizing regs with
  | nil => rfl
  | cons q qs ih =>
      rw [Service.answers, List.map_cons, ih]
      rfl

/-! ## One clock -/

/-- What a clock edge can do to `write_fsm`. -/
inductive WriteFsm.Step (s : WriteFsm P) (i : Input P) : WriteFsm P → Prop
  | both (hs : s.state = .idle) (haw : i.awvalid = true)
      (hw : i.wvalid = true) :
      Step s i
        { (s.defaults.takeAddr i).takeData i with state := .updateRegister }
  | addrFirst (hs : s.state = .idle) (haw : i.awvalid = true)
      (hw : i.wvalid = false) :
      Step s i { s.defaults.takeAddr i with state := .addrFirst }
  | dataFirst (hs : s.state = .idle) (haw : i.awvalid = false)
      (hw : i.wvalid = true) :
      Step s i { s.defaults.takeData i with state := .dataFirst }
  | dataSecond (hs : s.state = .addrFirst) (hw : i.wvalid = true) :
      Step s i { s.defaults.takeData i with state := .updateRegister }
  | addrSecond (hs : s.state = .dataFirst) (haw : i.awvalid = true) :
      Step s i { s.defaults.takeAddr i with state := .updateRegister }
  | update (hs : s.state = .updateRegister) :
      Step s i s.defaults.update
  | finish (hs : s.state = .done) (hb : i.bready = true) :
      Step s i { s.defaults with bvalid := false, state := .idle }
  | stay (hs : s.state ≠ .updateRegister)
      (hidle : s.state = .idle → i.awvalid = false ∧ i.wvalid = false)
      (haddr : s.state = .addrFirst → i.wvalid = false)
      (hdata : s.state = .dataFirst → i.awvalid = false)
      (hdone : s.state = .done → i.bready = false) :
      Step s i s.defaults

theorem WriteFsm.step_cases (s : WriteFsm P) (i : Input P) :
    WriteFsm.Step s i (s.step i) := by
  unfold WriteFsm.step
  cases hs : s.state with
  | idle =>
      cases haw : i.awvalid <;> cases hw : i.wvalid
      · exact .stay (by simp [hs]) (fun _ => ⟨haw, hw⟩) (by simp [hs])
          (by simp [hs]) (by simp [hs])
      · exact .dataFirst hs haw hw
      · exact .addrFirst hs haw hw
      · exact .both hs haw hw
  | addrFirst =>
      cases hw : i.wvalid
      · exact .stay (by simp [hs]) (by simp [hs]) (fun _ => hw)
          (by simp [hs]) (by simp [hs])
      · exact .dataSecond hs hw
  | dataFirst =>
      cases haw : i.awvalid
      · exact .stay (by simp [hs]) (by simp [hs]) (by simp [hs])
          (fun _ => haw) (by simp [hs])
      · exact .addrSecond hs haw
  | updateRegister => exact .update hs
  | done =>
      cases hb : i.bready
      · exact .stay (by simp [hs]) (by simp [hs]) (by simp [hs])
          (by simp [hs]) (fun _ => hb)
      · exact .finish hs hb

/-- How the outputs go with the state. -/
structure WriteFsm.Wf (s : WriteFsm P) : Prop where
  awready : s.awready = true → s.state = .addrFirst ∨ s.state = .updateRegister
  wready : s.wready = true → s.state = .dataFirst ∨ s.state = .updateRegister
  bvalid : s.bvalid = true ↔ s.state = .done

theorem WriteFsm.Wf.next {s s' : WriteFsm P} {i : Input P} (h : s.Wf)
    (hstep : s.Step i s') :
    s'.Wf := by
  have hb := h.bvalid
  cases hstep with
  | both hs haw hw =>
      exact ⟨fun _ => .inr rfl, fun _ => .inr rfl,
        by simp_all [defaults, takeAddr, takeData]⟩
  | addrFirst hs haw hw =>
      exact ⟨fun _ => .inl rfl, by simp [defaults, takeAddr],
        by simp_all [defaults, takeAddr]⟩
  | dataFirst hs haw hw =>
      exact ⟨by simp [defaults, takeData], fun _ => .inl rfl,
        by simp_all [defaults, takeData]⟩
  | dataSecond hs hw =>
      exact ⟨by simp [defaults, takeData], fun _ => .inr rfl,
        by simp_all [defaults, takeData]⟩
  | addrSecond hs haw =>
      exact ⟨fun _ => .inr rfl, by simp [defaults, takeAddr],
        by simp_all [defaults, takeAddr]⟩
  | update hs =>
      exact ⟨by simp [defaults, update], by simp [defaults, update],
        by simp [update]⟩
  | finish hs hbr =>
      exact ⟨by simp [defaults], by simp [defaults], by simp⟩
  | stay hs =>
      exact ⟨by simp [defaults], by simp [defaults], hb⟩

/-- The request served in a clock. -/
def WriteFsm.serve (s : WriteFsm P) : List (WriteReq P) :=
  if s.state = .updateRegister then [⟨s.awaddrReg, s.wdataReg, s.wstrbReg⟩]
  else []

/-- An address that has been transferred and waits for its data. -/
def WriteFsm.pendingAddr (s : WriteFsm P) : List (Addr P) :=
  if s.awready = false ∧ (s.state = .addrFirst ∨ s.state = .updateRegister) then
    [s.awaddrReg]
  else []

/-- Data that have been transferred and wait for their address. -/
def WriteFsm.pendingData (s : WriteFsm P) : List (BitVec 32 × BitVec 4) :=
  if s.wready = false ∧ (s.state = .dataFirst ∨ s.state = .updateRegister) then
    [(s.wdataReg, s.wstrbReg)]
  else []

/-- A response that has not been taken. -/
def WriteFsm.pendingResp (s : WriteFsm P) : List (BitVec 2) :=
  if s.bvalid then [s.bresp] else []

/-- The addresses: one that is acknowledged in this clock is transferred in
this clock. -/
theorem WriteFsm.Wf.addr_clock {s s' : WriteFsm P} {i : Input P} (h : s.Wf)
    (hstep : s.Step i s')
    (hoffer : s.awready = true → i.awvalid = true ∧ i.awaddr = s.awaddrReg) :
    s.serve.map (·.addr) ++ s'.pendingAddr =
      s.pendingAddr ++ if i.awvalid && s.awready then [i.awaddr] else [] := by
  have haw := h.awready
  cases hready : s.awready with
  | true =>
      obtain ⟨hvalid, haddr⟩ := hoffer hready
      have hs := haw hready
      cases hstep <;>
        simp_all [serve, pendingAddr, defaults, takeData, update]
  | false =>
      cases hstep <;>
        simp_all [serve, pendingAddr, defaults, takeData, takeAddr, update]

theorem WriteFsm.Wf.data_clock {s s' : WriteFsm P} {i : Input P} (h : s.Wf)
    (hstep : s.Step i s')
    (hoffer : s.wready = true →
      i.wvalid = true ∧ (i.wdata, i.wstrb) = (s.wdataReg, s.wstrbReg)) :
    s.serve.map (·.data) ++ s'.pendingData =
      s.pendingData ++
        if i.wvalid && s.wready then [(i.wdata, i.wstrb)] else [] := by
  have hw := h.wready
  cases hready : s.wready with
  | true =>
      obtain ⟨hvalid, hdata⟩ := hoffer hready
      have hs := hw hready
      cases hstep <;>
        simp_all [serve, pendingData, defaults, takeAddr, update]
  | false =>
      cases hstep <;>
        simp_all [serve, pendingData, defaults, takeData, takeAddr, update]

theorem WriteFsm.Wf.resp_clock {s s' : WriteFsm P} {i : Input P} (h : s.Wf)
    (hstep : s.Step i s') :
    (if s.bvalid && i.bready then [s.bresp] else []) ++ s'.pendingResp =
      s.pendingResp ++ s.serve.map fun q => writeResp P q.addr := by
  have hb := h.bvalid
  cases hstep <;>
    simp_all [serve, pendingResp, defaults, takeData, takeAddr, update]

theorem WriteFsm.Step.regs {s s' : WriteFsm P} {i : Input P}
    (hstep : s.Step i s') :
    s'.regs = (file P).after s.regs s.serve := by
  cases hstep with
  | update hs =>
      rw [serve, if_pos hs]
      rfl
  | _ => simp_all [serve, defaults, takeData, takeAddr]

/-! ## Runs -/

/-- A run after reset: what the bus master and the firmware do. -/
structure Run (P : Params) where
  input : Nat → Input P

namespace Run

variable (r : Run P)

/-- Registers before clock edge `t`. -/
def state (t : Nat) : State P :=
  run step (reset P) r.input t

/-- Registers of `write_fsm` before clock edge `t`. -/
def writeFsm (t : Nat) : WriteFsm P :=
  (r.state t).write

/-- Addresses transferred on the write address channel. -/
def awTransfers (t : Nat) : List (Addr P) :=
  transfers (fun u => (r.input u).awvalid) (fun u => (r.writeFsm u).awready)
    (fun u => (r.input u).awaddr) t

/-- Data and strobes transferred on the write data channel. -/
def wTransfers (t : Nat) : List (BitVec 32 × BitVec 4) :=
  transfers (fun u => (r.input u).wvalid) (fun u => (r.writeFsm u).wready)
    (fun u => ((r.input u).wdata, (r.input u).wstrb)) t

/-- Responses transferred on the write response channel. -/
def bTransfers (t : Nat) : List (BitVec 2) :=
  transfers (fun u => (r.writeFsm u).bvalid) (fun u => (r.input u).bready)
    (fun u => (r.writeFsm u).bresp) t

/-- The master does not withdraw an offer on the write channels. -/
structure WriteMaster : Prop where
  aw : Persistent (fun u => (r.input u).awvalid)
    (fun u => (r.writeFsm u).awready) (fun u => (r.input u).awaddr)
  w : Persistent (fun u => (r.input u).wvalid)
    (fun u => (r.writeFsm u).wready)
    (fun u => ((r.input u).wdata, (r.input u).wstrb))

/-- The requests served before clock `t`, in order. -/
def served (t : Nat) : List (WriteReq P) :=
  eventsBefore (fun u => (r.writeFsm u).serve) t

theorem writeFsm_step (t : Nat) :
    (r.writeFsm t).Step (r.input t) (r.writeFsm (t + 1)) :=
  (r.writeFsm t).step_cases (r.input t)

theorem writeFsm_wf (t : Nat) : (r.writeFsm t).Wf := by
  induction t with
  | zero => exact ⟨by simp [writeFsm, state, reset],
      by simp [writeFsm, state, reset], by simp [writeFsm, state, reset]⟩
  | succ t ih => exact ih.next (r.writeFsm_step t)

variable {r}

/-- An address is acknowledged one clock after it was saved. Meanwhile the
master has not withdrawn it. -/
theorem WriteMaster.aw_offer (h : r.WriteMaster) (t : Nat)
    (hready : (r.writeFsm t).awready = true) :
    (r.input t).awvalid = true ∧
      (r.input t).awaddr = (r.writeFsm t).awaddrReg := by
  cases t with
  | zero => exact absurd hready (by simp [writeFsm, state, reset])
  | succ t =>
      have hwf := (r.writeFsm_wf t).awready
      have hkeep := h.aw t
      have hstep := r.writeFsm_step t
      generalize r.writeFsm (t + 1) = s' at hready hstep hkeep ⊢
      cases hstep <;>
        simp_all [WriteFsm.defaults, WriteFsm.takeAddr, WriteFsm.takeData,
          WriteFsm.update]

theorem WriteMaster.w_offer (h : r.WriteMaster) (t : Nat)
    (hready : (r.writeFsm t).wready = true) :
    (r.input t).wvalid = true ∧
      ((r.input t).wdata, (r.input t).wstrb) =
        ((r.writeFsm t).wdataReg, (r.writeFsm t).wstrbReg) := by
  cases t with
  | zero => exact absurd hready (by simp [writeFsm, state, reset])
  | succ t =>
      have hwf := (r.writeFsm_wf t).wready
      have hkeep := h.w t
      have hstep := r.writeFsm_step t
      generalize r.writeFsm (t + 1) = s' at hready hstep hkeep ⊢
      cases hstep <;>
        simp_all [WriteFsm.defaults, WriteFsm.takeAddr, WriteFsm.takeData,
          WriteFsm.update]

/-- The addresses served and the one waiting are those transferred. -/
theorem WriteMaster.served_addr (h : r.WriteMaster) (t : Nat) :
    (r.served t).map (·.addr) ++ (r.writeFsm t).pendingAddr =
      r.awTransfers t := by
  rw [served, eventsBefore_map]
  exact eventsBefore_conservation (fun u => (r.writeFsm u).pendingAddr)
    (fun u => (r.writeFsm_wf u).addr_clock (r.writeFsm_step u) (h.aw_offer u))
    rfl t

theorem WriteMaster.served_data (h : r.WriteMaster) (t : Nat) :
    (r.served t).map (·.data) ++ (r.writeFsm t).pendingData =
      r.wTransfers t := by
  rw [served, eventsBefore_map]
  exact eventsBefore_conservation (fun u => (r.writeFsm u).pendingData)
    (fun u => (r.writeFsm_wf u).data_clock (r.writeFsm_step u) (h.w_offer u))
    rfl t

variable (r)

/-- Every request served is answered, in order. -/
theorem served_resp (t : Nat) :
    r.bTransfers t ++ (r.writeFsm t).pendingResp =
      (file P).answers Regs.reset (r.served t) := by
  rw [file_answers, served, eventsBefore_map]
  exact eventsBefore_conservation (fun u => (r.writeFsm u).pendingResp)
    (fun u => (r.writeFsm_wf u).resp_clock (r.writeFsm_step u)) rfl t

/-- The registers are those of the register file. -/
theorem served_regs (t : Nat) :
    (r.writeFsm t).regs = (file P).after Regs.reset (r.served t) := by
  induction t with
  | zero => rfl
  | succ t ih =>
      rw [(r.writeFsm_step t).regs, ih, ← Service.after_append]
      rfl

/-- **Writes are served in order, each once.** At any time the requests served
are, up to one, the addresses transferred so far paired with the data
transferred so far. The registers are what the register file makes of them, and
the responses are its answers, up to one that the master has not taken; while
it is open no further request is accepted. -/
theorem writes_in_order (h : r.WriteMaster) (t : Nat) :
    ∃ aws ws bs,
      r.awTransfers t = (r.served t).map (·.addr) ++ aws ∧
      r.wTransfers t = (r.served t).map (·.data) ++ ws ∧
      (file P).answers Regs.reset (r.served t) = r.bTransfers t ++ bs ∧
      (r.writeFsm t).regs = (file P).after Regs.reset (r.served t) ∧
      aws.length ≤ 1 ∧ ws.length ≤ 1 ∧ bs.length ≤ 1 ∧
      (bs ≠ [] → aws = [] ∧ ws = []) := by
  refine ⟨_, _, _, (h.served_addr t).symm, (h.served_data t).symm,
    (r.served_resp t).symm, r.served_regs t, ?_, ?_, ?_, ?_⟩
  · unfold WriteFsm.pendingAddr
    split_ifs <;> simp
  · unfold WriteFsm.pendingData
    split_ifs <;> simp
  · unfold WriteFsm.pendingResp
    split_ifs <;> simp
  · intro hopen
    have hvalid : (r.writeFsm t).bvalid = true := by
      by_contra hvalid
      exact hopen (by simp [WriteFsm.pendingResp, hvalid])
    have hdone := (r.writeFsm_wf t).bvalid.mp hvalid
    simp [WriteFsm.pendingAddr, WriteFsm.pendingData, hdone]

/-- Nothing to report. -/
def noStatus : Status :=
  { adcTestDataBadPatternCounter := fun _ => 0
    adcTestDataBadDcoCounter := fun _ => 0
    revisionValue := 287
    freqTdValue := 0
    freqOscValue := 0
    freqSom0Value := 0
    freqSom1Value := 0
    statusClkLockdetect := 0
    statusClkHoldover := 0
    statusAdcTrainDone := 0
    adcDelayOutValue := fun _ => 0
    adcFifoCountValue := 0
    runFifoCountValue := 0
    tiFifoCountValue := 0 }

/-- A master that writes `stream_ctrl` again and again and reads it back. -/
def streamOn : Run ⟨0, 9⟩ :=
  { input := fun _ =>
      { awaddr := 0x44
        awvalid := true
        wdata := 0x80002000
        wstrb := 0xF
        wvalid := true
        bready := true
        araddr := 0x44
        arvalid := true
        rready := true
        status := noStatus } }

theorem streamOn_writeMaster : streamOn.WriteMaster :=
  ⟨fun _ _ _ => ⟨rfl, rfl⟩, fun _ _ _ => ⟨rfl, rfl⟩⟩

theorem writes_in_order_streamOn :
    (streamOn.served 5).length = 2 ∧
      ∃ aws ws bs,
        streamOn.awTransfers 5 = (streamOn.served 5).map (·.addr) ++ aws ∧
        streamOn.wTransfers 5 = (streamOn.served 5).map (·.data) ++ ws ∧
        (file ⟨0, 9⟩).answers Regs.reset (streamOn.served 5) =
          streamOn.bTransfers 5 ++ bs ∧
        (streamOn.writeFsm 5).regs =
          (file ⟨0, 9⟩).after Regs.reset (streamOn.served 5) ∧
        aws.length ≤ 1 ∧ ws.length ≤ 1 ∧ bs.length ≤ 1 ∧
        (bs ≠ [] → aws = [] ∧ ws = []) :=
  ⟨by decide +kernel, streamOn.writes_in_order streamOn_writeMaster 5⟩

end Run

end MollerRegs
end MollerFirmware
