import MollerFirmware.Hdl.MollerRegsRead

/-!
# moller_regs: strobes and pace

The firmware learns of accesses from the strobes: each access that finds its
register pulses one strobe for one clock. To the bus master the bank is a slave
that keeps its own offers and never blocks: writes take three clocks and reads
four when the master does not delay them.
-/

namespace MollerFirmware
namespace MollerRegs

open Clocked Memory

variable {P : Params}

namespace Run

variable (r : Run P)

/-! ## Strobes -/

/-- A write strobe is high in the clock after its register was served. -/
theorem writeStrobe_succ (t : Nat) (reg : Register) :
    (r.writeFsm (t + 1)).strobe reg =
      (r.writeFsm t).serve.any fun q => writeHits P q.addr reg := by
  have hstep := r.writeFsm_step t
  generalize r.writeFsm (t + 1) = s' at hstep ⊢
  cases hstep <;>
    simp_all [WriteFsm.serve, WriteFsm.defaults, WriteFsm.takeAddr,
      WriteFsm.takeData, WriteFsm.update]

/-- A read strobe is high in the clock after its address was transferred. -/
theorem ReadMaster.readStrobe_succ {r : Run P} (h : r.ReadMaster) (t : Nat)
    (reg : Register) :
    (r.readFsm (t + 1)).strobe reg =
      (r.arHandshake t && (!reg.writable && hits P (r.input t).araddr reg)) := by
  have hwf := r.readFsm_wf t
  have har := hwf.arready
  have hoffer := h.ar_offer t
  have hstep := r.readFsm_step t
  unfold arHandshake
  generalize r.readFsm (t + 1) = s' at hstep ⊢
  cases hstep with
  | memory hs => exact absurd hs hwf.noMemory
  | stay hidle hdone hs =>
      rcases hs with hs | hs <;> simp_all [ReadFsm.defaults]
  | _ => simp_all [ReadFsm.defaults, ReadFsm.fetch]

/-- Read addresses transferred before clock `t`. -/
def arTransfers (t : Nat) : List (Addr P) :=
  transfers (fun u => (r.input u).arvalid) (fun u => (r.readFsm u).arready)
    (fun u => (r.input u).araddr) t

theorem writeStrobe_pulses (t : Nat) (reg : Register) :
    pulsesIn (fun u => (r.writeFsm u).strobe reg) 0 (t + 1) =
      (r.served t).countP fun q => writeHits P q.addr reg := by
  induction t with
  | zero => simp [pulsesIn, writeFsm, state, reset, served]
  | succ t ih =>
      rw [pulsesIn_succ _ (Nat.zero_le _), ih, r.writeStrobe_succ, served, served,
        eventsBefore_succ, List.countP_append]
      congr 1
      rcases hserve : (r.writeFsm t).serve with - | ⟨q, - | ⟨q', qs⟩⟩
      · simp
      · simp [List.countP_cons]
      · unfold WriteFsm.serve at hserve
        split_ifs at hserve
        simp at hserve

theorem ReadMaster.readStrobe_pulses {r : Run P} (h : r.ReadMaster) (t : Nat)
    (reg : Register) :
    pulsesIn (fun u => (r.readFsm u).strobe reg) 0 (t + 1) =
      (r.arTransfers t).countP fun a => !reg.writable && hits P a reg := by
  induction t with
  | zero => simp [pulsesIn, readFsm, state, reset, arTransfers]
  | succ t ih =>
      rw [pulsesIn_succ _ (Nat.zero_le _), ih, h.readStrobe_succ, arTransfers,
        arTransfers]
      cases hhand : r.arHandshake t with
      | true =>
          obtain ⟨hvalid, hready⟩ := Bool.and_eq_true_iff.mp hhand
          rw [transfers_taken hvalid hready]
          simp [List.countP_append, List.countP_cons]
      | false =>
          rcases Bool.and_eq_false_iff.mp hhand with hvalid | hready
          · rw [transfers_notValid hvalid]
            simp
          · rw [transfers_notReady hready]
            simp

/-- **Strobes count accesses.** Up to the clock after `t`, the strobe of a
writable register has been high once for each write to it that was served
before `t`, and that of any other register once for each read of it. -/
theorem strobes_count (h : r.ReadMaster) (t : Nat) (reg : Register) :
    pulsesIn (fun u => (r.writeFsm u).strobe reg) 0 (t + 1) =
        (r.served t).countP (fun q => writeHits P q.addr reg) ∧
      pulsesIn (fun u => (r.readFsm u).strobe reg) 0 (t + 1) =
        (r.arTransfers t).countP (fun a => !reg.writable && hits P a reg) :=
  ⟨r.writeStrobe_pulses t reg, h.readStrobe_pulses t reg⟩

theorem strobes_count_streamOn :
    pulsesIn (fun u => (streamOn.writeFsm u).strobe .streamCtrl) 0 6 =
        (streamOn.served 5).countP
          (fun q => writeHits ⟨0, 9⟩ q.addr .streamCtrl) ∧
      pulsesIn (fun u => (streamOn.readFsm u).strobe .streamCtrl) 0 6 =
        (streamOn.arTransfers 5).countP
          (fun a => !Register.streamCtrl.writable &&
            hits ⟨0, 9⟩ a .streamCtrl) :=
  streamOn.strobes_count streamOn_readMaster 5 .streamCtrl

/-! ## Offers of the bank -/

/-- An offer of the bank stays as it is until it is taken. -/
theorem responses_persist :
    Persistent (fun u => (r.writeFsm u).bvalid) (fun u => (r.input u).bready)
        (fun u => (r.writeFsm u).bresp) ∧
      Persistent (fun u => (r.readFsm u).rvalid) (fun u => (r.input u).rready)
        (fun u => ((r.readFsm u).rdata, (r.readFsm u).rresp)) := by
  constructor
  · intro t hvalid hready
    have hdone := (r.writeFsm_wf t).bvalid.mp hvalid
    have hstep := r.writeFsm_step t
    show (r.writeFsm (t + 1)).bvalid = true ∧
      (r.writeFsm (t + 1)).bresp = (r.writeFsm t).bresp
    generalize r.writeFsm (t + 1) = s' at hstep ⊢
    cases hstep <;> simp_all [WriteFsm.defaults]
  · intro t hvalid hready
    have hdone := (r.readFsm_wf t).rvalid.mp hvalid
    have hstep := r.readFsm_step t
    show (r.readFsm (t + 1)).rvalid = true ∧
      ((r.readFsm (t + 1)).rdata, (r.readFsm (t + 1)).rresp) =
        ((r.readFsm t).rdata, (r.readFsm t).rresp)
    generalize r.readFsm (t + 1) = s' at hstep ⊢
    cases hstep <;> simp_all [ReadFsm.defaults]

/-! ## Pace -/

/-- The master offers a write and takes a response. -/
def WriteBusy (t : Nat) : Prop :=
  (r.input t).awvalid = true ∧ (r.input t).wvalid = true ∧
    (r.input t).bready = true

/-- The master offers a read and takes an answer. -/
def ReadBusy (t : Nat) : Prop :=
  (r.input t).arvalid = true ∧ (r.input t).rready = true

variable {r}

theorem WriteBusy.step {t : Nat} (h : r.WriteBusy t) :
    (r.writeFsm (t + 1)).state =
      match (r.writeFsm t).state with
      | .idle => .updateRegister
      | .addrFirst => .updateRegister
      | .dataFirst => .updateRegister
      | .updateRegister => .done
      | .done => .idle := by
  obtain ⟨haw, hw, hb⟩ := h
  have hstep := r.writeFsm_step t
  generalize r.writeFsm (t + 1) = s' at hstep ⊢
  cases hs : (r.writeFsm t).state <;> cases hstep <;>
    simp_all [WriteFsm.update]

theorem ReadBusy.step {t : Nat} (h : r.ReadBusy t) :
    (r.readFsm (t + 1)).state =
      match (r.readFsm t).state with
      | .idle => .register
      | .register => .response
      | .waitMemory => .waitMemory
      | .response => .done
      | .done => .idle := by
  obtain ⟨har, hr⟩ := h
  have hmemory := (r.readFsm_wf t).noMemory
  have hstep := r.readFsm_step t
  generalize r.readFsm (t + 1) = s' at hstep ⊢
  cases hs : (r.readFsm t).state <;> cases hstep <;>
    simp_all [ReadFsm.fetch]

theorem WriteBusy.handshake {t : Nat} (h : r.WriteBusy t) :
    ((r.writeFsm t).bvalid && (r.input t).bready) = true ↔
      (r.writeFsm t).state = .done := by
  rw [h.2.2, Bool.and_true, (r.writeFsm_wf t).bvalid]

theorem ReadBusy.handshake {t : Nat} (h : r.ReadBusy t) :
    ((r.readFsm t).rvalid && (r.input t).rready) = true ↔
      (r.readFsm t).state = .done := by
  rw [h.2, Bool.and_true, (r.readFsm_wf t).rvalid]

variable (r)

theorem write_pace {t : Nat}
    (hbusy : ∀ u, t ≤ u → u < t + 3 → r.WriteBusy u) :
    pulsesIn (fun u => (r.writeFsm u).bvalid && (r.input u).bready)
      t (t + 3) = 1 := by
  have h0 := hbusy t (le_refl t) (by omega)
  have h1 := hbusy (t + 1) (by omega) (by omega)
  have h2 := hbusy (t + 2) (by omega) (by omega)
  have hnext := h0.step
  have hnext' := h1.step
  rw [pulsesIn_succ _ (by omega), pulsesIn_succ _ (by omega),
    pulsesIn_succ _ (le_refl t), pulsesIn_self]
  simp only [h0.handshake, h1.handshake, h2.handshake]
  cases hs : (r.writeFsm t).state <;> simp_all

theorem read_pace {t : Nat}
    (hbusy : ∀ u, t ≤ u → u < t + 4 → r.ReadBusy u) :
    pulsesIn (fun u => (r.readFsm u).rvalid && (r.input u).rready)
      t (t + 4) = 1 := by
  have h0 := hbusy t (le_refl t) (by omega)
  have h1 := hbusy (t + 1) (by omega) (by omega)
  have h2 := hbusy (t + 2) (by omega) (by omega)
  have h3 := hbusy (t + 3) (by omega) (by omega)
  have hmemory := (r.readFsm_wf t).noMemory
  have hnext := h0.step
  have hnext' := h1.step
  have hnext'' := h2.step
  rw [pulsesIn_succ _ (by omega), pulsesIn_succ _ (by omega),
    pulsesIn_succ _ (by omega), pulsesIn_succ _ (le_refl t), pulsesIn_self]
  simp only [h0.handshake, h1.handshake, h2.handshake, h3.handshake]
  cases hs : (r.readFsm t).state <;> simp_all

/-- **The bank is a slave that never blocks.** Its offers stay until they are
taken. In any three clocks in which the master offers writes and takes
responses it gets one response, and in any four clocks in which it offers reads
and takes answers it gets one answer. -/
theorem never_blocks :
    Persistent (fun u => (r.writeFsm u).bvalid) (fun u => (r.input u).bready)
        (fun u => (r.writeFsm u).bresp) ∧
      Persistent (fun u => (r.readFsm u).rvalid) (fun u => (r.input u).rready)
        (fun u => ((r.readFsm u).rdata, (r.readFsm u).rresp)) ∧
      (∀ t, (∀ u, t ≤ u → u < t + 3 → r.WriteBusy u) →
        pulsesIn (fun u => (r.writeFsm u).bvalid && (r.input u).bready)
          t (t + 3) = 1) ∧
      ∀ t, (∀ u, t ≤ u → u < t + 4 → r.ReadBusy u) →
        pulsesIn (fun u => (r.readFsm u).rvalid && (r.input u).rready)
          t (t + 4) = 1 :=
  ⟨r.responses_persist.1, r.responses_persist.2, fun _ => r.write_pace,
    fun _ => r.read_pace⟩

end Run

end MollerRegs
end MollerFirmware
