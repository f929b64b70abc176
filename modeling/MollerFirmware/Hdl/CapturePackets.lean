import MollerFirmware.Clocked.Windows
import MollerFirmware.Hdl.SubsystemCapture

/-!
# The packet counter of subsystem_capture

`pkt_counter` counts the pulses of `captured`. The packetizer takes a snapshot
one clock after such a pulse, and only if it is idle: a pulse whose snapshot
finds the packetizer busy is dropped. Since the counter counts dropped pulses
too, a receiver sees from the counters of two packets how many were dropped
between them.

A `Session` is a run of the module on its own, with any inputs, after a reset
of at least two clocks: `cap_reg` has no reset of its own and follows `started`
one clock later.
-/

namespace MollerFirmware
namespace SubsystemCapture

open Clocked

/-- A run of the module after reset. -/
structure Session where
  before : State
  resetInput : Nat → Input
  resetClocks : Nat
  two_le_resetClocks : 2 ≤ resetClocks
  input : Nat → Input

namespace Session

/-- Registers at the end of the reset. -/
def initial (r : Session) : State :=
  run reset r.before r.resetInput r.resetClocks

/-- Registers before clock edge `t`. -/
def state (r : Session) (t : Nat) : State :=
  run step r.initial r.input t

/-- `captured` -/
def captured (r : Session) (t : Nat) : Bool :=
  SubsystemCapture.captured (r.state t) (r.input t)

/-- `cap_reg` -/
def capReg (r : Session) (t : Nat) : Bool :=
  (r.state t).capReg

/-- `ready_for_capture` of the packetizer -/
def readyForCapture (r : Session) (t : Nat) : Bool :=
  (r.state t).packetizer.readyForCapture

/-- The packetizer takes a snapshot. -/
def emits (r : Session) (t : Nat) : Bool :=
  r.capReg t && r.readyForCapture t

/-- A pulse is lost because the packetizer is busy. -/
def drops (r : Session) (t : Nat) : Bool :=
  r.capReg t && !r.readyForCapture t

/-- Number of pulses of `captured` before clock `t`. -/
def pulses (r : Session) (t : Nat) : Nat :=
  pulsesIn r.captured 0 t

/-- The packet made of the snapshot of a clock. -/
def packetAt (r : Session) (t : Nat) :
    List (SimplePacketizer.Beat packetizerParams.width) :=
  SimplePacketizer.packet packetizerParams
    (packetizerInput (r.state t) (r.input t)).d

/-- The clocks before `t` in which a snapshot was taken. -/
def emissions (r : Session) (t : Nat) : List Nat :=
  eventsBefore (fun u => if r.emits u then [u] else []) t

/-- The words transferred before clock `t`. -/
def transferred (r : Session) (t : Nat) :
    List (SimplePacketizer.Beat packetizerParams.width) :=
  eventsBefore (fun u =>
    SimplePacketizer.transfer (r.state u).packetizer
      (packetizerInput (r.state u) (r.input u))) t

/-- The packet counter in a packet: the low sixty bits of the word after the
header and the time stamp. -/
def counterOf (p : List (SimplePacketizer.Beat packetizerParams.width)) :
    BitVec 60 :=
  match p[2]? with
  | some beat => beat.tdata.setWidth 60
  | none => 0

variable (r : Session)

theorem state_succ (t : Nat) :
    r.state (t + 1) = step (r.state t) (r.input t) := by
  rfl

theorem capReg_succ (t : Nat) :
    r.capReg (t + 1) = r.captured t := by
  rfl

/-- Two clocks of reset clear `cap_reg` as well. -/
theorem initial_cleared :
    r.initial.capReg = false ∧ r.initial.pktCounter = 0 ∧
      ∃ p, r.initial.packetizer = SimplePacketizer.reset p := by
  obtain ⟨k, hk⟩ : ∃ k, r.resetClocks = k + 2 :=
    ⟨r.resetClocks - 2, by have := r.two_le_resetClocks; omega⟩
  unfold initial
  rw [hk, run_succ, run_succ]
  refine ⟨?_, rfl, _, rfl⟩
  simp [reset, SubsystemCapture.captured]

/-- The counter counts the pulses. -/
theorem pktCounter_eq (t : Nat) :
    (r.state t).pktCounter = BitVec.ofNat 64 (r.pulses t) := by
  induction t with
  | zero =>
      exact r.initial_cleared.2.1
  | succ t ih =>
      have hstep : (r.state (t + 1)).pktCounter =
          if r.captured t then (r.state t).pktCounter + 1
          else (r.state t).pktCounter := by
        rfl
      unfold pulses at ih ⊢
      rw [hstep, ih, pulsesIn_succ _ (Nat.zero_le t), BitVec.ofNat_add]
      cases r.captured t <;> simp

/-- Every snapshot follows a pulse by one clock. -/
theorem pulse_of_capReg {t : Nat} (hcap : r.capReg t = true) :
    ∃ u, t = u + 1 ∧ r.captured u = true := by
  cases t with
  | zero =>
      have hlow : r.capReg 0 = false := r.initial_cleared.1
      rw [hlow] at hcap
      exact absurd hcap (by simp)
  | succ u =>
      exact ⟨u, rfl, hcap⟩

/-- A packet carries the number of pulses up to the one that produced it. -/
theorem counterOf_packetAt (t : Nat) :
    counterOf (r.packetAt t) = BitVec.ofNat 60 (r.pulses t) := by
  have hword : (packetizerInput (r.state t) (r.input t)).d ⟨1, by decide⟩ =
      (r.input t).capRegion ++ (r.state t).pktCounter.setWidth 60 := by
    rfl
  have hget := SimplePacketizer.packet_getElem?
    (packetizerInput (r.state t) (r.input t)).d ⟨1, by decide⟩
  have hlow : (BitVec.ofNat 64 (r.pulses t)).setWidth 60 =
      BitVec.ofNat 60 (r.pulses t) := by
    apply BitVec.eq_of_toNat_eq
    rw [BitVec.toNat_setWidth, BitVec.toNat_ofNat, BitVec.toNat_ofNat]
    exact Nat.mod_mod_of_dvd _ (by decide)
  unfold counterOf packetAt
  rw [hget, hword, pktCounter_eq, hlow]
  exact BitVec.setWidth_append_eq_right

/-! ## The stream -/

/-- The packetizer is a run of its own on the inputs it gets. -/
theorem packetizer_eq :
    ∃ p, ∀ t, (r.state t).packetizer =
      run SimplePacketizer.step (SimplePacketizer.reset p)
        (fun u => packetizerInput (r.state u) (r.input u)) t := by
  obtain ⟨_, _, p, hp⟩ := r.initial_cleared
  refine ⟨p, fun t => ?_⟩
  induction t with
  | zero =>
      exact hp
  | succ t ih =>
      rw [run_succ, ← ih, state_succ]
      rfl

/-- The words transferred and those still owed are the packets of the
snapshots, in order. -/
theorem transferred_append_pending (t : Nat) :
    r.transferred t ++ SimplePacketizer.pending (r.state t).packetizer =
      (r.emissions t).flatMap r.packetAt := by
  obtain ⟨p, hp⟩ := r.packetizer_eq
  have hflow := SimplePacketizer.transferred_append_pending p
    (fun u => packetizerInput (r.state u) (r.input u)) t
  unfold SimplePacketizer.transferred SimplePacketizer.accepted at hflow
  simp only [← hp] at hflow
  have haccept : ∀ u, SimplePacketizer.accept (r.state u).packetizer
      (packetizerInput (r.state u) (r.input u)) =
        (if r.emits u then [u] else []).flatMap r.packetAt := by
    intro u
    have hemits : ((r.state u).packetizer.readyForCapture &&
        (packetizerInput (r.state u) (r.input u)).capture) = r.emits u :=
      Bool.and_comm _ _
    unfold SimplePacketizer.accept
    rw [hemits]
    cases r.emits u with
    | true =>
        rw [if_pos rfl, if_pos rfl, List.flatMap_singleton]
        rfl
    | false => rfl
  unfold transferred emissions
  rw [hflow, eventsBefore_flatMap]
  simp only [haccept]

/-! ## Counting -/

/-- Later clocks have seen at least as many pulses. -/
theorem pulses_add {t u : Nat} (htu : t ≤ u) :
    r.pulses u = r.pulses t + pulsesIn r.capReg (t + 1) (u + 1) := by
  unfold pulses
  rw [pulsesIn_add _ (Nat.zero_le t) htu,
    pulsesIn_delay (fun v => r.capReg_succ v)]

/-- Each pulse is emitted or dropped. -/
theorem pulsesIn_capReg (a b : Nat) :
    pulsesIn r.capReg a b = pulsesIn r.emits a b + pulsesIn r.drops a b := by
  refine pulsesIn_split (fun t => ?_) a b
  unfold emits drops
  cases r.readyForCapture t <;> simp

/-- From one packet to the next the pulses are the dropped ones and the one
that produced the next packet. -/
theorem pulses_next {t u : Nat} (htu : t < u) (hu : r.emits u = true)
    (hnone : ∀ v, t < v → v < u → r.emits v = false) :
    r.pulses u = r.pulses t + 1 + pulsesIn r.drops (t + 1) u := by
  have hquiet : pulsesIn r.emits (t + 1) u = 0 :=
    (pulsesIn_eq_zero_iff _ _ _).mpr hnone
  have hkept : r.drops u = false := by
    unfold emits at hu
    unfold drops
    rw [Bool.and_eq_true] at hu
    simp [hu.2]
  rw [r.pulses_add (Nat.le_of_lt htu), pulsesIn_capReg,
    pulsesIn_succ _ (by omega : t + 1 ≤ u),
    pulsesIn_succ _ (by omega : t + 1 ≤ u), hquiet, hu, hkept]
  simp
  omega

/-- Two packets have different numbers of pulses. -/
theorem pulses_lt {t u : Nat} (htu : t < u) (hu : r.emits u = true) :
    r.pulses t < r.pulses u := by
  have hcap : r.capReg u = true := by
    unfold emits at hu
    rw [Bool.and_eq_true] at hu
    exact hu.1
  rw [r.pulses_add (Nat.le_of_lt htu), pulsesIn_succ _ (by omega : t + 1 ≤ u), hcap]
  simp

/-- **Lost packets are visible.** The stream consists of the packets of the
snapshots; the counter of each is the index of its pulse modulo `2 ^ 60`, so
counters increase, and from one packet to the next the difference tells the
number of pulses that were dropped between them. -/
theorem lost_packets_visible (r : Session) :
    (∀ t,
      r.transferred t <+: (r.emissions t).flatMap r.packetAt ∧
      ((r.state t).packetizer.tvalid = false →
        r.transferred t = (r.emissions t).flatMap r.packetAt)) ∧
    (∀ t, r.emits t = true →
      ∃ u, t = u + 1 ∧ r.captured u = true ∧
        counterOf (r.packetAt t) = BitVec.ofNat 60 (r.pulses u + 1)) ∧
    ∀ t u, t < u → r.emits t = true → r.emits u = true →
      r.pulses t < r.pulses u ∧
      (r.pulses u < 2 ^ 60 →
        (counterOf (r.packetAt t)).toNat < (counterOf (r.packetAt u)).toNat) ∧
      ((∀ v, t < v → v < u → r.emits v = false) →
        counterOf (r.packetAt u) - counterOf (r.packetAt t) - 1 =
          BitVec.ofNat 60 (pulsesIn r.drops (t + 1) u)) := by
  refine ⟨fun t => ?_, fun t ht => ?_, fun t u htu ht hu => ⟨?_, ?_, ?_⟩⟩
  · have hflow := r.transferred_append_pending t
    refine ⟨⟨_, hflow⟩, fun hv => ?_⟩
    simpa [SimplePacketizer.pending, hv] using hflow
  · have hcap : r.capReg t = true := by
      unfold emits at ht
      rw [Bool.and_eq_true] at ht
      exact ht.1
    obtain ⟨u, rfl, hu⟩ := r.pulse_of_capReg hcap
    refine ⟨u, rfl, hu, ?_⟩
    rw [r.counterOf_packetAt]
    unfold pulses
    rw [pulsesIn_succ _ (Nat.zero_le u), hu, if_pos rfl]
  · exact r.pulses_lt htu hu
  · intro hfit
    have hlt := r.pulses_lt htu hu
    rw [r.counterOf_packetAt, r.counterOf_packetAt, BitVec.toNat_ofNat,
      BitVec.toNat_ofNat, Nat.mod_eq_of_lt hfit, Nat.mod_eq_of_lt (by omega)]
    exact hlt
  · intro hnone
    rw [r.counterOf_packetAt, r.counterOf_packetAt, r.pulses_next htu hu hnone,
      BitVec.ofNat_add, BitVec.ofNat_add]
    generalize BitVec.ofNat 60 (r.pulses t) = x
    generalize BitVec.ofNat 60 (pulsesIn r.drops (t + 1) u) = y
    change x + 1 + y - x - 1 = y
    ring

/-- Registers after power-up. -/
def powerUp : State :=
  { started := false
    capTs := 0
    samplesCaptured := 0
    pktCounter := 0
    startReg := false
    capReg := false
    capCnt := 0
    ch := fun _ => ⟨0, 0, 0, 0, 0, 0, 0, 0, 0, false, 0, 0⟩
    packetizer := ⟨0, false, false, fun _ => 0, 0, false⟩ }

/-- Enabled throughout; `start` is high in every other clock. -/
def alternating (t : Nat) : Input :=
  { ena := true
    start := decide (t % 2 = 0)
    capRegion := 0
    trigger := 0
    inTimestamp := 0
    sampleValid := false
    sampleChData := fun _ => 0
    sampleChValid := fun _ => false
    fifoTready := true }

/-- A reset of two clocks, then `alternating`. -/
def alternatingSession : Session :=
  { before := powerUp
    resetInput := alternating
    resetClocks := 2
    two_le_resetClocks := le_refl 2
    input := alternating }

/-- The pulse of clock 2 is the first one, and its packet says so. -/
theorem lost_packets_visible_alternating :
    ∃ u, 3 = u + 1 ∧ alternatingSession.captured u = true ∧
      counterOf (alternatingSession.packetAt 3) =
        BitVec.ofNat 60 (alternatingSession.pulses u + 1) :=
  (lost_packets_visible alternatingSession).2.1 3 (by decide +kernel)

end Session
end SubsystemCapture
end MollerFirmware
