import MollerFirmware.Clocked.Windows
import MollerFirmware.Hdl.CaptureControl
import MollerFirmware.Hdl.SubsystemCapture

/-!
# capture_control driving subsystem_capture

The averaging path of the firmware: `cap_ena`, `cap_start` and `cap_region` of
the sequencer are the inputs `ena`, `start` and `cap_region` of the integrator,
and both see the same sample valid signal.

`StartInv` relates `started` to the counters of the sequencer. From it follows
in which clocks `captured` is high (`captured_succ`): in the clock after the
last sample of a region, and in no other. `captures_per_cycle` counts them.
-/

namespace MollerFirmware
namespace CaptureSystem

open Clocked

/-- Registers of both modules. -/
structure State where
  ctrl : CaptureControl.State
  cap : SubsystemCapture.State

/-- Inputs in one clock. -/
structure Input where
  trig : Bool
  testMode : Bool
  valid : Bool
  trigger : BitVec 2
  inTimestamp : BitVec 64
  sampleChData : Fin SubsystemCapture.numCh → BitVec 18
  sampleChValid : Fin SubsystemCapture.numCh → Bool
  fifoTready : Bool

/-- Inputs of the sequencer. -/
def ctrlInput (i : Input) : CaptureControl.Input :=
  { trig := i.trig
    valid := i.valid
    testMode := i.testMode }

/-- Inputs of the integrator. -/
def capInput (c : CaptureControl.Config) (s : State) (i : Input) :
    SubsystemCapture.Input :=
  { ena := CaptureControl.capEna c s.ctrl
    start := CaptureControl.capStart c s.ctrl (ctrlInput i)
    capRegion := CaptureControl.capRegion s.ctrl
    trigger := i.trigger
    inTimestamp := i.inTimestamp
    sampleValid := i.valid
    sampleChData := i.sampleChData
    sampleChValid := i.sampleChValid
    fifoTready := i.fifoTready }

/-- A clock edge with `rst` low. -/
def step (c : CaptureControl.Config) (s : State) (i : Input) : State :=
  { ctrl := CaptureControl.step c s.ctrl (ctrlInput i)
    cap := SubsystemCapture.step s.cap (capInput c s i) }

/-- A clock edge with `rst` high. -/
def reset (c : CaptureControl.Config) (s : State) (i : Input) : State :=
  { ctrl := CaptureControl.reset s.ctrl (ctrlInput i)
    cap := SubsystemCapture.reset s.cap (capInput c s i) }

/-- A run: the configuration, the registers before reset, the inputs during
reset and the inputs in every clock after it. -/
structure Run where
  config : CaptureControl.Config
  before : State
  resetInput : Input
  input : Nat → Input

namespace Run

variable (r : Run)

/-- Registers before clock edge `t`. -/
def state (t : Nat) : State :=
  run (step r.config) (reset r.config r.before r.resetInput) r.input t

/-- Registers of the sequencer. -/
def ctrl (t : Nat) : CaptureControl.State :=
  (r.state t).ctrl

/-- Registers of the integrator. -/
def cap (t : Nat) : SubsystemCapture.State :=
  (r.state t).cap

/-- Inputs of the sequencer in a clock. -/
def ctrlIn (t : Nat) : CaptureControl.Input :=
  ctrlInput (r.input t)

/-- Inputs of the integrator in a clock. -/
def capIn (t : Nat) : SubsystemCapture.Input :=
  capInput r.config (r.state t) (r.input t)

/-- `sample_valid` -/
def valid (t : Nat) : Bool :=
  (r.input t).valid

/-- `cycle_active` -/
def active (t : Nat) : Bool :=
  CaptureControl.cycleActive r.config (r.ctrl t)

/-- `region_end` -/
def regionEnd (t : Nat) : Bool :=
  CaptureControl.regionEnd r.config (r.ctrl t) (r.ctrlIn t)

/-- `all_end` -/
def allEnd (t : Nat) : Bool :=
  CaptureControl.allEnd r.config (r.ctrl t) (r.ctrlIn t)

/-- `cap_ena` -/
def ena (t : Nat) : Bool :=
  (r.capIn t).ena

/-- `cap_start` -/
def start (t : Nat) : Bool :=
  (r.capIn t).start

/-- `started` -/
def started (t : Nat) : Bool :=
  (r.cap t).started

/-- `captured` -/
def captured (t : Nat) : Bool :=
  SubsystemCapture.captured (r.cap t) (r.capIn t)

/-- `cap_reg` -/
def capReg (t : Nat) : Bool :=
  (r.cap t).capReg

theorem ctrl_succ (t : Nat) :
    r.ctrl (t + 1) = CaptureControl.step r.config (r.ctrl t) (r.ctrlIn t) := by
  rfl

/-- The sequencer runs on its own: the integrator does not drive it. -/
theorem ctrl_eq_stateAt (t : Nat) :
    r.ctrl t =
      CaptureControl.stateAt r.config r.before.ctrl (ctrlInput r.resetInput)
        (fun u => ctrlInput (r.input u)) t := by
  induction t with
  | zero => rfl
  | succ t ih =>
      rw [ctrl_succ, ih]
      rfl

variable {r}

theorem ena_iff (t : Nat) :
    r.ena t = true ↔
      r.config.enaDelay.toNat ≤ (r.ctrl t).cycleCnt.toNat := by
  show decide (r.config.enaDelay ≤ (r.ctrl t).cycleCnt) = true ↔ _
  rw [decide_eq_true_eq, BitVec.le_def]

theorem regionEnd_iff (t : Nat) :
    r.regionEnd t = true ↔
      r.valid t = true ∧
        (r.ctrl t).sampleCnt.toNat + 1 = r.config.samples :=
  CaptureControl.regionEnd_iff _ _

theorem inactive_of_cycleCnt_zero {t : Nat}
    (hzero : (r.ctrl t).cycleCnt = 0) :
    r.active t = false := by
  simp [active, CaptureControl.cycleActive, hzero]

end Run

/-- Configurations in which the integrator is not enabled between cycles, there
is a region, and regions have more than one sample. The delays may overflow. -/
structure Configured (c : CaptureControl.Config) : Prop where
  ena : 1 ≤ c.enaDelay.toNat
  regions : 1 ≤ c.regions
  size : 1 ≤ c.capRegionSize.toNat

/-- Configurations whose cycles can start: the integrator is not enabled
between cycles, there is a region, regions have more than one sample, and the
delays do not overflow. A cycle may still be too long for `cycle_cnt`. -/
structure Startable (c : CaptureControl.Config) : Prop where
  ena : 1 ≤ c.enaDelay.toNat
  delay : c.delay < 65536
  regions : 1 ≤ c.regions
  size : 1 ≤ c.capRegionSize.toNat

theorem Startable.configured {c : CaptureControl.Config} (h : Startable c) :
    Configured c :=
  ⟨h.ena, h.regions, h.size⟩

theorem Startable.one_le_delay {c : CaptureControl.Config} (h : Startable c) :
    1 ≤ c.delay := by
  have := h.ena
  unfold CaptureControl.Config.delay
  omega

/-- Configurations for which a cycle is to work: the integrator is enabled
after the trigger and not before, there is a region, regions have more than one
sample, and the whole cycle can be counted. -/
structure Usable (c : CaptureControl.Config) : Prop where
  ena : 1 ≤ c.enaDelay.toNat
  regions : 1 ≤ c.regions
  size : 1 ≤ c.capRegionSize.toNat
  fits : c.lastCount ≤ 65535

theorem Usable.ok {c : CaptureControl.Config} (h : Usable c) : c.Ok := by
  refine ⟨h.regions, ?_⟩
  have hfits := h.fits
  have hmul : 1 * 1 ≤ c.regions * c.samples :=
    Nat.mul_le_mul h.regions (by unfold CaptureControl.Config.samples; omega)
  unfold CaptureControl.Config.lastCount at hfits
  omega

theorem Usable.startable {c : CaptureControl.Config} (h : Usable c) :
    Startable c := by
  have hdelay := h.ok.delay
  exact ⟨h.ena, by omega, h.regions, h.size⟩

/-! ## The signals of any configuration -/

namespace Configured

open Run

variable {r : Run} (h : Configured r.config)
include h

/-- A cleared cycle counter disables the integrator. -/
theorem ena_of_cycleCnt_zero {t : Nat} (hzero : (r.ctrl t).cycleCnt = 0) :
    r.ena t = false := by
  by_contra hena
  have hle := (ena_iff t).mp (by simpa using hena)
  have hmin := h.ena
  rw [hzero] at hle
  simp at hle
  omega

/-- The last sample of a region is not its first one. -/
theorem sampleCnt_ne_zero_of_regionEnd {t : Nat}
    (hre : r.regionEnd t = true) :
    (r.ctrl t).sampleCnt ≠ 0 := by
  intro hzero
  have hsize := h.size
  have hlast := ((regionEnd_iff t).mp hre).2
  unfold CaptureControl.Config.samples at hlast
  rw [hzero] at hlast
  simp at hlast
  omega

/-- `cap_start` marks the first sample of a region. -/
theorem start_iff (t : Nat) :
    r.start t = true ↔ r.active t = true ∧ (r.ctrl t).sampleCnt = 0 := by
  have hend : (r.ctrl t).sampleCnt = 0 → r.allEnd t = false := by
    intro hzero
    by_contra hend
    have hend' : r.allEnd t = true := by simpa using hend
    exact h.sampleCnt_ne_zero_of_regionEnd
      ((CaptureControl.allEnd_iff h.regions _ _).mp hend').1 hzero
  show (decide ((r.ctrl t).sampleCnt = 0) && r.active t && !r.allEnd t) = true ↔ _
  constructor
  · intro hs
    simp only [Bool.and_eq_true, decide_eq_true_eq] at hs
    exact ⟨hs.1.2, hs.1.1⟩
  · rintro ⟨hact, hzero⟩
    simp [hact, hzero, hend hzero]

theorem start_of_inactive {t : Nat} (hidle : r.active t = false) :
    r.start t = false := by
  by_contra hst
  have hact := ((h.start_iff t).mp (by simpa using hst)).1
  rw [hidle] at hact
  exact absurd hact (by simp)

end Configured

/-! ## The signals of a configuration that can start -/

namespace Startable

open Run

variable {r : Run} (h : Startable r.config)
include h

theorem active_iff (t : Nat) :
    r.active t = true ↔ r.config.delay < (r.ctrl t).cycleCnt.toNat :=
  CaptureControl.cycleActive_iff h.delay _

/-- An active cycle keeps the integrator enabled. -/
theorem ena_of_active {t : Nat} (hact : r.active t = true) :
    r.ena t = true := by
  rw [h.active_iff] at hact
  rw [ena_iff]
  unfold CaptureControl.Config.delay at hact
  omega

/-- A cleared cycle counter disables the integrator. -/
theorem ena_of_cycleCnt_zero {t : Nat} (hzero : (r.ctrl t).cycleCnt = 0) :
    r.ena t = false :=
  h.configured.ena_of_cycleCnt_zero hzero

/-- The last sample of a region is not its first one. -/
theorem sampleCnt_ne_zero_of_regionEnd {t : Nat}
    (hre : r.regionEnd t = true) :
    (r.ctrl t).sampleCnt ≠ 0 :=
  h.configured.sampleCnt_ne_zero_of_regionEnd hre

/-- `cap_start` marks the first sample of a region. -/
theorem start_iff (t : Nat) :
    r.start t = true ↔ r.active t = true ∧ (r.ctrl t).sampleCnt = 0 :=
  h.configured.start_iff t

theorem start_of_inactive {t : Nat} (hidle : r.active t = false) :
    r.start t = false :=
  h.configured.start_of_inactive hidle

/-- A cycle that ends, or whose counter wraps, ends with a sample and leaves
the counter cleared. -/
theorem becomes_inactive {t : Nat}
    (hact : r.active t = true) (hidle : r.active (t + 1) = false) :
    r.valid t = true ∧ (r.ctrl (t + 1)).cycleCnt = 0 := by
  have hnow := (h.active_iff t).mp hact
  have hnext : ¬ r.config.delay < (r.ctrl (t + 1)).cycleCnt.toNat := by
    rw [← h.active_iff]
    simp [hidle]
  rw [ctrl_succ] at hnext ⊢
  cases hend : r.allEnd t with
  | true =>
      have hre := ((CaptureControl.allEnd_iff h.regions _ _).mp hend).1
      exact ⟨((regionEnd_iff t).mp hre).1,
        CaptureControl.step_cycleCnt_allEnd hact hend⟩
  | false =>
      rw [CaptureControl.step_cycleCnt_active hact hend] at hnext ⊢
      split_ifs at hnext ⊢ with hv
      · refine ⟨hv, ?_⟩
        by_cases hfull : (r.ctrl t).cycleCnt.toNat < 65535
        · rw [CaptureControl.toNat_succ hfull] at hnext
          omega
        · apply BitVec.eq_of_toNat_eq
          have hlt := (r.ctrl t).cycleCnt.isLt
          rw [BitVec.toNat_add]
          simp
          omega
      · exact absurd hnow hnext

/-- Between the trigger and the first region no sample has been counted. -/
theorem sampleCnt_waiting (t : Nat) (hidle : r.active t = false)
    (hcnt : (r.ctrl t).cycleCnt ≠ 0) :
    (r.ctrl t).sampleCnt = 0 := by
  induction t with
  | zero => rfl
  | succ t ih =>
      cases hact : r.active t with
      | true =>
          exact absurd (h.becomes_inactive hact hidle).2 hcnt
      | false =>
          rw [ctrl_succ] at hcnt ⊢
          rcases CaptureControl.step_waiting_cases (i := r.ctrlIn t) hact with
            ⟨_, _, _, hsample⟩ | ⟨hnext, _, hsample⟩
          · exact hsample
          · rw [hsample]
            refine ih hact (fun hzero => hcnt ?_)
            rw [hnext]
            simp [CaptureControl.cycleCntNext, hzero]

/-- A cycle becomes active by counting a sample, at its first region. -/
theorem becomes_active {t : Nat}
    (hidle : r.active t = false) (hact : r.active (t + 1) = true) :
    r.valid t = true ∧ (r.ctrl t).cycleCnt ≠ 0 ∧
      (r.ctrl (t + 1)).sampleCnt = 0 := by
  have hdelay := h.one_le_delay
  have hbefore : ¬ r.config.delay < (r.ctrl t).cycleCnt.toNat := by
    rw [← h.active_iff]
    simp [hidle]
  rw [h.active_iff, ctrl_succ] at hact
  rw [ctrl_succ]
  rcases CaptureControl.step_waiting_cases (i := r.ctrlIn t) hidle with
    ⟨_, hcnt, _, _⟩ | ⟨hcnt, _, hsample⟩
  · rw [hcnt] at hact
    simp at hact
    omega
  · rw [hcnt] at hact
    unfold CaptureControl.cycleCntNext at hact
    split_ifs at hact with h0 hv
    · exact ⟨hv, h0, hsample.trans (h.sampleCnt_waiting t hidle h0)⟩
    · omega
    · simp at hact

end Startable

namespace Run

variable {r : Run}

/-- The counters of the sequencer are consistent in every clock. -/
theorem cycleInv (h : Usable r.config) (t : Nat) :
    CaptureControl.CycleInv r.config (r.ctrl t) := by
  rw [ctrl_eq_stateAt]
  exact CaptureControl.run_inv h.ok h.fits _ _ _ t

/-- An active cycle keeps the integrator enabled. -/
theorem ena_of_active (h : Usable r.config) {t : Nat}
    (hact : r.active t = true) :
    r.ena t = true :=
  h.startable.ena_of_active hact

/-- A cleared cycle counter disables the integrator. -/
theorem ena_of_cycleCnt_zero (h : Usable r.config) {t : Nat}
    (hzero : (r.ctrl t).cycleCnt = 0) :
    r.ena t = false :=
  h.startable.ena_of_cycleCnt_zero hzero

theorem allEnd_iff (h : Usable r.config) (t : Nat) :
    r.allEnd t = true ↔
      r.regionEnd t = true ∧
        (r.ctrl t).regionCnt.toNat + 1 = r.config.regions :=
  CaptureControl.allEnd_iff h.regions _ _

/-- The last sample of a region is not its first one. -/
theorem sampleCnt_ne_zero_of_regionEnd (h : Usable r.config) {t : Nat}
    (hre : r.regionEnd t = true) :
    (r.ctrl t).sampleCnt ≠ 0 :=
  h.startable.sampleCnt_ne_zero_of_regionEnd hre

/-- `cap_start` marks the first sample of a region. -/
theorem start_iff (h : Usable r.config) (t : Nat) :
    r.start t = true ↔ r.active t = true ∧ (r.ctrl t).sampleCnt = 0 :=
  h.startable.start_iff t

theorem start_of_inactive (h : Usable r.config) {t : Nat}
    (hidle : r.active t = false) :
    r.start t = false :=
  h.startable.start_of_inactive hidle

theorem start_of_regionEnd (h : Usable r.config) {t : Nat}
    (hre : r.regionEnd t = true) :
    r.start t = false := by
  by_contra hst
  exact sampleCnt_ne_zero_of_regionEnd h hre
    ((start_iff h t).mp (by simpa using hst)).2

/-! ## What one clock does to the sequencer -/

/-- `all_end` clears the cycle counter. -/
theorem cycleCnt_after_allEnd {t : Nat}
    (hact : r.active t = true) (hend : r.allEnd t = true) :
    (r.ctrl (t + 1)).cycleCnt = 0 := by
  rw [ctrl_succ]
  exact CaptureControl.step_cycleCnt_allEnd hact hend

theorem active_after_sample (h : Usable r.config) {t : Nat}
    (hact : r.active t = true) (hend : r.allEnd t = false) :
    r.active (t + 1) = true :=
  (cycleInv h t).stays_active h.ok hact hend
    (fun hv => (cycleInv h t).room h.ok h.fits hact hv hend)

/-- The end of a region that is not the last one. -/
theorem after_regionEnd (h : Usable r.config) {t : Nat}
    (hact : r.active t = true) (hre : r.regionEnd t = true)
    (hend : r.allEnd t = false) :
    (r.ctrl (t + 1)).regionCnt.toNat = (r.ctrl t).regionCnt.toNat + 1 ∧
      (r.ctrl (t + 1)).sampleCnt = 0 := by
  have hv := ((regionEnd_iff t).mp hre).1
  exact ((cycleInv h t).step_region h.ok hact hre hend
    ((cycleInv h t).room h.ok h.fits hact hv hend)).2.2

/-- A sample inside a region, or no sample. -/
theorem after_noRegionEnd (h : Usable r.config) {t : Nat}
    (hact : r.active t = true) (hre : r.regionEnd t = false) :
    (r.ctrl (t + 1)).regionCnt = (r.ctrl t).regionCnt ∧
      (r.ctrl (t + 1)).sampleCnt.toNat =
        (r.ctrl t).sampleCnt.toNat + if r.valid t then 1 else 0 := by
  have hlt := (cycleInv h t).sample hact
  have hsize := r.config.capRegionSize.isLt
  have hact' : CaptureControl.cycleActive r.config (r.ctrl t) = true := hact
  have hre' : CaptureControl.regionEnd r.config (r.ctrl t) (r.ctrlIn t) =
      false := hre
  rw [ctrl_succ]
  cases hv : r.valid t with
  | false =>
      have hv' : (r.ctrlIn t).valid = false := hv
      simp [CaptureControl.step, hact', hre', hv']
  | true =>
      have hv' : (r.ctrlIn t).valid = true := hv
      have hne : ¬ ((r.ctrl t).sampleCnt.toNat + 1 = r.config.samples) := by
        intro hlast
        rw [(regionEnd_iff t).mpr ⟨hv, hlast⟩] at hre
        exact absurd hre (by simp)
      refine ⟨by simp [CaptureControl.step, hact', hre'], ?_⟩
      simp only [CaptureControl.step, hact', hre', hv', if_true,
        Bool.false_eq_true, if_false]
      refine CaptureControl.toNat_succ ?_
      unfold CaptureControl.Config.samples at *
      omega

/-- A cycle becomes active by counting a sample, at its first region. -/
theorem becomes_active (h : Usable r.config) {t : Nat}
    (hidle : r.active t = false) (hact : r.active (t + 1) = true) :
    r.valid t = true ∧ (r.ctrl t).cycleCnt ≠ 0 ∧
      (r.ctrl (t + 1)).regionCnt = 0 ∧ (r.ctrl (t + 1)).sampleCnt = 0 := by
  obtain ⟨hv, hcnt, _⟩ := h.startable.becomes_active hidle hact
  exact ⟨hv, hcnt,
    ((cycleInv h t).step_waiting (i := r.ctrlIn t) h.ok hidle).2 hact⟩

/-- The integrator stays enabled until `all_end`. -/
theorem ena_next (h : Usable r.config) {t : Nat}
    (hact : r.active t = true) :
    r.ena (t + 1) = !r.allEnd t := by
  cases hend : r.allEnd t with
  | true =>
      rw [ena_of_cycleCnt_zero h (cycleCnt_after_allEnd hact hend)]
      rfl
  | false =>
      rw [ena_of_active h (active_after_sample h hact hend)]
      rfl

/-- During a cycle `cap_start` rises after the last sample of a region that is
not the last region. -/
theorem start_edge (h : Usable r.config) {t : Nat}
    (hact : r.active t = true) :
    (r.start (t + 1) && !r.start t) = (r.regionEnd t && !r.allEnd t) := by
  cases hre : r.regionEnd t with
  | true =>
      rw [start_of_regionEnd h hre]
      cases hend : r.allEnd t with
      | true =>
          have hidle := inactive_of_cycleCnt_zero
            (cycleCnt_after_allEnd hact hend)
          rw [start_of_inactive h hidle]
          rfl
      | false =>
          rw [(start_iff h (t + 1)).mpr ⟨active_after_sample h hact hend,
            (after_regionEnd h hact hre hend).2⟩]
  | false =>
      -- the sample counter is zero only if it was zero before
      have hkeep : r.start (t + 1) = true → r.start t = true := by
        intro hst
        have hsample := (after_noRegionEnd h hact hre).2
        rw [((start_iff h (t + 1)).mp hst).2] at hsample
        refine (start_iff h t).mpr ⟨hact, ?_⟩
        apply BitVec.eq_of_toNat_eq
        simp at hsample ⊢
        omega
      cases hst : r.start (t + 1) with
      | true => simp [hkeep hst]
      | false => simp

/-! ## When a capture happens -/

theorem started_zero : r.started 0 = false := by
  rfl

theorem started_succ (t : Nat) :
    r.started (t + 1) =
      if r.ena t && r.start t then true
      else if !r.ena t then false
      else r.started t := by
  rfl

theorem captured_eq (t : Nat) :
    r.captured t =
      ((r.start t && !(r.cap t).startReg && r.started t) ||
        (!r.ena t && r.started t)) := by
  rfl

theorem startReg_succ (t : Nat) :
    (r.cap (t + 1)).startReg = r.start t := by
  rfl

theorem capReg_succ (t : Nat) :
    r.capReg (t + 1) = r.captured t := by
  rfl

end Run

namespace Startable

open Run

variable {r : Run} (h : Startable r.config)
include h

/-- `started` is `cycle_active` delayed by one clock. -/
theorem started_succ (t : Nat) :
    r.started (t + 1) = r.active t := by
  induction t with
  | zero =>
      have hidle : r.active 0 = false := CaptureControl.reset_inactive _ _ _
      rw [Run.started_succ, h.start_of_inactive hidle, started_zero, hidle]
      simp
  | succ t ih =>
      rw [Run.started_succ, ih]
      cases hact : r.active (t + 1) with
      | true =>
          rw [h.ena_of_active hact]
          cases hst : r.start (t + 1) with
          | true => simp
          | false =>
              -- not the first sample of the cycle, so it was active before
              have hbefore : r.active t = true := by
                by_contra hidle
                have hzero := h.becomes_active (by simpa using hidle) hact
                rw [(h.start_iff (t + 1)).mpr ⟨hact, hzero.2.2⟩] at hst
                exact absurd hst (by simp)
              simpa using hbefore
      | false =>
          rw [h.start_of_inactive hact]
          cases hbefore : r.active t with
          | true =>
              rw [h.ena_of_cycleCnt_zero (h.becomes_inactive hbefore hact).2]
              simp
          | false => simp

/-- After an active clock the integrator is enabled while the cycle lasts. -/
theorem ena_succ {t : Nat} (hact : r.active t = true) :
    r.ena (t + 1) = r.active (t + 1) := by
  cases hnext : r.active (t + 1) with
  | true => exact h.ena_of_active hnext
  | false => exact h.ena_of_cycleCnt_zero (h.becomes_inactive hact hnext).2

/-- A capture is taken when `cap_start` rises within a cycle, and when a cycle
is over. -/
theorem captured_succ (t : Nat) :
    r.captured (t + 1) =
      (r.active t &&
        ((r.start (t + 1) && !r.start t) || !r.active (t + 1))) := by
  rw [captured_eq, startReg_succ, h.started_succ]
  cases hact : r.active t with
  | true => simp [h.ena_succ hact]
  | false => simp

/-- `cap_start` rises with a sample. -/
theorem valid_of_start_rises {t : Nat}
    (hst : r.start (t + 1) = true) (hbefore : r.start t = false) :
    r.valid t = true := by
  obtain ⟨hact', hsample⟩ := (h.start_iff (t + 1)).mp hst
  cases hact : r.active t with
  | false => exact (h.becomes_active hact hact').1
  | true =>
      by_contra hv
      have hlow : r.valid t = false := by simpa using hv
      have hhold :=
        (CaptureControl.step_hold (i := r.ctrlIn t) hact hlow).2.2
      rw [← ctrl_succ, hsample] at hhold
      rw [(h.start_iff t).mpr ⟨hact, hhold.symm⟩] at hbefore
      exact absurd hbefore (by simp)

/-- A capture follows a sample. -/
theorem valid_of_captured {t : Nat} (hcap : r.captured (t + 1) = true) :
    r.active t = true ∧ r.valid t = true := by
  rw [h.captured_succ, Bool.and_eq_true, Bool.or_eq_true] at hcap
  obtain ⟨hact, hrise | hidle⟩ := hcap
  · rw [Bool.and_eq_true] at hrise
    exact ⟨hact, h.valid_of_start_rises hrise.1 (by simpa using hrise.2)⟩
  · exact ⟨hact, (h.becomes_inactive hact (by simpa using hidle)).1⟩

end Startable

namespace Run

variable {r : Run}

/-- What `started` knows of the sequencer: it is up from the second sample of a
cycle on, and between cycles it is up in the clock after the last one only. -/
structure StartInv (r : Run) (t : Nat) : Prop where
  during : r.active t = true →
    (r.ctrl t).sampleCnt ≠ 0 ∨ (r.ctrl t).regionCnt ≠ 0 → r.started t = true
  between : r.active t = false → r.started t = true →
    (r.ctrl t).cycleCnt = 0

/-- In an active clock the integrator is started, now or earlier. -/
theorem StartInv.started_next
    {t : Nat} (hs : StartInv r t) (h : Usable r.config)
    (hact : r.active t = true) :
    r.started (t + 1) = true := by
  have hena := ena_of_active h hact
  rw [started_succ, hena]
  cases hst : r.start t with
  | true => simp
  | false =>
      have hne : (r.ctrl t).sampleCnt ≠ 0 := by
        intro hzero
        rw [(start_iff h t).mpr ⟨hact, hzero⟩] at hst
        exact absurd hst (by simp)
      simpa using hs.during hact (.inl hne)

/-- After an inactive clock the integrator is not started. -/
theorem StartInv.not_started_next
    {t : Nat} (hs : StartInv r t) (h : Usable r.config)
    (hidle : r.active t = false) :
    r.started (t + 1) = false := by
  rw [started_succ, start_of_inactive h hidle]
  cases hst : r.started t with
  | false => simp
  | true =>
      have hena := ena_of_cycleCnt_zero h (hs.between hidle hst)
      simp [hena]

theorem startInv (h : Usable r.config) (t : Nat) :
    StartInv r t := by
  cases t with
  | zero =>
      have hidle : r.active 0 = false := CaptureControl.reset_inactive _ _ _
      constructor
      · intro hact
        simp [hidle] at hact
      · intro _ hst
        simp [started_zero] at hst
  | succ t =>
      constructor
      · intro hact' hne
        rw [h.startable.started_succ]
        by_contra hact
        obtain ⟨_, _, hregion, hsample⟩ :=
          becomes_active h (by simpa using hact) hact'
        rcases hne with hne | hne
        · exact hne hsample
        · exact hne hregion
      · intro hidle hst
        rw [h.startable.started_succ] at hst
        exact (h.startable.becomes_inactive hst hidle).2

/-- A capture is taken in the clock after the last sample of a region. -/
theorem captured_succ (h : Usable r.config) (t : Nat) :
    r.captured (t + 1) = (r.active t && r.regionEnd t) := by
  have hinv := startInv h t
  rw [captured_eq, startReg_succ]
  cases hact : r.active t with
  | false =>
      rw [hinv.not_started_next h hact]
      simp
  | true =>
      rw [hinv.started_next h hact, start_edge h hact, ena_next h hact]
      cases hend : r.allEnd t with
      | true =>
          rw [((allEnd_iff h t).mp hend).1]
          rfl
      | false =>
          simp

theorem captured_zero : r.captured 0 = false := by
  simp [captured_eq, started_zero]

/-- A capture was called for in the clock before, unless it is one that reset
has found. -/
theorem capReg_cases {t : Nat} (hcap : r.capReg t = true) :
    t = 0 ∨ ∃ u, t = u + 2 ∧ r.captured (u + 1) = true := by
  match t with
  | 0 => exact Or.inl rfl
  | 1 =>
      rw [capReg_succ, captured_zero] at hcap
      exact absurd hcap (by simp)
  | t + 2 =>
      rw [capReg_succ] at hcap
      exact Or.inr ⟨t, rfl, hcap⟩

/-- A region after the first begins with the clock after this one. -/
def NextRegion (r : Run) (t : Nat) : Prop :=
  r.active t = true ∧ r.active (t + 1) = true ∧
    (r.ctrl (t + 1)).regionCnt ≠ (r.ctrl t).regionCnt

/-- This clock ends a cycle. -/
def CycleEnd (r : Run) (t : Nat) : Prop :=
  r.active t = true ∧ r.allEnd t = true

theorem regionEnd_iff_nextRegion_or_cycleEnd (h : Usable r.config) (t : Nat) :
    (r.active t = true ∧ r.regionEnd t = true) ↔
      NextRegion r t ∨ CycleEnd r t := by
  constructor
  · rintro ⟨hact, hre⟩
    cases hend : r.allEnd t with
    | true =>
        exact .inr ⟨hact, hend⟩
    | false =>
        refine .inl ⟨hact, active_after_sample h hact hend, fun heq => ?_⟩
        have hregion := (after_regionEnd h hact hre hend).1
        rw [heq] at hregion
        omega
  · rintro (⟨hact, _, hne⟩ | ⟨hact, hend⟩)
    · refine ⟨hact, ?_⟩
      by_contra hre
      exact hne (after_noRegionEnd h hact (by simpa using hre)).1
    · exact ⟨hact, ((allEnd_iff h t).mp hend).1⟩

/-! ## Whole cycles -/

/-- An active period ends with `all_end`. -/
theorem allEnd_of_period (h : Usable r.config)
    {a b : Nat} (hp : Period r.active a b) :
    r.allEnd b = true := by
  by_contra hend
  have hact := active_after_sample h (hp.high b hp.le (le_refl b))
    (by simpa using hend)
  rw [hp.after] at hact
  exact absurd hact (by simp)

/-- Inside an active period there is no `all_end`. -/
theorem allEnd_inside_period
    {a b : Nat} (hp : Period r.active a b)
    {t : Nat} (hat : a ≤ t) (htb : t < b) :
    r.allEnd t = false := by
  by_contra hend
  have hidle := inactive_of_cycleCnt_zero
    (cycleCnt_after_allEnd (hp.high t hat (by omega)) (by simpa using hend))
  rw [hp.high (t + 1) (by omega) (by omega)] at hidle
  exact absurd hidle (by simp)

/-- An active period begins after an inactive clock with a sample. -/
theorem period_start (h : Usable r.config)
    {a b : Nat} (hp : Period r.active a b) :
    ∃ u, u + 1 = a ∧ r.active u = false ∧ r.valid u = true ∧
      (r.ctrl u).cycleCnt ≠ 0 ∧
      (r.ctrl a).regionCnt = 0 ∧ (r.ctrl a).sampleCnt = 0 := by
  have hact := hp.high a (le_refl a) hp.le
  cases a with
  | zero =>
      have hidle : r.active 0 = false := CaptureControl.reset_inactive _ _ _
      rw [hidle] at hact
      exact absurd hact (by simp)
  | succ u =>
      have hidle := hp.before u rfl
      exact ⟨u, rfl, hidle, becomes_active h hidle hact⟩

/-- The captures since the beginning of an active period number the regions
that have ended. -/
theorem captures_regionCnt (h : Usable r.config)
    {a b : Nat} (hp : Period r.active a b)
    {t : Nat} (hat : a ≤ t) (htb : t ≤ b) :
    pulsesIn r.captured a (t + 1) = (r.ctrl t).regionCnt.toNat := by
  refine hp.induction (motive := fun t =>
    pulsesIn r.captured a (t + 1) = (r.ctrl t).regionCnt.toNat) ?_ ?_ hat htb
  · obtain ⟨u, rfl, hidle, _, _, hregion, _⟩ := period_start h hp
    rw [pulsesIn_succ _ (le_refl _), hregion, captured_succ h, hidle]
    simp
  · intro t hat htb hact _ ih
    rw [pulsesIn_succ _ (by omega), ih, captured_succ h, hact]
    cases hre : r.regionEnd t with
    | true =>
        have hend := allEnd_inside_period hp hat htb
        rw [(after_regionEnd h hact hre hend).1]
        rfl
    | false =>
        rw [(after_noRegionEnd h hact hre).1]
        rfl

/-- **Each cycle yields exactly the configured number of captures.** -/
theorem captures_per_cycle (r : Run) (h : Usable r.config) :
    r.captured 0 = false ∧
      (∀ t, r.captured (t + 1) = true ↔ NextRegion r t ∨ CycleEnd r t) ∧
      ∀ a b, Period r.active a b →
        CycleEnd r b ∧ pulsesIn r.captured a (b + 2) = r.config.regions := by
  refine ⟨captured_zero, fun t => ?_, fun a b hp => ?_⟩
  · rw [captured_succ h, Bool.and_eq_true,
      regionEnd_iff_nextRegion_or_cycleEnd h]
  · have hact := hp.high b hp.le (le_refl b)
    have hend := allEnd_of_period h hp
    obtain ⟨hre, hregion⟩ := (allEnd_iff h b).mp hend
    refine ⟨⟨hact, hend⟩, ?_⟩
    have hle := hp.le
    rw [pulsesIn_succ _ (by omega), captures_regionCnt h hp hle (le_refl b),
      captured_succ h, hact, hre]
    simpa using hregion

/-- Two regions of two samples after a delay of one sample. -/
def twoRegions : CaptureControl.Config :=
  { enaDelay := 1
    startDelay := 0
    capRegions := 2
    capRegionSize := 1 }

theorem twoRegions_usable : Usable twoRegions :=
  ⟨by decide, by decide, by decide, by decide⟩

/-- Registers after power-up. -/
def powerUp : State :=
  { ctrl := ⟨0, 0, 0, 0⟩
    cap :=
      { started := false
        capTs := 0
        samplesCaptured := 0
        pktCounter := 0
        startReg := false
        capReg := false
        capCnt := 0
        ch := fun _ => ⟨0, 0, 0, 0, 0, 0, 0, 0, 0, false, 0, 0⟩
        packetizer := ⟨0, false, false, fun _ => 0, 0, false⟩ } }

/-- A trigger in clock 0; `valid` as given, and every sample is 1. -/
def triggered (valid : Nat → Bool) (t : Nat) : Input :=
  { trig := decide (t = 0)
    testMode := false
    valid := valid t
    trigger := 0
    inTimestamp := 0
    sampleChData := fun _ => 1
    sampleChValid := fun _ => true
    fifoTready := true }

/-- A sample in every clock. -/
def twoRegionsRun : Run :=
  { config := twoRegions
    before := powerUp
    resetInput := triggered (fun _ => false) 1
    input := triggered fun _ => true }

theorem twoRegionsRun_period : Period twoRegionsRun.active 2 5 := by
  refine ⟨by decide, by decide +kernel, fun t ht => ?_, by decide +kernel⟩
  obtain rfl : t = 1 := by omega
  decide +kernel

theorem captures_per_cycle_twoRegions :
    pulsesIn twoRegionsRun.captured 2 7 = 2 :=
  ((captures_per_cycle twoRegionsRun twoRegions_usable).2.2 2 5
    twoRegionsRun_period).2

end Run

end CaptureSystem
end MollerFirmware
