import MollerFirmware.Clocked.Signals
import Mathlib.Data.BitVec

/-!
# capture_control

The sequencer of the averaging mode. A trigger starts a cycle; `cycle_cnt`
then counts ADC samples (pulses of `valid`). After `ena_delay` samples
`cap_ena` goes high, after `ena_delay + start_delay` samples the cycle is
active and consists of `cap_regions` regions of `cap_region_size + 1` samples
each. The last sample of the last region is `all_end` and ends the cycle.

All counters have sixteen bits. `CycleInv` ties the three of them together
while a cycle is active; `cycle_ends_iff` says for which configurations
`cycle_cnt` is wide enough for a whole cycle.
-/

namespace MollerFirmware
namespace CaptureControl

open Clocked

/-- Configuration inputs. -/
structure Config where
  enaDelay : BitVec 16
  startDelay : BitVec 16
  capRegions : BitVec 4
  capRegionSize : BitVec 16

/-- Registers of the module. -/
structure State where
  cycleCnt : BitVec 16
  regionCnt : BitVec 16
  sampleCnt : BitVec 16
  tmpCnt : BitVec 16

/-- Inputs in one clock. -/
structure Input where
  trig : Bool
  valid : Bool
  testMode : Bool

/-- `CYCLE_LENGTH_SAMPLES` -/
def cycleLengthSamples : BitVec 16 :=
  0x1DC4

/-- `end_cycle` -/
def endCycle (s : State) (i : Input) : Bool :=
  if i.testMode then decide (s.tmpCnt = cycleLengthSamples) else false

/-- `tmp_trig` -/
def tmpTrig (s : State) (i : Input) : Bool :=
  if i.testMode then decide (s.tmpCnt = 0) else false

/-- `cycle_active` -/
def cycleActive (c : Config) (s : State) : Bool :=
  decide (s.cycleCnt ≠ 0) && decide (c.enaDelay + c.startDelay < s.cycleCnt)

/-- `region_end` -/
def regionEnd (c : Config) (s : State) (i : Input) : Bool :=
  i.valid && decide (s.sampleCnt = c.capRegionSize)

/-- `all_end` -/
def allEnd (c : Config) (s : State) (i : Input) : Bool :=
  i.valid &&
    (decide (s.regionCnt = c.capRegions.setWidth 16 - 1) && regionEnd c s i)

/-- `cap_ena` -/
def capEna (c : Config) (s : State) : Bool :=
  decide (c.enaDelay ≤ s.cycleCnt)

/-- `cap_start` -/
def capStart (c : Config) (s : State) (i : Input) : Bool :=
  decide (s.sampleCnt = 0) && cycleActive c s && !allEnd c s i

/-- `cap_region`: the low four bits of the region counter. -/
def capRegion (s : State) : BitVec 4 :=
  s.regionCnt.setWidth 4

/-- Next value of `tmp_cnt`, which has no reset. -/
def tmpNext (s : State) (i : Input) : BitVec 16 :=
  if i.testMode then
    if endCycle s i then 0
    else if i.valid then s.tmpCnt + 1
    else s.tmpCnt
  else 0

/-- Next value of `cycle_cnt` unless the cycle ends or is started. -/
def cycleCntNext (s : State) (i : Input) : BitVec 16 :=
  if s.cycleCnt ≠ 0 then
    if i.valid then s.cycleCnt + 1 else s.cycleCnt
  else 0

/-- A clock edge with `rst` low. -/
def step (c : Config) (s : State) (i : Input) : State :=
  if cycleActive c s then
    { cycleCnt := if allEnd c s i then 0 else cycleCntNext s i
      sampleCnt :=
        if regionEnd c s i then 0
        else if i.valid then s.sampleCnt + 1
        else s.sampleCnt
      regionCnt :=
        if regionEnd c s i then s.regionCnt + 1 else s.regionCnt
      tmpCnt := tmpNext s i }
  else if i.trig || tmpTrig s i then
    -- do not allow retrigger during cycle
    { cycleCnt := 1
      regionCnt := 0
      sampleCnt := 0
      tmpCnt := tmpNext s i }
  else
    { s with
      cycleCnt := cycleCntNext s i
      tmpCnt := tmpNext s i }

/-- A clock edge with `rst` high; `tmp_cnt` does not see it. -/
def reset (s : State) (i : Input) : State :=
  { cycleCnt := 0
    regionCnt := 0
    sampleCnt := 0
    tmpCnt := tmpNext s i }

/-- Samples from the trigger to the start of the first region. -/
def Config.delay (c : Config) : Nat :=
  c.enaDelay.toNat + c.startDelay.toNat

/-- Number of regions. -/
def Config.regions (c : Config) : Nat :=
  c.capRegions.toNat

/-- Samples in one region. -/
def Config.samples (c : Config) : Nat :=
  c.capRegionSize.toNat + 1

/-- Value of `cycle_cnt` in the last clock of a cycle, were it not for its
width. -/
def Config.lastCount (c : Config) : Nat :=
  c.delay + c.regions * c.samples

variable {c : Config}

theorem cycleActive_iff
    (hdelay : c.delay < 65536) (s : State) :
    cycleActive c s = true ↔ c.delay < s.cycleCnt.toNat := by
  have hsum : (c.enaDelay + c.startDelay).toNat = c.delay := by
    unfold Config.delay at *
    rw [BitVec.toNat_add, Nat.mod_eq_of_lt hdelay]
  unfold cycleActive
  rw [Bool.and_eq_true, decide_eq_true_eq, decide_eq_true_eq, BitVec.lt_def,
    hsum]
  constructor
  · exact fun h => h.2
  · intro h
    refine ⟨fun h0 => ?_, h⟩
    rw [h0] at h
    simp at h

theorem regionEnd_iff (s : State) (i : Input) :
    regionEnd c s i = true ↔
      i.valid = true ∧ s.sampleCnt.toNat + 1 = c.samples := by
  unfold regionEnd Config.samples
  rw [Bool.and_eq_true, decide_eq_true_eq, ← BitVec.toNat_inj]
  constructor
  · rintro ⟨hv, hsize⟩
    exact ⟨hv, by omega⟩
  · rintro ⟨hv, hsize⟩
    exact ⟨hv, by omega⟩

theorem allEnd_iff
    (hregions : 1 ≤ c.regions) (s : State) (i : Input) :
    allEnd c s i = true ↔
      regionEnd c s i = true ∧ s.regionCnt.toNat + 1 = c.regions := by
  have hlast : (c.capRegions.setWidth 16 - 1).toNat = c.regions - 1 := by
    unfold Config.regions at *
    have hlt := c.capRegions.isLt
    have hwide : (c.capRegions.setWidth 16).toNat = c.capRegions.toNat := by
      rw [BitVec.toNat_setWidth, Nat.mod_eq_of_lt (by omega)]
    rw [BitVec.toNat_sub_of_le (by rw [BitVec.le_def, hwide]; simpa), hwide]
    rfl
  unfold allEnd
  rw [Bool.and_eq_true, Bool.and_eq_true, decide_eq_true_eq,
    ← BitVec.toNat_inj, hlast]
  constructor
  · rintro ⟨_, hr, hre⟩
    exact ⟨hre, by omega⟩
  · rintro ⟨hre, hr⟩
    exact ⟨((regionEnd_iff s i).mp hre).1, by omega, hre⟩

/-- The counters of a cycle: before it is active the region counters are zero,
and while it is active `cycle_cnt` counts the samples that they count. -/
structure CycleInv (c : Config) (s : State) : Prop where
  waiting : cycleActive c s = false → s.cycleCnt ≠ 0 →
    s.regionCnt = 0 ∧ s.sampleCnt = 0
  count : cycleActive c s = true →
    s.cycleCnt.toNat =
      c.delay + 1 + s.regionCnt.toNat * c.samples + s.sampleCnt.toNat
  region : cycleActive c s = true → s.regionCnt.toNat < c.regions
  sample : cycleActive c s = true → s.sampleCnt.toNat < c.samples

theorem reset_inactive (c : Config) (s : State) (i : Input) :
    cycleActive c (reset s i) = false := by
  simp [cycleActive, reset]

theorem reset_inv (c : Config) (s : State) (i : Input) :
    CycleInv c (reset s i) := by
  have hidle := reset_inactive c s i
  constructor <;> intro h
  · intro h0
    simp [reset] at h0
  all_goals simp [hidle] at h

/-- Configurations the module is meant for: at least one region, and delays
that `cycle_cnt` can count. -/
structure Config.Ok (c : Config) : Prop where
  regions : 1 ≤ c.regions
  delay : c.delay < 65535

theorem Config.Ok.active_iff (hc : c.Ok) (s : State) :
    cycleActive c s = true ↔ c.delay < s.cycleCnt.toNat := by
  have hdelay := hc.delay
  exact cycleActive_iff (by omega) s

/-- One more region adds its samples. -/
theorem Config.samples_succ (c : Config) (r : Nat) :
    (r + 1) * c.samples = r * c.samples + c.samples := by
  rw [Nat.add_mul, Nat.one_mul]

theorem toNat_succ {x : BitVec 16} (h : x.toNat < 65535) :
    (x + 1).toNat = x.toNat + 1 := by
  rw [BitVec.toNat_add]
  refine Nat.mod_eq_of_lt ?_
  simp
  omega

/-- In an active cycle that does not end, `cycle_cnt` follows `valid`. -/
theorem step_cycleCnt_active
    {s : State} {i : Input}
    (hact : cycleActive c s = true) (hend : allEnd c s i = false) :
    (step c s i).cycleCnt =
      if i.valid then s.cycleCnt + 1 else s.cycleCnt := by
  have hne : s.cycleCnt ≠ 0 := by
    unfold cycleActive at hact
    rw [Bool.and_eq_true, decide_eq_true_eq] at hact
    exact hact.1
  unfold step
  rw [if_pos hact]
  simp only [hend, Bool.false_eq_true, if_false]
  unfold cycleCntNext
  rw [if_pos hne]

/-- The end of the last region ends the cycle. -/
theorem step_cycleCnt_allEnd
    {s : State} {i : Input}
    (hact : cycleActive c s = true) (hend : allEnd c s i = true) :
    (step c s i).cycleCnt = 0 := by
  unfold step
  rw [if_pos hact]
  simp [hend]

/-- Outside a cycle nothing but a trigger or the passing of the delay moves
the counters. -/
theorem step_waiting_cases
    {s : State} {i : Input} (hact : cycleActive c s = false) :
    ((i.trig || tmpTrig s i) = true ∧ (step c s i).cycleCnt = 1 ∧
        (step c s i).regionCnt = 0 ∧ (step c s i).sampleCnt = 0) ∨
      ((step c s i).cycleCnt = cycleCntNext s i ∧
        (step c s i).regionCnt = s.regionCnt ∧
        (step c s i).sampleCnt = s.sampleCnt) := by
  cases ht : i.trig || tmpTrig s i with
  | true =>
      left
      simp [step, hact, ht]
  | false =>
      right
      simp [step, hact, ht]

/-- An active clock with a sample inside a region. -/
theorem CycleInv.step_sample
    {s : State} (h : CycleInv c s) (hc : c.Ok) {i : Input}
    (hact : cycleActive c s = true) (hv : i.valid = true)
    (hre : regionEnd c s i = false) (hroom : s.cycleCnt.toNat < 65535) :
    CycleInv c (step c s i) ∧ cycleActive c (step c s i) = true := by
  have hend : allEnd c s i = false := by
    simp [allEnd, hre]
  have hcnt : (step c s i).cycleCnt.toNat = s.cycleCnt.toNat + 1 := by
    rw [step_cycleCnt_active hact hend, hv, if_pos rfl, toNat_succ hroom]
  have hmore : s.sampleCnt.toNat + 1 < c.samples := by
    have hlt := h.sample hact
    have hne : ¬ (i.valid = true ∧ s.sampleCnt.toNat + 1 = c.samples) := by
      rw [← regionEnd_iff]
      simp [hre]
    simp only [hv, true_and] at hne
    omega
  have hsample : (step c s i).sampleCnt.toNat = s.sampleCnt.toNat + 1 := by
    have hsize := c.capRegionSize.isLt
    unfold Config.samples at hmore
    simp only [step, hact, hre, hv, if_true, Bool.false_eq_true, if_false]
    exact toNat_succ (by omega)
  have hregion : (step c s i).regionCnt = s.regionCnt := by
    simp [step, hact, hre]
  have hstill : cycleActive c (step c s i) = true := by
    have hnow := (hc.active_iff s).mp hact
    rw [hc.active_iff, hcnt]
    omega
  have hcount := h.count hact
  refine ⟨⟨fun hidle => by simp [hstill] at hidle, fun _ => ?_, fun _ => ?_,
    fun _ => ?_⟩, hstill⟩
  · rw [hcnt, hsample, hregion, hcount]
    omega
  · rw [hregion]
    exact h.region hact
  · rw [hsample]
    exact hmore

/-- An active clock that ends a region but not the cycle. -/
theorem CycleInv.step_region
    {s : State} (h : CycleInv c s) (hc : c.Ok) {i : Input}
    (hact : cycleActive c s = true) (hre : regionEnd c s i = true)
    (hend : allEnd c s i = false) (hroom : s.cycleCnt.toNat < 65535) :
    CycleInv c (step c s i) ∧ cycleActive c (step c s i) = true ∧
      (step c s i).regionCnt.toNat = s.regionCnt.toNat + 1 ∧
      (step c s i).sampleCnt = 0 := by
  obtain ⟨hv, hsize⟩ := (regionEnd_iff s i).mp hre
  have hcnt : (step c s i).cycleCnt.toNat = s.cycleCnt.toNat + 1 := by
    rw [step_cycleCnt_active hact hend, hv, if_pos rfl, toNat_succ hroom]
  have hsample : (step c s i).sampleCnt = 0 := by
    simp [step, hact, hre]
  have hlt := h.region hact
  have hregion : (step c s i).regionCnt.toNat = s.regionCnt.toNat + 1 := by
    have hbound := c.capRegions.isLt
    unfold Config.regions at hlt
    simp only [step, hact, hre, if_true]
    exact toNat_succ (by omega)
  have hmore : s.regionCnt.toNat + 1 < c.regions := by
    have hne : ¬ (regionEnd c s i = true ∧
        s.regionCnt.toNat + 1 = c.regions) := by
      rw [← allEnd_iff hc.regions]
      simp [hend]
    simp only [hre, true_and] at hne
    omega
  have hstill : cycleActive c (step c s i) = true := by
    have hnow := (hc.active_iff s).mp hact
    rw [hc.active_iff, hcnt]
    omega
  have hcount := h.count hact
  refine ⟨⟨fun hidle => by simp [hstill] at hidle, fun _ => ?_, fun _ => ?_,
    fun _ => ?_⟩, hstill, hregion, hsample⟩
  · rw [hcnt, hsample, hregion, hcount, c.samples_succ]
    simp
    omega
  · rw [hregion]
    exact hmore
  · rw [hsample]
    unfold Config.samples
    simp

/-- An active clock without a sample changes no counter. -/
theorem step_hold
    {s : State} {i : Input}
    (hact : cycleActive c s = true) (hv : i.valid = false) :
    (step c s i).cycleCnt = s.cycleCnt ∧
      (step c s i).regionCnt = s.regionCnt ∧
      (step c s i).sampleCnt = s.sampleCnt := by
  have hend : allEnd c s i = false := by
    simp [allEnd, hv]
  refine ⟨?_, ?_, ?_⟩
  · rw [step_cycleCnt_active hact hend, hv]
    simp
  · simp [step, hact, regionEnd, hv]
  · simp [step, hact, regionEnd, hv]

/-- The invariant depends on the three counters only. -/
theorem CycleInv.congr
    {s s' : State} (h : CycleInv c s)
    (hc : s'.cycleCnt = s.cycleCnt) (hr : s'.regionCnt = s.regionCnt)
    (hs : s'.sampleCnt = s.sampleCnt) :
    CycleInv c s' := by
  have hact : cycleActive c s' = cycleActive c s := by
    simp [cycleActive, hc]
  constructor <;> rw [hact]
  · rw [hc, hr, hs]
    exact h.waiting
  · rw [hc, hr, hs]
    exact h.count
  · rw [hr]
    exact h.region
  · rw [hs]
    exact h.sample

/-- An inactive clock: the counters wait, or a cycle starts, or the delay
passes and the first region begins. -/
theorem CycleInv.step_waiting
    {s : State} (h : CycleInv c s) (hc : c.Ok) {i : Input}
    (hact : cycleActive c s = false) :
    CycleInv c (step c s i) ∧
      (cycleActive c (step c s i) = true →
        (step c s i).regionCnt = 0 ∧ (step c s i).sampleCnt = 0) := by
  have hdelay := hc.delay
  have hle : s.cycleCnt.toNat ≤ c.delay := by
    by_contra hgt
    have hlt := (hc.active_iff s).mpr (by omega)
    simp [hact] at hlt
  -- a fresh cycle, or one that has just become active, has zero counters
  have hzero : ∀ s' : State, s'.regionCnt = 0 → s'.sampleCnt = 0 →
      s'.cycleCnt.toNat ≤ c.delay + 1 → CycleInv c s' := by
    intro s' hr hs hle'
    refine ⟨fun _ _ => ⟨hr, hs⟩, fun ha => ?_, fun _ => ?_, fun _ => ?_⟩
    · have hlt := (hc.active_iff s').mp ha
      rw [hr, hs]
      simp
      omega
    · rw [hr]
      have := hc.regions
      simp
      omega
    · rw [hs]
      unfold Config.samples
      simp
  rcases step_waiting_cases (i := i) hact with
    ⟨_, hcnt, hr, hs⟩ | ⟨hcnt, hr, hs⟩
  · refine ⟨hzero _ hr hs ?_, fun _ => ⟨hr, hs⟩⟩
    rw [hcnt]
    simp
  · by_cases h0 : s.cycleCnt = 0
    · have hidle : (step c s i).cycleCnt = 0 := by
        rw [hcnt]
        simp [cycleCntNext, h0]
      have hinactive : cycleActive c (step c s i) = false := by
        simp [cycleActive, hidle]
      refine ⟨⟨fun _ hne => absurd hidle hne, ?_, ?_, ?_⟩, ?_⟩ <;>
        intro ha <;> simp [hinactive] at ha
    · obtain ⟨hr0, hs0⟩ := h.waiting hact h0
      rw [hr0] at hr
      rw [hs0] at hs
      refine ⟨hzero _ hr hs ?_, fun _ => ⟨hr, hs⟩⟩
      rw [hcnt]
      unfold cycleCntNext
      rw [if_pos h0]
      split_ifs
      · rw [toNat_succ (by omega)]
        omega
      · omega

/-- Every clock keeps the invariant unless `cycle_cnt` wraps in it. -/
theorem CycleInv.step
    {s : State} (h : CycleInv c s) (hc : c.Ok) {i : Input}
    (hroom : cycleActive c s = true → i.valid = true →
      allEnd c s i = false → s.cycleCnt.toNat < 65535) :
    CycleInv c (step c s i) := by
  cases hact : cycleActive c s with
  | false =>
      exact (h.step_waiting hc hact).1
  | true =>
      cases hend : allEnd c s i with
      | true =>
          have hidle := step_cycleCnt_allEnd hact hend
          have hinactive : cycleActive c (CaptureControl.step c s i) = false := by
            simp [cycleActive, hidle]
          refine ⟨fun _ hne => absurd hidle hne, ?_, ?_, ?_⟩ <;>
            intro ha <;> simp [hinactive] at ha
      | false =>
          cases hv : i.valid with
          | false =>
              obtain ⟨hcc, hrr, hss⟩ := step_hold hact hv
              exact h.congr hcc hrr hss
          | true =>
              have hlt := hroom hact hv hend
              cases hre : regionEnd c s i with
              | false => exact (h.step_sample hc hact hv hre hlt).1
              | true => exact (h.step_region hc hact hre hend hlt).1

/-- A sample of an active cycle that does not end it comes before the last
count. -/
theorem CycleInv.lt_lastCount
    {s : State} (h : CycleInv c s) (hregions : 1 ≤ c.regions) {i : Input}
    (hact : cycleActive c s = true) (hv : i.valid = true)
    (hend : allEnd c s i = false) :
    s.cycleCnt.toNat < c.lastCount := by
  have hcount := h.count hact
  have hregion := h.region hact
  have hsample := h.sample hact
  have hmul : (s.regionCnt.toNat + 1) * c.samples ≤ c.regions * c.samples :=
    Nat.mul_le_mul_right _ hregion
  rw [c.samples_succ] at hmul
  have hne : ¬ (s.sampleCnt.toNat + 1 = c.samples ∧
      s.regionCnt.toNat + 1 = c.regions) := by
    rintro ⟨hs, hr⟩
    have := (allEnd_iff hregions s i).mpr ⟨(regionEnd_iff s i).mpr ⟨hv, hs⟩, hr⟩
    simp [hend] at this
  unfold Config.lastCount
  by_cases hs : s.sampleCnt.toNat + 1 = c.samples
  · -- the region ends, so another one follows
    have hmore : s.regionCnt.toNat + 2 ≤ c.regions := by omega
    have hmul2 : (s.regionCnt.toNat + 2) * c.samples ≤ c.regions * c.samples :=
      Nat.mul_le_mul_right _ hmore
    rw [c.samples_succ (s.regionCnt.toNat + 1), c.samples_succ] at hmul2
    omega
  · omega

/-- If the last count of a cycle fits the register, it never wraps. -/
theorem CycleInv.room
    {s : State} (h : CycleInv c s) (hc : c.Ok)
    (hfit : c.lastCount ≤ 65535) {i : Input}
    (hact : cycleActive c s = true) (hv : i.valid = true)
    (hend : allEnd c s i = false) :
    s.cycleCnt.toNat < 65535 := by
  have hlt := h.lt_lastCount hc.regions hact hv hend
  omega

/-- Registers before clock edge `t` of a run that begins with a reset. -/
def stateAt (c : Config) (s : State) (i₀ : Input)
    (inp : Nat → Input) : Nat → State :=
  run (step c) (reset s i₀) inp

theorem stateAt_succ (c : Config) (s : State) (i₀ : Input)
    (inp : Nat → Input) (t : Nat) :
    stateAt c s i₀ inp (t + 1) = step c (stateAt c s i₀ inp t) (inp t) := by
  rfl

/-- While the last count of a cycle fits the register the invariant holds in
every clock of every run. -/
theorem run_inv
    (hc : c.Ok) (hfit : c.lastCount ≤ 65535)
    (s : State) (i₀ : Input) (inp : Nat → Input) (t : Nat) :
    CycleInv c (stateAt c s i₀ inp t) := by
  refine run_invariant (CycleInv c) (reset_inv c s i₀) ?_ t
  intro s i h
  exact h.step hc (fun hact hv hend => h.room hc hfit hact hv hend)

/-- An active clock that is not `all_end` is followed by an active one. -/
theorem CycleInv.stays_active
    {s : State} (h : CycleInv c s) (hc : c.Ok) {i : Input}
    (hact : cycleActive c s = true) (hend : allEnd c s i = false)
    (hroom : i.valid = true → s.cycleCnt.toNat < 65535) :
    cycleActive c (CaptureControl.step c s i) = true := by
  cases hv : i.valid with
  | false =>
      have hcc := (step_hold hact hv).1
      unfold cycleActive at hact ⊢
      rw [hcc]
      exact hact
  | true =>
      cases hre : regionEnd c s i with
      | false => exact (h.step_sample hc hact hv hre (hroom hv)).2
      | true => exact (h.step_region hc hact hre hend (hroom hv)).2.1

/-- In the clock of `all_end` the cycle counter has its last value. -/
theorem CycleInv.count_allEnd
    {s : State} (h : CycleInv c s) (hc : c.Ok) {i : Input}
    (hact : cycleActive c s = true) (hend : allEnd c s i = true) :
    s.cycleCnt.toNat = c.lastCount := by
  obtain ⟨hre, hregion⟩ := (allEnd_iff hc.regions s i).mp hend
  have hsample := ((regionEnd_iff s i).mp hre).2
  have hcount := h.count hact
  unfold Config.lastCount
  rw [← hregion, c.samples_succ]
  omega

/-- What ends a cycle in the runs of one configuration: only `all_end` makes
`cycle_active` fall, and nothing else clears `cycle_cnt` while it is high. -/
def EndsOnlyAtAllEnd (c : Config) : Prop :=
  ∀ (s : State) (i₀ : Input) (inp : Nat → Input) (t : Nat),
    cycleActive c (stateAt c s i₀ inp t) = true →
      (cycleActive c (stateAt c s i₀ inp (t + 1)) = false →
        allEnd c (stateAt c s i₀ inp t) (inp t) = true) ∧
      (allEnd c (stateAt c s i₀ inp t) (inp t) = false →
        (stateAt c s i₀ inp (t + 1)).cycleCnt ≠ 0)

/-- One trigger, then a sample in every clock. -/
def steadyInput (t : Nat) : Input :=
  { trig := decide (t = 0)
    valid := true
    testMode := false }

/-- Under `steadyInput` a cycle that is too long for `cycle_cnt` counts up to
the last value of the register. -/
theorem steady_count
    (hc : c.Ok) (hlong : 65535 < c.lastCount)
    (s : State) (i₀ : Input) (t : Nat) (ht : t < 65535) :
    (stateAt c s i₀ steadyInput (t + 1)).cycleCnt.toNat = t + 1 ∧
      CycleInv c (stateAt c s i₀ steadyInput (t + 1)) := by
  have hdelay := hc.delay
  induction t with
  | zero =>
      have hidle := reset_inactive c s i₀
      refine ⟨?_, ((reset_inv c s i₀).step_waiting
        (i := steadyInput 0) hc hidle).1⟩
      rcases step_waiting_cases (i := steadyInput 0) hidle with
        ⟨_, hcnt, _, _⟩ | ⟨hcnt, _, _⟩
      · rw [stateAt_succ, stateAt, run_zero, hcnt]
        rfl
      · simp [step, hidle, steadyInput, stateAt, run_succ]
  | succ t ih =>
      obtain ⟨hcnt, hinv⟩ := ih (by omega)
      rw [stateAt_succ c s i₀ steadyInput (t + 1)]
      generalize stateAt c s i₀ steadyInput (t + 1) = s₁ at hcnt hinv ⊢
      have hne : s₁.cycleCnt ≠ 0 := by
        intro h0
        simp [h0] at hcnt
      cases hact : cycleActive c s₁ with
      | false =>
          refine ⟨?_, (hinv.step_waiting hc hact).1⟩
          have hnext : (step c s₁ (steadyInput (t + 1))).cycleCnt =
              s₁.cycleCnt + 1 := by
            simp [step, hact, steadyInput, tmpTrig, cycleCntNext]
            exact fun h0 => absurd h0 hne
          rw [hnext, toNat_succ (by omega), hcnt]
      | true =>
          have hend : allEnd c s₁ (steadyInput (t + 1)) = false := by
            by_contra hend
            have hlast := hinv.count_allEnd hc hact (by simpa using hend)
            omega
          refine ⟨?_, hinv.step hc (fun _ _ _ => by omega)⟩
          rw [step_cycleCnt_active hact hend]
          simp only [steadyInput, if_true]
          rw [toNat_succ (by omega), hcnt]

/-- A cycle that is too long for `cycle_cnt` wraps to 0 while it is active. -/
theorem too_long_wraps
    (hc : c.Ok) (hlong : 65535 < c.lastCount) :
    ¬ EndsOnlyAtAllEnd c := by
  intro hends
  have hdelay := hc.delay
  let s : State := ⟨0, 0, 0, 0⟩
  let i₀ : Input := ⟨false, false, false⟩
  obtain ⟨hcnt, hinv⟩ := steady_count hc hlong s i₀ 65534 (by omega)
  have hact : cycleActive c (stateAt c s i₀ steadyInput 65535) = true := by
    rw [hc.active_iff, hcnt]
    omega
  have hend : allEnd c (stateAt c s i₀ steadyInput 65535)
      (steadyInput 65535) = false := by
    by_contra hend
    have hlast := hinv.count_allEnd hc hact (by simpa using hend)
    omega
  refine (hends s i₀ steadyInput 65535 hact).2 hend ?_
  rw [stateAt_succ, step_cycleCnt_active hact hend]
  have hfull : (stateAt c s i₀ steadyInput 65535).cycleCnt = 65535 := by
    apply BitVec.eq_of_toNat_eq
    rw [hcnt]
    rfl
  simp only [steadyInput, if_true]
  rw [hfull]
  rfl

/-- **When a cycle ends.** With the delays that `system_top` can wire, a cycle
ends only at `all_end`, in every run, exactly when its last count fits the
sixteen bits of `cycle_cnt`. -/
theorem cycle_ends_iff
    (hena : c.enaDelay.toNat < 4096) (hstart : c.startDelay.toNat < 4096)
    (hregions : 1 ≤ c.regions) :
    EndsOnlyAtAllEnd c ↔ c.lastCount ≤ 65535 := by
  have hc : c.Ok := ⟨hregions, by unfold Config.delay; omega⟩
  constructor
  · intro hends
    by_contra hlong
    exact too_long_wraps hc (by omega) hends
  · intro hfit s i₀ inp t hact
    have hinv := run_inv hc hfit s i₀ inp t
    have hstays : allEnd c (stateAt c s i₀ inp t) (inp t) = false →
        cycleActive c (stateAt c s i₀ inp (t + 1)) = true := by
      intro hend
      exact hinv.stays_active hc hact hend
        (fun hv => hinv.room hc hfit hact hv hend)
    constructor
    · intro hidle
      by_contra hend
      rw [hstays (by simpa using hend)] at hidle
      exact absurd hidle (by simp)
    · intro hend hzero
      have hact' := hstays hend
      simp [cycleActive, hzero] at hact'

/-- The fixed configuration of `system_top`: one region of 461 samples. -/
def fixedConfig : Config :=
  { enaDelay := 0x008C
    startDelay := 0x0094
    capRegions := 1
    capRegionSize := 0x01CC }

theorem cycle_ends_fixedConfig : EndsOnlyAtAllEnd fixedConfig :=
  (cycle_ends_iff (by decide) (by decide) (by decide)).mpr (by decide)

/-- Fifteen regions of 5000 samples: the cycle is cut off after 65535
counts, in the middle of its fourteenth region. -/
theorem cycle_cut_fifteenRegions :
    ¬ EndsOnlyAtAllEnd
      { enaDelay := 0x008C
        startDelay := 0x0094
        capRegions := 15
        capRegionSize := 4999 } :=
  too_long_wraps ⟨by decide, by decide⟩ (by decide)

end CaptureControl
end MollerFirmware
