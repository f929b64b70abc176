import MollerFirmware.Clocked.Windows
import MollerFirmware.Hdl.CaptureControl

/-!
# Cycles of capture_control

A cycle starts when `cycle_cnt` goes from 0 to 1. In the test mode this is the
work of `tmp_cnt`, which counts samples up to `CYCLE_LENGTH_SAMPLES` and raises
`tmp_trig` while it is zero. The constant is written as `16'h1DC4`, which is
7620 and not the 7500 of its comment, so that the self-triggered cycles are
7620 samples apart.

A trigger during a cycle is ignored only while `cycle_active` is high: in the
delays before that it starts the cycle again.
-/

namespace MollerFirmware
namespace CaptureControl

open Clocked

/-- A run of the sequencer: the configuration, the registers before reset, the
inputs during reset and the inputs in every clock after it. -/
structure Run where
  config : Config
  before : State
  resetInput : Input
  input : Nat → Input

namespace Run

variable (r : Run)

/-- Registers before clock edge `t`. -/
def state (t : Nat) : State :=
  stateAt r.config r.before r.resetInput r.input t

/-- `valid` as a signal. -/
def valid (t : Nat) : Bool :=
  (r.input t).valid

/-- `cycle_active` as a signal. -/
def active (t : Nat) : Bool :=
  cycleActive r.config (r.state t)

/-- An active cycle runs to its `all_end` in this clock. -/
def cycleEnd (t : Nat) : Bool :=
  r.active t && allEnd r.config (r.state t) (r.input t)

/-- A cycle starts with this clock edge. -/
def Start (t : Nat) : Prop :=
  (r.state t).cycleCnt = 0 ∧ (r.state (t + 1)).cycleCnt = 1

/-- Two cycle starts without another one between them. -/
structure Successive (a b : Nat) : Prop where
  first : r.Start a
  second : r.Start b
  lt : a < b
  none : ∀ u, a < u → u < b → ¬ r.Start u

/-- The test mode: no other trigger, and a cycle that ends before 7500
samples. -/
structure SelfTriggered : Prop where
  testMode : ∀ t, (r.input t).testMode = true
  trig : ∀ t, (r.input t).trig = false
  spaced : Spaced 2 r.valid
  ena : 1 ≤ r.config.enaDelay.toNat
  regions : 1 ≤ r.config.regions
  size : 1 ≤ r.config.capRegionSize.toNat
  short : r.config.lastCount < 7500

variable {r}

theorem state_succ (t : Nat) :
    r.state (t + 1) = step r.config (r.state t) (r.input t) := by
  rfl

theorem inactive_of_cycleCnt_zero {t : Nat}
    (hzero : (r.state t).cycleCnt = 0) :
    r.active t = false := by
  simp [active, cycleActive, hzero]

/-! ## Triggers during a cycle -/

/-- `trig || tmp_trig` -/
def triggered (r : Run) (t : Nat) : Bool :=
  (r.input t).trig || tmpTrig (r.state t) (r.input t)

/-- The counters that a trigger sets. -/
def counters (s : State) : BitVec 16 × BitVec 16 × BitVec 16 :=
  (s.cycleCnt, s.regionCnt, s.sampleCnt)

/-- Two runs of one configuration that differ in nothing but the triggers, and
in these only while a cycle is in progress. -/
structure SameBut (r r' : Run) : Prop where
  config : r'.config = r.config
  valid : ∀ t, r'.valid t = r.valid t
  between : ∀ t, (r.state t).cycleCnt = 0 → r'.triggered t = r.triggered t

/-- The counters of two such runs are the same in every clock. -/
def SameCounters (r r' : Run) : Prop :=
  ∀ t, counters (r.state t) = counters (r'.state t)

/-- A clock of a cycle in which a trigger has no effect: the cycle is active,
or its counter has its first value and there is no sample. -/
def Harmless (r : Run) (t : Nat) : Prop :=
  r.active t = true ∨ ((r.state t).cycleCnt = 1 ∧ r.valid t = false)

/-- An active cycle stays active or leaves its counter cleared, also when that
wraps. -/
theorem step_active_or_zero {c : Config} {s : State} (i : Input)
    (hact : cycleActive c s = true) :
    cycleActive c (step c s i) = true ∨ (step c s i).cycleCnt = 0 := by
  cases hend : allEnd c s i with
  | true => exact Or.inr (step_cycleCnt_allEnd hact hend)
  | false =>
      by_cases hzero : (step c s i).cycleCnt = 0
      · exact Or.inr hzero
      · refine Or.inl ?_
        have hnext := step_cycleCnt_active hact hend
        unfold cycleActive at hact ⊢
        simp only [Bool.and_eq_true, decide_eq_true_eq] at hact ⊢
        refine ⟨hzero, ?_⟩
        rw [hnext] at hzero ⊢
        split_ifs at hzero ⊢
        · have hlt := hact.2
          bv_omega
        · exact hact.2

/-- Before a cycle is active the other counters are zero, in every
configuration. -/
theorem counters_waiting (r : Run) (t : Nat)
    (hidle : r.active t = false) (hcycle : (r.state t).cycleCnt ≠ 0) :
    (r.state t).regionCnt = 0 ∧ (r.state t).sampleCnt = 0 := by
  induction t with
  | zero => exact ⟨rfl, rfl⟩
  | succ t ih =>
      rw [state_succ] at hcycle ⊢
      cases hact : r.active t with
      | true =>
          rcases step_active_or_zero (r.input t) hact with hact' | hzero
          · have hidle' : cycleActive r.config
                (step r.config (r.state t) (r.input t)) = false := hidle
            rw [hidle'] at hact'
            exact absurd hact' (by simp)
          · exact absurd hzero hcycle
      | false =>
          rcases step_waiting_cases (i := r.input t) hact with
            ⟨_, _, hregion, hsample⟩ | ⟨hnext, hregion, hsample⟩
          · exact ⟨hregion, hsample⟩
          · rw [hregion, hsample]
            refine ih hact (fun hzero => hcycle ?_)
            rw [hnext]
            simp [cycleCntNext, hzero]

/-- What a clock does to the counters depends on them, on `valid` and on
whether there is a trigger. -/
theorem step_counters_congr {c : Config} {s s' : State} {i i' : Input}
    (hcnt : counters s = counters s') (hv : i'.valid = i.valid)
    (htrig : (i'.trig || tmpTrig s' i') = (i.trig || tmpTrig s i)) :
    counters (step c s i) = counters (step c s' i') := by
  obtain ⟨cyc, reg, smp, tmp⟩ := s
  obtain ⟨cyc', reg', smp', tmp'⟩ := s'
  simp only [counters, Prod.mk.injEq] at hcnt
  obtain ⟨rfl, rfl, rfl⟩ := hcnt
  have hre : regionEnd c ⟨cyc, reg, smp, tmp'⟩ i' =
      regionEnd c ⟨cyc, reg, smp, tmp⟩ i := by
    simp [regionEnd, hv]
  have hend : allEnd c ⟨cyc, reg, smp, tmp'⟩ i' =
      allEnd c ⟨cyc, reg, smp, tmp⟩ i := by
    simp [allEnd, hre, hv]
  have hact : cycleActive c ⟨cyc, reg, smp, tmp'⟩ =
      cycleActive c ⟨cyc, reg, smp, tmp⟩ := rfl
  have hnext : cycleCntNext ⟨cyc, reg, smp, tmp'⟩ i' =
      cycleCntNext ⟨cyc, reg, smp, tmp⟩ i := by
    simp [cycleCntNext, hv]
  unfold step
  rw [hact, htrig, hre, hend, hnext, hv]
  split_ifs <;> rfl

/-- An active cycle does not see a trigger. -/
theorem step_counters_active {c : Config} {s s' : State} {i i' : Input}
    (hcnt : counters s = counters s') (hv : i'.valid = i.valid)
    (hact : cycleActive c s = true) :
    counters (step c s i) = counters (step c s' i') := by
  have hact' : cycleActive c s' = true := by
    have hcycle : s.cycleCnt = s'.cycleCnt := congrArg Prod.fst hcnt
    simpa [cycleActive, hcycle] using hact
  -- a trigger in both runs makes no difference either
  have hlift : ∀ (u : State) (j : Input), cycleActive c u = true →
      counters (step c u j) = counters (step c u { j with trig := true }) := by
    intro u j hu
    simp [step, hu, counters, regionEnd, allEnd, cycleCntNext]
  rw [hlift s i hact, hlift s' i' hact']
  exact step_counters_congr hcnt hv (by simp)

/-- Before a cycle is active a trigger sets it back to its beginning. -/
theorem step_counters_waiting {c : Config} {s s' : State} {i i' : Input}
    (hcnt : counters s = counters s')
    (hidle : cycleActive c s = false) (hcycle : s.cycleCnt ≠ 0)
    (hzero : s.regionCnt = 0 ∧ s.sampleCnt = 0)
    (htrig : (i.trig || tmpTrig s i) = true)
    (hnone : (i'.trig || tmpTrig s' i') = false) :
    counters (step c s i) = counters (step c s' i') ↔
      s.cycleCnt = 1 ∧ i'.valid = false := by
  simp only [counters, Prod.mk.injEq] at hcnt
  obtain ⟨hc, hr, hs⟩ := hcnt
  have hidle' : cycleActive c s' = false := by
    simpa [cycleActive, hc] using hidle
  simp only [step, hidle, hidle', htrig, hnone, Bool.false_eq_true,
    if_true, if_false, counters, Prod.mk.injEq, cycleCntNext, ← hc, ← hr,
    ← hs, hzero.1, hzero.2, and_true]
  rw [if_pos hcycle]
  cases hv : i'.valid with
  | true =>
      have hne : ¬ (1 = s.cycleCnt + 1) := by
        intro hone
        exact hcycle (by bv_omega)
      simpa using hne
  | false =>
      simpa using eq_comm

/-- One clock in which two such runs have the same counters. -/
theorem SameBut.step_iff {r r' : Run} (h : SameBut r r') {t : Nat}
    (hcnt : counters (r.state t) = counters (r'.state t)) :
    counters (r.state (t + 1)) = counters (r'.state (t + 1)) ↔
      ((r.state t).cycleCnt ≠ 0 → r.triggered t ≠ r'.triggered t →
        Harmless r t) := by
  rw [state_succ, state_succ, h.config]
  have hv : (r'.input t).valid = (r.input t).valid := h.valid t
  by_cases hsame : r'.triggered t = r.triggered t
  · exact iff_of_true (step_counters_congr hcnt hv hsame)
      (fun _ hne => absurd hsame.symm hne)
  · have hcycle : (r.state t).cycleCnt ≠ 0 :=
      fun hzero => hsame (h.between t hzero)
    cases hact : r.active t with
    | true =>
        exact iff_of_true (step_counters_active hcnt hv hact)
          (fun _ _ => Or.inl hact)
    | false =>
        have hzero := counters_waiting r t hact hcycle
        have hharm : Harmless r t ↔
            (r.state t).cycleCnt = 1 ∧ r.valid t = false := by
          simp [Harmless, hact]
        have hiff : counters (step r.config (r.state t) (r.input t)) =
            counters (step r.config (r'.state t) (r'.input t)) ↔
              (r.state t).cycleCnt = 1 ∧ r.valid t = false := by
          cases htrig : r.triggered t with
          | true =>
              rw [htrig, Bool.not_eq_true] at hsame
              rw [← h.valid t]
              exact step_counters_waiting hcnt hact hcycle hzero htrig hsame
          | false =>
              rw [htrig, Bool.not_eq_false] at hsame
              simp only [counters, Prod.mk.injEq] at hcnt
              obtain ⟨hc, hr, hs⟩ := hcnt
              have hact' : cycleActive r.config (r'.state t) = false := by
                have hact₀ : cycleActive r.config (r.state t) = false := hact
                simpa [cycleActive, hc] using hact₀
              rw [eq_comm, hc]
              exact step_counters_waiting (by simp [counters, hc, hr, hs])
                hact' (by rw [← hc]; exact hcycle)
                (by rw [← hr, ← hs]; exact hzero) hsame htrig
        rw [hiff, hharm]
        exact ⟨fun hh _ _ => hh, fun hh => hh hcycle (Ne.symm hsame)⟩

/-- Triggers during a cycle leave the counters alone exactly when each of them
falls into a clock in which it has no effect. In the delays before a cycle is
active it has one: it starts the cycle again. -/
theorem same_counters_iff {r r' : Run} (h : SameBut r r') :
    SameCounters r r' ↔
      ∀ t, (r.state t).cycleCnt ≠ 0 → r.triggered t ≠ r'.triggered t →
        Harmless r t := by
  constructor
  · intro hsame t
    exact (h.step_iff (hsame t)).mp (hsame (t + 1))
  · intro hharm t
    induction t with
    | zero => rfl
    | succ t ih => exact (h.step_iff ih).mpr (hharm t)

/-- The fixed configuration with a sample in every clock. -/
def steadyRun (trig : Nat → Bool) : Run :=
  { config := fixedConfig
    before := ⟨0, 0, 0, 0⟩
    resetInput := ⟨false, false, false⟩
    input := fun t => ⟨trig t, true, false⟩ }

/-- A second trigger in clock 2. -/
def firstAndSecond (t : Nat) : Bool :=
  decide (t = 0) || decide (t = 2)

theorem steadyRun_sameBut :
    SameBut (steadyRun firstAndSecond) (steadyRun fun t => decide (t = 0)) := by
  refine ⟨rfl, fun _ => rfl, fun t hzero => ?_⟩
  by_cases ht : t = 2
  · subst ht
    exact absurd hzero (by decide +kernel)
  · simp [triggered, steadyRun, firstAndSecond, ht, tmpTrig]

/-- The fixed configuration with samples from clock 3 on: in clock 2 the cycle
counter has its first value. -/
def lateRun (trig : Nat → Bool) : Run :=
  { steadyRun trig with
    input := fun t => ⟨trig t, decide (2 < t), false⟩ }

theorem same_counters_iff_lateRun :
    SameCounters (lateRun firstAndSecond)
      (lateRun fun t => decide (t = 0)) := by
  have hsecond : ∀ t, t ≠ 2 → (lateRun firstAndSecond).triggered t =
      (lateRun fun t => decide (t = 0)).triggered t := by
    intro t ht
    simp [triggered, lateRun, steadyRun, firstAndSecond, ht, tmpTrig]
  have hbut : SameBut (lateRun firstAndSecond)
      (lateRun fun t => decide (t = 0)) := by
    refine ⟨rfl, fun _ => rfl, fun t hzero => ?_⟩
    by_cases ht : t = 2
    · subst ht
      exact absurd hzero (by decide +kernel)
    · exact (hsecond t ht).symm
  refine (same_counters_iff hbut).mpr fun t _ hne => ?_
  by_cases ht : t = 2
  · subst ht
    exact Or.inr ⟨by decide +kernel, rfl⟩
  · exact absurd (hsecond t ht) hne

/-- The second trigger sets `cycle_cnt` back to 1. -/
theorem not_same_counters_steadyRun :
    1 ≤ fixedConfig.enaDelay.toNat ∧
      SameBut (steadyRun firstAndSecond)
        (steadyRun fun t => decide (t = 0)) ∧
      ¬ SameCounters (steadyRun firstAndSecond)
        (steadyRun fun t => decide (t = 0)) := by
  refine ⟨by decide, steadyRun_sameBut, fun hsame => ?_⟩
  exact absurd (hsame 3) (by decide +kernel)

/-! ## The period counter -/

/-- Samples that `tmp_cnt` counts from a value `x` other than
`CYCLE_LENGTH_SAMPLES` until it reaches that constant or wraps. -/
def toGo (x : Nat) : Nat :=
  if x < 7620 then 7620 - x else 65536 - x

/-- Samples after reset, which `tmp_cnt` does not see, until it is zero for the
first time. A sample in the clock of `end_cycle` is not counted by it. -/
def lead (r : Run) : Nat :=
  let x := (r.state 0).tmpCnt.toNat
  if x = 0 then 0
  else if x = 7620 then if r.valid 0 then 1 else 0
  else toGo x

namespace SelfTriggered

theorem ok (h : r.SelfTriggered) : r.config.Ok := by
  have hshort := h.short
  unfold Config.lastCount at hshort
  exact ⟨h.regions, by omega⟩

theorem one_le_delay (h : r.SelfTriggered) : 1 ≤ r.config.delay := by
  have := h.ena
  unfold Config.delay
  omega

theorem delay_lt_lastCount (h : r.SelfTriggered) :
    r.config.delay < r.config.lastCount := by
  have hmul : 1 * 1 ≤ r.config.regions * r.config.samples :=
    Nat.mul_le_mul h.regions (by unfold Config.samples; omega)
  unfold Config.lastCount
  omega

theorem cycleInv (h : r.SelfTriggered) (t : Nat) :
    CycleInv r.config (r.state t) := by
  have hshort := h.short
  exact run_inv h.ok (by omega) _ _ _ t

theorem endCycle_eq (h : r.SelfTriggered) (t : Nat) :
    endCycle (r.state t) (r.input t) =
      decide ((r.state t).tmpCnt.toNat = 7620) := by
  rw [endCycle, h.testMode t, if_pos rfl, decide_eq_decide,
    ← BitVec.toNat_inj]
  rfl

/-- The only trigger is `tmp_trig`. -/
theorem triggered_eq (h : r.SelfTriggered) (t : Nat) :
    ((r.input t).trig || tmpTrig (r.state t) (r.input t)) =
      decide ((r.state t).tmpCnt.toNat = 0) := by
  rw [h.trig t, Bool.false_or, tmpTrig, h.testMode t, if_pos rfl,
    decide_eq_decide, ← BitVec.toNat_inj]
  rfl

theorem tmpCnt_succ (h : r.SelfTriggered) (t : Nat) :
    (r.state (t + 1)).tmpCnt =
      if (r.state t).tmpCnt.toNat = 7620 then 0
      else if r.valid t then (r.state t).tmpCnt + 1
      else (r.state t).tmpCnt := by
  have hnext : (r.state (t + 1)).tmpCnt = tmpNext (r.state t) (r.input t) := by
    rw [state_succ, step]
    split_ifs <;> rfl
  rw [hnext, tmpNext, h.testMode t, if_pos rfl, h.endCycle_eq t]
  simp only [decide_eq_true_eq]
  rfl

/-- The clock after `CYCLE_LENGTH_SAMPLES` is reached clears the counter. -/
theorem tmpCnt_after (h : r.SelfTriggered) {t : Nat}
    (hfull : (r.state t).tmpCnt.toNat = 7620) :
    (r.state (t + 1)).tmpCnt.toNat = 0 := by
  rw [h.tmpCnt_succ, if_pos hfull]
  rfl

/-- From a clock `a` on `tmp_cnt` counts the samples until it has run out. -/
theorem tmpCnt_counts (h : r.SelfTriggered) {a e : Nat}
    (ha : (r.state a).tmpCnt.toNat ≠ 7620)
    (he : ∀ u, a ≤ u → u < e →
      pulsesIn r.valid a u < toGo (r.state a).tmpCnt.toNat)
    {t : Nat} (hat : a ≤ t) (hte : t ≤ e) :
    (r.state t).tmpCnt.toNat =
      ((r.state a).tmpCnt.toNat + pulsesIn r.valid a t) % 65536 := by
  have hlt := (r.state a).tmpCnt.isLt
  induction t, hat using Nat.le_induction with
  | base =>
      rw [pulsesIn_self, Nat.add_zero, Nat.mod_eq_of_lt hlt]
  | succ t hat ih =>
      have ih' := ih (by omega)
      have hroom := he t hat (by omega)
      unfold toGo at hroom
      have hexact : (r.state t).tmpCnt.toNat =
          (r.state a).tmpCnt.toNat + pulsesIn r.valid a t := by
        rw [ih']
        split_ifs at hroom <;> omega
      have hnot : (r.state t).tmpCnt.toNat ≠ 7620 := by
        split_ifs at hroom <;> omega
      rw [h.tmpCnt_succ, if_neg hnot, pulsesIn_succ _ hat]
      cases r.valid t with
      | false =>
          simpa using ih'
      | true =>
          rw [if_pos rfl, if_pos rfl, BitVec.toNat_add, hexact]
          rfl

/-! ## One cycle -/

theorem active_iff (h : r.SelfTriggered) (t : Nat) :
    r.active t = true ↔ r.config.delay < (r.state t).cycleCnt.toNat :=
  h.ok.active_iff _

/-- `tmp_cnt` at zero starts a cycle, unless one is active. -/
theorem cycleCnt_triggered (h : r.SelfTriggered) {t : Nat}
    (hidle : r.active t = false) (hzero : (r.state t).tmpCnt.toNat = 0) :
    (r.state (t + 1)).cycleCnt = 1 := by
  have htrig := h.triggered_eq t
  rw [decide_eq_true hzero] at htrig
  have hidle' : cycleActive r.config (r.state t) = false := hidle
  simp [state_succ, step, hidle', htrig]

/-- Without a trigger a cleared cycle counter stays cleared. -/
theorem cycleCnt_idle (h : r.SelfTriggered) {t : Nat}
    (hidle : (r.state t).cycleCnt = 0)
    (htmp : (r.state t).tmpCnt.toNat ≠ 0) :
    (r.state (t + 1)).cycleCnt = 0 := by
  have htrig := h.triggered_eq t
  rw [decide_eq_false htmp] at htrig
  have hact : cycleActive r.config (r.state t) = false :=
    inactive_of_cycleCnt_zero hidle
  simp [state_succ, step, hact, htrig, cycleCntNext, hidle]

/-- A cycle starts when both counters are zero. -/
theorem start_iff (h : r.SelfTriggered) (t : Nat) :
    r.Start t ↔
      (r.state t).cycleCnt = 0 ∧ (r.state t).tmpCnt.toNat = 0 := by
  refine and_congr_right (fun hidle => ?_)
  constructor
  · intro hone
    by_contra htmp
    rw [h.cycleCnt_idle hidle htmp] at hone
    exact absurd hone (by decide)
  · exact h.cycleCnt_triggered (inactive_of_cycleCnt_zero hidle)

/-- So one starts in the clock after `tmp_cnt` has reached the constant. -/
theorem start_after_full (h : r.SelfTriggered) {t : Nat}
    (hidle : (r.state t).cycleCnt = 0)
    (hfull : (r.state t).tmpCnt.toNat = 7620) :
    r.Start (t + 1) :=
  (h.start_iff _).mpr
    ⟨h.cycleCnt_idle hidle (by omega), h.tmpCnt_after hfull⟩

/-- A cycle ends with the sample that finds `cycle_cnt` at its last value. -/
theorem cycleEnd_iff (h : r.SelfTriggered) (t : Nat) :
    r.cycleEnd t = true ↔
      r.valid t = true ∧ (r.state t).cycleCnt.toNat = r.config.lastCount := by
  unfold cycleEnd
  rw [Bool.and_eq_true]
  constructor
  · rintro ⟨hact, hend⟩
    have hre := ((allEnd_iff h.regions _ _).mp hend).1
    exact ⟨((regionEnd_iff _ _).mp hre).1,
      (h.cycleInv t).count_allEnd h.ok hact hend⟩
  · rintro ⟨hv, hlast⟩
    have hact : r.active t = true := by
      rw [h.active_iff, hlast]
      exact h.delay_lt_lastCount
    refine ⟨hact, ?_⟩
    by_contra hend
    have hlt := (h.cycleInv t).lt_lastCount h.regions hact hv
      (by simpa using hend)
    omega

/-- In a cycle `cycle_cnt` counts the samples, as long as nothing triggers and
the cycle does not end. -/
theorem cycleCnt_counts (h : r.SelfTriggered) {t : Nat}
    (hcycle : (r.state t).cycleCnt ≠ 0)
    (htmp : (r.state t).tmpCnt.toNat ≠ 0)
    (hend : r.cycleEnd t = false) :
    (r.state (t + 1)).cycleCnt =
      if r.valid t then (r.state t).cycleCnt + 1
      else (r.state t).cycleCnt := by
  cases hact : r.active t with
  | true =>
      unfold cycleEnd at hend
      rw [hact, Bool.true_and] at hend
      exact step_cycleCnt_active hact hend
  | false =>
      have htrig := h.triggered_eq t
      rw [decide_eq_false htmp] at htrig
      have hact' : cycleActive r.config (r.state t) = false := hact
      simp only [state_succ, step, hact', htrig, Bool.false_eq_true,
        if_false, cycleCntNext]
      rw [if_pos hcycle]
      rfl

/-- How far a cycle has come that started with clock `a`. -/
structure Course (r : Run) (a t : Nat) : Prop where
  running : pulsesIn r.valid a t ≤ r.config.lastCount →
    (r.state t).cycleCnt.toNat = max 1 (pulsesIn r.valid a t) ∧
      pulsesIn r.cycleEnd a t = 0
  finished : r.config.lastCount < pulsesIn r.valid a t →
    (r.state t).cycleCnt = 0 ∧ pulsesIn r.cycleEnd a t = 1

theorem course_start (h : r.SelfTriggered) {a : Nat} (hs : r.Start a) :
    Course r a (a + 1) := by
  have hlast := h.delay_lt_lastCount
  have hle : pulsesIn r.valid a (a + 1) ≤ 1 := by
    rw [pulsesIn_succ _ (le_refl a), pulsesIn_self]
    split_ifs <;> omega
  have hquiet : r.cycleEnd a = false := by
    simp [cycleEnd, inactive_of_cycleCnt_zero hs.1]
  refine ⟨fun _ => ⟨?_, ?_⟩, fun hover => by omega⟩
  · rw [hs.2, Nat.max_eq_left hle]
    rfl
  · rw [pulsesIn_succ _ (le_refl a), pulsesIn_self, hquiet]
    rfl

/-- Before the first sample the trigger lasts and the cycle waits. -/
theorem course_waiting (h : r.SelfTriggered) {a t : Nat} (hat : a < t)
    (htmp : (r.state t).tmpCnt.toNat = pulsesIn r.valid a t)
    (hfirst : pulsesIn r.valid a t = 0) (hc : Course r a t) :
    Course r a (t + 1) := by
  have hdelay := h.one_le_delay
  have hlast := h.delay_lt_lastCount
  obtain ⟨hcnt, hnone⟩ := hc.running (by omega)
  have hidle : r.active t = false := by
    by_contra hact
    have := (h.active_iff t).mp (by simpa using hact)
    omega
  have hone := h.cycleCnt_triggered hidle (by omega)
  have hquiet : r.cycleEnd t = false := by
    simp [cycleEnd, hidle]
  have hle : pulsesIn r.valid a (t + 1) ≤ 1 := by
    rw [pulsesIn_succ _ hat.le, hfirst]
    split_ifs <;> omega
  refine ⟨fun _ => ⟨?_, ?_⟩, fun hover => by omega⟩
  · rw [hone, Nat.max_eq_left hle]
    rfl
  · rw [pulsesIn_succ _ hat.le, hnone, hquiet]
    rfl

/-- From the first sample on `cycle_cnt` counts the samples, and the one after
`lastCount` others ends the cycle. -/
theorem course_running (h : r.SelfTriggered) {a t : Nat} (hat : a < t)
    (htmp : (r.state t).tmpCnt.toNat = pulsesIn r.valid a t)
    (hsome : pulsesIn r.valid a t ≠ 0)
    (hle : pulsesIn r.valid a t ≤ r.config.lastCount) (hc : Course r a t) :
    Course r a (t + 1) := by
  have hshort := h.short
  have hpulses := pulsesIn_succ r.valid hat.le
  have hends := pulsesIn_succ r.cycleEnd hat.le
  obtain ⟨hcnt, hnone⟩ := hc.running hle
  have hcycle : (r.state t).cycleCnt ≠ 0 := by
    intro hzero
    rw [hzero] at hcnt
    simp at hcnt
    omega
  cases hend : r.cycleEnd t with
  | true =>
      obtain ⟨hv, hlastCnt⟩ := (h.cycleEnd_iff t).mp hend
      unfold cycleEnd at hend
      rw [Bool.and_eq_true] at hend
      have hzero : (r.state (t + 1)).cycleCnt = 0 :=
        step_cycleCnt_allEnd hend.1 hend.2
      rw [hv, if_pos rfl] at hpulses
      refine ⟨fun hle => by omega, fun _ => ⟨hzero, ?_⟩⟩
      rw [hends, hnone]
      simp [cycleEnd, hend]
  | false =>
      have hnext := h.cycleCnt_counts hcycle (by omega) hend
      have hquiet : pulsesIn r.cycleEnd a (t + 1) = 0 := by
        rw [hends, hnone, hend]
        rfl
      cases hv : r.valid t with
      | false =>
          rw [hv] at hnext hpulses
          simp only [Bool.false_eq_true, if_false] at hnext hpulses
          refine ⟨fun _ => ⟨?_, hquiet⟩, fun hover => by omega⟩
          rw [hnext]
          omega
      | true =>
          rw [hv, if_pos rfl] at hnext hpulses
          have hnot : pulsesIn r.valid a t ≠ r.config.lastCount := by
            intro hlastCnt
            rw [(h.cycleEnd_iff t).mpr ⟨hv, by omega⟩] at hend
            exact absurd hend (by simp)
          refine ⟨fun _ => ⟨?_, hquiet⟩, fun hover => by omega⟩
          rw [hnext, toNat_succ (by omega)]
          omega

/-- After its end the cycle stays over. -/
theorem course_over (h : r.SelfTriggered) {a t : Nat} (hat : a < t)
    (htmp : (r.state t).tmpCnt.toNat = pulsesIn r.valid a t)
    (hover : r.config.lastCount < pulsesIn r.valid a t) (hc : Course r a t) :
    Course r a (t + 1) := by
  have hpulses := pulsesIn_succ r.valid hat.le
  obtain ⟨hzero, hone⟩ := hc.finished hover
  have hquiet : r.cycleEnd t = false := by
    simp [cycleEnd, inactive_of_cycleCnt_zero hzero]
  have hidle := h.cycleCnt_idle hzero (by omega)
  refine ⟨fun hle => by omega, fun _ => ⟨hidle, ?_⟩⟩
  rw [pulsesIn_succ _ hat.le, hone, hquiet]
  rfl

/-- One clock of a cycle. -/
theorem course_succ (h : r.SelfTriggered) {a t : Nat} (hat : a < t)
    (htmp : (r.state t).tmpCnt.toNat = pulsesIn r.valid a t)
    (hc : Course r a t) :
    Course r a (t + 1) := by
  by_cases hover : r.config.lastCount < pulsesIn r.valid a t
  · exact h.course_over hat htmp hover hc
  · by_cases hfirst : pulsesIn r.valid a t = 0
    · exact h.course_waiting hat htmp hfirst hc
    · exact h.course_running hat htmp hfirst (by omega) hc

/-- From its start until `tmp_cnt` runs out every cycle takes the same
course. -/
theorem course (h : r.SelfTriggered) {a e : Nat} (hs : r.Start a)
    (he : ∀ u, a ≤ u → u < e → pulsesIn r.valid a u < 7620)
    {t : Nat} (hat : a < t) (hte : t ≤ e) :
    (r.state t).tmpCnt.toNat = pulsesIn r.valid a t ∧ Course r a t := by
  have hzero := ((h.start_iff a).mp hs).2
  have htmp : ∀ u, a ≤ u → u ≤ e → pulsesIn r.valid a u ≤ 7620 →
      (r.state u).tmpCnt.toNat = pulsesIn r.valid a u := by
    intro u hau hue hle
    rw [h.tmpCnt_counts (a := a) (e := e) (by omega)
      (by rw [hzero]; exact he) hau hue, hzero, Nat.zero_add,
      Nat.mod_eq_of_lt (by omega)]
  have hle : ∀ u, a < u → u ≤ e → pulsesIn r.valid a u ≤ 7620 := by
    intro u hau hue
    obtain ⟨v, rfl⟩ : ∃ v, u = v + 1 := ⟨u - 1, by omega⟩
    have hlt := he v (by omega) (by omega)
    rw [pulsesIn_succ _ (by omega)]
    split_ifs <;> omega
  refine ⟨htmp t hat.le hte (hle t hat hte), ?_⟩
  induction t, hat using Nat.le_induction with
  | base => exact h.course_start hs
  | succ t hat ih =>
      have hat' : a < t := hat
      exact h.course_succ hat'
        (htmp t hat'.le (by omega) (hle t hat' (by omega))) (ih (by omega))

/-- As long as there were fewer than 7620 samples no further cycle starts. -/
theorem not_start (h : r.SelfTriggered) {a t : Nat} (hs : r.Start a)
    (hat : a < t) (hfew : pulsesIn r.valid a t < 7620) :
    ¬ r.Start t := by
  intro ht
  obtain ⟨hzero, htmp⟩ := (h.start_iff t).mp ht
  obtain ⟨hcount, hc⟩ := h.course hs
    (fun u hau hut => lt_of_le_of_lt (pulsesIn_mono _ hau hut.le) hfew)
    hat (le_refl t)
  have hnone : pulsesIn r.valid a t = 0 := by omega
  have hone := (hc.running (by omega)).1
  rw [hnone, hzero] at hone
  exact absurd hone (by simp)

/-- The start after the 7620th sample. -/
theorem next_start (h : r.SelfTriggered) {a n : Nat} (hs : r.Start a)
    (hmany : 7620 ≤ pulsesIn r.valid a n) :
    ∃ b, r.Successive a b ∧ pulsesIn r.valid a b = 7620 ∧
      pulsesIn r.cycleEnd a b = 1 := by
  obtain ⟨u, hau, _, hv, hcount⟩ := exists_pulse r.valid (by decide) hmany
  have hshort := h.short
  have hnext : pulsesIn r.valid a (u + 1) = 7620 := by
    rw [pulsesIn_succ _ hau, hv, if_pos rfl, hcount]
  have hlow : r.valid (u + 1) = false :=
    h.spaced.low_after hv (by decide) (by decide)
  obtain ⟨htmp, hc⟩ := h.course hs (e := u + 1) (t := u + 1)
    (fun v hav hvu => by
      have := pulsesIn_mono r.valid hav (show v ≤ u by omega)
      omega)
    (by omega) (le_refl _)
  obtain ⟨hidle, hone⟩ := hc.finished (by omega)
  rw [hnext] at htmp
  refine ⟨u + 2, ⟨hs, h.start_after_full hidle htmp, by omega,
    fun v hav hvu => ?_⟩, ?_, ?_⟩
  · by_cases hvu' : v ≤ u
    · refine h.not_start hs hav ?_
      have := pulsesIn_mono r.valid hav.le hvu'
      omega
    · obtain rfl : v = u + 1 := by omega
      rw [h.start_iff]
      omega
  · rw [pulsesIn_succ _ (by omega), hnext, hlow]
    rfl
  · rw [pulsesIn_succ _ (by omega), hone]
    simp [cycleEnd, inactive_of_cycleCnt_zero hidle]

/-- **The period of the test mode.** Successive cycle starts are 7620 samples
apart, whatever the spacing of the samples, and one cycle is completed between
them. -/
theorem successive_starts (h : r.SelfTriggered) {a b : Nat}
    (hab : r.Successive a b) :
    pulsesIn r.valid a b = 7620 ∧ pulsesIn r.cycleEnd a b = 1 := by
  have hmany : 7620 ≤ pulsesIn r.valid a b := by
    by_contra hfew
    exact h.not_start hab.first hab.lt (by omega) hab.second
  obtain ⟨b', hab', hcount, hone⟩ := h.next_start hab.first hmany
  obtain hlt | rfl | hgt := Nat.lt_trichotomy b b'
  · exact absurd hab.second (hab'.none b hab.lt hlt)
  · exact ⟨hcount, hone⟩
  · exact absurd hab'.second (hab.none b' hab'.lt hgt)

/-! ## The first cycle -/

/-- While `tmp_cnt` has not been zero there is no cycle. -/
theorem cycleCnt_waiting (h : r.SelfTriggered) {t : Nat}
    (hne : ∀ u, u < t → (r.state u).tmpCnt.toNat ≠ 0) :
    (r.state t).cycleCnt = 0 := by
  induction t with
  | zero => rfl
  | succ t ih =>
      exact h.cycleCnt_idle (ih (fun u hu => hne u (by omega)))
        (hne t (by omega))

theorem lead_le_of_start (h : r.SelfTriggered) {t : Nat} (ht : r.Start t) :
    lead r ≤ pulsesIn r.valid 0 t := by
  have htmp := ((h.start_iff t).mp ht).2
  unfold lead
  simp only
  split_ifs with hzero hfull hv
  · omega
  · -- the sample of clock 0 is lost
    by_contra hnone
    have hlow := (pulsesIn_eq_zero_iff r.valid 0 t).mp (by omega)
    have hpos : 0 < t := by
      by_contra h0
      obtain rfl : t = 0 := by omega
      omega
    rw [hlow 0 (le_refl 0) hpos] at hv
    exact absurd hv (by simp)
  · omega
  · by_contra hfew
    have hcount := h.tmpCnt_counts (a := 0) (e := t) hfull
      (fun u h0u hut => by
        have := pulsesIn_mono r.valid h0u hut.le
        omega)
      (Nat.zero_le t) (le_refl t)
    have hlt := (r.state 0).tmpCnt.isLt
    unfold toGo at hfew
    rw [htmp] at hcount
    split_ifs at hfew <;> omega

/-- A counter that has neither value after reset runs on to the first of them. -/
theorem tmpCnt_runs_out (h : r.SelfTriggered)
    (hzero : (r.state 0).tmpCnt.toNat ≠ 0)
    (hfull : (r.state 0).tmpCnt.toNat ≠ 7620) {u : Nat} (hv : r.valid u = true)
    (hcount : pulsesIn r.valid 0 u + 1 = toGo (r.state 0).tmpCnt.toNat) :
    (r.state (u + 1)).cycleCnt = 0 ∧
      (r.state (u + 1)).tmpCnt.toNat =
        if (r.state 0).tmpCnt.toNat < 7620 then 7620 else 0 := by
  have hlt := (r.state 0).tmpCnt.isLt
  have htmp : ∀ t, t ≤ u + 1 → (r.state t).tmpCnt.toNat =
      ((r.state 0).tmpCnt.toNat + pulsesIn r.valid 0 t) % 65536 := by
    intro t ht
    refine h.tmpCnt_counts (e := u + 1) hfull (fun v h0v hvu => ?_)
      (Nat.zero_le t) ht
    have := pulsesIn_mono r.valid h0v (show v ≤ u by omega)
    omega
  constructor
  · refine h.cycleCnt_waiting (fun t ht => ?_)
    have hle := pulsesIn_mono r.valid (Nat.zero_le t) (show t ≤ u by omega)
    rw [htmp t (by omega)]
    unfold toGo at hcount
    split_ifs at hcount <;> omega
  · rw [htmp (u + 1) (le_refl _), pulsesIn_succ _ (Nat.zero_le u), hv,
      if_pos rfl, hcount]
    unfold toGo
    split_ifs <;> omega

theorem exists_first_start (h : r.SelfTriggered) {n : Nat}
    (hmany : lead r < pulsesIn r.valid 0 n) :
    ∃ a, r.Start a ∧ pulsesIn r.valid 0 a = lead r := by
  have hone := pulsesIn_succ r.valid (le_refl 0)
  unfold lead at hmany ⊢
  simp only at hmany ⊢
  split_ifs at hmany ⊢ with hzero hfull hv
  · exact ⟨0, (h.start_iff 0).mpr ⟨rfl, hzero⟩, pulsesIn_self _ _⟩
  · exact ⟨1, h.start_after_full rfl hfull, by rw [hone, hv]; simp⟩
  · exact ⟨1, h.start_after_full rfl hfull, by rw [hone, if_neg hv]; simp⟩
  · have hlt := (r.state 0).tmpCnt.isLt
    have hpos : 0 < toGo (r.state 0).tmpCnt.toNat := by
      unfold toGo
      split_ifs <;> omega
    obtain ⟨u, _, _, hv, hcount⟩ := exists_pulse r.valid hpos hmany.le
    obtain ⟨hidle, hend⟩ := h.tmpCnt_runs_out hzero hfull hv hcount
    have hnext : pulsesIn r.valid 0 (u + 1) =
        toGo (r.state 0).tmpCnt.toNat := by
      rw [pulsesIn_succ _ (Nat.zero_le u), hv, if_pos rfl, hcount]
    split_ifs at hend
    · -- the constant is reached, and the counter cleared one clock later
      have hlow : r.valid (u + 1) = false :=
        h.spaced.low_after hv (by decide) (by decide)
      refine ⟨u + 2, h.start_after_full hidle hend, ?_⟩
      rw [pulsesIn_succ _ (Nat.zero_le _), hnext, hlow]
      rfl
    · exact ⟨u + 1, (h.start_iff _).mpr ⟨hidle, hend⟩, hnext⟩

/-- A second cycle starts after 7620 samples of the first one. -/
theorem exists_successive (h : r.SelfTriggered) {n : Nat}
    (hmany : lead r + 7620 ≤ pulsesIn r.valid 0 n) :
    ∃ a b, r.Successive a b := by
  obtain ⟨a, ha, hlead⟩ := h.exists_first_start (n := n) (by omega)
  have han : a ≤ n := by
    by_contra hlt
    have := pulsesIn_mono r.valid (Nat.zero_le n) (show n ≤ a by omega)
    omega
  have hsplit := pulsesIn_add r.valid (Nat.zero_le a) han
  obtain ⟨b, hab, _⟩ := h.next_start (n := n) ha (by omega)
  exact ⟨a, b, hab⟩

end SelfTriggered

/-- Every two successive cycle starts are 7500 samples apart, and one cycle
runs to its end between them. -/
def Periodic (r : Run) : Prop :=
  ∀ a b, r.Successive a b →
    pulsesIn r.valid a b = 7500 ∧ pulsesIn r.cycleEnd a b = 1

/-- The test mode keeps the period it is written for only as long as no second
cycle starts. -/
theorem periodic_iff (h : r.SelfTriggered) :
    r.Periodic ↔ ∀ t, pulsesIn r.valid 0 t < lead r + 7620 := by
  constructor
  · intro hper t
    by_contra hmany
    obtain ⟨a, b, hab⟩ := h.exists_successive (n := t) (by omega)
    have hwrong := (hper a b hab).1
    rw [(h.successive_starts hab).1] at hwrong
    exact absurd hwrong (by decide)
  · intro hfew a b hab
    have hlead := h.lead_le_of_start hab.first
    have hcount := (h.successive_starts hab).1
    have hsplit := pulsesIn_add r.valid (Nat.zero_le a) hab.lt.le
    have := hfew b
    omega

/-- The fixed configuration in test mode, with a sample in every second
clock. -/
def everySecond : Run :=
  { config := fixedConfig
    before := ⟨0, 0, 0, 0⟩
    resetInput := ⟨false, false, false⟩
    input := fun t => ⟨false, decide (t % 2 = 0), true⟩ }

theorem everySecond_selfTriggered : everySecond.SelfTriggered := by
  refine ⟨fun _ => rfl, fun _ => rfl, fun t u htu ht hu => ?_, by decide,
    by decide, by decide, by decide⟩
  have ht' : t % 2 = 0 := of_decide_eq_true ht
  have hu' : u % 2 = 0 := of_decide_eq_true hu
  omega

theorem everySecond_pulses (n : Nat) :
    pulsesIn everySecond.valid 0 (2 * n) = n := by
  induction n with
  | zero => rfl
  | succ n ih =>
      have heven : everySecond.valid (2 * n) = true :=
        decide_eq_true (by omega)
      have hodd : everySecond.valid (2 * n + 1) = false :=
        decide_eq_false (by omega)
      rw [show 2 * (n + 1) = 2 * n + 1 + 1 by omega,
        pulsesIn_succ _ (by omega), pulsesIn_succ _ (by omega), ih, heven,
        hodd]
      rfl

theorem periodic_iff_everySecond :
    everySecond.Periodic ↔
      ∀ t, pulsesIn everySecond.valid 0 t < lead everySecond + 7620 :=
  periodic_iff everySecond_selfTriggered

theorem not_periodic_everySecond :
    everySecond.SelfTriggered ∧ ¬ everySecond.Periodic := by
  refine ⟨everySecond_selfTriggered, fun hper => ?_⟩
  obtain ⟨a, b, hab⟩ := everySecond_selfTriggered.exists_successive
    (n := 2 * 7620) (by rw [everySecond_pulses]; decide)
  have hwrong := (hper a b hab).1
  rw [(everySecond_selfTriggered.successive_starts hab).1] at hwrong
  exact absurd hwrong (by decide)

end Run

end CaptureControl
end MollerFirmware
