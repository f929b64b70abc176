import MollerFirmware.Clocked.Delays
import MollerFirmware.Clocked.Windows

/-!
# ltc2387_deserializer: conversions

The part of the deserializer in the domain of `clk_cnv`. `cnv_count` spaces the
conversions, `read_shift` delays each by `READ_START` clocks, `in_ts_captured`
holds its time stamp until then, and `dco_count` makes the burst of clock
pulses that reads the sample out.

The instances run at `CLOCK_PERIOD = 4`. The two counters and the shift
register follow the rules of `Clocked.Delays` as long as the time stamp buffer
is not busy.
-/

namespace MollerFirmware
namespace Ltc2387
namespace Conversion

open Clocked

/-- `CLOCK_PERIOD` in nanoseconds -/
abbrev clockPeriod : Nat :=
  4

/-- `DCO_CLOCK_COUNT`, twice to account for rise and fall edges -/
abbrev dcoClockCount : Nat :=
  5 * 2

/-- `READ_START`: `$ceil` of an integer quotient -/
abbrev readStart : Nat :=
  65 / clockPeriod

/-- `READ_DELAY` -/
def readDelay : Int :=
  5 * (clockPeriod * 2) - 49

/-- `READ_DELAY_CORRECTION` -/
def readDelayCorrection : Nat :=
  if 0 < readDelay then readDelay.toNat / clockPeriod else 0

/-- `CONV_WAIT`: the quotient of 66.67 is rounded up. -/
def convWait : Nat :=
  (6667 + (100 * clockPeriod - 1)) / (100 * clockPeriod) + readDelayCorrection

example : readStart = 16 ∧ convWait = 17 := by decide

/-- Registers of the domain. -/
structure State where
  ready : Bool
  cnvCount : BitVec 8
  dcoCount : BitVec 4
  readShift : BitVec readStart
  inTsCaptured : BitVec 64
  convWaitTime : BitVec 8
  adcCnv : Bool
  adcClk : Bool

/-- Inputs in one clock; `wrBusy` comes from the time stamp buffer. -/
structure Input where
  start : Bool
  inTs : BitVec 64
  sampleRate : BitVec 8
  wrBusy : Bool

/-- `ready_to_convert` -/
def readyToConvert (s : State) : Bool :=
  decide (s.cnvCount = 0)

/-- `converting` -/
def converting (s : State) (i : Input) : Bool :=
  readyToConvert s && i.start

/-- `wr_ena` -/
def wrEna (s : State) : Bool :=
  s.readShift.getLsbD 0

/-- Next value of `dco_count`. -/
def dcoNext (s : State) : BitVec 4 :=
  if wrEna s then BitVec.ofNat 4 (dcoClockCount - 1)
  else if s.dcoCount ≠ 0 then s.dcoCount - 1
  else 0

/-- The conversion registers under `rst` or `wr_busy`. -/
def hold (s : State) : State :=
  { s with
    ready := false
    cnvCount := 0
    readShift := 0
    adcCnv := false
    inTsCaptured := 0
    convWaitTime := 0 }

/-- The conversion registers otherwise. -/
def convert (s : State) (i : Input) : State :=
  { s with
    convWaitTime :=
      if i.sampleRate < BitVec.ofNat 8 convWait then BitVec.ofNat 8 convWait
      else i.sampleRate
    ready := readyToConvert s
    cnvCount :=
      if readyToConvert s then
        if i.start then s.convWaitTime - 1 else 0
      else s.cnvCount - 1
    readShift :=
      BitVec.ofBool (readyToConvert s && i.start) ++
        s.readShift.extractLsb' 1 (readStart - 1)
    adcCnv := converting s i
    inTsCaptured := if converting s i then i.inTs else s.inTsCaptured }

/-- A clock edge with `rst` low. -/
def step (s : State) (i : Input) : State :=
  { (if i.wrBusy then hold s else convert s i) with
    adcClk := s.dcoCount.getLsbD 0
    dcoCount := dcoNext s }

/-- A clock edge with `rst` high. -/
def reset (s : State) : State :=
  { hold s with
    dcoCount := 0
    adcClk := false }

/-- A run after reset. -/
structure Run where
  before : State
  resetInput : Input
  input : Nat → Input

namespace Run

variable (r : Run)

/-- Registers before clock edge `t`. -/
def state (t : Nat) : State :=
  run step (reset r.before) r.input t

/-- `converting` -/
def conv (t : Nat) : Bool :=
  converting (r.state t) (r.input t)

/-- `wr_ena` -/
def wrEna (t : Nat) : Bool :=
  Conversion.wrEna (r.state t)

/-- `adc_clk` -/
def adcClk (t : Nat) : Bool :=
  (r.state t).adcClk

/-- `sample_rate` in the clock before clock `t`. -/
def rateBefore : Nat → Nat
  | 0 => r.resetInput.sampleRate.toNat
  | t + 1 => (r.input t).sampleRate.toNat

/-- The time stamp buffer is not busy before clock `T`. -/
def Ready (T : Nat) : Prop :=
  ∀ t, t < T → (r.input t).wrBusy = false

variable {r} {T : Nat}

theorem state_succ (t : Nat) :
    r.state (t + 1) = step (r.state t) (r.input t) := by
  rfl

/-- Without a busy buffer the conversion registers work. -/
theorem Ready.state_succ (h : r.Ready T) {t : Nat} (hT : t < T) :
    r.state (t + 1) =
      { convert (r.state t) (r.input t) with
        adcClk := (r.state t).dcoCount.getLsbD 0
        dcoCount := dcoNext (r.state t) } := by
  rw [Run.state_succ]
  unfold step
  rw [h t hT]
  rfl

/-! ## The counters and the shift register -/

/-- `cnv_count` is loaded by a conversion. -/
theorem cnvCount_countsDown (h : r.Ready T) :
    CountsDown T (fun t => (r.state t).cnvCount.toNat)
      (fun t => ((r.state t).convWaitTime - 1).toNat) r.conv := by
  intro t hT
  have hnext : (r.state (t + 1)).cnvCount =
      if readyToConvert (r.state t) then
        if (r.input t).start then (r.state t).convWaitTime - 1 else 0
      else (r.state t).cnvCount - 1 := by
    rw [h.state_succ hT]
    rfl
  have hconv : r.conv t =
      (readyToConvert (r.state t) && (r.input t).start) := rfl
  simp only [hnext, hconv]
  cases hready : readyToConvert (r.state t) with
  | true =>
      have hzero : (r.state t).cnvCount = 0 := of_decide_eq_true hready
      rw [hzero]
      cases (r.input t).start <;> simp
  | false =>
      have hne : (r.state t).cnvCount ≠ 0 := of_decide_eq_false hready
      simpa using toNat_pred hne

theorem cnvCount_of_conv {t : Nat} (hconv : r.conv t = true) :
    (r.state t).cnvCount.toNat = 0 := by
  unfold conv converting at hconv
  rw [Bool.and_eq_true] at hconv
  have hzero : (r.state t).cnvCount = 0 := of_decide_eq_true hconv.1
  rw [hzero]
  rfl

/-- The wait after a conversion is long enough for the read-out and for the
sample rate. -/
theorem rateBefore_le_wait (h : r.Ready T) {t : Nat} (hT : t ≤ T) :
    max 17 (r.rateBefore t) ≤ ((r.state t).convWaitTime - 1).toNat + 1 := by
  cases t with
  | zero =>
      -- after reset the register is zero and the counter takes a full turn
      have hwait : ((r.state 0).convWaitTime - 1).toNat = 255 := by
        rfl
      have hrate := r.resetInput.sampleRate.isLt
      rw [hwait]
      show max 17 r.resetInput.sampleRate.toNat ≤ 255 + 1
      omega
  | succ t =>
      have hnext : (r.state (t + 1)).convWaitTime =
          if (r.input t).sampleRate < 17 then 17 else (r.input t).sampleRate := by
        rw [h.state_succ (by omega)]
        rfl
      have hge : 17 ≤ (r.state (t + 1)).convWaitTime.toNat ∧
          (r.input t).sampleRate.toNat ≤
            (r.state (t + 1)).convWaitTime.toNat := by
        rw [hnext]
        split_ifs with hlow
        · rw [BitVec.lt_def] at hlow
          exact ⟨le_refl _, Nat.le_of_lt hlow⟩
        · rw [BitVec.lt_def] at hlow
          exact ⟨Nat.le_of_not_lt hlow, le_refl _⟩
      have hne : (r.state (t + 1)).convWaitTime ≠ 0 := by
        intro hzero
        rw [hzero] at hge
        exact absurd hge.1 (by decide)
      rw [toNat_pred hne]
      show max 17 (r.input t).sampleRate.toNat ≤ _
      omega

/-- Conversions are as far apart as the sample rate asks for. -/
theorem conv_spaced (h : r.Ready T) {t u : Nat} (htu : t < u) (hT : u ≤ T)
    (ht : r.conv t = true) (hu : r.conv u = true) :
    t + max 17 (r.rateBefore t) ≤ u := by
  have hnext := (cnvCount_countsDown h).next_load
    (fun _ hconv => cnvCount_of_conv hconv) htu hT ht hu
  have hwait := rateBefore_le_wait h (t := t) (by omega)
  omega

/-- Conversions are shifted into the highest bit of `read_shift`. -/
theorem readShift_shiftsIn (h : r.Ready T) :
    ShiftsIn 16 1 T (fun t b => (r.state t).readShift.getLsbD (15 - b))
      (fun t _ => r.conv t) := by
  intro t hT b hb
  have hnext : (r.state (t + 1)).readShift =
      BitVec.ofBool (r.conv t) ++ (r.state t).readShift.extractLsb' 1 15 := by
    rw [h.state_succ hT]
    rfl
  simp only [hnext]
  rw [BitVec.getLsbD_append]
  by_cases hnew : b < 1
  · obtain rfl : b = 0 := by omega
    simp
  · rw [if_pos (by omega), if_neg hnew, BitVec.getLsbD_extractLsb',
      show 1 + (15 - b) = 15 - (b - 1) by omega]
    simp
    omega

/-- A conversion enables one write, sixteen clocks later. -/
theorem wrEna_iff (h : r.Ready T) {v : Nat} (hT : v ≤ T) :
    r.wrEna v = true ↔ ∃ t, v = t + 16 ∧ r.conv t = true := by
  have hshift := readShift_shiftsIn h
  rcases Nat.lt_or_ge v 16 with hearly | hlate
  · have hinit := hshift.read_initial (t := v) (b := 15 - v) (by omega) hT
    rw [show 15 - v + 1 * v = 15 by omega] at hinit
    have hlow : r.wrEna v = false := by
      have hzero : (r.state 0).readShift = 0 := rfl
      rw [hzero] at hinit
      simpa [wrEna, Conversion.wrEna] using hinit
    rw [hlow]
    constructor
    · intro hhigh
      exact absurd hhigh (by simp)
    · rintro ⟨t, rfl, _⟩
      omega
  · obtain ⟨t, rfl⟩ : ∃ t, v = t + 16 := ⟨v - 16, by omega⟩
    have hread := hshift.read (t := t) (j := 15) (b := 0)
      (by omega) (by omega) (by omega)
    have hbit : r.wrEna (t + 16) = r.conv t := hread
    rw [hbit]
    constructor
    · intro hconv
      exact ⟨t, rfl, hconv⟩
    · rintro ⟨t', heq, hconv⟩
      rwa [show t = t' by omega]

/-- No conversion comes while the time stamp is needed. -/
theorem conv_low_after (h : r.Ready T) {t u : Nat}
    (ht : r.conv t = true) (htu : t < u) (hu : u < t + 17) (hT : u ≤ T) :
    r.conv u = false := by
  by_contra hconv
  have hspaced := conv_spaced h htu hT ht (by simpa using hconv)
  omega

/-- The time stamp of a conversion is held until its write. -/
theorem inTsCaptured_held (h : r.Ready T) {t k : Nat}
    (ht : r.conv t = true) (hk : k < 16) (hT : t + k < T) :
    (r.state (t + 1 + k)).inTsCaptured = (r.input t).inTs := by
  have hnext : ∀ u, u < T → (r.state (u + 1)).inTsCaptured =
      if r.conv u then (r.input u).inTs else (r.state u).inTsCaptured := by
    intro u hu
    rw [h.state_succ hu]
    rfl
  induction k with
  | zero =>
      rw [Nat.add_zero, hnext t (by omega), if_pos ht]
  | succ k ih =>
      have hlow := conv_low_after h ht (u := t + 1 + k) (by omega) (by omega)
        (by omega)
      rw [← Nat.add_assoc, hnext _ (by omega), if_neg (by simp [hlow])]
      exact ih (by omega) (by omega)

/-! ## The clock bursts -/

/-- `dco_count` is loaded by a write. -/
theorem dcoCount_countsDown (r : Run) (T : Nat) :
    CountsDown T (fun t => (r.state t).dcoCount.toNat) (fun _ => 9)
      r.wrEna := by
  intro t _
  have hnext : (r.state (t + 1)).dcoCount = dcoNext (r.state t) := by
    rw [Run.state_succ]
    rfl
  have hwr : r.wrEna t = Conversion.wrEna (r.state t) := rfl
  simp only [hnext, hwr]
  unfold dcoNext
  cases Conversion.wrEna (r.state t) with
  | true => rfl
  | false =>
      by_cases hzero : (r.state t).dcoCount = 0
      · simp [hzero]
      · simp only [Bool.false_eq_true, if_false]
        rw [if_pos hzero]
        exact toNat_pred hzero

/-- Writes are as far apart as conversions. -/
theorem wrEna_low_after (h : r.Ready T) {w u : Nat}
    (hw : r.wrEna w = true) (hwu : w < u) (hu : u < w + 17) (hT : u ≤ T) :
    r.wrEna u = false := by
  by_contra hhigh
  obtain ⟨t, rfl, ht⟩ := (wrEna_iff h (by omega)).mp hw
  obtain ⟨t', rfl, ht'⟩ := (wrEna_iff h hT).mp (by simpa using hhigh)
  rw [conv_low_after h ht (by omega) (by omega) (by omega)] at ht'
  exact absurd ht' (by simp)

theorem adcClk_succ (t : Nat) :
    r.adcClk (t + 1) = decide ((r.state t).dcoCount.toNat % 2 = 1) := by
  have hnext : r.adcClk (t + 1) = (r.state t).dcoCount.getLsbD 0 := by
    unfold adcClk
    rw [Run.state_succ]
    rfl
  rw [hnext]
  exact Nat.testBit_zero _

/-- The clock pulses are those of the bursts: five for each conversion, two
clocks apart. -/
theorem adcClk_iff (h : r.Ready T) {v : Nat} (hT : v ≤ T) :
    r.adcClk v = true ↔
      ∃ t j, r.conv t = true ∧ j < 5 ∧ v = t + 18 + 2 * j := by
  have hdown := dcoCount_countsDown r T
  cases v with
  | zero =>
      have hlow : r.adcClk 0 = false := rfl
      rw [hlow]
      constructor
      · intro hhigh
        exact absurd hhigh (by simp)
      · rintro ⟨t, j, _, _, heq⟩
        omega
  | succ v =>
      rw [adcClk_succ, decide_eq_true_eq]
      constructor
      · intro hodd
        obtain ⟨w, hwv, hw, hcount⟩ :=
          hdown.load_of_pos rfl (u := v) (by omega) (by omega)
        obtain ⟨t, rfl, ht⟩ := (wrEna_iff h (by omega)).mp hw
        exact ⟨t, (v - t - 17) / 2, ht, by omega, by omega⟩
      · rintro ⟨t, j, ht, hj, heq⟩
        have hw : r.wrEna (t + 16) = true :=
          (wrEna_iff h (by omega)).mpr ⟨t, rfl, ht⟩
        have hcount := hdown.after_load hw (k := 2 * j) (by omega)
          (fun u hwu hu => wrEna_low_after h hw hwu (by omega) (by omega))
        rw [show t + 16 + 1 + 2 * j = v by omega] at hcount
        omega

/-- In the seventeen clocks after a write the clock has the five pulses of the
burst and no others. -/
theorem adcClk_burst (h : r.Ready T) {t k : Nat} (ht : r.conv t = true)
    (hk : k < 17) (hT : t + 17 + k ≤ T) :
    r.adcClk (t + 17 + k) = decide (k % 2 = 1 ∧ k < 10) := by
  rw [Bool.eq_iff_iff, adcClk_iff h hT, decide_eq_true_eq]
  constructor
  · rintro ⟨u, j, hu, hj, heq⟩
    rcases Nat.lt_trichotomy u t with hlt | rfl | hgt
    · have hspaced := conv_spaced h hlt (by omega) hu ht
      omega
    · omega
    · have hspaced := conv_spaced h hgt (by omega) ht hu
      omega
  · rintro ⟨hodd, hlt⟩
    exact ⟨t, k / 2, ht, by omega, by omega⟩

theorem pulsesIn_burst (h : r.Ready T) {t : Nat} (ht : r.conv t = true)
    (hT : t + 33 ≤ T) :
    pulsesIn r.adcClk (t + 17) (t + 34) = 5 := by
  unfold pulsesIn
  rw [Finset.sum_Ico_eq_sum_range, show t + 34 - (t + 17) = 17 by omega]
  calc
    ∑ k ∈ Finset.range 17, (if r.adcClk (t + 17 + k) then 1 else 0)
        = ∑ k ∈ Finset.range 17,
            if decide (k % 2 = 1 ∧ k < 10) then 1 else 0 := by
          refine Finset.sum_congr rfl (fun k hk => ?_)
          have hk' := Finset.mem_range.mp hk
          rw [adcClk_burst h ht hk' (by omega)]
    _ = 5 := by decide

/-- What the sequencing of conversions guarantees up to clock `T`. -/
structure Sequenced (r : Run) (T : Nat) : Prop where
  spaced : ∀ t u, t < u → u ≤ T → r.conv t = true → r.conv u = true →
    t + max 17 (r.rateBefore t) ≤ u
  write : ∀ v, v ≤ T →
    (r.wrEna v = true ↔ ∃ t, v = t + 16 ∧ r.conv t = true)
  timestamp : ∀ t, t + 16 ≤ T → r.conv t = true →
    (r.state (t + 16)).inTsCaptured = (r.input t).inTs
  clock : ∀ v, v ≤ T →
    (r.adcClk v = true ↔
      ∃ t j, r.conv t = true ∧ j < 5 ∧ v = t + 18 + 2 * j)
  five : ∀ t, t + 33 ≤ T → r.conv t = true →
    pulsesIn r.adcClk (t + 17) (t + 34) = 5
  disjoint : ∀ t u, t < u → u ≤ T → r.conv t = true → r.conv u = true →
    ∀ i j, i < 5 → j < 5 → t + 18 + 2 * i < u + 18 + 2 * j

/-- **Time stamp, read-out and conversion stay together**, for as long as the
time stamp buffer is not busy. -/
theorem conversions_sequenced (r : Run) (T : Nat) (h : r.Ready T) :
    Sequenced r T := by
  refine ⟨fun t u htu hT ht hu => conv_spaced h htu hT ht hu,
    fun v hT => wrEna_iff h hT, fun t hT ht => ?_,
    fun v hT => adcClk_iff h hT, fun t hT ht => pulsesIn_burst h ht hT,
    fun t u htu hT ht hu i j hi hj => ?_⟩
  · have hheld := inTsCaptured_held h ht (k := 15) (by omega) (by omega)
    rwa [show t + 1 + 15 = t + 16 by omega] at hheld
  · have hspaced := conv_spaced h htu hT ht hu
    omega

/-- Conversions from clock 1 on, as fast as possible. -/
def continuous : Run :=
  { before := ⟨false, 0, 0, 0, 0, 0, false, false⟩
    resetInput := ⟨false, 0, 0, true⟩
    input := fun t => ⟨decide (t ≠ 0), BitVec.ofNat 64 (100 + t), 0, false⟩ }

/-- The second conversion is started in clock 18; its time stamp is written
in clock 34, after the burst of the first one. -/
theorem conversions_sequenced_continuous :
    (continuous.state 34).inTsCaptured = 118 ∧
      pulsesIn continuous.adcClk 18 35 = 5 := by
  have hall := conversions_sequenced continuous 40 (fun _ _ => rfl)
  exact ⟨hall.timestamp 18 (by omega) (by decide +kernel),
    hall.five 1 (by omega) (by decide +kernel)⟩

end Run
end Conversion
end Ltc2387
end MollerFirmware
