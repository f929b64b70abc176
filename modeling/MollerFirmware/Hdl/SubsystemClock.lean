import MollerFirmware.Clocked.Filters
import MollerFirmware.Hdl.UwireDuration
import MollerFirmware.Hdl.UwireTiming

/-!
# subsystem_clock: start of the clocks

After power-up the oscillator runs the programming of the clock chip: first
`rst_osc` for a second, then the words, then, after a filter on `done`, the MMCM
leaves its reset. The MMCM makes the two clocks of the ADC side. Each of these
has its own reset, which follows `locked` and a filter on `soc_ready`.

No register of the oscillator's domain has a reset, and the two filters have no
initial value. The power-up values of the others are those of the source.
-/

namespace MollerFirmware
namespace SubsystemClock

open Clocked Uwire

/-- `NUM_UWIRE_DATA_WORDS` -/
abbrev numUwireDataWords : Nat :=
  26

/-- The words of `uwire_cfg_data` as they are written down. -/
def uwireCfgWords (clkin0Prediv : BitVec 2) : List (BitVec 32) :=
  [ 0x00160140, 0x00140140, 0x00140281, 0x00140202, 0x00140283, 0x00140144,
    0x00140285, 0x11110006, 0x01110007, 0x01010008, 0x55555549, 0x1142490A,
    0x1403000B, 0x1B8C01AC, 0x230086ED, 0x1000000E, 0x8000800F, 0xC1550410,
    0x000000D8, 0x02C9C419, 0xAFA8001A,
    0x1D#8 ++ 0b10#2 ++ clkin0Prediv ++ 0x0065B#20,
    0x0040191C, 0x0180015D, 0x0500015E, 0x001F001F ]

/-- `uwire_cfg_data[i]`: the first of the words has the highest index. -/
def uwireCfgData (clkin0Prediv : BitVec 2) (i : Fin numUwireDataWords) :
    BitVec 32 :=
  (uwireCfgWords clkin0Prediv).getD (numUwireDataWords - 1 - i) 0

/-- Clocks for which `rst_osc` is held. -/
@[irreducible] def resetClocks : Nat :=
  125000000

theorem resetClocks_eq : resetClocks = 125000000 := by
  rw [resetClocks]

/-! ## The domain of clk_osc -/

/-- Registers of the domain; the parameter `CLK_PERIOD` of the serializer is
`FREQ_OSCILLATOR`. -/
structure OscState where
  rstOsc : Bool
  rstMmcm : Bool
  rCcLockedSync : BitVec 16
  rCcLocked : Bool
  rstOscDelay : BitVec 32
  uwire : Uwire.State freqOscillator numUwireDataWords

/-- `uwire_done` -/
def OscState.uwireDone (s : OscState) : Bool :=
  s.uwire.loader.done

/-- A clock edge of `clk_osc`. -/
def oscStep (s : OscState) (clkin0Prediv : BitVec 2) : OscState :=
  { rCcLockedSync := shiftLevel (w := 15) s.rCcLockedSync s.uwireDone
    rCcLocked := decide (s.rCcLockedSync = BitVec.allOnes 16)
    rstOscDelay :=
      if s.rstOscDelay < 125000000 then s.rstOscDelay + 1 else s.rstOscDelay
    rstOsc := decide (s.rstOscDelay < 125000000)
    rstMmcm := !s.rCcLocked
    uwire :=
      if s.rstOsc then Uwire.reset s.uwire
      else Uwire.step s.uwire (uwireCfgData clkin0Prediv) }

/-- A run from power-up with constant switches. -/
structure OscRun where
  before : OscState
  clkin0Prediv : BitVec 2
  rstOsc : before.rstOsc = true
  rstOscDelay : before.rstOscDelay = 0

namespace OscRun

variable (r : OscRun)

/-- Registers before clock edge `t`. -/
def state (t : Nat) : OscState :=
  run oscStep r.before (fun _ => r.clkin0Prediv) t

/-- `uwire_done` -/
def done (t : Nat) : Bool :=
  (r.state t).uwireDone

/-- `rst_mmcm` -/
def rstMmcm (t : Nat) : Bool :=
  (r.state t).rstMmcm

/-- What the chip has seen on its lines. -/
def receiver (x : BitVec 32) (t : Nat) : Receiver :=
  observe oscStep
    (fun g s d => receive g s.uwire.chip (oscStep s d).uwire.chip)
    r.before ⟨x, 0, []⟩ (fun _ => r.clkin0Prediv) t

theorem state_succ (t : Nat) :
    r.state (t + 1) = oscStep (r.state t) r.clkin0Prediv := by
  rfl

/-! ## The reset of the oscillator -/

theorem rstOscDelay_toNat (t : Nat) :
    (r.state t).rstOscDelay.toNat = min t resetClocks := by
  induction t with
  | zero =>
      show r.before.rstOscDelay.toNat = _
      rw [r.rstOscDelay]
      rfl
  | succ t ih =>
      have hnext : (r.state (t + 1)).rstOscDelay =
          if (r.state t).rstOscDelay < 125000000 then
            (r.state t).rstOscDelay + 1
          else (r.state t).rstOscDelay := by
        rfl
      have hbound := resetClocks_eq
      rw [hnext]
      split_ifs with hlow <;> rw [BitVec.lt_def] at hlow
      · have hlow' : (r.state t).rstOscDelay.toNat < 125000000 := hlow
        rw [toNat_succ_of_lt (by omega)]
        omega
      · have hlow' : ¬ (r.state t).rstOscDelay.toNat < 125000000 := hlow
        omega

theorem rstOsc_eq (t : Nat) :
    (r.state t).rstOsc = decide (t ≤ resetClocks) := by
  cases t with
  | zero => exact r.rstOsc
  | succ t =>
      have hnext : (r.state (t + 1)).rstOsc =
          decide ((r.state t).rstOscDelay.toNat < 125000000) := by
        rfl
      have hbound := resetClocks_eq
      rw [hnext, rstOscDelay_toNat, decide_eq_decide]
      omega

/-! ## The programming -/

theorem uwire_succ (t : Nat) :
    (r.state (t + 1)).uwire =
      if t ≤ resetClocks then Uwire.reset (r.state t).uwire
      else Uwire.step (r.state t).uwire (uwireCfgData r.clkin0Prediv) := by
  have hnext : (r.state (t + 1)).uwire =
      if (r.state t).rstOsc then Uwire.reset (r.state t).uwire
      else Uwire.step (r.state t).uwire (uwireCfgData r.clkin0Prediv) := by
    rfl
  rw [hnext, rstOsc_eq]
  simp only [decide_eq_true_eq]

theorem receiver_succ (x : BitVec 32) (t : Nat) :
    r.receiver x (t + 1) =
      receive (r.receiver x t) (r.state t).uwire.chip
        (r.state (t + 1)).uwire.chip := by
  rfl

/-- The run of the two modules when the reset is over. -/
def program : Uwire.Run freqOscillator numUwireDataWords :=
  { before := (r.state resetClocks).uwire
    words := uwireCfgData r.clkin0Prediv }

theorem uwire_program (t : Nat) :
    (r.state (resetClocks + 1 + t)).uwire = r.program.state t := by
  induction t with
  | zero =>
      rw [Nat.add_zero, uwire_succ, if_pos le_rfl]
      rfl
  | succ t ih =>
      rw [← Nat.add_assoc, uwire_succ, if_neg (by omega), ih]
      rfl

theorem done_of_reset {t : Nat} (ht : t ≤ resetClocks) :
    r.done (t + 1) = false := by
  rw [done, OscState.uwireDone, uwire_succ, if_pos ht]
  rfl

theorem done_program (t : Nat) :
    r.done (resetClocks + 1 + t) = r.program.done t := by
  rw [done, OscState.uwireDone, uwire_program]
  rfl

theorem lines_of_reset {t : Nat} (ht : t ≤ resetClocks) :
    (r.state (t + 1)).uwire.chip.clkUWire = false ∧
      (r.state (t + 1)).uwire.chip.leUWire = false ∧
      (r.state (t + 1)).uwire.chip.dataUWire = false := by
  rw [uwire_succ, if_pos ht]
  exact ⟨rfl, rfl, rfl⟩

/-- The chip sees nothing during the reset. -/
theorem receiver_of_reset (x : BitVec 32) {t : Nat} (ht : t ≤ resetClocks + 1) :
    r.receiver x t = ⟨x, 0, []⟩ := by
  induction t with
  | zero => rfl
  | succ t ih =>
      rw [receiver_succ, ih (by omega), uwire_succ, if_pos (by omega)]
      exact receive_quiet (Bool.and_false _) (Bool.and_false _)

theorem receiver_program (x : BitVec 32) (t : Nat) :
    r.receiver x (resetClocks + 1 + t) = r.program.receiver x t := by
  induction t with
  | zero => exact r.receiver_of_reset x le_rfl
  | succ t ih =>
      rw [← Nat.add_assoc, receiver_succ, ih, uwire_program, Nat.add_assoc,
        uwire_program]
      rfl

/-- The clock in which `done` gets high. -/
def doneClock : Nat :=
  resetClocks + 1823

theorem done_succ_iff (t : Nat) :
    r.done (t + 1) = true ↔ doneClock ≤ t + 1 := by
  have hclock : doneClock = resetClocks + 1823 := rfl
  have hpos : 1 ≤ freqOscillator := by decide
  have hduration : 2 + numUwireDataWords *
      wordClocks (Lmk04816.cyclesPerState freqOscillator) = 1822 := by
    decide
  rcases Nat.lt_or_ge resetClocks t with hlate | hearly
  · obtain ⟨u, rfl⟩ : ∃ u, t = resetClocks + 1 + u :=
      ⟨t - resetClocks - 1, by omega⟩
    rw [Nat.add_assoc _ u 1, done_program, Uwire.Run.done_iff hpos, hduration]
    omega
  · rw [r.done_of_reset hearly]
    exact ⟨fun h => absurd h (by simp), fun h => absurd h (by omega)⟩

theorem words_reversed (clkin0Prediv : BitVec 2) :
    (List.ofFn (uwireCfgData clkin0Prediv)).reverse =
      uwireCfgWords clkin0Prediv := by
  rfl

/-- When `done` is high the chip has all the words. -/
theorem receiver_of_done (x : BitVec 32) {t : Nat} (ht : doneClock ≤ t) :
    (r.receiver x t).latched =
      (uwireCfgWords r.clkin0Prediv).map fun w => (32, w) := by
  have hclock : doneClock = resetClocks + 1823 := rfl
  obtain ⟨u, rfl⟩ : ∃ u, t = resetClocks + 1 + u :=
    ⟨t - resetClocks - 1, by omega⟩
  have hpos : 1 ≤ freqOscillator := by decide
  have hduration : 1 + numUwireDataWords *
      wordClocks (Lmk04816.cyclesPerState freqOscillator) = 1821 := by
    decide
  have hidle : phaseAt freqOscillator numUwireDataWords u = .idle 0 :=
    (phaseAt_idle_iff hpos u).mpr (by omega)
  have hg := (Run.simulated (r := r.program) hpos x u).receiver
  rw [hidle] at hg
  rw [receiver_program, hg.2, ← words_reversed]
  rfl

/-! ## The reset of the MMCM -/

theorem filters_sync : Filters (w := 15) (fun t => (r.state t).rCcLockedSync)
    r.done := by
  intro t
  rfl

theorem rstMmcm_succ (t : Nat) :
    r.rstMmcm (t + 2) =
      !decide ((r.state t).rCcLockedSync = BitVec.allOnes 16) := by
  rfl

theorem sync_eq_allOnes_iff {t : Nat} (ht : 2 ≤ t) :
    (r.state t).rCcLockedSync = BitVec.allOnes 16 ↔ doneClock + 16 ≤ t := by
  have hclock : doneClock = resetClocks + 1823 := rfl
  rcases Nat.lt_or_ge t 18 with hearly | hlate
  · have hlow : r.done 1 = false := r.done_of_reset (Nat.zero_le _)
    have hnot := r.filters_sync.not_all hlow (u := t) (by omega) (by omega)
    exact ⟨fun hall => absurd hall hnot, fun hle => by omega⟩
  · obtain ⟨u, rfl⟩ : ∃ u, t = u + 1 + (15 + 1) := ⟨t - 17, by omega⟩
    refine (r.filters_sync.all_iff (u + 1)).trans ?_
    constructor
    · intro hall
      have hfirst := (r.done_succ_iff u).mp (hall (u + 1) le_rfl (by omega))
      omega
    · intro hle v huv hv
      obtain ⟨v, rfl⟩ : ∃ v', v = v' + 1 := ⟨v - 1, by omega⟩
      exact (r.done_succ_iff v).mpr (by omega)

theorem rstMmcm_iff {t : Nat} (ht : 4 ≤ t) :
    r.rstMmcm t = false ↔ doneClock + 18 ≤ t := by
  obtain ⟨u, rfl⟩ : ∃ u, t = u + 2 := ⟨t - 2, by omega⟩
  rw [rstMmcm_succ, Bool.not_eq_false', decide_eq_true_eq,
    r.sync_eq_allOnes_iff (by omega)]
  omega

/-- **Start of the clocks.** The first clock edge after power-up takes the lines
of the clock chip low, and they stay low for a second and a clock: the chip gets
nothing, whatever the lines were at first. Then it gets the words as they are
written down, each with 32 clock edges, and has them all when `done` rises, which
is in clock `doneClock` and for good. The MMCM leaves its reset 18 clocks later,
and does not go back. Only until the first clock edge `done`, and in its first
three clocks `rst_mmcm`, depend on what is in the registers at power-up. -/
theorem start_up (r : OscRun) (x : BitVec 32) :
    (∀ t, t ≤ resetClocks → (r.state (t + 1)).uwire.chip.clkUWire = false ∧
        (r.state (t + 1)).uwire.chip.leUWire = false ∧
        (r.state (t + 1)).uwire.chip.dataUWire = false) ∧
      (∀ t, t ≤ resetClocks + 1 → r.receiver x t = ⟨x, 0, []⟩) ∧
      (∀ t, r.done (t + 1) = true ↔ doneClock ≤ t + 1) ∧
      (∀ t, doneClock ≤ t → (r.receiver x t).latched =
        (uwireCfgWords r.clkin0Prediv).map fun w => (32, w)) ∧
      ∀ t, 4 ≤ t → (r.rstMmcm t = false ↔ doneClock + 18 ≤ t) :=
  ⟨fun _ => r.lines_of_reset, fun _ => r.receiver_of_reset x, r.done_succ_iff,
    fun _ => r.receiver_of_done x, fun _ => r.rstMmcm_iff⟩

end OscRun

/-! ## The clocks of the ADC side -/

/-- Registers of such a domain, with a filter of `n + 1` bits on `soc_ready`: 16
for `clk_out_125` and 32 for `clk_out_250`. -/
structure OutState (n : Nat) where
  rSocReadySync : BitVec (n + 1)
  rSocReady : Bool
  rst : Bool

/-- What the domain sees in a clock. -/
structure OutInput where
  socReady : Bool
  mmcmAdcLocked : Bool

/-- A clock edge of `clk_out_125` or `clk_out_250`. -/
def outStep {n : Nat} (s : OutState n) (i : OutInput) : OutState n :=
  { rSocReadySync := shiftLevel s.rSocReadySync i.socReady
    rSocReady := decide (s.rSocReadySync = BitVec.allOnes (n + 1))
    rst := !(i.mmcmAdcLocked && s.rSocReady) }

/-- A run of the domain. -/
structure OutRun (n : Nat) where
  before : OutState n
  input : Nat → OutInput

namespace OutRun

variable {n : Nat} (o : OutRun n)

/-- Registers before clock edge `t`. -/
def state (t : Nat) : OutState n :=
  run outStep o.before o.input t

/-- The reset of the domain. -/
def rst (t : Nat) : Bool :=
  (o.state t).rst

theorem rst_succ (t : Nat) :
    o.rst (t + 1) = false ↔
      (o.input t).mmcmAdcLocked = true ∧ (o.state t).rSocReady = true := by
  have hnext : o.rst (t + 1) =
      !((o.input t).mmcmAdcLocked && (o.state t).rSocReady) := by
    rfl
  rw [hnext, Bool.not_eq_false', Bool.and_eq_true]

theorem filters_soc : Filters (fun t => (o.state t).rSocReadySync)
    (fun t => (o.input t).socReady) := by
  intro t
  rfl

/-- The reset is low when the clock is locked and `soc_ready` has been high for
as long as the filter takes. -/
theorem rst_iff (t : Nat) :
    o.rst (t + n + 3) = false ↔
      (o.input (t + n + 2)).mmcmAdcLocked = true ∧
        ∀ u, t ≤ u → u ≤ t + n → (o.input u).socReady = true := by
  have hready : (o.state (t + n + 2)).rSocReady = true ↔
      (o.state (t + (n + 1))).rSocReadySync = BitVec.allOnes (n + 1) :=
    decide_eq_true_iff
  rw [rst_succ, hready, o.filters_soc.all_iff]
  refine and_congr_right fun _ => ?_
  exact ⟨fun h u htu hu => h u htu (by omega),
    fun h u htu hu => h u htu (by omega)⟩

end OutRun

/-- What the MMCM does to the domain: `edge t` edges of `clk_osc` have come when
clock `t` begins; its clock is not locked while `rst_mmcm` is high, and does not
lock at once. -/
structure Mmcm {n : Nat} (r : OscRun) (o : OutRun n) (edge : Nat → Nat) :
    Prop where
  reset : ∀ t, (o.input t).mmcmAdcLocked = true → r.rstMmcm (edge t) = false
  late : ∀ t, (o.input t).mmcmAdcLocked = true → 4 ≤ edge t

/-- **The ADC side waits for the clock chip.** A domain leaves its reset if and
only if its clock is locked and `soc_ready` has been high for the length of the
filter; and never before the chip has all its words. -/
theorem adc_side_waits {n : Nat} {r : OscRun} {o : OutRun n}
    {edge : Nat → Nat} (h : Mmcm r o edge) (x : BitVec 32) :
    (∀ t, o.rst (t + n + 3) = false ↔
      (o.input (t + n + 2)).mmcmAdcLocked = true ∧
        ∀ u, t ≤ u → u ≤ t + n → (o.input u).socReady = true) ∧
      ∀ t, o.rst (t + 1) = false →
        (r.receiver x (edge t)).latched =
          (uwireCfgWords r.clkin0Prediv).map fun w => (32, w) := by
  refine ⟨o.rst_iff, fun t hlow => ?_⟩
  have hlocked := ((o.rst_succ t).mp hlow).1
  have hclock := (r.rstMmcm_iff (h.late t hlocked)).mp (h.reset t hlocked)
  exact r.receiver_of_done x (by omega)

/-- A power-up with all other registers zero. -/
def powerUp : OscRun :=
  { before :=
      { rstOsc := true
        rstMmcm := true
        rCcLockedSync := 0
        rCcLocked := false
        rstOscDelay := 0
        uwire := ⟨⟨false, 0, 0, 0, false, false, false, false⟩,
          ⟨0, false, false, 0⟩⟩ }
    clkin0Prediv := 0
    rstOsc := rfl
    rstOscDelay := rfl }

/-- The domain of `clk_out_125`, with a clock that locks after twelve periods. -/
def steady : OutRun 15 :=
  { before := ⟨0, false, true⟩
    input := fun t => ⟨true, decide (12 ≤ t)⟩ }

theorem adc_side_waits_steady :
    steady.rst 18 = false ∧
      (powerUp.receiver 0 (OscRun.doneClock + 35)).latched.length = 26 := by
  have hmmcm : Mmcm powerUp steady fun t => OscRun.doneClock + 18 + t :=
    { reset := fun t _ => (powerUp.rstMmcm_iff (by omega)).mpr (by omega)
      late := fun t _ => by omega }
  obtain ⟨hiff, hwaits⟩ := adc_side_waits hmmcm 0
  have hlow : steady.rst (0 + 15 + 3) = false :=
    (hiff 0).mpr ⟨rfl, fun _ _ _ => rfl⟩
  refine ⟨hlow, ?_⟩
  have hlatched := hwaits 17 hlow
  rw [Nat.add_assoc] at hlatched
  rw [hlatched, List.length_map]
  rfl

end SubsystemClock
end MollerFirmware
