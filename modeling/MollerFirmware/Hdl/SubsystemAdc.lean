import MollerFirmware.Clocked.Windows

/-!
# subsystem_adc: the error counters

For every channel `subsystem_adc` counts the samples that came without a data
clock, and, while the converters send their test pattern, those that differ from
it. Both counters are cleared together and stop at their greatest value. The
rest of the module is the instance of `ltc2387_deserializer_twolane`, which
delivers the samples.
-/

namespace MollerFirmware
namespace SubsystemAdc

open Clocked

variable {numAdc : Nat}

/-- The sample of a converter that sends its test pattern. -/
def testPattern : BitVec 18 :=
  0b110011000011111100

/-- What the deserializer delivers in a clock. -/
structure Samples (numAdc : Nat) where
  adcValid : Bool
  adcChValid : Fin numAdc → Bool
  adcData : Fin numAdc → BitVec 18

/-- Inputs in one clock. -/
structure Input (numAdc : Nat) where
  rst : Bool
  resetCounters : Bool
  adcTestpat : Bool
  samples : Samples numAdc

/-- The counters. -/
structure State (numAdc : Nat) where
  badDcoCounter : Fin numAdc → BitVec 16
  badDataCounter : Fin numAdc → BitVec 16

/-- The counters after a clear. -/
def cleared : State numAdc :=
  { badDcoCounter := fun _ => 0
    badDataCounter := fun _ => 0 }

/-- A clock edge of `adc_counters`. -/
def step (s : State numAdc) (i : Input numAdc) : State numAdc :=
  if i.rst || i.resetCounters then cleared
  else if i.samples.adcValid then
    { badDcoCounter := fun n =>
        if !i.samples.adcChValid n && decide (s.badDcoCounter n < 65535) then
          s.badDcoCounter n + 1
        else s.badDcoCounter n
      badDataCounter := fun n =>
        if i.samples.adcChValid n && i.adcTestpat &&
            decide (s.badDataCounter n < 65535) &&
            decide (i.samples.adcData n ≠ testPattern) then
          s.badDataCounter n + 1
        else s.badDataCounter n }
  else s

/-- A sample came without a data clock. -/
def badDco (n : Fin numAdc) (d : Samples numAdc) : Bool :=
  d.adcValid && !d.adcChValid n

/-- A sample is not the test pattern. -/
def badData (n : Fin numAdc) (d : Samples numAdc) : Bool :=
  d.adcValid && d.adcChValid n && decide (d.adcData n ≠ testPattern)

/-- The controls while the counters run. -/
def testing (d : Samples numAdc) : Input numAdc :=
  { rst := false
    resetCounters := false
    adcTestpat := true
    samples := d }

theorem step_clears (s : State numAdc) {i : Input numAdc}
    (hclear : i.resetCounters = true) :
    step s i = cleared := by
  rw [step, hclear, Bool.or_true]
  rfl

theorem step_testing_badDco (s : State numAdc) (d : Samples numAdc)
    (n : Fin numAdc) :
    (step s (testing d)).badDcoCounter n =
      countUp (badDco n d) (s.badDcoCounter n) := by
  unfold step testing badDco countUp
  cases d.adcValid <;> simp

theorem step_testing_badData (s : State numAdc) (d : Samples numAdc)
    (n : Fin numAdc) :
    (step s (testing d)).badDataCounter n =
      countUp (badData n d) (s.badDataCounter n) := by
  unfold step testing badData countUp
  cases d.adcValid <;> cases hch : d.adcChValid n <;> simp [hch, and_comm]

/-- Counters that were cleared and have run since. -/
def counted (ds : List (Samples numAdc)) : State numAdc :=
  ds.foldl (fun s d => step s (testing d)) cleared

/-- The counters show how many bad samples there were, unless there were too
many. -/
theorem toNat_counted (ds : List (Samples numAdc)) (n : Fin numAdc) :
    ((counted ds).badDcoCounter n).toNat =
        min 65535 (ds.countP (badDco n)) ∧
      ((counted ds).badDataCounter n).toNat =
        min 65535 (ds.countP (badData n)) := by
  have hdco : (counted ds).badDcoCounter n =
      ds.foldl (fun y d => countUp (badDco n d) y) 0 :=
    (List.foldl_hom (fun s : State numAdc => s.badDcoCounter n)
      (fun s d => (step_testing_badDco s d n).symm)).symm
  have hdata : (counted ds).badDataCounter n =
      ds.foldl (fun y d => countUp (badData n d) y) 0 :=
    (List.foldl_hom (fun s : State numAdc => s.badDataCounter n)
      (fun s d => (step_testing_badData s d n).symm)).symm
  rw [hdco, hdata, toNat_foldl_countUp, toNat_foldl_countUp]
  simp

/-- The register of a channel is zero exactly if it had no bad sample. -/
theorem counted_eq_zero_iff (ds : List (Samples numAdc)) (n : Fin numAdc) :
    (counted ds).badDcoCounter n ++ (counted ds).badDataCounter n =
        (0 : BitVec 32) ↔
      ∀ d ∈ ds, badDco n d = false ∧ badData n d = false := by
  obtain ⟨hdco, hdata⟩ := toNat_counted ds n
  have hnone (p : Samples numAdc → Bool) :
      min 65535 (ds.countP p) = 0 ↔ ∀ d ∈ ds, p d = false := by
    rw [show min 65535 (ds.countP p) = 0 ↔ ds.countP p = 0 by omega,
      List.countP_eq_zero]
    simp
  have hzero (x y : BitVec 16) :
      x ++ y = (0 : BitVec 32) ↔ x.toNat = 0 ∧ y.toNat = 0 := by
    rw [← BitVec.toNat_inj, BitVec.toNat_append]
    have hy := y.isLt
    simp [Nat.shiftLeft_eq]
  rw [hzero, hdco, hdata, hnone, hnone]
  exact ⟨fun h d hd => ⟨h.1 d hd, h.2 d hd⟩,
    fun h => ⟨fun d hd => (h d hd).1, fun d hd => (h d hd).2⟩⟩

end SubsystemAdc
end MollerFirmware
