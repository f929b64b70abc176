import MollerFirmware.Clocked.OneShots
import MollerFirmware.Hdl.SigDelay

/-!
# TrigPulCond: trigger pulses of a set width

A trigger comes in on the slow user clock. Its rising edge, shifted by the
quarter of this clock in which it happened, starts a pulse on the fast clock. The
pulse is cleared by its own rising edge, which comes back through a `SigDelay`. A
counter, `MaxWidth`, is there to clear it as well.
-/

namespace MollerFirmware
namespace TrigPulCond

open Clocked

/-- `clkUsr` are the clocks with an edge of `ClkUsr`. -/
structure Input where
  clkUsr : Bool
  trigIn : Bool
  reset : Bool

/-- What is in the loop of the output. -/
structure State where
  trigOutInt : Bool
  dly2TrigOut : Bool
  resetTrig : Bool
  widthCnt : BitVec 9
  maxWidth : Bool

def initial : State where
  trigOutInt := false
  dly2TrigOut := false
  resetTrig := false
  widthCnt := 0
  maxWidth := false

structure LoopInput where
  preTrigOut2 : Bool
  preTrigOut1 : Bool
  reset : Bool

def step (s : State) (dlyTrigOut : Bool) (i : LoopInput) : State where
  trigOutInt :=
    if s.resetTrig then false
    else if s.trigOutInt then true
    else i.preTrigOut2 && !i.preTrigOut1
  dly2TrigOut := dlyTrigOut
  resetTrig := i.reset || (dlyTrigOut && !s.dly2TrigOut) || s.maxWidth
  widthCnt :=
    if !dlyTrigOut || s.maxWidth then 0 else s.widthCnt + 1
  maxWidth :=
    s.widthCnt.getLsbD 8 && s.widthCnt.getLsbD 7 && s.widthCnt.getLsbD 6

/-- A run from power-up with constant settings and without `Reset`. -/
structure Run where
  srl : SigDelay.Srlc32e
  widthSet : BitVec 8
  trigQuadH : Bool
  trigQuadL : Bool
  inp : Nat → Input
  reset : ∀ t, (inp t).reset = false

namespace Run

variable (r : Run)

/-- Address of `TrigQuadAdj`. -/
def trigQuad : BitVec 5 :=
  0#3 ++ BitVec.ofBool r.trigQuadH ++ BitVec.ofBool r.trigQuadL

/-- `RegTrig` -/
def regTrig : Nat → Bool
  | 0 => false
  | t + 1 => if (r.inp t).clkUsr then (r.inp t).trigIn else regTrig t

/-- `TrigAck` -/
def trigAck : Nat → Bool
  | 0 => false
  | t + 1 => if (r.inp t).clkUsr then r.regTrig t else trigAck t

/-- `PreTrigOut(3)` -/
def preTrigOut3 : Nat → Bool
  | 0 => false
  | t + 1 => r.regTrig t

/-- `PreTrigOut(2)` -/
def preTrigOut2 : Nat → Bool :=
  r.srl.q (fun _ => r.trigQuad) r.preTrigOut3

/-- `PreTrigOut(1)` -/
def preTrigOut1 : Nat → Bool
  | 0 => false
  | t + 1 => r.preTrigOut2 t

def state (t : Nat) : State :=
  (fedBack step State.trigOutInt (SigDelay.sigOut r.srl fun _ => r.widthSet)
    initial
    (fun u => ⟨r.preTrigOut2 u, r.preTrigOut1 u, (r.inp u).reset⟩) t).1

/-- `TrigOut` -/
def trigOut (t : Nat) : Bool :=
  (r.state t).trigOutInt

/-- `DlyTrigOut` -/
def dlyTrigOut : Nat → Bool :=
  SigDelay.sigOut r.srl (fun _ => r.widthSet) r.trigOut

/-- Clocks from an edge of `RegTrig` to the pulse. -/
def quadClocks : Nat :=
  r.trigQuad.toNat + 3

/-- Clocks of a pulse. -/
def width : Nat :=
  r.widthSet.toNat + 4

theorem causal_line :
    Causal (SigDelay.sigOut r.srl fun _ => r.widthSet) := by
  intro x y t hxy
  rw [SigDelay.sigOut_eq, SigDelay.sigOut_eq]
  exact causal_delayed _ x y t hxy

theorem state_succ (t : Nat) :
    r.state (t + 1) = step (r.state t) (r.dlyTrigOut t)
      ⟨r.preTrigOut2 t, r.preTrigOut1 t, false⟩ := by
  rw [← r.reset t]
  exact fedBack_succ step State.trigOutInt initial _ r.causal_line t

/-! ## The trigger -/

theorem preTrigOut2_eq :
    r.preTrigOut2 = delayed (r.trigQuad.toNat + 2) r.regTrig := by
  have hfirst : r.preTrigOut3 = delayed 1 r.regTrig :=
    delayed_one_of_succ rfl fun _ => rfl
  funext t
  rw [preTrigOut2, r.srl.q_eq, hfirst, delayed_delayed]

theorem preTrigOut1_eq :
    r.preTrigOut1 = delayed (r.trigQuad.toNat + 3) r.regTrig := by
  have hnext : r.preTrigOut1 = delayed 1 r.preTrigOut2 :=
    delayed_one_of_succ rfl fun _ => rfl
  rw [hnext, preTrigOut2_eq, delayed_delayed]
  congr 1
  omega

/-- What starts a pulse. -/
def edge (t : Nat) : Bool :=
  r.preTrigOut2 t && !r.preTrigOut1 t

theorem edge_iff (t : Nat) :
    r.edge t = true ↔
      ∃ u, t = u + r.quadClocks ∧ rises r.regTrig u = true := by
  rw [edge, preTrigOut2_eq, preTrigOut1_eq, Bool.and_eq_true,
    Bool.not_eq_true', delayed_eq_true_iff]
  constructor
  · rintro ⟨⟨hle, hnow⟩, hbefore⟩
    obtain ⟨n, rfl⟩ := Nat.exists_eq_add_of_le hle
    rw [Nat.add_sub_cancel_left] at hnow
    cases n with
    | zero =>
        exact Bool.noConfusion hnow
    | succ u =>
        refine ⟨u, by rw [quadClocks]; omega, ?_⟩
        rw [show r.trigQuad.toNat + 2 + (u + 1) =
          u + (r.trigQuad.toNat + 3) by omega, delayed_add] at hbefore
        rw [rises, hbefore, hnow]
        rfl
  · rintro ⟨u, rfl, hrise⟩
    rw [rises, Bool.and_eq_true, Bool.not_eq_true'] at hrise
    rw [quadClocks, delayed_add]
    refine ⟨⟨by omega, ?_⟩, hrise.1⟩
    rw [show u + (r.trigQuad.toNat + 3) - (r.trigQuad.toNat + 2) = u + 1 by
      omega]
    exact hrise.2

/-! ## The pulse -/

theorem dlyTrigOut_eq :
    r.dlyTrigOut = delayed (r.widthSet.toNat + 2) r.trigOut :=
  SigDelay.sigOut_eq r.srl r.trigOut r.widthSet

theorem dly2TrigOut_eq (t : Nat) :
    (r.state t).dly2TrigOut = delayed (r.widthSet.toNat + 3) r.trigOut t := by
  have hnext : (fun u => (r.state u).dly2TrigOut) = delayed 1 r.dlyTrigOut :=
    delayed_one_of_succ rfl fun u => by rw [state_succ]; rfl
  rw [dlyTrigOut_eq, delayed_delayed] at hnext
  rw [show r.widthSet.toNat + 3 = 1 + (r.widthSet.toNat + 2) by omega]
  exact congrFun hnext t

theorem oneShot :
    OneShot r.edge (fun t => (r.state t).resetTrig) r.trigOut where
  low := rfl
  next := by
    intro t
    rw [trigOut, state_succ, trigOut, edge]
    simp only [step]
    cases (r.state t).resetTrig <;> cases (r.state t).trigOutInt <;> rfl

theorem resetTrig_succ (t : Nat) :
    (r.state (t + 1)).resetTrig =
      ((delayed (r.widthSet.toNat + 2) r.trigOut t &&
        !delayed (r.widthSet.toNat + 3) r.trigOut t) ||
          (r.state t).maxWidth) := by
  rw [state_succ, ← dly2TrigOut_eq, ← dlyTrigOut_eq]
  rfl

/-- The rising edge of the delayed pulse clears it. -/
theorem resetTrig_of_edge (t : Nat)
    (hnow : delayed (r.widthSet.toNat + 3) r.trigOut t = true)
    (hbefore : delayed (r.widthSet.toNat + 3 + 1) r.trigOut t = false) :
    (r.state t).resetTrig = true := by
  cases t with
  | zero =>
      rw [delayed_eq_true_iff] at hnow
      omega
  | succ t =>
      rw [delayed_succ] at hnow hbefore
      rw [resetTrig_succ, hnow, hbefore]
      rfl

/-- The delayed pulse is never longer than it should be. -/
theorem dlyTrigOut_run_le {a n : Nat}
    (hhigh : ∀ i, i < n → r.dlyTrigOut (a + i) = true) :
    n ≤ r.width := by
  rcases Nat.eq_zero_or_pos n with rfl | hn
  · exact Nat.zero_le _
  · rw [dlyTrigOut_eq] at hhigh
    have hfirst := (delayed_eq_true_iff.mp (hhigh 0 hn)).1
    obtain ⟨b, rfl⟩ := Nat.exists_eq_add_of_le hfirst
    refine r.oneShot.length_le (a := b) r.resetTrig_of_edge fun i hi => ?_
    rw [← delayed_add (r.widthSet.toNat + 2) r.trigOut (b + i),
      show b + i + (r.widthSet.toNat + 2) = r.widthSet.toNat + 2 + 0 + b + i by
        omega]
    exact hhigh i hi

theorem width_lt : r.width < 260 := by
  have hlt := r.widthSet.isLt
  rw [width]
  omega

/-- The counter counts clocks of one pulse. -/
theorem widthCnt_run (t : Nat) :
    ∃ a, a + (r.state t).widthCnt.toNat = t ∧
      ∀ i, i < (r.state t).widthCnt.toNat → r.dlyTrigOut (a + i) = true := by
  induction t with
  | zero =>
      exact ⟨0, rfl, fun i hi => absurd hi (Nat.not_lt_zero i)⟩
  | succ t ih =>
      obtain ⟨a, ha, hhigh⟩ := ih
      rw [state_succ]
      simp only [step]
      split_ifs with hclear
      · exact ⟨t + 1, rfl, fun i hi => absurd hi (Nat.not_lt_zero i)⟩
      · rw [Bool.or_eq_true, not_or, Bool.not_eq_true', Bool.not_eq_false]
          at hclear
        have hle := r.dlyTrigOut_run_le hhigh
        have hwidth := r.width_lt
        rw [toNat_succ_of_lt (by omega)]
        refine ⟨a, by omega, fun i hi => ?_⟩
        rcases Nat.lt_or_ge i (r.state t).widthCnt.toNat with hbefore | hlast
        · exact hhigh i hbefore
        · obtain rfl : i = (r.state t).widthCnt.toNat := by omega
          rw [ha]
          exact hclear.1

/-- The counter never clears a pulse. -/
theorem maxWidth_eq (t : Nat) :
    (r.state t).maxWidth = false := by
  cases t with
  | zero =>
      rfl
  | succ t =>
      obtain ⟨a, -, hhigh⟩ := r.widthCnt_run t
      have hle := r.dlyTrigOut_run_le hhigh
      have hwidth := r.width_lt
      rw [state_succ]
      simp only [step]
      by_contra hset
      simp only [Bool.not_eq_false, Bool.and_eq_true, BitVec.getLsbD,
        Nat.testBit_eq_decide_div_mod_eq, decide_eq_true_eq] at hset
      omega

theorem resetTrig_eq (t : Nat) :
    (r.state t).resetTrig =
      (delayed (r.widthSet.toNat + 3) r.trigOut t &&
        !delayed (r.widthSet.toNat + 3 + 1) r.trigOut t) := by
  cases t with
  | zero =>
      rfl
  | succ t =>
      rw [resetTrig_succ, maxWidth_eq, Bool.or_false, delayed_succ,
        delayed_succ]

theorem trigOut_iff (t : Nat) :
    r.trigOut t = true ↔
      ∃ s, rises r.trigOut s = true ∧ s < t ∧ t ≤ s + r.width := by
  rw [← r.oneShot.opens_eq_rises]
  exact (r.oneShot.timed_of_edge r.resetTrig_eq).out_iff t

theorem rises_trigOut_iff (t : Nat) :
    rises r.trigOut t = true ↔ r.trigOut t = false ∧
      ∃ u, t = u + r.quadClocks ∧ rises r.regTrig u = true := by
  rw [← r.oneShot.opens_eq_rises, r.oneShot.opens_of_edge r.resetTrig_eq,
    edge_iff, and_comm]

/-- Triggers that are further apart than a pulse is long are not lost. -/
theorem rises_trigOut_of_spaced (h : Spaced (r.width + 1) (rises r.regTrig)) :
    rises r.trigOut = delayed r.quadClocks (rises r.regTrig) := by
  funext t
  rw [Bool.eq_iff_iff, rises_trigOut_iff, delayed_eq_true_iff]
  constructor
  · rintro ⟨-, u, rfl, hu⟩
    rw [Nat.add_sub_cancel]
    exact ⟨Nat.le_add_left _ _, hu⟩
  · rintro ⟨hle, hu⟩
    obtain ⟨u, rfl⟩ := Nat.exists_eq_add_of_le' hle
    rw [Nat.add_sub_cancel] at hu
    refine ⟨?_, u, rfl, hu⟩
    by_contra hhigh
    obtain ⟨s, hs, hst, hts⟩ :=
      (r.trigOut_iff _).mp (Bool.eq_true_of_not_eq_false hhigh)
    obtain ⟨-, v, rfl, hv⟩ := (r.rises_trigOut_iff s).mp hs
    have hapart := h v u (by omega) hv hu
    omega

/-- Every pulse has the set width. A rising edge of `RegTrig` gives a pulse
exactly if it does not fall into an earlier one, and edges that are further apart
all do. -/
theorem pulses_exact (r : Run) :
    (∀ t, r.trigOut t = true ↔
      ∃ s, rises r.trigOut s = true ∧ s < t ∧ t ≤ s + r.width) ∧
    (∀ t, rises r.trigOut t = true ↔ r.trigOut t = false ∧
      ∃ u, t = u + r.quadClocks ∧ rises r.regTrig u = true) ∧
    (Spaced (r.width + 1) (rises r.regTrig) →
      rises r.trigOut = delayed r.quadClocks (rises r.regTrig)) :=
  ⟨r.trigOut_iff, r.rises_trigOut_iff, r.rises_trigOut_of_spaced⟩

/-- One trigger of one period of `ClkUsr`. -/
def oneTrigger : Run where
  srl :=
    { q := fun a d t =>
        decide ((a t).toNat + 1 ≤ t) && d (t - ((a t).toNat + 1))
      q31 := fun d t => decide (32 ≤ t) && d (t - 32)
      q_eq := fun _ _ _ => rfl
      q31_eq := fun _ => rfl }
  widthSet := 5
  trigQuadH := false
  trigQuadL := true
  inp := fun t =>
    { clkUsr := decide (t % 4 = 3)
      trigIn := decide (t < 4)
      reset := false }
  reset := fun _ => rfl

theorem regTrig_oneTrigger (t : Nat) :
    oneTrigger.regTrig t = decide (4 ≤ t ∧ t < 8) := by
  induction t with
  | zero =>
      rfl
  | succ t ih =>
      rw [regTrig, ih]
      simp only [oneTrigger, decide_eq_true_eq]
      split_ifs with hedge
      · exact decide_eq_decide.mpr (by omega)
      · exact decide_eq_decide.mpr (by omega)

theorem rises_oneTrigger {t : Nat}
    (ht : rises oneTrigger.regTrig t = true) :
    t = 3 := by
  rw [rises, regTrig_oneTrigger, regTrig_oneTrigger, Bool.and_eq_true,
    Bool.not_eq_true', decide_eq_false_iff_not, decide_eq_true_eq] at ht
  omega

theorem pulses_exact_oneTrigger :
    rises oneTrigger.trigOut = delayed 4 (rises oneTrigger.regTrig) := by
  refine (pulses_exact oneTrigger).2.2 fun t u htu ht hu => ?_
  have hfirst := rises_oneTrigger ht
  have hsecond := rises_oneTrigger hu
  omega

end Run

end TrigPulCond
end MollerFirmware
