import MollerFirmware.Hdl.TriggerClock
import MollerFirmware.Hdl.TriggerRule

/-!
# TriggerRules: no more than so many triggers in a period

Four rules hold triggers back: no more than one in the first period, two in the
second, three in the third and four in the fourth. A rule counts the triggers
that were let through in its period (`TriggerRule`), and the next trigger waits
until each of the four counts is below its limit. The third and the fourth rule
work with enables of every second and every fourth clock, for which their
triggers are stored (`TriggerClock`).

What the slow clock contributes and the minimum widths (`TriggerWMin`) are
inputs: they can only hold back more.
-/

namespace MollerFirmware
namespace TriggerRules

open Clocked

variable {fifo : TriggerClock.TrigDelayFifo} {srl : TriggerRule.Srlc32e}

structure Input where
  trigIn : Bool
  busy : Bool
  endOfRun : Bool
  reset : Bool
  trigGiga : Fin 4 → Bool
  minWidthB : Bool
  minWidthC : Bool
  minWidthD : Bool

structure State (fifo : TriggerClock.TrigDelayFifo)
    (srl : TriggerRule.Srlc32e) where
  trigOutInt : Bool
  clock2En : Bool
  preClock4En : Bool
  clock4En : Bool
  trigClk2 : TriggerClock.State fifo
  trigClk4 : TriggerClock.State fifo
  rule : Fin 4 → TriggerRule.State srl

def initial (fifo : TriggerClock.TrigDelayFifo)
    (srl : TriggerRule.Srlc32e) : State fifo srl where
  trigOutInt := false
  clock2En := false
  preClock4En := false
  clock4En := false
  trigClk2 := TriggerClock.initial fifo
  trigClk4 := TriggerClock.initial fifo
  rule := fun _ => TriggerRule.initial srl

/-- The byte of `PeriodA` of a rule. -/
def trigRule (periodA : BitVec 32) (n : Fin 4) : BitVec 8 :=
  periodA.extractLsb' (8 * n) 8

/-- `TrigFIn` of a rule. -/
def State.trigFIn (s : State fifo srl) : Fin 4 → Bool
  | 0 => s.trigOutInt
  | 1 => s.trigOutInt
  | 2 => s.trigClk2.trigOutInt
  | 3 => s.trigClk4.trigOutInt

/-- `TrigFEn` of a rule. -/
def State.trigFEn (s : State fifo srl) : Fin 4 → Bool
  | 0 => true
  | 1 => true
  | 2 => s.clock2En
  | 3 => s.clock4En

def State.ruleInput (s : State fifo srl) (i : Input) (n : Fin 4) :
    TriggerRule.Input where
  trigFIn := s.trigFIn n
  trigFEn := s.trigFEn n
  trigIn := s.trigOutInt
  trigGiga := i.trigGiga n
  reset := i.reset

/-- `TrigRstA` to `TrigRstD`, from the bits of `TrigRuleCnt`. -/
def trigRst : Fin 4 → BitVec 3 → Bool
  | 0, cnt => cnt.getLsbD 0 || cnt.getLsbD 1 || cnt.getLsbD 2
  | 1, cnt => cnt.getLsbD 1 || cnt.getLsbD 2
  | 2, cnt => cnt.getLsbD 0 && cnt.getLsbD 1 || cnt.getLsbD 2
  | 3, cnt => cnt.getLsbD 2

/-- `BusyRuleInt`, after the falling edge. -/
def State.busyRuleInt (s : State fifo srl) (periodA : BitVec 32) (i : Input) :
    Bool :=
  decide (∃ n, trigRst n
    ((s.rule n).counted (trigRule periodA n) (s.ruleInput i n)) = true) ||
    i.minWidthB || i.minWidthC || i.minWidthD

/-- `PreTrigD` -/
def Input.preTrigD (i : Input) : Bool :=
  i.trigIn && !i.busy && !i.endOfRun

def step (periodA : BitVec 32) (s : State fifo srl) (i : Input) :
    State fifo srl where
  trigOutInt :=
    if i.reset || s.trigOutInt then false
    else i.preTrigD && !s.busyRuleInt periodA i
  clock2En := if s.clock2En then false else true
  preClock4En :=
    if s.clock4En then false
    else if s.clock2En then true else s.preClock4En
  clock4En :=
    if s.clock4En then false
    else if s.clock2En then s.preClock4En else s.clock4En
  trigClk2 := TriggerClock.step s.trigClk2 ⟨s.trigOutInt, s.clock2En, i.reset⟩
  trigClk4 := TriggerClock.step s.trigClk4 ⟨s.trigOutInt, s.clock4En, i.reset⟩
  rule := fun n =>
    TriggerRule.step (trigRule periodA n) (s.rule n) (s.ruleInput i n)

/-- What a rule lets through. -/
theorem trigRst_eq (n : Fin 4) (cnt : BitVec 3) :
    trigRst n cnt = decide (n.val + 1 ≤ cnt.toNat) := by
  revert n cnt
  decide

/-- A run from power-up, or from a reset that found no trigger on its way. -/
structure Run (fifo : TriggerClock.TrigDelayFifo)
    (srl : TriggerRule.Srlc32e) where
  periodA : BitVec 32
  inp : Nat → Input
  reset : ∀ t, (inp t).reset = false

/-- A FIFO that shows what it holds at once. -/
def countingFifo : TriggerClock.TrigDelayFifo where
  State := Nat
  init := 0
  step := fun n rst wrEn rdEn =>
    if rst then 0
    else (n - if rdEn then 1 else 0) + if wrEn then 1 else 0
  empty := fun n => n == 0
  stored := fun n => n
  stored_init := rfl
  stored_step := by
    intro n rst wrEn rdEn
    cases rst <;> cases wrEn <;> cases rdEn <;> rcases n with _ | n <;> simp
  stored_pos := by
    intro n hn
    rw [beq_eq_false_iff_ne] at hn
    exact Nat.pos_of_ne_zero hn
  stays := by
    intro n wrEn hn
    rw [beq_eq_false_iff_ne] at hn ⊢
    cases wrEn <;> simp [hn]

theorem getLsbD_shiftLevel_zero (x : BitVec 32) (d : Bool) :
    (shiftLevel x d).getLsbD 0 = d := by
  rw [shiftLevel, BitVec.getLsbD_append]
  simp

theorem getLsbD_shiftLevel_succ (x : BitVec 32) (d : Bool) (a : BitVec 5)
    (ha : a ≠ 31) :
    (shiftLevel x d).getLsbD (a + 1).toNat = x.getLsbD a.toNat := by
  have hlt : a.toNat < 31 := by
    have := a.isLt
    have hne : a.toNat ≠ 31 := fun h => ha (BitVec.eq_of_toNat_eq h)
    omega
  have hsucc : (a + 1).toNat = a.toNat + 1 := toNat_succ_of_lt (by omega)
  rw [shiftLevel, BitVec.getLsbD_append, hsucc]
  simp [hlt]

/-- A register of 32 bits. -/
def bitRow : TriggerRule.Srlc32e where
  State := BitVec 32
  init := 0
  step := fun x ce d => if ce then shiftLevel x d else x
  q := fun x a => x.getLsbD a.toNat
  q31 := fun x => x.getLsbD 31
  q_init := fun _ => BitVec.getLsbD_zero
  q_first := getLsbD_shiftLevel_zero
  q_next := getLsbD_shiftLevel_succ
  q_hold := fun _ _ _ => rfl
  q31_eq := fun _ => rfl

namespace Run

variable (r : Run fifo srl)

def state (t : Nat) : State fifo srl :=
  run (step r.periodA) (initial fifo srl) r.inp t

/-- `TrigOut` -/
def trigOut (t : Nat) : Bool :=
  (r.state t).trigOutInt

/-- `TrigRuleCnt` of a rule, after the falling edge. -/
def trigRuleCnt (n : Fin 4) (t : Nat) : BitVec 3 :=
  ((r.state t).rule n).counted (trigRule r.periodA n)
    ((r.state t).ruleInput (r.inp t) n)

/-- Clocks between the enabled ones of a rule. -/
def unit : Fin 4 → Nat
  | 0 => 1
  | 1 => 1
  | 2 => 2
  | 3 => 4

/-- The setting of a rule in its own clocks. -/
def setting (n : Fin 4) : Nat :=
  TriggerRule.setting (trigRule r.periodA n)

/-- The first two rules see a trigger at once, the others have it stored. -/
def stored : Fin 4 → Nat
  | 0 => 0
  | 1 => 0
  | 2 => 2 * 2 + 1
  | 3 => 2 * 4 + 1

/-- The least time that a trigger counts against a rule. -/
def period (n : Fin 4) : Nat :=
  stored n + unit n * (r.setting n + 1) + 1

/-- The rule does not use the slow clock. -/
def Fast (n : Fin 4) : Prop :=
  (trigRule r.periodA n).getLsbD 7 = false

instance (n : Fin 4) : Decidable (r.Fast n) :=
  inferInstanceAs (Decidable (_ = false))

theorem state_succ (t : Nat) :
    r.state (t + 1) = step r.periodA (r.state t) (r.inp t) :=
  run_succ _ _ _ t

section Enables

def clock2En (t : Nat) : Bool :=
  (r.state t).clock2En

def clock4En (t : Nat) : Bool :=
  (r.state t).clock4En

/-- Every second clock, and of these every second one. -/
theorem enables (t : Nat) :
    r.clock2En t = decide (t % 2 = 1) ∧
      (r.state t).preClock4En = decide (2 ≤ t ∧ t % 4 ≠ 1) ∧
      r.clock4En t = decide (4 ≤ t ∧ t % 4 = 0) := by
  induction t with
  | zero =>
      exact ⟨rfl, rfl, rfl⟩
  | succ t ih =>
      obtain ⟨h2, hpre, h4⟩ := ih
      rw [clock2En] at h2
      rw [clock4En] at h4
      rw [clock2En, clock4En, state_succ]
      simp only [step, h2, hpre, h4, decide_eq_true_eq]
      refine ⟨?_, ?_, ?_⟩ <;> rw [Bool.eq_iff_iff] <;> split_ifs <;>
        simp only [decide_eq_true_eq, true_iff, false_iff] <;> omega

theorem spaced_clock2En : Spaced 2 r.clock2En := by
  intro t u htu ht hu
  rw [(r.enables t).1, decide_eq_true_eq] at ht
  rw [(r.enables u).1, decide_eq_true_eq] at hu
  omega

theorem spaced_clock4En : Spaced 4 r.clock4En := by
  intro t u htu ht hu
  rw [(r.enables t).2.2, decide_eq_true_eq] at ht
  rw [(r.enables u).2.2, decide_eq_true_eq] at hu
  omega

end Enables

section Rules

def ruleState (n : Fin 4) (t : Nat) : TriggerRule.State srl :=
  (r.state t).rule n

def ruleInp (n : Fin 4) (t : Nat) : TriggerRule.Input :=
  (r.state t).ruleInput (r.inp t) n

theorem ruleState_succ (n : Fin 4) (t : Nat) :
    r.ruleState n (t + 1) = TriggerRule.step (trigRule r.periodA n)
      (r.ruleState n t) (r.ruleInp n t) := by
  rw [ruleState, state_succ]
  rfl

theorem spaced_trigFEn (n : Fin 4) :
    Spaced (unit n) (TriggerRule.trigFEn (r.ruleInp n)) := by
  match n with
  | 0 => exact fun _ _ htu _ _ => htu
  | 1 => exact fun _ _ htu _ _ => htu
  | 2 => exact r.spaced_clock2En
  | 3 => exact r.spaced_clock4En

/-- Triggers as the row of a rule takes them. -/
theorem trigFIn_lags (n : Fin 4) :
    Lags (stored n) r.trigOut (sampled (TriggerRule.trigFEn (r.ruleInp n))
      (TriggerRule.trigFIn (r.ruleInp n))) := by
  match n with
  | 0 => exact fun t => le_refl _
  | 1 => exact fun t => le_refl _
  | 2 =>
      exact TriggerClock.seen_lags (fun t => (r.state t).trigClk2)
        (fun t => ⟨r.trigOut t, r.clock2En t, (r.inp t).reset⟩)
        rfl (fun t => by rw [state_succ]; rfl) r.reset (le_refl 2)
        r.spaced_clock2En
  | 3 =>
      exact TriggerClock.seen_lags (fun t => (r.state t).trigClk4)
        (fun t => ⟨r.trigOut t, r.clock4En t, (r.inp t).reset⟩)
        rfl (fun t => by rw [state_succ]; rfl) r.reset (by decide)
        r.spaced_clock4En

theorem dlyTrigF_lags (n : Fin 4) :
    Lags (r.period n) r.trigOut (TriggerRule.dlyTrigF (r.ruleState n)) :=
  (r.trigFIn_lags n).trans (TriggerRule.dlyTrigF_lags rfl (r.ruleState_succ n)
    (r.spaced_trigFEn n))

/-- What a trigger has to wait for. -/
theorem trigOut_succ_iff (t : Nat) :
    r.trigOut (t + 1) = true ↔
      ((r.inp t).preTrigD = true ∧ (r.inp t).minWidthB = false ∧
        (r.inp t).minWidthC = false ∧ (r.inp t).minWidthD = false) ∧
      r.trigOut t = false ∧
      ∀ n, (r.trigRuleCnt n t).toNat < n.val + 1 := by
  have hcnt : ∀ n, trigRst n (r.trigRuleCnt n t) = true ↔
      ¬ (r.trigRuleCnt n t).toNat < n.val + 1 := by
    intro n
    rw [trigRst_eq, decide_eq_true_eq, Nat.not_lt]
  have hrules : (∀ n, (r.trigRuleCnt n t).toNat < n.val + 1) ↔
      ¬ ∃ n, trigRst n (r.trigRuleCnt n t) = true := by
    rw [not_exists]
    exact forall_congr' fun n => by rw [hcnt, not_not]
  have hnext : r.trigOut (t + 1) =
      if (r.inp t).reset || r.trigOut t then false
      else (r.inp t).preTrigD &&
        !(decide (∃ n, trigRst n (r.trigRuleCnt n t) = true) ||
          (r.inp t).minWidthB || (r.inp t).minWidthC ||
          (r.inp t).minWidthD) := by
    rw [trigOut, state_succ]
    rfl
  rw [hnext, r.reset, Bool.false_or, hrules]
  cases r.trigOut t with
  | true =>
      simp
  | false =>
      simp only [Bool.false_eq_true, if_false, Bool.and_eq_true,
        Bool.not_eq_true', Bool.or_eq_false_iff, decide_eq_false_iff_not]
      constructor
      · rintro ⟨hpre, ⟨⟨hrule, hB⟩, hC⟩, hD⟩
        exact ⟨⟨hpre, hB, hC, hD⟩, trivial, hrule⟩
      · rintro ⟨⟨hpre, hB, hC, hD⟩, -, hrule⟩
        exact ⟨hpre, ⟨⟨hrule, hB⟩, hC⟩, hD⟩

/-- A trigger finds every count below its limit. -/
theorem trigCntInt_lt (n : Fin 4) (t : Nat) (ht : r.trigOut t = true) :
    (TriggerRule.trigCntInt (r.ruleState n) t).toNat < n.val + 1 := by
  cases t with
  | zero =>
      exact Bool.noConfusion ht
  | succ t =>
      have hcnt := ((r.trigOut_succ_iff t).mp ht).2.2 n
      rw [TriggerRule.trigCntInt, ruleState_succ]
      exact hcnt

theorem spaced_trigOut : Spaced 2 r.trigOut := by
  intro t u htu ht hu
  by_contra hclose
  obtain rfl : u = t + 1 := by omega
  have hlow := ((r.trigOut_succ_iff t).mp hu).2.1
  rw [hlow] at ht
  exact Bool.noConfusion ht

/-- No more triggers than the limit of a rule while they count against it. -/
theorem pulsesIn_trigOut_le (n : Fin 4) (hfast : r.Fast n) (u : Nat) :
    pulsesIn r.trigOut u (u + (r.period n + 1)) ≤ n.val + 1 :=
  TriggerRule.pulsesIn_trigIn_le hfast rfl (r.ruleState_succ n) r.reset
    (by omega) (r.dlyTrigF_lags n) (r.trigCntInt_lt n) u

/-- The first rule keeps the triggers apart. -/
theorem spaced_of_first_rule (hfast : r.Fast 0) :
    Spaced (r.setting 0 + 3) r.trigOut := by
  intro t u htu ht hu
  by_contra hclose
  have hle := r.pulsesIn_trigOut_le 0 hfast t
  have hend : u + 1 ≤ t + (r.period 0 + 1) := by
    simp only [period, stored, unit]
    omega
  have hmono := pulsesIn_mono r.trigOut (by omega : t ≤ u + 1) hend
  rw [pulsesIn_succ _ (Nat.le_of_lt htu), hu, if_pos rfl,
    pulsesIn_add _ (Nat.le_succ t) htu, pulsesIn_succ _ (le_refl t), ht,
    if_pos rfl] at hmono
  simp only [Fin.val_zero] at hle
  omega

/-- The counts of the first two rules. -/
theorem trigRuleCnt_eq (n : Fin 4) (hn : n.val ≤ 1) (hfast : r.Fast n)
    (t : Nat) :
    (r.trigRuleCnt n t).toNat =
      pulsesIn r.trigOut (t + 1 - (r.setting n + 2)) (t + 1) := by
  have hcnt : r.trigRuleCnt n t =
      TriggerRule.trigCntInt (r.ruleState n) (t + 1) := by
    rw [TriggerRule.trigCntInt, ruleState_succ]
    rfl
  have hfirst : n = 0 ∨ n = 1 := by omega
  rw [hcnt]
  refine TriggerRule.trigCntInt_eq hfast rfl (r.ruleState_succ n) r.reset
    ?_ ?_ r.spaced_trigOut (n := n.val + 1) (by omega) (r.trigCntInt_lt n)
    (t + 1)
  · rcases hfirst with rfl | rfl
    · exact fun _ => rfl
    · exact fun _ => rfl
  · rcases hfirst with rfl | rfl
    · rfl
    · rfl

end Rules

/-- No more triggers than the limit of a rule in its period. -/
theorem no_more_than (r : Run fifo srl) (n : Fin 4) (hfast : r.Fast n)
    (u : Nat) :
    pulsesIn r.trigOut u (u + (r.period n + 1)) ≤ n.val + 1 :=
  r.pulsesIn_trigOut_le n hfast u

/-- Every clock asks for a trigger. -/
def alwaysAsked (periodA : BitVec 32) : Run countingFifo bitRow where
  periodA := periodA
  inp := fun _ =>
    { trigIn := true
      busy := false
      endOfRun := false
      reset := false
      trigGiga := fun _ => false
      minWidthB := false
      minWidthC := false
      minWidthD := false }
  reset := fun _ => rfl

theorem no_more_than_alwaysAsked :
    pulsesIn (alwaysAsked 0x05).trigOut 2 10 ≤ 1 :=
  no_more_than (alwaysAsked 0x05) 0 (by decide) 2

/-- With the first two rules on the fast clock, a trigger that is asked for is
let through exactly if there was none in the time of the first rule, no more
than one in the time of the second, and the other two rules are below their
limits. -/
theorem let_through_iff (r : Run fifo srl) (hA : r.Fast 0) (hB : r.Fast 1)
    (t : Nat) :
    r.trigOut (t + 1) = true ↔
      ((r.inp t).preTrigD = true ∧ (r.inp t).minWidthB = false ∧
        (r.inp t).minWidthC = false ∧ (r.inp t).minWidthD = false) ∧
      pulsesIn r.trigOut (t + 1 - (r.setting 0 + 2)) (t + 1) = 0 ∧
      pulsesIn r.trigOut (t + 1 - (r.setting 1 + 2)) (t + 1) ≤ 1 ∧
      (r.trigRuleCnt 2 t).toNat ≤ 2 ∧ (r.trigRuleCnt 3 t).toNat ≤ 3 := by
  rw [r.trigOut_succ_iff, ← r.trigRuleCnt_eq 0 (by decide) hA,
    ← r.trigRuleCnt_eq 1 (by decide) hB]
  refine and_congr_right fun _ => ?_
  constructor
  · rintro ⟨-, hrules⟩
    have h0 := hrules 0
    have h1 := hrules 1
    have h2 := hrules 2
    have h3 := hrules 3
    simp only [Fin.isValue, Fin.val_zero, Fin.val_one, Fin.val_two] at h0 h1 h2
    rw [show (3 : Fin 4).val = 3 by rfl] at h3
    exact ⟨by omega, by omega, by omega, by omega⟩
  · rintro ⟨h0, h1, h2, h3⟩
    refine ⟨?_, fun n => ?_⟩
    · rw [r.trigRuleCnt_eq 0 (by decide) hA, pulsesIn_eq_zero_iff] at h0
      exact h0 t (by omega) (Nat.lt_succ_self t)
    · match n with
      | 0 => exact Nat.lt_succ_of_le (Nat.le_of_eq h0)
      | 1 => exact Nat.lt_succ_of_le h1
      | 2 => exact Nat.lt_succ_of_le h2
      | 3 => exact Nat.lt_succ_of_le h3

theorem let_through_iff_alwaysAsked :
    (alwaysAsked 0x0905).trigOut 9 = true ∧
      pulsesIn (alwaysAsked 0x0905).trigOut 2 9 = 0 ∧
      pulsesIn (alwaysAsked 0x0905).trigOut 0 9 ≤ 1 := by
  have hout : (alwaysAsked 0x0905).trigOut 9 = true := by decide
  obtain ⟨-, hfirst, hsecond, -⟩ :=
    (let_through_iff (alwaysAsked 0x0905) (by decide) (by decide) 8).mp hout
  exact ⟨hout, hfirst, hsecond⟩

end Run

end TriggerRules
end MollerFirmware
