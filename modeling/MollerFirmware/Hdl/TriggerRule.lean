import MollerFirmware.Clocked.Lags

/-!
# TriggerRule: the triggers that count against a rule

A trigger is counted up, and counted down after the time of the rule. That time
is a number of enabled clocks: the trigger goes down a row of four shift
registers of 32 places, of which `TrigRule[6:0]` selects the place that is read.
With `TrigRule[7]` another row on the slow clock is used instead.

The counter works on the falling edge. A state is the one in the first half of a
clock, as in `TriggerClock`.
-/

namespace MollerFirmware
namespace TriggerRule

open Clocked

/-- The primitive `SRLC32E`, cleared at power-up. -/
structure Srlc32e where
  State : Type
  init : State
  step : State → (ce d : Bool) → State
  q : State → BitVec 5 → Bool
  q31 : State → Bool
  q_init : ∀ a, q init a = false
  q_first : ∀ s d, q (step s true d) 0 = d
  q_next : ∀ s d a, a ≠ 31 → q (step s true d) (a + 1) = q s a
  q_hold : ∀ s d a, q (step s false d) a = q s a
  q31_eq : ∀ s, q31 s = q s 31

variable {srl : Srlc32e}

structure State (srl : Srlc32e) where
  fast : Fin 4 → srl.State
  dlyTrigF : Bool
  trigCntInt : BitVec 3

/-- `trigGiga` is what arrives from the slow clock. -/
structure Input where
  trigFIn : Bool
  trigFEn : Bool
  trigIn : Bool
  trigGiga : Bool
  reset : Bool

def initial (srl : Srlc32e) : State srl where
  fast := fun _ => srl.init
  dlyTrigF := false
  trigCntInt := 0

/-- `TrigOutF` -/
def State.trigOutF (s : State srl) (trigRule : BitVec 8) : Bool :=
  srl.q (s.fast (Fin.ofNat 4 (trigRule.extractLsb 6 5).toNat))
    (trigRule.extractLsb 4 0)

/-- `TrigOut` -/
def State.trigOut (s : State srl) (trigRule : BitVec 8)
    (trigGiga : Bool) : Bool :=
  if trigRule.getLsbD 7 then trigGiga else s.dlyTrigF

/-- By `TrigCntEn` and `TrigIn`. -/
def trigCntNext (trigIn trigOut : Bool) (cnt : BitVec 3) : BitVec 3 :=
  if trigIn ^^ (cnt != 0 && trigOut) then
    if trigIn then cnt + 1 else cnt - 1
  else cnt

/-- `TrigCntInt` after the falling edge. -/
def State.counted (s : State srl) (trigRule : BitVec 8) (i : Input) :
    BitVec 3 :=
  if i.reset then 0
  else trigCntNext i.trigIn (s.trigOut trigRule i.trigGiga) s.trigCntInt

def step (trigRule : BitVec 8) (s : State srl) (i : Input) : State srl where
  fast := fun k => srl.step (s.fast k) i.trigFEn
    (if k = 0 then i.trigFIn else srl.q31 (s.fast (k - 1)))
  dlyTrigF :=
    if s.dlyTrigF then false
    else if i.trigFEn then s.trigOutF trigRule else s.dlyTrigF
  trigCntInt := s.counted trigRule i

/-- The place of the row that is read. -/
def setting (trigRule : BitVec 8) : Nat :=
  (trigRule.extractLsb 6 0).toNat

theorem toNat_trigCntNext {trigIn trigOut : Bool} {cnt : BitVec 3}
    (hroom : trigIn = true → cnt.toNat < 7)
    (hout : trigOut = true → cnt ≠ 0) :
    (trigCntNext trigIn trigOut cnt).toNat + (if trigOut then 1 else 0) =
      cnt.toNat + if trigIn then 1 else 0 := by
  have htable : ∀ (up down : Bool) (x : BitVec 3),
      (up = true → x.toNat < 7) → (down = true → x ≠ 0) →
      (trigCntNext up down x).toNat + (if down then 1 else 0) =
        x.toNat + if up then 1 else 0 := by
    decide
  exact htable trigIn trigOut cnt hroom hout

section Row

variable (s : Nat → State srl) (inp : Nat → Input)

def trigFIn (t : Nat) : Bool :=
  (inp t).trigFIn

def trigFEn (t : Nat) : Bool :=
  (inp t).trigFEn

def trigIn (t : Nat) : Bool :=
  (inp t).trigIn

def dlyTrigF (t : Nat) : Bool :=
  (s t).dlyTrigF

def trigCntInt (t : Nat) : BitVec 3 :=
  (s t).trigCntInt

/-- The four registers as one row. -/
def place (k t : Nat) : Bool :=
  srl.q ((s t).fast (Fin.ofNat 4 (k / 32))) (BitVec.ofNat 5 k)

variable {s inp} {trigRule : BitVec 8}

theorem trigOutF_eq_place (t : Nat) :
    (s t).trigOutF trigRule = place s (setting trigRule) t := by
  have hlt := trigRule.isLt
  have hregister : (trigRule.extractLsb 6 5).toNat =
      setting trigRule / 32 := by
    simp only [setting, BitVec.extractLsb_toNat, Nat.shiftRight_eq_div_pow]
    omega
  have hplace : trigRule.extractLsb 4 0 =
      BitVec.ofNat 5 (setting trigRule) := by
    apply BitVec.eq_of_toNat_eq
    simp only [setting, BitVec.extractLsb_toNat, BitVec.toNat_ofNat,
      Nat.shiftRight_eq_div_pow]
    omega
  rw [State.trigOutF, hregister, hplace, place]

theorem place_init (hinit : s 0 = initial srl) (k : Nat) :
    place s k 0 = false := by
  rw [place, hinit]
  exact srl.q_init _

theorem takes_first (hinit : s 0 = initial srl)
    (hstep : ∀ t, s (t + 1) = step trigRule (s t) (inp t)) :
    Takes (trigFEn inp) (trigFIn inp) (place s 0) where
  init := place_init hinit 0
  succ := by
    intro t
    rw [place, hstep, trigFEn, trigFIn]
    cases hen : (inp t).trigFEn with
    | false =>
        simp only [step, hen]
        exact srl.q_hold _ _ _
    | true =>
        simp only [step, hen]
        exact srl.q_first _ _

/-- Also from the end of a register to the next one. -/
theorem takes_next (hinit : s 0 = initial srl)
    (hstep : ∀ t, s (t + 1) = step trigRule (s t) (inp t))
    {k : Nat} (hk : k + 1 < 128) :
    Takes (trigFEn inp) (place s k) (place s (k + 1)) where
  init := place_init hinit (k + 1)
  succ := by
    intro t
    rw [place, hstep, trigFEn]
    cases hen : (inp t).trigFEn with
    | false =>
        simp only [step, hen]
        exact srl.q_hold _ _ _
    | true =>
        simp only [step, hen, if_true]
        by_cases hend : k % 32 = 31
        · have hfirst : BitVec.ofNat 5 (k + 1) = 0 := by
            apply BitVec.eq_of_toNat_eq
            rw [BitVec.toNat_ofNat, show (0 : BitVec 5).toNat = 0 by rfl]
            omega
          have hlast : BitVec.ofNat 5 k = 31 := by
            apply BitVec.eq_of_toNat_eq
            simp only [BitVec.toNat_ofNat]
            exact hend
          have hne : Fin.ofNat 4 ((k + 1) / 32) ≠ 0 := by
            rw [Ne, Fin.ext_iff, Fin.val_ofNat, Fin.val_zero]
            omega
          have hprev : Fin.ofNat 4 ((k + 1) / 32) - 1 =
              Fin.ofNat 4 (k / 32) := by
            rw [Fin.ext_iff, Fin.sub_def]
            simp only [Fin.val_ofNat, Fin.val_one]
            omega
          rw [hfirst, srl.q_first, if_neg hne, hprev, srl.q31_eq, place, hlast]
        · have hsucc : BitVec.ofNat 5 (k + 1) = BitVec.ofNat 5 k + 1 := by
            apply BitVec.eq_of_toNat_eq
            rw [BitVec.toNat_add, BitVec.toNat_ofNat, BitVec.toNat_ofNat,
              show (1 : BitVec 5).toNat = 1 by rfl]
            omega
          have hne : BitVec.ofNat 5 k ≠ 31 := by
            intro heq
            have := congrArg BitVec.toNat heq
            simp only [BitVec.toNat_ofNat] at this
            exact hend this
          have hsame : (k + 1) / 32 = k / 32 := by
            omega
          rw [hsucc, srl.q_next _ _ _ hne, hsame, place]

theorem place_lags (hinit : s 0 = initial srl)
    (hstep : ∀ t, s (t + 1) = step trigRule (s t) (inp t)) {c : Nat}
    (hen : Spaced c (trigFEn inp)) {k : Nat} (hk : k < 128) :
    Lags (c * (k + 1)) (sampled (trigFEn inp) (trigFIn inp))
      (sampled (trigFEn inp) (place s k)) := by
  induction k with
  | zero =>
      rw [Nat.zero_add, Nat.mul_one]
      exact (takes_first hinit hstep).lags hen
  | succ k ih =>
      rw [Nat.mul_succ]
      exact (ih (by omega)).trans ((takes_next hinit hstep hk).lags hen)

/-- A trigger is counted down no earlier than the enabled clocks of the setting
after it. -/
theorem dlyTrigF_lags (hinit : s 0 = initial srl)
    (hstep : ∀ t, s (t + 1) = step trigRule (s t) (inp t)) {c : Nat}
    (hen : Spaced c (trigFEn inp)) :
    Lags (c * (setting trigRule + 1) + 1)
      (sampled (trigFEn inp) (trigFIn inp)) (dlyTrigF s) := by
  have hsetting : setting trigRule < 128 :=
    (trigRule.extractLsb 6 0).isLt
  refine (place_lags hinit hstep hen hsetting).trans
    (Lags.of_next (by rw [dlyTrigF, hinit]; rfl) fun t hhigh => ?_)
  rw [dlyTrigF, hstep] at hhigh
  rw [sampled, trigFEn, ← trigOutF_eq_place]
  cases hdly : (s t).dlyTrigF <;> cases hen : (inp t).trigFEn <;>
    simp [step, hdly, hen] at hhigh ⊢
  exact hhigh

/-- A row that is always enabled counts down after a fixed time. -/
theorem dlyTrigF_eq (hinit : s 0 = initial srl)
    (hstep : ∀ t, s (t + 1) = step trigRule (s t) (inp t))
    (hen : ∀ t, trigFEn inp t = true) (hspaced : Spaced 2 (trigFIn inp)) :
    dlyTrigF s = delayed (setting trigRule + 2) (trigFIn inp) := by
  have hplace : ∀ k, k < 128 →
      place s k = delayed (k + 1) (trigFIn inp) := by
    intro k hk
    induction k with
    | zero =>
        refine delayed_one_of_succ (place_init hinit 0) fun t => ?_
        rw [(takes_first hinit hstep).succ, hen, if_pos rfl]
    | succ k ih =>
        rw [show k + 1 + 1 = 1 + (k + 1) by omega, ← delayed_delayed,
          ← ih (by omega)]
        refine delayed_one_of_succ (place_init hinit (k + 1)) fun t => ?_
        rw [(takes_next hinit hstep hk).succ, hen, if_pos rfl]
  have hread := hplace (setting trigRule) (trigRule.extractLsb 6 0).isLt
  have hnext : ∀ t, dlyTrigF s (t + 1) =
      if dlyTrigF s t then false
      else delayed (setting trigRule + 1) (trigFIn inp) t := by
    intro t
    have hon : (inp t).trigFEn = true := hen t
    rw [← hread, ← trigOutF_eq_place, dlyTrigF, hstep]
    simp only [step, hon, if_true]
    rfl
  have hstart : dlyTrigF s 0 = false := by
    rw [dlyTrigF, hinit]
    rfl
  rw [show setting trigRule + 2 = 1 + (setting trigRule + 1) by omega,
    ← delayed_delayed]
  refine delayed_one_of_succ hstart fun t => ?_
  rw [hnext]
  cases hnow : dlyTrigF s t with
  | false =>
      rfl
  | true =>
      -- a trigger is not followed by another one at once
      cases t with
      | zero =>
          rw [hstart] at hnow
          exact Bool.noConfusion hnow
      | succ t =>
          rw [if_pos rfl]
          by_contra hagain
          have hbefore : delayed (setting trigRule + 1) (trigFIn inp) t =
              true := by
            rw [hnext] at hnow
            by_contra hlow
            simp [hlow] at hnow
          obtain ⟨hle, hfirst⟩ := delayed_eq_true_iff.mp hbefore
          obtain ⟨-, hsecond⟩ := delayed_eq_true_iff.mp
            (Bool.eq_true_of_not_eq_false (Ne.symm hagain))
          have := hspaced _ _ (by omega) hfirst hsecond
          omega

end Row

section Count

variable {s : Nat → State srl} {inp : Nat → Input} {trigRule : BitVec 8}

/-- The counter holds the triggers that are not counted down yet, as long as the
triggers keep to the rule. -/
theorem trigCntInt_ledger (hfast : trigRule.getLsbD 7 = false)
    (hinit : s 0 = initial srl)
    (hstep : ∀ t, s (t + 1) = step trigRule (s t) (inp t))
    (hreset : ∀ t, (inp t).reset = false) {d n : Nat} (hn : n ≤ 7)
    (hlag : Lags (d + 1) (trigIn inp) (dlyTrigF s))
    (hgate : ∀ t, trigIn inp t = true → (trigCntInt s t).toNat < n) (t : Nat) :
    pulsesIn (trigIn inp) 0 t =
      pulsesIn (dlyTrigF s) 0 t + (trigCntInt s t).toNat := by
  induction t with
  | zero =>
      rw [trigCntInt, hinit]
      rfl
  | succ t ih =>
      have hnext : trigCntInt s (t + 1) =
          trigCntNext (trigIn inp t) (dlyTrigF s t) (trigCntInt s t) := by
        rw [trigCntInt, hstep]
        simp only [step, State.counted, State.trigOut, hreset, hfast,
          Bool.false_eq_true, if_false]
        rfl
      have hcounted : dlyTrigF s t = true → trigCntInt s t ≠ 0 := by
        intro hout hzero
        have hle := hlag.le_before (t := t + 1) (u := t) (by omega)
        rw [pulsesIn_succ _ (Nat.zero_le t), hout, if_pos rfl, ih,
          hzero] at hle
        simp at hle
      have hstepped := toNat_trigCntNext
        (fun hin => (hgate t hin).trans_le hn) hcounted
      rw [pulsesIn_succ _ (Nat.zero_le t), pulsesIn_succ _ (Nat.zero_le t),
        hnext]
      omega

/-- No more than `n` triggers in the time of the rule. -/
theorem pulsesIn_trigIn_le (hfast : trigRule.getLsbD 7 = false)
    (hinit : s 0 = initial srl)
    (hstep : ∀ t, s (t + 1) = step trigRule (s t) (inp t))
    (hreset : ∀ t, (inp t).reset = false) {d n : Nat} (hn : n ≤ 7)
    (hlag : Lags (d + 1) (trigIn inp) (dlyTrigF s))
    (hgate : ∀ t, trigIn inp t = true → (trigCntInt s t).toNat < n) (u : Nat) :
    pulsesIn (trigIn inp) u (u + (d + 2)) ≤ n := by
  refine hlag.pulsesIn_le_of_gate (fun t hin => ?_) u
  have hledger :=
    trigCntInt_ledger hfast hinit hstep hreset hn hlag hgate t
  have hopen := hgate t hin
  omega

/-- The counter of a row that is always enabled: the triggers of the last
clocks. -/
theorem trigCntInt_eq (hfast : trigRule.getLsbD 7 = false)
    (hinit : s 0 = initial srl)
    (hstep : ∀ t, s (t + 1) = step trigRule (s t) (inp t))
    (hreset : ∀ t, (inp t).reset = false)
    (hen : ∀ t, trigFEn inp t = true) (hin : trigFIn inp = trigIn inp)
    (hspaced : Spaced 2 (trigIn inp)) {n : Nat} (hn : n ≤ 7)
    (hgate : ∀ t, trigIn inp t = true → (trigCntInt s t).toNat < n) (t : Nat) :
    (trigCntInt s t).toNat =
      pulsesIn (trigIn inp) (t - (setting trigRule + 2)) t := by
  have hdly := dlyTrigF_eq hinit hstep hen (hin ▸ hspaced)
  rw [hin] at hdly
  have hcounted : ∀ u, pulsesIn (dlyTrigF s) 0 u =
      pulsesIn (trigIn inp) 0 (u - (setting trigRule + 2)) := by
    intro u
    rw [hdly]
    exact pulsesIn_delayed _ _ u
  have hlag : Lags (setting trigRule + 1 + 1) (trigIn inp) (dlyTrigF s) := by
    intro u
    rw [hcounted]
    exact pulsesIn_mono _ (Nat.zero_le _) (by omega)
  have hledger :=
    trigCntInt_ledger hfast hinit hstep hreset hn hlag hgate t
  rw [hcounted, pulsesIn_add _ (Nat.zero_le (t - (setting trigRule + 2)))
    (Nat.sub_le t _)] at hledger
  omega

end Count

end TriggerRule
end MollerFirmware
