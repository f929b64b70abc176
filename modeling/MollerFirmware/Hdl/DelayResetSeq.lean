import MollerFirmware.Clocked.Delays

/-!
# delay_reset_seq

The loading of a value into the delay line of an ADC channel. When `load_value`
is not the value at the input of the delay line, it is taken over there, kept
for a while with the voltage and temperature compensation off, loaded by a
strobe of one clock and kept for a while again. Only then is `load_value` looked
at again.

The delay line itself (IDELAYE3) is a primitive; what it takes over at a strobe
is recorded by `lastStrobe`.
-/

namespace MollerFirmware
namespace DelayResetSeq

open Clocked

/-- `DELAY_WAIT` -/
abbrev delayWait : Nat :=
  20

/-- `ST_RESET`, `ST_IDLE`, `ST_START_LOAD`, `ST_LOAD`, `ST_FINISH_LOAD`. -/
inductive SeqState where
  | reset
  | idle
  | startLoad
  | load
  | finishLoad
deriving DecidableEq

/-- Registers of the module. -/
structure State where
  enVtc : Bool
  state : SeqState
  load : Bool
  done : Bool
  stateCount : BitVec 8
  rCurrentValue : BitVec 9

/-- Inputs in one clock. -/
structure Input where
  rdy : Bool
  loadValue : BitVec 9

/-- The registers while `rst` is high. -/
def reset : State :=
  { enVtc := true
    state := .reset
    load := false
    done := false
    stateCount := 0
    rCurrentValue := 0 }

/-- A clock edge with `rst` low. -/
def step (s : State) (i : Input) : State :=
  match s.state with
  | .reset =>
      { state := if i.rdy then .idle else .reset
        enVtc := true
        load := false
        done := false
        stateCount := 0
        rCurrentValue := 0 }
  | .idle =>
      { state := if s.rCurrentValue = i.loadValue then .idle else .startLoad
        enVtc := false
        load := false
        done := decide (s.rCurrentValue = i.loadValue)
        stateCount := BitVec.ofNat 8 delayWait
        rCurrentValue := i.loadValue }
  | .startLoad =>
      { state := if 0 < s.stateCount.toNat then .startLoad else .load
        enVtc := false
        load := false
        done := false
        stateCount := s.stateCount - 1
        rCurrentValue := s.rCurrentValue }
  | .load =>
      { state := .finishLoad
        enVtc := false
        load := true
        done := false
        stateCount := BitVec.ofNat 8 delayWait
        rCurrentValue := s.rCurrentValue }
  | .finishLoad =>
      { state := if 0 < s.stateCount.toNat then .finishLoad else .idle
        enVtc := false
        load := false
        done := false
        stateCount := s.stateCount - 1
        rCurrentValue := s.rCurrentValue }

/-- What the delay line holds: `CNTVALUEIN` of the last strobe, zero after
reset. -/
def watchStrobe (g : BitVec 9) (s : State) (_ : Input) : BitVec 9 :=
  if s.load then s.rCurrentValue else g

/-- A run after reset. -/
structure Run where
  input : Nat → Input

namespace Run

variable (r : Run)

/-- Registers before clock edge `t`. -/
def state (t : Nat) : State :=
  run step DelayResetSeq.reset r.input t

/-- The value of the last strobe before clock `t`. -/
def lastStrobe (t : Nat) : BitVec 9 :=
  observe step watchStrobe DelayResetSeq.reset 0 r.input t

/-- `load` -/
def load (t : Nat) : Bool :=
  (r.state t).load

/-- `done` -/
def done (t : Nat) : Bool :=
  (r.state t).done

/-- `en_vtc` -/
def enVtc (t : Nat) : Bool :=
  (r.state t).enVtc

/-- `r_current_value`, at the input `CNTVALUEIN` of the delay line. -/
def currentValue (t : Nat) : BitVec 9 :=
  (r.state t).rCurrentValue

/-- From clock `a` to clock `t` the compensation is off and the value at the
input of the delay line does not change. -/
def Held (a t : Nat) : Prop :=
  ∀ u, a ≤ u → u ≤ t → r.enVtc u = false ∧ r.currentValue u = r.currentValue t

variable {r}

theorem held_refl {t : Nat} (hvtc : r.enVtc t = false) : r.Held t t := by
  intro u hau hut
  rw [Nat.le_antisymm hut hau]
  exact ⟨hvtc, rfl⟩

theorem Held.next {a t : Nat} (h : r.Held a t)
    (hvtc : r.enVtc (t + 1) = false)
    (hvalue : r.currentValue (t + 1) = r.currentValue t) :
    r.Held a (t + 1) := by
  intro u hau hut
  rcases Nat.le_succ_iff.mp hut with hold | rfl
  · rw [hvalue]
    exact h u hau hold
  · exact ⟨hvtc, rfl⟩

variable (r)

/-- What is known in each state. In the two waiting states the counter tells
since when the value has been held. -/
inductive Where (t : Nat) : Prop
  | reset
      (hstate : (r.state t).state = .reset)
      (hload : r.load t = false)
      (hdone : r.done t = false)
      (hvalue : r.currentValue t = 0)
      (hstrobe : r.lastStrobe t = 0)
  | idle
      (hstate : (r.state t).state = .idle)
      (hload : r.load t = false)
      (hstrobe : r.lastStrobe t = r.currentValue t)
      (hdone : r.done t = true →
        ∃ u, t = u + 1 ∧ r.currentValue t = (r.input u).loadValue)
  | startLoad {a : Nat}
      (hstate : (r.state t).state = .startLoad)
      (hload : r.load t = false)
      (hdone : r.done t = false)
      (hcount : t + (r.state t).stateCount.toNat = a + delayWait)
      (hheld : r.Held a t)
  | loading {a : Nat}
      (hstate : (r.state t).state = .load)
      (hload : r.load t = false)
      (hdone : r.done t = false)
      (ht : t = a + delayWait + 1)
      (hheld : r.Held a t)
  | strobe {a : Nat}
      (hstate : (r.state t).state = .finishLoad)
      (hload : r.load t = true)
      (hdone : r.done t = false)
      (hcount : (r.state t).stateCount = BitVec.ofNat 8 delayWait)
      (ht : t = a + delayWait + 2)
      (hheld : r.Held a t)
  | finishLoad
      (hstate : (r.state t).state = .finishLoad)
      (hload : r.load t = false)
      (hdone : r.done t = false)
      (hstrobe : r.lastStrobe t = r.currentValue t)

theorem lastStrobe_succ (t : Nat) :
    r.lastStrobe (t + 1) =
      if r.load t then r.currentValue t else r.lastStrobe t := by
  rfl

/-- The registers after a clock, each for itself. -/
theorem after (t : Nat) :
    (r.state (t + 1)).state = (step (r.state t) (r.input t)).state ∧
      r.load (t + 1) = (step (r.state t) (r.input t)).load ∧
      r.done (t + 1) = (step (r.state t) (r.input t)).done ∧
      r.enVtc (t + 1) = (step (r.state t) (r.input t)).enVtc ∧
      r.currentValue (t + 1) = (step (r.state t) (r.input t)).rCurrentValue ∧
      (r.state (t + 1)).stateCount =
        (step (r.state t) (r.input t)).stateCount :=
  ⟨rfl, rfl, rfl, rfl, rfl, rfl⟩

/-- Calibration. -/
theorem where_after_reset {t : Nat}
    (hstate : (r.state t).state = .reset) (hload : r.load t = false)
    (hstrobe : r.lastStrobe t = 0) :
    r.Where (t + 1) := by
  have hnext := r.after t
  rw [step, hstate] at hnext
  dsimp only at hnext
  obtain ⟨hstate', hload', hdone', -, hvalue', -⟩ := hnext
  have hzero : r.lastStrobe (t + 1) = 0 := by
    rw [lastStrobe_succ, hload]
    exact hstrobe
  by_cases hrdy : (r.input t).rdy = true
  · rw [if_pos hrdy] at hstate'
    refine .idle hstate' hload' (hzero.trans hvalue'.symm) fun hd => ?_
    rw [hdone'] at hd
    exact absurd hd (by simp)
  · rw [if_neg hrdy] at hstate'
    exact .reset hstate' hload' hdone' hvalue' hzero

/-- The requested value is looked at. -/
theorem where_after_idle {t : Nat}
    (hstate : (r.state t).state = .idle) (hload : r.load t = false)
    (hstrobe : r.lastStrobe t = r.currentValue t) :
    r.Where (t + 1) := by
  have hnext := r.after t
  rw [step, hstate] at hnext
  dsimp only at hnext
  obtain ⟨hstate', hload', hdone', hvtc', hvalue', hcount'⟩ := hnext
  by_cases heq : (r.state t).rCurrentValue = (r.input t).loadValue
  · rw [if_pos heq] at hstate'
    refine .idle hstate' hload' ?_ fun _ => ⟨t, rfl, hvalue'⟩
    rw [lastStrobe_succ, hload, hvalue', ← heq]
    exact hstrobe
  · rw [if_neg heq] at hstate'
    rw [decide_eq_false heq] at hdone'
    refine .startLoad (a := t + 1) hstate' hload' hdone' ?_ (held_refl hvtc')
    rw [hcount']
    rfl

/-- Waiting for the strobe. -/
theorem where_after_startLoad {a t : Nat}
    (hstate : (r.state t).state = .startLoad)
    (hcount : t + (r.state t).stateCount.toNat = a + delayWait)
    (hheld : r.Held a t) :
    r.Where (t + 1) := by
  have hnext := r.after t
  rw [step, hstate] at hnext
  dsimp only at hnext
  obtain ⟨hstate', hload', hdone', hvtc', hvalue', hcount'⟩ := hnext
  have hheld' := hheld.next hvtc' hvalue'
  by_cases hpos : 0 < (r.state t).stateCount.toNat
  · rw [if_pos hpos] at hstate'
    have hpred : (r.state (t + 1)).stateCount.toNat =
        (r.state t).stateCount.toNat - 1 := by
      rw [hcount', toNat_pred fun hzero => ?_]
      rw [hzero] at hpos
      exact absurd hpos (by simp)
    exact .startLoad hstate' hload' hdone' (by omega) hheld'
  · rw [if_neg hpos] at hstate'
    exact .loading hstate' hload' hdone' (by omega) hheld'

/-- The strobe. -/
theorem where_after_loading {a t : Nat}
    (hstate : (r.state t).state = .load) (ht : t = a + delayWait + 1)
    (hheld : r.Held a t) :
    r.Where (t + 1) := by
  have hnext := r.after t
  rw [step, hstate] at hnext
  dsimp only at hnext
  obtain ⟨hstate', hload', hdone', hvtc', hvalue', hcount'⟩ := hnext
  exact .strobe hstate' hload' hdone' hcount' (by omega)
    (hheld.next hvtc' hvalue')

/-- The clock after the strobe. -/
theorem where_after_strobe {t : Nat}
    (hstate : (r.state t).state = .finishLoad) (hload : r.load t = true)
    (hcount : (r.state t).stateCount = BitVec.ofNat 8 delayWait) :
    r.Where (t + 1) := by
  have hnext := r.after t
  rw [step, hstate] at hnext
  dsimp only at hnext
  obtain ⟨hstate', hload', hdone', -, hvalue', -⟩ := hnext
  rw [if_pos (by rw [hcount]; decide)] at hstate'
  refine .finishLoad hstate' hload' hdone' ?_
  rw [lastStrobe_succ, hload]
  exact hvalue'.symm

/-- Waiting after the strobe. -/
theorem where_after_finishLoad {t : Nat}
    (hstate : (r.state t).state = .finishLoad) (hload : r.load t = false)
    (hstrobe : r.lastStrobe t = r.currentValue t) :
    r.Where (t + 1) := by
  have hnext := r.after t
  rw [step, hstate] at hnext
  dsimp only at hnext
  obtain ⟨hstate', hload', hdone', -, hvalue', -⟩ := hnext
  have hstrobe' : r.lastStrobe (t + 1) = r.currentValue (t + 1) := by
    rw [lastStrobe_succ, hload, hvalue']
    exact hstrobe
  by_cases hpos : 0 < (r.state t).stateCount.toNat
  · rw [if_pos hpos] at hstate'
    exact .finishLoad hstate' hload' hdone' hstrobe'
  · rw [if_neg hpos] at hstate'
    refine .idle hstate' hload' hstrobe' fun hd => ?_
    rw [hdone'] at hd
    exact absurd hd (by simp)

theorem where_next {t : Nat} (h : r.Where t) : r.Where (t + 1) := by
  cases h with
  | reset hstate hload hdone hvalue hstrobe =>
      exact r.where_after_reset hstate hload hstrobe
  | idle hstate hload hstrobe hdone =>
      exact r.where_after_idle hstate hload hstrobe
  | startLoad hstate hload hdone hcount hheld =>
      exact r.where_after_startLoad hstate hcount hheld
  | loading hstate hload hdone ht hheld =>
      exact r.where_after_loading hstate ht hheld
  | strobe hstate hload hdone hcount ht hheld =>
      exact r.where_after_strobe hstate hload hcount
  | finishLoad hstate hload hdone hstrobe =>
      exact r.where_after_finishLoad hstate hload hstrobe

theorem where_at (t : Nat) : r.Where t := by
  induction t with
  | zero => exact .reset rfl rfl rfl rfl rfl
  | succ t ih => exact r.where_next ih

/-- After a strobe the counter keeps the value for its whole time. -/
theorem wait_after_strobe {t : Nat}
    (hstate : (r.state t).state = .finishLoad)
    (hcount : (r.state t).stateCount = BitVec.ofNat 8 delayWait)
    {j : Nat} (hj : j ≤ delayWait) :
    (r.state (t + j)).state = .finishLoad ∧
      (r.state (t + j)).stateCount.toNat + j = delayWait ∧
      r.currentValue (t + j) = r.currentValue t := by
  induction j with
  | zero => exact ⟨hstate, congrArg BitVec.toNat hcount, rfl⟩
  | succ j ih =>
      obtain ⟨hst, hcnt, hvalue⟩ := ih (by omega)
      have hpos : 0 < (r.state (t + j)).stateCount.toNat := by omega
      have hne : (r.state (t + j)).stateCount ≠ 0 := by
        intro hzero
        rw [hzero] at hpos
        exact absurd hpos (by simp)
      have hnext : r.state (t + (j + 1)) =
          step (r.state (t + j)) (r.input (t + j)) := rfl
      rw [step, hst] at hnext
      dsimp only at hnext
      rw [if_pos hpos] at hnext
      refine ⟨congrArg State.state hnext, ?_,
        (congrArg State.rCurrentValue hnext).trans hvalue⟩
      rw [hnext, toNat_pred hne]
      omega

/-- **The load protocol is kept.** A strobe lasts one clock; the compensation
has been off and the value unchanged for twenty clocks before it, and the value
stays for twenty clocks after it. When `done` is high, the value of the last
strobe is the one at the input of the delay line, and the one that was asked
for in the clock before. -/
theorem load_protocol (t : Nat) :
    (r.load t = true →
      r.load (t + 1) = false ∧
      (∀ j, j ≤ 20 → j ≤ t ∧ r.enVtc (t - j) = false ∧
        r.currentValue (t - j) = r.currentValue t) ∧
      ∀ j, j ≤ 20 → r.currentValue (t + j) = r.currentValue t) ∧
    (r.done t = true →
      r.lastStrobe t = r.currentValue t ∧
      ∃ u, t = u + 1 ∧ r.currentValue t = (r.input u).loadValue) := by
  have hwait : delayWait = 20 := rfl
  have hnot : ∀ {b : Bool}, b = false → ¬ b = true := by
    intro b hb
    simp [hb]
  rcases r.where_at t with ⟨_, hload, hdone, _, _⟩ | ⟨_, hload, hstrobe, hdone⟩ |
    ⟨_, hload, hdone, _, _⟩ | ⟨_, hload, hdone, _, _⟩ |
    @⟨a, hstate, _, hdone, hcount, ht, hheld⟩ | ⟨_, hload, hdone, _⟩
  · exact ⟨fun h => absurd h (hnot hload), fun h => absurd h (hnot hdone)⟩
  · exact ⟨fun h => absurd h (hnot hload), fun h => ⟨hstrobe, hdone h⟩⟩
  · exact ⟨fun h => absurd h (hnot hload), fun h => absurd h (hnot hdone)⟩
  · exact ⟨fun h => absurd h (hnot hload), fun h => absurd h (hnot hdone)⟩
  · refine ⟨fun _ => ⟨?_, fun j hj => ⟨by omega, hheld (t - j) (by omega)
      (by omega)⟩, fun j hj => (r.wait_after_strobe hstate hcount hj).2.2⟩,
      fun h => absurd h (hnot hdone)⟩
    show (step (r.state t) (r.input t)).load = false
    rw [step, hstate]
  · exact ⟨fun h => absurd h (hnot hload), fun h => absurd h (hnot hdone)⟩

/-- The value seven is asked for from the third clock on. -/
def sevenRequested : Run :=
  { input := fun t => ⟨true, if t < 3 then 0 else 7⟩ }

theorem load_protocol_sevenRequested :
    sevenRequested.lastStrobe 48 = 7 ∧ sevenRequested.load 27 = false := by
  have hdone : sevenRequested.done 48 = true := by decide +kernel
  have hload : sevenRequested.load 26 = true := by decide +kernel
  obtain ⟨hstrobe, u, hu, hvalue⟩ :=
    (sevenRequested.load_protocol 48).2 hdone
  refine ⟨hstrobe.trans (hvalue.trans ?_),
    ((sevenRequested.load_protocol 26).1 hload).1⟩
  obtain rfl : u = 47 := by omega
  rfl

end Run

end DelayResetSeq
end MollerFirmware
