import MollerFirmware.Clocked.Lags

/-!
# TriggerClock: triggers for a slower enable

A trigger is stored in a FIFO. While the FIFO holds one, a pulse is sent that a
reader with the enable `ClockEn` sees in one enabled clock, and then the trigger
is taken from the FIFO.

The clock has two edges. A state is the one in the first half of a clock; a step
is the falling edge in its middle and the rising edge at its end.
-/

namespace MollerFirmware
namespace TriggerClock

open Clocked

/-- The generated FIFO `TrigDelayFifo`, of which only `empty` is used. A word is
read in a clock with `rd_en` and not `empty`. -/
structure TrigDelayFifo where
  State : Type
  init : State
  step : State → (rst wrEn rdEn : Bool) → State
  empty : State → Bool
  stored : State → Nat
  stored_init : stored init = 0
  stored_step : ∀ s rst wrEn rdEn,
    stored (step s rst wrEn rdEn) + (if rdEn && !empty s then 1 else 0) ≤
      stored s + if wrEn then 1 else 0
  stored_pos : ∀ s, empty s = false → 0 < stored s
  stays : ∀ s wrEn, empty s = false → empty (step s false wrEn false) = false

variable {fifo : TrigDelayFifo}

structure State (fifo : TrigDelayFifo) where
  fifo : fifo.State
  trigRise : Bool
  trigFall : Bool
  preTrigOut : Bool
  trigOutInt : Bool
  trigOutRst : Bool

structure Input where
  trigIn : Bool
  clockEn : Bool
  reset : Bool

def initial (fifo : TrigDelayFifo) : State fifo where
  fifo := fifo.init
  trigRise := false
  trigFall := false
  preTrigOut := false
  trigOutInt := false
  trigOutRst := false

/-- `TrigFall` after the falling edge. -/
def State.fall (s : State fifo) : Bool :=
  !s.trigOutRst && (s.trigFall || !fifo.empty s.fifo)

/-- `TrigOutRst` clears `TrigRise` and `TrigFall` as long as it is high. -/
def step (s : State fifo) (i : Input) : State fifo :=
  let trigOutRst := !s.trigOutRst && (i.clockEn && s.trigOutInt)
  { fifo := fifo.step s.fifo i.reset i.trigIn s.trigOutRst
    trigRise := !s.trigOutRst && !trigOutRst &&
      (s.trigRise || !fifo.empty s.fifo)
    trigFall := !trigOutRst && s.fall
    preTrigOut := !s.trigOutRst &&
      if i.clockEn then s.trigRise || s.fall else s.preTrigOut
    trigOutInt := !s.trigOutRst &&
      if i.clockEn then s.preTrigOut else s.trigOutInt
    trigOutRst := trigOutRst }

section Runs

variable (s : Nat → State fifo) (inp : Nat → Input)

/-- Triggers, enabled clocks and the pulses that are seen in them. -/
def trigIn (t : Nat) : Bool :=
  (inp t).trigIn

def clockEn (t : Nat) : Bool :=
  (inp t).clockEn

def seen : Nat → Bool :=
  sampled (clockEn inp) fun t => (s t).trigOutInt

def trigOutRst (t : Nat) : Bool :=
  (s t).trigOutRst

/-- Written triggers that are not read yet, with the enabled clocks in which one
of them was passed on. -/
structure Served (t : Nat) : Prop where
  books : fifo.stored (s t).fifo + pulsesIn (trigOutRst s) 0 t ≤
    pulsesIn (trigIn inp) 0 t
  held : ((s t).trigRise || (s t).trigFall || (s t).preTrigOut ||
    (s t).trigOutInt || (s t).trigOutRst) = true →
      fifo.empty (s t).fifo = false
  flag : ((s t).trigRise || (s t).trigFall) = true →
    pulsesIn (trigOutRst s) 0 t < pulsesIn (trigIn inp) 0 t
  pre : (s t).preTrigOut = true → ∃ a < t, clockEn inp a = true ∧
    pulsesIn (trigOutRst s) 0 t < pulsesIn (trigIn inp) 0 a
  out : (s t).trigOutInt = true → ∃ b < t, clockEn inp b = true ∧
    ∃ a < b, clockEn inp a = true ∧
      pulsesIn (trigOutRst s) 0 t < pulsesIn (trigIn inp) 0 a

variable {s inp}

theorem fifo_succ {t : Nat} (hstep : s (t + 1) = step (s t) (inp t)) :
    (s (t + 1)).fifo = fifo.step (s t).fifo (inp t).reset (trigIn inp t)
      (trigOutRst s t) := by
  rw [hstep]
  rfl

/-- While a trigger is not read. -/
theorem Served.next_of_waiting {t : Nat} (h : Served s inp t)
    (hstep : s (t + 1) = step (s t) (inp t))
    (hreset : (inp t).reset = false) (hrst : (s t).trigOutRst = false) :
    Served s inp (t + 1) := by
  have hread : pulsesIn (trigOutRst s) 0 (t + 1) =
      pulsesIn (trigOutRst s) 0 t := by
    rw [pulsesIn_succ _ (Nat.zero_le t), trigOutRst, hrst,
      if_neg Bool.false_ne_true, Nat.add_zero]
  have hmono : pulsesIn (trigIn inp) 0 t ≤ pulsesIn (trigIn inp) 0 (t + 1) :=
    pulsesIn_mono _ (Nat.zero_le t) (Nat.le_succ t)
  -- a trigger in the FIFO was written
  have hfull : fifo.empty (s t).fifo = false →
      pulsesIn (trigOutRst s) 0 t < pulsesIn (trigIn inp) 0 t := by
    intro hempty
    have hpos := fifo.stored_pos _ hempty
    have hbooks := h.books
    omega
  have hflag : ((s t).trigRise || (s t).fall) = true →
      fifo.empty (s t).fifo = false ∧
        pulsesIn (trigOutRst s) 0 t < pulsesIn (trigIn inp) 0 t := by
    intro hup
    cases hempty : fifo.empty (s t).fifo with
    | false =>
        exact ⟨rfl, hfull hempty⟩
    | true =>
        have hset : ((s t).trigRise || (s t).trigFall) = true := by
          simpa [State.fall, hrst, hempty] using hup
        have hheld := h.held (by rw [hset]; rfl)
        rw [hempty] at hheld
        exact Bool.noConfusion hheld
  constructor
  · have hstored := fifo.stored_step (s t).fifo (inp t).reset
      (trigIn inp t) (trigOutRst s t)
    have hbooks := h.books
    have hlow : (trigOutRst s t && !fifo.empty (s t).fifo) = false := by
      rw [trigOutRst, hrst]
      rfl
    rw [hlow, if_neg Bool.false_ne_true, Nat.add_zero] at hstored
    rw [hread, pulsesIn_succ _ (Nat.zero_le t), fifo_succ hstep]
    omega
  · intro hup
    have hnow : fifo.empty (s t).fifo = false := by
      by_contra hempty
      rw [hstep] at hup
      have hnone : ((s t).trigRise || (s t).trigFall || (s t).preTrigOut ||
          (s t).trigOutInt || (s t).trigOutRst) = false := by
        by_contra hsome
        exact hempty (h.held (Bool.eq_true_of_not_eq_false hsome))
      simp only [Bool.or_eq_false_iff] at hnone
      obtain ⟨⟨⟨⟨hrise, hfall⟩, hpre⟩, hout⟩, -⟩ := hnone
      simp [step, State.fall, hrise, hfall, hpre, hout, hempty] at hup
    rw [hstep]
    simp only [step, hreset, hrst]
    exact fifo.stays _ _ hnow
  · intro hup
    rw [hread]
    refine lt_of_lt_of_le (hflag ?_).2 hmono
    rw [hstep] at hup
    simp only [step, hrst, Bool.not_false, Bool.true_and] at hup
    by_contra hlow
    have hrise : (s t).trigRise = false ∧ (s t).fall = false := by
      simpa using hlow
    have hempty : fifo.empty (s t).fifo = true := by
      have := hrise.2
      simp [State.fall, hrst] at this
      exact this.2
    simp [hrise.1, hrise.2, hempty] at hup
  · intro hup
    rw [hread]
    rw [hstep] at hup
    simp only [step, hrst, Bool.not_false, Bool.true_and] at hup
    cases hen : (inp t).clockEn with
    | true =>
        rw [hen, if_pos rfl] at hup
        exact ⟨t, Nat.lt_succ_self t, hen, (hflag hup).2⟩
    | false =>
        rw [hen, if_neg Bool.false_ne_true] at hup
        obtain ⟨a, hat, ha⟩ := h.pre hup
        exact ⟨a, Nat.lt_succ_of_lt hat, ha⟩
  · intro hup
    rw [hread]
    rw [hstep] at hup
    simp only [step, hrst, Bool.not_false, Bool.true_and] at hup
    cases hen : (inp t).clockEn with
    | true =>
        rw [hen, if_pos rfl] at hup
        exact ⟨t, Nat.lt_succ_self t, hen, h.pre hup⟩
    | false =>
        rw [hen, if_neg Bool.false_ne_true] at hup
        obtain ⟨b, hbt, hb⟩ := h.out hup
        exact ⟨b, Nat.lt_succ_of_lt hbt, hb⟩

/-- The clock in which a trigger is read. -/
theorem Served.next_of_read {t : Nat} (h : Served s inp t)
    (hstep : s (t + 1) = step (s t) (inp t))
    (hrst : (s t).trigOutRst = true) :
    Served s inp (t + 1) := by
  have hnow : fifo.empty (s t).fifo = false :=
    h.held (by rw [hrst, Bool.or_true])
  constructor
  · have hstored := fifo.stored_step (s t).fifo (inp t).reset
      (trigIn inp t) (trigOutRst s t)
    have hbooks := h.books
    have hhigh : trigOutRst s t = true := hrst
    rw [hnow, hhigh, if_pos (by rfl)] at hstored
    rw [pulsesIn_succ _ (Nat.zero_le t), pulsesIn_succ _ (Nat.zero_le t),
      fifo_succ hstep, hhigh, if_pos rfl]
    omega
  all_goals
    intro hup
    rw [hstep] at hup
    simp [step, State.fall, hrst] at hup

theorem served (hinit : s 0 = initial fifo)
    (hstep : ∀ t, s (t + 1) = step (s t) (inp t))
    (hreset : ∀ t, (inp t).reset = false) (t : Nat) :
    Served s inp t := by
  induction t with
  | zero =>
      constructor
      · rw [hinit]
        simp [initial, fifo.stored_init]
      all_goals
        intro hup
        rw [hinit] at hup
        simp [initial] at hup
  | succ t ih =>
      cases hrst : (s t).trigOutRst with
      | false =>
          exact ih.next_of_waiting (hstep t) (hreset t) hrst
      | true =>
          exact ih.next_of_read (hstep t) hrst

/-- Each pulse that is seen is read as the next trigger. -/
theorem read_of_seen (hinit : s 0 = initial fifo)
    (hstep : ∀ t, s (t + 1) = step (s t) (inp t)) {c : Nat} (hc : 2 ≤ c)
    (hen : Spaced c (clockEn inp)) (t : Nat) :
    trigOutRst s (t + 1) = seen s inp t := by
  have hnext : ∀ u, trigOutRst s (u + 1) =
      (!trigOutRst s u && seen s inp u) := by
    intro u
    rw [trigOutRst, hstep]
    rfl
  rw [hnext]
  cases hseen : seen s inp t with
  | false =>
      exact Bool.and_false _
  | true =>
      suffices trigOutRst s t = false by rw [this]; rfl
      cases t with
      | zero =>
          rw [trigOutRst, hinit]
          rfl
      | succ t =>
          by_contra hrst
          rw [hnext, Bool.not_eq_false, Bool.and_eq_true] at hrst
          have hdist := hen t (t + 1) (Nat.lt_succ_self t)
            (Bool.and_elim_left hrst.2) (Bool.and_elim_left hseen)
          omega

variable (s inp) in
/-- A trigger is seen no earlier than two enabled clocks and one clock after
it. -/
theorem seen_lags (hinit : s 0 = initial fifo)
    (hstep : ∀ t, s (t + 1) = step (s t) (inp t))
    (hreset : ∀ t, (inp t).reset = false) {c : Nat} (hc : 2 ≤ c)
    (hen : Spaced c (clockEn inp)) :
    Lags (2 * c + 1) (trigIn inp) (seen s inp) := by
  have hread := read_of_seen hinit hstep hc hen
  have hcount : ∀ t, pulsesIn (trigOutRst s) 0 (t + 1) =
      pulsesIn (seen s inp) 0 t := by
    intro t
    have hfirst : pulsesIn (trigOutRst s) 0 1 = 0 := by
      rw [pulsesIn_succ _ (le_refl 0), pulsesIn_self, trigOutRst, hinit]
      rfl
    rw [pulsesIn_add _ (Nat.zero_le 1) (Nat.le_add_left 1 t), hfirst,
      Nat.zero_add]
    exact pulsesIn_delay hread 0 t
  intro t
  rcases Nat.eq_zero_or_pos (pulsesIn (seen s inp) 0 (t + (2 * c + 1)))
    with hzero | hpos
  · rw [hzero]
    exact Nat.zero_le _
  · obtain ⟨e, -, het, hpulse, hnth⟩ :=
      exists_pulse (seen s inp) hpos (le_refl _)
    obtain ⟨b, hbe, hb, a, hab, ha, hwritten⟩ :=
      (served hinit hstep hreset e).out (Bool.and_elim_right hpulse)
    have hfar := hen b e hbe hb (Bool.and_elim_left hpulse)
    have hfirst := hen a b hab ha hb
    have hsame : pulsesIn (trigOutRst s) 0 (e + 1) =
        pulsesIn (trigOutRst s) 0 e := by
      rw [pulsesIn_succ _ (Nat.zero_le e)]
      suffices trigOutRst s e = false by rw [this]; rfl
      cases e with
      | zero =>
          exact absurd hbe (Nat.not_lt_zero b)
      | succ e =>
          rw [hread]
          by_contra hseen
          have hdist := hen e (e + 1) (Nat.lt_succ_self e)
            (Bool.and_elim_left (Bool.eq_true_of_not_eq_false hseen))
            (Bool.and_elim_left hpulse)
          omega
    have hmono : pulsesIn (trigIn inp) 0 a ≤ pulsesIn (trigIn inp) 0 t :=
      pulsesIn_mono _ (Nat.zero_le a) (by omega)
    rw [← hnth, ← hcount, hsame]
    omega

end Runs

end TriggerClock
end MollerFirmware
