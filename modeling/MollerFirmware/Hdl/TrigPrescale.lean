import MollerFirmware.Clocked.Windows

/-!
# TrigPrescale: one trigger out of many

The rate of the output is to be that of the input divided by `PreScale + 1`. The
counter counts the triggers and is cleared by the output. But the output
register takes the input only while the counter equals `PreScale`. When the
output has risen the counter has moved on, and from then on it is held at zero,
so that with a prescale other than zero the output never falls again.
-/

namespace MollerFirmware
namespace TrigPrescale

open Clocked

structure Input where
  trigIn : Bool
  preScale : BitVec 16
  reset : Bool

structure State where
  trigOutInt : Bool
  counter : BitVec 16

def initial : State where
  trigOutInt := false
  counter := 0

def step (s : State) (i : Input) : State where
  trigOutInt :=
    if i.reset then false
    else if s.counter ^^^ ~~~i.preScale = BitVec.allOnes 16 then i.trigIn
    else s.trigOutInt
  counter :=
    if i.reset || s.trigOutInt then 0
    else if i.trigIn then s.counter + 1 else s.counter

section Runs

variable (inp : Nat → Input)

def state (t : Nat) : State :=
  run step initial inp t

/-- `TrigOut` -/
def trigOut (t : Nat) : Bool :=
  (state inp t).trigOutInt

def trigIn (t : Nat) : Bool :=
  (inp t).trigIn

theorem xnor_eq_allOnes_iff (x y : BitVec 16) :
    x ^^^ ~~~y = BitVec.allOnes 16 ↔ x = y := by
  rw [← BitVec.not_xor_right]
  constructor
  · intro h
    have hzero : x ^^^ y = 0#16 := by
      rw [← BitVec.not_not (b := x ^^^ y), h, BitVec.not_allOnes]
    exact BitVec.xor_eq_zero_iff.mp hzero
  · rintro rfl
    rw [BitVec.xor_self, BitVec.not_zero]

/-- The registers after `n` triggers: before and after the output has risen. -/
def Stage (p : BitVec 16) (n : Nat) (s : State) : Prop :=
  if n ≤ p.toNat then s.trigOutInt = false ∧ s.counter.toNat = n
  else s.trigOutInt = true ∧ (s.counter = p + 1 ∨ s.counter = 0)

/-- The clocks before the output rises. -/
theorem Stage.step_waiting {p : BitVec 16} {n : Nat} {s : State}
    (h : Stage p n s) (hn : n ≤ p.toNat) {i : Input} (hreset : i.reset = false)
    (hscale : i.preScale = p) :
    Stage p (n + if i.trigIn then 1 else 0) (step s i) := by
  rw [Stage, if_pos hn] at h
  obtain ⟨hlow, hcount⟩ := h
  have hout : (step s i).trigOutInt =
      if s.counter = p then i.trigIn else false := by
    simp only [step, hreset, hscale, hlow, xnor_eq_allOnes_iff]
    rfl
  have hnext : (step s i).counter =
      if i.trigIn then s.counter + 1 else s.counter := by
    simp only [step, hreset, hlow]
    rfl
  have heq : s.counter = p ↔ n = p.toNat := by
    rw [← hcount]
    exact BitVec.toNat_inj.symm
  unfold Stage
  rw [hout, hnext]
  cases i.trigIn with
  | false =>
      rw [if_neg Bool.false_ne_true, if_neg Bool.false_ne_true, Nat.add_zero,
        if_pos hn, ite_self]
      exact ⟨rfl, hcount⟩
  | true =>
      rw [if_pos rfl, if_pos rfl]
      by_cases hlast : n = p.toNat
      · rw [if_neg (by omega), if_pos (heq.mpr hlast), heq.mpr hlast]
        exact ⟨rfl, Or.inl rfl⟩
      · have hp := p.isLt
        rw [if_pos (by omega), if_neg (fun h => hlast (heq.mp h)), ← hcount]
        refine ⟨rfl, ?_⟩
        rw [BitVec.toNat_add]
        exact Nat.mod_eq_of_lt (by rw [hcount]; simp; omega)

/-- Once the output has risen nothing but a reset changes it. -/
theorem Stage.step_risen {p : BitVec 16} {n : Nat} {s : State}
    (h : Stage p n s) (hn : ¬ n ≤ p.toNat) (hp : p ≠ 0) {i : Input}
    (hreset : i.reset = false) (hscale : i.preScale = p) :
    Stage p (n + if i.trigIn then 1 else 0) (step s i) := by
  rw [Stage, if_neg hn] at h
  obtain ⟨hhigh, hcounter⟩ := h
  have hne : s.counter ≠ p := by
    rcases hcounter with hnext | hzero
    · rw [hnext]
      bv_omega
    · rw [hzero]
      exact fun h => hp h.symm
  rw [Stage, if_neg (by omega)]
  constructor
  · simp only [step, hreset, hscale, xnor_eq_allOnes_iff, if_neg hne, hhigh]
    rfl
  · right
    simp [step, hhigh]

theorem Stage.step {p : BitVec 16} {n : Nat} {s : State} (h : Stage p n s)
    (hp : p ≠ 0) {i : Input} (hreset : i.reset = false)
    (hscale : i.preScale = p) :
    Stage p (n + if i.trigIn then 1 else 0) (TrigPrescale.step s i) := by
  by_cases hn : n ≤ p.toNat
  · exact h.step_waiting hn hreset hscale
  · exact h.step_risen hn hp hreset hscale

/-- With a prescale `p` other than zero the output rises with the trigger
`p + 1` after a reset and stays high until the next one. -/
theorem trigOut_stays {p : BitVec 16} (hp : p ≠ 0) {a t : Nat} (hat : a < t)
    (hreset : (inp a).reset = true)
    (hrun : ∀ u, a < u → u < t →
      (inp u).reset = false ∧ (inp u).preScale = p) :
    trigOut inp t = true ↔ p.toNat < pulsesIn (trigIn inp) (a + 1) t := by
  have hstage : ∀ k, a + 1 + k ≤ t →
      Stage p (pulsesIn (trigIn inp) (a + 1) (a + 1 + k))
        (state inp (a + 1 + k)) := by
    intro k
    induction k with
    | zero =>
        intro _
        have hstate : state inp (a + 1) = TrigPrescale.step (state inp a) (inp a) :=
          rfl
        rw [Nat.add_zero, pulsesIn_self, Stage, if_pos (Nat.zero_le _), hstate]
        simp [TrigPrescale.step, hreset]
    | succ k ih =>
        intro hk
        obtain ⟨hlow, hscale⟩ := hrun (a + 1 + k) (by omega) (by omega)
        rw [← Nat.add_assoc, pulsesIn_succ _ (by omega)]
        exact (ih (by omega)).step hp hlow hscale
  obtain ⟨k, rfl⟩ : ∃ k, t = a + 1 + k := ⟨t - (a + 1), by omega⟩
  have hnow := hstage k (le_refl _)
  unfold Stage at hnow
  split_ifs at hnow with hle
  · rw [trigOut, hnow.1]
    constructor
    · intro h
      exact Bool.noConfusion h
    · omega
  · rw [trigOut, hnow.1]
    constructor
    · omega
    · intro _
      rfl

/-- A trigger in every clock, to be divided by two. -/
theorem trigOut_stays_halved :
    trigOut (fun u => ⟨true, 1, decide (u = 0)⟩) 7 = true := by
  refine (trigOut_stays _ (p := 1) (a := 0) (by decide) (by decide) rfl
    fun u hu _ => ⟨decide_eq_false (by omega), rfl⟩).mpr ?_
  decide

end Runs

end TrigPrescale
end MollerFirmware
