import MollerFirmware.Hdl.UwireProgramming

/-!
# How long the programming of the clock chip takes

Every word takes the same time: one clock to ask for it and one to start it, and
67 steps of the lines. With one clock to a step the first step takes two, as
`st_cnt` starts at one.
-/

namespace MollerFirmware
namespace Uwire

open Clocked Lmk04816

/-- Clocks for a word, with `c` clocks to a step of the lines. -/
def wordClocks (c : Nat) : Nat :=
  if c = 1 then 70 else 67 * c + 2

namespace Phase

variable {c numWords left k : Nat}

/-- `st_cnt` when a step begins, but for the first one. -/
def stepStart (c : Nat) : Nat :=
  if c = 1 then 0 else 1

theorem next_send_of_ne {st : Nat} (hst : st ≠ 0) :
    (send left k st).next c numWords =
      send left k (if st < c - 1 then st + 1 else 0) := by
  simp [next, hst]

theorem next_send_zero (hk : k < 66) :
    (send left k 0).next c numWords = send left (k + 1) (stepStart c) := by
  simp [next, stepStart, Nat.ne_of_lt hk]

/-- The last clock of a step. -/
theorem next_wait (hc : 1 ≤ c) :
    (next c numWords)^[c - 1] (send left k (stepStart c)) = send left k 0 := by
  unfold stepStart
  split_ifs with hone
  · rw [hone]
    rfl
  · have hwait : ∀ j, j < c - 1 →
        (next c numWords)^[j] (send left k 1) = send left k (1 + j) := by
      intro j
      induction j with
      | zero => exact fun _ => rfl
      | succ j ih =>
          intro hj
          rw [Function.iterate_succ_apply', ih (by omega),
            next_send_of_ne (by omega), if_pos (by omega), Nat.add_assoc]
    obtain ⟨m, rfl⟩ : ∃ m, c = m + 2 := ⟨c - 2, by omega⟩
    rw [show m + 2 - 1 = m + 1 by omega, Function.iterate_succ_apply',
      hwait m (by omega), next_send_of_ne (by omega), if_neg (by omega)]

theorem next_step (hc : 1 ≤ c) (hk : k < 66) :
    (next c numWords)^[c] (send left k (stepStart c)) =
      send left (k + 1) (stepStart c) := by
  obtain ⟨m, rfl⟩ : ∃ m, c = m + 1 := ⟨c - 1, by omega⟩
  rw [Function.iterate_succ_apply']
  exact (congrArg _ (next_wait hc)).trans (next_send_zero hk)

theorem next_steps (hc : 1 ≤ c) (hk : k ≤ 66) :
    (next c numWords)^[c * k] (send left 0 (stepStart c)) =
      send left k (stepStart c) := by
  induction k with
  | zero => rfl
  | succ k ih =>
      rw [Nat.mul_succ, Nat.add_comm, Function.iterate_add_apply,
        ih (by omega), next_step hc (by omega)]

/-- The last clock of a word. -/
theorem next_word (hc : 1 ≤ c) :
    (next c numWords)^[wordClocks c - 1] (idle (left + 1)) = send left 66 0 := by
  have hfirst : (next c numWords)^[wordClocks c - 67 * c] (idle (left + 1)) =
      send left 0 (stepStart c) := by
    unfold wordClocks stepStart
    split_ifs with hone
    · rw [hone]
      rfl
    · rw [Nat.add_sub_cancel_left]
      rfl
  have hclocks : wordClocks c - 1 =
      (c - 1) + (c * 66 + (wordClocks c - 67 * c)) := by
    unfold wordClocks
    split_ifs <;> omega
  rw [hclocks, Function.iterate_add_apply, Function.iterate_add_apply, hfirst,
    next_steps hc le_rfl, next_wait hc]

end Phase

variable {clkPeriod numWords : Nat}

theorem phaseAt_add (t u : Nat) :
    phaseAt clkPeriod numWords (t + u) =
      (Phase.next (cyclesPerState clkPeriod) numWords)^[u]
        (phaseAt clkPeriod numWords t) := by
  rw [phaseAt, phaseAt, Nat.add_comm, Function.iterate_add_apply]

theorem one_le_wordClocks (c : Nat) : 1 ≤ wordClocks c := by
  unfold wordClocks
  split_ifs <;> omega

/-- When `sent` words have been sent. -/
theorem phaseAt_word (hclk : 1 ≤ clkPeriod) {sent left : Nat}
    (hwords : sent + left = numWords) :
    phaseAt clkPeriod numWords
        (1 + sent * wordClocks (cyclesPerState clkPeriod)) = .idle left := by
  induction sent generalizing left with
  | zero =>
      rw [← hwords, Nat.zero_mul, Nat.zero_add]
      rfl
  | succ sent ih =>
      have hpos := one_le_wordClocks (cyclesPerState clkPeriod)
      have hsum : 1 + (sent + 1) * wordClocks (cyclesPerState clkPeriod) =
          1 + sent * wordClocks (cyclesPerState clkPeriod) +
            (wordClocks (cyclesPerState clkPeriod) - 1) + 1 := by
        rw [Nat.succ_mul]
        omega
      have hsent : sent + (left + 1) = numWords := by omega
      rw [hsum, phaseAt_succ, phaseAt_add, ih hsent,
        Phase.next_word (one_le_cyclesPerState hclk)]
      rfl

/-- Just before the last word has been sent. -/
theorem phaseAt_last (hclk : 1 ≤ clkPeriod) :
    phaseAt clkPeriod numWords
        (numWords * wordClocks (cyclesPerState clkPeriod)) ≠ .idle 0 := by
  cases numWords with
  | zero =>
      rw [Nat.zero_mul]
      exact fun h => Phase.noConfusion h
  | succ n =>
      have hpos := one_le_wordClocks (cyclesPerState clkPeriod)
      have hsum : (n + 1) * wordClocks (cyclesPerState clkPeriod) =
          1 + n * wordClocks (cyclesPerState clkPeriod) +
            (wordClocks (cyclesPerState clkPeriod) - 1) := by
        rw [Nat.succ_mul]
        omega
      have hsent : n + 1 = n + 1 := rfl
      rw [hsum, phaseAt_add, phaseAt_word hclk hsent,
        Phase.next_word (one_le_cyclesPerState hclk)]
      exact fun h => Phase.noConfusion h

theorem phaseAt_idle_iff (hclk : 1 ≤ clkPeriod) (t : Nat) :
    phaseAt clkPeriod numWords t = .idle 0 ↔
      1 + numWords * wordClocks (cyclesPerState clkPeriod) ≤ t := by
  constructor
  · intro hph
    by_contra hearly
    exact phaseAt_last hclk (phaseAt_stays hph (by omega))
  · intro hle
    exact phaseAt_stays (phaseAt_word hclk (Nat.add_zero _)) hle

namespace Run

variable {r : Run clkPeriod numWords}

theorem done_succ_iff (hclk : 1 ≤ clkPeriod) (t : Nat) :
    r.done (t + 1) = true ↔ phaseAt clkPeriod numWords t = .idle 0 := by
  constructor
  · intro hdone
    have hs := simulated (r := r) hclk 0 t
    have hnext := (hs.loader.next hs.chip
      (cyclesPerState clkPeriod)).1
    have hdone' : (Loader.step (r.state t).loader r.words
        (r.state t).chip.ready).done = true := hdone
    cases hph : phaseAt clkPeriod numWords t with
    | fresh =>
        have hready : (r.state t).chip.ready = false := by
          have hchip := hs.chip
          rw [hph] at hchip
          exact Resting.ready hchip
        simp [Loader.step, hready] at hdone'
    | idle left =>
        cases left with
        | zero => rfl
        | succ left =>
            rw [hph] at hnext
            exact absurd (hnext.2.1.symm.trans hdone') (by simp)
    | launch left =>
        rw [hph] at hnext
        exact absurd (hnext.2.1.symm.trans hdone') (by simp)
    | send left k st =>
        have hready : (r.state t).chip.ready = false := by
          have hchip := hs.chip
          rw [hph] at hchip
          exact Sending.ready hchip
        simp [Loader.step, hready] at hdone'
  · exact done_succ hclk

/-- The sequencer gets done in a clock that does not depend on the words. -/
theorem done_iff (hclk : 1 ≤ clkPeriod) (t : Nat) :
    r.done t = true ↔
      2 + numWords * wordClocks (cyclesPerState clkPeriod) ≤ t := by
  cases t with
  | zero =>
      have hlow : r.done 0 = false := rfl
      rw [hlow]
      exact ⟨fun h => absurd h (by simp), fun h => absurd h (by omega)⟩
  | succ t =>
      rw [done_succ_iff hclk, phaseAt_idle_iff hclk]
      omega

end Run

end Uwire
end MollerFirmware
