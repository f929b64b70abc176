import MollerFirmware.Memory.LongestRuns
import Mathlib.Data.BitVec

/-!
# task_cmd: calibration of the ADC input delays

`adc_init` counts the errors of every channel at each of the 512 delays and then
gives each channel the delay `find_mid_of_longest_run` makes of its counters.

The places of the array and the lengths of runs are natural numbers: they do not
exceed the number of counters, so that the 32 bit variables do not overflow.
-/

namespace MollerFirmware
namespace TaskCmd

open Memory

/-- Variables of the loop of `find_mid_of_longest_run`. -/
structure Scan where
  run : Nat
  pos : Nat
  maxPos : Nat
  maxRun : Nat

/-- `if(max_run < run) { max_pos = pos; max_run = run; }` -/
def Scan.closeRun (s : Scan) : Scan :=
  { s with
    maxPos := if s.maxRun < s.run then s.pos else s.maxPos
    maxRun := if s.maxRun < s.run then s.run else s.maxRun }

/-- The body of the loop for the counter at `cur`. -/
def Scan.next (s : Scan) (cur : Nat) (errors : BitVec 32) : Scan :=
  if errors = 0 then
    { s with
      pos := if s.run = 0 then cur else s.pos
      run := s.run + 1 }
  else { s.closeRun with run := 0 }

/-- The loop over the first `n` counters. -/
def scan (channelErrors : Nat → BitVec 32) : Nat → Scan
  | 0 => ⟨0, 0, 0, 0⟩
  | cur + 1 => (scan channelErrors cur).next cur (channelErrors cur)

/-- `find_mid_of_longest_run`; `n` is 512 in the source. -/
def findMidOfLongestRun (channelErrors : Nat → BitVec 32) (n : Nat) : Nat :=
  (scan channelErrors n).closeRun.maxPos +
    (scan channelErrors n).closeRun.maxRun / 2

variable (channelErrors : Nat → BitVec 32) (n : Nat)

/-- No errors were counted at a tap. -/
def Clean (i : Nat) : Prop :=
  channelErrors i = 0

/-- What the variables say after `n` counters: `run` is the length of the clean
tail and `pos` its start, and the best of the runs closed so far is kept. -/
structure Scanned (s : Scan) : Prop where
  tail : TailLength (Clean channelErrors) n s.run
  pos : 0 < s.run → s.pos = n - s.run
  best : Best (IsClosed (Clean channelErrors) n) s.maxPos s.maxRun

variable {channelErrors n}

/-- The best of the closed runs starts before the tail. -/
theorem Scanned.maxPos_le {s : Scan} (h : Scanned channelErrors n s) :
    s.maxPos ≤ n - s.run := by
  rcases Nat.eq_zero_or_pos s.maxRun with hzero | hpos
  · rw [h.best.none hzero]
    exact Nat.zero_le _
  · have hclosed := h.best.mem hpos
    by_contra hlate
    exact hclosed.right
      (h.tail.inside _ (by omega) hclosed.lt)

/-- Closing the run takes the tail into account. -/
theorem Scanned.closeRun {s : Scan} (h : Scanned channelErrors n s)
    {R : Nat → Nat → Prop}
    (hR : ∀ s' l', R s' l' ↔
      IsClosed (Clean channelErrors) n s' l' ∨
        (0 < s.run ∧ s' = n - s.run ∧ l' = s.run)) :
    Best R s.closeRun.maxPos s.closeRun.maxRun := by
  have hbest := h.best.insert h.maxPos_le hR
  unfold Scan.closeRun
  dsimp only
  by_cases hless : s.maxRun < s.run
  · rw [if_pos hless, if_pos hless, h.pos (by omega)]
    rw [if_pos hless, if_pos hless] at hbest
    exact hbest
  · rw [if_neg hless, if_neg hless] at hbest ⊢
    exact hbest

theorem Scanned.next {s : Scan} (h : Scanned channelErrors n s) :
    Scanned channelErrors (n + 1) (s.next n (channelErrors n)) := by
  unfold Scan.next
  by_cases hclean : channelErrors n = 0
  · rw [if_pos hclean]
    refine ⟨h.tail.succ hclean, fun _ => ?_, ?_⟩
    · by_cases hstart : s.run = 0
      · simp only [hstart, if_true]
        omega
      · simp only [hstart, if_false]
        rw [h.pos (by omega)]
        omega
    · have hsame : IsClosed (Clean channelErrors) (n + 1) =
          IsClosed (Clean channelErrors) n := by
        funext s' l'
        exact propext (isClosed_succ_of_good hclean s' l')
      rw [hsame]
      exact h.best
  · rw [if_neg hclean]
    refine ⟨.reset hclean, fun hpos => absurd hpos (by simp), ?_⟩
    exact h.closeRun (isClosed_succ_of_not h.tail hclean)

theorem scanned (channelErrors : Nat → BitVec 32) (n : Nat) :
    Scanned channelErrors n (scan channelErrors n) := by
  induction n with
  | zero =>
      exact ⟨.zero, fun hpos => absurd hpos (by simp [scan]),
        fun hpos => absurd hpos (by simp [scan]), fun _ => rfl,
        fun s' l' hc => absurd hc.lt (by omega)⟩
  | succ n ih => exact ih.next

/-- The variables at the end are the best run of all. -/
theorem best_closeRun (channelErrors : Nat → BitVec 32) (n : Nat) :
    Best (IsRun (Clean channelErrors) n)
      (scan channelErrors n).closeRun.maxPos
      (scan channelErrors n).closeRun.maxRun :=
  (scanned channelErrors n).closeRun (isRun_iff (scanned channelErrors n).tail)

/-- **The middle of the longest clean window.** If any of the first `n` taps is
clean, the result is the middle of the first among the longest runs of clean
taps, and a clean tap itself; otherwise it is zero. -/
theorem findMidOfLongestRun_spec (channelErrors : Nat → BitVec 32) {n : Nat}
    (hn : 1 ≤ n) :
    findMidOfLongestRun channelErrors n < n ∧
    ((∃ i, i < n ∧ Clean channelErrors i) →
      Clean channelErrors (findMidOfLongestRun channelErrors n) ∧
      ∃ start len, IsRun (Clean channelErrors) n start len ∧
        (∀ start' len', IsRun (Clean channelErrors) n start' len' →
          len' < len ∨ (len' = len ∧ start ≤ start')) ∧
        findMidOfLongestRun channelErrors n = start + len / 2) ∧
    ((∀ i, i < n → ¬ Clean channelErrors i) →
      findMidOfLongestRun channelErrors n = 0) := by
  have hbest := best_closeRun channelErrors n
  unfold findMidOfLongestRun
  generalize (scan channelErrors n).closeRun.maxPos = start at hbest
  generalize (scan channelErrors n).closeRun.maxRun = len at hbest
  refine ⟨?_, ?_, ?_⟩
  · rcases Nat.eq_zero_or_pos len with rfl | hpos
    · rw [hbest.none rfl]
      omega
    · have hle := (hbest.mem hpos).le
      omega
  · rintro ⟨i, hi, hclean⟩
    obtain ⟨s, l, hr⟩ := exists_isRun hi hclean
    have hpos : 0 < len := by
      have hl := hr.pos
      rcases hbest.first s l hr with hlt | ⟨heq, _⟩ <;> omega
    have hrun := hbest.mem hpos
    exact ⟨hrun.inside _ (by omega) (by omega), start, len, hrun, hbest.first,
      rfl⟩
  · intro hnone
    have hzero : len = 0 := by
      by_contra hne
      have hrun := hbest.mem (by omega)
      have hle := hrun.le
      have hpos := hrun.pos
      exact hnone start (by omega) (hrun.inside start (le_refl _) (by omega))
    rw [hzero, hbest.none hzero]

/-- Two clean windows of three taps, the second one at the end. -/
def twoWindows (i : Nat) : BitVec 32 :=
  if i < 2 ∨ i = 5 then 7 else 0

theorem findMidOfLongestRun_spec_twoWindows :
    1 ≤ 9 ∧ Clean twoWindows (findMidOfLongestRun twoWindows 9) ∧
      findMidOfLongestRun twoWindows 9 = 3 := by
  have hspec := findMidOfLongestRun_spec twoWindows (n := 9) (by decide)
  exact ⟨by decide, (hspec.2.1 ⟨2, by decide, rfl⟩).1, by decide⟩

end TaskCmd
end MollerFirmware
