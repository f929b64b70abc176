import MollerFirmware.Hdl.UwireProgramming
import Mathlib.Data.Rat.Defs

/-!
# Timing of the programming bus

How long the lines of `uwire_lmk04816` keep their values, in time. A step of the
lines takes `CYCLES_PER_STATE` clocks, which is meant to be 25 ns at least; the
parameter it is computed from is a clock period in nanoseconds in the module,
and the frequency of the oscillator in hertz where `subsystem_clock` instantiates
it.

A word is a sequence of 67 steps that begin at known clocks: `entry` says when,
`word_steps` what the lines are in each, and `cover` that there is nothing but
words and rest.
-/

namespace MollerFirmware
namespace Uwire

open Clocked Lmk04816

variable {clkPeriod : Nat}

/-! ## The steps of a word -/

/-- Clocks of step `k` of the lines. When a step takes one clock, the first one
takes two. -/
def dwell (clkPeriod k : Nat) : Nat :=
  if k = 0 ∧ cyclesPerState clkPeriod = 1 then 2 else cyclesPerState clkPeriod

/-- Clocks from the beginning of a word to that of step `k`. -/
def entry (clkPeriod : Nat) : Nat → Nat
  | 0 => 0
  | k + 1 => entry clkPeriod k + dwell clkPeriod k

/-- The state of the clock divider in clock `j` of step `k`. -/
def divider (clkPeriod k j : Nat) : Nat :=
  if j + 1 = dwell clkPeriod k then 0 else j + 1

/-- No step is shorter than the wait count. -/
theorem cyclesPerState_le_dwell (clkPeriod k : Nat) :
    cyclesPerState clkPeriod ≤ dwell clkPeriod k := by
  unfold dwell
  split_ifs with h
  · omega
  · exact le_refl _

theorem dwell_succ (clkPeriod k : Nat) :
    dwell clkPeriod (k + 1) = cyclesPerState clkPeriod :=
  if_neg fun h => absurd h.1 (Nat.succ_ne_zero k)

/-- A run of the serializer after reset, with any requests. -/
structure ChipRun (clkPeriod : Nat) where
  before : Lmk04816.State clkPeriod
  resetD : BitVec 32
  start : Nat → Bool
  d : Nat → BitVec 32

namespace ChipRun

variable (r : ChipRun clkPeriod)

/-- Registers before clock edge `t`. -/
def state (t : Nat) : Lmk04816.State clkPeriod :=
  run (fun s i => Lmk04816.step s i.1 i.2) (Lmk04816.reset r.before r.resetD)
    (fun t => (r.start t, r.d t)) t

/-- `CLKuWire` -/
def clkLine (t : Nat) : Bool :=
  (r.state t).clkUWire

/-- `DATAuWire` -/
def dataLine (t : Nat) : Bool :=
  (r.state t).dataUWire

/-- `LEuWire` -/
def leLine (t : Nat) : Bool :=
  (r.state t).leUWire

variable {r}

theorem sending_next {w : BitVec 32} {k st t : Nat}
    (h : Sending w k st (r.state t)) :
    r.state (t + 1) = sendStep (r.state t) :=
  step_of_started h.started (r.start t) (r.d t)

/-- A step of the lines lasts for its clocks. -/
theorem step_lasts (hclk : 1 ≤ clkPeriod) {w : BitVec 32} {k e : Nat}
    (hk : k ≤ 66)
    (h : Sending w k (divider clkPeriod k 0) (r.state e)) {j : Nat}
    (hj : j < dwell clkPeriod k) :
    Sending w k (divider clkPeriod k j) (r.state (e + j)) := by
  have hc := one_le_cyclesPerState hclk
  induction j with
  | zero => exact h
  | succ j ih =>
      have hs := ih (by omega)
      have hmore : divider clkPeriod k j = j + 1 := if_neg (by omega)
      have hle : dwell clkPeriod k ≤ cyclesPerState clkPeriod + 1 := by
        unfold dwell
        split_ifs <;> omega
      rw [hmore] at hs
      have hwait := hs.wait (by omega) hk (Nat.succ_ne_zero j)
      rw [← sending_next hs] at hwait
      have hdiv : (if j + 1 < cyclesPerState clkPeriod - 1 then j + 1 + 1
          else 0) = divider clkPeriod k (j + 1) := by
        unfold divider
        unfold dwell at hj ⊢
        split_ifs at hj ⊢ <;> omega
      rw [hdiv] at hwait
      exact hwait

/-- The last clock of a step. -/
theorem last_clock (hclk : 1 ≤ clkPeriod) {w : BitVec 32} {k e : Nat}
    (hk : k ≤ 66)
    (h : Sending w k (divider clkPeriod k 0) (r.state e)) :
    ∃ t, t + 1 = e + dwell clkPeriod k ∧ Sending w k 0 (r.state t) := by
  have hc := one_le_cyclesPerState hclk
  have hdwell := cyclesPerState_le_dwell clkPeriod k
  have hlast := step_lasts hclk hk h (j := dwell clkPeriod k - 1) (by omega)
  rw [divider, if_pos (by omega)] at hlast
  exact ⟨e + (dwell clkPeriod k - 1), by omega, hlast⟩

variable (r)

/-- A word is sent from clock `e` on. -/
def Word (w : BitVec 32) (e : Nat) : Prop :=
  Sending w 0 1 (r.state e)

variable {r}

/-- The steps of a word begin where `entry` says. -/
theorem Word.step_entry (hclk : 1 ≤ clkPeriod) {w : BitVec 32} {e : Nat}
    (h : r.Word w e) {k : Nat} (hk : k ≤ 66) :
    Sending w k (divider clkPeriod k 0) (r.state (e + entry clkPeriod k)) := by
  have hc := one_le_cyclesPerState hclk
  induction k with
  | zero =>
      have hdiv : divider clkPeriod 0 0 = 1 := by
        unfold divider dwell
        split_ifs <;> omega
      rw [hdiv]
      exact h
  | succ k ih =>
      obtain ⟨t, ht, hlast⟩ := last_clock hclk (by omega) (ih (by omega))
      have htake := hlast.take hc (by omega)
      rw [← sending_next hlast, ht, Nat.add_assoc] at htake
      have hdiv : (if cyclesPerState clkPeriod = 1 then 0 else 1) =
          divider clkPeriod (k + 1) 0 := by
        unfold divider
        rw [dwell_succ]
        split_ifs <;> omega
      rw [hdiv] at htake
      exact htake

/-- What the lines are in every clock of a word. -/
theorem Word.lines (hclk : 1 ≤ clkPeriod) {w : BitVec 32} {e k j : Nat}
    (h : r.Word w e) (hk : k ≤ 66) (hj : j < dwell clkPeriod k) :
    r.clkLine (e + entry clkPeriod k + j) = decide (k % 2 = 1 ∧ k < 65) ∧
      r.leLine (e + entry clkPeriod k + j) = decide (k = 65) ∧
      r.dataLine (e + entry clkPeriod k + j) =
        (w <<< (k / 2)).getLsbD 31 := by
  have hs := step_lasts hclk hk (h.step_entry hclk hk) hj
  exact ⟨hs.clk, hs.le, hs.data⟩

/-- A clock of a word: clock `j` of step `k`. -/
structure InWord (r : ChipRun clkPeriod) (t : Nat) (w : BitVec 32)
    (e k j : Nat) : Prop where
  word : r.Word w e
  step : k ≤ 66
  clock : j < dwell clkPeriod k
  time : t = e + entry clkPeriod k + j

theorem InWord.lines (hclk : 1 ≤ clkPeriod) {t : Nat} {w : BitVec 32}
    {e k j : Nat} (h : InWord r t w e k j) :
    r.clkLine t = decide (k % 2 = 1 ∧ k < 65) ∧
      r.leLine t = decide (k = 65) ∧
      r.dataLine t = (w <<< (k / 2)).getLsbD 31 := by
  rw [h.time]
  exact h.word.lines hclk h.step h.clock

theorem Word.start (hclk : 1 ≤ clkPeriod) {w : BitVec 32} {e k : Nat}
    (h : r.Word w e) (hk : k ≤ 66) :
    InWord r (e + entry clkPeriod k) w e k 0 :=
  ⟨h, hk, lt_of_lt_of_le (one_le_cyclesPerState hclk)
    (cyclesPerState_le_dwell clkPeriod k), rfl⟩

/-- The clock after one of a word is the next one of the step, the first one of
the next step, or one of rest. -/
theorem InWord.next (hclk : 1 ≤ clkPeriod) {t : Nat} {w : BitVec 32}
    {e k j : Nat} (h : InWord r t w e k j) :
    (j + 1 < dwell clkPeriod k ∧ InWord r (t + 1) w e k (j + 1)) ∨
    (j + 1 = dwell clkPeriod k ∧ InWord r (t + 1) w e (k + 1) 0) ∨
    (k = 66 ∧ Resting (r.state (t + 1)) true) := by
  have htime := h.time
  have hclock := h.clock
  by_cases hmore : j + 1 < dwell clkPeriod k
  · exact .inl ⟨hmore, h.word, h.step, hmore, by omega⟩
  · have hend : j + 1 = dwell clkPeriod k := by omega
    right
    by_cases hk : k < 66
    · have hstart := h.word.start hclk (k := k + 1) hk
      rw [entry, ← hend] at hstart
      rw [htime, Nat.add_assoc, Nat.add_assoc]
      exact .inl ⟨hend, hstart⟩
    · have hs := step_lasts hclk h.step (h.word.step_entry hclk h.step) hclock
      obtain rfl : k = 66 := by have := h.step; omega
      rw [divider, if_pos hend, ← htime] at hs
      right
      rw [sending_next hs]
      exact ⟨rfl, hs.finish⟩

theorem InWord.before {t : Nat} {w : BitVec 32} {e k j : Nat}
    (h : InWord r (t + 1) w e k (j + 1)) :
    InWord r t w e k j := by
  have htime := h.time
  have hclock := h.clock
  exact ⟨h.word, h.step, by omega, by omega⟩

/-- The clocks of a step, from its first one on. -/
theorem InWord.later {t : Nat} {w : BitVec 32} {e k i : Nat}
    (h : InWord r t w e k 0) (hi : i < dwell clkPeriod k) :
    InWord r (t + i) w e k i :=
  ⟨h.word, h.step, hi, by have := h.time; omega⟩

/-- The clocks of the step before, from its last one back. -/
theorem InWord.earlier {t : Nat} {w : BitVec 32} {e k i : Nat}
    (h : InWord r (t + 1) w e (k + 1) 0) (hi : i < dwell clkPeriod k) :
    i ≤ t ∧ InWord r (t - i) w e k (dwell clkPeriod k - 1 - i) := by
  have htime := h.time
  have hstep := h.step
  rw [entry] at htime
  exact ⟨by omega, h.word, by omega, by omega, by omega⟩

/-- There is nothing but words and rest. -/
theorem cover (hclk : 1 ≤ clkPeriod) (r : ChipRun clkPeriod) (t : Nat) :
    (∃ ready, Resting (r.state t) ready) ∨ ∃ w e k j, InWord r t w e k j := by
  have hc := one_le_cyclesPerState hclk
  induction t with
  | zero => exact .inl ⟨false, rfl, rfl, rfl, rfl⟩
  | succ t ih =>
      rcases ih with ⟨ready, hrest⟩ | ⟨w, e, k, j, hin⟩
      · have hnext : r.state (t + 1) =
            Lmk04816.step (r.state t) (r.start t) (r.d t) := rfl
        cases hstart : r.start t with
        | true =>
            have hword : r.Word (r.d t) (t + 1) := by
              show Sending (r.d t) 0 1 (r.state (t + 1))
              rw [hnext, hstart]
              exact hrest.launch (r.d t)
            exact .inr ⟨_, _, 0, 0, hword.start hclk (Nat.zero_le 66)⟩
        | false =>
            left
            rw [hnext, hstart]
            exact ⟨true, hrest.idle (r.d t)⟩
      · rcases hin.next hclk with ⟨_, hnext⟩ | ⟨_, hnext⟩ | ⟨_, hrest⟩
        · exact .inr ⟨_, _, _, _, hnext⟩
        · exact .inr ⟨_, _, _, _, hnext⟩
        · exact .inl ⟨true, hrest⟩

/-! ## Edges -/

/-- A line rises at clock edge `t`. -/
def Rises (line : Nat → Bool) (t : Nat) : Prop :=
  line t = false ∧ line (t + 1) = true

/-- A line falls at clock edge `t`. -/
def Falls (line : Nat → Bool) (t : Nat) : Prop :=
  line t = true ∧ line (t + 1) = false

/-- The clock line rises at the beginning of an odd step. -/
theorem rises_clk (hclk : 1 ≤ clkPeriod) {t : Nat}
    (h : Rises r.clkLine t) :
    ∃ w e k, InWord r (t + 1) w e (k + 1) 0 ∧ k % 2 = 0 ∧ k < 64 := by
  rcases cover hclk r (t + 1) with ⟨_, hrest⟩ | ⟨w, e, k, j, hin⟩
  · exact absurd (hrest.clk.symm.trans h.2) (by simp)
  · have hclk' := (hin.lines hclk).1
    rw [h.2] at hclk'
    have hodd : k % 2 = 1 ∧ k < 65 := of_decide_eq_true hclk'.symm
    obtain ⟨k, rfl⟩ : ∃ m, k = m + 1 := ⟨k - 1, by omega⟩
    cases j with
    | zero => exact ⟨w, e, k, hin, by omega, by omega⟩
    | succ j =>
        -- the line was high in the clock before as well
        have hhigh := (hin.before.lines hclk).1
        rw [h.1, eq_comm, decide_eq_false_iff_not] at hhigh
        exact absurd hodd hhigh

/-- It falls at the beginning of an even one. -/
theorem falls_clk (hclk : 1 ≤ clkPeriod) {t : Nat}
    (h : Falls r.clkLine t) :
    ∃ w e k, InWord r (t + 1) w e (k + 1) 0 ∧ k % 2 = 1 ∧ k < 65 := by
  rcases cover hclk r t with ⟨_, hrest⟩ | ⟨w, e, k, j, hin⟩
  · exact absurd (hrest.clk.symm.trans h.1) (by simp)
  · have hclk' := (hin.lines hclk).1
    rw [h.1] at hclk'
    have hodd : k % 2 = 1 ∧ k < 65 := of_decide_eq_true hclk'.symm
    rcases hin.next hclk with ⟨_, hnext⟩ | ⟨_, hnext⟩ | ⟨hk, _⟩
    · have hlow := (hnext.lines hclk).1
      rw [h.2, eq_comm, decide_eq_false_iff_not] at hlow
      exact absurd hodd hlow
    · exact ⟨w, e, k, hnext, hodd.1, hodd.2⟩
    · omega

/-- The latch line rises at the beginning of step 65. -/
theorem rises_le (hclk : 1 ≤ clkPeriod) {t : Nat}
    (h : Rises r.leLine t) :
    ∃ w e, InWord r (t + 1) w e 65 0 := by
  rcases cover hclk r (t + 1) with ⟨_, hrest⟩ | ⟨w, e, k, j, hin⟩
  · exact absurd (hrest.le.symm.trans h.2) (by simp)
  · have hle := (hin.lines hclk).2.1
    rw [h.2] at hle
    have hk : k = 65 := of_decide_eq_true hle.symm
    subst hk
    cases j with
    | zero => exact ⟨w, e, hin⟩
    | succ j =>
        have hhigh := (hin.before.lines hclk).2.1
        rw [h.1] at hhigh
        exact absurd hhigh (by simp)

/-! ## Times -/

/-- The time of `n` clocks at the frequency `freq`, in seconds. -/
def duration (freq n : Nat) : ℚ :=
  n / freq

/-- The minimum of all times on the bus, 25 ns. -/
def minimum : ℚ :=
  25 / 10 ^ 9

/-- The line does not change in the `n` clocks from `a` on. -/
def HoldsFrom (line : Nat → Bool) (a n : Nat) : Prop :=
  ∀ i, i < n → line (a + i) = line a

/-- The line does not change in the `n` clocks up to `a`. -/
def HoldsUpTo (line : Nat → Bool) (a n : Nat) : Prop :=
  ∀ i, i < n → i ≤ a ∧ line (a - i) = line a

/-- The timing of the bus with a clock of `freq` hertz. -/
structure TimingKept (freq : Nat) (r : ChipRun clkPeriod) : Prop where
  clkHigh : ∀ t, Rises r.clkLine t →
    ∃ n, minimum ≤ duration freq n ∧ HoldsFrom r.clkLine (t + 1) n
  clkLow : ∀ t, Falls r.clkLine t →
    ∃ n, minimum ≤ duration freq n ∧ HoldsFrom r.clkLine (t + 1) n
  dataSetup : ∀ t, Rises r.clkLine t →
    ∃ n, minimum ≤ duration freq n ∧ HoldsUpTo r.dataLine t n
  dataHold : ∀ t, Rises r.clkLine t → r.dataLine (t + 1) = r.dataLine t ∧
    ∃ n, minimum ≤ duration freq n ∧ HoldsFrom r.dataLine (t + 1) n
  leAfterClk : ∀ t u, Falls r.clkLine t → Rises r.leLine u → t ≤ u →
    minimum ≤ duration freq (u - t)
  leHigh : ∀ t, Rises r.leLine t →
    ∃ n, minimum ≤ duration freq n ∧ HoldsFrom r.leLine (t + 1) n

theorem minimum_le_duration_iff {freq : Nat} (hfreq : 1 ≤ freq) (n : Nat) :
    minimum ≤ duration freq n ↔ 25 * freq ≤ n * 10 ^ 9 := by
  have hpos : (0 : ℚ) < freq := by exact_mod_cast hfreq
  unfold minimum duration
  rw [div_le_div_iff₀ (by norm_num) hpos]
  exact_mod_cast Iff.rfl

theorem duration_mono (freq : Nat) {m n : Nat} (hmn : m ≤ n) :
    duration freq m ≤ duration freq n := by
  unfold duration
  gcongr

/-- From the beginning of a step on the lines do not change for as many clocks
as a step has at least. -/
theorem InWord.holdsFrom (hclk : 1 ≤ clkPeriod) {a : Nat} {w : BitVec 32}
    {e k : Nat} (hin : InWord r a w e k 0) :
    HoldsFrom r.clkLine a (cyclesPerState clkPeriod) ∧
      HoldsFrom r.dataLine a (cyclesPerState clkPeriod) ∧
      HoldsFrom r.leLine a (cyclesPerState clkPeriod) := by
  have hnow := hin.lines hclk
  have hlater : ∀ i, i < cyclesPerState clkPeriod →
      InWord r (a + i) w e k i := fun i hi =>
    hin.later (lt_of_lt_of_le hi (cyclesPerState_le_dwell clkPeriod k))
  refine ⟨fun i hi => ?_, fun i hi => ?_, fun i hi => ?_⟩
  · rw [((hlater i hi).lines hclk).1, hnow.1]
  · rw [((hlater i hi).lines hclk).2.2, hnow.2.2]
  · rw [((hlater i hi).lines hclk).2.1, hnow.2.1]

/-- In the clock before a step there is the one before it, with its data for as
many clocks. -/
theorem InWord.holdsUpTo (hclk : 1 ≤ clkPeriod) {t : Nat} {w : BitVec 32}
    {e k : Nat} (hin : InWord r (t + 1) w e (k + 1) 0) :
    HoldsUpTo r.dataLine t (cyclesPerState clkPeriod) := by
  intro i hi
  have hdwell := cyclesPerState_le_dwell clkPeriod k
  obtain ⟨hle, hearlier⟩ := hin.earlier (lt_of_lt_of_le hi hdwell)
  obtain ⟨_, hlast⟩ := hin.earlier (i := 0) (by omega)
  refine ⟨hle, ?_⟩
  rw [(hearlier.lines hclk).2.2]
  exact (hlast.lines hclk).2.2.symm

/-- The data do not change at a rising edge of the clock line. -/
theorem dataLine_rises (hclk : 1 ≤ clkPeriod) {t : Nat}
    (h : Rises r.clkLine t) :
    r.dataLine (t + 1) = r.dataLine t := by
  obtain ⟨w, e, k, hin, heven, _⟩ := rises_clk hclk h
  have hc := one_le_cyclesPerState hclk
  have hdwell := cyclesPerState_le_dwell clkPeriod k
  obtain ⟨_, hlast⟩ := hin.earlier (i := 0) (by omega)
  have hbefore := (hlast.lines hclk).2.2
  rw [Nat.sub_zero] at hbefore
  rw [(hin.lines hclk).2.2, hbefore, show (k + 1) / 2 = k / 2 by omega]

/-- The latch line rises at least a step after the clock line has fallen: in
the step before it the clock line is low. -/
theorem le_sub_of_rises_le (hclk : 1 ≤ clkPeriod) {t u : Nat}
    (hfall : Falls r.clkLine t) (hrise : Rises r.leLine u) (htu : t ≤ u) :
    cyclesPerState clkPeriod ≤ u - t := by
  obtain ⟨w, e, hin⟩ := rises_le hclk hrise
  by_contra hnear
  obtain ⟨_, hearlier⟩ := hin.earlier (i := u - t)
    (lt_of_lt_of_le (by omega) (cyclesPerState_le_dwell clkPeriod 64))
  have hlow := (hearlier.lines hclk).1
  rw [show u - (u - t) = t by omega, hfall.1] at hlow
  exact absurd hlow (by simp)

/-- If the time of a step is long enough, all times are. -/
theorem timingKept_of_step {freq : Nat} (hclk : 1 ≤ clkPeriod)
    (r : ChipRun clkPeriod)
    (hlong : minimum ≤ duration freq (cyclesPerState clkPeriod)) :
    TimingKept freq r := by
  refine ⟨fun t h => ⟨_, hlong, ?_⟩, fun t h => ⟨_, hlong, ?_⟩,
    fun t h => ⟨_, hlong, ?_⟩, fun t h => ⟨dataLine_rises hclk h, _, hlong, ?_⟩,
    fun t u hfall hrise htu => ?_, fun t h => ⟨_, hlong, ?_⟩⟩
  · obtain ⟨w, e, k, hin, _⟩ := rises_clk hclk h
    exact (hin.holdsFrom hclk).1
  · obtain ⟨w, e, k, hin, _⟩ := falls_clk hclk h
    exact (hin.holdsFrom hclk).1
  · obtain ⟨w, e, k, hin, _⟩ := rises_clk hclk h
    exact hin.holdsUpTo hclk
  · obtain ⟨w, e, k, hin, _⟩ := rises_clk hclk h
    exact (hin.holdsFrom hclk).2.1
  · exact hlong.trans
      (duration_mono freq (le_sub_of_rises_le hclk hfall hrise htu))
  · obtain ⟨w, e, hin⟩ := rises_le hclk h
    exact (hin.holdsFrom hclk).2.2

/-- A request is followed by a word, unless one is being sent. -/
theorem exists_word (hclk : 1 ≤ clkPeriod) (r : ChipRun clkPeriod) {t : Nat}
    (hstart : r.start t = true) :
    ∃ w e, r.Word w e := by
  rcases cover hclk r t with ⟨ready, hrest⟩ | ⟨w, e, k, j, hin⟩
  · refine ⟨r.d t, t + 1, ?_⟩
    show Sending (r.d t) 0 1
      (Lmk04816.step (r.state t) (r.start t) (r.d t))
    rw [hstart]
    exact hrest.launch (r.d t)
  · exact ⟨w, e, hin.word⟩

/-- Without a request the lines do not move. -/
theorem resting_of_no_start (r : ChipRun clkPeriod)
    (hnone : ∀ t, r.start t = false) (t : Nat) :
    ∃ ready, Resting (r.state t) ready := by
  induction t with
  | zero => exact ⟨false, rfl, rfl, rfl, rfl⟩
  | succ t ih =>
      obtain ⟨ready, hrest⟩ := ih
      refine ⟨true, ?_⟩
      show Resting (Lmk04816.step (r.state t) (r.start t) (r.d t)) true
      rw [hnone t]
      exact hrest.idle (r.d t)

theorem timingKept_of_no_start (freq : Nat) (r : ChipRun clkPeriod)
    (hnone : ∀ t, r.start t = false) :
    TimingKept freq r := by
  have hclk : ∀ t, r.clkLine t = false := fun t =>
    (r.resting_of_no_start hnone t).choose_spec.clk
  have hle : ∀ t, r.leLine t = false := fun t =>
    (r.resting_of_no_start hnone t).choose_spec.le
  have hrise : ∀ t, ¬ Rises r.clkLine t := fun t h => by
    simpa [hclk] using h.2
  have hfall : ∀ t, ¬ Falls r.clkLine t := fun t h => by
    simpa [hclk] using h.1
  have hlatch : ∀ t, ¬ Rises r.leLine t := fun t h => by
    simpa [hle] using h.2
  exact ⟨fun t h => absurd h (hrise t), fun t h => absurd h (hfall t),
    fun t h => absurd h (hrise t), fun t h => absurd h (hrise t),
    fun t _ h => absurd h (hfall t), fun t h => absurd h (hlatch t)⟩

/-- If a step takes one clock, the clock line is high for one clock only. -/
theorem not_timingKept_of_word (hclk : 1 ≤ clkPeriod) {freq : Nat}
    (hfreq : 1 ≤ freq) (r : ChipRun clkPeriod)
    (hone : cyclesPerState clkPeriod = 1) (hfast : 40000000 < freq)
    {w : BitVec 32} {e : Nat} (h : r.Word w e) :
    ¬ TimingKept freq r := by
  intro hkept
  have hhigh := h.start hclk (k := 1) (by omega)
  have hlow := h.start hclk (k := 2) (by omega)
  obtain ⟨t, ht⟩ : ∃ t, e + entry clkPeriod 1 = t + 1 := by
    have hpos := cyclesPerState_le_dwell clkPeriod 0
    exact ⟨e + entry clkPeriod 1 - 1, by simp only [entry]; omega⟩
  have ht' : e + entry clkPeriod 2 = t + 1 + 1 := by
    rw [← ht, entry, dwell_succ, hone, Nat.add_assoc]
  rw [ht] at hhigh
  rw [ht'] at hlow
  obtain ⟨_, hbefore⟩ := hhigh.earlier (i := 0)
    (by have := cyclesPerState_le_dwell clkPeriod 0; omega)
  have hrise : Rises r.clkLine t :=
    ⟨(hbefore.lines hclk).1, (hhigh.lines hclk).1⟩
  obtain ⟨n, hn, hholds⟩ := hkept.clkHigh t hrise
  rw [minimum_le_duration_iff hfreq] at hn
  have hstill := hholds 1 (by omega)
  rw [(hlow.lines hclk).1, (hhigh.lines hclk).1] at hstill
  exact absurd hstill (by decide)

end ChipRun

/-- **The timing of the bus.** With `CLK_PERIOD` given the frequency of the
clock, the minimum times are kept exactly up to 40 MHz, unless no word is sent
at all. -/
theorem timingKept_iff {freq : Nat} (hfreq : 1 ≤ freq) (r : ChipRun freq) :
    r.TimingKept freq ↔
      freq ≤ 40000000 ∨ ∀ t, r.start t = false := by
  have hc := one_le_cyclesPerState hfreq
  constructor
  · intro hkept
    by_contra hnot
    rw [not_or] at hnot
    obtain ⟨hfast, hsome⟩ := hnot
    obtain ⟨t, hstart⟩ : ∃ t, r.start t = true := by
      simpa using hsome
    obtain ⟨w, e, hword⟩ := ChipRun.exists_word hfreq r hstart
    have hlong : minTiming ≤ freq := by
      show 50 ≤ freq
      omega
    have hone : cyclesPerState freq = 1 := if_pos hlong
    exact ChipRun.not_timingKept_of_word hfreq hfreq r hone (by omega) hword
      hkept
  · rintro (hslow | hnone)
    · refine ChipRun.timingKept_of_step hfreq r ?_
      rw [ChipRun.minimum_le_duration_iff hfreq]
      omega
    · exact ChipRun.timingKept_of_no_start freq r hnone

/-- `FREQ_OSCILLATOR` -/
def freqOscillator : Nat :=
  100000000

/-- One word is requested in the first clock. -/
def oneRequest (clkPeriod : Nat) : ChipRun clkPeriod :=
  { before := ⟨true, 1, 3, 7, true, true, true, true⟩
    resetD := 0
    start := fun t => decide (t = 0)
    d := fun _ => 0x80000001 }

/-- A clock of 25 MHz is slow enough. -/
theorem timingKept_iff_slowClock :
    (oneRequest 25000000).TimingKept 25000000 :=
  (timingKept_iff (by decide) (oneRequest 25000000)).mpr (.inl (by decide))

/-- At the frequency of the oscillator, a step of the lines takes 10 ns. -/
theorem not_timingKept_oscillator :
    ¬ (oneRequest freqOscillator).TimingKept freqOscillator := by
  have hpos : 1 ≤ freqOscillator := by decide
  obtain ⟨w, e, hword⟩ :=
    ChipRun.exists_word hpos (oneRequest freqOscillator) (t := 0) rfl
  exact ChipRun.not_timingKept_of_word hpos hpos _ rfl (by decide) hword

end Uwire
end MollerFirmware
