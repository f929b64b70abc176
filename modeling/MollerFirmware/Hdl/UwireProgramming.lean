import MollerFirmware.Clocked.Delays
import MollerFirmware.Hdl.Uwire

/-!
# Programming the clock chip

The two handshaking modules follow one sequence of phases that does not depend
on the words: `Phase.next` is that sequence. In the phase `send left k st` the
word of index `left` is on its way, the lines have taken `k` steps since it was
started (the clock line is high after an odd number of them) and `st` is the
state of the clock divider.

`Simulated` says what the registers and the receiver are in a phase, and
`Simulated.next` that every clock leads to the next phase. Since `Phase.measure`
falls until no word is left, the words are all programmed, once each.
-/

namespace MollerFirmware
namespace Uwire

open Clocked Lmk04816

/-- Where the programming stands. -/
inductive Phase
  | fresh
  | idle (left : Nat)
  | launch (left : Nat)
  | send (left k st : Nat)
deriving DecidableEq

namespace Phase

/-- The phase after one clock, with `c` clocks to a step of the lines. -/
def next (c numWords : Nat) : Phase → Phase
  | fresh => idle numWords
  | idle 0 => idle 0
  | idle (left + 1) => launch left
  | launch left => send left 0 1
  | send left k st =>
      if st = 0 then
        if k = 66 then idle left
        else send left (k + 1) (if c = 1 then 0 else 1)
      else send left k (if st < c - 1 then st + 1 else 0)

/-- Phases that occur. -/
def Ok (c numWords : Nat) : Phase → Prop
  | fresh => True
  | idle left => left ≤ numWords
  | launch left => left < numWords
  | send left k st => left < numWords ∧ k ≤ 66 ∧ st ≤ c

/-- The clock line in a phase. -/
def clk : Phase → Bool
  | send _ k _ => decide (k % 2 = 1 ∧ k < 65)
  | _ => false

/-- The latch line in a phase. -/
def le : Phase → Bool
  | send _ k _ => decide (k = 65)
  | _ => false

/-- A bound on the clocks a word takes. -/
def perWord (c : Nat) : Nat :=
  67 * (c + 1) + 2

/-- A number that falls from phase to phase until no word is left. -/
def measure (c numWords : Nat) : Phase → Nat
  | fresh => numWords * perWord c + 1
  | idle left => left * perWord c
  | launch left => left * perWord c + (67 * (c + 1) + 1)
  | send left k st =>
      left * perWord c + 1 + (66 - k) * (c + 1) +
        if st = 0 then 0 else c + 1 - st

variable {c numWords : Nat}

/-- What a clock does while a word is being sent: it ends the word, takes a
step on the lines, or waits for the divider. -/
theorem next_send_cases (c numWords left k st : Nat) :
    (st = 0 ∧ k = 66 ∧ (send left k st).next c numWords = idle left) ∨
    (st = 0 ∧ k ≠ 66 ∧ (send left k st).next c numWords =
      send left (k + 1) (if c = 1 then 0 else 1)) ∨
    (st ≠ 0 ∧ (send left k st).next c numWords =
      send left k (if st < c - 1 then st + 1 else 0)) := by
  by_cases hst : st = 0
  · by_cases hk : k = 66
    · exact .inl ⟨hst, hk, by simp [next, hst, hk]⟩
    · exact .inr (.inl ⟨hst, hk, by simp [next, hst, hk]⟩)
  · exact .inr (.inr ⟨hst, by simp [next, hst]⟩)

theorem next_ok (hc : 1 ≤ c) {ph : Phase} (h : ph.Ok c numWords) :
    (ph.next c numWords).Ok c numWords := by
  cases ph with
  | fresh => exact le_refl numWords
  | idle left =>
      cases left with
      | zero => exact h
      | succ left => exact h
  | launch left => exact ⟨h, by omega, hc⟩
  | send left k st =>
      obtain ⟨hleft, hk, hst⟩ := h
      rcases next_send_cases c numWords left k st with
        ⟨_, _, heq⟩ | ⟨_, hmore, heq⟩ | ⟨_, heq⟩ <;> rw [heq]
      · exact Nat.le_of_lt hleft
      · exact ⟨hleft, by omega, by split_ifs <;> omega⟩
      · exact ⟨hleft, hk, by split_ifs <;> omega⟩

theorem measure_next (hc : 1 ≤ c) {ph : Phase} (h : ph.Ok c numWords)
    (hend : ph ≠ idle 0) :
    (ph.next c numWords).measure c numWords < ph.measure c numWords := by
  have hper : perWord c = 67 * (c + 1) + 2 := rfl
  cases ph with
  | fresh => exact Nat.lt_succ_self _
  | idle left =>
      cases left with
      | zero => exact absurd rfl hend
      | succ left =>
          have hsucc : (left + 1) * perWord c = left * perWord c + perWord c :=
            Nat.succ_mul left (perWord c)
          simp only [next, measure]
          omega
  | launch left =>
      simp only [next, measure]
      rw [if_neg (by omega)]
      omega
  | send left k st =>
      obtain ⟨_, hk, hst⟩ := h
      rcases next_send_cases c numWords left k st with
        ⟨_, _, heq⟩ | ⟨h0, hmore, heq⟩ | ⟨h0, heq⟩ <;> rw [heq]
      · simp only [measure]
        omega
      · have hsucc : (66 - k) * (c + 1) =
            (66 - (k + 1)) * (c + 1) + (c + 1) := by
          rw [← Nat.succ_mul]
          congr 1
          omega
        simp only [measure, hsucc]
        split_ifs <;> omega
      · simp only [measure]
        split_ifs <;> omega

end Phase

/-! ## The serializer -/

variable {clkPeriod numWords : Nat}

theorem one_le_cyclesPerState (h : 1 ≤ clkPeriod) :
    1 ≤ cyclesPerState clkPeriod := by
  unfold cyclesPerState
  split_ifs with hlong
  · exact le_refl 1
  · exact Nat.div_pos (by omega) h

/-- The serializer between words. -/
structure Resting (s : Lmk04816.State clkPeriod) (ready : Bool) : Prop where
  started : s.started = false
  ready : s.ready = ready
  clk : s.clkUWire = false
  le : s.leUWire = false

/-- The serializer while it sends `w`: every second step of the lines takes
another bit from the shift register. -/
structure Sending (w : BitVec 32) (k st : Nat)
    (s : Lmk04816.State clkPeriod) : Prop where
  started : s.started = true
  ready : s.ready = false
  stCnt : s.stCnt.toNat = st
  bitCnt : s.bitCnt.toNat = if st = 0 then k + 1 else k
  clk : s.clkUWire = decide (k % 2 = 1 ∧ k < 65)
  le : s.leUWire = decide (k = 65)
  data : s.dataUWire = (w <<< (k / 2)).getLsbD 31
  dShift : s.dShift = w <<< (k / 2 + 1)

theorem shiftOut_eq (x : BitVec 32) : shiftOut x = x <<< 1 := by
  apply BitVec.eq_of_getLsbD_eq
  intro j hj
  unfold shiftOut
  rw [BitVec.getLsbD_append, BitVec.getLsbD_shiftLeft]
  by_cases hlow : j < 1
  · simp [hlow]
  · rw [if_neg hlow, BitVec.getLsbD_setWidth]
    simp [hlow, hj]
    omega

theorem shiftOut_shiftLeft (w : BitVec 32) (k : Nat) :
    shiftOut (w <<< k) = w <<< (k + 1) := by
  rw [shiftOut_eq, BitVec.shiftLeft_add]

/-- A started serializer makes a sending step. -/
theorem step_of_started {s : Lmk04816.State clkPeriod}
    (hs : s.started = true) (start : Bool) (d : BitVec 32) :
    Lmk04816.step s start d = sendStep s := by
  unfold Lmk04816.step
  rw [hs]
  simp

/-- A start loads the word. -/
theorem Resting.launch {s : Lmk04816.State clkPeriod} {ready : Bool}
    (h : Resting s ready) (w : BitVec 32) :
    Sending w 0 1 (Lmk04816.step s true w) := by
  have hone : (1 : BitVec (stWidth clkPeriod)).toNat = 1 :=
    Nat.mod_eq_of_lt (succ_lt_two_pow_clog (Nat.zero_le _))
  unfold Lmk04816.step
  rw [h.started]
  refine ⟨rfl, rfl, hone, rfl, rfl, h.le, by simp, shiftOut_eq w⟩

/-- Without one the serializer is ready. -/
theorem Resting.idle {s : Lmk04816.State clkPeriod} {ready : Bool}
    (h : Resting s ready) (d : BitVec 32) :
    Resting (Lmk04816.step s false d) true := by
  unfold Lmk04816.step
  rw [h.started]
  exact ⟨rfl, rfl, rfl, rfl⟩

theorem sendStep_flags (s : Lmk04816.State clkPeriod) :
    (sendStep s).started = !decide (s.bitCnt.toNat = 67) ∧
      (sendStep s).ready = decide (s.bitCnt.toNat = 67) ∧
      (sendStep s).leUWire = decide (s.bitCnt.toNat = 65) := by
  exact ⟨rfl, rfl, rfl⟩

/-- While the divider waits, the lines and the shift register hold. -/
theorem sendStep_hold {s : Lmk04816.State clkPeriod} (hne : s.stCnt ≠ 0) :
    (sendStep s).clkUWire = s.clkUWire ∧
      (sendStep s).dataUWire = s.dataUWire ∧
      (sendStep s).dShift = s.dShift := by
  have hdec : decide (s.stCnt = 0) = false := decide_eq_false hne
  refine ⟨if_neg hne, ?_, ?_⟩
  · simp only [sendStep, hdec, Bool.false_and, Bool.false_eq_true, if_false]
  · simp only [sendStep, hdec, Bool.false_and, Bool.false_eq_true, if_false]

/-- Otherwise the lines take a step. -/
theorem sendStep_take {s : Lmk04816.State clkPeriod} (hzero : s.stCnt = 0) :
    (sendStep s).clkUWire =
        (if s.bitCnt.toNat < 65 then !s.clkUWire else false) ∧
      (sendStep s).dataUWire =
        (if s.bitCnt.toNat % 2 = 0 then s.dShift.getLsbD 31
          else s.dataUWire) ∧
      (sendStep s).dShift =
        (if s.bitCnt.toNat % 2 = 0 then shiftOut s.dShift else s.dShift) := by
  have hdec : decide (s.stCnt = 0) = true := decide_eq_true hzero
  have hbit : (!s.bitCnt.getLsbD 0) = decide (s.bitCnt.toNat % 2 = 0) := by
    have htest : s.bitCnt.getLsbD 0 = decide (s.bitCnt.toNat % 2 = 1) :=
      Nat.testBit_zero _
    rw [htest]
    rcases Nat.mod_two_eq_zero_or_one s.bitCnt.toNat with hmod | hmod <;>
      rw [hmod] <;> rfl
  refine ⟨if_pos hzero, ?_, ?_⟩
  · simp only [sendStep, hdec, hbit, Bool.true_and, decide_eq_true_eq]
  · simp only [sendStep, hdec, hbit, Bool.true_and, decide_eq_true_eq]

/-- The counters of the divider and of the steps. -/
theorem Sending.counters {w : BitVec 32} {k st : Nat}
    {s : Lmk04816.State clkPeriod} (h : Sending w k st s)
    (hc : st ≤ cyclesPerState clkPeriod) (hk : k ≤ 66) :
    (sendStep s).stCnt.toNat =
        (if st < cyclesPerState clkPeriod - 1 then st + 1 else 0) ∧
      (sendStep s).bitCnt.toNat =
        s.bitCnt.toNat +
          if st < cyclesPerState clkPeriod - 1 then 0 else 1 := by
  have hst : (s.stCnt + 1).toNat = st + 1 := by
    rw [← h.stCnt]
    refine toNat_succ_of_lt ?_
    rw [h.stCnt]
    exact succ_lt_two_pow_clog hc
  have hbit : (s.bitCnt + 1).toNat = s.bitCnt.toNat + 1 := by
    refine toNat_succ_of_lt ?_
    rw [h.bitCnt]
    show (if st = 0 then k + 1 else k) + 1 < 256
    split_ifs <;> omega
  simp only [sendStep, h.stCnt]
  split_ifs
  · exact ⟨hst, rfl⟩
  · exact ⟨rfl, hbit⟩

/-- The divider waits, and no line changes. -/
theorem Sending.wait {w : BitVec 32} {k st : Nat}
    {s : Lmk04816.State clkPeriod} (h : Sending w k st s)
    (hc : st ≤ cyclesPerState clkPeriod) (hk : k ≤ 66) (hst : st ≠ 0) :
    Sending w k (if st < cyclesPerState clkPeriod - 1 then st + 1 else 0)
      (sendStep s) := by
  have hne : s.stCnt ≠ 0 := by
    intro hzero
    have hval := h.stCnt
    rw [hzero] at hval
    exact hst hval.symm
  have hbit : s.bitCnt.toNat = k := by
    rw [h.bitCnt, if_neg hst]
  obtain ⟨hclk, hdata, hshift⟩ := sendStep_hold hne
  obtain ⟨hstarted, hready, hle⟩ := sendStep_flags s
  obtain ⟨hstCnt, hbitCnt⟩ := h.counters hc hk
  have hmore : decide (s.bitCnt.toNat = 67) = false := by
    rw [hbit, decide_eq_false_iff_not]
    omega
  refine ⟨?_, ?_, hstCnt, ?_, hclk.trans h.clk, ?_, hdata.trans h.data,
    hshift.trans h.dShift⟩
  · rw [hstarted, hmore]
    rfl
  · rw [hready, hmore]
  · rw [hbitCnt, hbit]
    by_cases hless : st < cyclesPerState clkPeriod - 1
    · rw [if_pos hless, if_pos hless, if_neg (by omega), Nat.add_zero]
    · rw [if_neg hless, if_neg hless, if_pos rfl]
  · rw [hle, hbit]

/-- The lines take a step. -/
theorem Sending.take {w : BitVec 32} {k : Nat}
    {s : Lmk04816.State clkPeriod} (h : Sending w k 0 s)
    (hc : 1 ≤ cyclesPerState clkPeriod) (hk : k < 66) :
    Sending w (k + 1) (if cyclesPerState clkPeriod = 1 then 0 else 1)
      (sendStep s) := by
  have hzero : s.stCnt = 0 := BitVec.eq_of_toNat_eq h.stCnt
  have hbit : s.bitCnt.toNat = k + 1 := h.bitCnt
  obtain ⟨hclk, hdata, hshift⟩ := sendStep_take hzero
  obtain ⟨hstarted, hready, hle⟩ := sendStep_flags s
  obtain ⟨hstCnt, hbitCnt⟩ := h.counters (Nat.zero_le _) (by omega)
  have hmore : decide (s.bitCnt.toNat = 67) = false := by
    rw [hbit, decide_eq_false_iff_not]
    omega
  refine ⟨?_, ?_, ?_, ?_, ?_, ?_, ?_, ?_⟩
  · rw [hstarted, hmore]
    rfl
  · rw [hready, hmore]
  · rw [hstCnt]
    split_ifs <;> omega
  · rw [hbitCnt, hbit]
    by_cases hone : cyclesPerState clkPeriod = 1
    · rw [if_neg (by omega), if_pos hone, if_pos rfl]
    · rw [if_pos (by omega), if_neg hone, if_neg (by omega), Nat.add_zero]
  · rw [hclk, hbit, h.clk]
    split_ifs with hlow
    · rw [← decide_not, decide_eq_decide]
      omega
    · symm
      rw [decide_eq_false_iff_not]
      omega
  · rw [hle, hbit]
  · rw [hdata, hbit, h.dShift, h.data]
    split_ifs with heven
    · rw [show (k + 1) / 2 = k / 2 + 1 by omega]
    · rw [show (k + 1) / 2 = k / 2 by omega]
  · rw [hshift, hbit, h.dShift, shiftOut_shiftLeft]
    split_ifs with heven
    · rw [show (k + 1) / 2 = k / 2 + 1 by omega]
    · rw [show (k + 1) / 2 = k / 2 by omega]

/-- After the last step the serializer rests. -/
theorem Sending.finish {w : BitVec 32} {s : Lmk04816.State clkPeriod}
    (h : Sending w 66 0 s) :
    Resting (sendStep s) true := by
  have hzero : s.stCnt = 0 := BitVec.eq_of_toNat_eq h.stCnt
  have hbit : s.bitCnt.toNat = 67 := h.bitCnt
  obtain ⟨hstarted, hready, hle⟩ := sendStep_flags s
  refine ⟨?_, ?_, ?_, ?_⟩
  · rw [hstarted, hbit]
    rfl
  · rw [hready, hbit]
    rfl
  · rw [(sendStep_take hzero).1, hbit]
    rfl
  · rw [hle, hbit]
    rfl

/-! ## The phases of the registers -/

open Loader

/-- The serializer in a phase. -/
def ChipSim (d : Fin numWords → BitVec 32) :
    Phase → Lmk04816.State clkPeriod → Prop
  | .fresh, s => Resting s false
  | .idle _, s => Resting s true
  | .launch _, s => Resting s true
  | .send left k st, s => Sending (wordAt d left) k st s

/-- The word sequencer in a phase. -/
def LoaderSim (d : Fin numWords → BitVec 32) :
    Phase → Loader.State numWords → Prop
  | .fresh, s =>
      s.start = false ∧ s.done = false ∧ s.wordsLeft.toNat = numWords
  | .idle left, s =>
      s.start = false ∧ (s.done = true → left = 0) ∧ s.wordsLeft.toNat = left
  | .launch left, s =>
      s.start = true ∧ s.done = false ∧ s.wordsLeft.toNat = left ∧
        s.q = wordAt d left
  | .send left _ _, s =>
      s.start = false ∧ s.done = false ∧ s.wordsLeft.toNat = left

/-- The serializer follows the phases. -/
theorem ChipSim.next {d : Fin numWords → BitVec 32} {ph : Phase}
    {s : Lmk04816.State clkPeriod} {l : Loader.State numWords}
    (h : ChipSim d ph s) (hl : LoaderSim d ph l)
    (hc : 1 ≤ cyclesPerState clkPeriod)
    (hok : ph.Ok (cyclesPerState clkPeriod) numWords) :
    ChipSim d (ph.next (cyclesPerState clkPeriod) numWords)
      (Lmk04816.step s l.start l.q) := by
  cases ph with
  | fresh =>
      rw [hl.1]
      exact h.idle l.q
  | idle left =>
      rw [hl.1]
      cases left with
      | zero => exact h.idle l.q
      | succ left => exact h.idle l.q
  | launch left =>
      rw [hl.1, hl.2.2.2]
      exact h.launch (wordAt d left)
  | send left k st =>
      obtain ⟨_, hk, hst⟩ := hok
      have hs : Sending (wordAt d left) k st s := h
      rw [step_of_started hs.started]
      rcases Phase.next_send_cases (cyclesPerState clkPeriod) numWords left k
          st with ⟨rfl, rfl, heq⟩ | ⟨rfl, hmore, heq⟩ | ⟨hwait, heq⟩ <;>
        rw [heq]
      · exact hs.finish
      · exact hs.take hc (by omega)
      · exact hs.wait hst hk hwait

/-- The word sequencer follows the phases. -/
theorem LoaderSim.next {d : Fin numWords → BitVec 32} {ph : Phase}
    {s : Lmk04816.State clkPeriod} {l : Loader.State numWords}
    (h : LoaderSim d ph l) (hs : ChipSim d ph s) (c : Nat) :
    LoaderSim d (ph.next c numWords) (Loader.step l d s.ready) ∧
      (ph = .idle 0 → (Loader.step l d s.ready).done = true) := by
  cases ph with
  | fresh =>
      obtain ⟨hstart, hdone, hleft⟩ := h
      have hr : s.ready = false := hs.ready
      refine ⟨?_, fun heq => Phase.noConfusion heq⟩
      unfold Loader.step
      rw [hr]
      exact ⟨rfl, fun hd => absurd hd (by simp), hleft⟩
  | idle left =>
      obtain ⟨hstart, hdone, hleft⟩ := h
      have hr : s.ready = true := hs.ready
      unfold Loader.step
      rw [hr, hstart, hleft]
      cases left with
      | zero =>
          exact ⟨⟨rfl, fun _ => rfl, rfl⟩, fun _ => rfl⟩
      | succ left =>
          have hne : l.wordsLeft ≠ 0 := by
            intro hzero
            rw [hzero] at hleft
            exact absurd hleft (by simp)
          have hpred := toNat_pred hne
          rw [hleft, Nat.add_sub_cancel] at hpred
          refine ⟨⟨rfl, rfl, hpred, ?_⟩, fun heq => ?_⟩
          · show wordAt d (l.wordsLeft - 1).toNat = wordAt d left
            rw [hpred]
          · exact absurd heq (by simp)
  | launch left =>
      obtain ⟨hstart, hdone, hleft, hq⟩ := h
      refine ⟨?_, fun heq => Phase.noConfusion heq⟩
      unfold Loader.step
      rw [hstart, Bool.not_true, Bool.and_false]
      exact ⟨rfl, rfl, hleft⟩
  | send left k st =>
      obtain ⟨hstart, hdone, hleft⟩ := h
      have hchip : Sending (wordAt d left) k st s := hs
      refine ⟨?_, fun heq => Phase.noConfusion heq⟩
      unfold Loader.step
      rw [hchip.ready]
      rcases Phase.next_send_cases c numWords left k st with
        ⟨_, _, heq⟩ | ⟨_, _, heq⟩ | ⟨_, heq⟩ <;> rw [heq]
      · exact ⟨rfl, fun hd => absurd hd (by simp), hleft⟩
      · exact ⟨rfl, rfl, hleft⟩
      · exact ⟨rfl, rfl, hleft⟩

/-- The lines of the serializer are those of the phase. -/
theorem ChipSim.lines {d : Fin numWords → BitVec 32} {ph : Phase}
    {s : Lmk04816.State clkPeriod} (h : ChipSim d ph s) :
    s.clkUWire = ph.clk ∧ s.leUWire = ph.le := by
  cases ph with
  | fresh => exact ⟨h.clk, h.le⟩
  | idle left => exact ⟨h.clk, h.le⟩
  | launch left => exact ⟨h.clk, h.le⟩
  | send left k st => exact ⟨Sending.clk h, Sending.le h⟩

/-! ## The receiver -/

/-- What has been latched when the words from index `left` on have been sent:
the last of them first, each after 32 clock edges. -/
def sent (d : Fin numWords → BitVec 32) (left : Nat) :
    List (Nat × BitVec 32) :=
  ((List.ofFn d).drop left).reverse.map fun w => (32, w)

theorem sent_all (d : Fin numWords → BitVec 32) :
    sent d numWords = [] := by
  unfold sent
  rw [List.drop_eq_nil_of_le (by simp)]
  rfl

theorem sent_next (d : Fin numWords → BitVec 32) {left : Nat}
    (hleft : left < numWords) :
    sent d left = sent d (left + 1) ++ [(32, wordAt d left)] := by
  unfold sent wordAt
  rw [List.drop_eq_getElem_cons (by simpa using hleft)]
  simp [hleft]

/-- The receiver in a phase. While a word is being sent it has the bits of
half of the steps. -/
def ReceiverSim (d : Fin numWords → BitVec 32) : Phase → Receiver → Prop
  | .fresh, g => g.edges = 0 ∧ g.latched = []
  | .idle left, g => g.edges = 0 ∧ g.latched = sent d left
  | .launch left, g => g.edges = 0 ∧ g.latched = sent d (left + 1)
  | .send left k _, g =>
      if k < 65 then
        g.edges = (k + 1) / 2 ∧ g.latched = sent d (left + 1) ∧
          ∀ i, i < (k + 1) / 2 →
            g.shift.getLsbD i =
              (wordAt d left).getLsbD (32 - (k + 1) / 2 + i)
      else g.edges = 0 ∧ g.latched = sent d left

variable {g : Receiver} {a b : Lmk04816.State clkPeriod}

theorem receive_quiet
    (hclk : (!a.clkUWire && b.clkUWire) = false)
    (hle : (!a.leUWire && b.leUWire) = false) :
    receive g a b = g := by
  simp [receive, hclk, hle]

theorem receive_clk
    (hclk : (!a.clkUWire && b.clkUWire) = true)
    (hle : (!a.leUWire && b.leUWire) = false) :
    receive g a b =
      { g with
        shift := g.shift.setWidth 31 ++ BitVec.ofBool b.dataUWire
        edges := g.edges + 1 } := by
  simp [receive, hclk, hle]

theorem receive_le
    (hclk : (!a.clkUWire && b.clkUWire) = false)
    (hle : (!a.leUWire && b.leUWire) = true) :
    receive g a b =
      { g with
        edges := 0
        latched := g.latched ++ [(g.edges, g.shift)] } := by
  simp [receive, hclk, hle]

/-- The receiver follows a step of the lines. -/
theorem ReceiverSim.take {d : Fin numWords → BitVec 32} {left k st st' : Nat}
    (h : ReceiverSim d (.send left k st) g) (hleft : left < numWords)
    (hk : k < 66)
    (ha : Sending (wordAt d left) k st a)
    (hb : Sending (wordAt d left) (k + 1) st' b) :
    ReceiverSim d (.send left (k + 1) st') (receive g a b) := by
  have hclk : (!a.clkUWire && b.clkUWire) = decide (k % 2 = 0 ∧ k < 64) := by
    rw [ha.clk, hb.clk, ← decide_not, ← Bool.decide_and, decide_eq_decide]
    omega
  have hle : (!a.leUWire && b.leUWire) = decide (k = 64) := by
    rw [ha.le, hb.le, ← decide_not, ← Bool.decide_and, decide_eq_decide]
    omega
  simp only [ReceiverSim] at h ⊢
  rcases (by omega : k < 64 ∧ k % 2 = 0 ∨ k < 64 ∧ k % 2 = 1 ∨ k = 64 ∨
      k = 65) with ⟨hlow, heven⟩ | ⟨hlow, hodd⟩ | rfl | rfl
  · -- a rising clock edge takes the next bit
    rw [if_pos (by omega)] at h
    obtain ⟨hedges, hlatched, hbits⟩ := h
    rw [receive_clk (hclk.trans (by simp [hlow, heven]))
      (hle.trans (by simp; omega)), if_pos (by omega)]
    refine ⟨by simp only [hedges]; omega, hlatched, fun i hi => ?_⟩
    simp only [BitVec.getLsbD_append]
    by_cases hnew : i < 1
    · obtain rfl : i = 0 := by omega
      rw [if_pos (by omega), hb.data, BitVec.getLsbD_shiftLeft,
        show 32 - (k + 1 + 1) / 2 + 0 = 31 - (k + 1) / 2 by omega]
      simp
      omega
    · rw [if_neg hnew, BitVec.getLsbD_setWidth, hbits (i - 1) (by omega),
        show 32 - (k + 1) / 2 + (i - 1) = 32 - (k + 1 + 1) / 2 + i by omega]
      simp
      omega
  · rw [if_pos (by omega)] at h
    rw [receive_quiet (hclk.trans (by simp; omega))
      (hle.trans (by simp; omega)), if_pos (by omega),
      show (k + 1 + 1) / 2 = (k + 1) / 2 by omega]
    exact h
  · -- the rising latch edge finds the whole word
    rw [if_pos (by omega)] at h
    obtain ⟨hedges, hlatched, hbits⟩ := h
    have hword : g.shift = wordAt d left := by
      apply BitVec.eq_of_getLsbD_eq
      intro i hi
      rw [hbits i hi]
      congr 1
      omega
    rw [receive_le (hclk.trans (by simp)) (hle.trans (by simp)),
      if_neg (by omega)]
    refine ⟨rfl, ?_⟩
    rw [hedges, hlatched, hword, sent_next d hleft]
  · rw [if_neg (by omega)] at h
    rw [receive_quiet (hclk.trans (by simp)) (hle.trans (by simp)),
      if_neg (by omega)]
    exact h

/-- The receiver follows the phases. -/
theorem ReceiverSim.next {d : Fin numWords → BitVec 32} {ph : Phase} {c : Nat}
    (h : ReceiverSim d ph g) (hok : ph.Ok c numWords)
    (ha : ChipSim d ph a) (hb : ChipSim d (ph.next c numWords) b) :
    ReceiverSim d (ph.next c numWords) (receive g a b) := by
  obtain ⟨hclk, hle⟩ := ha.lines
  obtain ⟨hclk', hle'⟩ := hb.lines
  cases ph with
  | fresh =>
      rw [receive_quiet (by simp [hclk, hclk', Phase.clk, Phase.next])
        (by simp [hle, hle', Phase.le, Phase.next])]
      exact ⟨h.1, h.2.trans (sent_all d).symm⟩
  | idle left =>
      cases left with
      | zero =>
          rw [receive_quiet (by simp [hclk, hclk', Phase.clk, Phase.next])
            (by simp [hle, hle', Phase.le, Phase.next])]
          exact h
      | succ left =>
          rw [receive_quiet (by simp [hclk, hclk', Phase.clk, Phase.next])
            (by simp [hle, hle', Phase.le, Phase.next])]
          exact h
  | launch left =>
      rw [receive_quiet (by simp [hclk, hclk', Phase.clk, Phase.next])
        (by simp [hle, hle', Phase.le, Phase.next])]
      refine ⟨h.1, h.2, fun i hi => ?_⟩
      omega
  | send left k st =>
      obtain ⟨hleft, hk, _⟩ := hok
      rcases Phase.next_send_cases c numWords left k st with
        ⟨_, rfl, heq⟩ | ⟨_, hmore, heq⟩ | ⟨_, heq⟩
      · rw [heq] at hclk' hle' ⊢
        rw [receive_quiet (by simp [hclk, hclk', Phase.clk])
          (by simp [hle, hle', Phase.le])]
        exact h
      · rw [heq] at hb ⊢
        exact h.take hleft (by omega) ha hb
      · rw [heq] at hclk' hle' ⊢
        rw [receive_quiet (by rw [hclk, hclk']; exact Bool.not_and_self _)
          (by rw [hle, hle']; exact Bool.not_and_self _)]
        exact h

/-! ## Runs -/

/-- The registers and the receiver are as in the phase. -/
structure Simulated (d : Fin numWords → BitVec 32) (ph : Phase)
    (s : State clkPeriod numWords) (g : Receiver) : Prop where
  ok : ph.Ok (cyclesPerState clkPeriod) numWords
  chip : ChipSim d ph s.chip
  loader : LoaderSim d ph s.loader
  receiver : ReceiverSim d ph g

/-- Every clock leads to the next phase. -/
theorem Simulated.next {d : Fin numWords → BitVec 32} {ph : Phase}
    {s : State clkPeriod numWords} {g : Receiver}
    (h : Simulated d ph s g) (hc : 1 ≤ cyclesPerState clkPeriod) :
    Simulated d (ph.next (cyclesPerState clkPeriod) numWords) (step s d)
      (receive g s.chip (step s d).chip) := by
  have hchip := h.chip.next h.loader hc h.ok
  exact ⟨Phase.next_ok hc h.ok, hchip, (h.loader.next h.chip _).1,
    h.receiver.next h.ok h.chip hchip⟩

/-- The phase before clock edge `t` of any run. -/
def phaseAt (clkPeriod numWords t : Nat) : Phase :=
  (Phase.next (cyclesPerState clkPeriod) numWords)^[t] .fresh

theorem phaseAt_succ (t : Nat) :
    phaseAt clkPeriod numWords (t + 1) =
      (phaseAt clkPeriod numWords t).next (cyclesPerState clkPeriod)
        numWords :=
  Function.iterate_succ_apply' _ _ _

/-- From a phase in which no word is left nothing moves any more. -/
theorem phaseAt_stays {t u : Nat}
    (hph : phaseAt clkPeriod numWords t = .idle 0) (htu : t ≤ u) :
    phaseAt clkPeriod numWords u = .idle 0 := by
  induction u, htu using Nat.le_induction with
  | base => exact hph
  | succ u _ ih =>
      rw [phaseAt_succ, ih]
      rfl

theorem phaseAt_ok (hclk : 1 ≤ clkPeriod) (numWords t : Nat) :
    (phaseAt clkPeriod numWords t).Ok (cyclesPerState clkPeriod)
      numWords := by
  induction t with
  | zero => exact trivial
  | succ t ih =>
      rw [phaseAt_succ]
      exact Phase.next_ok (one_le_cyclesPerState hclk) ih

/-- No word is left after as many clocks as the measure says. -/
theorem phaseAt_idle (hclk : 1 ≤ clkPeriod) (numWords m t : Nat)
    (hm : (phaseAt clkPeriod numWords t).measure (cyclesPerState clkPeriod)
      numWords ≤ m) :
    ∃ u, phaseAt clkPeriod numWords u = .idle 0 := by
  induction m generalizing t with
  | zero =>
      by_contra hnone
      have hfall := Phase.measure_next (one_le_cyclesPerState hclk)
        (phaseAt_ok hclk numWords t)
        (fun hph => hnone ⟨t, hph⟩)
      omega
  | succ m ih =>
      by_cases hph : phaseAt clkPeriod numWords t = .idle 0
      · exact ⟨t, hph⟩
      · have hfall := Phase.measure_next (one_le_cyclesPerState hclk)
          (phaseAt_ok hclk numWords t) hph
        refine ih (t + 1) ?_
        rw [phaseAt_succ]
        omega

namespace Run

variable {r : Run clkPeriod numWords}

theorem simulated (hclk : 1 ≤ clkPeriod) (x : BitVec 32) (t : Nat) :
    Simulated r.words (phaseAt clkPeriod numWords t) (r.state t) (r.receiver x t) := by
  induction t with
  | zero =>
      have hfit : numWords < 2 ^ leftWidth numWords :=
        Nat.lt_of_succ_lt (succ_lt_two_pow_clog (le_refl numWords))
      exact ⟨trivial, ⟨rfl, rfl, rfl, rfl⟩,
        ⟨rfl, rfl, (BitVec.toNat_ofNat _ _).trans (Nat.mod_eq_of_lt hfit)⟩,
        ⟨rfl, rfl⟩⟩
  | succ t ih =>
      rw [phaseAt_succ]
      exact ih.next (one_le_cyclesPerState hclk)

/-- `done` is high only when no word is left. -/
theorem phase_of_done (hclk : 1 ≤ clkPeriod) {t : Nat}
    (hdone : r.done t = true) :
    phaseAt clkPeriod numWords t = .idle 0 := by
  have hl := (simulated (r := r) hclk 0 t).loader
  have hdone' : (r.state t).loader.done = true := hdone
  cases hph : phaseAt clkPeriod numWords t with
  | fresh =>
      rw [hph] at hl
      rw [hl.2.1] at hdone'
      exact absurd hdone' (by simp)
  | idle left =>
      rw [hph] at hl
      rw [hl.2.1 hdone']
  | launch left =>
      rw [hph] at hl
      rw [hl.2.1] at hdone'
      exact absurd hdone' (by simp)
  | send left k st =>
      rw [hph] at hl
      rw [hl.2.1] at hdone'
      exact absurd hdone' (by simp)

theorem done_succ (hclk : 1 ≤ clkPeriod) {t : Nat}
    (hph : phaseAt clkPeriod numWords t = .idle 0) :
    r.done (t + 1) = true := by
  have hs := simulated (r := r) hclk 0 t
  exact (hs.loader.next hs.chip 0).2 hph

/-- What the chip has got when `done` is high. -/
structure Programmed (r : Run clkPeriod numWords) (x : BitVec 32) (t : Nat) :
    Prop where
  latched : (r.receiver x t).latched =
    (List.ofFn r.words).reverse.map fun w => (32, w)
  edges : (r.receiver x t).edges = 0

/-- The data line does not move when the clock line rises, so it does not
matter on which side of the edge the receiver looks at it. -/
theorem dataLine_stable (hclk : 1 ≤ clkPeriod) (r : Run clkPeriod numWords)
    (t : Nat) (hbefore : r.clkLine t = false)
    (hafter : r.clkLine (t + 1) = true) :
    r.dataLine (t + 1) = r.dataLine t := by
  have hs := (simulated (r := r) hclk 0 t).chip
  have hs' := (simulated (r := r) hclk 0 (t + 1)).chip
  have hclk' : r.clkLine (t + 1) = (phaseAt clkPeriod numWords (t + 1)).clk :=
    hs'.lines.1
  rw [phaseAt_succ] at hs' hclk'
  rw [hafter] at hclk'
  cases hph : phaseAt clkPeriod numWords t with
  | send left k st =>
      rw [hph] at hs hs' hclk'
      have ha : Sending (wordAt r.words left) k st (r.state t).chip := hs
      have hlow : r.clkLine t = decide (k % 2 = 1 ∧ k < 65) := ha.clk
      rw [hbefore] at hlow
      have hstep := of_decide_eq_false hlow.symm
      rcases Phase.next_send_cases (cyclesPerState clkPeriod) numWords left k
          st with ⟨_, _, heq⟩ | ⟨_, _, heq⟩ | ⟨_, heq⟩ <;>
        rw [heq] at hs' hclk'
      · exact absurd hclk' (by simp [Phase.clk])
      · have hb : Sending (wordAt r.words left) (k + 1) _
            (r.state (t + 1)).chip := hs'
        have hhigh : (k + 1) % 2 = 1 ∧ k + 1 < 65 :=
          of_decide_eq_true hclk'.symm
        refine hb.data.trans (Eq.trans ?_ ha.data.symm)
        rw [show (k + 1) / 2 = k / 2 by omega]
      · exact absurd (of_decide_eq_true hclk'.symm) hstep
  | fresh =>
      rw [hph] at hclk'
      exact absurd hclk' (by simp [Phase.next, Phase.clk])
  | idle left =>
      rw [hph] at hclk'
      cases left <;> exact absurd hclk' (by simp [Phase.next, Phase.clk])
  | launch left =>
      rw [hph] at hclk'
      exact absurd hclk' (by simp [Phase.next, Phase.clk])

/-- **The clock chip is programmed completely.** The sequencer gets done; from
then on the chip has latched every word once, the last one first, each after
exactly 32 clock edges; the clock line is low while the latch line is high, and
once `done` is high it stays so and neither line moves. -/
theorem programming_complete (hclk : 1 ≤ clkPeriod)
    (r : Run clkPeriod numWords) (x : BitVec 32) :
    (∃ t, r.done t = true) ∧
    (∀ t, r.done t = true → Programmed r x t) ∧
    (∀ t, r.leLine t = true → r.clkLine t = false) ∧
    ∀ t, r.done t = true → ∀ u, t ≤ u →
      r.done u = true ∧ r.clkLine u = false ∧ r.leLine u = false := by
  have hlines := fun t => (simulated (r := r) hclk x t).chip.lines
  refine ⟨?_, fun t hdone => ?_, fun t hle => ?_, fun t hdone u htu => ?_⟩
  · obtain ⟨u, hu⟩ := phaseAt_idle hclk numWords _ 0 (le_refl _)
    exact ⟨u + 1, done_succ hclk hu⟩
  · have hg := (simulated (r := r) hclk x t).receiver
    rw [phase_of_done hclk hdone] at hg
    exact ⟨hg.2, hg.1⟩
  · have hle' : (phaseAt clkPeriod numWords t).le = true := (hlines t).2.symm.trans hle
    refine (hlines t).1.trans ?_
    cases hph : phaseAt clkPeriod numWords t with
    | send left k st =>
        rw [hph] at hle'
        have hk : k = 65 := of_decide_eq_true hle'
        simp [Phase.clk, hk]
    | _ => rfl
  · have hph := phaseAt_stays (phase_of_done hclk hdone) htu
    have hl := hlines u
    rw [hph] at hl
    refine ⟨?_, hl.1, hl.2⟩
    rcases Nat.eq_or_lt_of_le htu with rfl | hlt
    · exact hdone
    · obtain ⟨v, rfl⟩ : ∃ v, u = v + 1 := ⟨u - 1, by omega⟩
      exact done_succ hclk (phaseAt_stays (phase_of_done hclk hdone) (by omega))

/-- Three words at a clock period of 20 ns. -/
def threeWords : Run 20 3 :=
  { before :=
      { chip := ⟨true, 1, 3, 7, true, true, true, true⟩
        loader := ⟨9, true, true, 1⟩ }
    words := fun i => 0x80000001#32 + BitVec.ofNat 32 (16 * i.val) }

theorem programming_complete_threeWords :
    ∃ t, threeWords.done t = true ∧
      (threeWords.receiver 0 t).latched =
        [(32, 0x80000021), (32, 0x80000011), (32, 0x80000001)] := by
  have hall := programming_complete (by omega) threeWords 0
  obtain ⟨t, hdone⟩ := hall.1
  exact ⟨t, hdone, (hall.2.1 t hdone).latched.trans (by decide)⟩

end Run

end Uwire
end MollerFirmware
