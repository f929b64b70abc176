import MollerFirmware.Hdl.CaptureStatistics
import MollerFirmware.Hdl.CaptureCycles

/-!
# The extrema of a packet

`ch_min` and `ch_max` follow the samples of a region, and `ch_misc` packs them
for the packet. The packing happens in the clock in which a sample is taken
in, from the values before it, so that the last sample of a packet is not
among those of which `ch_misc` reports the extrema.

The results hold for every configuration with a nonzero `ena_delay`, also when
`ena_delay + start_delay` overflows. `Seen` observes which samples went into
the sums of a channel, into its extrema and into `ch_misc`.
-/

namespace MollerFirmware
namespace CaptureSystem

open Clocked SubsystemCapture

namespace Configured

open Run

variable {r : Run} (h : Configured r.config)
include h

/-- In a configuration whose delays overflow, the integrator is enabled only
while the cycle is active. -/
theorem active_of_ena (hover : 65536 ≤ r.config.delay) {t : Nat}
    (hena : r.ena t = true) :
    r.active t = true := by
  have hle := (ena_iff t).mp hena
  have hpos := h.ena
  have hsum : (r.config.enaDelay + r.config.startDelay).toNat =
      r.config.delay - 65536 := by
    have h₁ := r.config.enaDelay.isLt
    have h₂ := r.config.startDelay.isLt
    unfold CaptureControl.Config.delay at hover ⊢
    rw [BitVec.toNat_add]
    omega
  have hstart := r.config.startDelay.isLt
  unfold active CaptureControl.cycleActive
  rw [Bool.and_eq_true, decide_eq_true_eq, decide_eq_true_eq, BitVec.lt_def,
    hsum]
  refine ⟨fun hzero => ?_, ?_⟩
  · rw [hzero] at hle
    simp at hle
    omega
  · unfold CaptureControl.Config.delay at hover ⊢
    omega

/-- A capture follows a sample of an active clock. -/
theorem valid_of_captured {t : Nat} (hcap : r.captured (t + 1) = true) :
    r.active t = true ∧ r.valid t = true := by
  by_cases hdelay : r.config.delay < 65536
  · exact Startable.valid_of_captured ⟨h.ena, hdelay, h.regions, h.size⟩ hcap
  · rw [captured_eq, startReg_succ] at hcap
    have hst : r.started (t + 1) = true := by
      by_contra hno
      simp [hno] at hcap
    have hena : r.ena t = true := by
      rw [Run.started_succ] at hst
      by_contra hno
      simp [hno] at hst
    have hact := h.active_of_ena (by omega) hena
    refine ⟨hact, ?_⟩
    by_contra hv
    -- without a sample nothing changes, so nothing is captured
    have hlow : r.valid t = false := by simpa using hv
    obtain ⟨hcycle, _, hsample⟩ :=
      CaptureControl.step_hold (i := r.ctrlIn t) hact hlow
    rw [← ctrl_succ] at hcycle hsample
    have hena' : r.ena (t + 1) = true := by
      rw [ena_iff, hcycle, ← ena_iff]
      exact hena
    rw [hst, hena', Bool.and_true] at hcap
    simp only [Bool.not_true, Bool.false_and, Bool.or_false,
      Bool.and_eq_true, Bool.not_eq_true'] at hcap
    have hzero := ((h.start_iff (t + 1)).mp hcap.1).2
    rw [hsample] at hzero
    rw [(h.start_iff t).mpr ⟨hact, hzero⟩] at hcap
    exact absurd hcap.2 (by simp)

/-- The clock before a capture has no sample. -/
theorem valid_before_capReg (hs : Spaced 2 r.valid) {t : Nat}
    (hcap : r.capReg (t + 1) = true) :
    r.valid t = false := by
  rcases capReg_cases hcap with hzero | ⟨u, hu, hcaptured⟩
  · exact absurd hzero (by omega)
  · obtain rfl : t = u + 1 := by omega
    exact hs.low_after (h.valid_of_captured hcaptured).2 (by decide)
      (by decide)

/-- In the clock of a capture there is no result on the registers. -/
theorem resultValid_of_capReg (hs : Spaced 2 r.valid) (n : Fin numCh)
    {t : Nat} (hcap : r.capReg t = true) :
    r.resultValid n t = false := by
  cases t with
  | zero => exact resultValid_zero
  | succ t =>
      rw [resultValid_succ_chValid]
      simp [chValid, h.valid_before_capReg hs hcap]

/-- Unless a cycle is active right after its trigger, it does not become active
without a sample. -/
theorem active_before_quiet (hdelay : r.config.delay ≠ 65536) {t : Nat}
    (hlow : r.valid t = false) (hact' : r.active (t + 1) = true) :
    r.active t = true := by
  by_contra hact
  rw [Bool.not_eq_true] at hact
  rcases CaptureControl.step_waiting_cases (i := r.ctrlIn t) hact with
    ⟨_, hone, _, _⟩ | ⟨hnext, _, _⟩
  · -- the trigger itself would have to make the cycle active
    rw [← ctrl_succ] at hone
    unfold active CaptureControl.cycleActive at hact'
    rw [Bool.and_eq_true, decide_eq_true_eq, decide_eq_true_eq, hone,
      BitVec.lt_def, BitVec.toNat_add] at hact'
    have hsum := hact'.2
    have hpos := h.ena
    have h₁ := r.config.enaDelay.isLt
    have h₂ := r.config.startDelay.isLt
    unfold CaptureControl.Config.delay at hdelay
    simp at hsum
    omega
  · have hv : (r.ctrlIn t).valid = false := hlow
    have hsame : (r.ctrl (t + 1)).cycleCnt = (r.ctrl t).cycleCnt := by
      rw [ctrl_succ, hnext]
      simp only [CaptureControl.cycleCntNext, hv, Bool.false_eq_true,
        if_false]
      split_ifs with hz
      · rfl
      · simpa using (not_not.mp hz).symm
    unfold active CaptureControl.cycleActive at hact hact'
    rw [hsame, hact] at hact'
    exact absurd hact' (by simp)

/-- So the extrema are not initialised in the clock of a capture. -/
theorem initMm_of_capReg (hs : Spaced 2 r.valid)
    (hdelay : r.config.delay ≠ 65536) {t : Nat} (hcap : r.capReg t = true) :
    initMm (r.cap t) (r.capIn t) = false := by
  cases t with
  | zero =>
      have hst : (r.capIn 0).start = false := h.start_of_inactive active_zero
      simp [initMm, hst]
  | succ t =>
      have hlow := h.valid_before_capReg hs hcap
      rw [initMm_succ]
      by_contra hrise
      simp only [Bool.not_eq_false, Bool.and_eq_true,
        Bool.not_eq_true'] at hrise
      obtain ⟨hact', hzero⟩ := (h.start_iff (t + 1)).mp hrise.1
      have hact := h.active_before_quiet hdelay hlow hact'
      have hsample :=
        (CaptureControl.step_hold (i := r.ctrlIn t) hact hlow).2.2
      rw [← ctrl_succ, hzero] at hsample
      rw [(h.start_iff t).mpr ⟨hact, hsample.symm⟩] at hrise
      exact absurd hrise.2 (by simp)

end Configured

namespace Run

variable {r : Run} {n : Fin numCh}

/-! ## The samples of a channel -/

/-- The samples that are in the sums of a channel, those of which its extrema
are kept, and those of which `ch_misc` reports the extrema. -/
structure Seen where
  summed : List Int
  ranged : List Int
  reported : List Int

/-- What one clock does to them, branch by branch as in `channelStep`. -/
def watchChannel (n : Fin numCh) (g : Seen) (s : SubsystemCapture.State)
    (i : SubsystemCapture.Input) : Seen :=
  let x := (s.ch n).resultSum.toInt
  if initMm s i then { g with ranged := [] }
  else if s.capReg then
    { g with
      summed := if i.ena && (s.ch n).resultValid then [x] else []
      ranged := [] }
  else if accumulating s i && (s.ch n).resultValid then
    { summed := g.summed ++ [x]
      ranged := g.ranged ++ [x]
      reported := g.ranged }
  else g

/-- The samples before clock `t`. -/
def seen (r : Run) (n : Fin numCh) : Nat → Seen
  | 0 => ⟨[], [], []⟩
  | t + 1 => watchChannel n (seen r n t) (r.cap t) (r.capIn t)

/-- The minimum field of a `ch_misc` word. -/
def miscMin (x : BitVec 64) : Int :=
  (x.extractLsb' 20 20).toInt

/-- The maximum field of a `ch_misc` word. -/
def miscMax (x : BitVec 64) : Int :=
  (x.extractLsb' 0 20).toInt

/-- What the registers of a channel hold of the samples that were seen. -/
structure Holds (c : Channel) (g : Seen) : Prop where
  sum : c.chSum = BitVec.ofInt 64 g.summed.sum
  count : c.chSampleCount = BitVec.ofNat 64 g.summed.length
  low : c.chMin.toInt = lowest 524287 g.ranged
  high : c.chMax.toInt = highest (-524288) g.ranged
  misc : g.summed ≠ [] →
    miscMin c.chMisc = lowest 524287 g.reported ∧
      miscMax c.chMisc = highest (-524288) g.reported
  ranged : g.ranged ⊆ g.summed
  reported : g.summed ≠ [] → g.reported ⊆ g.summed
  bounded : ∀ x ∈ g.summed, -131072 ≤ x ∧ x ≤ 131071

/-- The two fields of the word that `ch_misc` packs. -/
theorem misc_fields (trigger : BitVec 2) (lo hi : BitVec 20) :
    miscMin (0#22 ++ trigger ++ lo ++ hi) = lo.toInt ∧
      miscMax (0#22 ++ trigger ++ lo ++ hi) = hi.toInt := by
  have hmin : (0#22 ++ trigger ++ lo ++ hi).extractLsb' 20 20 = lo := by
    apply BitVec.eq_of_getLsbD_eq
    intro j hj
    rw [BitVec.getLsbD_extractLsb', BitVec.getLsbD_append,
      BitVec.getLsbD_append, if_neg (by omega), if_pos (by omega)]
    simp [hj]
  have hmax : (0#22 ++ trigger ++ lo ++ hi).extractLsb' 0 20 = hi :=
    BitVec.extractLsb'_append_eq_right
  exact ⟨congrArg BitVec.toInt hmin, congrArg BitVec.toInt hmax⟩

theorem min_toInt (x y : BitVec 20) :
    (if x.slt y then x else y).toInt = min y.toInt x.toInt := by
  rw [BitVec.slt_eq_decide]
  split_ifs with hlt
  · exact (min_eq_right (of_decide_eq_true hlt).le).symm
  · exact (min_eq_left (not_lt.mp (by simpa using hlt))).symm

theorem max_toInt (x y : BitVec 20) :
    (if y.slt x then x else y).toInt = max y.toInt x.toInt := by
  rw [BitVec.slt_eq_decide]
  split_ifs with hlt
  · exact (max_eq_right (of_decide_eq_true hlt).le).symm
  · exact (max_eq_left (not_lt.mp (by simpa using hlt))).symm

/-- Initialising the extrema. -/
theorem Holds.initialised {c c' : Channel} {g : Seen} (h : Holds c g)
    (hsum : c'.chSum = c.chSum) (hcount : c'.chSampleCount = c.chSampleCount)
    (hmisc : c'.chMisc = c.chMisc)
    (hmin : c'.chMin = 0x7FFFF) (hmax : c'.chMax = 0x80000) :
    Holds c' { g with ranged := [] } := by
  refine ⟨hsum.trans h.sum, hcount.trans h.count, ?_, ?_, ?_,
    List.nil_subset _, h.reported, h.bounded⟩
  · rw [hmin]
    rfl
  · rw [hmax]
    rfl
  · rw [hmisc]
    exact h.misc

/-- Taking a sample in. -/
theorem Holds.taken {c c' : Channel} {g : Seen} (h : Holds c g)
    {x : BitVec 20} {trigger : BitVec 2}
    (hwide : wide x = BitVec.ofInt 64 x.toInt)
    (hx : -131072 ≤ x.toInt ∧ x.toInt ≤ 131071)
    (hsum : c'.chSum = c.chSum + wide x)
    (hcount : c'.chSampleCount = c.chSampleCount + 1)
    (hmin : c'.chMin = if x.slt c.chMin then x else c.chMin)
    (hmax : c'.chMax = if c.chMax.slt x then x else c.chMax)
    (hmisc : c'.chMisc = 0#22 ++ trigger ++ c.chMin ++ c.chMax) :
    Holds c'
      { summed := g.summed ++ [x.toInt]
        ranged := g.ranged ++ [x.toInt]
        reported := g.ranged } := by
  refine ⟨?_, ?_, ?_, ?_, fun _ => ?_, ?_, fun _ => ?_, fun y hy => ?_⟩
  · rw [hsum, h.sum, hwide, List.sum_append, BitVec.ofInt_add]
    simp
  · rw [hcount, h.count, List.length_append, BitVec.ofNat_add]
    rfl
  · rw [hmin, min_toInt, h.low, lowest_concat]
  · rw [hmax, max_toInt, h.high, highest_concat]
  · rw [hmisc, ← h.low, ← h.high]
    exact misc_fields _ _ _
  · intro y hy
    rcases List.mem_append.mp hy with hy | hy
    · exact List.mem_append_left _ (h.ranged hy)
    · exact List.mem_append_right _ hy
  · exact fun y hy => List.mem_append_left _ (h.ranged hy)
  · rcases List.mem_append.mp hy with hy | hy
    · exact h.bounded y hy
    · rw [List.mem_singleton] at hy
      rwa [hy]

/-- One clock of a channel; a capture finds no result on the registers. -/
theorem Holds.next {s : SubsystemCapture.State} {i : SubsystemCapture.Input}
    {n : Fin numCh} {g : Seen} (h : Holds (s.ch n) g)
    (hquiet : s.capReg = true → (s.ch n).resultValid = false)
    (hwide : wide (s.ch n).resultSum =
      BitVec.ofInt 64 (s.ch n).resultSum.toInt)
    (hx : -131072 ≤ (s.ch n).resultSum.toInt ∧
      (s.ch n).resultSum.toInt ≤ 131071) :
    Holds (channelStep s i n) (watchChannel n g s i) := by
  unfold channelStep watchChannel
  cases hinit : initMm s i with
  | true => exact h.initialised rfl rfl rfl rfl rfl
  | false =>
      cases hcap : s.capReg with
      | true =>
          simp only [Bool.false_eq_true, if_false, if_true, hquiet hcap,
            Bool.and_false]
          exact ⟨rfl, rfl, rfl, rfl, fun hne => absurd rfl hne,
            List.nil_subset _, fun hne => absurd rfl hne,
            fun x hx => absurd hx (by simp)⟩
      | false =>
          cases hacc : accumulating s i && (s.ch n).resultValid with
          | true =>
              simp only [Bool.false_eq_true, if_false, hacc, if_true]
              exact h.taken hwide hx rfl rfl rfl rfl rfl
          | false =>
              simp only [Bool.false_eq_true, if_false, hacc]
              exact ⟨h.sum, h.count, h.low, h.high, h.misc, h.ranged,
                h.reported, h.bounded⟩

/-- `result_sum` is the sample of the clock before. -/
theorem resultSum_succ (t : Nat) :
    ((r.cap (t + 1)).ch n).resultSum =
      ((r.input t).sampleChData n).signExtend 20 :=
  (step_resultSum (r.cap t) (r.capIn t) n).trans (resultSumOf_eq _)

theorem resultSum_toInt_succ (t : Nat) :
    ((r.cap (t + 1)).ch n).resultSum.toInt = r.value n t := by
  rw [resultSum_succ]
  exact BitVec.toInt_signExtend_of_le (by decide)

theorem resultSum_zero : ((r.cap 0).ch n).resultSum = 0 := by
  rfl

theorem wide_resultSum (t : Nat) :
    wide ((r.cap t).ch n).resultSum =
      BitVec.ofInt 64 ((r.cap t).ch n).resultSum.toInt := by
  cases t with
  | zero =>
      rw [resultSum_zero]
      rfl
  | succ t =>
      rw [resultSum_toInt_succ, resultSum_succ, ← resultSumOf_eq,
        wide_resultSumOf]
      rfl

theorem resultSum_bounded (t : Nat) :
    -131072 ≤ ((r.cap t).ch n).resultSum.toInt ∧
      ((r.cap t).ch n).resultSum.toInt ≤ 131071 := by
  cases t with
  | zero =>
      rw [resultSum_zero]
      decide
  | succ t =>
      rw [resultSum_toInt_succ]
      have hlow := BitVec.le_two_mul_toInt (x := (r.input t).sampleChData n)
      have hhigh := BitVec.two_mul_toInt_lt (x := (r.input t).sampleChData n)
      unfold value
      constructor <;> omega

/-- In every clock of every run the registers of a channel hold the samples
that were seen. -/
theorem holds (h : Configured r.config) (hs : Spaced 2 r.valid)
    (n : Fin numCh) (t : Nat) :
    Holds ((r.cap t).ch n) (r.seen n t) := by
  induction t with
  | zero =>
      exact ⟨rfl, rfl, rfl, rfl, fun hne => absurd rfl hne,
        List.nil_subset _, fun hne => absurd rfl hne,
        fun x hx => absurd hx (by simp [seen])⟩
  | succ t ih =>
      exact ih.next (fun hcap => h.resultValid_of_capReg hs n hcap)
        (wide_resultSum t) (resultSum_bounded t)

/-! ## Which samples `ch_misc` lacks -/

/-- How the three lists of samples are related between two clocks. -/
structure SeenInv (r : Run) (n : Fin numCh) (t : Nat) : Prop where
  same : r.capReg t = false → (r.seen n t).summed = (r.seen n t).ranged
  idle : r.started t = false → r.capReg t = false → (r.seen n t).summed = []
  last : (r.seen n t).summed ≠ [] →
    ∃ x, (r.seen n t).summed = (r.seen n t).reported ++ [x]

/-- What is started and then disabled is captured. -/
theorem started_next {t : Nat} (hst : r.started t = true)
    (hcap : r.capReg (t + 1) = false) :
    r.started (t + 1) = true := by
  rw [capReg_succ, captured_eq, hst, Bool.and_true, Bool.and_true,
    Bool.or_eq_false_iff, Bool.not_eq_false'] at hcap
  rw [started_succ, hst, hcap.2]
  simp

theorem not_started_before {t : Nat} (hno : r.started (t + 1) = false)
    (hnext : r.capReg (t + 1) = false) :
    r.started t = false := by
  by_contra hst
  rw [started_next (by simpa using hst) hnext] at hno
  exact absurd hno (by simp)

theorem SeenInv.of_empty {t : Nat} (hsummed : (r.seen n t).summed = [])
    (hranged : (r.seen n t).ranged = []) :
    SeenInv r n t :=
  ⟨fun _ => hsummed.trans hranged.symm, fun _ _ => hsummed,
    fun hne => absurd hsummed hne⟩

theorem seen_succ (t : Nat) :
    r.seen n (t + 1) =
      if initMm (r.cap t) (r.capIn t) then
        { r.seen n t with ranged := [] }
      else if r.capReg t then
        { r.seen n t with
          summed :=
            if r.ena t && r.resultValid n t then
              [((r.cap t).ch n).resultSum.toInt]
            else []
          ranged := [] }
      else if accumulating (r.cap t) (r.capIn t) && r.resultValid n t then
        { summed := (r.seen n t).summed ++ [((r.cap t).ch n).resultSum.toInt]
          ranged := (r.seen n t).ranged ++ [((r.cap t).ch n).resultSum.toInt]
          reported := (r.seen n t).ranged }
      else r.seen n t := by
  rfl

/-- Initialising the extrema comes with a capture, or finds the sums empty. -/
theorem SeenInv.initialised {t : Nat} (hinv : SeenInv r n t)
    (hcap : r.capReg t = false)
    (hinit : initMm (r.cap t) (r.capIn t) = true) :
    SeenInv r n (t + 1) := by
  have hseen := seen_succ (r := r) (n := n) t
  rw [hinit, if_pos rfl] at hseen
  have hempty : r.capReg (t + 1) = false → (r.seen n t).summed = [] := by
    intro hnext
    refine hinv.idle ?_ hcap
    by_contra hno
    have hst : r.started t = true := by simpa using hno
    have hcaptured : r.captured t = true := by
      change (r.start t && !(r.cap t).startReg) = true at hinit
      rw [captured_eq, hinit, hst]
      rfl
    rw [capReg_succ, hcaptured] at hnext
    exact absurd hnext (by simp)
  constructor
  · intro hnext
    rw [hseen]
    exact hempty hnext
  · intro _ hnext
    rw [hseen]
    exact hempty hnext
  · rw [hseen]
    exact hinv.last

/-- A sample reaches all three lists, `reported` without itself. -/
theorem SeenInv.taken {t : Nat} (hinv : SeenInv r n t)
    (hcap : r.capReg t = false)
    (hinit : initMm (r.cap t) (r.capIn t) = false)
    (htake : accumulating (r.cap t) (r.capIn t) && r.resultValid n t) :
    SeenInv r n (t + 1) := by
  have hseen := seen_succ (r := r) (n := n) t
  rw [hinit, hcap, htake] at hseen
  simp only [Bool.false_eq_true, if_false, if_true] at hseen
  constructor
  · intro _
    rw [hseen, hinv.same hcap]
  · intro hno hnext
    rw [accumulating_eq, not_started_before hno hnext, Bool.or_false,
      Bool.and_eq_true] at htake
    rw [started_succ, htake.1] at hno
    exact absurd hno (by simp)
  · intro _
    rw [hseen, hinv.same hcap]
    exact ⟨_, rfl⟩

theorem SeenInv.quiet {t : Nat} (hinv : SeenInv r n t)
    (hcap : r.capReg t = false)
    (hseen : r.seen n (t + 1) = r.seen n t) :
    SeenInv r n (t + 1) := by
  constructor
  · intro _
    rw [hseen]
    exact hinv.same hcap
  · intro hno hnext
    rw [hseen]
    exact hinv.idle (not_started_before hno hnext) hcap
  · rw [hseen]
    exact hinv.last

theorem SeenInv.next (h : Configured r.config) (hs : Spaced 2 r.valid)
    (hdelay : r.config.delay ≠ 65536) {t : Nat} (hinv : SeenInv r n t) :
    SeenInv r n (t + 1) := by
  have hseen := seen_succ (r := r) (n := n) t
  cases hcap : r.capReg t with
  | true =>
      rw [h.initMm_of_capReg hs hdelay hcap, hcap,
        h.resultValid_of_capReg hs n hcap] at hseen
      exact SeenInv.of_empty (by rw [hseen]; simp) (by rw [hseen]; simp)
  | false =>
      cases hinit : initMm (r.cap t) (r.capIn t) with
      | true => exact hinv.initialised hcap hinit
      | false =>
          cases htake : accumulating (r.cap t) (r.capIn t) &&
              r.resultValid n t with
          | true => exact hinv.taken hcap hinit htake
          | false =>
              refine hinv.quiet hcap ?_
              simp [hseen, hinit, hcap, htake]

theorem seenInv (h : Configured r.config) (hs : Spaced 2 r.valid)
    (hdelay : r.config.delay ≠ 65536) (n : Fin numCh) (t : Nat) :
    SeenInv r n t := by
  induction t with
  | zero => exact SeenInv.of_empty rfl rfl
  | succ t ih => exact ih.next h hs hdelay

/-- The extrema that the packet of clock `t` reports are those of the samples
that are in its sums. -/
structure ExtremaExact (r : Run) (n : Fin numCh) (t : Nat) : Prop where
  min : IsLeast {x | x ∈ (r.seen n t).summed}
    (miscMin ((r.cap t).ch n).chMisc)
  max : IsGreatest {x | x ∈ (r.seen n t).summed}
    (miscMax ((r.cap t).ch n).chMisc)

/-- **When the extrema of a packet are right.** They are, exactly when every
sample in the sums lies within the range of the samples that `ch_misc` has
seen. These are all but the last one, unless the delays add up to 65536. The
packet of a capture is an instance, its fields are the registers of that
clock. -/
theorem extrema_exact_iff (h : Configured r.config) (hs : Spaced 8 r.valid)
    {t : Nat} {n : Fin numCh}
    (hsome : 1 ≤ ((r.cap t).ch n).chSampleCount.toNat) :
    (ExtremaExact r n t ↔
      ∀ x ∈ (r.seen n t).summed,
        (∃ y ∈ (r.seen n t).reported, y ≤ x) ∧
          ∃ z ∈ (r.seen n t).reported, x ≤ z) ∧
    (r.config.delay ≠ 65536 →
      ∃ last, (r.seen n t).summed = (r.seen n t).reported ++ [last]) := by
  have hs2 : Spaced 2 r.valid := hs.mono (by omega)
  have hholds := holds h hs2 n t
  have hne : (r.seen n t).summed ≠ [] := by
    intro hempty
    have hcount := hholds.count
    rw [hempty] at hcount
    rw [hcount] at hsome
    exact absurd hsome (by decide)
  refine ⟨?_, fun hdelay => (seenInv h hs2 hdelay n t).last hne⟩
  obtain ⟨hmin, hmax⟩ := hholds.misc hne
  have hleast := isLeast_lowest_iff hne (hholds.reported hne)
    (fun x hx => lt_of_le_of_lt (hholds.bounded x hx).2
      (by decide : (131071 : Int) < 524287))
  have hgreatest := isGreatest_highest_iff hne (hholds.reported hne)
    (fun x hx => lt_of_lt_of_le (by decide : (-524288 : Int) < -131072)
      (hholds.bounded x hx).1)
  rw [← hmin] at hleast
  rw [← hmax] at hgreatest
  constructor
  · rintro ⟨hlow, hhigh⟩ x hx
    exact ⟨hleast.mp hlow x hx, hgreatest.mp hhigh x hx⟩
  · intro hall
    exact ⟨hleast.mpr (fun x hx => (hall x hx).1),
      hgreatest.mpr (fun x hx => (hall x hx).2)⟩

theorem configured_oneRegion : Configured oneRegion :=
  ⟨by decide, by decide, by decide⟩

/-- Two samples of the same value. -/
theorem extrema_exact_oneRegion :
    ExtremaExact (sampledRun oneRegion) 0 19 := by
  have hiff := (extrema_exact_iff configured_oneRegion (n := 0) (t := 19)
    (sampledRun_sampled oneRegion 0).spaced (by decide +kernel)).1
  exact hiff.mpr (by decide +kernel)

/-- A ramp: the sample of a clock is the number of the clock. -/
def rampRun : Run :=
  { sampledRun oneRegion with
    input := fun t =>
      { triggered everyEighth t with
        sampleChData := fun _ => BitVec.ofNat 18 t } }

/-- The sums have the samples 9 and 17, and the maximum is reported as 9. -/
theorem extrema_wrong_ramp :
    Configured oneRegion ∧ Spaced 8 rampRun.valid ∧
      rampRun.capReg 19 = true ∧
      1 ≤ ((rampRun.cap 19).ch 0).chSampleCount.toNat ∧
      ¬ ExtremaExact rampRun 0 19 := by
  refine ⟨configured_oneRegion, (sampledRun_sampled oneRegion 0).spaced,
    by decide +kernel, by decide +kernel, fun hexact => ?_⟩
  have hmem : (17 : Int) ∈ (rampRun.seen 0 19).summed := by decide +kernel
  have hle := hexact.max.2 hmem
  exact absurd hle (by decide +kernel)

end Run
end CaptureSystem
end MollerFirmware
