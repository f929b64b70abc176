import MollerFirmware.Hdl.CaptureWindow
import Mathlib.Algebra.Order.Chebyshev

/-!
# What a captured packet says about the samples

These results need no more of the configuration than that its cycles can
start: a window may be cut off by `cycle_cnt`, and a channel may take part in
some samples only. A window opens in the clock in which the cycle becomes
active.

`window_totals` says that at every capture a window accumulator is the sum of
what the captures of that window have read off the region accumulator.
`region_statistics` says of which samples the region accumulators of a capture
are the number, the sum and the sum of squares: the samples of the channel in
an interval of clocks, and the intervals of two captures are disjoint.
-/

namespace MollerFirmware
namespace CaptureSystem
namespace Run

open Clocked SubsystemCapture

variable {r : Run} {n : Fin numCh}

/-! ## Windows -/

/-- A window opens. -/
def opens (r : Run) : Nat → Bool
  | 0 => false
  | t + 1 => r.active (t + 1) && !r.active t

/-- The clock in which the latest window has opened. -/
def windowStart (r : Run) : Nat → Nat
  | 0 => 0
  | t + 1 => if r.opens (t + 1) then t + 1 else r.windowStart t

theorem opens_succ {t : Nat} (ho : r.opens (t + 1) = true) :
    r.active t = false ∧ r.active (t + 1) = true := by
  unfold opens at ho
  rw [Bool.and_eq_true, Bool.not_eq_true'] at ho
  exact ⟨ho.2, ho.1⟩

theorem active_zero : r.active 0 = false :=
  CaptureControl.reset_inactive _ _ _

/-- The clock after an opening belongs to the window. -/
theorem opens_next {t : Nat} (hact : r.active t = true) :
    r.opens (t + 1) = false := by
  simp [opens, hact]

theorem windowStart_of_opens {t : Nat} (ho : r.opens t = true) :
    r.windowStart t = t := by
  cases t with
  | zero => rfl
  | succ t => simp [windowStart, ho]

theorem windowStart_succ {t : Nat} (ho : r.opens (t + 1) = false) :
    r.windowStart (t + 1) = r.windowStart t := by
  simp [windowStart, ho]

theorem windowStart_le (r : Run) (t : Nat) :
    r.windowStart t ≤ t := by
  induction t with
  | zero => exact le_refl 0
  | succ t ih =>
      unfold windowStart
      split_ifs <;> omega

/-- No window opens in the clock of a capture. -/
theorem opens_of_capReg (h : Startable r.config) (hs : Spaced 2 r.valid)
    {t : Nat} (hcap : r.capReg t = true) :
    r.opens t = false := by
  cases t with
  | zero => rfl
  | succ t =>
      by_contra ho
      obtain ⟨hidle, hact⟩ := opens_succ (by simpa using ho)
      rw [capReg_of_opening h hs hidle hact] at hcap
      exact absurd hcap (by simp)

/-- An active cycle has been active since the latest window opened. -/
theorem active_since_windowStart {t : Nat} (hact : r.active t = true)
    {u : Nat} (hle : r.windowStart t ≤ u) (hut : u ≤ t) :
    r.active u = true := by
  induction t with
  | zero =>
      rw [active_zero] at hact
      exact absurd hact (by simp)
  | succ t ih =>
      rcases Nat.lt_or_ge t u with hlast | hearlier
      · rwa [show u = t + 1 by omega]
      · cases hbefore : r.active t with
        | true =>
            rw [windowStart_succ (opens_next hbefore)] at hle
            exact ih hbefore hle hearlier
        | false =>
            have ho : r.opens (t + 1) = true := by
              simp [opens, hact, hbefore]
            rw [windowStart_of_opens ho] at hle
            omega

/-- A capture comes within two clocks of the window it belongs to. -/
theorem active_before_capture (h : Startable r.config) (hs : Spaced 2 r.valid)
    {t : Nat} (hcap : r.capReg t = true)
    (u : Nat) (hle : r.windowStart t ≤ u) (hut : u + 2 ≤ t) :
    r.active u = true := by
  obtain ⟨v, rfl⟩ : ∃ v, t = v + 2 := ⟨t - 2, by omega⟩
  have hopens := opens_of_capReg h hs hcap
  rw [capReg_succ] at hcap
  have hact := (h.valid_of_captured hcap).1
  rw [windowStart_succ hopens, windowStart_succ (opens_next hact)] at hle
  exact active_since_windowStart hact hle (by omega)

/-! ## Window totals -/

/-- Only an opening clears the accumulators of a window. -/
theorem initMm_of_not_opens (h : Startable r.config) {t : Nat}
    (ho : r.opens t = false) :
    (initMm (r.cap t) (r.capIn t) && !r.started t) = false := by
  cases t with
  | zero =>
      have hst' : (r.capIn 0).start = false := h.start_of_inactive active_zero
      simp [initMm, hst']
  | succ t =>
      rw [initMm_succ, h.started_succ]
      cases hact : r.active t with
      | true => simp
      | false =>
          have hnext : r.active (t + 1) = false := by
            simpa [opens, hact] using ho
          simp [h.start_of_inactive hnext]

/-- A window accumulator is what the captures of the window have read and
what they have left. -/
theorem window_eq_collected (h : Startable r.config) (hs : Spaced 2 r.valid)
    (n : Fin numCh) (q : Quantity) (t : Nat) (ho : r.opens t = false) :
    r.window n q t =
      collected r.capReg (r.region n q) (r.windowStart t) t +
        r.region n q t := by
  induction t with
  | zero =>
      have hempty : r.window n q 0 = 0 ∧ r.region n q 0 = 0 := by
        cases q <;> exact ⟨rfl, rfl⟩
      rw [hempty.1, hempty.2]
      simp [windowStart, collected]
  | succ t ih =>
      rw [windowStart_succ ho]
      cases hprev : r.opens t with
      | true =>
          cases t with
          | zero => exact absurd hprev (by simp [opens])
          | succ t =>
              obtain ⟨hidle, hact⟩ := opens_succ hprev
              obtain ⟨hregion, hwindow⟩ := clear_of_opening h hs hidle hact q
              rw [windowStart_of_opens hprev, collected_succ _ _ (le_refl _),
                capReg_of_opening h hs hidle hact, hregion, hwindow]
              simp [collected]
      | false =>
          rw [window_next h hs, region_next h hs,
            initMm_of_not_opens h hprev, ih hprev,
            collected_succ _ _ (windowStart_le r t)]
          cases r.capReg t with
          | true => simp [add_assoc]
          | false => simp [add_assoc]

/-- The window accumulators of a channel are the sums of what the captures of
the current window have read off its region accumulators. -/
structure WindowTotals (r : Run) (n : Fin numCh) (t : Nat) : Prop where
  current : ∀ u, r.windowStart t ≤ u → u + 2 ≤ t → r.active u = true
  sum :
    ((r.cap t).ch n).chSumWin =
      collected r.capReg (fun u => ((r.cap u).ch n).chSum)
        (r.windowStart t) (t + 1)
  sumOfSquares :
    ((r.cap t).ch n).chSumOfSquaresWin =
      collected r.capReg (fun u => ((r.cap u).ch n).chSumOfSquares)
        (r.windowStart t) (t + 1)
  sampleCount :
    ((r.cap t).ch n).chSampleCountWin =
      collected r.capReg (fun u => ((r.cap u).ch n).chSampleCount)
        (r.windowStart t) (t + 1)

/-- **Window totals are sums of region totals.** -/
theorem window_totals (r : Run)
    (h : Startable r.config) (hs : Spaced 2 r.valid)
    (t : Nat) (hcap : r.capReg t = true) (n : Fin numCh) :
    WindowTotals r n t := by
  have hq : ∀ q, r.window n q t =
      collected r.capReg (r.region n q) (r.windowStart t) (t + 1) := by
    intro q
    rw [window_eq_collected h hs n q t (opens_of_capReg h hs hcap),
      collected_succ _ _ (windowStart_le r t), hcap, if_pos rfl]
  exact ⟨active_before_capture h hs hcap, hq .sum, hq .sumOfSquares,
    hq .sampleCount⟩

theorem window_totals_twoRegions :
    WindowTotals (sampledRun twoRegions) 5 35 :=
  window_totals (sampledRun twoRegions) twoRegions_usable.startable
    (sampledRun_sampled _ 0).spaced_two 35 (by decide +kernel) 5

/-! ## Regions -/

/-- The clock from which on samples belong to the current region. -/
def regionStart (r : Run) : Nat → Nat
  | 0 => 0
  | t + 1 =>
      if r.capReg (t + 1) || r.opens (t + 1) then t + 1 else r.regionStart t

/-- The clocks of an interval in which the channel has a sample. -/
def sampleClocks (r : Run) (n : Fin numCh) (a b : Nat) : Finset Nat :=
  (Finset.Ico a b).filter (fun u => r.chValid n u = true)

/-- The sample of a clock as a number. -/
def value (r : Run) (n : Fin numCh) (t : Nat) : Int :=
  ((r.input t).sampleChData n).toInt

/-- What a sample adds to a quantity, as a number. -/
def worth (x : Int) : Quantity → Int
  | .sampleCount => 1
  | .sum => x
  | .sumOfSquares => x ^ 2

@[simp] theorem worth_sampleCount (x : Int) : worth x .sampleCount = 1 := by
  rfl

/-- A quantity of the samples in an interval of clocks. -/
def total (r : Run) (n : Fin numCh) (q : Quantity) (a b : Nat) : Int :=
  ∑ u ∈ r.sampleClocks n a b, worth (r.value n u) q

@[simp] theorem total_self (q : Quantity) (a : Nat) :
    r.total n q a a = 0 := by
  simp [total, sampleClocks]

theorem total_succ (q : Quantity) {a b : Nat} (hab : a ≤ b) :
    r.total n q a (b + 1) =
      r.total n q a b + if r.chValid n b then worth (r.value n b) q else 0 := by
  unfold total sampleClocks
  rw [Finset.sum_filter, Finset.sum_filter, Finset.sum_Ico_succ_top hab]

theorem total_sampleCount (a b : Nat) :
    r.total n .sampleCount a b = (r.sampleClocks n a b).card := by
  simp [total, worth]

/-- The registers add the numbers modulo their width. -/
theorem sample_eq_ofInt (q : Quantity) (t : Nat) :
    r.sample n q t = BitVec.ofInt 64 (worth (r.value n t) q) := by
  unfold sample value worth
  cases q with
  | sampleCount => rfl
  | sum => rfl
  | sumOfSquares =>
      rw [pow_two, BitVec.ofInt_mul]
      rfl

theorem regionStart_le (r : Run) (t : Nat) :
    r.regionStart t ≤ t := by
  induction t with
  | zero => exact le_refl 0
  | succ t ih =>
      unfold regionStart
      split_ifs <;> omega

/-- The current region lies after every earlier capture. -/
theorem le_regionStart {u t : Nat} (hcap : r.capReg u = true) (hut : u ≤ t) :
    u ≤ r.regionStart t := by
  induction t, hut using Nat.le_induction with
  | base =>
      cases u with
      | zero => exact Nat.zero_le _
      | succ u => simp [regionStart, hcap]
  | succ t hut ih =>
      unfold regionStart
      split_ifs <;> omega

/-- Within a region `sample_cnt` counts the samples. -/
theorem sampleCnt_counts (h : Startable r.config) {t : Nat}
    (hact : r.active t = true) (hnext : r.active (t + 1) = true)
    (hrise : (r.start (t + 1) && !r.start t) = false) :
    (r.ctrl (t + 1)).sampleCnt.toNat =
      (r.ctrl t).sampleCnt.toNat + if r.valid t then 1 else 0 := by
  -- a counter that returned to zero would make `cap_start` rise
  have hzero : (r.ctrl (t + 1)).sampleCnt = 0 → (r.ctrl t).sampleCnt = 0 := by
    intro hz
    rw [(h.start_iff (t + 1)).mpr ⟨hnext, hz⟩] at hrise
    exact ((h.start_iff t).mp (by simpa using hrise)).2
  have hact' : CaptureControl.cycleActive r.config (r.ctrl t) = true := hact
  cases hv : r.valid t with
  | false =>
      have hhold := (CaptureControl.step_hold (i := r.ctrlIn t) hact' hv).2.2
      rw [ctrl_succ, hhold]
      simp
  | true =>
      have hv' : (r.ctrlIn t).valid = true := hv
      cases hre : r.regionEnd t with
      | true =>
          have hre' : CaptureControl.regionEnd r.config (r.ctrl t)
              (r.ctrlIn t) = true := hre
          have hend : (r.ctrl (t + 1)).sampleCnt = 0 := by
            rw [ctrl_succ]
            simp [CaptureControl.step, hact', hre']
          exact absurd (hzero hend) (h.sampleCnt_ne_zero_of_regionEnd hre)
      | false =>
          have hre' : CaptureControl.regionEnd r.config (r.ctrl t)
              (r.ctrlIn t) = false := hre
          have hadd : (r.ctrl (t + 1)).sampleCnt =
              (r.ctrl t).sampleCnt + 1 := by
            rw [ctrl_succ]
            simp [CaptureControl.step, hact', hre', hv']
          have hroom : (r.ctrl t).sampleCnt.toNat < 65535 := by
            by_contra hfull
            have hlt := (r.ctrl t).sampleCnt.isLt
            have hmax : (r.ctrl t).sampleCnt = 65535 := by
              apply BitVec.eq_of_toNat_eq
              simp
              omega
            rw [hadd, hmax] at hzero
            exact absurd (hzero rfl) (by decide)
          rw [hadd, CaptureControl.toNat_succ hroom, if_pos rfl]

/-- The region accumulators in the clock after `t` hold the samples of the
current region, as many as `sample_cnt` counts at most. -/
structure RegionHolds (r : Run) (n : Fin numCh) (t : Nat) : Prop where
  region : ∀ q, r.region n q (t + 1) =
    BitVec.ofInt 64 (r.total n q (r.regionStart t) t)
  count : r.total n .sampleCount (r.regionStart t) t ≤
    (r.ctrl t).sampleCnt.toNat

/-- What a clock that is not at the beginning of a region adds. -/
theorem region_add (h : Startable r.config) (hs : Spaced 2 r.valid)
    {t : Nat} (hact : r.active t = true) (hcap : r.captured t = false)
    (hholds : RegionHolds r n t) (q : Quantity) :
    r.region n q (t + 2) =
      BitVec.ofInt 64 (r.total n q (r.regionStart t)
        (if r.start (t + 1) && !r.start t then t else t + 1)) := by
  rw [region_next h hs, capReg_succ, hcap, added_succ h hact,
    hholds.region q, sample_eq_ofInt]
  cases r.start (t + 1) && !r.start t with
  | true => simp
  | false =>
      simp only [Bool.false_eq_true, if_false]
      rw [total_succ q (regionStart_le r t), BitVec.ofInt_add]
      cases r.chValid n t <;> simp

/-- Where a region starts it has no samples yet. -/
theorem regionHolds_of_start {t : Nat} (hstart : r.regionStart t = t)
    (hzero : ∀ q, r.region n q (t + 1) = 0) :
    RegionHolds r n t := by
  constructor
  · intro q
    rw [hzero q, hstart, total_self]
    rfl
  · rw [hstart, total_self]
    omega

/-- The accumulators are clear where a window opens, -/
theorem regionHolds_of_opening (h : Startable r.config)
    (hs : Spaced 2 r.valid) (n : Fin numCh) {t : Nat}
    (hidle : r.active t = false) (hact : r.active (t + 1) = true) :
    RegionHolds r n (t + 1) := by
  have ho : r.opens (t + 1) = true := by
    simp [opens, hact, hidle]
  refine regionHolds_of_start (by simp [regionStart, ho]) (fun q => ?_)
  exact (clear_of_opening h hs hidle hact q).1

/-- and behind a capture. -/
theorem regionHolds_of_captured (h : Startable r.config)
    (hs : Spaced 2 r.valid) (n : Fin numCh) {t : Nat}
    (hcap : r.captured t = true) :
    RegionHolds r n (t + 1) := by
  have hcapReg : r.capReg (t + 1) = true := by
    rw [capReg_succ, hcap]
  obtain ⟨hres, _⟩ := quiet_of_capReg h hs (n := n) hcapReg
  refine regionHolds_of_start (by simp [regionStart, hcapReg]) (fun q => ?_)
  rw [region_next h hs, hcapReg]
  unfold added
  rw [hres]
  simp

/-- A clock within a region takes its sample in. -/
theorem RegionHolds.next (h : Startable r.config) (hs : Spaced 2 r.valid)
    {t : Nat} (hholds : RegionHolds r n t)
    (hact : r.active t = true) (hnext : r.active (t + 1) = true)
    (hcap : r.captured t = false)
    (hrise : (r.start (t + 1) && !r.start t) = false) :
    RegionHolds r n (t + 1) := by
  have hstart : r.regionStart (t + 1) = r.regionStart t := by
    simp [regionStart, capReg_succ, hcap, opens_next hact]
  constructor
  · intro q
    rw [region_add h hs hact hcap hholds, hrise, hstart]
    simp
  · have hcount := hholds.count
    rw [hstart, total_succ _ (regionStart_le r t),
      sampleCnt_counts h hact hnext hrise, worth_sampleCount]
    unfold chValid
    cases r.valid t with
    | true =>
        rw [if_pos rfl]
        push_cast
        split_ifs <;> omega
    | false => simpa using hcount

/-- In every clock of a window the region accumulators hold the samples of the
region, except when its last sample has just been captured. -/
theorem region_holds (h : Startable r.config) (hs : Spaced 2 r.valid)
    (n : Fin numCh) (t : Nat) (hact : r.active t = true) :
    r.captured t = true ∨ RegionHolds r n t := by
  induction t with
  | zero =>
      rw [active_zero] at hact
      exact absurd hact (by simp)
  | succ t ih =>
      cases hbefore : r.active t with
      | false => exact .inr (regionHolds_of_opening h hs n hbefore hact)
      | true =>
          rcases ih hbefore with hcap | hholds
          · exact .inr (regionHolds_of_captured h hs n hcap)
          · cases hcap : r.captured t with
            | true => exact .inr (regionHolds_of_captured h hs n hcap)
            | false =>
                cases hrise : r.start (t + 1) && !r.start t with
                | true =>
                    left
                    rw [h.captured_succ, hbefore, hrise]
                    rfl
                | false => exact .inr (hholds.next h hs hbefore hact hcap hrise)

/-! ## Statistics of a capture -/

/-- The samples of a capture are those of the clocks from `firstClock`, -/
def firstClock (r : Run) : Nat → Nat
  | t + 2 => r.regionStart t
  | _ => 0

/-- to the clock before `lastClock`. The last sample of a region that another
region follows is not among them. -/
def lastClock (r : Run) : Nat → Nat
  | t + 2 => if r.start (t + 1) && !r.start t then t else t + 1
  | _ => 0

theorem firstClock_add_two (t : Nat) :
    r.firstClock (t + 2) = r.regionStart t := by
  rfl

theorem lastClock_add_two (t : Nat) :
    r.lastClock (t + 2) =
      if r.start (t + 1) && !r.start t then t else t + 1 := by
  rfl

/-- What a capture finds in the accumulators of a region. -/
theorem region_of_capReg (h : Startable r.config) (hs : Spaced 2 r.valid)
    {t : Nat} (hcap : r.capReg t = true) :
    (∀ n q, r.region n q t =
      BitVec.ofInt 64 (r.total n q (r.firstClock t) (r.lastClock t))) ∧
    ∀ n, (r.sampleClocks n (r.firstClock t) (r.lastClock t)).card ≤ 65536 := by
  rcases capReg_cases hcap with rfl | ⟨t, rfl, hcaptured⟩
  · constructor
    · intro n q
      simp only [firstClock, lastClock, total_self]
      cases q <;> rfl
    · intro n
      simp [firstClock, lastClock, sampleClocks]
  · obtain ⟨hact, hv⟩ := h.valid_of_captured hcaptured
    have hno := captured_of_valid h hs hv
    have hholds := fun n => (region_holds h hs n t hact).resolve_left
      (by simp [hno])
    refine ⟨fun n q => region_add h hs hact hno (hholds n) q, fun n => ?_⟩
    have hcount := (hholds n).count
    have hcnt := (r.ctrl t).sampleCnt.isLt
    have hone := total_succ (r := r) (n := n) .sampleCount
      (regionStart_le r t)
    rw [worth_sampleCount] at hone
    have hle : r.total n .sampleCount (r.firstClock (t + 2))
        (r.lastClock (t + 2)) ≤ 65536 := by
      rw [firstClock_add_two, lastClock_add_two]
      split_ifs at hone ⊢ <;> omega
    rw [total_sampleCount] at hle
    exact_mod_cast hle

/-- The samples of a capture were taken since the capture before it. -/
theorem clocks_of_capReg (h : Startable r.config) (hs : Spaced 2 r.valid)
    {t : Nat} (hcap : r.capReg t = true) :
    r.firstClock t ≤ r.lastClock t ∧ r.lastClock t ≤ t ∧
      ∀ u, u < t → r.capReg u = true → u ≤ r.firstClock t := by
  rcases capReg_cases hcap with rfl | ⟨t, rfl, hcaptured⟩
  · simp [firstClock, lastClock]
  · have hle := regionStart_le r t
    have hlast : t ≤ r.lastClock (t + 2) ∧ r.lastClock (t + 2) ≤ t + 1 := by
      rw [lastClock_add_two]
      split_ifs <;> omega
    refine ⟨hle.trans hlast.1, by omega, fun u hut hu => ?_⟩
    by_cases hlate : u = t + 1
    · -- two captures are not in successive clocks
      subst hlate
      rw [capReg_succ, captured_of_valid h hs
        (h.valid_of_captured hcaptured).2] at hu
      exact absurd hu (by simp)
    · exact le_regionStart hu (by omega)

/-- An earlier capture has no clock in common with a later one. -/
theorem disjoint_of_capReg (h : Startable r.config) (hs : Spaced 2 r.valid)
    {u t : Nat} (hu : r.capReg u = true) (hcap : r.capReg t = true)
    (hut : u < t) :
    Disjoint (Finset.Ico (r.firstClock u) (r.lastClock u))
      (Finset.Ico (r.firstClock t) (r.lastClock t)) := by
  have hearlier := (clocks_of_capReg h hs hu).2.1
  have hlater := (clocks_of_capReg h hs hcap).2.2 u hut hu
  rw [Finset.disjoint_left]
  intro v hv hv'
  rw [Finset.mem_Ico] at hv hv'
  omega

theorem abs_worth_le (t : Nat) (q : Quantity) :
    |worth (r.value n t) q| ≤ 2 ^ 34 := by
  have hlow := BitVec.le_two_mul_toInt (x := (r.input t).sampleChData n)
  have hhigh := BitVec.two_mul_toInt_lt (x := (r.input t).sampleChData n)
  have hvalue : |r.value n t| ≤ 2 ^ 17 := by
    unfold value
    rw [abs_le]
    constructor <;> omega
  cases q with
  | sampleCount =>
      rw [worth_sampleCount]
      decide
  | sum => exact hvalue.trans (by decide)
  | sumOfSquares =>
      show |r.value n t ^ 2| ≤ 2 ^ 34
      rw [abs_pow]
      calc
        |r.value n t| ^ 2 ≤ (2 ^ 17) ^ 2 :=
          pow_le_pow_left₀ (abs_nonneg _) hvalue 2
        _ = 2 ^ 34 := by norm_num

/-- The region accumulators of a channel are the number, the sum and the sum
of squares of its samples in the clocks from `a` to `b - 1`. -/
structure StatisticsOf (r : Run) (n : Fin numCh) (t a b : Nat) : Prop where
  sampleCount :
    ((r.cap t).ch n).chSampleCount.toNat = (r.sampleClocks n a b).card
  sum :
    ((r.cap t).ch n).chSum.toInt = ∑ u ∈ r.sampleClocks n a b, r.value n u
  sumOfSquares :
    ((r.cap t).ch n).chSumOfSquares.toInt =
      ∑ u ∈ r.sampleClocks n a b, r.value n u ^ 2

theorem statistics_of_capReg (h : Startable r.config) (hs : Spaced 2 r.valid)
    {t : Nat} (hcap : r.capReg t = true) (n : Fin numCh) :
    StatisticsOf r n t (r.firstClock t) (r.lastClock t) := by
  obtain ⟨hregion, hcard⟩ := region_of_capReg h hs hcap
  have hcard := hcard n
  have hexact : ∀ q, (r.region n q t).toInt =
      r.total n q (r.firstClock t) (r.lastClock t) := by
    intro q
    rw [hregion n q]
    exact toInt_ofInt_sum _ _ (fun u _ => abs_worth_le u q) (by omega)
  refine ⟨?_, hexact .sum, hexact .sumOfSquares⟩
  have hcount := hregion n .sampleCount
  rw [total_sampleCount, BitVec.ofInt_natCast] at hcount
  show (r.region n .sampleCount t).toNat = _
  rw [hcount, BitVec.toNat_ofNat, Nat.mod_eq_of_lt (by omega)]

/-- Mean squares are not below squared means. -/
theorem StatisticsOf.sq_sum_le {t a b : Nat} (hst : StatisticsOf r n t a b) :
    ((r.cap t).ch n).chSum.toInt ^ 2 ≤
      ((r.cap t).ch n).chSampleCount.toNat *
        ((r.cap t).ch n).chSumOfSquares.toInt := by
  rw [hst.sum, hst.sampleCount, hst.sumOfSquares]
  exact sq_sum_le_card_mul_sum_sq

/-- **A capture reports the statistics of one run of samples**, taken since the
capture before it, and no two captures share a sample. -/
theorem region_statistics (r : Run)
    (h : Startable r.config) (hs : Spaced 8 r.valid)
    (t : Nat) (hcap : r.capReg t = true) :
    (r.firstClock t ≤ r.lastClock t ∧ r.lastClock t ≤ t ∧
      ∀ u, u < t → r.capReg u = true → u ≤ r.firstClock t) ∧
    (∀ u, r.capReg u = true → u ≠ t →
      Disjoint (Finset.Ico (r.firstClock u) (r.lastClock u))
        (Finset.Ico (r.firstClock t) (r.lastClock t))) ∧
    ∀ n, StatisticsOf r n t (r.firstClock t) (r.lastClock t) ∧
      ((r.cap t).ch n).chSum.toInt ^ 2 ≤
        ((r.cap t).ch n).chSampleCount.toNat *
          ((r.cap t).ch n).chSumOfSquares.toInt := by
  have hs2 : Spaced 2 r.valid := hs.mono (by omega)
  refine ⟨clocks_of_capReg h hs2 hcap, fun u hu hne => ?_, fun n => ?_⟩
  · rcases Nat.lt_or_gt_of_ne hne with hlt | hgt
    · exact disjoint_of_capReg h hs2 hu hcap hlt
    · exact (disjoint_of_capReg h hs2 hcap hu hgt).symm
  · have hst := statistics_of_capReg h hs2 hcap n
    exact ⟨hst, hst.sq_sum_le⟩

/-- The second of two regions of two samples reports both of them. -/
theorem region_statistics_twoRegions :
    (sampledRun twoRegions).lastClock 35 = 34 ∧
      StatisticsOf (sampledRun twoRegions) 5 35
        ((sampledRun twoRegions).firstClock 35) 34 := by
  have hlast : (sampledRun twoRegions).lastClock 35 = 34 := by
    decide +kernel
  refine ⟨hlast, ?_⟩
  have hall := region_statistics (sampledRun twoRegions)
    twoRegions_usable.startable (sampledRun_sampled _ 0).spaced 35
    (by decide +kernel)
  rw [hlast] at hall
  exact (hall.2.2 5).1

end Run
end CaptureSystem
end MollerFirmware
