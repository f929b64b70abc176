import MollerFirmware.Hdl.CaptureSystem

/-!
# Samples of an integration window

A window is one active period of the sequencer. Each of its samples reaches the
accumulators one clock after its `sample_valid`. `kept` tells which of them are
added: all but the last sample of every region that another region follows. The
result of such a sample is on the registers in the clock in which `cap_start`
rises again, and there `init_mm` takes precedence over accumulating.

`region_clock` and `window_clock` are the accumulation laws of one clock.
With the conservation laws of `Clocked.Windows` they give the totals of a window,
and `no_sample_lost_iff` the configurations for which they are complete.
-/

namespace MollerFirmware
namespace CaptureSystem
namespace Run

open Clocked SubsystemCapture

variable {r : Run} {n : Fin numCh}

/-- An accumulator of the current region. -/
def region (r : Run) (n : Fin numCh) (q : Quantity) (t : Nat) : BitVec 64 :=
  ((r.cap t).ch n).region q

/-- An accumulator of the window. -/
def window (r : Run) (n : Fin numCh) (q : Quantity) (t : Nat) : BitVec 64 :=
  ((r.cap t).ch n).window q

/-- What the sample of a clock is worth. -/
def sample (r : Run) (n : Fin numCh) (q : Quantity) (t : Nat) : BitVec 64 :=
  q.ofSample ((r.input t).sampleChData n)

/-- A sample in which the channel takes part. -/
def chValid (r : Run) (n : Fin numCh) (t : Nat) : Bool :=
  r.valid t && (r.input t).sampleChValid n

/-- `result_valid` -/
def resultValid (r : Run) (n : Fin numCh) (t : Nat) : Bool :=
  ((r.cap t).ch n).resultValid

/-- The last sample of a region that is not the last region. -/
def boundary (r : Run) (t : Nat) : Bool :=
  r.regionEnd t && !r.allEnd t

/-- Samples that are added to the accumulators. -/
def kept (r : Run) (t : Nat) : Bool :=
  r.valid t && !r.boundary t

/-- Inputs of a channel as the deserializer gives them: samples are at least
eight clocks apart, and the channel takes part in each. -/
structure Sampled (r : Run) (n : Fin numCh) : Prop where
  spaced : Spaced 8 r.valid
  channel : ∀ t, r.valid t = true → (r.input t).sampleChValid n = true

theorem resultValid_succ_chValid (t : Nat) :
    r.resultValid n (t + 1) = r.chValid n t :=
  step_resultValid (r.cap t) (r.capIn t) n

theorem resultValid_succ (hs : Sampled r n) (t : Nat) :
    r.resultValid n (t + 1) = r.valid t := by
  rw [resultValid_succ_chValid]
  unfold chValid
  cases hv : r.valid t with
  | false => rfl
  | true => rw [hs.channel t hv]; rfl

theorem resultValid_zero : r.resultValid n 0 = false := by
  rfl

theorem initMm_succ (t : Nat) :
    initMm (r.cap (t + 1)) (r.capIn (t + 1)) =
      (r.start (t + 1) && !r.start t) := by
  rfl

theorem accumulating_eq (t : Nat) :
    accumulating (r.cap t) (r.capIn t) =
      ((r.ena t && r.start t) || r.started t) := by
  rfl

/-! ## Clocks of a run whose samples are not in successive clocks -/

/-- No capture is due in the clock of a sample. -/
theorem captured_of_valid (h : Startable r.config) (hs : Spaced 2 r.valid)
    {t : Nat} (hv : r.valid t = true) :
    r.captured t = false := by
  by_contra hcap
  cases t with
  | zero => exact hcap captured_zero
  | succ t =>
      have hbefore := (h.valid_of_captured (by simpa using hcap)).2
      have hlow := hs.low_after hbefore Nat.one_pos (by omega)
      rw [hv] at hlow
      exact absurd hlow (by simp)

/-- In the clock of a capture there is no result on the registers and the
extrema are not initialised. -/
theorem quiet_of_capReg (h : Startable r.config) (hs : Spaced 2 r.valid)
    {t : Nat} (hcap : r.capReg t = true) :
    r.resultValid n t = false ∧ initMm (r.cap t) (r.capIn t) = false := by
  rcases capReg_cases hcap with rfl | ⟨t, rfl, hcaptured⟩
  · have hst : r.start 0 = false :=
      h.start_of_inactive (CaptureControl.reset_inactive _ _ _)
    have hst' : (r.capIn 0).start = false := hst
    exact ⟨resultValid_zero, by simp [initMm, hst']⟩
  · have hlow := hs.low_after (h.valid_of_captured hcaptured).2
      Nat.one_pos (by omega)
    constructor
    · rw [resultValid_succ_chValid]
      simp [chValid, hlow]
    · rw [initMm_succ]
      by_contra hrise
      simp only [Bool.not_eq_false, Bool.and_eq_true,
        Bool.not_eq_true'] at hrise
      rw [h.valid_of_start_rises hrise.1 hrise.2] at hlow
      exact absurd hlow (by simp)

/-- What a clock adds to the accumulators of a channel. -/
def added (r : Run) (n : Fin numCh) (q : Quantity) (t : Nat) : BitVec 64 :=
  if initMm (r.cap t) (r.capIn t) then 0
  else if accumulating (r.cap t) (r.capIn t) && r.resultValid n t then
    ((r.cap t).ch n).contribution q
  else 0

/-- A capture clears the accumulators of the region. -/
theorem region_next (h : Startable r.config) (hs : Spaced 2 r.valid)
    (q : Quantity) (t : Nat) :
    r.region n q (t + 1) =
      (if r.capReg t then 0 else r.region n q t) + r.added n q t := by
  have hstep : r.region n q (t + 1) = regionNext (r.cap t) (r.capIn t) n
      (((r.cap t).ch n).contribution q) (r.region n q t) :=
    step_region (r.cap t) (r.capIn t) n q
  have hcap' : (r.cap t).capReg = r.capReg t := rfl
  have hres' : ((r.cap t).ch n).resultValid = r.resultValid n t := rfl
  rw [hstep]
  unfold regionNext added
  rw [hcap', hres']
  cases hcap : r.capReg t with
  | true =>
      obtain ⟨hres, hinit⟩ := quiet_of_capReg h hs (n := n) hcap
      simp [hres, hinit]
  | false =>
      simp only [Bool.false_eq_true, if_false]
      split_ifs <;> simp

/-- Only the first clock of a window clears the accumulators of the window. -/
theorem window_next (h : Startable r.config) (hs : Spaced 2 r.valid)
    (q : Quantity) (t : Nat) :
    r.window n q (t + 1) =
      (if initMm (r.cap t) (r.capIn t) && !r.started t then 0
        else r.window n q t) + r.added n q t := by
  have hstep : r.window n q (t + 1) = windowNext (r.cap t) (r.capIn t) n
      (((r.cap t).ch n).contribution q) (r.window n q t) :=
    step_window (r.cap t) (r.capIn t) n q
  have hcap' : (r.cap t).capReg = r.capReg t := rfl
  have hres' : ((r.cap t).ch n).resultValid = r.resultValid n t := rfl
  have hst' : (r.cap t).started = r.started t := rfl
  rw [hstep]
  unfold windowNext added
  rw [hcap', hres', hst']
  cases hcap : r.capReg t with
  | true =>
      obtain ⟨hres, hinit⟩ := quiet_of_capReg h hs (n := n) hcap
      simp [hres, hinit]
  | false =>
      cases initMm (r.cap t) (r.capIn t) with
      | true => simp
      | false =>
          simp only [Bool.false_eq_true, if_false, Bool.false_and]
          split_ifs <;> simp

/-- In a window a sample is added one clock later, unless `cap_start` rises in
that clock. -/
theorem added_succ (h : Startable r.config)
    {t : Nat} (hact : r.active t = true) (q : Quantity) :
    r.added n q (t + 1) =
      if r.start (t + 1) && !r.start t then 0
      else if r.chValid n t then r.sample n q t
      else 0 := by
  have hcontr : ((r.cap (t + 1)).ch n).contribution q = r.sample n q t :=
    step_contribution (r.cap t) (r.capIn t) n q
  unfold added
  rw [initMm_succ, accumulating_eq, h.started_succ, hact,
    resultValid_succ_chValid, hcontr]
  simp

/-- Between windows nothing is added. -/
theorem added_of_idle (h : Startable r.config)
    {t : Nat} (hst : r.started t = false) (hidle : r.active t = false)
    (q : Quantity) :
    r.added n q t = 0 := by
  unfold added
  rw [accumulating_eq, hst, h.start_of_inactive hidle]
  simp

/-- Between windows the region accumulators are clear. -/
theorem region_of_idle (h : Startable r.config) (hs : Spaced 2 r.valid)
    (q : Quantity) (t : Nat)
    (hst : r.started t = false) (hcap : r.capReg t = false) :
    r.region n q t = 0 := by
  induction t with
  | zero =>
      cases q <;> rfl
  | succ t ih =>
      have hidle : r.active t = false := by
        rw [← h.started_succ]
        exact hst
      -- a clock that is still started at the end of a cycle captures
      have hbefore : r.started t = false := by
        by_contra hon
        have hon' : r.started t = true := by simpa using hon
        cases t with
        | zero =>
            rw [started_zero] at hon'
            exact absurd hon' (by simp)
        | succ t =>
            rw [h.started_succ] at hon'
            rw [capReg_succ, h.captured_succ, hon', hidle] at hcap
            simp at hcap
      rw [region_next h hs, added_of_idle h hbefore hidle]
      cases hc : r.capReg t with
      | true => simp
      | false => simpa using ih hbefore hc

/-- No capture falls into the first clock of a window. -/
theorem capReg_of_opening (h : Startable r.config) (hs : Spaced 2 r.valid)
    {t : Nat} (hidle : r.active t = false) (hact : r.active (t + 1) = true) :
    r.capReg (t + 1) = false := by
  rw [capReg_succ]
  exact captured_of_valid h hs (h.becomes_active hidle hact).1

/-- The first clock of a window leaves all accumulators clear. -/
theorem clear_of_opening (h : Startable r.config) (hs : Spaced 2 r.valid)
    {t : Nat} (hidle : r.active t = false) (hact : r.active (t + 1) = true)
    (q : Quantity) :
    r.region n q (t + 2) = 0 ∧ r.window n q (t + 2) = 0 := by
  have hst : r.started (t + 1) = false := by
    rw [h.started_succ, hidle]
  have hcap := capReg_of_opening h hs hidle hact
  have hzero := (h.becomes_active hidle hact).2.2
  have hinit : initMm (r.cap (t + 1)) (r.capIn (t + 1)) = true := by
    rw [initMm_succ, (h.start_iff (t + 1)).mpr ⟨hact, hzero⟩,
      h.start_of_inactive hidle]
    rfl
  have hadd : r.added n q (t + 1) = 0 := by
    unfold added
    rw [if_pos hinit]
  constructor
  · rw [region_next h hs, hadd, hcap, region_of_idle h hs q (t + 1) hst hcap]
    simp
  · rw [window_next h hs, hadd, hinit, hst]
    simp

/-! ## The clock after a sample, and other clocks -/

theorem Sampled.spaced_two (hs : Sampled r n) : Spaced 2 r.valid :=
  hs.spaced.mono (by omega)

theorem valid_of_boundary {t : Nat} (hb : r.boundary t = true) :
    r.valid t = true := by
  unfold boundary at hb
  rw [Bool.and_eq_true] at hb
  exact ((regionEnd_iff t).mp hb.1).1

/-- Within a window the samples that are kept are added. -/
theorem added_succ_kept (h : Usable r.config) (hs : Sampled r n)
    {t : Nat} (hact : r.active t = true) (q : Quantity) :
    r.added n q (t + 1) = if r.kept t then r.sample n q t else 0 := by
  rw [added_succ h.startable hact, start_edge h hact,
    ← resultValid_succ_chValid, resultValid_succ hs]
  unfold kept
  change (if r.boundary t then 0 else _) = _
  cases r.boundary t with
  | true => simp
  | false => simp

/-- **One clock of a region accumulator** within a window. -/
theorem region_clock (h : Usable r.config) (hs : Sampled r n)
    {t : Nat} (hact : r.active t = true) (q : Quantity) :
    r.region n q (t + 2) =
      (if r.capReg (t + 1) then 0 else r.region n q (t + 1)) +
        if r.kept t then r.sample n q t else 0 := by
  rw [region_next h.startable hs.spaced_two, added_succ_kept h hs hact]

/-- **One clock of a window accumulator** within a window. -/
theorem window_clock (h : Usable r.config) (hs : Sampled r n)
    {t : Nat} (hact : r.active t = true) (q : Quantity) :
    r.window n q (t + 2) =
      r.window n q (t + 1) + if r.kept t then r.sample n q t else 0 := by
  rw [window_next h.startable hs.spaced_two, h.startable.started_succ, hact,
    added_succ_kept h hs hact]
  simp

/-! ## The beginning of a window -/

/-- A window begins with all accumulators clear. -/
theorem window_start (h : Usable r.config) (hs : Sampled r n)
    {a b : Nat} (hp : Period r.active a b) (q : Quantity) :
    r.region n q (a + 1) = 0 ∧ r.window n q (a + 1) = 0 := by
  obtain ⟨u, rfl, hidle, _⟩ := period_start h hp
  exact clear_of_opening h.startable hs.spaced_two hidle
    (hp.high (u + 1) (le_refl _) hp.le) q

/-! ## Counting the samples of a window -/

/-- The position in a window is counted by the sequencer. -/
theorem pulsesIn_valid (h : Usable r.config)
    {a b : Nat} (hp : Period r.active a b)
    {t : Nat} (hat : a ≤ t) (htb : t ≤ b) :
    pulsesIn r.valid a t =
        (r.ctrl t).regionCnt.toNat * r.config.samples +
          (r.ctrl t).sampleCnt.toNat ∧
      pulsesIn r.boundary a t = (r.ctrl t).regionCnt.toNat := by
  refine hp.induction (motive := fun t =>
    pulsesIn r.valid a t =
        (r.ctrl t).regionCnt.toNat * r.config.samples +
          (r.ctrl t).sampleCnt.toNat ∧
      pulsesIn r.boundary a t = (r.ctrl t).regionCnt.toNat) ?_ ?_ hat htb
  · obtain ⟨u, rfl, _, _, _, hregion, hsample⟩ := period_start h hp
    rw [hregion, hsample]
    simp
  · rintro t hat htb hact _ ⟨ihv, ihb⟩
    have hend := allEnd_inside_period hp hat htb
    rw [pulsesIn_succ _ hat, pulsesIn_succ _ hat, ihv, ihb]
    unfold boundary
    rw [hend]
    cases hre : r.regionEnd t with
    | true =>
        obtain ⟨hv, hlast⟩ := (regionEnd_iff t).mp hre
        obtain ⟨hregion, hsample⟩ := after_regionEnd h hact hre hend
        rw [hregion, hsample, hv, r.config.samples_succ]
        simp
        omega
    | false =>
        obtain ⟨hregion, hsample⟩ := after_noRegionEnd h hact hre
        rw [hregion, hsample]
        simp
        omega

/-- Number of samples of a window, and how many of them are at a boundary. -/
theorem pulsesIn_window (h : Usable r.config)
    {a b : Nat} (hp : Period r.active a b) :
    pulsesIn r.valid a (b + 1) = r.config.regions * r.config.samples ∧
      pulsesIn r.boundary a (b + 1) + 1 = r.config.regions := by
  have hend := allEnd_of_period h hp
  obtain ⟨hre, hregion⟩ := (allEnd_iff h b).mp hend
  obtain ⟨hv, hlast⟩ := (regionEnd_iff b).mp hre
  obtain ⟨hvalid, hbound⟩ := pulsesIn_valid h hp hp.le (le_refl b)
  have hlow : r.boundary b = false := by
    unfold boundary
    rw [hend]
    simp
  rw [pulsesIn_succ _ hp.le, pulsesIn_succ _ hp.le, hvalid, hbound, hv, hlow,
    ← hregion, r.config.samples_succ]
  constructor
  · rw [if_pos rfl]
    omega
  · simp

/-- A sample is kept or lost at a boundary. -/
theorem pulsesIn_kept (r : Run) (a b : Nat) :
    pulsesIn r.valid a b = pulsesIn r.kept a b + pulsesIn r.boundary a b := by
  refine pulsesIn_split (fun t => ?_) a b
  unfold kept
  cases hb : r.boundary t with
  | true => simp [valid_of_boundary hb]
  | false => simp

/-! ## Totals of a window -/

/-- The last packet of a window is captured two clocks after `all_end`. -/
theorem capReg_last (h : Usable r.config)
    {a b : Nat} (hp : Period r.active a b) :
    r.capReg (b + 2) = true := by
  have hact := hp.high b hp.le (le_refl b)
  have hre := ((allEnd_iff h b).mp (allEnd_of_period h hp)).1
  rw [capReg_succ, captured_succ h, hact, hre]
  rfl

/-- What the packets of the window `[a, b]` report in one of their words: they
are captured from the clock after `a` to the second clock after `b`. -/
def packetTotal {M : Type} [AddCommMonoid M] (r : Run) (word : Nat → M)
    (a b : Nat) : M :=
  collected r.capReg word (a + 1) (b + 3)

/-- The region words of the packets add up to the samples that were kept. -/
theorem packetTotal_region (h : Usable r.config) (hs : Sampled r n)
    {a b : Nat} (hp : Period r.active a b) (q : Quantity) :
    packetTotal r (r.region n q) a b =
      ∑ t ∈ Finset.Ico a (b + 1), if r.kept t then r.sample n q t else 0 := by
  have hle := hp.le
  have hlaw := collected_add_rest (b := b + 1)
    (fun t => r.capReg (t + 1)) (fun t => r.region n q (t + 1))
    (fun t => if r.kept t then r.sample n q t else 0) (by omega)
    (fun t hat htb => region_clock h hs (hp.high t hat (by omega)) q)
  rw [← collected_shift, (window_start h hs hp q).1, zero_add] at hlaw
  unfold packetTotal
  rw [collected_succ _ _ (by omega), capReg_last h hp, if_pos rfl]
  exact hlaw

/-- The samples of a window fit a counter of 64 bits. -/
theorem pulsesIn_kept_lt (h : Usable r.config)
    {a b : Nat} (hp : Period r.active a b) :
    pulsesIn r.kept a (b + 1) < 2 ^ 64 := by
  have hvalid := (pulsesIn_window h hp).1
  have hsplit := pulsesIn_kept r a (b + 1)
  have hfits := h.fits
  unfold CaptureControl.Config.lastCount at hfits
  omega

/-- A kept sample adds one to a sample counter. -/
theorem sample_sampleCount (r : Run) (n : Fin numCh) (t : Nat) :
    (if r.kept t then r.sample n .sampleCount t else 0) =
      BitVec.ofNat 64 (if r.kept t then 1 else 0) := by
  cases r.kept t <;> rfl

/-- The sample counts of the packets, as numbers, add up to the number of
samples that were kept. -/
theorem packetTotal_sampleCount (h : Usable r.config) (hs : Sampled r n)
    {a b : Nat} (hp : Period r.active a b) :
    packetTotal r (fun t => (r.region n .sampleCount t).toNat) a b =
      pulsesIn r.kept a (b + 1) := by
  have hle := hp.le
  have hlaw := collected_toNat_add_rest (b := b + 1)
    (fun t => r.capReg (t + 1))
    (fun t => r.region n .sampleCount (t + 1))
    (fun t => if r.kept t then 1 else 0) (by omega)
    (window_start h hs hp .sampleCount).1
    (fun t hat htb => by
      rw [region_clock h hs (hp.high t hat (by omega)), sample_sampleCount])
    (pulsesIn_kept_lt h hp)
  rw [← collected_shift _ (fun t => (r.region n .sampleCount t).toNat)] at hlaw
  unfold packetTotal
  rw [collected_succ _ _ (by omega), capReg_last h hp, if_pos rfl]
  exact hlaw

/-- The window count of the last packet is the number of samples that were
kept. -/
theorem window_sampleCount (h : Usable r.config) (hs : Sampled r n)
    {a b : Nat} (hp : Period r.active a b) :
    (r.window n .sampleCount (b + 2)).toNat = pulsesIn r.kept a (b + 1) := by
  have hle := hp.le
  have hlaw := collected_toNat_add_rest (b := b + 1)
    (fun _ => false)
    (fun t => r.window n .sampleCount (t + 1))
    (fun t => if r.kept t then 1 else 0) (by omega)
    (window_start h hs hp .sampleCount).2
    (fun t hat htb => by
      rw [window_clock h hs (hp.high t hat (by omega)), sample_sampleCount]
      simp)
    (pulsesIn_kept_lt h hp)
  simpa [collected, pulsesIn] using hlaw

/-! ## When no sample is lost -/

/-- The packets of the window `[a, b]` account for every sample of it: in their
counts, sums and sums of squares, and in the window count of the last one. -/
structure NoSampleLost (r : Run) (n : Fin numCh) (a b : Nat) : Prop where
  sampleCount :
    packetTotal r (fun t => ((r.cap t).ch n).chSampleCount.toNat) a b =
      pulsesIn r.valid a (b + 1)
  sum :
    packetTotal r (fun t => ((r.cap t).ch n).chSum) a b =
      ∑ t ∈ Finset.Ico a (b + 1),
        if r.valid t then ((r.input t).sampleChData n).signExtend 64 else 0
  sumOfSquares :
    packetTotal r (fun t => ((r.cap t).ch n).chSumOfSquares) a b =
      ∑ t ∈ Finset.Ico a (b + 1),
        if r.valid t then
          ((r.input t).sampleChData n).signExtend 64 *
            ((r.input t).sampleChData n).signExtend 64
        else 0
  sampleCountWin :
    ((r.cap (b + 2)).ch n).chSampleCountWin.toNat =
      pulsesIn r.valid a (b + 1)

/-- The packets of a window miss one sample for every region but the last. -/
theorem packetTotal_add_lost (h : Usable r.config) (hs : Sampled r n)
    {a b : Nat} (hp : Period r.active a b) :
    packetTotal r (fun t => ((r.cap t).ch n).chSampleCount.toNat) a b +
        r.config.regions =
      pulsesIn r.valid a (b + 1) + 1 := by
  have htotal := packetTotal_sampleCount h hs hp
  have hsplit := pulsesIn_kept r a (b + 1)
  have hbound := (pulsesIn_window h hp).2
  change packetTotal r (fun t => (r.region n .sampleCount t).toNat) a b +
    r.config.regions = _
  omega

/-- With a single region every sample of the window is kept. -/
theorem kept_of_regions_eq_one (h : Usable r.config)
    {a b : Nat} (hp : Period r.active a b)
    (hone : r.config.regions = 1) {t : Nat} (hat : a ≤ t) (htb : t < b + 1) :
    r.kept t = r.valid t := by
  have hnone : pulsesIn r.boundary a (b + 1) = 0 := by
    have := (pulsesIn_window h hp).2
    omega
  have hlow := (pulsesIn_eq_zero_iff _ _ _).mp hnone t hat htb
  simp [kept, hlow]

/-- **No sample of a window is lost exactly when it has one region.** -/
theorem no_sample_lost_iff (r : Run) (n : Fin numCh)
    (h : Usable r.config) (hs : Sampled r n)
    {a b : Nat} (hp : Period r.active a b) :
    NoSampleLost r n a b ↔ r.config.regions = 1 := by
  have hlost := packetTotal_add_lost h hs hp
  constructor
  · intro hall
    have := hall.sampleCount
    omega
  · intro hone
    have hkept : ∀ q, ∑ t ∈ Finset.Ico a (b + 1),
        (if r.kept t then r.sample n q t else 0) =
          ∑ t ∈ Finset.Ico a (b + 1),
            if r.valid t then r.sample n q t else 0 := by
      intro q
      refine Finset.sum_congr rfl (fun t ht => ?_)
      obtain ⟨hat, htb⟩ := Finset.mem_Ico.mp ht
      rw [kept_of_regions_eq_one h hp hone hat htb]
    refine ⟨by omega, ?_, ?_, ?_⟩
    · exact (packetTotal_region h hs hp .sum).trans (hkept .sum)
    · exact (packetTotal_region h hs hp .sumOfSquares).trans
        (hkept .sumOfSquares)
    · have hwindow := window_sampleCount h hs hp
      have hsplit := pulsesIn_kept r a (b + 1)
      have hbound := (pulsesIn_window h hp).2
      change (r.window n .sampleCount (b + 2)).toNat = _
      omega

/-- A sample in clocks 1, 9, 17 and so on. -/
def everyEighth (t : Nat) : Bool :=
  decide (t % 8 = 1)

/-- A run of a configuration with a trigger in clock 0 and a sample in every
eighth clock. -/
def sampledRun (c : CaptureControl.Config) : Run :=
  { config := c
    before := powerUp
    resetInput := triggered (fun _ => false) 1
    input := triggered everyEighth }

theorem sampledRun_sampled (c : CaptureControl.Config) (n : Fin numCh) :
    Sampled (sampledRun c) n := by
  refine ⟨fun t u htu ht hu => ?_, fun _ _ => rfl⟩
  have ht' : t % 8 = 1 := of_decide_eq_true ht
  have hu' : u % 8 = 1 := of_decide_eq_true hu
  omega

/-- One region of two samples after a delay of one sample. -/
def oneRegion : CaptureControl.Config :=
  { enaDelay := 1
    startDelay := 0
    capRegions := 1
    capRegionSize := 1 }

theorem no_sample_lost_oneRegion :
    NoSampleLost (sampledRun oneRegion) 0 2 17 := by
  have hp : Period (sampledRun oneRegion).active 2 17 := by
    refine ⟨by decide, by decide +kernel, fun t ht => ?_, by decide +kernel⟩
    obtain rfl : t = 1 := by omega
    decide +kernel
  exact (no_sample_lost_iff (sampledRun oneRegion) 0
    ⟨by decide, by decide, by decide, by decide⟩ (sampledRun_sampled _ _)
    hp).mpr rfl

/-- Two regions of two samples, all of value 1: the packets report three of
the four samples. -/
theorem sample_lost_twoRegions :
    Usable twoRegions ∧ Sampled (sampledRun twoRegions) 0 ∧
      Period (sampledRun twoRegions).active 2 33 ∧
      ¬ NoSampleLost (sampledRun twoRegions) 0 2 33 := by
  have hs : Sampled (sampledRun twoRegions) 0 := sampledRun_sampled _ _
  have hp : Period (sampledRun twoRegions).active 2 33 := by
    refine ⟨by decide, by decide +kernel, fun t ht => ?_, by decide +kernel⟩
    obtain rfl : t = 1 := by omega
    decide +kernel
  refine ⟨twoRegions_usable, hs, hp, fun hall => ?_⟩
  have hlost := packetTotal_add_lost twoRegions_usable hs hp
  have hcount := hall.sampleCount
  have htwo : twoRegions.regions = 2 := by rfl
  change _ + twoRegions.regions = _ at hlost
  omega

end Run
end CaptureSystem
end MollerFirmware
