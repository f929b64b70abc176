import MollerFirmware.Hdl.CaptureStatistics

/-!
# samples_captured and cap_ts

The two registers are kept apart from those of the channels: they count a
sample in the clock of `sample_valid` itself, and `cap_reg` clears them. Each
packet therefore accounts for the samples since the capture before it,
`captureBefore`, and within a window none of them is left out.

The counters of the channels agree with `samples_captured` only in the last
packet of a cycle, `sample_count_agrees_iff`: the last sample of every other
region meets `init_mm` when it is on the result registers.
-/

namespace MollerFirmware
namespace CaptureSystem
namespace Run

open Clocked SubsystemCapture

variable {r : Run}

/-- The packet registers count the sample of this clock. -/
def counted (r : Run) (t : Nat) : Bool :=
  r.valid t &&
    if r.capReg t then r.ena t
    else accumulating (r.cap t) (r.capIn t)

/-- The latest capture before clock `t`, 0 if there was none. -/
def captureBefore (r : Run) : Nat → Nat
  | 0 => 0
  | t + 1 => if r.capReg t then t else r.captureBefore t

/-- `in_timestamp` -/
def inTimestamp (r : Run) (t : Nat) : BitVec 64 :=
  (r.input t).inTimestamp

/-- Word `k` of the packet that is captured in clock `t`. -/
def word (r : Run) (t k : Nat) : BitVec 64 :=
  packetWord (r.cap t) (r.capIn t) k

theorem captureBefore_of_capReg {t : Nat} (hcap : r.capReg t = true) :
    r.captureBefore (t + 1) = t := by
  simp [captureBefore, hcap]

theorem captureBefore_of_quiet {t : Nat} (hcap : r.capReg t = false) :
    r.captureBefore (t + 1) = r.captureBefore t := by
  simp [captureBefore, hcap]

theorem captureBefore_le (r : Run) (t : Nat) : r.captureBefore t ≤ t := by
  induction t with
  | zero => exact le_refl 0
  | succ t ih =>
      unfold captureBefore
      split_ifs <;> omega

/-- Every earlier capture is at or before the latest one. -/
theorem le_captureBefore {u t : Nat} (hcap : r.capReg u = true) (hut : u < t) :
    u ≤ r.captureBefore t := by
  induction t, hut using Nat.le_induction with
  | base => rw [captureBefore_of_capReg hcap]
  | succ t hut ih =>
      unfold captureBefore
      split_ifs
      · have hut' : u < t := hut
        exact hut'.le
      · exact ih

theorem not_capReg_since {a u t : Nat} (hba : r.captureBefore t ≤ a)
    (hau : a < u) (hut : u < t) :
    r.capReg u = false := by
  by_contra hcap
  have := le_captureBefore (by simpa using hcap) hut
  omega

/-- The clocks that two packets account for are different ones. -/
theorem disjoint_captureBefore {u t : Nat}
    (hu : r.capReg u = true) (ht : r.capReg t = true) (hne : u ≠ t) :
    Disjoint (Finset.Ico (r.captureBefore u) u)
      (Finset.Ico (r.captureBefore t) t) := by
  rw [Finset.disjoint_left]
  intro v hv hv'
  rw [Finset.mem_Ico] at hv hv'
  rcases Nat.lt_or_gt_of_ne hne with hlt | hgt
  · have := le_captureBefore hu hlt
    omega
  · have := le_captureBefore ht hgt
    omega

/-! ## The registers of a packet, in any run -/

theorem samplesCaptured_succ (t : Nat) :
    (r.cap (t + 1)).samplesCaptured =
      (if r.capReg t then 0 else (r.cap t).samplesCaptured) +
        BitVec.ofNat 64 (if r.counted t then 1 else 0) := by
  have hnext : (r.cap (t + 1)).samplesCaptured =
      if r.capReg t then if r.ena t && r.valid t then 1 else 0
      else if accumulating (r.cap t) (r.capIn t) && r.valid t then
        (r.cap t).samplesCaptured + 1
      else (r.cap t).samplesCaptured := by
    rfl
  rw [hnext]
  unfold counted
  cases r.capReg t with
  | true => cases r.ena t <;> cases r.valid t <;> rfl
  | false =>
      cases accumulating (r.cap t) (r.capIn t) <;> cases r.valid t <;> simp

theorem capTs_succ (t : Nat) :
    (r.cap (t + 1)).capTs =
      if r.counted t then
        if r.capReg t = true ∨ (r.cap t).capTs = 0 then r.inTimestamp t
        else (r.cap t).capTs
      else if r.capReg t then 0
      else (r.cap t).capTs := by
  have hnext : (r.cap (t + 1)).capTs =
      if r.capReg t then
        if r.ena t && r.valid t then r.inTimestamp t else 0
      else if accumulating (r.cap t) (r.capIn t) && r.valid t then
        if (r.cap t).capTs = 0 then r.inTimestamp t else (r.cap t).capTs
      else (r.cap t).capTs := by
    rfl
  rw [hnext]
  unfold counted
  cases r.capReg t with
  | true => cases r.ena t <;> cases r.valid t <;> simp
  | false =>
      cases accumulating (r.cap t) (r.capIn t) <;> cases r.valid t <;> simp

/-- The pulses of a packet with one clock more. -/
theorem pulses_since_capture (p : Nat → Bool) (t : Nat) :
    pulsesIn p (r.captureBefore (t + 1)) (t + 1) =
      (if r.capReg t then 0 else pulsesIn p (r.captureBefore t) t) +
        if p t then 1 else 0 := by
  cases hcap : r.capReg t with
  | true =>
      rw [captureBefore_of_capReg hcap, pulsesIn_succ _ (le_refl t),
        pulsesIn_self]
      rfl
  | false =>
      rw [captureBefore_of_quiet hcap, pulsesIn_succ _ (captureBefore_le r t)]
      rfl

/-- `samples_captured` is the number of the samples counted since the latest
capture. -/
theorem samplesCaptured_eq (t : Nat) :
    (r.cap t).samplesCaptured =
      BitVec.ofNat 64 (pulsesIn r.counted (r.captureBefore t) t) := by
  induction t with
  | zero => rfl
  | succ t ih =>
      rw [samplesCaptured_succ, pulses_since_capture, BitVec.ofNat_add, ih]
      cases r.capReg t <;> rfl

/-- `cap_ts` is the time stamp of the first of these samples, and not set as
long as there is none. -/
structure StampHolds (r : Run) (t : Nat) : Prop where
  unset : pulsesIn r.counted (r.captureBefore t) t = 0 → (r.cap t).capTs = 0
  first : ∀ a, r.captureBefore t ≤ a → a < t → r.counted a = true →
    pulsesIn r.counted (r.captureBefore t) a = 0 →
      (r.cap t).capTs = r.inTimestamp a

/-- A packet begins with the clock of the capture before it. -/
theorem stampHolds_of_capReg {t : Nat} (hcap : r.capReg t = true) :
    StampHolds r (t + 1) := by
  constructor
  · rw [pulses_since_capture, hcap, capTs_succ, hcap]
    cases r.counted t <;> simp
  · intro a hat hau hcount _
    rw [captureBefore_of_capReg hcap] at hat
    obtain rfl : a = t := by omega
    simp [capTs_succ, hcount, hcap]

/-- Without a capture the first sample of the packet sets the time stamp. -/
theorem StampHolds.next {t : Nat} (h : StampHolds r t)
    (hts : ∀ u, r.valid u = true → r.inTimestamp u ≠ 0)
    (hcap : r.capReg t = false) :
    StampHolds r (t + 1) := by
  constructor
  · rw [pulses_since_capture, hcap, capTs_succ, hcap]
    cases r.counted t with
    | true => simp
    | false => simpa using h.unset
  · intro a hba hat hc hnone
    rw [captureBefore_of_quiet hcap] at hba hnone
    rw [capTs_succ, hcap]
    obtain hlt | rfl : a < t ∨ a = t := by omega
    · -- the marker has been replaced by a time stamp that is not zero
      have hset := h.first a hba hlt hc hnone
      have hvalid : r.valid a = true := by
        unfold counted at hc
        rw [Bool.and_eq_true] at hc
        exact hc.1
      have hne : ¬ (false = true ∨ r.inTimestamp a = 0) := by
        simpa using hts a hvalid
      rw [hset, if_neg hne]
      simp
    · simp [hc, h.unset hnone]

theorem stampHolds (hts : ∀ u, r.valid u = true → r.inTimestamp u ≠ 0)
    (t : Nat) : StampHolds r t := by
  induction t with
  | zero => exact ⟨fun _ => rfl, fun a _ ha => by omega⟩
  | succ t ih =>
      cases hcap : r.capReg t with
      | true => exact stampHolds_of_capReg hcap
      | false => exact ih.next hts hcap

/-! ## Which samples are counted -/

/-- A capture comes two clocks after a sample of an active clock. -/
theorem of_capReg (h : Startable r.config) {t : Nat}
    (hcap : r.capReg (t + 2) = true) :
    r.active t = true ∧ r.valid t = true := by
  rw [capReg_succ] at hcap
  exact h.valid_of_captured hcap

/-- No sample falls into the clock of a capture. -/
theorem capReg_of_valid (h : Startable r.config) (hs : Spaced 3 r.valid)
    {t : Nat} (hv : r.valid (t + 1) = true) :
    r.capReg (t + 1) = false := by
  by_contra hcap
  rw [Bool.not_eq_false] at hcap
  rcases capReg_cases hcap with hzero | ⟨u, hu, hcaptured⟩
  · exact absurd hzero (by omega)
  · have hbefore := (h.valid_of_captured hcaptured).2
    have := hs u (t + 1) (by omega) hbefore hv
    omega

/-- Without a sample the cycle stays active or inactive. -/
theorem active_of_quiet (h : Startable r.config) {t : Nat}
    (hlow : r.valid t = false) :
    r.active (t + 1) = r.active t := by
  cases hact : r.active t with
  | true =>
      by_contra hnext
      have hv := (h.becomes_inactive hact (by simpa using hnext)).1
      rw [hlow] at hv
      exact absurd hv (by simp)
  | false =>
      by_contra hnext
      have hv := (h.becomes_active hact (by simpa using hnext)).1
      rw [hlow] at hv
      exact absurd hv (by simp)

/-- The samples of the active clocks are counted, and no others. -/
theorem counted_eq (h : Startable r.config) (hs : Spaced 3 r.valid) (t : Nat) :
    r.counted t = (r.valid t && r.active t) := by
  unfold counted
  cases hv : r.valid t with
  | false => rfl
  | true =>
      rw [Bool.true_and, Bool.true_and]
      cases t with
      | zero =>
          have hena : r.ena 0 = false := h.ena_of_cycleCnt_zero rfl
          rw [active_zero, hena, accumulating_eq, started_zero, hena]
          simp
      | succ t =>
          have hlow : r.valid t = false := by
            by_contra hbefore
            have := hs t (t + 1) (by omega) (by simpa using hbefore) hv
            omega
          have hsame := active_of_quiet h hlow
          rw [capReg_of_valid h hs hv, accumulating_eq, h.started_succ, hsame]
          cases hact : r.active t with
          | true => simp
          | false =>
              rw [h.start_of_inactive (by rw [hsame, hact])]
              simp

/-- From an active clock on that no capture follows before clock `t + 2`, the
cycle is active and stays in its region. -/
theorem active_until_capture (h : Startable r.config) {a t : Nat}
    (hact : r.active a = true)
    (hnone : ∀ u, a < u → u < t + 2 → r.capReg u = false)
    {u : Nat} (hau : a ≤ u) (hut : u ≤ t) :
    r.active u = true ∧
      (r.ctrl u).sampleCnt.toNat =
        (r.ctrl a).sampleCnt.toNat + pulsesIn r.valid a u := by
  induction u, hau using Nat.le_induction with
  | base => exact ⟨hact, by simp⟩
  | succ u hau ih =>
      obtain ⟨hu, hcount⟩ := ih (by omega)
      have hno : r.captured (u + 1) = false := by
        rw [← capReg_succ]
        exact hnone _ (by omega) (by omega)
      rw [h.captured_succ, hu, Bool.true_and, Bool.or_eq_false_iff,
        Bool.not_eq_false'] at hno
      refine ⟨hno.2, ?_⟩
      rw [sampleCnt_counts h hu hno.2 hno.1, hcount, pulsesIn_succ _ hau]
      omega

/-- What a packet says of the samples since the capture before it: `a` is the
clock of the first sample it counts, its `cap_ts` is the time stamp of that
sample, and `samples_captured` counts every sample from there to the capture. -/
structure CountsFrom (r : Run) (t a : Nat) : Prop where
  after : r.captureBefore t ≤ a
  before : a < t
  counted : r.counted a = true
  first : ∀ u, r.captureBefore t ≤ u → u < a → r.counted u = false
  capTs : r.word t 0 = r.inTimestamp a
  every : ∀ u, a ≤ u → u < t → r.valid u = true → r.counted u = true
  count : (r.word t 2).toNat = pulsesIn r.valid a t

/-- The clock between a sample and its capture has no sample. -/
theorem not_valid_before_capReg (h : Startable r.config)
    (hs : Spaced 3 r.valid) {t : Nat} (hcap : r.capReg (t + 2) = true) :
    r.valid (t + 1) = false :=
  hs.low_after (of_capReg h hcap).2 (by decide) (by decide)

/-- From an active clock on every sample is counted up to the capture. -/
theorem counted_until_capture (h : Startable r.config)
    (hs : Spaced 3 r.valid) {a t : Nat} (hcap : r.capReg (t + 2) = true)
    (hba : r.captureBefore (t + 2) ≤ a) (hact : r.active a = true)
    {u : Nat} (hau : a ≤ u) (hut : u < t + 2) :
    r.counted u = r.valid u := by
  rw [counted_eq h hs]
  by_cases hu : u ≤ t
  · have hrun := active_until_capture h hact
      (fun v => not_capReg_since hba) hau hu
    rw [hrun.1, Bool.and_true]
  · obtain rfl : u = t + 1 := by omega
    rw [not_valid_before_capReg h hs hcap]
    rfl

/-- A packet that counts nothing before an active clock counts the samples from
there on. -/
theorem samplesCaptured_since (h : Startable r.config)
    (hs : Spaced 3 r.valid) {a t : Nat} (hcap : r.capReg (t + 2) = true)
    (hba : r.captureBefore (t + 2) ≤ a) (hat : a ≤ t)
    (hact : r.active a = true)
    (hnone : pulsesIn r.counted (r.captureBefore (t + 2)) a = 0) :
    (r.cap (t + 2)).samplesCaptured.toNat = pulsesIn r.valid a (t + 2) := by
  have hcount : pulsesIn r.counted a (t + 2) =
      pulsesIn r.valid a (t + 2) := by
    refine Finset.sum_congr rfl (fun u hu => ?_)
    rw [Finset.mem_Ico] at hu
    rw [counted_until_capture h hs hcap hba hact hu.1 hu.2]
  have hfits : pulsesIn r.valid a (t + 2) < 2 ^ 64 := by
    have hsample := (active_until_capture h hact
      (fun v => not_capReg_since hba) hat (le_refl t)).2
    have hwidth := (r.ctrl t).sampleCnt.isLt
    rw [pulsesIn_succ _ (by omega), pulsesIn_succ _ hat,
      not_valid_before_capReg h hs hcap]
    split_ifs <;> omega
  rw [samplesCaptured_eq, pulsesIn_add _ hba (by omega), hnone, hcount,
    Nat.zero_add, BitVec.toNat_ofNat, Nat.mod_eq_of_lt hfits]

/-- A packet with a sample has a first one. -/
theorem exists_first_counted {t : Nat}
    (hsome : 1 ≤ (r.cap t).samplesCaptured.toNat) :
    ∃ a, r.captureBefore t ≤ a ∧ a < t ∧ r.counted a = true ∧
      pulsesIn r.counted (r.captureBefore t) a = 0 := by
  have hpos : 1 ≤ pulsesIn r.counted (r.captureBefore t) t := by
    rw [samplesCaptured_eq] at hsome
    by_contra hzero
    rw [show pulsesIn r.counted (r.captureBefore t) t = 0 by omega] at hsome
    exact absurd hsome (by decide)
  obtain ⟨a, hba, hat, hc, hnone⟩ := exists_pulse r.counted Nat.one_pos hpos
  exact ⟨a, hba, hat, hc, by omega⟩

/-- **Time stamp and number of the samples of a packet.** -/
theorem capture_timestamp
    (h : Startable r.config) (hs : Spaced 8 r.valid)
    (hts : ∀ u, r.valid u = true → r.inTimestamp u ≠ 0)
    {t : Nat} (hcap : r.capReg t = true) (hsome : 1 ≤ (r.word t 2).toNat) :
    (∃ a, CountsFrom r t a) ∧
      ∀ u, r.capReg u = true → u ≠ t →
        Disjoint (Finset.Ico (r.captureBefore u) u)
          (Finset.Ico (r.captureBefore t) t) := by
  refine ⟨?_, fun u hu hne => disjoint_captureBefore hu hcap hne⟩
  have hs3 : Spaced 3 r.valid := hs.mono (by omega)
  obtain ⟨a, hba, hat, hc, hnone⟩ := exists_first_counted hsome
  obtain rfl | ⟨t, rfl, _⟩ := capReg_cases hcap
  · omega
  obtain ⟨hv, hact⟩ : r.valid a = true ∧ r.active a = true := by
    rwa [counted_eq h hs3, Bool.and_eq_true] at hc
  have hat' : a ≤ t := by
    by_contra hgt
    obtain rfl : a = t + 1 := by omega
    rw [not_valid_before_capReg h hs3 hcap] at hv
    exact absurd hv (by simp)
  refine ⟨a, hba, hat, hc, (pulsesIn_eq_zero_iff r.counted _ _).mp hnone,
    (stampHolds hts (t + 2)).first a hba hat hc hnone,
    fun u hau hut hu => ?_,
    samplesCaptured_since h hs3 hcap hba hat' hact hnone⟩
  rw [counted_until_capture h hs3 hcap hba hact hau hut, hu]

/-- A run of `sampledRun` in which the time stamps count the clocks. -/
def stampedRun (c : CaptureControl.Config) : Run :=
  { sampledRun c with
    input := fun t =>
      { triggered everyEighth t with
        inTimestamp := BitVec.ofNat 64 (2 * t + 1) } }

theorem capture_timestamp_twoRegions :
    ∃ a, CountsFrom (stampedRun twoRegions) 19 a := by
  refine (capture_timestamp (r := stampedRun twoRegions)
    twoRegions_usable.startable (sampledRun_sampled twoRegions 0).spaced
    (fun u _ => ?_) (t := 19) (by decide +kernel) (by decide +kernel)).1
  intro hzero
  have htoNat := congrArg BitVec.toNat hzero
  change (2 * u + 1) % 2 ^ 64 = 0 at htoNat
  omega

/-! ## The counters of the channels -/

theorem windowStart_le_regionStart (r : Run) (t : Nat) :
    r.windowStart t ≤ r.regionStart t := by
  induction t with
  | zero => exact le_refl 0
  | succ t ih =>
      have hle := windowStart_le r (t + 1)
      unfold regionStart
      cases ho : r.opens (t + 1) with
      | true => simpa using hle
      | false =>
          rw [windowStart_succ ho] at hle ⊢
          split_ifs <;> omega

/-- A region starts behind a capture or where a window opens. -/
theorem regionStart_cases (r : Run) (t : Nat) :
    r.regionStart t = 0 ∨ r.capReg (r.regionStart t) = true ∨
      r.opens (r.regionStart t) = true := by
  induction t with
  | zero => exact Or.inl rfl
  | succ t ih =>
      unfold regionStart
      split_ifs with hstart
      · rw [Bool.or_eq_true] at hstart
        exact Or.inr hstart
      · exact ih

theorem captureBefore_le_regionStart (r : Run) (t : Nat) :
    r.captureBefore (t + 1) ≤ r.regionStart t := by
  induction t with
  | zero =>
      unfold captureBefore
      split_ifs <;> exact le_refl 0
  | succ t ih =>
      have hle := regionStart_le r t
      unfold regionStart
      cases hcap : r.capReg (t + 1) with
      | true => simp [captureBefore_of_capReg hcap]
      | false =>
          rw [captureBefore_of_quiet hcap]
          split_ifs <;> omega

/-- From the capture before it to the start of a region nothing is counted. -/
theorem idle_before_region (h : Startable r.config) {t u : Nat}
    (hbu : r.captureBefore (t + 2) ≤ u) (hur : u < r.regionStart t) :
    r.active u = false := by
  by_contra hact
  have hle := regionStart_le r t
  have hrun := fun v huv hvt => (active_until_capture h (u := v) (t := t)
    (by simpa using hact) (fun v => not_capReg_since hbu) huv hvt).1
  obtain ⟨v, hv⟩ : ∃ v, r.regionStart t = v + 1 :=
    ⟨r.regionStart t - 1, by omega⟩
  rcases regionStart_cases r t with hzero | hcap | hopens
  · omega
  · rw [not_capReg_since hbu hur (by omega)] at hcap
    exact absurd hcap (by simp)
  · rw [hv] at hopens
    have hidle := (opens_succ hopens).1
    rw [hrun v (by omega) (by omega)] at hidle
    exact absurd hidle (by simp)

/-- A packet counts the samples since its region has started. -/
theorem samplesCaptured_toNat (h : Startable r.config) (hs : Spaced 3 r.valid)
    {t : Nat} (hcap : r.capReg (t + 2) = true) :
    (r.cap (t + 2)).samplesCaptured.toNat =
      pulsesIn r.valid (r.regionStart t) (t + 2) := by
  obtain ⟨hact, hv⟩ := of_capReg h hcap
  have hquiet : r.capReg (t + 1) = false := by
    rw [capReg_succ]
    exact captured_of_valid h (hs.mono (by omega)) hv
  have hbefore : r.captureBefore (t + 2) ≤ r.regionStart t := by
    rw [captureBefore_of_quiet hquiet]
    exact captureBefore_le_regionStart r t
  have hle := regionStart_le r t
  refine samplesCaptured_since h hs hcap hbefore hle
    (active_since_windowStart hact (windowStart_le_regionStart r t) hle) ?_
  refine (pulsesIn_eq_zero_iff r.counted _ _).mpr (fun u hbu hur => ?_)
  rw [counted_eq h hs, idle_before_region h hbu hur, Bool.and_false]

theorem card_sampleClocks (n : Fin numCh) (a b : Nat) :
    (r.sampleClocks n a b).card = pulsesIn (r.chValid n) a b := by
  unfold sampleClocks pulsesIn
  rw [Finset.card_filter]

/-- The count of a channel in a packet, when the channel takes part in every
sample: it lacks the last sample of a region that another region follows. -/
theorem sampleCount_of_capReg (h : Startable r.config) {n : Fin numCh}
    (hs : Sampled r n) {t : Nat} (hcap : r.capReg (t + 2) = true) :
    ((r.cap (t + 2)).ch n).chSampleCount.toNat +
        (if r.start (t + 1) && !r.start t then 1 else 0) =
      (r.cap (t + 2)).samplesCaptured.toNat := by
  have hs3 : Spaced 3 r.valid := hs.spaced.mono (by omega)
  have hv := (of_capReg h hcap).2
  have hle := regionStart_le r t
  have hlow := not_valid_before_capReg h hs3 hcap
  have hvalid : r.chValid n = r.valid := by
    funext u
    unfold chValid
    cases hu : r.valid u with
    | false => rfl
    | true => rw [hs.channel u hu]; rfl
  have hsucc : pulsesIn r.valid (r.regionStart t) (t + 1) =
      pulsesIn r.valid (r.regionStart t) t + 1 := by
    rw [pulsesIn_succ _ hle, hv, if_pos rfl]
  have hlast : pulsesIn r.valid (r.regionStart t) (t + 2) =
      pulsesIn r.valid (r.regionStart t) (t + 1) := by
    rw [pulsesIn_succ _ (by omega), hlow]
    rfl
  rw [samplesCaptured_toNat h hs3 hcap,
    (statistics_of_capReg h hs.spaced_two hcap n).sampleCount,
    card_sampleClocks, hvalid, firstClock_add_two, lastClock_add_two, hlast]
  cases r.start (t + 1) && !r.start t with
  | true => exact hsucc.symm
  | false => rfl

/-- **The two counts of a packet** agree exactly when it is the last packet of
its cycle. -/
theorem sample_count_agrees_iff (h : Usable r.config) {n : Fin numCh}
    (hs : Sampled r n) {t : Nat} (hcap : r.captured (t + 1) = true) :
    ((r.cap (t + 2)).ch n).chSampleCount = (r.cap (t + 2)).samplesCaptured ↔
      r.allEnd t = true := by
  have hcount := sampleCount_of_capReg h.startable hs (t := t)
    (by rw [capReg_succ, hcap])
  rw [captured_succ h, Bool.and_eq_true] at hcap
  rw [start_edge h hcap.1, hcap.2, Bool.true_and] at hcount
  rw [← BitVec.toNat_inj]
  cases hend : r.allEnd t with
  | true => simpa [hend] using hcount
  | false =>
      simp only [hend, Bool.not_false, if_true] at hcount
      refine iff_of_false ?_ (by simp)
      omega

/-- The last of two regions. -/
theorem sample_count_agrees_twoRegions :
    (((sampledRun twoRegions).cap 35).ch 0).chSampleCount =
      ((sampledRun twoRegions).cap 35).samplesCaptured := by
  have hiff := sample_count_agrees_iff twoRegions_usable (n := 0) (t := 33)
    (sampledRun_sampled twoRegions 0) (by decide +kernel)
  exact hiff.mpr (by decide +kernel)

/-- The packet of the first region counts two samples, its channels only
one. -/
theorem sample_count_differs_twoRegions :
    Usable twoRegions ∧ Sampled (sampledRun twoRegions) 0 ∧
      (sampledRun twoRegions).captured 18 = true ∧
      (((sampledRun twoRegions).cap 19).ch 0).chSampleCount ≠
        ((sampledRun twoRegions).cap 19).samplesCaptured :=
  ⟨twoRegions_usable, sampledRun_sampled _ _, by decide +kernel,
    by decide +kernel⟩

end Run
end CaptureSystem
end MollerFirmware
