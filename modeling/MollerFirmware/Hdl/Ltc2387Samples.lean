import MollerFirmware.Clocked.Crossings
import MollerFirmware.Hdl.Ltc2387Conversion
import MollerFirmware.Hdl.Ltc2387Capture

/-!
# ltc2387_deserializer: from conversions to samples

The whole deserializer. `clk` has half the frequency of `clk_cnv`, so that a
half-period of `clk` is a clock of `clk_cnv`. The time stamps cross from
`clk_cnv` to `clk` in `adc_ts_fifo`; the samples come from the converters, which
return each pulse of `adc_clk` on DCO, together with two data bits.

Nothing in the module tells which time stamp belongs to which burst. That they
come together is a matter of delays: the pattern of a burst has to show after
`q_valid` of the sample before, and before `q_valid` of its own.
-/

namespace MollerFirmware
namespace Ltc2387
namespace Capture

open Clocked

variable {numAdc : Nat}

/-- A clock edge of the capture domain with `rst` high. -/
def reset (s : State numAdc) (i : Input numAdc) : State numAdc :=
  { qCount := 0
    qTs := 0
    qValid := false
    ts := 0
    ch := fun n => channelStep true (s.ch n) (i.ddr n) }

namespace Run

/-- The run begins with the last clock edge of a reset. -/
def AfterReset (r : Run numAdc) : Prop :=
  ∃ s i, r.before = reset s i

/-- `ts_valid` -/
def tsValid (r : Run numAdc) (u : Nat) : Bool :=
  (r.input u).tsValid

/-- `ts_d` -/
def tsD (r : Run numAdc) (u : Nat) : BitVec 64 :=
  (r.input u).tsD

variable {r : Run numAdc}

/-! ## Time stamps that come out of the buffer -/

/-- `q_count` is loaded by a time stamp. -/
theorem qCount_countsDown (r : Run numAdc) (T : Nat) :
    CountsDown T (fun t => (r.state t).qCount.toNat) (fun _ => 3)
      r.tsValid := by
  intro t _
  have hnext : (r.state (t + 1)).qCount =
      if r.tsValid t then 3
      else if (r.state t).qCount ≠ 0 then (r.state t).qCount - 1
      else 0 := by
    rfl
  simp only [hnext]
  split_ifs with hvalid hcount
  · rfl
  · exact toNat_pred hcount
  · rw [not_not.mp hcount]
    rfl

theorem qValid_succ {t : Nat} :
    r.qValid (t + 1) = true ↔
      r.tsValid t = false ∧ (r.state t).qCount.toNat = 1 := by
  have hnext : r.qValid (t + 1) =
      if r.tsValid t then false else decide ((r.state t).qCount = 1) := by
    rfl
  rw [hnext]
  cases r.tsValid t <;> simp [← BitVec.toNat_inj]

theorem ts_succ (t : Nat) :
    (r.state (t + 1)).ts = if r.tsValid t then r.tsD t else (r.state t).ts := by
  rfl

theorem qTs_of_qValid {t : Nat} (hvalid : r.qValid (t + 1) = true) :
    (r.state (t + 1)).qTs = (r.state t).ts := by
  obtain ⟨hnone, hcount⟩ := qValid_succ.mp hvalid
  have hone : (r.state t).qCount = 1 := BitVec.eq_of_toNat_eq hcount
  have hnext : (r.state (t + 1)).qTs =
      if r.tsValid t then 0
      else if (r.state t).qCount = 1 then (r.state t).ts else 0 := by
    rfl
  rw [hnext, hnone, hone]
  rfl

/-- Every time stamp comes out four clocks later, and nothing else does. -/
theorem qValid_iff (hreset : r.AfterReset) (hspaced : Spaced 4 r.tsValid)
    (q : Nat) :
    r.qValid q = true ↔ ∃ u, r.tsValid u = true ∧ q = u + 4 := by
  obtain ⟨s, i, hbefore⟩ := hreset
  have hdown := qCount_countsDown r (q + 1)
  have hcount0 : (r.state 0).qCount.toNat = 0 := by
    show r.before.qCount.toNat = 0
    rw [hbefore]
    rfl
  constructor
  · intro hvalid
    cases q with
    | zero =>
        have hlow : r.qValid 0 = false := by
          show r.before.qValid = false
          rw [hbefore]
          rfl
        exact absurd (hvalid.symm.trans hlow) (by simp)
    | succ q =>
        obtain ⟨-, hcount⟩ := qValid_succ.mp hvalid
        obtain ⟨u, -, hu, hsum⟩ := hdown.load_of_pos hcount0 (u := q) (by omega)
          (by omega)
        exact ⟨u, hu, by omega⟩
  · rintro ⟨u, hu, rfl⟩
    have hcount := hdown.after_load hu (k := 2) (by omega) fun v huv hv => by
      obtain ⟨j, rfl⟩ : ∃ j, v = u + j := ⟨v - u, by omega⟩
      exact hspaced.low_after hu (by omega) (by omega)
    exact qValid_succ.mpr
      ⟨hspaced.low_after hu (j := 3) (by omega) (by omega), hcount⟩

theorem qTs_of_tsValid (hspaced : Spaced 4 r.tsValid) {u : Nat}
    (hu : r.tsValid u = true) (hvalid : r.qValid (u + 4) = true) :
    (r.state (u + 4)).qTs = r.tsD u := by
  have hlow : ∀ j, 0 < j → j < 4 → r.tsValid (u + j) = false :=
    fun j hj hj4 => hspaced.low_after hu hj hj4
  rw [qTs_of_qValid hvalid, ts_succ, if_neg (by simp [hlow 2]), ts_succ,
    if_neg (by simp [hlow 1]), ts_succ, if_pos hu]

/-! ## A later part of a run -/

/-- The run from clock `a` on. -/
def later (r : Run numAdc) (a : Nat) : Run numAdc :=
  { before := r.state a
    input := fun t => r.input (a + t) }

theorem state_later (r : Run numAdc) (a t : Nat) :
    (r.later a).state t = r.state (a + t) := by
  induction t with
  | zero => rfl
  | succ t ih =>
      show step ((r.later a).state t) (r.input (a + t)) = _
      rw [ih]
      rfl

theorem halves_later (f g : Nat → Bool) (a i : Nat) :
    halves (fun t => f (a + t)) (fun t => g (a + t)) i =
      halves f g (2 * a + i) := by
  unfold halves
  rw [show (2 * a + i) % 2 = i % 2 by omega,
    show (2 * a + i) / 2 = a + i / 2 by omega]

theorem dcoLine_later (r : Run numAdc) (n : Fin numAdc) (a i : Nat) :
    (r.later a).dcoLine n i = r.dcoLine n (2 * a + i) :=
  halves_later (fun t => ((r.input t).ddr n).dcoR)
    (fun t => ((r.input t).ddr n).dcoF) a i

theorem daLine_later (r : Run numAdc) (n : Fin numAdc) (a i : Nat) :
    (r.later a).daLine n i = r.daLine n (2 * a + i) :=
  halves_later (fun t => ((r.input t).ddr n).daR)
    (fun t => ((r.input t).ddr n).daF) a i

theorem dbLine_later (r : Run numAdc) (n : Fin numAdc) (a i : Nat) :
    (r.later a).dbLine n i = r.dbLine n (2 * a + i) :=
  halves_later (fun t => ((r.input t).ddr n).dbR)
    (fun t => ((r.input t).ddr n).dbF) a i

end Run
end Capture

/-! ## Converters -/

open Clocked Capture

variable {numAdc : Nat}

/-- What a converter and its cables do: each pulse of `adc_clk` comes back on
DCO `delay` half-periods later, and the word of a conversion comes in its burst,
two bits a half-period. -/
structure Converter (c : Conversion.Run) (r : Run numAdc) (n : Fin numAdc)
    (delay : Nat) (sample : Nat → BitVec 18) : Prop where
  dco : ∀ i, r.dcoLine n i = true ↔ ∃ v, c.adcClk v = true ∧ i = v + delay
  da : ∀ t, c.conv t = true → ∀ j, j < 9 →
    r.daLine n (t + 17 + delay + j) = (sample t).getLsbD (17 - 2 * j)
  db : ∀ t, c.conv t = true → ∀ j, j < 9 →
    r.dbLine n (t + 17 + delay + j) = (sample t).getLsbD (16 - 2 * j)

/-- The half-period in which the burst of a conversion begins. -/
def burstStart (delay t : Nat) : Nat :=
  t + 18 + delay

namespace Converter

variable {c : Conversion.Run} {r : Run numAdc} {n : Fin numAdc} {delay : Nat}
  {sample : Nat → BitVec 18}

/-- DCO is high in the five pulses of each conversion. -/
theorem dco_iff (h : Converter c r n delay sample) (hready : ∀ T, c.Ready T)
    (i : Nat) :
    r.dcoLine n i = true ↔
      ∃ t j, c.conv t = true ∧ j < 5 ∧ i = burstStart delay t + 2 * j := by
  rw [h.dco]
  constructor
  · rintro ⟨v, hv, rfl⟩
    obtain ⟨t, j, ht, hj, rfl⟩ :=
      (Conversion.Run.adcClk_iff (hready v) le_rfl).mp hv
    exact ⟨t, j, ht, hj, by unfold burstStart; omega⟩
  · rintro ⟨t, j, ht, hj, rfl⟩
    exact ⟨t + 18 + 2 * j,
      (Conversion.Run.adcClk_iff (hready _) le_rfl).mpr ⟨t, j, ht, hj, rfl⟩,
      by unfold burstStart; omega⟩

theorem conv_far (hready : ∀ T, c.Ready T) {t u : Nat} (htu : t < u)
    (ht : c.conv t = true) (hu : c.conv u = true) :
    t + 17 ≤ u := by
  have hspaced := Conversion.Run.conv_spaced (hready u) htu le_rfl ht hu
  omega

/-- Around a burst there is no other one. -/
theorem dco_burst (h : Converter c r n delay sample)
    (hready : ∀ T, c.Ready T) {t : Nat} (ht : c.conv t = true) {i : Nat}
    (hlow : burstStart delay t ≤ i + 8) (hhigh : i < burstStart delay t + 17) :
    r.dcoLine n i = decide (burstStart delay t ≤ i ∧
      i < burstStart delay t + 10 ∧ (i - burstStart delay t) % 2 = 0) := by
  rw [Bool.eq_iff_iff, h.dco_iff hready, decide_eq_true_eq]
  constructor
  · rintro ⟨u, j, hu, hj, rfl⟩
    unfold burstStart at hlow hhigh ⊢
    rcases Nat.lt_trichotomy u t with hlt | rfl | hgt
    · have hfar := conv_far hready hlt hu ht
      omega
    · omega
    · have hfar := conv_far hready hgt ht hu
      omega
  · rintro ⟨hle, hlt, heven⟩
    exact ⟨t, (i - burstStart delay t) / 2, ht, by omega, by omega⟩

/-- The burst of a conversion, seen from shortly before. -/
theorem burst (h : Converter c r n delay sample) (hready : ∀ T, c.Ready T)
    {t : Nat} (ht : c.conv t = true) {a p : Nat}
    (hstart : burstStart delay t = 2 * a + p) (hlow : 4 ≤ p) (hp : p ≤ 5) :
    Run.Burst (r.later a) n 8 p (sample t) where
  low := hlow
  fits := by omega
  dco := by
    intro i hi
    rw [Run.dcoLine_later, h.dco_burst hready ht (by omega) (by omega),
      decide_eq_decide]
    omega
  da := by
    intro j hj
    rw [Run.daLine_later, ← h.da t ht j hj]
    exact congrArg (r.daLine n) (by unfold burstStart at hstart; omega)
  db := by
    intro j hj
    rw [Run.dbLine_later, ← h.db t ht j hj]
    exact congrArg (r.dbLine n) (by unfold burstStart at hstart; omega)

/-- In the clock after the pattern the sample is out. -/
theorem captured (h : Converter c r n delay sample) (hready : ∀ T, c.Ready T)
    {t : Nat} (ht : c.conv t = true)
    (hlow : r.qValid (Run.matchClock (burstStart delay t)) = false) :
    (r.ch n (Run.matchClock (burstStart delay t) + 1)).qChValid = true ∧
      (r.ch n (Run.matchClock (burstStart delay t) + 1)).qData = sample t := by
  obtain ⟨a, p, hstart, hp4, hp5⟩ :
      ∃ a p, burstStart delay t = 2 * a + p ∧ 4 ≤ p ∧ p ≤ 5 :=
    ⟨(burstStart delay t - 4) / 2,
      burstStart delay t - 2 * ((burstStart delay t - 4) / 2),
      by unfold burstStart; omega, by unfold burstStart; omega,
      by unfold burstStart; omega⟩
  have hclock : Run.matchClock (burstStart delay t) = a + Run.matchClock p := by
    unfold Run.matchClock
    omega
  have hvalid : (r.later a).qValid (Run.matchClock p) = false := by
    rw [hclock] at hlow
    rw [← hlow]
    exact congrArg State.qValid (r.state_later a _)
  have hcap := (h.burst hready ht hstart hp4 hp5).capture hvalid
  have hch : (r.later a).ch n (Run.matchClock p + 1) =
      r.ch n (a + Run.matchClock p + 1) :=
    congrArg (fun s : State numAdc => s.ch n) (r.state_later a _)
  rw [hch] at hcap
  rw [hclock]
  exact hcap

/-- A pattern shows for bursts only. -/
theorem exists_of_pattern (h : Converter c r n delay sample)
    (hready : ∀ T, c.Ready T) {s : Nat} (hs : 5 ≤ s)
    (hpattern : (r.ch n s).dco = 0x0AA ∨ (r.ch n s).dco = 0x155) :
    ∃ t, c.conv t = true ∧ s = Run.matchClock (burstStart delay t) := by
  rcases hpattern with hpattern | hpattern
  · have hfirst : r.dcoLine n (2 * s - 8) = true := by
      have hbit := Run.dco_getLsbD (r := r) (n := n) (s := s) (c := 7)
        (by omega) (by omega)
      rw [hpattern, show 2 * s - 1 - 7 = 2 * s - 8 by omega] at hbit
      exact hbit.symm
    have hbefore : r.dcoLine n (2 * s - 10) = false := by
      have hbit := Run.dco_getLsbD (r := r) (n := n) (s := s) (c := 9)
        (by omega) (by omega)
      rw [hpattern, show 2 * s - 1 - 9 = 2 * s - 10 by omega] at hbit
      exact hbit.symm
    obtain ⟨t, j, ht, hj, hpos⟩ := (h.dco_iff hready _).mp hfirst
    -- the pulse is the first one, as there is none two half-periods before
    have hzero : j = 0 := by
      by_contra hne
      have hhigh := (h.dco_iff hready (2 * s - 10)).mpr
        ⟨t, j - 1, ht, by omega, by omega⟩
      exact absurd (hhigh.symm.trans hbefore) (by simp)
    exact ⟨t, ht, by unfold Run.matchClock; omega⟩
  · have hfirst : r.dcoLine n (2 * s - 9) = true := by
      have hbit := Run.dco_getLsbD (r := r) (n := n) (s := s) (c := 8)
        (by omega) (by omega)
      rw [hpattern, show 2 * s - 1 - 8 = 2 * s - 9 by omega] at hbit
      exact hbit.symm
    have hlast : r.dcoLine n (2 * s - 1) = true := by
      have hbit := Run.dco_getLsbD (r := r) (n := n) (s := s) (c := 0)
        (by omega) (by omega)
      rw [hpattern, Nat.sub_zero] at hbit
      exact hbit.symm
    obtain ⟨t, j, ht, hj, hpos⟩ := (h.dco_iff hready _).mp hfirst
    obtain ⟨u, k, hu, hk, hpos'⟩ := (h.dco_iff hready _).mp hlast
    -- both pulses are of one burst, which has no more than five
    have hzero : j = 0 := by
      unfold burstStart at hpos hpos'
      rcases Nat.lt_trichotomy t u with hlt | rfl | hgt
      · have hfar := conv_far hready hlt ht hu
        omega
      · omega
      · have hfar := conv_far hready hgt hu ht
        omega
    exact ⟨t, ht, by unfold Run.matchClock; omega⟩

end Converter

/-! ## Samples -/

/-- `adc_ts_fifo`: the time stamps are written with `wr_ena` and read as they
come. -/
abbrev TsFifo (c : Conversion.Run) (r : Run numAdc) (latency jitter : Nat) :=
  Crossing 2 latency jitter c.wrEna (fun v => (c.state v).inTsCaptured)
    r.tsValid r.tsD

variable {c : Conversion.Run} {r : Run numAdc} {latency jitter : Nat}

theorem conv_spaced (hready : ∀ T, c.Ready T) : Spaced 17 c.conv := by
  intro t u htu ht hu
  have hfar := Converter.conv_far hready htu ht hu
  omega

/-- Time stamps are written as far apart as the conversions are. -/
theorem wrEna_spaced_of_conv (hready : ∀ T, c.Ready T) {d : Nat}
    (hconv : Spaced d c.conv) : Spaced d c.wrEna := by
  intro v w hvw hv hw
  obtain ⟨t, rfl, ht⟩ := (Conversion.Run.wrEna_iff (hready v) le_rfl).mp hv
  obtain ⟨u, rfl, hu⟩ := (Conversion.Run.wrEna_iff (hready w) le_rfl).mp hw
  have hfar := hconv t u (by omega) ht hu
  omega

theorem wrEna_spaced (hready : ∀ T, c.Ready T) : Spaced 17 c.wrEna :=
  wrEna_spaced_of_conv hready (conv_spaced hready)

theorem wrEna_of_conv (hready : ∀ T, c.Ready T) {t : Nat}
    (ht : c.conv t = true) :
    c.wrEna (t + 16) = true :=
  (Conversion.Run.wrEna_iff (hready _) le_rfl).mpr ⟨t, rfl, ht⟩

/-- The clock in which the sample of a conversion comes. -/
def sampleClock (x : TsFifo c r latency jitter) (t : Nat) : Nat :=
  x.arrival (t + 16) + 4

section Wired

variable (hreset : r.AfterReset) (hready : ∀ T, c.Ready T)
  (x : TsFifo c r latency jitter) (hjitter : jitter ≤ 10)

include hready x hjitter

theorem tsValid_spaced : Spaced 4 r.tsValid :=
  x.spaced (wrEna_spaced hready) (by omega)

theorem sampleClock_lt {t u : Nat} (htu : t < u) (ht : c.conv t = true)
    (hu : c.conv u = true) :
    sampleClock x t < sampleClock x u := by
  have hapart := x.apart (m := 4) (wrEna_spaced hready) (by omega)
    (show t + 16 < u + 16 by omega) (wrEna_of_conv hready ht)
    (wrEna_of_conv hready hu)
  unfold sampleClock
  omega

include hreset in
/-- Samples are as far apart as the conversions, but for the jitter. -/
theorem qValid_spaced {d m : Nat} (hconv : Spaced d c.conv)
    (hm : 2 * m + jitter < d + 2) : Spaced m r.qValid := by
  intro p q hpq hp hq
  have hspaced := tsValid_spaced hready x hjitter
  obtain ⟨u, hu, rfl⟩ := (Run.qValid_iff hreset hspaced p).mp hp
  obtain ⟨v, hv, rfl⟩ := (Run.qValid_iff hreset hspaced q).mp hq
  have hapart := x.spaced (m := m) (wrEna_spaced_of_conv hready hconv) hm u v
    (by omega) hu hv
  omega

include hreset in
/-- There is a sample for each conversion, and no other. -/
theorem qValid_iff_conv (q : Nat) :
    r.qValid q = true ↔ ∃ t, c.conv t = true ∧ sampleClock x t = q := by
  rw [Run.qValid_iff hreset (tsValid_spaced hready x hjitter)]
  constructor
  · rintro ⟨u, hu, rfl⟩
    obtain ⟨v, hv, rfl⟩ := (x.valid_iff u).mp hu
    obtain ⟨t, rfl, ht⟩ := (Conversion.Run.wrEna_iff (hready v) le_rfl).mp hv
    exact ⟨t, ht, rfl⟩
  · rintro ⟨t, ht, rfl⟩
    exact ⟨_, (x.valid_iff _).mpr ⟨_, wrEna_of_conv hready ht, rfl⟩, rfl⟩

include hreset in
/-- It has the time stamp of its conversion. -/
theorem qTs_sampleClock {t : Nat} (ht : c.conv t = true) :
    (r.state (sampleClock x t)).qTs = (c.input t).inTs := by
  have hwr := wrEna_of_conv hready ht
  have hvalid := (qValid_iff_conv hreset hready x hjitter _).mpr ⟨t, ht, rfl⟩
  have hheld := Conversion.Run.inTsCaptured_held (hready (t + 16)) ht (k := 15)
    (by omega) (by omega)
  calc
    (r.state (sampleClock x t)).qTs = r.tsD (x.arrival (t + 16)) :=
      Run.qTs_of_tsValid (tsValid_spaced hready x hjitter)
        ((x.valid_iff _).mpr ⟨_, hwr, rfl⟩) hvalid
    _ = (c.state (t + 16)).inTsCaptured := x.dout_eq _ hwr
    _ = (c.input t).inTs := by
      rw [← hheld]

variable {n : Fin numAdc} {delay : Nat} {sample : Nat → BitVec 18}

include hreset in
/-- The time stamps come neither too early nor too late for a channel: the
pattern shows after the sample before, and before its own. -/
theorem Converter.qValid_low (hlate : latency + jitter ≤ delay + 18) {t : Nat}
    (ht : c.conv t = true) {v : Nat}
    (hv : Run.matchClock (burstStart delay t) ≤ v)
    (hvq : v < sampleClock x t) :
    r.qValid v = false := by
  by_contra hvalid
  obtain ⟨u, hu, rfl⟩ := (qValid_iff_conv hreset hready x hjitter v).mp
    (by simpa using hvalid)
  have hut : u < t := by
    have hbefore := x.written_before (wrEna_spaced hready) (by omega)
      (wrEna_of_conv hready hu) (wrEna_of_conv hready ht)
      (by unfold sampleClock at hvq; omega)
    omega
  have hfar := Converter.conv_far hready hut hu ht
  have hwritten := x.late _ (wrEna_of_conv hready hu)
  unfold Run.matchClock burstStart sampleClock at hv
  omega

include hreset in
/-- So the sample is out when it comes. -/
theorem Converter.held (h : Converter c r n delay sample)
    (hlate : latency + jitter ≤ delay + 18) {t : Nat} (ht : c.conv t = true) {v : Nat}
    (hv : Run.matchClock (burstStart delay t) < v)
    (hvq : v ≤ sampleClock x t) :
    (r.ch n v).qChValid = true ∧ (r.ch n v).qData = sample t := by
  have hlow : ∀ v, Run.matchClock (burstStart delay t) ≤ v →
      v < sampleClock x t → r.qValid v = false :=
    fun v => Converter.qValid_low hreset hready x hjitter hlate ht
  induction v, hv using Nat.le_induction with
  | base => exact h.captured hready ht (hlow _ le_rfl hvq)
  | succ v hv ih =>
      obtain ⟨hvalid, hdata⟩ := ih (by omega)
      have hnone : ¬ ((r.ch n v).dco = 0x0AA ∨ (r.ch n v).dco = 0x155) := by
        intro hpattern
        obtain ⟨u, hu, rfl⟩ := h.exists_of_pattern hready
          (by unfold Run.matchClock burstStart at hv; omega) hpattern
        have hwritten := x.late _ (wrEna_of_conv hready ht)
        unfold Run.matchClock burstStart at hv
        unfold Run.matchClock burstStart sampleClock at hvq
        rcases Nat.lt_trichotomy u t with hlt | rfl | hgt
        · omega
        · omega
        · have hfar := Converter.conv_far hready hgt ht hu
          omega
      rw [not_or] at hnone
      rw [Run.ch_succ]
      unfold channelStep
      rw [hlow v (by omega) (by omega)]
      simp only [Bool.false_eq_true, if_false]
      rw [if_neg hnone.1, if_neg hnone.2, if_neg hnone.1, if_neg hnone.2]
      exact ⟨hvalid, hdata⟩

end Wired

/-- **Time stamps and samples come together.** There is one sample for each
conversion, in order; it has the time stamp of its conversion and, in every
channel whose delay is within the window, the word that was converted. The
samples are as far apart as the conversions, which are never closer than 17
clocks, but for the jitter of the buffer. -/
theorem samples_exact (hreset : r.AfterReset) (hready : ∀ T, c.Ready T)
    (x : TsFifo c r latency jitter) (hjitter : jitter ≤ 10) :
    (∀ q, r.qValid q = true ↔ ∃ t, c.conv t = true ∧ sampleClock x t = q) ∧
      (∀ t u, c.conv t = true → c.conv u = true → t < u →
        sampleClock x t < sampleClock x u) ∧
      Spaced 17 c.conv ∧
      (∀ d m, Spaced d c.conv → 2 * m + jitter < d + 2 →
        Spaced m r.qValid) ∧
      ∀ t, c.conv t = true →
        (r.state (sampleClock x t)).qTs = (c.input t).inTs ∧
          ∀ n delay sample, Converter c r n delay sample →
            delay + 4 ≤ latency → latency + jitter ≤ delay + 18 →
            (r.ch n (sampleClock x t)).qChValid = true ∧
              (r.ch n (sampleClock x t)).qData = sample t := by
  refine ⟨qValid_iff_conv hreset hready x hjitter,
    fun t u ht hu htu => sampleClock_lt hready x hjitter htu ht hu,
    conv_spaced hready,
    fun d m hconv hm => qValid_spaced hreset hready x hjitter hconv hm,
    fun t ht => ⟨qTs_sampleClock hreset hready x hjitter ht,
      fun n delay sample h hearly hlate => ?_⟩⟩
  have hwritten := x.early _ (wrEna_of_conv hready ht)
  exact h.held hreset hready x hjitter hlate ht
    (by unfold Run.matchClock burstStart sampleClock; omega) le_rfl

/-- A single conversion, in clock 1. -/
def oneConversion : Conversion.Run :=
  { before := ⟨false, 0, 0, 0, 0, 0, false, false⟩
    resetInput := ⟨false, 0, 0, true⟩
    input := fun t => ⟨decide (t = 1), BitVec.ofNat 64 (100 + t), 0, false⟩ }

/-- One channel that gets the word `w`, and the time stamp in clock 12. -/
def oneSample (w : BitVec 18) : Run 1 :=
  { before := reset (Run.drivenRun 21 w).before ((Run.drivenRun 21 w).input 0)
    input := fun t =>
      { (Run.drivenRun 21 w).input t with
        tsValid := decide (t = 12)
        tsD := 101 } }

theorem oneConversion_ready (T : Nat) : oneConversion.Ready T :=
  fun _ _ => rfl

theorem oneConversion_conv (t : Nat) :
    oneConversion.conv t = true ↔ t = 1 := by
  constructor
  · intro hconv
    exact of_decide_eq_true (Bool.and_elim_right hconv)
  · rintro rfl
    decide +kernel

theorem oneConversion_wrEna (v : Nat) :
    oneConversion.wrEna v = true ↔ v = 17 := by
  rw [Conversion.Run.wrEna_iff (oneConversion_ready v) le_rfl]
  simp [oneConversion_conv]

/-- A buffer that needs seven clocks. -/
def oneTimestamp (w : BitVec 18) : TsFifo oneConversion (oneSample w) 6 1 where
  arrival _ := 12
  early v hv := by
    rw [oneConversion_wrEna] at hv
    omega
  late v hv := by
    rw [oneConversion_wrEna] at hv
    omega
  valid_iff u := by
    have hvalid : (oneSample w).tsValid u = true ↔ u = 12 := decide_eq_true_iff
    rw [hvalid]
    constructor
    · rintro rfl
      exact ⟨17, (oneConversion_wrEna 17).mpr rfl, rfl⟩
    · rintro ⟨_, _, rfl⟩
      rfl
  dout_eq v hv := by
    rw [oneConversion_wrEna] at hv
    subst hv
    have hts : (oneConversion.state 17).inTsCaptured = 101 := by
      decide +kernel
    exact hts.symm

theorem oneSample_converter (w : BitVec 18) :
    Converter oneConversion (oneSample w) 0 2 fun _ => w where
  dco i := by
    have hline : (oneSample w).dcoLine 0 i = Run.burstDco 21 i :=
      Run.halves_self (Run.burstDco 21) i
    rw [hline]
    constructor
    · intro hpulse
      obtain ⟨hle, hlt, heven⟩ := of_decide_eq_true hpulse
      refine ⟨i - 2, ?_, by omega⟩
      rw [Conversion.Run.adcClk_iff (oneConversion_ready _) le_rfl]
      exact ⟨1, (i - 21) / 2, by rw [oneConversion_conv], by omega, by omega⟩
    · rintro ⟨v, hv, rfl⟩
      obtain ⟨t, j, ht, hj, rfl⟩ :=
        (Conversion.Run.adcClk_iff (oneConversion_ready v) le_rfl).mp hv
      rw [oneConversion_conv] at ht
      exact decide_eq_true (by omega)
  da t ht j hj := by
    rw [oneConversion_conv] at ht
    subst ht
    refine (Run.halves_self (Run.burstData 21 17 w) (1 + 17 + 2 + j)).trans ?_
    exact congrArg w.getLsbD (by omega)
  db t ht j hj := by
    rw [oneConversion_conv] at ht
    subst ht
    refine (Run.halves_self (Run.burstData 21 16 w) (1 + 17 + 2 + j)).trans ?_
    exact congrArg w.getLsbD (by omega)

theorem samples_exact_oneSample :
    ((oneSample 0x2A5C3).state 16).qTs = 101 ∧
      ((oneSample 0x2A5C3).ch 0 16).qChValid = true ∧
      ((oneSample 0x2A5C3).ch 0 16).qData = 0x2A5C3 := by
  have h := (samples_exact ⟨_, _, rfl⟩ oneConversion_ready
    (oneTimestamp 0x2A5C3) (by decide)).2.2.2.2 1
      ((oneConversion_conv 1).mpr rfl)
  exact ⟨h.1, h.2 0 2 _ (oneSample_converter 0x2A5C3) (by decide) (by decide)⟩

end Ltc2387
end MollerFirmware
