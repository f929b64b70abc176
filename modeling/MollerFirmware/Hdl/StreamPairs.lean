import MollerFirmware.Hdl.AxiStreamTsDataBoundary
import MollerFirmware.Hdl.StreamDecimation

/-!
# Two samples in a word: the same-channel mode

With `ch0_sel` equal to `ch1_sel` the framer waits for a second sample of the
channel and presents both in one word, the older one above. Which half is next
is told by the lowest bit of `stream_in_beat`. This register is shared with the
all-channel mode, and `ena` does not touch it, so that what a session finds
there is left from before: `CleanStart` says what it has to find for its words
to hold pairs of its own samples.
-/

namespace MollerFirmware
namespace SubsystemStream

open Clocked

/-- Counting one on flips the lowest bit. -/
theorem getLsbD_succ (x : BitVec 4) :
    (x + 1).getLsbD 0 = !x.getLsbD 0 := by
  revert x
  decide

namespace Run

/-- The packet buffer accepts a word in clock `t`. -/
def acceptsWord (r : Run) (t : Nat) : Bool :=
  AxiStreamTsData.acceptsAt r.before.streamer r.streamerIn t

/-- Half a word with the sample of the conversion of clock `u`; the other
fields are those of the clock after. -/
def sampleWord (r : Run) (u : Nat) : BitVec 32 :=
  channelWord (adcMux (r.input u).ch0Sel (r.input u).data) (r.input (u + 1))
    (r.input (u + 1)).ch0Sel

/-- The next sample is to go to the lower half of a word. -/
def halfFull (r : Run) (t : Nat) : Bool :=
  (r.streamInBeat t).getLsbD 0

/-- The mode is held during a session. -/
structure SameChannelSession (r : Run) (e f : Nat) : Prop where
  session : EnaSession r e f
  mode : ∀ t, e ≤ t → t < f → mode (r.input t) = .sameChannel

/-- `u` and `v` are selected conversions of the session `[e, f)` and there is
none in between. -/
structure Consecutive (r : Run) (e f u v : Nat) : Prop where
  first : r.SelectedPulse e u
  second : r.SelectedPulse e v
  lt : u < v
  inside : v < f
  between : ∀ w, u < w → w < v → ¬ r.SelectedPulse e w

/-- Every word that is accepted during the session holds two consecutive samples
of it, and the first one the first two. -/
def Paired (r : Run) (e f : Nat) : Prop :=
  ∀ t, e ≤ t → t ≤ f → r.acceptsWord t = true →
    ∃ u v, Consecutive r e f u v ∧
      r.streamInTdata t = r.sampleWord u ++ r.sampleWord v ∧
      ((∀ s, e ≤ s → s < t → r.acceptsWord s = false) →
        ∀ w, w < u → ¬ r.SelectedPulse e w)

/-- What a session has to find: an even count, no word of an earlier session,
and a packet buffer that is ready when its own first word is presented. -/
structure CleanStart (r : Run) (e f : Nat) : Prop where
  even : r.halfFull e = false
  noLeftover : r.streamInTvalid e = true → r.inTready e = false
  firstTaken : ∀ t, e < t → t ≤ f → r.streamInTvalid t = true →
    (∀ s, e < s → s < t → r.streamInTvalid s = false) → r.inTready t = true

variable {r : Run} {e f : Nat}

theorem captured_of_acceptsWord {t : Nat} (h : r.acceptsWord t = true) :
    r.streamInTvalid t = true ∧ r.inTready t = true := by
  rw [← Bool.and_eq_true, ← inCaptured_eq]
  unfold acceptsWord AxiStreamTsData.acceptsAt AxiStreamTsData.accepts at h
  exact (Bool.and_eq_true_iff.mp h).1

/-- The packet buffer is ready only where it takes words. -/
theorem acceptsWord_of_ready {t : Nat} (hvalid : r.streamInTvalid t = true)
    (hready : r.inTready t = true) (hena : (r.input t).ena = true) :
    r.acceptsWord t = true := by
  have hcap := inCaptured_eq r t
  rw [hvalid, hready] at hcap
  exact AxiStreamTsData.acceptsAt_of_captured hcap hena

/-- A session has no sample before one of its conversions. -/
theorem EnaSession.of_inTvalid (h : EnaSession r e f) {t : Nat}
    (het : e ≤ t) (hin : r.inTvalid t = true) :
    ∃ u, t = u + 1 ∧ e ≤ u := by
  have hne : e ≠ t := by
    rintro rfl
    rw [h.inTvalid_start] at hin
    exact absurd hin (by simp)
  exact ⟨t - 1, by omega, by omega⟩

/-- A sample fills one half of a word or the other. -/
theorem SameChannelSession.framer_sample (h : SameChannelSession r e f)
    {t : Nat} (het : e ≤ t) (htf : t + 1 < f)
    (hin : r.inTvalid (t + 1) = true) :
    r.halfFull (t + 2) = !r.halfFull (t + 1) ∧
      r.streamInTvalid (t + 2) = r.halfFull (t + 1) ∧
      r.streamInTdata (t + 2) =
        (if r.halfFull (t + 1) then (r.streamInTdata (t + 1)).setWidth 32
          else 0#32) ++ r.sampleWord t := by
  have hstep : (r.state (t + 2)).framer = _ :=
    framerNext_sameChannel (r.state (t + 1)) (h.mode (t + 1) (by omega) htf)
  unfold halfFull streamInTvalid streamInTdata streamInBeat
  have hin' : (r.state (t + 1)).inTvalid = true := hin
  rw [hstep, hin', if_pos rfl]
  split_ifs with hodd
  · exact ⟨by rw [getLsbD_succ], hodd.symm, rfl⟩
  · exact ⟨by rw [getLsbD_succ], by simpa using hodd, rfl⟩

/-- Without a sample the framer waits. -/
theorem SameChannelSession.framer_wait (h : SameChannelSession r e f)
    {t : Nat} (het : e ≤ t) (htf : t < f) (hin : r.inTvalid t = false) :
    r.halfFull (t + 1) = r.halfFull t ∧
      r.streamInTvalid (t + 1) = false ∧
      r.streamInTdata (t + 1) = r.streamInTdata t := by
  have hstep : (r.state (t + 1)).framer = _ :=
    framerNext_sameChannel (r.state t) (h.mode t het htf)
  have hin' : (r.state t).inTvalid = false := hin
  unfold halfFull streamInTvalid streamInTdata streamInBeat
  rw [hstep, hin', if_neg (by simp)]
  exact ⟨rfl, rfl, rfl⟩

/-- The sample that waits in the lower half of `stream_in_tdata` is the last one
of the session. -/
structure Waiting (r : Run) (e t u : Nat) : Prop where
  le : e ≤ u
  lt : u + 1 < t
  sample : r.inTvalid (u + 1) = true
  last : ∀ w, u + 1 < w → w < t → r.inTvalid w = false
  data : (r.streamInTdata t).setWidth 32 = r.sampleWord u

/-- The framer in clock `t` of a session that has begun cleanly. -/
structure Pairing (r : Run) (e t : Nat) : Prop where
  count : pulsesIn r.inTvalid e t =
    2 * pulsesIn r.streamInTvalid (e + 1) (t + 1) +
      if r.halfFull t then 1 else 0
  waiting : r.halfFull t = true → ∃ u, Waiting r e t u

theorem pairing_start (heven : r.halfFull e = false) :
    Pairing r e e := by
  refine ⟨by simp [heven], fun hodd => ?_⟩
  rw [heven] at hodd
  exact absurd hodd (by simp)

/-- A clock in which a sample comes. -/
theorem Pairing.step_sample (h : SameChannelSession r e f) {t : Nat}
    (het : e ≤ t) (htf : t + 1 < f) (hin : r.inTvalid (t + 1) = true)
    (hp : Pairing r e (t + 1)) :
    Pairing r e (t + 2) := by
  have hcount := hp.count
  obtain ⟨hhalf, hvalid, hdata⟩ := h.framer_sample het htf hin
  constructor
  · rw [pulsesIn_succ _ (by omega), hcount, hin, hhalf,
      pulsesIn_succ r.streamInTvalid (by omega : e + 1 ≤ t + 1 + 1), hvalid]
    cases r.halfFull (t + 1) <;> simp
    omega
  · intro hodd
    have heven : r.halfFull (t + 1) = false := by
      rw [hhalf] at hodd
      simpa using hodd
    rw [heven, if_neg (by simp)] at hdata
    refine ⟨t, het, by omega, hin, fun w htw hwt => by omega, ?_⟩
    rw [hdata]
    exact BitVec.setWidth_append_eq_right

/-- A clock in which none comes. -/
theorem Pairing.step_wait (h : SameChannelSession r e f) {t : Nat}
    (het : e ≤ t) (htf : t < f) (hin : r.inTvalid t = false)
    (hp : Pairing r e t) :
    Pairing r e (t + 1) := by
  obtain ⟨hhalf, hvalid, hdata⟩ := h.framer_wait het htf hin
  constructor
  · rw [pulsesIn_succ _ het, hp.count, hin, hhalf,
      pulsesIn_succ r.streamInTvalid (by omega : e + 1 ≤ t + 1), hvalid]
    simp
  · intro hodd
    rw [hhalf] at hodd
    obtain ⟨u, hu⟩ := hp.waiting hodd
    refine ⟨u, hu.le, by have := hu.lt; omega, hu.sample,
      fun w huw hwt => ?_, by rw [hdata, hu.data]⟩
    obtain hlt | rfl : w < t ∨ w = t := by omega
    · exact hu.last w huw hlt
    · exact hin

theorem SameChannelSession.pairing (h : SameChannelSession r e f)
    (heven : r.halfFull e = false) {t : Nat} (het : e ≤ t) (htf : t ≤ f) :
    Pairing r e t := by
  induction t, het using Nat.le_induction with
  | base => exact pairing_start heven
  | succ t het ih =>
      have hp := ih (by omega)
      cases hin : r.inTvalid t with
      | true =>
          obtain ⟨u, rfl, heu⟩ := h.session.of_inTvalid het hin
          exact hp.step_sample h heu htf hin
      | false => exact hp.step_wait h het htf hin

/-- What a word on the framer's output is made of. -/
theorem SameChannelSession.word (h : SameChannelSession r e f)
    (heven : r.halfFull e = false) {t : Nat} (het : e < t) (htf : t ≤ f)
    (hvalid : r.streamInTvalid t = true) :
    ∃ u v, Waiting r e (v + 1) u ∧ v + 2 = t ∧
      r.inTvalid (v + 1) = true ∧
      r.streamInTdata t = r.sampleWord u ++ r.sampleWord v ∧
      pulsesIn r.inTvalid e (v + 1) =
        2 * pulsesIn r.streamInTvalid (e + 1) t + 1 := by
  obtain ⟨t, rfl⟩ : ∃ s, t = s + 1 := ⟨t - 1, by omega⟩
  have hp := h.pairing heven (t := t) (by omega) (by omega)
  cases hin : r.inTvalid t with
  | true =>
      obtain ⟨v, rfl, hev⟩ := h.session.of_inTvalid (by omega) hin
      obtain ⟨_, hword, hdata⟩ := h.framer_sample hev (by omega) hin
      rw [hvalid] at hword
      obtain ⟨u, hu⟩ := hp.waiting hword.symm
      refine ⟨u, v, hu, rfl, hin, ?_, ?_⟩
      · rw [hdata, ← hword, if_pos rfl, hu.data]
      · rw [hp.count, ← hword]
        rfl
  | false =>
      rw [(h.framer_wait (by omega) (by omega) hin).2.1] at hvalid
      exact absurd hvalid (by simp)

/-- In a session the samples on the muxes are the selected conversions. -/
theorem EnaSession.inTvalid_iff_pulse (h : EnaSession r e f) {u : Nat}
    (heu : e ≤ u) (huf : u < f) :
    r.inTvalid (u + 1) = true ↔ r.SelectedPulse e u := by
  rw [inTvalid_succ]
  exact h.selected_iff_pulse heu huf

theorem SameChannelSession.consecutive (h : SameChannelSession r e f)
    {u v : Nat} (hu : Waiting r e (v + 1) u) (hvf : v < f)
    (hv : r.inTvalid (v + 1) = true) :
    Consecutive r e f u v := by
  have huv : u < v := by
    have := hu.lt
    omega
  have heu := hu.le
  refine ⟨(h.session.inTvalid_iff_pulse heu (by omega)).mp hu.sample,
    (h.session.inTvalid_iff_pulse (by omega) hvf).mp hv, huv, hvf,
    fun w huw hwv hw => ?_⟩
  have hlow := hu.last (w + 1) (by omega) (by omega)
  rw [(h.session.inTvalid_iff_pulse (by omega) (by omega)).mpr hw] at hlow
  exact absurd hlow (by simp)

/-- The first word that is accepted is the first one that is presented. -/
theorem CleanStart.first (h : SameChannelSession r e f)
    (hclean : CleanStart r e f) {t : Nat} (htf : t ≤ f)
    (hnone : ∀ s, e ≤ s → s < t → r.acceptsWord s = false) :
    pulsesIn r.streamInTvalid (e + 1) t = 0 := by
  by_contra hsome
  obtain ⟨s, hes, hst, hs, hcount⟩ := exists_pulse r.streamInTvalid
    (n := 1) (by decide) (Nat.one_le_iff_ne_zero.mpr hsome)
  have hquiet := (pulsesIn_eq_zero_iff _ _ _).mp (Nat.succ.inj hcount)
  have hready := hclean.firstTaken s (by omega) (by omega) hs
    (fun q heq hqs => hquiet q (by omega) hqs)
  have hacc : r.acceptsWord s = true :=
    acceptsWord_of_ready hs hready (h.session.high s (by omega) (by omega))
  rw [hnone s (by omega) hst] at hacc
  exact absurd hacc (by simp)

/-- **Same-channel sessions.** A session that begins cleanly packs its samples in
pairs. -/
theorem paired_of_cleanStart (h : SameChannelSession r e f)
    (hclean : CleanStart r e f) :
    Paired r e f := by
  intro t het htf hacc
  obtain ⟨hvalid, hready⟩ := captured_of_acceptsWord hacc
  have het' : e < t := by
    by_contra hle
    obtain rfl : e = t := by omega
    rw [hclean.noLeftover hvalid] at hready
    exact absurd hready (by simp)
  obtain ⟨u, v, hu, hvt, hv, hdata, hcount⟩ :=
    h.word hclean.even het' htf hvalid
  refine ⟨u, v, h.consecutive hu (by omega) hv, hdata,
    fun hnone w hwu hw => ?_⟩
  have hzero := hclean.first h htf hnone
  have heu := hu.le
  have huv := hu.lt
  have hew := hw.le
  -- the waiting sample is the only one so far
  have hpulse := (h.session.inTvalid_iff_pulse hew (by omega)).mpr hw
  have htwo : pulsesIn r.inTvalid e (w + 1) + 1 ≤
      pulsesIn r.inTvalid e (w + 2) := by
    rw [pulsesIn_succ _ (by omega : e ≤ w + 1), hpulse, if_pos rfl]
  have hmono := pulsesIn_mono r.inTvalid (a := e) (b := w + 2) (c := u + 1)
    (by omega) (by omega)
  have hlast := pulsesIn_mono r.inTvalid (a := e) (b := u + 2) (c := v + 1)
    (by omega) (by omega)
  rw [pulsesIn_succ _ (by omega : e ≤ u + 1), hu.sample, if_pos rfl] at hlast
  omega

/-- A conversion in every eighth clock, with the number of the clock as its
sample and its timestamp. -/
def numberedInput (ena : Nat → Bool) (t : Nat) : Input where
  data := fun _ => BitVec.ofNat 18 t
  valid := decide (t % 8 = 0)
  timestamp := if t % 8 = 0 then BitVec.ofNat 64 t else 0
  block := 0
  ena := ena t
  allChan := false
  ch0Sel := 1
  ch1Sel := 1
  numSamples := 2
  rateDiv := 0
  fifoTready := true

def numberedRun (ena : Nat → Bool) : Run where
  before := powerUp
  resetInput := numberedInput ena 0
  input := numberedInput ena

/-- `ena` from clock 6 on. -/
def once (t : Nat) : Bool :=
  decide (6 ≤ t)

theorem paired_numbered :
    Paired (numberedRun once) 6 20 ∧
      (numberedRun once).acceptsWord 18 = true := by
  have h : SameChannelSession (numberedRun once) 6 20 := by
    refine ⟨⟨fun t ht => ?_, fun t ht _ => decide_eq_true ht⟩,
      fun t _ _ => rfl⟩
    obtain rfl : t = 5 := by omega
    rfl
  have hready : ∀ t, t < 21 → 6 < t →
      (numberedRun once).streamInTvalid t = true →
        (numberedRun once).inTready t = true := by
    decide +kernel
  exact ⟨paired_of_cleanStart h
    ⟨by decide +kernel, by decide +kernel,
      fun t het htf hv _ => hready t (by omega) het hv⟩, by decide +kernel⟩

/-- `ena` in clocks 6 to 13, with one conversion, and again from clock 20 on. -/
def twice (t : Nat) : Bool :=
  decide (6 ≤ t ∧ t < 14 ∨ 20 ≤ t)

/-- The sample of the first session is packed with the first one of the
second. -/
theorem not_paired_twice :
    SameChannelSession (numberedRun twice) 20 40 ∧
      ¬ Paired (numberedRun twice) 20 40 := by
  constructor
  · refine ⟨⟨fun t ht => ?_, fun t ht _ => decide_eq_true (Or.inr ht)⟩,
      fun t _ _ => rfl⟩
    obtain rfl : t = 19 := by omega
    rfl
  · intro hpaired
    obtain ⟨u, v, hcons, hdata, _⟩ :=
      hpaired 26 (by decide) (by decide) (by decide +kernel)
    have hword : (numberedRun twice).streamInTdata 26 =
        (numberedRun twice).sampleWord 8 ++ (numberedRun twice).sampleWord 24 := by
      decide +kernel
    have hupper : (numberedRun twice).sampleWord u =
        (numberedRun twice).sampleWord 8 := by
      have heq := congrArg (fun w => w.extractLsb' 32 32)
        (hdata.symm.trans hword)
      simpa only [BitVec.extractLsb'_append_eq_left] using heq
    have hdistinct : ∀ u < 40, (numberedRun twice).sampleWord u =
        (numberedRun twice).sampleWord 8 → u = 8 := by
      decide +kernel
    have hlt := hcons.lt
    have hin := hcons.inside
    have hle := hcons.first.le
    have := hdistinct u (by omega) hupper
    omega

end Run
end SubsystemStream
end MollerFirmware
