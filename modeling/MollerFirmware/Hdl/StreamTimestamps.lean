import MollerFirmware.Hdl.StreamPairs

/-!
# Which sample the timestamp of a streamed packet belongs to

`stream_in_ts` follows `timestamp` with a delay of two clocks, as long as a
sample takes through a mux and the framer. The packet buffer takes the
timestamp of the clock in which it accepts the first word of a packet.

`origins` keeps, next to the framer, the clocks of the conversions that the two
halves of its word are made of (`noted`). In two-channel mode a word is
presented two clocks after its conversion, and the timestamps agree. In
same-channel mode this is true of the second sample of the word only, and in
all-channel mode of the first word of a frame only.
-/

namespace MollerFirmware
namespace SubsystemStream
namespace Run

open Clocked

/-- Clock of the conversion that `data_reg` holds. -/
def dataClock (r : Run) : Nat → Option Nat
  | 0 => none
  | t + 1 => if r.valid t then some t else dataClock r t

/-- Clock of the conversion at the outputs of the muxes. -/
def muxClock : Nat → Option Nat
  | 0 => none
  | t + 1 => some t

/-- Clocks of the conversions that the halves of a word are made of; none for a
half that holds no sample. -/
structure Origins where
  upper : Option Nat
  lower : Option Nat

/-- Origins of `stream_in_tdata`. -/
def origins (r : Run) : Nat → Origins
  | 0 => ⟨none, none⟩
  | t + 1 =>
      if (r.input t).allChan then
        if r.inTvalid t && decide (r.streamInBeat t ≠ 5) then
          -- the error word
          ⟨none, none⟩
        else ⟨r.dataClock t, r.dataClock t⟩
      else if (r.input t).ch0Sel = (r.input t).ch1Sel then
        if r.inTvalid t then
          ⟨if r.halfFull t then (origins r t).lower else none, muxClock t⟩
        else origins r t
      else ⟨muxClock t, muxClock t⟩

/-- The word on the framer's output in clock `t` holds a sample of the
conversion of clock `u`. -/
def MadeOf (r : Run) (t u : Nat) : Prop :=
  (r.origins t).upper = some u ∨ (r.origins t).lower = some u

instance (r : Run) (t u : Nat) : Decidable (MadeOf r t u) :=
  inferInstanceAs (Decidable (_ ∨ _))

def upperHalf (w : BitVec 64) : BitVec 32 :=
  w.extractLsb' 32 32

def lowerHalf (w : BitVec 64) : BitVec 32 :=
  w.setWidth 32

/-- `w` is a word of the frame of the conversion of clock `u`. -/
def FrameWord (r : Run) (u : Nat) (w : BitVec 64) : Prop :=
  w = startWord (r.input u).data ∨
    ∃ block beat, w = nextWord (r.input u).data block beat

/-- `half` has a sample of the conversion of clock `u`, or is one half of a word
of its frame. -/
def SampledHalf (r : Run) (u : Nat) (half : BitVec 32) : Prop :=
  (∃ ch i sel, half = channelWord (adcMux ch (r.input u).data) i sel) ∨
    ∃ w, FrameWord r u w ∧ (half = upperHalf w ∨ half = lowerHalf w)

/-- A word that is accepted in one of the clocks from `a` to `c` holds a sample
of the conversion of clock `u`. -/
def SampledIn (r : Run) (a c u : Nat) : Prop :=
  ∃ t, a ≤ t ∧ t ≤ c ∧ r.acceptsWord t = true ∧ MadeOf r t u

/-- `ws` is the payload of a packet, and the timestamp of the packet is that of
the earliest conversion from which there is a sample in it. -/
structure Stamped (r : Run) (ws : List (BitVec 64 × BitVec 64)) : Prop where
  span : ∃ a c, AxiStreamTsData.Span r.before.streamer r.streamerIn a c ws
  /-- what is noted of a conversion is in the payload -/
  sampled : ∀ a c,
    AxiStreamTsData.Span r.before.streamer r.streamerIn a c ws →
      ∀ u, SampledIn r a c u → ∃ w ∈ ws,
        SampledHalf r u (upperHalf w.1) ∨ SampledHalf r u (lowerHalf w.1)
  timestamp : ∀ a c,
    AxiStreamTsData.Span r.before.streamer r.streamerIn a c ws →
      ∀ u, IsLeast {u | SampledIn r a c u} u →
        AxiStreamTsData.firstTimestamp ws = (r.input u).timestamp

/-- A packet begins in clock `a`. -/
def PacketBegins (r : Run) (a : Nat) : Prop :=
  AxiStreamTsData.Begins r.before.streamer r.streamerIn a

/-- The word that was made in the clock before `a` has the timestamp of its
first sample: it is one of two channels, or the first one of a frame; if that
is the error word, the frame goes on. -/
structure StampedWord (r : Run) (a : Nat) : Prop where
  notSame : ∀ t, t + 1 = a → mode (r.input t) ≠ .sameChannel
  frameStart : ∀ t, t + 1 = a → mode (r.input t) = .allChannels →
    r.inTvalid t = true ∧
      (r.streamInBeat t = 5 ∨ mode (r.input a) = .allChannels)

variable {r : Run} {a c u : Nat}

/-! ## The pipeline of the samples -/

/-- `data_reg` holds the samples of the conversion of `dataClock`, a valid one. -/
theorem dataReg_of_dataClock {t : Nat} (h : r.dataClock t = some u) :
    r.valid u = true ∧ (r.state t).dataReg = (r.input u).data := by
  induction t with
  | zero => exact absurd h (by simp [dataClock])
  | succ t ih =>
      have hreg : (r.state (t + 1)).dataReg =
          if r.valid t then (r.input t).data else (r.state t).dataReg := rfl
      unfold dataClock at h
      rw [hreg]
      split_ifs at h ⊢ with hv
      · obtain rfl : t = u := by simpa using h
        exact ⟨hv, rfl⟩
      · exact ih h

/-- The muxes present the samples of the clock before. -/
theorem mux_of_muxClock {t : Nat} (h : muxClock t = some u) :
    (r.state t).muxCh0 = adcMux (r.input u).ch0Sel (r.input u).data ∧
      (r.state t).muxCh1 = adcMux (r.input u).ch1Sel (r.input u).data := by
  cases t with
  | zero => exact absurd h (by simp [muxClock])
  | succ t =>
      obtain rfl : t = u := by simpa [muxClock] using h
      exact ⟨rfl, rfl⟩

@[simp] theorem upperHalf_append (x y : BitVec 32) :
    upperHalf (x ++ y) = x :=
  BitVec.extractLsb'_append_eq_left

@[simp] theorem lowerHalf_append (x y : BitVec 32) :
    lowerHalf (x ++ y) = y :=
  BitVec.setWidth_append_eq_right

/-- The halves of the framer's word in the notes. -/
structure Noted (r : Run) (t : Nat) : Prop where
  upper : ∀ u, (r.origins t).upper = some u →
    SampledHalf r u (upperHalf (r.streamInTdata t))
  lower : ∀ u, (r.origins t).lower = some u →
    SampledHalf r u (lowerHalf (r.streamInTdata t))

theorem noted_frameWord {t : Nat} {n : Option Nat}
    (horigins : r.origins t = ⟨n, n⟩)
    (hword : ∀ u, n = some u → FrameWord r u (r.streamInTdata t)) :
    Noted r t := by
  constructor
  · intro u hu
    rw [horigins] at hu
    exact Or.inr ⟨_, hword u hu, Or.inl rfl⟩
  · intro u hu
    rw [horigins] at hu
    exact Or.inr ⟨_, hword u hu, Or.inr rfl⟩

theorem noted_allChannels {t : Nat}
    (hmode : mode (r.input t) = .allChannels) :
    Noted r (t + 1) := by
  have hall := mode_eq_allChannels_iff.mp hmode
  have horigins : r.origins (t + 1) =
      if r.inTvalid t && decide (r.streamInBeat t ≠ 5) then ⟨none, none⟩
      else ⟨r.dataClock t, r.dataClock t⟩ := by
    unfold origins
    rw [hall, if_pos rfl]
  cases hin : r.inTvalid t with
  | true =>
      have hdata := (step_framer_conversion (r.state t) hall hin).2.2
      rw [hin, Bool.true_and] at horigins
      by_cases hbeat : r.streamInBeat t = 5
      · rw [hbeat, if_neg (by simp)] at horigins
        refine noted_frameWord horigins fun u hu => Or.inl ?_
        rw [← (dataReg_of_dataClock hu).2]
        exact hdata hbeat
      · rw [decide_eq_true hbeat, if_pos rfl] at horigins
        exact noted_frameWord horigins fun u hu => absurd hu (by simp)
  | false =>
      have hdata := (step_framer_quiet (r.state t) hall hin).2.2
      rw [hin, Bool.false_and, if_neg Bool.false_ne_true] at horigins
      refine noted_frameWord horigins fun u hu => Or.inr ?_
      rw [← (dataReg_of_dataClock hu).2]
      exact ⟨_, _, hdata⟩

theorem Noted.sameChannel {t : Nat} (h : Noted r t)
    (hmode : mode (r.input t) = .sameChannel) :
    Noted r (t + 1) := by
  obtain ⟨hall, hsel⟩ := mode_eq_sameChannel_iff.mp hmode
  have hstep : (r.state (t + 1)).framer = _ :=
    framerNext_sameChannel (r.state t) hmode
  have horigins : r.origins (t + 1) =
      if r.inTvalid t then
        ⟨if r.halfFull t then (r.origins t).lower else none, muxClock t⟩
      else r.origins t := by
    rw [origins, hall, if_neg Bool.false_ne_true, if_pos hsel]
  cases hin : r.inTvalid t with
  | true =>
      have hin' : (r.state t).inTvalid = true := hin
      rw [hin', if_pos rfl] at hstep
      rw [hin, if_pos rfl] at horigins
      have hdata : r.streamInTdata (t + 1) =
          (if r.halfFull t then lowerHalf (r.streamInTdata t) else 0) ++
            channelWord (r.state t).muxCh0 (r.input t) (r.input t).ch0Sel := by
        unfold streamInTdata halfFull streamInBeat
        rw [hstep]
        split_ifs <;> rfl
      constructor
      · intro u hu
        rw [horigins] at hu
        rw [hdata, upperHalf_append]
        cases hhalf : r.halfFull t with
        | true =>
            simp only [hhalf, if_true] at hu ⊢
            exact h.lower u hu
        | false => simp [hhalf] at hu
      · intro u hu
        rw [horigins] at hu
        rw [hdata, lowerHalf_append, (mux_of_muxClock hu).1]
        exact Or.inl ⟨_, _, _, rfl⟩
  | false =>
      have hin' : (r.state t).inTvalid = false := hin
      rw [hin', if_neg Bool.false_ne_true] at hstep
      rw [hin, if_neg Bool.false_ne_true] at horigins
      have hdata : r.streamInTdata (t + 1) = r.streamInTdata t := by
        unfold streamInTdata
        rw [hstep]
      constructor
      · rw [horigins, hdata]
        exact h.upper
      · rw [horigins, hdata]
        exact h.lower

theorem noted_twoChannels {t : Nat}
    (hmode : mode (r.input t) = .twoChannels) :
    Noted r (t + 1) := by
  obtain ⟨hall, hsel⟩ := mode_eq_twoChannels_iff.mp hmode
  have hstep : (r.state (t + 1)).framer = _ :=
    framerNext_twoChannels (r.state t) hmode
  have horigins : r.origins (t + 1) = ⟨muxClock t, muxClock t⟩ := by
    rw [origins, hall, if_neg Bool.false_ne_true, if_neg hsel]
  have hdata : r.streamInTdata (t + 1) =
      channelWord (r.state t).muxCh0 (r.input t) (r.input t).ch0Sel ++
        channelWord (r.state t).muxCh1 (r.input t) (r.input t).ch1Sel := by
    unfold streamInTdata
    rw [hstep]
  constructor
  · intro u hu
    rw [horigins] at hu
    rw [hdata, upperHalf_append, (mux_of_muxClock hu).1]
    exact Or.inl ⟨_, _, _, rfl⟩
  · intro u hu
    rw [horigins] at hu
    rw [hdata, lowerHalf_append, (mux_of_muxClock hu).2]
    exact Or.inl ⟨_, _, _, rfl⟩

/-- The halves of the framer's word hold what `origins` says. -/
theorem noted (r : Run) (t : Nat) : Noted r t := by
  induction t with
  | zero =>
      exact ⟨fun u hu => absurd hu (by simp [origins]),
        fun u hu => absurd hu (by simp [origins])⟩
  | succ t ih =>
      cases hmode : mode (r.input t) with
      | allChannels => exact noted_allChannels hmode
      | sameChannel => exact ih.sameChannel hmode
      | twoChannels => exact noted_twoChannels hmode

theorem SampledIn.exists_word
    {ws : List (BitVec 64 × BitVec 64)}
    (hspan : AxiStreamTsData.Span r.before.streamer r.streamerIn a c ws)
    (h : SampledIn r a c u) :
    ∃ w ∈ ws, SampledHalf r u (upperHalf w.1) ∨
      SampledHalf r u (lowerHalf w.1) := by
  obtain ⟨t, hat, htc, hacc, hmade⟩ := h
  refine ⟨_, hspan.mem_words hat htc hacc, ?_⟩
  exact hmade.imp ((noted r t).upper u) ((noted r t).lower u)

/-- Nothing in the framer is older than the conversion of clock `u`. -/
structure Since (r : Run) (u t : Nat) : Prop where
  data : ∀ v, r.dataClock t = some v → u ≤ v
  word : ∀ v, MadeOf r t v → u ≤ v

theorem le_of_muxClock {t v : Nat} (hut : u < t) (h : muxClock t = some v) :
    u ≤ v := by
  cases t with
  | zero => omega
  | succ t =>
      obtain rfl : t = v := by simpa [muxClock] using h
      omega

theorem Since.step {t : Nat} (hut : u < t) (h : Since r u t) :
    Since r u (t + 1) := by
  constructor
  · intro v hv
    unfold dataClock at hv
    split_ifs at hv with hvalid
    · obtain rfl : t = v := by simpa using hv
      exact hut.le
    · exact h.data v hv
  · intro v hv
    unfold MadeOf origins at hv
    split_ifs at hv with hall herr hsel hin hhalf
    · simp at hv
    · exact h.data v (by simpa using hv)
    · rcases hv with hv | hv
      · exact h.word v (Or.inr hv)
      · exact le_of_muxClock hut hv
    · rcases hv with hv | hv
      · exact absurd hv (by simp)
      · exact le_of_muxClock hut hv
    · exact h.word v hv
    · exact le_of_muxClock hut (by simpa using hv)

theorem Since.run {t : Nat} (hat : a ≤ t) (hua : u < a) (h : Since r u a) :
    Since r u t := by
  induction t, hat using Nat.le_induction with
  | base => exact h
  | succ t hat ih => exact ih.step (by omega)

/-! ## The first word of a packet -/

/-- The first word of a packet that is stamped is made of a conversion that was
selected two clocks before. -/
theorem StampedWord.exists_sample (h : StampedWord r a)
    (hacc : r.acceptsWord a = true) :
    ∃ u, a = u + 2 ∧ r.inTvalid (u + 1) = true := by
  have hvalid := (captured_of_acceptsWord hacc).1
  obtain ⟨t, rfl⟩ : ∃ t, a = t + 1 := by
    cases a with
    | zero => exact absurd hvalid (by simp [streamInTvalid, state, reset])
    | succ t => exact ⟨t, rfl⟩
  have hin : r.inTvalid t = true := by
    cases hmode : mode (r.input t) with
    | allChannels => exact (h.frameStart t rfl hmode).1
    | sameChannel => exact absurd hmode (h.notSame t rfl)
    | twoChannels =>
        have hstep : (r.state (t + 1)).framer = _ :=
          framerNext_twoChannels (r.state t) hmode
        unfold streamInTvalid at hvalid
        rw [hstep] at hvalid
        exact hvalid
  cases t with
  | zero => exact absurd hin (by simp)
  | succ u => exact ⟨u, rfl, hin⟩

theorem streamInTs_eq (r : Run) (u : Nat) :
    (r.streamerIn (u + 2)).inTimestamp = (r.input u).timestamp := by
  rfl

/-- The conversion of a sample is in `data_reg`. -/
theorem dataClock_of_inTvalid (hin : r.inTvalid (u + 1) = true) :
    r.dataClock (u + 1) = some u := by
  rw [inTvalid_succ] at hin
  have hvalid : r.valid u = true := (of_selected hin).2
  simp [dataClock, hvalid]

/-- What is accepted from the first word of a packet on is not older than the
sample of this word. -/
theorem StampedWord.since (h : StampedWord r (u + 2))
    (hin : r.inTvalid (u + 1) = true) :
    Since r u (u + 2) := by
  have hdata := dataClock_of_inTvalid hin
  constructor
  · intro v hv
    have hclock : r.dataClock (u + 2) =
        if r.valid (u + 1) then some (u + 1) else r.dataClock (u + 1) := rfl
    rw [hclock] at hv
    split_ifs at hv
    · obtain rfl : u + 1 = v := by simpa using hv
      omega
    · rw [hdata] at hv
      exact (Option.some.inj hv).le
  · intro v hv
    cases hmode : mode (r.input (u + 1)) with
    | sameChannel => exact absurd hmode (h.notSame (u + 1) rfl)
    | allChannels =>
        have hall := mode_eq_allChannels_iff.mp hmode
        unfold MadeOf origins at hv
        rw [hall, if_pos rfl, hdata] at hv
        split_ifs at hv
        · simp at hv
        · exact (by simpa using hv : u = v).le
    | twoChannels =>
        obtain ⟨hall, hsel⟩ := mode_eq_twoChannels_iff.mp hmode
        unfold MadeOf origins at hv
        rw [hall, if_neg (by simp), if_neg hsel] at hv
        exact (by simpa [muxClock] using hv : u = v).le

/-- No conversion follows a selected one at once. -/
theorem quiet_after_sample (hs : Spaced 8 r.valid)
    (hin : r.inTvalid (u + 1) = true) :
    r.valid (u + 1) = false ∧ r.inTvalid (u + 2) = false := by
  rw [inTvalid_succ] at hin
  have hvalid : r.valid u = true := (of_selected hin).2
  have hlow : r.valid (u + 1) = false :=
    hs.low_after hvalid (j := 1) (by decide) (by decide)
  refine ⟨hlow, ?_⟩
  rw [inTvalid_succ]
  by_contra hsel
  rw [Bool.not_eq_false] at hsel
  have hhigh : r.valid (u + 1) = true := (of_selected hsel).2
  rw [hlow] at hhigh
  exact absurd hhigh (by simp)

/-- A sample in all-channel mode begins a frame. -/
theorem streamInBeat_of_inTvalid {t : Nat} (hin : r.inTvalid t = true)
    (hmode : mode (r.input t) = .allChannels) :
    r.streamInBeat (t + 1) = 1 :=
  (step_framer_conversion (r.state t)
    (mode_eq_allChannels_iff.mp hmode) hin).1

/-- The second word of a frame is presented and holds samples, also after the
error word. -/
theorem madeOf_second (hs : Spaced 8 r.valid)
    (hin : r.inTvalid (u + 1) = true)
    (hbefore : mode (r.input (u + 1)) = .allChannels)
    (hafter : mode (r.input (u + 2)) = .allChannels) :
    r.streamInTvalid (u + 3) = true ∧ MadeOf r (u + 3) u := by
  obtain ⟨hlow, hquiet⟩ := quiet_after_sample hs hin
  have hall := mode_eq_allChannels_iff.mp hafter
  constructor
  · have hbeat : (r.state (u + 2)).framer.streamInBeat = 1 :=
      streamInBeat_of_inTvalid hin hbefore
    have hvalid := (step_framer_quiet (r.state (u + 2)) hall hquiet).2.1
    rw [hbeat] at hvalid
    exact hvalid
  · have hclock : r.dataClock (u + 2) = some u := by
      have hkept : r.dataClock (u + 2) =
          if r.valid (u + 1) then some (u + 1) else r.dataClock (u + 1) := rfl
      rw [hkept, hlow, if_neg (by simp), dataClock_of_inTvalid hin]
    left
    unfold origins
    rw [hall, if_pos rfl, hquiet, hclock]
    rfl

/-- A packet whose first word is stamped holds a sample of the conversion two
clocks before it. -/
theorem StampedWord.sampledIn (hs : Spaced 8 r.valid)
    {ws : List (BitVec 64 × BitVec 64)}
    (hspan : AxiStreamTsData.Span r.before.streamer r.streamerIn (u + 2) c ws)
    (h : StampedWord r (u + 2)) (hin : r.inTvalid (u + 1) = true) :
    SampledIn r (u + 2) c u := by
  have hacc : r.acceptsWord (u + 2) = true := hspan.begins.2
  have hdata := dataClock_of_inTvalid hin
  have hlt := hspan.lt
  cases hmode : mode (r.input (u + 1)) with
  | sameChannel => exact absurd hmode (h.notSame (u + 1) rfl)
  | twoChannels =>
      obtain ⟨hall, hsel⟩ := mode_eq_twoChannels_iff.mp hmode
      refine ⟨u + 2, le_refl _, hlt.le, hacc, Or.inl ?_⟩
      unfold origins
      rw [hall, if_neg (by simp), if_neg hsel]
      rfl
  | allChannels =>
      have hall := mode_eq_allChannels_iff.mp hmode
      obtain ⟨_, hfive⟩ := h.frameStart (u + 1) rfl hmode
      by_cases hbeat : r.streamInBeat (u + 1) = 5
      · refine ⟨u + 2, le_refl _, hlt.le, hacc, Or.inl ?_⟩
        unfold origins
        rw [hall, if_pos rfl, hbeat, hdata]
        simp
      · obtain ⟨hvalid, hmade⟩ :=
          madeOf_second hs hin hmode (hfive.resolve_left hbeat)
        have hst := hspan.data (u + 3) (by omega) (by omega)
        refine ⟨u + 3, by omega, by omega, ?_, hmade⟩
        have hcap := inCaptured_eq r (u + 3)
        have hready := AxiStreamTsData.inTready_of_data hst
        rw [hvalid, inTready_eq, buf, hready] at hcap
        exact (AxiStreamTsData.acceptsAt_of_data hst).trans hcap

/-- **Timestamps of the packets.** If the first word of every packet has the
timestamp of its first sample, then the timestamp of every packet is that of
the earliest conversion in its payload. -/
theorem packets_stamped (hs : Spaced 8 r.valid)
    (hfirst : ∀ a, PacketBegins r a → StampedWord r a) (t : Nat) :
    ∀ p ∈ r.packets t, Stamped r p.words := by
  intro p hp
  refine ⟨AxiStreamTsData.packet_span _ _ t p hp,
    fun a c hspan v hv => hv.exists_word hspan, fun a c hspan v hv => ?_⟩
  have hword := hfirst a hspan.begins
  obtain ⟨u, rfl, hin⟩ := hword.exists_sample hspan.begins.2
  have hle : v ≤ u := hv.2 (hword.sampledIn hs hspan hin)
  obtain ⟨t, hat, _, _, hmade⟩ := hv.1
  have hge : u ≤ v :=
    ((hword.since hin).run hat (by omega)).word v hmade
  obtain rfl : u = v := by omega
  rw [hspan.firstTimestamp_eq, streamInTs_eq]

/-- Inputs as the deserializer presents them, with the mode held as long as
`ena` is high. -/
structure Streaming (r : Run) : Prop where
  spaced : Spaced 8 r.valid
  timestamp : ∀ t, r.valid t = false → (r.input t).timestamp = 0
  numSamples : ∀ t, 2 ≤ (r.input t).numSamples.toNat
  mode : ∀ t, (r.input t).ena = true → (r.input (t + 1)).ena = true →
    mode (r.input (t + 1)) = mode (r.input t)

theorem numberedRun_spaced (ena : Nat → Bool) :
    Spaced 8 (numberedRun ena).valid := by
  intro t u htu ht hu
  have ht' : t % 8 = 0 := of_decide_eq_true ht
  have hu' : u % 8 = 0 := of_decide_eq_true hu
  omega

/-- The same conversions, with two channels streamed. -/
def twoChannelRun : Run where
  before := powerUp
  resetInput := numberedInput once 0
  input t := { numberedInput once t with ch1Sel := 2 }

theorem packets_stamped_twoChannels :
    Stamped twoChannelRun
      [(562954248519682, 8), (1125904202072066, 16)] := by
  have hspaced : Spaced 8 twoChannelRun.valid := numberedRun_spaced once
  have hmode : ∀ t, mode (twoChannelRun.input t) = .twoChannels :=
    fun _ => rfl
  exact packets_stamped hspaced
    (fun a _ => ⟨fun t _ => by simp [hmode],
      fun t _ hall => absurd ((hmode t).symm.trans hall) (by decide)⟩)
    22 ⟨1, 3, [(562954248519682, 8), (1125904202072066, 16)]⟩
    (by decide +kernel)

/-- In same-channel mode the first packet holds the samples of clocks 8, 16, 24
and 32 and has the timestamp of the second one. -/
theorem not_stamped_numbered :
    Streaming (numberedRun once) ∧
      ¬ ∀ p ∈ (numberedRun once).packets 40,
        Stamped (numberedRun once) p.words := by
  constructor
  · refine ⟨numberedRun_spaced once, fun t hv => ?_, fun _ => le_refl 2,
      fun _ _ _ => rfl⟩
    have hne : t % 8 ≠ 0 := of_decide_eq_false hv
    exact if_neg hne
  · intro hall
    have hp := hall ⟨1, 3, [(562954248650753, 16), (1688854155755521, 32)]⟩
      (by decide +kernel)
    have hdata : ∀ v, v < 35 → 18 < v → AxiStreamTsData.inStateAt
        (numberedRun once).before.streamer (numberedRun once).streamerIn v =
          .data := by
      unfold AxiStreamTsData.inStateAt
      decide +kernel
    have hspan : AxiStreamTsData.Span (numberedRun once).before.streamer
        (numberedRun once).streamerIn 18 34
          [(562954248650753, 16), (1688854155755521, 32)] :=
      ⟨⟨by decide +kernel, by decide +kernel⟩, by decide,
        fun v hv hv' => hdata v (by omega) hv, by decide +kernel,
        by decide +kernel⟩
    have hold : ∀ t, t < 35 → 18 ≤ t → ∀ v, v < 8 →
        ¬ MadeOf (numberedRun once) t v := by
      decide +kernel
    have hleast : IsLeast {v | SampledIn (numberedRun once) 18 34 v} 8 := by
      refine ⟨⟨18, by decide, by decide, by decide +kernel,
        by decide +kernel⟩, fun v ⟨t, hat, htc, _, hmade⟩ => ?_⟩
      by_contra hlt
      exact hold t (by omega) hat v (by omega) hmade
    exact absurd (hp.timestamp 18 34 hspan 8 hleast) (by decide +kernel)

end Run
end SubsystemStream
end MollerFirmware
