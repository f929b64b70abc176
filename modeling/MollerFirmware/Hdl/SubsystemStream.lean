import MollerFirmware.Hdl.AxiStreamTsDataReady
import MollerFirmware.Hdl.AxiStreamTsDataFraming
import MollerFirmware.Clocked.Windows

/-!
# subsystem_stream_all

The streaming path: a decimator selects conversions, two muxes pick the
channels to stream, and the framer packs the samples into words of 64 bits for
the packet buffer. With `all_chan` high a selected conversion becomes a frame
of five words, one per clock, numbered by `stream_in_beat`; the first word of a
frame is marked by its two upper bits.

The framer has no back-pressure: it presents a word for one clock, whether the
packet buffer is ready or not.
-/

namespace MollerFirmware
namespace SubsystemStream

open Clocked

/-- `NUM_CH`, as the packing of a frame needs it. -/
abbrev numCh : Nat :=
  16

/-- Parameters of `adc_data_streamer`. -/
def streamerParams : AxiStreamTsData.Params where
  id := 0xDD
  maxPktLen := 8192
  depthBits := 15

/-- Registers of the framer. -/
structure Framer where
  streamInTvalid : Bool
  streamInTdata : BitVec 64
  streamInBeat : BitVec 4

/-- Registers of the module. -/
structure State where
  inTvalid : Bool
  inTs : BitVec 64
  div : BitVec 20
  muxCh0 : BitVec 18
  muxCh1 : BitVec 18
  dataReg : Fin numCh → BitVec 18
  streamInTs : BitVec 64
  framer : Framer
  streamer : AxiStreamTsData.State streamerParams

/-- Inputs in one clock. -/
structure Input where
  data : Fin numCh → BitVec 18
  valid : Bool
  timestamp : BitVec 64
  block : BitVec 3
  ena : Bool
  allChan : Bool
  ch0Sel : BitVec 4
  ch1Sel : BitVec 4
  numSamples : BitVec 16
  rateDiv : BitVec 7
  fifoTready : Bool

/-- `scaled_div`: the mantissa `rate_div[3:0]` times four to the exponent
`rate_div[6:4]`. -/
def scaledDiv (rateDiv : BitVec 7) : BitVec 20 :=
  let mantissa := rateDiv.extractLsb' 0 4
  match (rateDiv.extractLsb' 4 3).toNat with
  | 0 => 0#16 ++ mantissa
  | 1 => 0#14 ++ mantissa ++ 0#2
  | 2 => 0#12 ++ mantissa ++ 0#4
  | 3 => 0#10 ++ mantissa ++ 0#6
  | 4 => 0#8 ++ mantissa ++ 0#8
  | 5 => 0#6 ++ mantissa ++ 0#10
  | 6 => 0#4 ++ mantissa ++ 0#12
  | _ => 0#2 ++ mantissa ++ 0#14

/-- `q` of an `adc_mux`; the assignment also happens while `rst` is high. -/
def adcMux (ch : BitVec 4) (d : Fin numCh → BitVec 18) : BitVec 18 :=
  d ⟨ch.toNat, ch.isLt⟩

/-- Word of a frame that follows the word of `beat`. -/
def nextWord (d : Fin numCh → BitVec 18) (block : BitVec 3) (beat : BitVec 4) :
    BitVec 64 :=
  if beat = 1 then
    0#2 ++ (d 15).extractLsb' 8 8 ++ d 5 ++ d 4 ++ d 3
  else if beat = 2 then
    0#8 ++ (d 15).extractLsb' 16 2 ++ d 8 ++ d 7 ++ d 6
  else if beat = 3 then
    0#10 ++ d 11 ++ d 10 ++ d 9
  else
    0#7 ++ block ++ d 14 ++ d 13 ++ d 12

/-- First word of a frame, with the most significant bit set. -/
def startWord (d : Fin numCh → BitVec 18) : BitVec 64 :=
  2#2 ++ (d 15).extractLsb' 0 8 ++ d 2 ++ d 1 ++ d 0

/-- Half a word of the modes that stream one or two channels. -/
def channelWord (mux : BitVec 18) (i : Input) (sel : BitVec 4) : BitVec 32 :=
  mux ++ i.block ++ i.rateDiv ++ sel

/-- The framer with `rst` low. -/
def framerNext (s : State) (i : Input) : Framer :=
  let f := s.framer
  if i.allChan then
    if s.inTvalid then
      { streamInBeat := 1
        streamInTdata :=
          -- an error word just after a change of mode
          if f.streamInBeat ≠ 5 then 0xffffffffffffffff else startWord s.dataReg
        streamInTvalid := true }
    else
      { streamInBeat := if f.streamInBeat = 5 then 5 else f.streamInBeat + 1
        streamInTdata := nextWord s.dataReg i.block f.streamInBeat
        streamInTvalid := decide (f.streamInBeat ≠ 5) }
  else if i.ch0Sel = i.ch1Sel then
    if s.inTvalid then
      if f.streamInBeat.getLsbD 0 then
        { streamInBeat := f.streamInBeat + 1
          streamInTvalid := true
          streamInTdata :=
            f.streamInTdata.setWidth 32 ++ channelWord s.muxCh0 i i.ch0Sel }
      else
        { streamInBeat := f.streamInBeat + 1
          streamInTvalid := false
          streamInTdata := 0#32 ++ channelWord s.muxCh0 i i.ch0Sel }
    else
      { f with streamInTvalid := false }
  else
    { f with
      streamInTvalid := s.inTvalid
      streamInTdata :=
        channelWord s.muxCh0 i i.ch0Sel ++ channelWord s.muxCh1 i i.ch1Sel }

/-- What is streamed. -/
inductive Mode
  | allChannels
  | sameChannel
  | twoChannels
deriving DecidableEq

/-- The mode that the inputs ask for. -/
def mode (i : Input) : Mode :=
  if i.allChan then .allChannels
  else if i.ch0Sel = i.ch1Sel then .sameChannel
  else .twoChannels

/-- Inputs of the packet buffer. -/
def streamerInput (s : State) (i : Input) : AxiStreamTsData.Input :=
  { ena := i.ena
    inTimestamp := s.streamInTs
    inNumSamples := i.numSamples
    inTdata := s.framer.streamInTdata
    inTvalid := s.framer.streamInTvalid
    inTlast := false
    outTready := i.fifoTready }

/-- Next value of `in_tvalid`: a valid conversion is selected when the divider
has run down. -/
def selects (div : BitVec 20) (i : Input) : Bool :=
  if !i.ena then false
  else if i.valid then decide (div = 0)
  else false

/-- Next value of `div`. -/
def divNext (div : BitVec 20) (i : Input) : BitVec 20 :=
  if !i.ena then 0
  else if i.valid then
    if div ≠ 0 then div - 1 else scaledDiv i.rateDiv
  else div

/-- A clock edge with `rst` low. -/
def step (s : State) (i : Input) : State :=
  { inTs := i.timestamp
    inTvalid := selects s.div i
    div := divNext s.div i
    muxCh0 := adcMux i.ch0Sel i.data
    muxCh1 := adcMux i.ch1Sel i.data
    dataReg := if i.valid then i.data else s.dataReg
    streamInTs := s.inTs
    framer := framerNext s i
    streamer := AxiStreamTsData.step s.streamer (streamerInput s i) }

/-- A clock edge with `rst` high. -/
def reset (s : State) (i : Input) : State :=
  { inTs := i.timestamp
    inTvalid := false
    div := 0
    muxCh0 := adcMux i.ch0Sel i.data
    muxCh1 := adcMux i.ch1Sel i.data
    dataReg := if i.valid then i.data else s.dataReg
    streamInTs := s.inTs
    framer :=
      { streamInBeat := 0
        streamInTvalid := false
        streamInTdata := 0 }
    streamer := AxiStreamTsData.reset s.streamer }

theorem mode_eq_allChannels_iff {i : Input} :
    mode i = .allChannels ↔ i.allChan = true := by
  unfold mode
  split_ifs <;> simp_all

theorem mode_eq_sameChannel_iff {i : Input} :
    mode i = .sameChannel ↔ i.allChan = false ∧ i.ch0Sel = i.ch1Sel := by
  unfold mode
  split_ifs <;> simp_all

theorem mode_eq_twoChannels_iff {i : Input} :
    mode i = .twoChannels ↔ i.allChan = false ∧ i.ch0Sel ≠ i.ch1Sel := by
  unfold mode
  split_ifs <;> simp_all

/-- The framer in all-channel mode. -/
theorem framerNext_allChan
    (s : State) {i : Input} (hall : i.allChan = true) :
    framerNext s i =
      if s.inTvalid then
        { streamInBeat := 1
          streamInTdata :=
            if s.framer.streamInBeat ≠ 5 then 0xffffffffffffffff
            else startWord s.dataReg
          streamInTvalid := true }
      else
        { streamInBeat :=
            if s.framer.streamInBeat = 5 then 5
            else s.framer.streamInBeat + 1
          streamInTdata := nextWord s.dataReg i.block s.framer.streamInBeat
          streamInTvalid := decide (s.framer.streamInBeat ≠ 5) } := by
  unfold framerNext
  rw [hall]
  rfl

/-- A new conversion starts a frame, with its first word if the framer is
idle. -/
theorem step_framer_conversion
    (s : State) {i : Input} (hall : i.allChan = true)
    (hc : s.inTvalid = true) :
    (step s i).framer.streamInBeat = 1 ∧
      (step s i).framer.streamInTvalid = true ∧
      (s.framer.streamInBeat = 5 →
        (step s i).framer.streamInTdata = startWord s.dataReg) := by
  have hstep : (step s i).framer = framerNext s i := rfl
  rw [hstep, framerNext_allChan s hall, if_pos hc]
  exact ⟨rfl, rfl, fun hidle => if_neg (not_not.mpr hidle)⟩

/-- Without a new conversion the framer goes on to the next word. -/
theorem step_framer_quiet
    (s : State) {i : Input} (hall : i.allChan = true)
    (hc : s.inTvalid = false) :
    (step s i).framer.streamInBeat =
        (if s.framer.streamInBeat = 5 then 5
        else s.framer.streamInBeat + 1) ∧
      (step s i).framer.streamInTvalid =
        decide (s.framer.streamInBeat ≠ 5) ∧
      (step s i).framer.streamInTdata =
        nextWord s.dataReg i.block s.framer.streamInBeat := by
  have hstep : (step s i).framer = framerNext s i := rfl
  rw [hstep, framerNext_allChan s hall, hc, if_neg Bool.false_ne_true]
  exact ⟨rfl, rfl, rfl⟩

/-- The framer in same-channel mode. -/
theorem framerNext_sameChannel
    (s : State) {i : Input} (hmode : mode i = .sameChannel) :
    framerNext s i =
      if s.inTvalid then
        if s.framer.streamInBeat.getLsbD 0 then
          { streamInBeat := s.framer.streamInBeat + 1
            streamInTvalid := true
            streamInTdata :=
              s.framer.streamInTdata.setWidth 32 ++
                channelWord s.muxCh0 i i.ch0Sel }
        else
          { streamInBeat := s.framer.streamInBeat + 1
            streamInTvalid := false
            streamInTdata := 0#32 ++ channelWord s.muxCh0 i i.ch0Sel }
      else
        { s.framer with streamInTvalid := false } := by
  obtain ⟨hall, hsel⟩ := mode_eq_sameChannel_iff.mp hmode
  unfold framerNext
  rw [if_neg (by simp [hall]), if_pos hsel]

/-- The framer in two-channel mode. -/
theorem framerNext_twoChannels
    (s : State) {i : Input} (hmode : mode i = .twoChannels) :
    framerNext s i =
      { s.framer with
        streamInTvalid := s.inTvalid
        streamInTdata :=
          channelWord s.muxCh0 i i.ch0Sel ++
            channelWord s.muxCh1 i i.ch1Sel } := by
  obtain ⟨hall, hsel⟩ := mode_eq_twoChannels_iff.mp hmode
  unfold framerNext
  rw [if_neg (by simp [hall]), if_neg hsel]

/-- A run: the registers before reset, the inputs during reset and the inputs
in every clock after it. -/
structure Run where
  before : State
  resetInput : Input
  input : Nat → Input

namespace Run

variable (r : Run)

/-- Registers before clock edge `t`. -/
def state (t : Nat) : State :=
  run step (reset r.before r.resetInput) r.input t

/-- `in_tvalid`: a conversion was selected in the clock before. -/
def inTvalid (t : Nat) : Bool :=
  (r.state t).inTvalid

/-- `stream_in_tvalid` -/
def streamInTvalid (t : Nat) : Bool :=
  (r.state t).framer.streamInTvalid

/-- `stream_in_tdata` -/
def streamInTdata (t : Nat) : BitVec 64 :=
  (r.state t).framer.streamInTdata

/-- `stream_in_beat` -/
def streamInBeat (t : Nat) : BitVec 4 :=
  (r.state t).framer.streamInBeat

/-- `in_tready` of the packet buffer. -/
def inTready (t : Nat) : Bool :=
  (r.state t).streamer.wr.inTready

/-- Inputs of the packet buffer in a clock. -/
def streamerIn (t : Nat) : AxiStreamTsData.Input :=
  streamerInput (r.state t) (r.input t)

/-- Packets that the packet buffer has committed before clock `t`. -/
def packets (t : Nat) : List AxiStreamTsData.Packet :=
  AxiStreamTsData.packets r.before.streamer r.streamerIn t

/-- Payload words of the packet that is being written in clock `t`. -/
def openPayload (t : Nat) : List (BitVec 64) :=
  (AxiStreamTsData.openWords r.before.streamer r.streamerIn t).map Prod.fst

/-- The packet buffer runs on what the framer presents. -/
theorem streamer_eq (t : Nat) :
    (r.state t).streamer =
      AxiStreamTsData.stateAt r.before.streamer r.streamerIn t := by
  induction t with
  | zero => rfl
  | succ t ih =>
      rw [AxiStreamTsData.stateAt_succ, ← ih]
      rfl

variable {r}

/-- The divider, which depends on the inputs only. -/
def divAt (r : Run) : Nat → BitVec 20
  | 0 => 0
  | t + 1 => divNext (divAt r t) (r.input t)

/-- The conversion of this clock is valid and selected by the decimation. -/
def selected (r : Run) (t : Nat) : Bool :=
  selects (r.divAt t) (r.input t)

theorem div_eq (t : Nat) :
    (r.state t).div = r.divAt t := by
  induction t with
  | zero => rfl
  | succ t ih =>
      unfold divAt
      rw [← ih]
      rfl

@[simp] theorem inTvalid_zero : r.inTvalid 0 = false := by
  rfl

theorem inTvalid_succ (t : Nat) :
    r.inTvalid (t + 1) = r.selected t := by
  unfold selected
  rw [← div_eq]
  rfl

theorem of_selected {t : Nat} (h : r.selected t = true) :
    (r.input t).ena = true ∧ (r.input t).valid = true := by
  unfold selected selects at h
  split_ifs at h with he hv
  exact ⟨by simpa using he, hv⟩

/-- Conversions reach the framer one clock after they are selected. -/
theorem pulsesIn_inTvalid (t : Nat) :
    pulsesIn r.inTvalid 0 (t + 1) = pulsesIn r.selected 0 t := by
  induction t with
  | zero =>
      rw [pulsesIn_succ _ (le_refl _)]
      simp
  | succ t ih =>
      rw [pulsesIn_succ _ (by omega), ih, inTvalid_succ,
        pulsesIn_succ _ (by omega)]

/-- Selected conversions are as far apart as the valid ones. -/
theorem inTvalid_spaced {k : Nat}
    (hs : Spaced k fun t => (r.input t).valid) :
    Spaced k r.inTvalid := by
  intro t u htu ht hu
  cases t with
  | zero =>
      simp at ht
  | succ t =>
      obtain ⟨u, rfl⟩ : ∃ v, u = v + 1 := ⟨u - 1, by omega⟩
      rw [inTvalid_succ] at ht hu
      have := hs t u (by omega) (of_selected ht).2 (of_selected hu).2
      omega

end Run

end SubsystemStream
end MollerFirmware
