import MollerFirmware.Hdl.SimplePacketizer

/-!
# subsystem_capture

The integrator of the averaging mode. Every channel sums its samples, their
squares and their number, once for the current region and once for the whole
window. `captured` marks the end of a region; one clock later `cap_reg` makes
the packetizer take a snapshot of all registers and clears the region
accumulators.

A sample passes through the result registers of its channel before it is
added, so it is added one clock after its `sample_valid`. `regionNext` and
`windowNext` are what one clock does to a region and to a window accumulator;
the three quantities of a channel differ only in what a sample contributes.
-/

namespace MollerFirmware
namespace SubsystemCapture

/-- `NUM_CH` -/
abbrev numCh : Nat :=
  16

/-- Registers of one channel. -/
structure Channel where
  chSampleCount : BitVec 64
  chSampleCountWin : BitVec 64
  chSum : BitVec 64
  chSumWin : BitVec 64
  chSumOfSquares : BitVec 64
  chSumOfSquaresWin : BitVec 64
  chMisc : BitVec 64
  chMin : BitVec 20
  chMax : BitVec 20
  resultValid : Bool
  resultSum : BitVec 20
  resultSq : BitVec 64

/-- Parameters of `integration_packetizer`. -/
def packetizerParams : SimplePacketizer.Params where
  numInputs := 16 + 16 + 16 + 16 + 16 + 16 + 16 + 3
  width := 64
  id := 0xAA
  endianSwap := false
  numInputs_pos := by decide

/-- Registers of the module. -/
structure State where
  started : Bool
  capTs : BitVec 64
  samplesCaptured : BitVec 64
  pktCounter : BitVec 64
  startReg : Bool
  capReg : Bool
  capCnt : BitVec 16
  ch : Fin numCh → Channel
  packetizer : SimplePacketizer.State packetizerParams

/-- Inputs in one clock. -/
structure Input where
  ena : Bool
  start : Bool
  capRegion : BitVec 4
  trigger : BitVec 2
  inTimestamp : BitVec 64
  sampleValid : Bool
  sampleChData : Fin numCh → BitVec 18
  sampleChValid : Fin numCh → Bool
  fifoTready : Bool

/-- `captured`: a further start, or `ena` low, after the first start. -/
def captured (s : State) (i : Input) : Bool :=
  (i.start && !s.startReg && s.started) || (!i.ena && s.started)

/-- `init_mm` -/
def initMm (s : State) (i : Input) : Bool :=
  i.start && !s.startReg

/-- The condition for accumulating a sample. -/
def accumulating (s : State) (i : Input) : Bool :=
  (i.ena && i.start) || s.started

/-- A sample extended to the width of `result_sum`. -/
def resultSumOf (x : BitVec 18) : BitVec 20 :=
  if x.getLsbD 17 then 3#2 ++ x else 0#2 ++ x

/-- `result_sum` extended to the width of the sums. -/
def wide (x : BitVec 20) : BitVec 64 :=
  if x.getLsbD 19 then 0xFFFFFFFFFFF#44 ++ x else 0#44 ++ x

/-- The square of a sample, computed at the width of the sums. -/
def resultSqOf (x : BitVec 18) : BitVec 64 :=
  x.signExtend 64 * x.signExtend 64

/-- The result registers take the sample of this clock. -/
def takeResult (r : Channel) (i : Input) (n : Fin numCh) : Channel :=
  { r with
    resultValid := i.sampleValid && i.sampleChValid n
    resultSq := resultSqOf (i.sampleChData n)
    resultSum := resultSumOf (i.sampleChData n) }

/-- A clock edge of channel `n` with `rst` low. -/
def channelStep (s : State) (i : Input) (n : Fin numCh) : Channel :=
  let r := s.ch n
  let r' := takeResult r i n
  if initMm s i then
    { r' with
      chMin := 0x7FFFF
      chMax := 0x80000
      chSumWin := if !s.started then 0 else r.chSumWin
      chSumOfSquaresWin := if !s.started then 0 else r.chSumOfSquaresWin
      chSampleCountWin := if !s.started then 0 else r.chSampleCountWin }
  else if s.capReg then
    -- on capture reset the counters
    if i.ena && r.resultValid then
      { r' with
        chSum := wide r.resultSum
        chSumOfSquares := r.resultSq
        chSampleCount := 1
        chMin := 0x7FFFF
        chMax := 0x80000 }
    else
      { r' with
        chSum := 0
        chSumOfSquares := 0
        chSampleCount := 0
        chMin := 0x7FFFF
        chMax := 0x80000 }
  else if accumulating s i && r.resultValid then
    { r' with
      chSum := r.chSum + wide r.resultSum
      chSumOfSquares := r.chSumOfSquares + r.resultSq
      chSampleCount := r.chSampleCount + 1
      chSumWin := r.chSumWin + wide r.resultSum
      chSumOfSquaresWin := r.chSumOfSquaresWin + r.resultSq
      chSampleCountWin := r.chSampleCountWin + 1
      chMin := if r.resultSum.slt r.chMin then r.resultSum else r.chMin
      chMax := if r.chMax.slt r.resultSum then r.resultSum else r.chMax
      chMisc := 0#22 ++ i.trigger ++ r.chMin ++ r.chMax }
  else r'

/-- A clock edge of a channel with `rst` high; `ch_misc` has no reset. -/
def channelReset (r : Channel) : Channel :=
  { r with
    chSampleCount := 0
    chSum := 0
    chSumOfSquares := 0
    chSampleCountWin := 0
    chSumWin := 0
    chSumOfSquaresWin := 0
    chMin := 0x7FFFF
    chMax := 0x80000
    resultSum := 0
    resultSq := 0
    resultValid := false }

/-- The registers of a channel in the order of the packet. -/
def Channel.word (r : Channel) : Nat → BitVec 64
  | 0 => r.chMisc
  | 1 => r.chSampleCountWin
  | 2 => r.chSumWin
  | 3 => r.chSumOfSquaresWin
  | 4 => r.chSampleCount
  | 5 => r.chSum
  | _ => r.chSumOfSquares

/-- Input `d` of the packetizer. -/
def packetWord (s : State) (i : Input) : Nat → BitVec 64
  | 0 => s.capTs
  | 1 => i.capRegion ++ s.pktCounter.setWidth 60
  | 2 => s.samplesCaptured
  | k + 3 => (s.ch ⟨k % numCh, Nat.mod_lt _ (by decide)⟩).word (k / numCh)

/-- Inputs of the packetizer. -/
def packetizerInput (s : State) (i : Input) :
    SimplePacketizer.Input packetizerParams :=
  { capture := s.capReg
    d := fun k => packetWord s i k.val
    tready := i.fifoTready }

/-- A clock edge with `rst` low. -/
def step (s : State) (i : Input) : State :=
  { started :=
      if i.ena && i.start then true
      else if !i.ena then false
      else s.started
    capTs :=
      if s.capReg then
        if i.ena && i.sampleValid then i.inTimestamp else 0
      else if accumulating s i && i.sampleValid then
        if s.capTs = 0 then i.inTimestamp else s.capTs
      else s.capTs
    samplesCaptured :=
      if s.capReg then
        if i.ena && i.sampleValid then 1 else 0
      else if accumulating s i && i.sampleValid then s.samplesCaptured + 1
      else s.samplesCaptured
    pktCounter :=
      if captured s i then s.pktCounter + 1 else s.pktCounter
    startReg := i.start
    capReg := captured s i
    capCnt := if captured s i then s.capCnt + 1 else s.capCnt
    ch := channelStep s i
    packetizer := SimplePacketizer.step s.packetizer (packetizerInput s i) }

/-- A clock edge with `rst` high; `start_reg`, `cap_reg` and `cap_cnt` have no
reset. -/
def reset (s : State) (i : Input) : State :=
  { started := false
    capTs := 0
    samplesCaptured := 0
    pktCounter := 0
    startReg := i.start
    capReg := captured s i
    capCnt := if captured s i then s.capCnt + 1 else s.capCnt
    ch := fun n => channelReset (s.ch n)
    packetizer := SimplePacketizer.reset s.packetizer }

/-- What a clock does to a region accumulator to which the sample in the
result registers contributes `x`. -/
def regionNext (s : State) (i : Input) (n : Fin numCh)
    (x acc : BitVec 64) : BitVec 64 :=
  if initMm s i then acc
  else if s.capReg then
    if i.ena && (s.ch n).resultValid then x else 0
  else if accumulating s i && (s.ch n).resultValid then acc + x
  else acc

/-- What a clock does to a window accumulator. -/
def windowNext (s : State) (i : Input) (n : Fin numCh)
    (x acc : BitVec 64) : BitVec 64 :=
  if initMm s i then if !s.started then 0 else acc
  else if s.capReg then acc
  else if accumulating s i && (s.ch n).resultValid then acc + x
  else acc

/-- The three quantities a channel accumulates. -/
inductive Quantity
  | sampleCount
  | sum
  | sumOfSquares
deriving DecidableEq

/-- What the sample in the result registers contributes. -/
def Channel.contribution (r : Channel) : Quantity → BitVec 64
  | .sampleCount => 1
  | .sum => wide r.resultSum
  | .sumOfSquares => r.resultSq

/-- The accumulator of the current region. -/
def Channel.region (r : Channel) : Quantity → BitVec 64
  | .sampleCount => r.chSampleCount
  | .sum => r.chSum
  | .sumOfSquares => r.chSumOfSquares

/-- The accumulator of the whole window. -/
def Channel.window (r : Channel) : Quantity → BitVec 64
  | .sampleCount => r.chSampleCountWin
  | .sum => r.chSumWin
  | .sumOfSquares => r.chSumOfSquaresWin

/-- What a sample contributes. -/
def Quantity.ofSample (x : BitVec 18) : Quantity → BitVec 64
  | .sampleCount => 1
  | .sum => x.signExtend 64
  | .sumOfSquares => x.signExtend 64 * x.signExtend 64

/-- The sign bit of the sample fills the upper bits of `result_sum`. -/
theorem resultSumOf_getLsbD (x : BitVec 18) {j : Nat} (hj : j < 20) :
    (resultSumOf x).getLsbD j = x.getLsbD (min j 17) := by
  have hones : 3#2 = BitVec.allOnes 2 := by rfl
  unfold resultSumOf
  by_cases hlow : j < 18
  · have hmin : min j 17 = j := by omega
    rw [hmin]
    split_ifs <;> rw [BitVec.getLsbD_append, if_pos hlow]
  · have hmin : min j 17 = 17 := by omega
    rw [hmin]
    cases hx : x.getLsbD 17 with
    | true =>
        rw [if_pos rfl, hones, BitVec.getLsbD_append, if_neg hlow,
          BitVec.getLsbD_allOnes]
        simp
        omega
    | false =>
        rw [if_neg (by simp), BitVec.getLsbD_append, if_neg hlow]
        simp

/-- The two extensions of a sample together are sign extension. -/
theorem wide_resultSumOf (x : BitVec 18) :
    wide (resultSumOf x) = x.signExtend 64 := by
  have hones : 0xFFFFFFFFFFF#44 = BitVec.allOnes 44 := by rfl
  have hmsb : x.msb = x.getLsbD 17 := BitVec.msb_eq_getLsbD_last x
  have hsign : (resultSumOf x).getLsbD 19 = x.getLsbD 17 :=
    resultSumOf_getLsbD x (by omega)
  apply BitVec.eq_of_getLsbD_eq
  intro j hj
  unfold wide
  rw [BitVec.getLsbD_signExtend, hmsb, hsign]
  by_cases hlow : j < 20
  · have hget := resultSumOf_getLsbD x hlow
    have hcase : (if j < 18 then x.getLsbD j else x.getLsbD 17) =
        x.getLsbD (min j 17) := by
      split_ifs with h
      · rw [show min j 17 = j by omega]
      · rw [show min j 17 = 17 by omega]
    rw [hcase, ← hget]
    split_ifs <;> rw [BitVec.getLsbD_append, if_pos hlow] <;> simp [hj]
  · cases hx : x.getLsbD 17 with
    | true =>
        rw [if_pos rfl, hones, BitVec.getLsbD_append, if_neg hlow,
          BitVec.getLsbD_allOnes, if_neg (by omega)]
        simp
        omega
    | false =>
        rw [if_neg (by simp), BitVec.getLsbD_append, if_neg hlow,
          if_neg (by omega)]
        simp

/-- The first of them on its own. -/
theorem resultSumOf_eq (x : BitVec 18) :
    resultSumOf x = x.signExtend 20 := by
  have hmsb : x.msb = x.getLsbD 17 := BitVec.msb_eq_getLsbD_last x
  apply BitVec.eq_of_getLsbD_eq
  intro j hj
  rw [resultSumOf_getLsbD x hj, BitVec.getLsbD_signExtend, hmsb]
  by_cases hlow : j < 18
  · rw [if_pos hlow, show min j 17 = j by omega]
    simp [hj]
  · rw [if_neg hlow, show min j 17 = 17 by omega]
    simp [hj]

theorem step_resultValid (s : State) (i : Input) (n : Fin numCh) :
    ((step s i).ch n).resultValid = (i.sampleValid && i.sampleChValid n) := by
  simp only [step, channelStep]
  split_ifs <;> rfl

theorem step_resultSum (s : State) (i : Input) (n : Fin numCh) :
    ((step s i).ch n).resultSum = resultSumOf (i.sampleChData n) := by
  simp only [step, channelStep]
  split_ifs <;> rfl

/-- The result registers hold what the sample of the last clock contributes. -/
theorem step_contribution
    (s : State) (i : Input) (n : Fin numCh) (q : Quantity) :
    ((step s i).ch n).contribution q = q.ofSample (i.sampleChData n) := by
  have hsum := step_resultSum s i n
  have hsq : ((step s i).ch n).resultSq = resultSqOf (i.sampleChData n) := by
    simp only [step, channelStep]
    split_ifs <;> rfl
  cases q with
  | sampleCount => rfl
  | sum =>
      unfold Channel.contribution Quantity.ofSample
      rw [hsum, wide_resultSumOf]
  | sumOfSquares =>
      unfold Channel.contribution Quantity.ofSample
      rw [hsq]
      rfl

theorem step_region
    (s : State) (i : Input) (n : Fin numCh) (q : Quantity) :
    ((step s i).ch n).region q =
      regionNext s i n ((s.ch n).contribution q) ((s.ch n).region q) := by
  simp only [step, channelStep, regionNext]
  cases q <;> split_ifs <;> rfl

theorem step_window
    (s : State) (i : Input) (n : Fin numCh) (q : Quantity) :
    ((step s i).ch n).window q =
      windowNext s i n ((s.ch n).contribution q) ((s.ch n).window q) := by
  simp only [step, channelStep, windowNext]
  cases q <;> split_ifs <;> rfl

end SubsystemCapture
end MollerFirmware
