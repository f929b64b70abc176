import MollerFirmware.Clocked.Signals
import MollerFirmware.Clocked.RingMemory

/-!
# axi_stream_ts_data

The packet buffer of the ADC stream. The write side collects words into a
packet in a circular RAM, leaving room for two words in front of the payload,
and fills in the header (with the packet's number and length) and the timestamp
once the payload is complete. The read side sends complete packets as an AXI
stream. Between two packets the write side waits until the RAM has room for a
packet of maximal length.

This file is the translation of the module: one definition per `always` block,
all reading the registers as they were before the clock edge. The debug bus
`strm_dbg_out` is left out.
-/

namespace MollerFirmware
namespace AxiStreamTsData

open Clocked

/-- Parameters of an instance. Only the low eight bits of `ID` are used. -/
structure Params where
  id : BitVec 8
  maxPktLen : Nat
  depthBits : Nat

/-- `INT_MAX_PKT_LEN` -/
def Params.intMaxPktLen (P : Params) : Nat :=
  if P.maxPktLen < 3 then 3
  else if P.maxPktLen > 65536 then 65536
  else P.maxPktLen

/-- `INT_MAX_SAMPLES` -/
def Params.intMaxSamples (P : Params) : Nat :=
  P.intMaxPktLen - 2

/-- `DEPTH` -/
def Params.depth (P : Params) : Nat :=
  2 ^ P.depthBits

/-- `reg [16:0] max_pkt_len` has no driver, so its value is unknown in every
clock and a comparison with it takes the `else` branch. -/
def maxPktLenReg : Option (BitVec 17) :=
  none

/-- A RAM word `{ tlast, tdata }`. -/
def ramWord (tlast : Bool) (tdata : BitVec 64) : BitVec 65 :=
  BitVec.ofBool tlast ++ tdata

/-- Bit `SZ_AXI_WIDTH-1` of a RAM word. -/
def ramTlast (w : BitVec 65) : Bool :=
  w.getLsbD 64

/-- Bits `63:0` of a RAM word. -/
def ramTdata (w : BitVec 65) : BitVec 64 :=
  w.setWidth 64

@[simp] theorem ramTlast_ramWord (b : Bool) (d : BitVec 64) :
    ramTlast (ramWord b d) = b := by
  unfold ramTlast ramWord
  rw [BitVec.getLsbD_append]
  cases b <;> rfl

@[simp] theorem ramTdata_ramWord (b : Bool) (d : BitVec 64) :
    ramTdata (ramWord b d) = d := by
  unfold ramTdata ramWord
  rw [BitVec.setWidth_append]
  simp

inductive InState where
  | idle
  | data
  | wrLen
  | wrTs
  | wrUpdate
deriving DecidableEq

/-- Registers of the read side. -/
structure ReadSide (P : Params) where
  wordCnt : BitVec 16
  outPkts : BitVec P.depthBits
  rdPos : BitVec (P.depthBits + 1)
  outTvalid : Bool
  outTlast : Bool
  outTfirst : Bool
  outTdata : BitVec 64

/-- Registers of the free space check. -/
structure SpaceCheck (P : Params) where
  spaceCheck : Bool
  used : BitVec (P.depthBits + 1)

/-- Registers of the write state machine. -/
structure WriteFsm (P : Params) where
  numPktsIn : BitVec 32
  inTready : Bool
  inPkts : BitVec P.depthBits
  wrEna : Bool
  wrDat : BitVec 65
  wrPos : BitVec (P.depthBits + 1)
  wrCnt : BitVec 16
  wrStart : BitVec (P.depthBits + 1)
  inState : InState
  maxSamples : BitVec 16
  rTimestamp : BitVec 64

/-- Registers and RAM of the module. -/
structure State (P : Params) where
  rData : BitVec P.depthBits → BitVec 65
  rd : ReadSide P
  chk : SpaceCheck P
  wr : WriteFsm P

/-- Inputs in one clock. -/
structure Input where
  ena : Bool
  inTimestamp : BitVec 64
  inNumSamples : BitVec 16
  inTdata : BitVec 64
  inTvalid : Bool
  inTlast : Bool
  outTready : Bool

variable {P : Params}

/-- `in_captured` -/
def inCaptured (s : State P) (i : Input) : Bool :=
  i.inTvalid && s.wr.inTready

/-- `buf_not_empty` -/
def bufNotEmpty (s : State P) : Bool :=
  decide (s.wr.inPkts ≠ s.rd.outPkts)

/-- `r_data[rd_pos[SZ_DEPTH-1:0]]` -/
def rdWord (s : State P) : BitVec 65 :=
  s.rData (s.rd.rdPos.setWidth P.depthBits)

/-- The RAM block. -/
def ramNext (s : State P) : BitVec P.depthBits → BitVec 65 :=
  if s.wr.wrEna then
    Function.update s.rData (s.wr.wrPos.setWidth P.depthBits) s.wr.wrDat
  else s.rData

/-- The read side logic. -/
def readNext (s : State P) (i : Input) : ReadSide P :=
  if s.rd.outTvalid then
    if i.outTready then
      { wordCnt := s.rd.wordCnt - 1
        rdPos := if s.rd.outTlast then s.rd.rdPos else s.rd.rdPos + 1
        outTlast := if s.rd.outTlast then false else ramTlast (rdWord s)
        outTdata := if s.rd.outTlast then 0 else ramTdata (rdWord s)
        outPkts := if s.rd.outTlast then s.rd.outPkts + 1 else s.rd.outPkts
        outTvalid := if s.rd.outTlast then false else true
        outTfirst := false }
    else s.rd
  else
    { wordCnt := if bufNotEmpty s then (rdWord s).setWidth 16 else 0
      rdPos := if bufNotEmpty s then s.rd.rdPos + 1 else s.rd.rdPos
      outTlast := if bufNotEmpty s then ramTlast (rdWord s) else false
      outTdata := if bufNotEmpty s then ramTdata (rdWord s) else 0
      outTvalid := if bufNotEmpty s then true else false
      outTfirst := if bufNotEmpty s then true else false
      outPkts := s.rd.outPkts }

/-- Width in which `(DEPTH - used) > MAX_PKT_LEN` is evaluated: parameters have
32 bits, and `used` may be wider. -/
def Params.spaceWidth (P : Params) : Nat :=
  max 32 (P.depthBits + 1)

/-- The free space check; it sees `wr_start` and `rd_pos` two clocks late. -/
def spaceNext (s : State P) : SpaceCheck P :=
  { used := s.wr.wrStart - s.rd.rdPos
    spaceCheck :=
      decide (P.maxPktLen <
        (BitVec.ofNat P.spaceWidth P.depth -
          s.chk.used.setWidth P.spaceWidth).toNat) }

/-- The value that `ST_IDLE` loads into `max_samples`. -/
def maxSamplesNext (P : Params) (i : Input) : BitVec 16 :=
  if i.inNumSamples.toNat > P.intMaxSamples then
    BitVec.ofNat 16 (P.intMaxSamples - 1)
  else i.inNumSamples - 1

/-- The header word with `tlast` low. -/
def headerWord (P : Params) (numPktsIn : BitVec 32) (wrCnt : BitVec 16) :
    BitVec 64 :=
  P.id ++ 0#8 ++ numPktsIn ++ wrCnt

/-- State `ST_IDLE`. -/
def idleNext (s : State P) (i : Input) : WriteFsm P :=
  let base : WriteFsm P :=
    { s.wr with
      wrPos := s.wr.wrStart + 2
      rTimestamp := i.inTimestamp
      maxSamples := maxSamplesNext P i }
  if inCaptured s i && i.ena then
    if maxPktLenReg = some 3 then
      { base with
        numPktsIn := s.wr.numPktsIn + 1
        wrCnt := 2
        wrDat := ramWord true i.inTdata
        inTready := false
        inState := .wrLen
        wrEna := true }
    else
      { base with
        numPktsIn := s.wr.numPktsIn + 1
        wrCnt := 2
        wrDat := ramWord false i.inTdata
        inTready := true
        inState := .data
        wrEna := true }
  else
    { base with
      wrCnt := 0
      inTready := if s.chk.spaceCheck then true else false
      inState := .idle
      wrEna := false }

/-- State `ST_DATA`. -/
def dataNext (s : State P) (i : Input) : WriteFsm P :=
  if inCaptured s i then
    if i.inTlast || !i.ena || decide (s.wr.maxSamples < s.wr.wrCnt) then
      { s.wr with
        inTready := false
        inState := .wrLen
        wrPos := s.wr.wrPos + 1
        wrEna := true
        wrCnt := s.wr.wrCnt + 1
        wrDat := ramWord true i.inTdata }
    else
      { s.wr with
        inTready := true
        inState := .data
        wrPos := s.wr.wrPos + 1
        wrEna := true
        wrCnt := s.wr.wrCnt + 1
        wrDat := ramWord false i.inTdata }
  else if !i.ena then
    -- enable went low between two words: rewrite the last one with tlast high
    { s.wr with
      inTready := false
      inState := .wrLen
      wrEna := true
      wrCnt := s.wr.wrCnt + 1
      wrDat := ramWord true (ramTdata s.wr.wrDat) }
  else
    { s.wr with
      inTready := true
      inState := .data
      wrEna := false }

/-- The write state machine. -/
def writeNext (s : State P) (i : Input) : WriteFsm P :=
  match s.wr.inState with
  | .idle => idleNext s i
  | .data => dataNext s i
  | .wrLen =>
      { s.wr with
        inTready := false
        inState := .wrTs
        wrStart := s.wr.wrPos + 1
        wrPos := s.wr.wrStart
        wrEna := true
        wrCnt := 0
        wrDat := ramWord false (headerWord P s.wr.numPktsIn s.wr.wrCnt) }
  | .wrTs =>
      { s.wr with
        inTready := false
        inState := .wrUpdate
        wrPos := s.wr.wrPos + 1
        wrEna := true
        wrCnt := 0
        wrDat := ramWord false s.wr.rTimestamp }
  | .wrUpdate =>
      { s.wr with
        inPkts := s.wr.inPkts + 1
        inTready := false
        inState := .idle
        wrPos := s.wr.wrStart
        wrEna := false
        wrCnt := 0
        wrDat := 0 }

/-- A clock edge with `rst` low. -/
def step (s : State P) (i : Input) : State P :=
  { rData := ramNext s
    rd := readNext s i
    chk := spaceNext s
    wr := writeNext s i }

/-- A clock edge with `rst` high. The RAM, `wr_dat` and `r_timestamp` have no
reset. -/
def reset (s : State P) : State P :=
  { rData := s.rData
    rd :=
      { wordCnt := 0
        outPkts := 0
        rdPos := 0
        outTvalid := false
        outTlast := false
        outTfirst := false
        outTdata := 0 }
    chk := { spaceCheck := false, used := 0 }
    wr :=
      { s.wr with
        numPktsIn := 0
        inTready := false
        inPkts := 0
        wrEna := false
        wrPos := 0
        wrCnt := 0
        wrStart := 0
        inState := .idle
        maxSamples := 0 } }

end AxiStreamTsData
end MollerFirmware
