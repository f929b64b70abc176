import MollerFirmware.Clocked.Packets
import MollerFirmware.Clocked.Signals

/-!
# axi_stream_packet_info_length_prepender

A packet buffer for words of 32 bits that sends a length and two words of
information in front of each packet. The payload is written to a circular RAM
behind three free slots, which are filled when its last word has come.

In `ST_DATA` the assignments of the branches to `wr_dat` are followed by
`wr_dat <= wr_dat`, which wins: every word of a packet after the first one is
stored as a copy of the first, without the mark of the last word.
What is left, packets of one word, is the subject of `Run.framed_of_oneWord`.
-/

namespace MollerFirmware
namespace InfoPrepender

open Clocked

/-- Parameters of an instance. Only the low eight bits of `ID` are used. -/
structure Params where
  id : BitVec 8
  endianSwap : Bool
  maxPktLen : Nat
  numPackets : Nat
  one_le_maxPktLen : 1 ≤ maxPktLen
  one_le_numPackets : 1 ≤ numPackets

/-- `SZ_DEPTH` -/
def Params.depthBits (P : Params) : Nat :=
  Nat.clog 2 ((P.maxPktLen + 1) * P.numPackets)

/-- `DEPTH` -/
def Params.depth (P : Params) : Nat :=
  2 ^ P.depthBits

/-- `SZ_PKTS` -/
def Params.szPkts (P : Params) : Nat :=
  Nat.clog 2 (P.numPackets + 1)

/-- Bits in which `(in_pkts - out_pkts) < NUM_PACKETS` is computed. -/
def Params.cmpWidth (P : Params) : Nat :=
  max 32 P.szPkts

/-- A RAM word `{ tlast, tdata }`. -/
def ramWord (tlast : Bool) (tdata : BitVec 32) : BitVec 33 :=
  BitVec.ofBool tlast ++ tdata

/-- Bit 32 of a RAM word. -/
def ramTlast (w : BitVec 33) : Bool :=
  w.getLsbD 32

/-- Bits `31:0` of a RAM word. -/
def ramTdata (w : BitVec 33) : BitVec 32 :=
  w.setWidth 32

@[simp] theorem ramTlast_ramWord (b : Bool) (d : BitVec 32) :
    ramTlast (ramWord b d) = b := by
  unfold ramTlast ramWord
  rw [BitVec.getLsbD_append]
  cases b <;> rfl

@[simp] theorem ramTdata_ramWord (b : Bool) (d : BitVec 32) :
    ramTdata (ramWord b d) = d := by
  unfold ramTdata ramWord
  rw [BitVec.setWidth_append]
  simp

/-- `{<<8{x}}` for three bytes. -/
def swapBytes24 (x : BitVec 24) : BitVec 24 :=
  x.extractLsb' 0 8 ++ x.extractLsb' 8 8 ++ x.extractLsb' 16 8

/-- `{<<8{x}}` for four bytes. -/
def swapBytes32 (x : BitVec 32) : BitVec 32 :=
  x.extractLsb' 0 8 ++ x.extractLsb' 8 8 ++ x.extractLsb' 16 8 ++
    x.extractLsb' 24 8

/-- `[1:0][31:0] info` -/
structure Info where
  word0 : BitVec 32
  word1 : BitVec 32
deriving DecidableEq

inductive InState where
  | idle
  | data
  | wrLen
  | wrData1
  | wrData2
deriving DecidableEq

/-- Registers of the read side. -/
structure ReadSide (P : Params) where
  outPkts : BitVec P.szPkts
  rdPos : BitVec P.depthBits
  outTvalid : Bool
  outTlast : Bool
  outTdata : BitVec 32

/-- Registers of the write state machine. -/
structure WriteFsm (P : Params) where
  inTready : Bool
  inPkts : BitVec P.szPkts
  wrEna : Bool
  rInfo : Info
  wrCnt : BitVec 32
  wrDat : BitVec 33
  wrPos : BitVec P.depthBits
  wrStart : BitVec P.depthBits
  inState : InState

/-- Registers and RAM of the module. -/
structure State (P : Params) where
  rData : BitVec P.depthBits → BitVec 33
  rd : ReadSide P
  wr : WriteFsm P

/-- Inputs in one clock. -/
structure Input where
  info : Info
  enable : Bool
  forceEnd : Bool
  inTlast : Bool
  inTdata : BitVec 32
  inTvalid : Bool
  outTready : Bool

variable {P : Params}

/-- `in_captured` -/
def inCaptured (s : State P) (i : Input) : Bool :=
  i.inTvalid && s.wr.inTready

/-- `out_captured` -/
def outCaptured (s : State P) (i : Input) : Bool :=
  s.rd.outTvalid && i.outTready

theorem inTready_of_captured {s : State P} {i : Input}
    (h : inCaptured s i = true) :
    s.wr.inTready = true := by
  unfold inCaptured at h
  rw [Bool.and_eq_true] at h
  exact h.2

theorem outTvalid_of_captured {s : State P} {i : Input}
    (h : outCaptured s i = true) :
    s.rd.outTvalid = true := by
  unfold outCaptured at h
  rw [Bool.and_eq_true] at h
  exact h.1

/-- `in_pkts - out_pkts != 0` -/
def bufNotEmpty (s : State P) : Bool :=
  decide (s.wr.inPkts ≠ s.rd.outPkts)

/-- `(in_pkts - out_pkts) < NUM_PACKETS` -/
def pktsBelowMax (s : State P) : Bool :=
  decide
    ((s.wr.inPkts.setWidth P.cmpWidth -
      s.rd.outPkts.setWidth P.cmpWidth).toNat < P.numPackets)

/-- `(wr_pos == rd_pos) ? wr_dat : r_data[rd_pos]` -/
def rdWord (s : State P) : BitVec 33 :=
  if s.wr.wrPos = s.rd.rdPos then s.wr.wrDat else s.rData s.rd.rdPos

/-- The RAM block. -/
def ramNext (s : State P) : BitVec P.depthBits → BitVec 33 :=
  if s.wr.wrEna then Function.update s.rData s.wr.wrPos s.wr.wrDat else s.rData

/-- The read side logic. -/
def readNext (s : State P) (i : Input) : ReadSide P :=
  if outCaptured s i then
    { outTlast := if s.rd.outTlast then false else ramTlast (rdWord s)
      outTdata := if s.rd.outTlast then 0 else ramTdata (rdWord s)
      rdPos := if s.rd.outTlast then s.rd.rdPos else s.rd.rdPos + 1
      outPkts := if s.rd.outTlast then s.rd.outPkts + 1 else s.rd.outPkts
      outTvalid := if s.rd.outTlast then false else true }
  else if s.rd.outTvalid then s.rd
  else
    { rdPos := if bufNotEmpty s then s.rd.rdPos + 1 else s.rd.rdPos
      outTlast := if bufNotEmpty s then ramTlast (rdWord s) else false
      outTdata := if bufNotEmpty s then ramTdata (rdWord s) else 0
      outTvalid := if bufNotEmpty s then true else false
      outPkts := s.rd.outPkts }

/-- State `ST_IDLE`. -/
def idleNext (s : State P) (i : Input) : WriteFsm P :=
  let base : WriteFsm P :=
    { s.wr with
      wrPos := s.wr.wrStart + 3
      wrCnt := 1
      wrDat := ramWord i.inTlast i.inTdata }
  if inCaptured s i && i.enable then
    { base with
      inTready := if i.inTlast then false else true
      inState := if i.inTlast then .wrLen else .data
      wrEna := true
      rInfo := i.info }
  else
    { base with
      inTready := if pktsBelowMax s then true else false
      inState := .idle
      wrEna := false }

/-- State `ST_DATA`. Its last assignment keeps `wr_dat`. -/
def dataNext (s : State P) (i : Input) : WriteFsm P :=
  if inCaptured s i then
    if P.maxPktLen < s.wr.wrCnt.toNat then
      { s.wr with
        inTready := false
        inState := .idle
        wrPos := s.wr.wrStart
        wrEna := false
        wrCnt := 0 }
    else if i.inTlast || i.forceEnd then
      { s.wr with
        inTready := false
        inState := .wrLen
        wrPos := s.wr.wrPos + 1
        wrEna := true
        wrCnt := s.wr.wrCnt + 1 }
    else
      { s.wr with
        inTready := true
        inState := .data
        wrPos := s.wr.wrPos + 1
        wrEna := true
        wrCnt := s.wr.wrCnt + 1 }
  else
    { s.wr with
      inTready := if i.forceEnd then false else true
      inState := if i.forceEnd then .wrLen else .data
      wrEna := if i.forceEnd then true else false }

/-- The word that `ST_WR_LEN` writes. -/
def headerWord (P : Params) (wrCnt : BitVec 32) : BitVec 32 :=
  if P.endianSwap then swapBytes24 (wrCnt.setWidth 24) ++ P.id
  else P.id ++ wrCnt.setWidth 24

/-- A word that `ST_WR_DATA1` or `ST_WR_DATA2` writes. -/
def infoWord (P : Params) (x : BitVec 32) : BitVec 32 :=
  if P.endianSwap then swapBytes32 x else x

/-- The write state machine. -/
def writeNext (s : State P) (i : Input) : WriteFsm P :=
  match s.wr.inState with
  | .idle => idleNext s i
  | .data => dataNext s i
  | .wrLen =>
      { s.wr with
        inTready := false
        inState := .wrData1
        wrStart := s.wr.wrPos + 1
        wrPos := s.wr.wrStart
        wrEna := true
        wrDat := ramWord false (headerWord P s.wr.wrCnt) }
  | .wrData1 =>
      { s.wr with
        inTready := false
        inState := .wrData2
        wrPos := s.wr.wrPos + 1
        wrEna := true
        wrDat := ramWord false (infoWord P s.wr.rInfo.word0) }
  | .wrData2 =>
      { s.wr with
        inPkts := s.wr.inPkts + 1
        inTready := false
        inState := .idle
        wrPos := s.wr.wrPos + 1
        wrEna := true
        wrDat := ramWord false (infoWord P s.wr.rInfo.word1) }

/-- A clock edge with `rst` low. -/
def step (s : State P) (i : Input) : State P :=
  { rData := ramNext s
    rd := readNext s i
    wr := writeNext s i }

/-- `rst` high. The RAM, `r_info`, `wr_cnt` and `wr_dat` have no reset. -/
def reset (s : State P) : State P :=
  { rData := s.rData
    rd :=
      { outPkts := 0
        rdPos := 0
        outTvalid := false
        outTlast := false
        outTdata := 0 }
    wr :=
      { s.wr with
        inTready := false
        inPkts := 0
        wrEna := false
        wrPos := 0
        wrStart := 0
        inState := .idle } }

/-- A word accepted on the input, with the information at that time. -/
structure Accepted where
  tdata : BitVec 32
  info : Info
deriving DecidableEq

/-- Words accepted on the input. -/
def watchInput (g : Packets Accepted) (s : State P) (i : Input) :
    Packets Accepted :=
  if inCaptured s i then g.take i.inTlast ⟨i.inTdata, i.info⟩ else g

/-- What the module is for: a header with the number of words, the information
at the first word, and the words. Each word comes with `out_tlast`. -/
def frame (P : Params) : List Accepted → List (Bool × BitVec 32)
  | [] => []
  | w :: ws =>
      (false, P.id ++ BitVec.ofNat 24 (ws.length + 1)) ::
        (false, w.info.word0) :: (false, w.info.word1) ::
          marked ((w :: ws).map Accepted.tdata)

/-- A run after reset, with `enable` held high and `force_end` held low. -/
structure Run (P : Params) where
  before : State P
  input : Nat → Input
  enable : ∀ t, (input t).enable = true
  forceEnd : ∀ t, (input t).forceEnd = false

namespace Run

variable (r : Run P)

/-- Registers before clock edge `t`. -/
def state (t : Nat) : State P :=
  run step (reset r.before) r.input t

/-- Packets accepted before clock `t`. -/
def accepted (t : Nat) : Packets Accepted :=
  observe step watchInput (reset r.before) Packets.none r.input t

/-- A word is accepted in clock `t`. -/
def captured (t : Nat) : Bool :=
  inCaptured (r.state t) (r.input t)

/-- Words sent before clock `t`, each with `out_tlast`. -/
def sent (t : Nat) : List (Bool × BitVec 32) :=
  eventsBefore
    (fun u =>
      if outCaptured (r.state u) (r.input u) then
        [((r.state u).rd.outTlast, (r.state u).rd.outTdata)]
      else [])
    t

/-- The input packets have 1 to `MAX_PKT_LEN` words. -/
def PacketsFit : Prop :=
  ∀ t, r.captured t = true →
    (r.accepted t).current.length + (if (r.input t).inTlast then 1 else 2) ≤
      P.maxPktLen

/-- The frames of the packets that are complete in clock `t`. -/
def frames (t : Nat) : List (Bool × BitVec 32) :=
  (r.accepted t).complete.flatMap (frame P)

/-- Nothing is left in the module. -/
structure Drained (t : Nat) : Prop where
  inState : (r.state t).wr.inState = .idle
  empty : bufNotEmpty (r.state t) = false
  outTvalid : (r.state t).rd.outTvalid = false

/-- The words sent before clock `t` are those of the frames, in order, and all
of them when nothing is left in the module. -/
structure Framed (t : Nat) : Prop where
  inOrder : r.sent t <+: r.frames t
  complete : r.Drained t → r.sent t = r.frames t

end Run

end InfoPrepender
end MollerFirmware
