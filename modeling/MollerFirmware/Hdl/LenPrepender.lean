import MollerFirmware.Clocked.Packets
import MollerFirmware.Hdl.AxiStreamTsData

/-!
# axi_stream_len_prepender

A packet buffer like `axi_stream_ts_data`, with a header word in front of each
packet and no timestamp. `ST_IDLE` still leaves room for two words in front of
the payload, of which only the first one is filled: the reader sends the slot
between header and payload with the packet, and the count starts at two, so that
it includes this word. `Run.framed_iff` draws the conclusion.
-/

namespace MollerFirmware
namespace LenPrepender

open Clocked
open AxiStreamTsData (Params ramWord ramTlast ramTdata maxPktLenReg headerWord)

inductive InState where
  | idle
  | data
  | wrLen
  | wrUpdate
deriving DecidableEq

/-- Registers of the read side. -/
structure ReadSide (P : Params) where
  outPkts : BitVec P.depthBits
  rdPos : BitVec (P.depthBits + 1)
  outTvalid : Bool
  outTlast : Bool
  outTdata : BitVec 64

/-- Registers of the free space check. -/
structure SpaceCheck (P : Params) where
  spaceCheck : Bool
  used : BitVec (P.depthBits + 1)

/-- Registers of the write state machine. -/
structure WriteFsm (P : Params) where
  numPktsIn : BitVec 32
  inTready : Bool
  inPkts : BitVec P.depthBits
  wrEna : Bool
  wrDat : BitVec 65
  wrPos : BitVec (P.depthBits + 1)
  wrCnt : BitVec 16
  wrStart : BitVec (P.depthBits + 1)
  inState : InState

/-- Registers and RAM of the module. -/
structure State (P : Params) where
  rData : BitVec P.depthBits → BitVec 65
  rd : ReadSide P
  chk : SpaceCheck P
  wr : WriteFsm P

/-- Inputs in one clock. -/
structure Input where
  ena : Bool
  inTdata : BitVec 64
  inTvalid : Bool
  inTlast : Bool
  outTready : Bool

variable {P : Params}

/-- `in_captured` -/
def inCaptured (s : State P) (i : Input) : Bool :=
  i.inTvalid && s.wr.inTready

/-- `out_captured` -/
def outCaptured (s : State P) (i : Input) : Bool :=
  s.rd.outTvalid && i.outTready

/-- `in_pkts - out_pkts != 0` -/
def bufNotEmpty (s : State P) : Bool :=
  decide (s.wr.inPkts ≠ s.rd.outPkts)

/-- `r_data[rd_pos[SZ_DEPTH-1:0]]` -/
def rdWord (s : State P) : BitVec 65 :=
  s.rData (s.rd.rdPos.setWidth P.depthBits)

/-- The RAM block. -/
def ramNext (s : State P) : BitVec P.depthBits → BitVec 65 :=
  if s.wr.wrEna then
    Function.update s.rData (s.wr.wrPos.setWidth P.depthBits) s.wr.wrDat
  else s.rData

/-- The read side logic. -/
def readNext (s : State P) (i : Input) : ReadSide P :=
  if s.rd.outTvalid then
    if i.outTready then
      { rdPos := if s.rd.outTlast then s.rd.rdPos else s.rd.rdPos + 1
        outTlast := if s.rd.outTlast then false else ramTlast (rdWord s)
        outTdata := if s.rd.outTlast then 0 else ramTdata (rdWord s)
        outPkts := if s.rd.outTlast then s.rd.outPkts + 1 else s.rd.outPkts
        outTvalid := if s.rd.outTlast then false else true }
    else s.rd
  else
    { rdPos := if bufNotEmpty s then s.rd.rdPos + 1 else s.rd.rdPos
      outTlast := if bufNotEmpty s then ramTlast (rdWord s) else false
      outTdata := if bufNotEmpty s then ramTdata (rdWord s) else 0
      outTvalid := if bufNotEmpty s then true else false
      outPkts := s.rd.outPkts }

/-- The free space check. -/
def spaceNext (s : State P) : SpaceCheck P :=
  { used := s.wr.wrStart - s.rd.rdPos
    spaceCheck :=
      decide (P.maxPktLen <
        (BitVec.ofNat P.spaceWidth P.depth -
          s.chk.used.setWidth P.spaceWidth).toNat) }

/-- State `ST_IDLE`. -/
def idleNext (s : State P) (i : Input) : WriteFsm P :=
  let base : WriteFsm P := { s.wr with wrPos := s.wr.wrStart + 2 }
  if inCaptured s i && i.ena then
    if maxPktLenReg = some 3 then
      { base with
        numPktsIn := s.wr.numPktsIn + 1
        wrCnt := 2
        wrDat := ramWord true i.inTdata
        inTready := false
        inState := .wrLen
        wrEna := true }
    else
      { base with
        numPktsIn := s.wr.numPktsIn + 1
        wrCnt := 2
        wrDat := ramWord false i.inTdata
        inTready := true
        inState := .data
        wrEna := true }
  else
    { base with
      wrCnt := 0
      inTready := if s.chk.spaceCheck then true else false
      inState := .idle
      wrEna := false }

/-- `ST_DATA` when the packet is dropped. -/
def dropPacket (s : State P) : WriteFsm P :=
  { s.wr with
    inTready := false
    inState := .idle
    wrPos := s.wr.wrStart
    wrEna := false
    wrCnt := 0
    wrDat := ramWord false (ramTdata s.wr.wrDat) }

/-- State `ST_DATA`. -/
def dataNext (s : State P) (i : Input) : WriteFsm P :=
  if inCaptured s i then
    if i.inTlast then
      { s.wr with
        inTready := false
        inState := .wrLen
        wrPos := s.wr.wrPos + 1
        wrEna := true
        wrCnt := s.wr.wrCnt + 1
        wrDat := ramWord true i.inTdata }
    else if !i.ena || decide (P.intMaxSamples < s.wr.wrCnt.toNat) then
      dropPacket s
    else
      { s.wr with
        inTready := true
        inState := .data
        wrPos := s.wr.wrPos + 1
        wrEna := true
        wrCnt := s.wr.wrCnt + 1
        wrDat := ramWord false i.inTdata }
  else if !i.ena then dropPacket s
  else
    { s.wr with
      inTready := true
      inState := .data
      wrEna := false }

/-- The write state machine. -/
def writeNext (s : State P) (i : Input) : WriteFsm P :=
  match s.wr.inState with
  | .idle => idleNext s i
  | .data => dataNext s i
  | .wrLen =>
      { s.wr with
        inTready := false
        inState := .wrUpdate
        wrStart := s.wr.wrPos + 1
        wrPos := s.wr.wrStart
        wrEna := true
        wrCnt := 0
        wrDat := ramWord false (headerWord P s.wr.numPktsIn s.wr.wrCnt) }
  | .wrUpdate =>
      { s.wr with
        inPkts := s.wr.inPkts + 1
        inTready := false
        inState := .idle
        wrPos := s.wr.wrStart
        wrEna := false
        wrCnt := 0
        wrDat := 0 }

/-- A clock edge with `rst` low. -/
def step (s : State P) (i : Input) : State P :=
  { rData := ramNext s
    rd := readNext s i
    chk := spaceNext s
    wr := writeNext s i }

/-- A clock edge with `rst` high. The RAM and `wr_dat` have no reset. -/
def reset (s : State P) : State P :=
  { rData := s.rData
    rd :=
      { outPkts := 0
        rdPos := 0
        outTvalid := false
        outTlast := false
        outTdata := 0 }
    chk := { spaceCheck := false, used := 0 }
    wr :=
      { s.wr with
        numPktsIn := 0
        inTready := false
        inPkts := 0
        wrEna := false
        wrPos := 0
        wrCnt := 0
        wrStart := 0
        inState := .idle } }

/-- Words accepted on the input. -/
def watchInput (g : Packets (BitVec 64)) (s : State P) (i : Input) :
    Packets (BitVec 64) :=
  if inCaptured s i then g.take i.inTlast i.inTdata else g

/-- What the module is for: the words of a packet behind a header whose low 16
bits are their number. Each word comes with `out_tlast`. -/
def IsFrame (f : List (Bool × BitVec 64)) (ws : List (BitVec 64)) : Prop :=
  ∃ h : BitVec 64,
    (h.setWidth 16).toNat = ws.length ∧ f = (false, h) :: marked ws

/-- The length field of a header. -/
theorem setWidth_headerWord (n : BitVec 32) (len : BitVec 16) :
    (headerWord P n len).setWidth 16 = len := by
  unfold headerWord
  rw [BitVec.setWidth_append]
  simp

/-- Frames start with the length of the first packet. -/
theorem head_of_isFrame
    {ps : List (List (BitVec 64))} {fs : List (List (Bool × BitVec 64))}
    {w : Bool × BitVec 64} {ws : List (Bool × BitVec 64)}
    (hframes : List.Forall₂ IsFrame fs ps) (hpre : w :: ws <+: fs.flatten) :
    ∃ p, ps.head? = some p ∧ (w.2.setWidth 16).toNat = p.length := by
  cases hframes with
  | nil => exact absurd (List.prefix_nil.mp hpre) (List.cons_ne_nil _ _)
  | cons hf hrest =>
      obtain ⟨h, hlen, rfl⟩ := hf
      rw [List.flatten_cons, List.cons_append] at hpre
      obtain ⟨hw, _⟩ := List.cons_prefix_cons.mp hpre
      exact ⟨_, rfl, by rw [hw]; exact hlen⟩

section FirstPacket

/-- Nothing has reached the read side. -/
structure ReadIdle (s : State P) : Prop where
  outTvalid : s.rd.outTvalid = false
  outPkts : s.rd.outPkts = 0
  rdPos : s.rd.rdPos = 0

/-- The words of the first packet are being written. -/
structure Filling (s : State P) (g : Packets (BitVec 64)) : Prop where
  reader : ReadIdle s
  inPkts : s.wr.inPkts = 0
  wrStart : s.wr.wrStart = 0
  complete : g.complete = []
  phase : (s.wr.inState = .idle ∧ g.current = []) ∨
    (s.wr.inState = .data ∧ 1 ≤ g.current.length ∧
      s.wr.wrCnt.toNat = g.current.length + 1)

/-- The first packet, of `n` words, has been written. -/
structure Written (s : State P) (n : Nat) : Prop where
  reader : ReadIdle s
  inPkts : s.wr.inPkts = 0
  wrStart : s.wr.wrStart = 0
  inState : s.wr.inState = .wrLen
  wrCnt : s.wr.wrCnt = BitVec.ofNat 16 (n + 1)

/-- Its header is on the way to the RAM. -/
structure Headed (s : State P) (n : Nat) : Prop where
  reader : ReadIdle s
  inPkts : s.wr.inPkts = 0
  inState : s.wr.inState = .wrUpdate
  wrEna : s.wr.wrEna = true
  wrPos : s.wr.wrPos = 0
  wrDat : (ramTdata s.wr.wrDat).setWidth 16 = BitVec.ofNat 16 (n + 1)

/-- The packet waits for the read side. -/
structure Stored (s : State P) (n : Nat) : Prop where
  reader : ReadIdle s
  inPkts : s.wr.inPkts = 1
  rData : (ramTdata (s.rData 0)).setWidth 16 = BitVec.ofNat 16 (n + 1)

/-- The header is on the output. -/
structure Offered (s : State P) (n : Nat) : Prop where
  outTvalid : s.rd.outTvalid = true
  outTdata : s.rd.outTdata.setWidth 16 = BitVec.ofNat 16 (n + 1)

/-- The first packet has too many words for a length of 16 bits. -/
def TooLong (g : Packets (BitVec 64)) : Prop :=
  (∃ p, g.complete.head? = some p ∧ 2 ^ 16 ≤ p.length) ∨
    (g.complete = [] ∧ 2 ^ 16 ≤ g.current.length + 1)

variable {s : State P} {i : Input} {g : Packets (BitVec 64)} {n : Nat}

theorem TooLong.take (h : TooLong g) (last : Bool) (w : BitVec 64) :
    TooLong (g.take last w) := by
  rcases h with ⟨p, hp, hlen⟩ | ⟨hnone, hlen⟩
  · exact .inl ⟨p, head?_of_prefix (g.complete_prefix_take last w) hp, hlen⟩
  · cases last with
    | true =>
        refine .inl ⟨g.current ++ [w], ?_, ?_⟩
        · rw [Packets.take_true, hnone]
          rfl
        · rw [List.length_append]
          exact hlen
    | false =>
        refine .inr ⟨hnone, ?_⟩
        rw [Packets.take_false, List.length_append]
        simp only [List.length_cons, List.length_nil]
        omega

theorem TooLong.watch (h : TooLong g) (s : State P) (i : Input) :
    TooLong (watchInput g s i) := by
  unfold watchInput
  split_ifs
  · exact h.take _ _
  · exact h

/-- An idle reader stays idle while no packet is counted. -/
theorem ReadIdle.next (h : ReadIdle s) (hin : s.wr.inPkts = 0) (i : Input) :
    ReadIdle (step s i) := by
  have hempty : bufNotEmpty s = false := by
    unfold bufNotEmpty
    rw [hin, h.outPkts]
    simp
  constructor
  · simp [step, readNext, h.outTvalid, hempty]
  · simp [step, readNext, h.outTvalid, h.outPkts]
  · simp [step, readNext, h.outTvalid, hempty, h.rdPos]

/-- `ST_WR_LEN` writes the count to the first slot of the packet. -/
theorem Written.next (h : Written s n) (i : Input) :
    Headed (step s i) n := by
  refine ⟨h.reader.next h.inPkts i, ?_, ?_, ?_, ?_, ?_⟩
  · simp [step, writeNext, h.inState, h.inPkts]
  · simp [step, writeNext, h.inState]
  · simp [step, writeNext, h.inState]
  · simp [step, writeNext, h.inState, h.wrStart]
  · simp only [step, writeNext, h.inState]
    rw [AxiStreamTsData.ramTdata_ramWord, setWidth_headerWord, h.wrCnt]

/-- `ST_WR_UPDATE` counts the packet. -/
theorem Headed.next (h : Headed s n) (i : Input) :
    Stored (step s i) n := by
  refine ⟨h.reader.next h.inPkts i, ?_, ?_⟩
  · simp [step, writeNext, h.inState, h.inPkts]
  · have hslot : ramNext s 0 = s.wr.wrDat := by
      simp [ramNext, h.wrEna, h.wrPos]
    change (ramTdata (ramNext s 0)).setWidth 16 = _
    rw [hslot, h.wrDat]

theorem Stored.next (h : Stored s n) (hdepth : 0 < P.depthBits) (i : Input) :
    Offered (step s i) n := by
  have hsome : bufNotEmpty s = true := by
    have hne : (1 : BitVec P.depthBits) ≠ 0 := fun heq =>
      hdepth.ne' (BitVec.one_eq_zero_iff.mp heq)
    unfold bufNotEmpty
    rw [h.inPkts, h.reader.outPkts]
    exact decide_eq_true hne
  have hword : rdWord s = s.rData 0 := by
    unfold rdWord
    rw [h.reader.rdPos]
    simp
  constructor
  · simp [step, readNext, h.reader.outTvalid, hsome]
  · simp only [step, readNext, h.reader.outTvalid, hsome, hword]
    exact h.rData

theorem Offered.next (h : Offered s n) (hready : i.outTready = false) :
    Offered (step s i) n := by
  have hstay : (step s i).rd = s.rd := by
    simp [step, readNext, h.outTvalid, hready]
  exact ⟨hstay ▸ h.outTvalid, hstay ▸ h.outTdata⟩

/-- A word is accepted that belongs to a packet of 2 to `MAX_PKT_LEN - 2` words:
it is not the only one, and there is room for the words that must follow. -/
structure FitsNow (s : State P) (i : Input) (g : Packets (BitVec 64)) :
    Prop where
  two_le : inCaptured s i = true → i.inTlast = true → 1 ≤ g.current.length
  le_max : inCaptured s i = true →
    g.current.length + (if i.inTlast then 1 else 2) ≤ P.maxPktLen - 2

/-- Words that fit are only dropped when `wr_cnt` cannot count them. -/
theorem intMaxSamples_bounds {k : Nat} (hk : k + 2 ≤ P.maxPktLen - 2) :
    P.intMaxSamples < k + 1 → 65537 < P.maxPktLen ∧ 2 ^ 16 ≤ k + 2 := by
  unfold Params.intMaxSamples Params.intMaxPktLen
  split_ifs <;> omega

theorem intMaxSamples_lt (P : Params) : P.intMaxSamples + 1 < 2 ^ 16 := by
  unfold Params.intMaxSamples Params.intMaxPktLen
  split_ifs <;> omega

/-- Without a word the writer waits. -/
theorem Filling.wait (h : Filling s g) (hena : i.ena = true)
    (hcap : inCaptured s i = false) :
    Filling (step s i) g := by
  have hreader := h.reader.next h.inPkts i
  rcases h.phase with ⟨hidle, hnone⟩ | ⟨hdata, hlen, hcnt⟩
  · have hwr : (step s i).wr = idleNext s i := by
      simp [step, writeNext, hidle]
    refine ⟨hreader, ?_, ?_, h.complete, .inl ⟨?_, hnone⟩⟩ <;>
      simp [hwr, idleNext, hcap, h.inPkts, h.wrStart]
  · have hwr : (step s i).wr =
        { s.wr with inTready := true, inState := .data, wrEna := false } := by
      simp [step, writeNext, hdata, dataNext, hcap, hena]
    refine ⟨hreader, ?_, ?_, h.complete, .inr ⟨?_, hlen, ?_⟩⟩ <;>
      simp [hwr, h.inPkts, h.wrStart, hcnt]

/-- The first word of the packet. -/
theorem Filling.first (h : Filling s g) (hena : i.ena = true)
    (hcap : inCaptured s i = true) (hidle : s.wr.inState = .idle)
    (hnone : g.current = []) :
    Filling (step s i) (g.take false i.inTdata) := by
  have hreader := h.reader.next h.inPkts i
  have hwr : (step s i).wr = idleNext s i := by
    simp [step, writeNext, hidle]
  refine ⟨hreader, ?_, ?_, h.complete, .inr ⟨?_, ?_, ?_⟩⟩ <;>
    simp [hwr, idleNext, hcap, hena, maxPktLenReg, h.inPkts, h.wrStart, hnone]

/-- A further word of the packet, which is not the last one. -/
theorem Filling.more (h : Filling s g) (hena : i.ena = true)
    (hcap : inCaptured s i = true) (hlast : i.inTlast = false)
    (hdata : s.wr.inState = .data)
    (hcnt : s.wr.wrCnt.toNat = g.current.length + 1)
    (hkeep : ¬ P.intMaxSamples < s.wr.wrCnt.toNat) :
    Filling (step s i) (g.take false i.inTdata) := by
  have hreader := h.reader.next h.inPkts i
  have hwr : (step s i).wr =
      { s.wr with
        inTready := true
        inState := .data
        wrPos := s.wr.wrPos + 1
        wrEna := true
        wrCnt := s.wr.wrCnt + 1
        wrDat := ramWord false i.inTdata } := by
    simp [step, writeNext, hdata, dataNext, hcap, hlast, hena, hkeep]
  have hcount : (s.wr.wrCnt + 1).toNat = g.current.length + 1 + 1 := by
    have hlt := intMaxSamples_lt P
    rw [BitVec.toNat_add_of_lt, hcnt]
    · rfl
    · change s.wr.wrCnt.toNat + 1 < 2 ^ 16
      omega
  refine ⟨hreader, ?_, ?_, h.complete, .inr ⟨?_, ?_, ?_⟩⟩
  · rw [hwr]
    exact h.inPkts
  · rw [hwr]
    exact h.wrStart
  · rw [hwr]
  · rw [Packets.take_false, List.length_append]
    exact Nat.le_add_left _ _
  · rw [hwr, Packets.take_false, List.length_append]
    exact hcount

/-- The last word of the packet. -/
theorem Filling.last (h : Filling s g) (hcap : inCaptured s i = true)
    (hlast : i.inTlast = true) (hdata : s.wr.inState = .data)
    (hcnt : s.wr.wrCnt.toNat = g.current.length + 1) :
    Written (step s i) (g.current ++ [i.inTdata]).length := by
  have hwr : (step s i).wr =
      { s.wr with
        inTready := false
        inState := .wrLen
        wrPos := s.wr.wrPos + 1
        wrEna := true
        wrCnt := s.wr.wrCnt + 1
        wrDat := ramWord true i.inTdata } := by
    simp [step, writeNext, hdata, dataNext, hcap, hlast]
  have hcount : s.wr.wrCnt = BitVec.ofNat 16 (g.current.length + 1) := by
    rw [← hcnt, BitVec.ofNat_toNat, BitVec.setWidth_eq]
  refine ⟨h.reader.next h.inPkts i, ?_, ?_, ?_, ?_⟩
  · rw [hwr]
    exact h.inPkts
  · rw [hwr]
    exact h.wrStart
  · rw [hwr]
  · rw [hwr, hcount, List.length_append]
    exact (BitVec.ofNat_add ..).symm

/-- What a clock does to the first packet. -/
theorem Filling.next (h : Filling s g) (hena : i.ena = true)
    (hfit : FitsNow s i g) :
    Filling (step s i) (watchInput g s i) ∨
      (∃ p, (watchInput g s i).complete = [p] ∧ Written (step s i) p.length) ∨
      (65537 < P.maxPktLen ∧ TooLong (watchInput g s i)) := by
  unfold watchInput
  cases hcap : inCaptured s i with
  | false => exact .inl (h.wait hena hcap)
  | true =>
      have htwo := hfit.two_le hcap
      have hmax := hfit.le_max hcap
      rw [if_pos rfl]
      cases hlast : i.inTlast with
      | true =>
          rcases h.phase with ⟨_, hnone⟩ | ⟨hdata, _, hcnt⟩
          · exact absurd (htwo hlast) (by simp [hnone])
          · refine .inr (.inl ⟨_, ?_, h.last hcap hlast hdata hcnt⟩)
            rw [Packets.take_true, h.complete]
            rfl
      | false =>
          rcases h.phase with ⟨hidle, hnone⟩ | ⟨hdata, _, hcnt⟩
          · exact .inl (h.first hena hcap hidle hnone)
          · by_cases hdrop : P.intMaxSamples < s.wr.wrCnt.toNat
            · -- a packet that `wr_cnt` cannot count
              rw [hlast, if_neg (by simp)] at hmax
              rw [hcnt] at hdrop
              obtain ⟨hbig, hlong⟩ := intMaxSamples_bounds hmax hdrop
              refine .inr (.inr ⟨hbig, .inr ⟨h.complete, ?_⟩⟩)
              rw [Packets.take_false, List.length_append]
              exact hlong
            · exact .inl (h.more hena hcap hlast hdata hcnt hdrop)

end FirstPacket

/-- A run after reset with `ena` held high. -/
structure Run (P : Params) where
  before : State P
  input : Nat → Input
  ena : ∀ t, (input t).ena = true

namespace Run

variable (r : Run P)

/-- Registers before clock edge `t`. -/
def state (t : Nat) : State P :=
  run step (reset r.before) r.input t

/-- Packets accepted before clock `t`. -/
def accepted (t : Nat) : Packets (BitVec 64) :=
  observe step watchInput (reset r.before) Packets.none r.input t

/-- Words sent before clock `t`, each with `out_tlast`. -/
def sent (t : Nat) : List (Bool × BitVec 64) :=
  eventsBefore
    (fun u =>
      if outCaptured (r.state u) (r.input u) then
        [((r.state u).rd.outTlast, (r.state u).rd.outTdata)]
      else [])
    t

/-- The input packets have 2 to `MAX_PKT_LEN - 2` words. -/
def PacketsFit : Prop :=
  ∀ t, FitsNow (r.state t) (r.input t) (r.accepted t)

/-- The words sent before clock `t` are those of the frames of complete input
packets, in order. -/
def Framed (t : Nat) : Prop :=
  ∃ ps fs, ps <+: (r.accepted t).complete ∧
    List.Forall₂ IsFrame fs ps ∧ r.sent t <+: fs.flatten

/-- In clock `a` the last word of the first packet is accepted. -/
structure Completes (a : Nat) (p : List (BitVec 64)) : Prop where
  none_before : (r.accepted a).complete = []
  complete : (r.accepted (a + 1)).complete = [p]
  written : Written (r.state (a + 1)) p.length
  sent : r.sent (a + 1) = []

theorem accepted_succ (t : Nat) :
    r.accepted (t + 1) =
      watchInput (r.accepted t) (r.state t) (r.input t) := by
  rfl

theorem complete_prefix {t u : Nat} (htu : t ≤ u) :
    (r.accepted t).complete <+: (r.accepted u).complete := by
  induction u, htu using Nat.le_induction with
  | base => exact List.prefix_refl _
  | succ u _ ih =>
      refine ih.trans ?_
      rw [accepted_succ, watchInput]
      split_ifs
      · exact Packets.complete_prefix_take ..
      · exact List.prefix_refl _

theorem sent_prefix {t u : Nat} (htu : t ≤ u) :
    r.sent t <+: r.sent u :=
  eventsBefore_prefix _ htu

variable {r}

/-- Nothing is sent while the output is not valid. -/
theorem sent_succ_of_not_valid {t : Nat}
    (hvalid : (r.state t).rd.outTvalid = false) :
    r.sent (t + 1) = r.sent t := by
  unfold sent
  rw [eventsBefore_succ]
  simp [outCaptured, hvalid]

theorem sent_succ_of_valid {t : Nat}
    (hvalid : (r.state t).rd.outTvalid = true) :
    r.sent (t + 1) = r.sent t ++
      if (r.input t).outTready then
        [((r.state t).rd.outTlast, (r.state t).rd.outTdata)]
      else [] := by
  unfold sent
  rw [eventsBefore_succ]
  simp [outCaptured, hvalid]

/-- Up to the end of the first packet. -/
theorem filling_or (hfit : r.PacketsFit) (t : Nat) :
    (Filling (r.state t) (r.accepted t) ∧ r.sent t = []) ∨
      (65537 < P.maxPktLen ∧ TooLong (r.accepted t)) ∨
      ∃ a p, a < t ∧ r.Completes a p := by
  induction t with
  | zero =>
      exact .inl ⟨⟨⟨rfl, rfl, rfl⟩, rfl, rfl, rfl, .inl ⟨rfl, rfl⟩⟩, rfl⟩
  | succ t ih =>
      rcases ih with ⟨hfill, hsent⟩ | ⟨hbig, hlong⟩ | ⟨a, p, hat, hfirst⟩
      · have hquiet : r.sent (t + 1) = [] := by
          rw [sent_succ_of_not_valid hfill.reader.outTvalid, hsent]
        rcases hfill.next (r.ena t) (hfit t) with
          hnext | ⟨p, hcomplete, hwritten⟩ | hlong
        · exact .inl ⟨hnext, hquiet⟩
        · exact .inr (.inr ⟨t, p, Nat.lt_succ_self t,
            hfill.complete, hcomplete, hwritten, hquiet⟩)
        · exact .inr (.inl hlong)
      · exact .inr (.inl ⟨hbig, hlong.watch _ _⟩)
      · exact .inr (.inr ⟨a, p, by omega, hfirst⟩)

/-- Four clocks after its last word the header of the first packet is on the
output. -/
theorem Completes.offered {a : Nat} {p : List (BitVec 64)}
    (h : r.Completes a p) (hdepth : 0 < P.depthBits) :
    Offered (r.state (a + 4)) p.length ∧ r.sent (a + 4) = [] := by
  have hheaded : Headed (r.state (a + 2)) p.length := h.written.next _
  have hstored : Stored (r.state (a + 3)) p.length := hheaded.next _
  refine ⟨hstored.next hdepth _, ?_⟩
  rw [sent_succ_of_not_valid hstored.reader.outTvalid,
    sent_succ_of_not_valid hheaded.reader.outTvalid,
    sent_succ_of_not_valid h.written.reader.outTvalid, h.sent]

/-- It stays there until the reader takes it. -/
theorem Completes.header {a : Nat} {p : List (BitVec 64)}
    (h : r.Completes a p) (hdepth : 0 < P.depthBits)
    {t : Nat} (hat : a + 4 ≤ t) :
    (r.sent t = [] ∧ Offered (r.state t) p.length ∧
      ∀ u, a + 4 ≤ u → u < t → (r.input u).outTready = false) ∨
    ((∃ w ws, r.sent t = w :: ws ∧
      w.2.setWidth 16 = BitVec.ofNat 16 (p.length + 1)) ∧
      ∃ u, a + 4 ≤ u ∧ u < t ∧ (r.input u).outTready = true) := by
  induction t, hat using Nat.le_induction with
  | base =>
      obtain ⟨hoffered, hsent⟩ := h.offered hdepth
      exact .inl ⟨hsent, hoffered, fun u _ _ => by omega⟩
  | succ t hat ih =>
      rcases ih with ⟨hsent, hoffered, hlow⟩ | ⟨⟨w, ws, hsent, hw⟩, u, hau, hut, hu⟩
      · have hnext := sent_succ_of_valid hoffered.outTvalid
        rw [hsent, List.nil_append] at hnext
        cases hready : (r.input t).outTready with
        | false =>
            rw [hready, if_neg (by simp)] at hnext
            refine .inl ⟨hnext, hoffered.next hready, fun u hau hut => ?_⟩
            rcases Nat.lt_succ_iff_lt_or_eq.mp hut with hlt | rfl
            · exact hlow u hau hlt
            · exact hready
        | true =>
            rw [hready, if_pos rfl] at hnext
            exact .inr ⟨⟨_, _, hnext, hoffered.outTdata⟩,
              t, hat, Nat.lt_succ_self t, hready⟩
      · refine .inr ⟨?_, u, hau, by omega, hu⟩
        obtain ⟨rest, hrest⟩ := r.sent_prefix (Nat.le_succ t)
        exact ⟨w, ws ++ rest, by rw [← hrest, hsent, List.cons_append], hw⟩

/-- The length field of no packet is its number of words. -/
theorem not_framed (hdepth : 0 < P.depthBits) (hfit : r.PacketsFit) {t : Nat}
    (hsome : r.sent t ≠ []) :
    ¬ r.Framed t := by
  rintro ⟨ps, fs, hps, hframes, hpre⟩
  obtain ⟨w, ws, hw⟩ := List.exists_cons_of_ne_nil hsome
  rw [hw] at hpre
  obtain ⟨q, hq, hlen⟩ := head_of_isFrame hframes hpre
  have hhead := head?_of_prefix hps hq
  have hlt : q.length < 2 ^ 16 := hlen ▸ (w.2.setWidth 16).isLt
  rcases r.filling_or hfit t with
    ⟨_, hnone⟩ | ⟨_, ⟨p, hp, hlong⟩ | ⟨hnone, _⟩⟩ | ⟨a, p, hat, hfirst⟩
  · exact hsome hnone
  · rw [hhead, Option.some_inj] at hp
    rw [← hp] at hlong
    omega
  · rw [hnone] at hhead
    exact absurd hhead (by simp)
  · by_cases hearly : t ≤ a + 4
    · have hnil := r.sent_prefix hearly
      rw [(hfirst.offered hdepth).2] at hnil
      exact hsome (List.prefix_nil.mp hnil)
    · have hp : (r.accepted t).complete.head? = some p :=
        head?_of_prefix (r.complete_prefix hat) (by rw [hfirst.complete]; rfl)
      rw [hhead, Option.some_inj] at hp
      rcases hfirst.header hdepth (by omega : a + 4 ≤ t) with
        ⟨hnone, _⟩ | ⟨⟨v, vs, hv, hcount⟩, _⟩
      · exact hsome hnone
      · rw [hw] at hv
        obtain ⟨rfl, rfl⟩ := List.cons.inj hv
        rw [hcount, ← hp, BitVec.toNat_ofNat] at hlen
        omega

/-- A word has been sent as soon as the reader was ready with a packet that was
complete three clocks earlier. -/
theorem sent_eq_nil_iff (hdepth : 0 < P.depthBits) (hfit : r.PacketsFit)
    (hmax : P.maxPktLen ≤ 65537) (t : Nat) :
    r.sent t = [] ↔
      ∀ u < t, (r.input u).outTready = true →
        (r.accepted (u - 3)).complete = [] := by
  have hback : ∀ {b c : Nat}, b ≤ c → (r.accepted c).complete = [] →
      (r.accepted b).complete = [] := by
    intro b c hbc hnone
    exact List.prefix_nil.mp (hnone ▸ r.complete_prefix hbc)
  rcases r.filling_or hfit t with
    ⟨hfill, hnone⟩ | ⟨hbig, _⟩ | ⟨a, p, hat, hfirst⟩
  · exact ⟨fun _ u hu _ => hback (by omega) hfill.complete, fun _ => hnone⟩
  · omega
  · by_cases hearly : t ≤ a + 4
    · have hnil := r.sent_prefix hearly
      rw [(hfirst.offered hdepth).2] at hnil
      exact ⟨fun _ u hu _ => hback (by omega) hfirst.none_before,
        fun _ => List.prefix_nil.mp hnil⟩
    · rcases hfirst.header hdepth (by omega : a + 4 ≤ t) with
        ⟨hnone, _, hlow⟩ | ⟨⟨w, ws, hw, _⟩, u, hau, hut, hu⟩
      · refine ⟨fun _ u hu hready => ?_, fun _ => hnone⟩
        refine hback (Nat.le_of_not_lt fun hlt => ?_) hfirst.none_before
        exact absurd (hlow u (by omega) hu) (by simp [hready])
      · refine ⟨fun hnone => absurd (hw.symm.trans hnone) (List.cons_ne_nil _ _),
          fun hall => ?_⟩
        have hlate := hback (by omega : a + 1 ≤ u - 3) (hall u hut hu)
        rw [hfirst.complete] at hlate
        exact absurd hlate (List.cons_ne_nil _ _)

/-- **No frame is right.** As soon as a word has been sent the output is not
what the packets ask for. -/
theorem framed_iff (h3 : 3 ≤ P.maxPktLen) (hdepth : P.maxPktLen < 2 ^ P.depthBits)
    (hfit : r.PacketsFit) (t : Nat) :
    (r.Framed t ↔ r.sent t = []) ∧
      (P.maxPktLen ≤ 65537 →
        (r.Framed t ↔
          ∀ u < t, (r.input u).outTready = true →
            (r.accepted (u - 3)).complete = [])) := by
  have hpos : 0 < P.depthBits := by
    rcases Nat.eq_zero_or_pos P.depthBits with hzero | hpos
    · rw [hzero] at hdepth
      omega
    · exact hpos
  have hiff : r.Framed t ↔ r.sent t = [] := by
    constructor
    · intro hframed
      by_contra hsome
      exact not_framed hpos hfit hsome hframed
    · intro hnone
      exact ⟨[], [], List.nil_prefix, .nil, hnone ▸ List.nil_prefix⟩
  exact ⟨hiff, fun hmax => hiff.trans (sent_eq_nil_iff hpos hfit hmax t)⟩

/-- The words 1 and 2 as one packet, for a reader that is always ready. The RAM
holds the word 99 in every slot. -/
def twoWords : Run ⟨7, 5, 3⟩ :=
  { before :=
      { rData := fun _ => ramWord false 99
        rd := ⟨0, 0, false, false, 0⟩
        chk := ⟨false, 0⟩
        wr := ⟨0, false, 0, false, 0, 0, 0, 0, .idle⟩ }
    input := fun t =>
      { ena := true
        inTdata := if t ≤ 2 then 1 else 2
        inTvalid := decide (t ≤ 3)
        inTlast := decide (3 ≤ t)
        outTready := true }
    ena := fun _ => rfl }

theorem packetsFit_twoWords : twoWords.PacketsFit := by
  intro t
  by_cases hearly : t ≤ 3
  · interval_cases t <;>
      exact ⟨by decide +kernel, by decide +kernel⟩
  · have hnone : inCaptured (twoWords.state t) (twoWords.input t) = false := by
      simp [inCaptured, twoWords, hearly]
    exact ⟨fun h => absurd (hnone.symm.trans h) (by simp),
      fun h => absurd (hnone.symm.trans h) (by simp)⟩

/-- The header is taken in clock 7. -/
theorem framed_iff_twoWords :
    twoWords.Framed 7 ∧ ¬ twoWords.Framed 8 :=
  ⟨(framed_iff (by decide) (by decide) packetsFit_twoWords 7).1.mpr
      (by decide +kernel),
    fun hframed =>
      absurd ((framed_iff (by decide) (by decide) packetsFit_twoWords 8).1.mp
        hframed) (by decide +kernel)⟩

/-- The two words come behind a word of the RAM that the packet did not write,
and the header counts all three. -/
theorem not_framed_twoWords :
    twoWords.PacketsFit ∧
      (twoWords.accepted 4).complete = [[1, 2]] ∧
      twoWords.sent 11 =
        [(false, headerWord ⟨7, 5, 3⟩ 1 3), (false, 99), (false, 1), (true, 2)] ∧
      ¬ ∀ t, twoWords.Framed t := by
  refine ⟨packetsFit_twoWords, by decide +kernel, by decide +kernel, ?_⟩
  intro hall
  exact not_framed (by decide) packetsFit_twoWords (by decide +kernel) (hall 8)

end Run

end LenPrepender
end MollerFirmware
