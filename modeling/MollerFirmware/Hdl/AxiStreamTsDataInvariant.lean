import MollerFirmware.Hdl.AxiStreamTsDataLedger

/-!
# axi_stream_ts_data: the invariant

The registers of the packet buffer, related to the ledger of the run. Every
pointer is the residue of an unbounded position, and all positions are measured
from the number of RAM words the read side has loaded:

* from `loaded` to `commitPos` the RAM holds the committed words that are still
  to be read;
* from `commitPos` on, behind a gap of two words, it holds the payload of the
  packet that is being written, where the write that is pending in `wr_ena`,
  `wr_pos` and `wr_dat` counts as done;
* the free space check is two clocks late, so what `used` and `space_check`
  promise depends on how long ago `wr_start` moved.

The read side and the write side are treated separately. `read_step` moves the
read side only; the lemmas about the states of the write machine then add the
words that are written.
-/

namespace MollerFirmware
namespace AxiStreamTsData

open Clocked

variable {P : Params}

/-- Position that `wr_start` stands for: the end of the committed words, or the
end of the packet whose header and timestamp are being written. -/
def startPos (s : State P) (g : Ledger) : Nat :=
  match s.wr.inState with
  | .wrTs => g.commitPos P + (g.building.length + 2)
  | .wrUpdate => g.commitPos P + (g.building.length + 2)
  | _ => g.commitPos P

/-- The read side agrees with the ledger. -/
structure ReadInv (s : State P) (g : Ledger) : Prop where
  rdPos : s.rd.rdPos = BitVec.ofNat _ g.loaded
  held : Holds s.rData g.loaded ((g.unread P).map Beat.ram)
  idle : s.rd.outTvalid = false → g.sending = []
  busy : s.rd.outTvalid = true → Closing (outBeat s :: g.sending)
  notFirst : ∀ b ∈ g.sending, b.tfirst = false
  queueWf : ∀ p ∈ g.queue, p.words ≠ []
  pkts : s.wr.inPkts = s.rd.outPkts +
    BitVec.ofNat _ (g.queue.length + if s.rd.outTvalid then 1 else 0)

/-- Words not yet transferred: the one on the output and the unread ones. -/
def pending (s : State P) (g : Ledger) : List Beat :=
  (if s.rd.outTvalid then [outBeat s] else []) ++ g.unread P

/-- A queued packet takes at least three words. -/
theorem three_mul_queue_length_le
    {g : Ledger} (hwf : ∀ p ∈ g.queue, p.words ≠ []) :
    3 * g.queue.length ≤ (g.unread P).length := by
  have hqueue : ∀ q : List Packet, (∀ p ∈ q, p.words ≠ []) →
      3 * q.length ≤ (q.flatMap (Packet.beats P)).length := by
    intro q
    induction q with
    | nil =>
        simp
    | cons p q ih =>
        intro hq
        have htail := ih fun r hr => hq r (List.mem_cons_of_mem p hr)
        have hp : 0 < p.words.length :=
          List.length_pos_iff.mpr (hq p (by simp))
        simp only [List.flatMap_cons, List.length_append, List.length_cons,
          Packet.beats_length]
        omega
  have := hqueue g.queue hwf
  simp only [Ledger.unread, List.length_append]
  omega

/-- While nothing is on the output, the packet counters differ exactly when a
committed packet is waiting. -/
theorem bufNotEmpty_iff
    {s : State P} {g : Ledger} (h : ReadInv s g)
    (hfits : (g.unread P).length ≤ 2 ^ P.depthBits)
    (hv : s.rd.outTvalid = false) :
    bufNotEmpty s = true ↔ g.queue ≠ [] := by
  have hlen := three_mul_queue_length_le (P := P) h.queueWf
  have hpkts := h.pkts
  rw [hv] at hpkts
  cases hq : g.queue with
  | nil =>
      rw [hq] at hpkts
      simp [bufNotEmpty, hpkts]
  | cons p q =>
      have hne : BitVec.ofNat P.depthBits 0 ≠
          BitVec.ofNat P.depthBits g.queue.length :=
        ofNat_ne_ofNat (by simp [hq]) (by rw [hq] at hlen ⊢; simp at hlen ⊢; omega)
      simp only [bufNotEmpty, ne_eq, decide_eq_true_eq, reduceCtorEq,
        not_false_eq_true, iff_true]
      intro heq
      apply hne
      have hcancel : s.rd.outPkts + BitVec.ofNat _ g.queue.length =
          s.rd.outPkts + 0#_ := by
        simpa [heq] using hpkts.symm
      exact ((BitVec.add_right_inj _).mp hcancel).symm

/-- The word at the read pointer is the first unread one. -/
theorem rdWord_eq
    {s : State P} {g : Ledger} (h : ReadInv s g)
    {b : Beat} {bs : List Beat} (hu : g.unread P = b :: bs) :
    rdWord s = b.ram := by
  have hheld := h.held
  rw [hu, List.map_cons, holds_cons] at hheld
  unfold rdWord
  rw [h.rdPos, BitVec.setWidth_ofNat_of_le (by omega)]
  exact hheld.1

/-- Once the first unread word has been loaded the RAM holds the others. -/
theorem ReadInv.held_tail
    {s : State P} {g g' : Ledger} (h : ReadInv s g) {b : Beat}
    (hunread : g.unread P = b :: g'.unread P)
    (hloaded : g'.loaded = g.loaded + 1) :
    Holds s.rData g'.loaded ((g'.unread P).map Beat.ram) := by
  have hheld := h.held
  rw [hunread, List.map_cons, holds_cons] at hheld
  rw [hloaded]
  exact hheld.2

/-- Loading a word does not move the commit position. -/
theorem commitPos_of_load
    {g g' : Ledger} {b : Beat}
    (hunread : g.unread P = b :: g'.unread P)
    (hloaded : g'.loaded = g.loaded + 1) :
    g'.commitPos P = g.commitPos P := by
  unfold Ledger.commitPos
  rw [hunread, hloaded, List.length_cons]
  omega

/-- What one clock of the read side does to the books: it keeps the relation,
moves no commit position, and the words that leave are the pending ones. -/
structure ReadStep (s : State P) (g : Ledger) (i : Input) : Prop where
  inv : ReadInv { s with rd := readNext s i } (g.read s i)
  commitPos : (g.read s i).commitPos P = g.commitPos P
  loaded : g.loaded ≤ (g.read s i).loaded
  flow : transfer s i ++ pending { s with rd := readNext s i } (g.read s i) =
    pending s g

/-- Nothing happens while the receiver stalls. -/
theorem read_step_stalled
    {s : State P} {g : Ledger} (h : ReadInv s g) {i : Input}
    (hv : s.rd.outTvalid = true) (hr : i.outTready = false) :
    ReadStep s g i := by
  have hnext : readNext s i = s.rd := by
    simp [readNext, hv, hr]
  have hbooks : g.read s i = g := by
    simp [Ledger.read, hv, hr]
  refine ⟨?_, by rw [hbooks], by rw [hbooks], ?_⟩
  · rw [hnext, hbooks]
    exact h
  · rw [hnext, hbooks]
    simp [transfer, hr]

/-- The last word of a packet is transferred and the output becomes empty. -/
theorem read_step_last
    {s : State P} {g : Ledger} (h : ReadInv s g) {i : Input}
    (hv : s.rd.outTvalid = true) (hr : i.outTready = true)
    (hl : s.rd.outTlast = true) :
    ReadStep s g i := by
  have hbooks : g.read s i = g := by
    simp [Ledger.read, hv, hr, hl]
  have hnone : g.sending = [] :=
    (h.busy hv).tail_of_last hl
  have hpkts := h.pkts
  rw [hv, if_pos rfl, BitVec.ofNat_add] at hpkts
  refine ⟨?_, by rw [hbooks], by rw [hbooks], ?_⟩
  · rw [hbooks]
    refine ⟨?_, h.held, fun _ => hnone, ?_, h.notFirst, h.queueWf, ?_⟩
    · simpa [readNext, hv, hr, hl] using h.rdPos
    · intro hbusy
      simp [readNext, hv, hr, hl] at hbusy
    · simp only [readNext, hv, hr, hl, if_true, Bool.false_eq_true, if_false,
        Nat.add_zero]
      rw [hpkts, BitVec.add_assoc, BitVec.add_comm (1 : BitVec P.depthBits)]
      rfl
  · rw [hbooks]
    simp [transfer, pending, readNext, hv, hr, hl, Ledger.unread]

/-- A word that is not the last is transferred and the next one is loaded. -/
theorem read_step_next
    {s : State P} {g : Ledger} (h : ReadInv s g) {i : Input}
    (hv : s.rd.outTvalid = true) (hr : i.outTready = true)
    (hl : s.rd.outTlast = false) :
    ReadStep s g i := by
  have hclosing := (h.busy hv).tail_of_not_last hl
  obtain ⟨b, bs, hsend⟩ : ∃ b bs, g.sending = b :: bs := by
    cases hs : g.sending with
    | nil => rw [hs] at hclosing; exact hclosing.elim
    | cons b bs => exact ⟨b, bs, rfl⟩
  have hbooks : g.read s i =
      { g with loaded := g.loaded + 1, sending := bs } := by
    simp [Ledger.read, hv, hr, hl, hsend]
  have hunread : g.unread P = b :: (g.read s i).unread P := by
    simp [hbooks, Ledger.unread, hsend]
  have hloaded : (g.read s i).loaded = g.loaded + 1 := by
    rw [hbooks]
  have hword := rdWord_eq h hunread
  have hout : outBeat { s with rd := readNext s i } = b := by
    have hregs : outBeat { s with rd := readNext s i } =
        ⟨false, b.tlast, b.tdata⟩ := by
      simp [outBeat, readNext, hv, hr, hl, hword, Beat.ram]
    rw [hregs, ← h.notFirst b (by simp [hsend])]
  have hvalid : (readNext s i).outTvalid = true := by
    simp [readNext, hv, hr, hl]
  refine ⟨⟨?_, ?_, ?_, ?_, ?_, ?_, ?_⟩, ?_, ?_, ?_⟩
  · simp only [readNext, hv, hr, hl, if_true, Bool.false_eq_true, if_false,
      hbooks, h.rdPos]
    exact ofNat_add_ofNat _ _ 1
  · exact h.held_tail hunread hloaded
  · intro hidle
    simp [hvalid] at hidle
  · intro _
    rw [hout, hbooks]
    rw [hsend] at hclosing
    exact hclosing
  · intro c hc
    exact h.notFirst c (by rw [hsend]; simp [hbooks] at hc; simp [hc])
  · simpa [hbooks] using h.queueWf
  · have hpkts := h.pkts
    rw [hv] at hpkts
    simpa [readNext, hv, hr, hl, hbooks] using hpkts
  · exact commitPos_of_load hunread hloaded
  · rw [hloaded]
    exact Nat.le_succ _
  · unfold pending
    rw [hout, hvalid, hunread]
    simp [transfer, hv, hr]

/-- Nothing is on the output and no packet waits. -/
theorem read_step_empty
    {s : State P} {g : Ledger} (h : ReadInv s g) (i : Input)
    (hfits : (g.unread P).length ≤ 2 ^ P.depthBits)
    (hv : s.rd.outTvalid = false) (hq : g.queue = []) :
    ReadStep s g i := by
  have hnone := h.idle hv
  have hbuf : bufNotEmpty s = false := by
    simpa [hq] using bufNotEmpty_iff h hfits hv
  have hbooks : g.read s i = g := by
    simp [Ledger.read, hv, hq]
  refine ⟨?_, by rw [hbooks], by rw [hbooks], ?_⟩
  · rw [hbooks]
    refine ⟨?_, h.held, fun _ => hnone, ?_, h.notFirst, h.queueWf, ?_⟩
    · simpa [readNext, hv, hbuf] using h.rdPos
    · intro hbusy
      simp [readNext, hv, hbuf] at hbusy
    · have hpkts := h.pkts
      rw [hv] at hpkts
      simpa [readNext, hv, hbuf] using hpkts
  · rw [hbooks]
    simp [transfer, pending, readNext, hv, hbuf]

/-- With nothing on the output, the header of a waiting packet is loaded. -/
theorem read_step_load
    {s : State P} {g : Ledger} (h : ReadInv s g) (i : Input)
    (hfits : (g.unread P).length ≤ 2 ^ P.depthBits)
    (hv : s.rd.outTvalid = false)
    {p : Packet} {q : List Packet} (hq : g.queue = p :: q) :
    ReadStep s g i := by
  have hnone := h.idle hv
  have hbuf : bufNotEmpty s = true := by
    simpa [hq] using bufNotEmpty_iff h hfits hv
  have hbooks : g.read s i =
      { g with
        loaded := g.loaded + 1
        sending := (p.beats P).tail
        queue := q } := by
    simp [Ledger.read, hv, hq]
  have hunread : g.unread P =
      ⟨true, false, headerWord P p.seq p.len⟩ :: (g.read s i).unread P := by
    simp [hbooks, Ledger.unread, hnone, hq, Packet.beats]
  have hloaded : (g.read s i).loaded = g.loaded + 1 := by
    rw [hbooks]
  have hword := rdWord_eq h hunread
  have hp : p.words ≠ [] := h.queueWf p (by simp [hq])
  have hout : outBeat { s with rd := readNext s i } =
      ⟨true, false, headerWord P p.seq p.len⟩ := by
    simp [outBeat, readNext, hv, hbuf, hword, Beat.ram]
  have hvalid : (readNext s i).outTvalid = true := by
    simp [readNext, hv, hbuf]
  refine ⟨⟨?_, ?_, ?_, ?_, ?_, ?_, ?_⟩, ?_, ?_, ?_⟩
  · simp only [readNext, hv, hbuf, if_true, Bool.false_eq_true, if_false,
      hbooks, h.rdPos]
    exact ofNat_add_ofNat _ _ 1
  · exact h.held_tail hunread hloaded
  · intro hidle
    simp [hvalid] at hidle
  · intro _
    rw [hout, hbooks]
    exact Packet.closing_beats P hp
  · intro b hb
    have hb' : b = ⟨false, false, firstTimestamp p.words⟩ ∨
        b ∈ payloadBeats p.payload := by
      simpa [hbooks, Packet.beats] using hb
    rcases hb' with rfl | hb'
    · rfl
    · exact payloadBeats_tfirst _ b hb'
  · intro r hr
    exact h.queueWf r (by rw [hq]; simp [hbooks] at hr; simp [hr])
  · have hpkts := h.pkts
    rw [hv, hq] at hpkts
    simpa [readNext, hv, hbuf, hbooks] using hpkts
  · exact commitPos_of_load hunread hloaded
  · rw [hloaded]
    exact Nat.le_succ _
  · unfold pending
    rw [hout, hvalid, hunread]
    simp [transfer, hv]

/-- Every clock of the read side. -/
theorem read_step
    {s : State P} {g : Ledger} (h : ReadInv s g) (i : Input)
    (hfits : (g.unread P).length ≤ 2 ^ P.depthBits) :
    ReadStep s g i := by
  cases hv : s.rd.outTvalid with
  | false =>
      cases hq : g.queue with
      | nil => exact read_step_empty h i hfits hv hq
      | cons p q => exact read_step_load h i hfits hv hq
  | true =>
      cases hr : i.outTready with
      | false => exact read_step_stalled h hv hr
      | true =>
          cases hl : s.rd.outTlast with
          | false => exact read_step_next h hv hr hl
          | true => exact read_step_last h hv hr hl

/-- The RAM has room for a packet of maximal length behind the committed
words. -/
def Room (P : Params) (g : Ledger) : Prop :=
  g.commitPos P + P.maxPktLen < g.loaded + 2 ^ P.depthBits

/-- The free space check agrees with the ledger, as far as its delay of two
clocks allows. -/
structure SpaceInv (s : State P) (g : Ledger) : Prop where
  wrStart : s.wr.wrStart = BitVec.ofNat _ (startPos s g)
  fits : startPos s g ≤ g.loaded + 2 ^ P.depthBits
  used_le : s.chk.used.toNat ≤ 2 ^ P.depthBits
  used_ge : s.wr.inState ≠ .wrTs →
    startPos s g ≤ g.loaded + s.chk.used.toNat
  check : s.chk.spaceCheck = true → s.wr.inState ≠ .wrTs →
    s.wr.inState ≠ .wrUpdate →
    startPos s g + P.maxPktLen < g.loaded + 2 ^ P.depthBits

/-- RAM words of the payload of a closed packet. -/
def payloadRam (g : Ledger) : List (BitVec 65) :=
  (payloadBeats g.nextPacket.payload).map Beat.ram

/-- What holds from the first word of a packet to its commit. -/
structure OpenInv (s : State P) (g : Ledger) : Prop where
  nonempty : g.building ≠ []
  seq : s.wr.numPktsIn = BitVec.ofNat 32 (g.committed.length + 1)
  timestamp : s.wr.rTimestamp = firstTimestamp g.building
  size : g.building.length + 2 ≤ max P.intMaxPktLen 4

/-- `ST_IDLE` -/
structure IdleInv (s : State P) (g : Ledger) : Prop where
  empty : g.building = []
  kept : g.dropped = false
  wrEna : s.wr.wrEna = false
  seq : s.wr.numPktsIn = BitVec.ofNat 32 g.committed.length
  room : s.wr.inTready = true → Room P g

/-- `ST_DATA` -/
structure DataInv (s : State P) (g : Ledger) : Prop extends OpenInv s g where
  ready : s.wr.inTready = true
  kept : g.dropped = false
  wrPos : s.wr.wrPos =
    BitVec.ofNat _ (g.commitPos P + 1 + g.building.length)
  cnt : s.wr.wrCnt = BitVec.ofNat 16 (g.building.length + 1)
  limit : s.wr.maxSamples.toNat + 1 ≤ P.intMaxSamples
  more : g.building.length = 1 ∨ g.building.length ≤ s.wr.maxSamples.toNat
  last : ∃ init w, g.building = init ++ [w] ∧ s.wr.wrDat = ramWord false w.1
  stored : Holds (ramNext s) (g.commitPos P + 2)
    (g.building.map fun w => ramWord false w.1)
  room : Room P g

/-- `ST_WR_LEN` -/
structure LenInv (s : State P) (g : Ledger) : Prop extends OpenInv s g where
  ready : s.wr.inTready = false
  wrPos : s.wr.wrPos =
    BitVec.ofNat _ (g.commitPos P + 1 + g.building.length)
  cnt : s.wr.wrCnt = g.nextPacket.len
  stored : Holds (ramNext s) (g.commitPos P + 2) (payloadRam g)
  room : Room P g

/-- `ST_WR_TS` -/
structure TsInv (s : State P) (g : Ledger) : Prop extends OpenInv s g where
  ready : s.wr.inTready = false
  wrPos : s.wr.wrPos = BitVec.ofNat _ (g.commitPos P)
  header : Holds (ramNext s) (g.commitPos P)
    [ramWord false (headerWord P g.nextPacket.seq g.nextPacket.len)]
  stored : Holds (ramNext s) (g.commitPos P + 2) (payloadRam g)

/-- `ST_WR_UPDATE` -/
structure UpdateInv (s : State P) (g : Ledger) : Prop extends OpenInv s g where
  ready : s.wr.inTready = false
  wrPos : s.wr.wrPos = BitVec.ofNat _ (g.commitPos P + 1)
  stored : Holds (ramNext s) (g.commitPos P)
    ((g.nextPacket.beats P).map Beat.ram)

/-- The write machine agrees with the ledger. -/
def WriteInv (s : State P) (g : Ledger) : Prop :=
  match s.wr.inState with
  | .idle => IdleInv s g
  | .data => DataInv s g
  | .wrLen => LenInv s g
  | .wrTs => TsInv s g
  | .wrUpdate => UpdateInv s g

/-- Every committed packet has a payload and at most the maximal length. -/
def BooksInv (P : Params) (g : Ledger) : Prop :=
  ∀ p ∈ g.committed, p.words ≠ [] ∧ p.words.length + 2 ≤ max P.intMaxPktLen 4

/-- The invariant of the packet buffer. -/
structure Inv (s : State P) (g : Ledger) : Prop where
  read : ReadInv s g
  space : SpaceInv s g
  write : WriteInv s g
  books : BooksInv P g

theorem intMaxPktLen_le
    (h3 : 3 ≤ P.maxPktLen) :
    P.intMaxPktLen ≤ P.maxPktLen := by
  unfold Params.intMaxPktLen
  split_ifs <;> omega

theorem intMaxPktLen_le_65536 (P : Params) :
    P.intMaxPktLen ≤ 65536 := by
  unfold Params.intMaxPktLen
  split_ifs <;> omega

theorem three_le_intMaxPktLen (P : Params) :
    3 ≤ P.intMaxPktLen := by
  unfold Params.intMaxPktLen
  split_ifs <;> omega

/-- A nonzero sample count is clamped to the payload a packet can hold. -/
theorem maxSamplesNext_limit
    (P : Params) {i : Input} (hn : i.inNumSamples ≠ 0) :
    (maxSamplesNext P i).toNat + 1 ≤ P.intMaxSamples := by
  have hmax := intMaxPktLen_le_65536 P
  have hmin := three_le_intMaxPktLen P
  have hpos : i.inNumSamples.toNat ≠ 0 := by
    intro h0
    exact hn (BitVec.eq_of_toNat_eq (by simpa using h0))
  unfold maxSamplesNext Params.intMaxSamples
  split_ifs with hclamp
  · rw [BitVec.toNat_ofNat, Nat.mod_eq_of_lt (by omega)]
    omega
  · have hsub : (i.inNumSamples - 1).toNat = i.inNumSamples.toNat - 1 := by
      rw [BitVec.toNat_sub_of_le (by simp [BitVec.le_def]; omega)]
      rfl
    omega

/-- The committed words end at or before the position of `wr_start`. -/
theorem commitPos_le_startPos (s : State P) (g : Ledger) :
    g.commitPos P ≤ startPos s g := by
  unfold startPos
  split <;> omega

/-- The unread words fit the RAM. -/
theorem Inv.unread_le
    {s : State P} {g : Ledger} (h : Inv s g) :
    (g.unread P).length ≤ 2 ^ P.depthBits := by
  have hfits := h.space.fits
  have hle := commitPos_le_startPos s g
  unfold Ledger.commitPos at hle
  omega

/-- A write of the state machine never reaches an unread committed word. -/
theorem Inv.write_free
    {s : State P} {g : Ledger} (h : Inv s g)
    (h3 : 3 ≤ P.maxPktLen) (hena : s.wr.wrEna = true) :
    ∃ x, s.wr.wrPos = BitVec.ofNat _ x ∧ g.commitPos P ≤ x ∧
      x < g.loaded + 2 ^ P.depthBits := by
  have hmax := intMaxPktLen_le h3
  have hfits := h.space.fits
  have hw := h.write
  unfold WriteInv at hw
  unfold startPos at hfits
  cases hst : s.wr.inState with
  | idle =>
      simp only [hst] at hw
      exact absurd hena (by simp [hw.wrEna])
  | data =>
      simp only [hst] at hw
      have hsize := hw.size
      have hroom := hw.room
      unfold Room at hroom
      exact ⟨_, hw.wrPos, by omega, by omega⟩
  | wrLen =>
      simp only [hst] at hw
      have hsize := hw.size
      have hroom := hw.room
      unfold Room at hroom
      exact ⟨_, hw.wrPos, by omega, by omega⟩
  | wrTs =>
      simp only [hst] at hw hfits
      exact ⟨_, hw.wrPos, by omega, by omega⟩
  | wrUpdate =>
      simp only [hst] at hw hfits
      exact ⟨_, hw.wrPos, by omega, by omega⟩

/-- The clock edge writes behind the unread words only. -/
theorem Inv.held_ramNext
    {s : State P} {g : Ledger} (h : Inv s g)
    (h3 : 3 ≤ P.maxPktLen)
    {pos : Nat} {ws : List (BitVec 65)}
    (hpos : g.loaded ≤ pos) (hend : pos + ws.length = g.commitPos P)
    (hheld : Holds s.rData pos ws) :
    Holds (ramNext s) pos ws := by
  unfold ramNext
  split_ifs with hena
  · obtain ⟨x, hx, hlo, hhi⟩ := h.write_free h3 hena
    rw [hx, BitVec.setWidth_ofNat_of_le (by omega)]
    exact hheld.update_after (by omega) (by omega)
  · exact hheld

end AxiStreamTsData
end MollerFirmware
