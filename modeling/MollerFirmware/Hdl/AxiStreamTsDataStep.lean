import MollerFirmware.Hdl.AxiStreamTsDataInvariant

/-!
# axi_stream_ts_data: every clock keeps the invariant

The invariant is kept by a clock edge under one condition on the inputs: when
the first word of a packet is accepted, `in_num_samples` is not zero
(`FirstWordOk`). With a zero count `max_samples` underflows and nothing bounds
the packet.
-/

namespace MollerFirmware
namespace AxiStreamTsData

open Clocked

variable {P : Params}

/-- The first word of a packet is not accepted with a zero sample count. -/
def FirstWordOk (s : State P) (i : Input) : Prop :=
  s.wr.inState = .idle → inCaptured s i = true → i.ena = true →
    i.inNumSamples ≠ 0

theorem commits_read (g : Ledger) (s : State P) (i : Input) :
    commits s (g.read s i) = commits s g := by
  simp [commits]

/-- The words of a committed packet count once it is committed. -/
theorem watch_commitPos
    {s : State P} {g : Ledger} {i : Input} (h : ReadStep s g i) :
    (watch g s i).commitPos P =
      g.commitPos P +
        if s.wr.inState = .wrUpdate then g.building.length + 2 else 0 := by
  rw [← h.commitPos]
  unfold Ledger.commitPos watch
  rw [write_unread, write_loaded, commits_read]
  unfold commits
  split_ifs
  · simp [Ledger.nextPacket]
    omega
  · simp

theorem watch_loaded
    {s : State P} {g : Ledger} {i : Input} (h : ReadStep s g i) :
    g.loaded ≤ (watch g s i).loaded := by
  have := h.loaded
  simpa [watch] using this

/-- Words are accepted in `ST_IDLE` and `ST_DATA` only. -/
theorem acceptedWords_eq_nil
    {s : State P} (i : Input)
    (hidle : s.wr.inState ≠ .idle) (hdata : s.wr.inState ≠ .data) :
    acceptedWords s i = [] := by
  simp [acceptedWords, accepts, hidle, hdata]

theorem drops_eq_false
    {s : State P} (i : Input) (hdata : s.wr.inState ≠ .data) :
    drops s i = false := by
  simp [drops, hdata]

/-- Only `ST_WR_UPDATE` commits a packet. -/
theorem watch_committed_of_ne
    (g : Ledger) {s : State P} (i : Input)
    (hs : s.wr.inState ≠ .wrUpdate) :
    (watch g s i).committed = g.committed := by
  simp [watch_committed, commits, hs]

theorem watch_commitPos_of_ne
    {s : State P} {g : Ledger} {i : Input} (h : ReadStep s g i)
    (hs : s.wr.inState ≠ .wrUpdate) :
    (watch g s i).commitPos P = g.commitPos P := by
  rw [watch_commitPos h, if_neg hs, Nat.add_zero]

/-- A closed packet waits unchanged for its commit. -/
theorem watch_closed
    (g : Ledger) {s : State P} (i : Input)
    (hidle : s.wr.inState ≠ .idle) (hdata : s.wr.inState ≠ .data)
    (hup : s.wr.inState ≠ .wrUpdate) :
    (watch g s i).building = g.building ∧
      (watch g s i).nextPacket = g.nextPacket := by
  have hwords : (watch g s i).building = g.building := by
    rw [watch_building_of_ne g i hup, acceptedWords_eq_nil i hidle hdata,
      List.append_nil]
  have hdropped : (watch g s i).dropped = g.dropped := by
    rw [watch_dropped_of_ne g i hup, drops_eq_false i hdata, Bool.or_false]
  refine ⟨hwords, ?_⟩
  simp [Ledger.nextPacket, hwords, hdropped, watch_committed_of_ne g i hup]

/-- A clock that accepts and commits nothing keeps the open packet. -/
theorem OpenInv.congr
    {s s' : State P} {g g' : Ledger} (h : OpenInv s g)
    (hwords : g'.building = g.building)
    (hcommitted : g'.committed = g.committed)
    (hseq : s'.wr.numPktsIn = s.wr.numPktsIn)
    (hts : s'.wr.rTimestamp = s.wr.rTimestamp) :
    OpenInv s' g' := by
  refine ⟨?_, ?_, ?_, ?_⟩
  · rw [hwords]
    exact h.nonempty
  · rw [hseq, hcommitted]
    exact h.seq
  · rw [hts, hwords]
    exact h.timestamp
  · rw [hwords]
    exact h.size

/-- From `ST_IDLE` the machine stays or accepts the first word. -/
theorem idle_cases
    {s : State P} (i : Input) (hst : s.wr.inState = .idle) :
    (inCaptured s i && i.ena) = true ∧
        writeNext s i =
          { s.wr with
            wrPos := s.wr.wrStart + 2
            rTimestamp := i.inTimestamp
            maxSamples := maxSamplesNext P i
            numPktsIn := s.wr.numPktsIn + 1
            wrCnt := 2
            wrDat := ramWord false i.inTdata
            inTready := true
            inState := .data
            wrEna := true } ∨
      (inCaptured s i && i.ena) = false ∧
        writeNext s i =
          { s.wr with
            wrPos := s.wr.wrStart + 2
            rTimestamp := i.inTimestamp
            maxSamples := maxSamplesNext P i
            wrCnt := 0
            inTready := s.chk.spaceCheck
            inState := .idle
            wrEna := false } := by
  cases hc : inCaptured s i && i.ena with
  | true =>
      left
      refine ⟨rfl, ?_⟩
      simp [writeNext, hst, idleNext, hc, maxPktLenReg]
  | false =>
      right
      refine ⟨rfl, ?_⟩
      simp [writeNext, hst, idleNext, hc]

/-- A word is accepted in `ST_DATA`; `closing` says whether it is the last. -/
def closing (s : State P) (i : Input) : Bool :=
  i.inTlast || !i.ena || decide (s.wr.maxSamples < s.wr.wrCnt)

/-- The four ways on from `ST_DATA`. -/
theorem data_cases
    {s : State P} (i : Input) (hst : s.wr.inState = .data) :
    (inCaptured s i = true ∧
        writeNext s i =
          { s.wr with
            inTready := !closing s i
            inState := if closing s i then .wrLen else .data
            wrPos := s.wr.wrPos + 1
            wrEna := true
            wrCnt := s.wr.wrCnt + 1
            wrDat := ramWord (closing s i) i.inTdata }) ∨
      (inCaptured s i = false ∧ i.ena = false ∧
        writeNext s i =
          { s.wr with
            inTready := false
            inState := .wrLen
            wrEna := true
            wrCnt := s.wr.wrCnt + 1
            wrDat := ramWord true (ramTdata s.wr.wrDat) }) ∨
      (inCaptured s i = false ∧ i.ena = true ∧
        writeNext s i =
          { s.wr with
            inTready := true
            inState := .data
            wrEna := false }) := by
  cases hc : inCaptured s i with
  | true =>
      left
      refine ⟨rfl, ?_⟩
      unfold writeNext dataNext
      simp only [hst, hc, if_true]
      change (if closing s i = true then _ else _) = _
      cases closing s i <;> rfl
  | false =>
      right
      cases he : i.ena with
      | false =>
          left
          refine ⟨rfl, rfl, ?_⟩
          simp [writeNext, hst, dataNext, hc, he]
      | true =>
          right
          refine ⟨rfl, rfl, ?_⟩
          simp [writeNext, hst, dataNext, hc, he]

/-- `in_pkts` counts the commits. -/
theorem step_inPkts (s : State P) (g : Ledger) (i : Input) :
    (step s i).wr.inPkts =
      s.wr.inPkts + BitVec.ofNat _ (commits s g).length := by
  change (writeNext s i).inPkts = _
  cases hst : s.wr.inState with
  | idle =>
      rcases idle_cases i hst with ⟨_, hnext⟩ | ⟨_, hnext⟩ <;>
        simp [hnext, commits, hst]
  | data =>
      rcases data_cases i hst with
          ⟨_, hnext⟩ | ⟨_, _, hnext⟩ | ⟨_, _, hnext⟩ <;>
        simp [hnext, commits, hst]
  | wrLen => simp [writeNext, commits, hst]
  | wrTs => simp [writeNext, commits, hst]
  | wrUpdate => simp [writeNext, commits, hst]

/-- Which state of the write machine may follow which. -/
theorem inState_step
    (s : State P) (i : Input) :
    ((step s i).wr.inState = .wrTs ↔ s.wr.inState = .wrLen) ∧
      ((step s i).wr.inState = .wrUpdate ↔ s.wr.inState = .wrTs) := by
  change ((writeNext s i).inState = .wrTs ↔ _) ∧
    ((writeNext s i).inState = .wrUpdate ↔ _)
  cases hst : s.wr.inState with
  | idle =>
      rcases idle_cases i hst with ⟨_, hnext⟩ | ⟨_, hnext⟩ <;> simp [hnext]
  | data =>
      rcases data_cases i hst with ⟨_, hnext⟩ | ⟨_, _, hnext⟩ | ⟨_, _, hnext⟩
      · cases hcl : closing s i <;> simp [hnext, hcl]
      · simp [hnext]
      · simp [hnext]
  | wrLen => simp [writeNext, hst]
  | wrTs => simp [writeNext, hst]
  | wrUpdate => simp [writeNext, hst]

/-- Except while the header and the timestamp are written, `wr_start` is just
behind the last committed word. -/
theorem startPos_eq_commitPos
    {s : State P} (g : Ledger)
    (hts : s.wr.inState ≠ .wrTs) (hup : s.wr.inState ≠ .wrUpdate) :
    startPos s g = g.commitPos P := by
  unfold startPos
  cases hst : s.wr.inState with
  | idle => rfl
  | data => rfl
  | wrLen => rfl
  | wrTs => exact absurd hst hts
  | wrUpdate => exact absurd hst hup

/-- Only the end of `ST_WR_LEN` moves the position of `wr_start`. -/
theorem startPos_step
    {s : State P} {g : Ledger} {i : Input} (h : ReadStep s g i) :
    startPos (step s i) (watch g s i) =
      startPos s g +
        if s.wr.inState = .wrLen then g.building.length + 2 else 0 := by
  have hpos := watch_commitPos h
  obtain ⟨hts, hup⟩ := inState_step s i
  cases hst : s.wr.inState with
  | wrLen =>
      have hnext := hts.mpr hst
      rw [hst] at hpos
      simp only [startPos, hnext, hst, if_true]
      rw [hpos, watch_building_of_ne g i (by simp [hst]),
        acceptedWords_eq_nil i (by simp [hst]) (by simp [hst])]
      simp
  | wrTs =>
      have hnext := hup.mpr hst
      rw [hst] at hpos
      simp only [startPos, hnext, hst]
      rw [hpos, watch_building_of_ne g i (by simp [hst]),
        acceptedWords_eq_nil i (by simp [hst]) (by simp [hst])]
      simp
  | wrUpdate =>
      have hnext : (step s i).wr.inState = .idle := by
        simp [step, writeNext, hst]
      rw [hst] at hpos
      simp only [startPos, hnext, hst]
      rw [hpos]
      simp
  | idle =>
      rw [startPos_eq_commitPos _ (by simp [hts, hst]) (by simp [hup, hst]),
        hpos, startPos_eq_commitPos g (by simp [hst]) (by simp [hst])]
      simp [hst]
  | data =>
      rw [startPos_eq_commitPos _ (by simp [hts, hst]) (by simp [hup, hst]),
        hpos, startPos_eq_commitPos g (by simp [hst]) (by simp [hst])]
      simp [hst]

/-- The read side, the RAM and the packet counters after a clock. -/
theorem Inv.step_read
    {s : State P} {g : Ledger} (h : Inv s g) (h3 : 3 ≤ P.maxPktLen)
    {i : Input} (hr : ReadStep s g i) :
    ReadInv (step s i) (watch g s i) := by
  have hpos : (g.read s i).loaded + ((g.read s i).unread P).length =
      g.commitPos P :=
    hr.commitPos
  refine ⟨?_, ?_, ?_, ?_, ?_, ?_, ?_⟩
  · rw [watch, write_loaded]
    exact hr.inv.rdPos
  · unfold watch
    rw [write_unread, write_loaded, commits_read, List.map_append, holds_append]
    refine ⟨h.held_ramNext h3 hr.loaded (by simpa using hpos) hr.inv.held, ?_⟩
    rw [List.length_map, hpos]
    unfold commits
    split_ifs with hst
    · have hw := h.write
      simp only [WriteInv, hst] at hw
      rw [List.flatMap_singleton]
      exact hw.stored
    · simp
  · intro hv
    rw [watch, write_sending]
    exact hr.inv.idle hv
  · intro hv
    rw [watch, write_sending]
    exact hr.inv.busy hv
  · rw [watch, write_sending]
    exact hr.inv.notFirst
  · intro p hp
    unfold watch at hp
    rw [write_queue, commits_read, List.mem_append] at hp
    rcases hp with hp | hp
    · exact hr.inv.queueWf p hp
    · unfold commits at hp
      split_ifs at hp with hst
      · have hw := h.write
        simp only [WriteInv, hst] at hw
        rw [List.mem_singleton] at hp
        rw [hp]
        exact hw.nonempty
      · simp at hp
  · have hpkts := hr.inv.pkts
    rw [step_inPkts s g i]
    unfold watch
    rw [write_queue, commits_read, List.length_append]
    have hsum : (g.read s i).queue.length + (commits s g).length +
          (if (readNext s i).outTvalid then 1 else 0) =
        (g.read s i).queue.length +
          (if (readNext s i).outTvalid then 1 else 0) +
          (commits s g).length := by
      omega
    change _ = (readNext s i).outPkts + BitVec.ofNat _
      ((g.read s i).queue.length + (commits s g).length +
        if (readNext s i).outTvalid then 1 else 0)
    rw [hsum, BitVec.ofNat_add, ← BitVec.add_assoc]
    exact congrArg (· + _) hpkts

/-- The free space that `spaceNext` compares, as a natural number. -/
theorem free_toNat
    {used : BitVec (P.depthBits + 1)} (hle : used.toNat ≤ 2 ^ P.depthBits) :
    (BitVec.ofNat P.spaceWidth P.depth - used.setWidth P.spaceWidth).toNat =
      2 ^ P.depthBits - used.toNat := by
  have hwidth : P.depthBits + 1 ≤ P.spaceWidth := le_max_right _ _
  have hpow : 2 ^ (P.depthBits + 1) ≤ 2 ^ P.spaceWidth :=
    Nat.pow_le_pow_right (by omega) hwidth
  have hused : (used.setWidth P.spaceWidth).toNat = used.toNat := by
    rw [BitVec.toNat_setWidth, Nat.mod_eq_of_lt (by have := used.isLt; omega)]
  have hdepth : (BitVec.ofNat P.spaceWidth P.depth).toNat =
      2 ^ P.depthBits := by
    have hpos := Nat.two_pow_pos P.depthBits
    unfold Params.depth
    rw [BitVec.toNat_ofNat, Nat.mod_eq_of_lt (by omega)]
  rw [BitVec.toNat_sub_of_le (by rw [BitVec.le_def]; omega), hdepth, hused]

theorem loaded_le_startPos (s : State P) (g : Ledger) :
    g.loaded ≤ startPos s g := by
  have hle := commitPos_le_startPos s g
  unfold Ledger.commitPos at hle
  omega

/-- `used` takes the distance of the two pointers. -/
theorem Inv.used_step
    {s : State P} {g : Ledger} (h : Inv s g) (i : Input) :
    (AxiStreamTsData.step s i).chk.used.toNat = startPos s g - g.loaded := by
  have hfits := h.space.fits
  have hdepth := Nat.two_pow_pos P.depthBits
  change (s.wr.wrStart - s.rd.rdPos).toNat = _
  rw [h.space.wrStart, h.read.rdPos]
  exact ofNat_sub_ofNat_toNat (loaded_le_startPos s g) (by omega)

/-- `wr_start` moves behind the packet when its header is written. -/
theorem Inv.wrStart_step
    {s : State P} {g : Ledger} (h : Inv s g)
    {i : Input} (hr : ReadStep s g i) :
    (AxiStreamTsData.step s i).wr.wrStart =
      BitVec.ofNat _ (startPos (AxiStreamTsData.step s i) (watch g s i)) := by
  rw [startPos_step hr]
  change (writeNext s i).wrStart = _
  have hold := h.space.wrStart
  cases hst : s.wr.inState with
  | idle =>
      rcases idle_cases i hst with ⟨_, hnext⟩ | ⟨_, hnext⟩ <;>
        simpa [hnext] using hold
  | data =>
      rcases data_cases i hst with
          ⟨_, hnext⟩ | ⟨_, _, hnext⟩ | ⟨_, _, hnext⟩ <;>
        simpa [hnext] using hold
  | wrLen =>
      have hw := h.write
      simp only [WriteInv, hst] at hw
      simp only [writeNext, hst, hw.wrPos, startPos, if_true]
      refine (ofNat_add_ofNat _ _ 1).trans ?_
      congr 1
      omega
  | wrTs => simpa [writeNext, hst] using hold
  | wrUpdate => simpa [writeNext, hst] using hold

/-- The free space check after a clock. -/
theorem Inv.step_space
    {s : State P} {g : Ledger} (h : Inv s g) (h3 : 3 ≤ P.maxPktLen)
    {i : Input} (hr : ReadStep s g i) :
    SpaceInv (step s i) (watch g s i) := by
  have hmax := intMaxPktLen_le h3
  have hstart := startPos_step hr
  have hloaded := watch_loaded hr
  have hfits := h.space.fits
  have hdepth := Nat.two_pow_pos P.depthBits
  have hle := loaded_le_startPos s g
  have hused := h.used_step i
  obtain ⟨hts, hup⟩ := inState_step s i
  refine ⟨?_, ?_, ?_, ?_, ?_⟩
  · exact h.wrStart_step hr
  · rw [hstart]
    split_ifs with hst
    · have hw := h.write
      simp only [WriteInv, hst] at hw
      have hsize := hw.size
      have hroom := hw.room
      simp only [startPos, hst]
      unfold Room at hroom
      omega
    · omega
  · rw [hused]
    omega
  · intro hne
    have hst : s.wr.inState ≠ .wrLen := fun hst => hne (hts.mpr hst)
    rw [hstart, hused, if_neg hst]
    omega
  · intro hcheck hne hne'
    have hst : s.wr.inState ≠ .wrLen := fun hst => hne (hts.mpr hst)
    have hst' : s.wr.inState ≠ .wrTs := fun hst => hne' (hup.mpr hst)
    have hfree : P.maxPktLen < 2 ^ P.depthBits - s.chk.used.toNat := by
      rw [← free_toNat h.space.used_le]
      simpa [step, spaceNext] using hcheck
    have hge := h.space.used_ge hst'
    rw [hstart, if_neg hst]
    omega

/-- The RAM as the pending write leaves it. -/
theorem ramNext_of_wrEna
    {s : State P} {x : Nat} (hena : s.wr.wrEna = true)
    (hpos : s.wr.wrPos = BitVec.ofNat _ x) :
    ramNext s =
      Function.update s.rData (BitVec.ofNat _ x) s.wr.wrDat := by
  unfold ramNext
  rw [if_pos hena, hpos, BitVec.setWidth_ofNat_of_le (by omega)]

theorem ramNext_of_not_wrEna
    {s : State P} (hena : s.wr.wrEna = false) :
    ramNext s = s.rData := by
  simp [ramNext, hena]

/-- Room is kept while nothing is committed. -/
theorem Room.mono
    {g g' : Ledger} (h : Room P g)
    (hpos : g'.commitPos P = g.commitPos P) (hle : g.loaded ≤ g'.loaded) :
    Room P g' := by
  unfold Room at *
  omega

/-- A packet that is being written fits the RAM. -/
theorem OpenInv.length_lt
    {s : State P} {g : Ledger} (h : OpenInv s g) (h3 : 3 ≤ P.maxPktLen)
    (hroom : Room P g) :
    g.building.length + 1 < 2 ^ P.depthBits := by
  have hmax := intMaxPktLen_le h3
  have hsize := h.size
  have hcommit : g.loaded ≤ g.commitPos P := by
    unfold Ledger.commitPos
    omega
  unfold Room at hroom
  omega

/-- The first word of a packet is accepted. -/
theorem idle_step_accept
    {s : State P} {g : Ledger} (h : Inv s g)
    {i : Input} (hr : ReadStep s g i) (hok : FirstWordOk s i)
    (hst : s.wr.inState = .idle) (hcap : inCaptured s i = true)
    (hena : i.ena = true)
    (hnext : writeNext s i =
      { s.wr with
        numPktsIn := s.wr.numPktsIn + 1
        inTready := true
        wrEna := true
        wrDat := ramWord false i.inTdata
        wrPos := s.wr.wrStart + 2
        wrCnt := 2
        inState := .data
        maxSamples := maxSamplesNext P i
        rTimestamp := i.inTimestamp }) :
    WriteInv (step s i) (watch g s i) := by
  have hw := h.write
  simp only [WriteInv, hst] at hw
  have hwr : (step s i).wr = _ := hnext
  have hpos := watch_commitPos_of_ne hr (by simp [hst])
  have hcommitted := watch_committed_of_ne g i (s := s) (by simp [hst])
  have hdropped := watch_dropped_of_ne g i (s := s) (by simp [hst])
  rw [drops_eq_false i (by simp [hst]), hw.kept] at hdropped
  have hready : s.wr.inTready = true := by
    simp only [inCaptured, Bool.and_eq_true] at hcap
    exact hcap.2
  have hwords : (watch g s i).building = [(i.inTdata, i.inTimestamp)] := by
    rw [watch_building_of_ne g i (s := s) (by simp [hst]), hw.empty]
    simp [acceptedWords, accepts, hst, hcap, hena]
  have hstart : s.wr.wrStart = BitVec.ofNat _ (g.commitPos P) := by
    simpa [startPos, hst] using h.space.wrStart
  have hwrPos : (step s i).wr.wrPos = BitVec.ofNat _ (g.commitPos P + 2) := by
    rw [hwr, hstart]
    exact ofNat_add_ofNat _ _ 2
  have hram := ramNext_of_wrEna (s := step s i) (by rw [hwr]) hwrPos
  have hinState : (step s i).wr.inState = .data := by
    rw [hwr]
  simp only [WriteInv, hinState]
  refine ⟨⟨?_, ?_, ?_, ?_⟩, ?_, ?_, ?_, ?_, ?_, ?_, ?_, ?_, ?_⟩
  · simp [hwords]
  · rw [hwr, hcommitted]
    simp only [hw.seq]
    exact ofNat_add_ofNat _ _ 1
  · rw [hwr, hwords]
    rfl
  · rw [hwords]
    exact le_max_of_le_right (by simp)
  · rw [hwr]
  · simpa using hdropped
  · rw [hwrPos, hpos, hwords]
    rfl
  · rw [hwr, hwords]
    rfl
  · rw [hwr]
    exact maxSamplesNext_limit P (hok hst hcap hena)
  · simp [hwords]
  · exact ⟨[], (i.inTdata, i.inTimestamp), hwords, by rw [hwr]⟩
  · rw [hram, hpos, hwords, hwr]
    refine (holds_cons _ _ _ _).mpr ⟨?_, by simp⟩
    simp
  · exact (hw.room hready).mono hpos (watch_loaded hr)

/-- Nothing is accepted, or the word is refused because enable is low. -/
theorem idle_step_wait
    {s : State P} {g : Ledger} (h : Inv s g)
    {i : Input} (hr : ReadStep s g i)
    (hst : s.wr.inState = .idle)
    (hcap : (inCaptured s i && i.ena) = false)
    (hnext : writeNext s i =
      { s.wr with
        inTready := s.chk.spaceCheck
        wrEna := false
        wrPos := s.wr.wrStart + 2
        wrCnt := 0
        inState := .idle
        maxSamples := maxSamplesNext P i
        rTimestamp := i.inTimestamp }) :
    WriteInv (step s i) (watch g s i) := by
  have hw := h.write
  simp only [WriteInv, hst] at hw
  have hwr : (step s i).wr = _ := hnext
  have hpos := watch_commitPos_of_ne hr (by simp [hst])
  have hcommitted := watch_committed_of_ne g i (s := s) (by simp [hst])
  have hdropped := watch_dropped_of_ne g i (s := s) (by simp [hst])
  rw [drops_eq_false i (by simp [hst]), hw.kept] at hdropped
  have hwords : (watch g s i).building = [] := by
    rw [watch_building_of_ne g i (s := s) (by simp [hst]), hw.empty]
    simp only [Bool.and_eq_false_iff] at hcap
    rcases hcap with hcap | hcap <;>
      simp [acceptedWords, accepts, hst, hcap]
  have hinState : (step s i).wr.inState = .idle := by
    rw [hwr]
  simp only [WriteInv, hinState]
  refine ⟨hwords, by simpa using hdropped, by rw [hwr], ?_, ?_⟩
  · rw [hwr, hcommitted]
    exact hw.seq
  · intro hready
    have hcheck : s.chk.spaceCheck = true := by
      simpa [hwr] using hready
    have hroom := h.space.check hcheck (by simp [hst]) (by simp [hst])
    have hold : Room P g := by
      simpa [startPos, hst, Room] using hroom
    exact hold.mono hpos (watch_loaded hr)

/-- `ST_IDLE`. -/
theorem idle_step_write
    {s : State P} {g : Ledger} (h : Inv s g)
    {i : Input} (hr : ReadStep s g i) (hok : FirstWordOk s i)
    (hst : s.wr.inState = .idle) :
    WriteInv (step s i) (watch g s i) := by
  rcases idle_cases i hst with ⟨hcap, hnext⟩ | ⟨hcap, hnext⟩
  · rw [Bool.and_eq_true] at hcap
    exact idle_step_accept h hr hok hst hcap.1 hcap.2 hnext
  · exact idle_step_wait h hr hst hcap hnext

theorem firstTimestamp_append
    {ws : List (BitVec 64 × BitVec 64)} (hne : ws ≠ [])
    (vs : List (BitVec 64 × BitVec 64)) :
    firstTimestamp (ws ++ vs) = firstTimestamp ws := by
  cases ws with
  | nil => exact absurd rfl hne
  | cons w ws => rfl

/-- Closing a packet sets `tlast` on its last word. -/
theorem payloadRam_snoc
    {g : Ledger} {init : List (BitVec 64 × BitVec 64)}
    {w : BitVec 64 × BitVec 64} (hg : g.building = init ++ [w]) :
    payloadRam g =
      init.map (fun v => ramWord false v.1) ++ [ramWord true w.1] := by
  unfold payloadRam Ledger.nextPacket Packet.payload
  rw [hg, List.map_append, List.map_singleton, payloadBeats_snoc]
  simp [Beat.ram]

theorem payloadRam_length (g : Ledger) :
    (payloadRam g).length = g.building.length := by
  simp [payloadRam, Ledger.nextPacket, Packet.payload]

/-- The word count of an open packet does not wrap. -/
theorem DataInv.cnt_toNat
    {s : State P} {g : Ledger} (hw : DataInv s g) :
    s.wr.wrCnt.toNat = g.building.length + 1 := by
  have hmax := intMaxPktLen_le_65536 P
  have hmin := three_le_intMaxPktLen P
  have hlimit := hw.limit
  unfold Params.intMaxSamples at hlimit
  rw [hw.cnt, BitVec.toNat_ofNat, Nat.mod_eq_of_lt]
  rcases hw.more with hone | hmore <;> omega

/-- An open packet has room for another word. -/
theorem DataInv.size_next
    {s : State P} {g : Ledger} (hw : DataInv s g) :
    g.building.length + 1 + 2 ≤ max P.intMaxPktLen 4 := by
  have hmin := three_le_intMaxPktLen P
  have hlimit := hw.limit
  unfold Params.intMaxSamples at hlimit
  rcases hw.more with hone | hmore <;> omega

/-- The next word is written behind the others. -/
theorem DataInv.write_next
    {s : State P} {g : Ledger} (hw : DataInv s g) (h3 : 3 ≤ P.maxPktLen)
    {s' : State P} (hdata : s'.rData = ramNext s) (hena : s'.wr.wrEna = true)
    (hpos : s'.wr.wrPos = s.wr.wrPos + 1) :
    s'.wr.wrPos = BitVec.ofNat _ (g.commitPos P + 2 + g.building.length) ∧
      Holds (ramNext s') (g.commitPos P + 2)
        (g.building.map (fun w => ramWord false w.1) ++ [s'.wr.wrDat]) := by
  have hnext : s'.wr.wrPos =
      BitVec.ofNat _ (g.commitPos P + 2 + g.building.length) := by
    rw [hpos, hw.wrPos]
    refine (ofNat_add_ofNat _ _ 1).trans ?_
    congr 1
    omega
  have hfit := hw.toOpenInv.length_lt h3 hw.room
  have hold := hw.stored.update_snoc s'.wr.wrDat
    (by rw [List.length_map]; omega)
  rw [List.length_map] at hold
  rw [ramNext_of_wrEna hena hnext, hdata]
  exact ⟨hnext, hold⟩

/-- A clock without an accepted word adds none to the open packet. -/
theorem watch_building_of_not_captured
    {s : State P} (g : Ledger) {i : Input}
    (hst : s.wr.inState ≠ .wrUpdate) (hcap : inCaptured s i = false) :
    (watch g s i).building = g.building := by
  rw [watch_building_of_ne g i hst]
  simp [acceptedWords, accepts, hcap]

/-- A word accepted in `ST_DATA` belongs to the open packet. -/
theorem watch_accept
    {s : State P} (g : Ledger) {i : Input}
    (hst : s.wr.inState = .data) (hcap : inCaptured s i = true) :
    (watch g s i).building = g.building ++ [(i.inTdata, i.inTimestamp)] ∧
      (watch g s i).dropped = g.dropped := by
  constructor
  · rw [watch_building_of_ne g i (by simp [hst])]
    simp [acceptedWords, accepts, hst, hcap]
  · rw [watch_dropped_of_ne g i (by simp [hst])]
    simp [drops, hcap]

/-- What a word accepted in `ST_DATA` leaves behind, whether or not it closes
the packet. -/
structure WordTaken (s : State P) (g : Ledger) (i : Input) : Prop where
  isOpen : OpenInv (step s i) (watch g s i)
  words : (watch g s i).building = g.building ++ [(i.inTdata, i.inTimestamp)]
  kept : (watch g s i).dropped = false
  wrPos : (step s i).wr.wrPos =
    BitVec.ofNat _ ((watch g s i).commitPos P + 1 +
      (watch g s i).building.length)
  wrCnt : (step s i).wr.wrCnt =
    BitVec.ofNat 16 ((watch g s i).building.length + 1)
  stored : Holds (ramNext (step s i)) ((watch g s i).commitPos P + 2)
    (g.building.map (fun w => ramWord false w.1) ++
      [ramWord (closing s i) i.inTdata])
  room : Room P (watch g s i)

theorem WordTaken.length {s : State P} {g : Ledger} {i : Input}
    (h : WordTaken s g i) :
    (watch g s i).building.length = g.building.length + 1 := by
  rw [h.words, List.length_append, List.length_singleton]

theorem data_wordTaken
    {s : State P} {g : Ledger} (hw : DataInv s g) (h3 : 3 ≤ P.maxPktLen)
    {i : Input} (hr : ReadStep s g i)
    (hst : s.wr.inState = .data) (hcap : inCaptured s i = true)
    (hnext : writeNext s i =
      { s.wr with
        inTready := !closing s i
        inState := if closing s i then .wrLen else .data
        wrPos := s.wr.wrPos + 1
        wrEna := true
        wrCnt := s.wr.wrCnt + 1
        wrDat := ramWord (closing s i) i.inTdata }) :
    WordTaken s g i := by
  have hwr : (step s i).wr = _ := hnext
  have hpos := watch_commitPos_of_ne hr (by simp [hst])
  have hcommitted := watch_committed_of_ne g i (s := s) (by simp [hst])
  obtain ⟨hwords, hdropped⟩ := watch_accept g hst hcap
  have hlen : (watch g s i).building.length = g.building.length + 1 := by
    rw [hwords, List.length_append, List.length_singleton]
  have hdata : (step s i).rData = ramNext s := rfl
  obtain ⟨hwrPos, hstored⟩ := hw.write_next h3 hdata (by rw [hwr])
    (by rw [hwr])
  have hwrDat : (step s i).wr.wrDat = ramWord (closing s i) i.inTdata := by
    rw [hwr]
  rw [hwrDat, ← hpos] at hstored
  refine ⟨⟨by simp [hwords], ?_, ?_, ?_⟩, hwords, hdropped.trans hw.kept,
    ?_, ?_, hstored, hw.room.mono hpos (watch_loaded hr)⟩
  · rw [hwr, hcommitted]
    exact hw.seq
  · rw [hwr, hwords, firstTimestamp_append hw.nonempty]
    exact hw.timestamp
  · rw [hlen]
    exact hw.size_next
  · rw [hwrPos, hpos, hlen]
    congr 1
    omega
  · rw [hwr, hlen]
    simp only [hw.cnt]
    exact ofNat_add_ofNat _ _ 1

/-- A word is accepted in `ST_DATA`. -/
theorem data_step_accept
    {s : State P} {g : Ledger} (h : Inv s g) (h3 : 3 ≤ P.maxPktLen)
    {i : Input} (hr : ReadStep s g i)
    (hst : s.wr.inState = .data) (hcap : inCaptured s i = true)
    (hnext : writeNext s i =
      { s.wr with
        inTready := !closing s i
        inState := if closing s i then .wrLen else .data
        wrPos := s.wr.wrPos + 1
        wrEna := true
        wrCnt := s.wr.wrCnt + 1
        wrDat := ramWord (closing s i) i.inTdata }) :
    WriteInv (step s i) (watch g s i) := by
  have hw := h.write
  simp only [WriteInv, hst] at hw
  have hwr : (step s i).wr = _ := hnext
  have htaken := data_wordTaken hw h3 hr hst hcap hnext
  have hstored := htaken.stored
  cases hcl : closing s i with
  | true =>
      have hinState : (step s i).wr.inState = .wrLen := by
        simp [hwr, hcl]
      simp only [WriteInv, hinState]
      refine ⟨htaken.isOpen, ?_, htaken.wrPos, ?_, ?_, htaken.room⟩
      · simp [hwr, hcl]
      · simp only [htaken.wrCnt, Ledger.nextPacket, htaken.kept]
        rfl
      · rw [payloadRam_snoc htaken.words]
        rw [hcl] at hstored
        exact hstored
  | false =>
      have hinState : (step s i).wr.inState = .data := by
        simp [hwr, hcl]
      simp only [WriteInv, hinState]
      refine ⟨htaken.isOpen, ?_, htaken.kept, htaken.wrPos, htaken.wrCnt, ?_, ?_,
        ?_, ?_, htaken.room⟩
      · simp [hwr, hcl]
      · rw [hwr]
        exact hw.limit
      · right
        have hge : ¬ s.wr.maxSamples < s.wr.wrCnt := by
          intro hlt
          simp [closing, hlt] at hcl
        rw [BitVec.lt_def, hw.cnt_toNat] at hge
        rw [htaken.length, hwr]
        change g.building.length + 1 ≤ s.wr.maxSamples.toNat
        omega
      · exact ⟨g.building, _, htaken.words, by rw [hwr, hcl]⟩
      · rw [htaken.words, List.map_append, List.map_singleton]
        rw [hcl] at hstored
        exact hstored

/-- Enable is low in `ST_DATA` and no word is accepted. -/
theorem data_step_drop
    {s : State P} {g : Ledger} (h : Inv s g) (h3 : 3 ≤ P.maxPktLen)
    {i : Input} (hr : ReadStep s g i)
    (hst : s.wr.inState = .data) (hcap : inCaptured s i = false)
    (hena : i.ena = false)
    (hnext : writeNext s i =
      { s.wr with
        inTready := false
        inState := .wrLen
        wrEna := true
        wrCnt := s.wr.wrCnt + 1
        wrDat := ramWord true (ramTdata s.wr.wrDat) }) :
    WriteInv (step s i) (watch g s i) := by
  have hw := h.write
  simp only [WriteInv, hst] at hw
  have hwr : (step s i).wr = _ := hnext
  have hpos := watch_commitPos_of_ne hr (by simp [hst])
  have hcommitted := watch_committed_of_ne g i (s := s) (by simp [hst])
  have hwords : (watch g s i).building = g.building :=
    watch_building_of_not_captured g (by simp [hst]) hcap
  have hdropped : (watch g s i).dropped = true := by
    rw [watch_dropped_of_ne g i (by simp [hst])]
    simp [drops, hst, hcap, hena]
  obtain ⟨init, w, hinit, hlast⟩ := hw.last
  have hlen : g.building.length = init.length + 1 := by
    rw [hinit, List.length_append, List.length_singleton]
  have hwrPos : (step s i).wr.wrPos =
      BitVec.ofNat _ (g.commitPos P + 2 + init.length) := by
    rw [hwr]
    simp only [hw.wrPos]
    congr 1
    omega
  have hfit := hw.toOpenInv.length_lt h3 hw.room
  have hram := ramNext_of_wrEna (s := step s i) (by rw [hwr]) hwrPos
  have hstored := hw.stored
  rw [hinit, List.map_append, holds_append] at hstored
  have hinState : (step s i).wr.inState = .wrLen := by
    rw [hwr]
  simp only [WriteInv, hinState]
  refine ⟨hw.toOpenInv.congr hwords hcommitted (by rw [hwr]) (by rw [hwr]),
    by rw [hwr], ?_, ?_, ?_, hw.room.mono hpos (watch_loaded hr)⟩
  · rw [hwrPos, hpos, hwords, hlen]
    congr 1
    omega
  · rw [hwr]
    simp only [Ledger.nextPacket, hdropped, hwords, hw.cnt, if_true]
    exact ofNat_add_ofNat _ _ 1
  · -- the last word is written again, now with tlast high
    have hold := hstored.1.update_snoc (ramWord true w.1)
      (by rw [List.length_map]; omega)
    rw [List.length_map] at hold
    rw [hpos, payloadRam_snoc (hwords.trans hinit), hram, hwr]
    simp only [hlast, ramTdata_ramWord]
    exact hold

/-- `ST_DATA` waits for the next word. -/
theorem data_step_wait
    {s : State P} {g : Ledger} (h : Inv s g)
    {i : Input} (hr : ReadStep s g i)
    (hst : s.wr.inState = .data) (hcap : inCaptured s i = false)
    (hena : i.ena = true)
    (hnext : writeNext s i =
      { s.wr with
        inTready := true
        inState := .data
        wrEna := false }) :
    WriteInv (step s i) (watch g s i) := by
  have hw := h.write
  simp only [WriteInv, hst] at hw
  have hwr : (step s i).wr = _ := hnext
  have hpos := watch_commitPos_of_ne hr (by simp [hst])
  have hcommitted := watch_committed_of_ne g i (s := s) (by simp [hst])
  have hwords : (watch g s i).building = g.building :=
    watch_building_of_not_captured g (by simp [hst]) hcap
  have hkept : (watch g s i).dropped = false := by
    rw [watch_dropped_of_ne g i (by simp [hst]), hw.kept]
    simp [drops, hena]
  have hram : ramNext (step s i) = ramNext s :=
    ramNext_of_not_wrEna (s := step s i) (by rw [hwr])
  have hinState : (step s i).wr.inState = .data := by
    rw [hwr]
  simp only [WriteInv, hinState]
  refine ⟨hw.toOpenInv.congr hwords hcommitted (by rw [hwr]) (by rw [hwr]),
    by rw [hwr], hkept, ?_, ?_, ?_, ?_, ?_, ?_,
    hw.room.mono hpos (watch_loaded hr)⟩
  · rw [hwr, hpos, hwords]
    exact hw.wrPos
  · rw [hwr, hwords]
    exact hw.cnt
  · rw [hwr]
    exact hw.limit
  · rw [hwr, hwords]
    exact hw.more
  · rw [hwr, hwords]
    exact hw.last
  · rw [hram, hpos, hwords]
    exact hw.stored

/-- `ST_WR_LEN`: the header is written next. -/
theorem len_step_write
    {s : State P} {g : Ledger} (h : Inv s g) (h3 : 3 ≤ P.maxPktLen)
    {i : Input} (hr : ReadStep s g i) (hst : s.wr.inState = .wrLen) :
    WriteInv (step s i) (watch g s i) := by
  have hw := h.write
  simp only [WriteInv, hst] at hw
  have hup : s.wr.inState ≠ .wrUpdate := by simp [hst]
  have hpos := watch_commitPos_of_ne hr hup
  obtain ⟨hwords, hpacket⟩ := watch_closed g i (s := s) (by simp [hst])
    (by simp [hst]) hup
  have hsize := hw.toOpenInv.length_lt h3 hw.room
  have hwrPos : (step s i).wr.wrPos = BitVec.ofNat _ (g.commitPos P) := by
    have hstart := h.space.wrStart
    simp only [startPos, hst] at hstart
    simp [step, writeNext, hst, hstart]
  have hram := ramNext_of_wrEna (s := step s i)
    (by simp [step, writeNext, hst]) hwrPos
  have hwrDat : (step s i).wr.wrDat =
      ramWord false (headerWord P g.nextPacket.seq g.nextPacket.len) := by
    simp [step, writeNext, hst, hw.cnt, hw.seq, Ledger.nextPacket]
  have hinState : (step s i).wr.inState = .wrTs := by
    simp [step, writeNext, hst]
  simp only [WriteInv, hinState]
  refine ⟨hw.toOpenInv.congr hwords (watch_committed_of_ne g i hup)
    (by simp [step, writeNext, hst]) (by simp [step, writeNext, hst]),
    ?_, ?_, ?_, ?_⟩
  · simp [step, writeNext, hst]
  · rw [hwrPos, hpos]
  · rw [hram, hwrDat, hpacket, hpos, holds_cons]
    exact ⟨by simp, by simp⟩
  · rw [hram, hpos, payloadRam, hpacket]
    refine hw.stored.update_before (by omega) ?_
    rw [payloadRam_length]
    omega

/-- `ST_WR_TS`: the header is in the RAM, the timestamp is written next. -/
theorem ts_step_write
    {s : State P} {g : Ledger} (h : Inv s g)
    {i : Input} (hr : ReadStep s g i) (hst : s.wr.inState = .wrTs) :
    WriteInv (step s i) (watch g s i) := by
  have hw := h.write
  have hfits := h.space.fits
  simp only [WriteInv, hst] at hw
  simp only [startPos, hst] at hfits
  have hup : s.wr.inState ≠ .wrUpdate := by simp [hst]
  have hpos := watch_commitPos_of_ne hr hup
  obtain ⟨hwords, hpacket⟩ := watch_closed g i (s := s) (by simp [hst])
    (by simp [hst]) hup
  have hcommit : g.loaded ≤ g.commitPos P := by
    unfold Ledger.commitPos
    omega
  have hwrPos : (step s i).wr.wrPos = BitVec.ofNat _ (g.commitPos P + 1) := by
    simp only [step, writeNext, hst, hw.wrPos]
    exact ofNat_add_ofNat _ _ 1
  have hram := ramNext_of_wrEna (s := step s i)
    (by simp [step, writeNext, hst]) hwrPos
  have hwrDat : (step s i).wr.wrDat =
      ramWord false (firstTimestamp g.nextPacket.words) := by
    simp [step, writeNext, hst, hw.timestamp, Ledger.nextPacket]
  have hlen := payloadRam_length g
  have hinState : (step s i).wr.inState = .wrUpdate := by
    simp [step, writeNext, hst]
  simp only [WriteInv, hinState]
  refine ⟨hw.toOpenInv.congr hwords (watch_committed_of_ne g i hup)
    (by simp [step, writeNext, hst]) (by simp [step, writeNext, hst]),
    ?_, ?_, ?_⟩
  · simp [step, writeNext, hst]
  · rw [hwrPos, hpos]
  · have hheader := hw.header
    rw [holds_cons] at hheader
    have hrest : Holds (ramNext (step s i)) (g.commitPos P + 1)
        (ramWord false (firstTimestamp g.nextPacket.words) ::
          payloadRam g) := by
      rw [hram, hwrDat]
      exact hw.stored.update_cons _ (by omega)
    have hfirst : ramNext (step s i) (BitVec.ofNat _ (g.commitPos P)) =
        ramWord false (headerWord P g.nextPacket.seq g.nextPacket.len) := by
      rw [hram, Function.update_of_ne (ofNat_ne_ofNat (by omega) ?_)]
      · exact hheader.1
      · have := List.length_pos_iff.mpr hw.nonempty
        omega
    rw [hpos, hpacket]
    exact (holds_cons _ _ _ _).mpr ⟨hfirst, hrest⟩

/-- `ST_WR_UPDATE`: the packet is committed. -/
theorem update_step_write
    {s : State P} {g : Ledger} (h : Inv s g)
    (i : Input) (hst : s.wr.inState = .wrUpdate) :
    WriteInv (step s i) (watch g s i) := by
  have hw := h.write
  simp only [WriteInv, hst] at hw
  have hinState : (step s i).wr.inState = .idle := by
    simp [step, writeNext, hst]
  simp only [WriteInv, hinState]
  refine ⟨watch_building_of_wrUpdate g i hst,
    watch_dropped_of_wrUpdate g i hst, ?_, ?_, ?_⟩
  · simp [step, writeNext, hst]
  · rw [watch_committed]
    simpa [step, writeNext, hst, commits] using hw.seq
  · intro hready
    simp [step, writeNext, hst] at hready

theorem Inv.step_books
    {s : State P} {g : Ledger} (h : Inv s g) (i : Input) :
    BooksInv P (watch g s i) := by
  intro p hp
  rw [watch_committed, List.mem_append] at hp
  rcases hp with hp | hp
  · exact h.books p hp
  · unfold commits at hp
    split_ifs at hp with hst
    · have hw := h.write
      simp only [WriteInv, hst] at hw
      rw [List.mem_singleton] at hp
      rw [hp]
      exact ⟨hw.nonempty, hw.size⟩
    · simp at hp

/-- **Every clock keeps the invariant.** -/
theorem Inv.step
    {s : State P} {g : Ledger} (h : Inv s g) (h3 : 3 ≤ P.maxPktLen)
    {i : Input} (hok : FirstWordOk s i) :
    Inv (step s i) (watch g s i) := by
  have hr := read_step h.read i h.unread_le
  refine ⟨h.step_read h3 hr, h.step_space h3 hr, ?_, h.step_books i⟩
  cases hst : s.wr.inState with
  | idle => exact idle_step_write h hr hok hst
  | data =>
      rcases data_cases i hst with
          ⟨hcap, hnext⟩ | ⟨hcap, hena, hnext⟩ | ⟨hcap, hena, hnext⟩
      · exact data_step_accept h h3 hr hst hcap hnext
      · exact data_step_drop h h3 hr hst hcap hena hnext
      · exact data_step_wait h hr hst hcap hena hnext
  | wrLen => exact len_step_write h h3 hr hst
  | wrTs => exact ts_step_write h hr hst
  | wrUpdate => exact update_step_write h i hst

/-- The words that leave in a clock are the pending ones and the committed
ones, less those still pending after it. -/
theorem Inv.flow
    {s : State P} {g : Ledger} (h : Inv s g) (i : Input)
    (hunread : (g.unread P).length ≤ 2 ^ P.depthBits) :
    transfer s i ++ pending (AxiStreamTsData.step s i) (watch g s i) =
      pending s g ++ (commits s g).flatMap (Packet.beats P) := by
  have hflow := (read_step h.read i hunread).flow
  have hpending : pending (AxiStreamTsData.step s i) (watch g s i) =
      pending { s with rd := readNext s i } (g.read s i) ++
        (commits s g).flatMap (Packet.beats P) := by
    unfold pending watch
    rw [write_unread, commits_read, List.append_assoc]
    rfl
  rw [hpending, ← List.append_assoc, hflow]

theorem reset_inv (s : State P) :
    Inv (reset s) Ledger.empty := by
  refine ⟨⟨rfl, ?_, fun _ => rfl, ?_, ?_, ?_, ?_⟩, ⟨rfl, ?_, ?_, ?_, ?_⟩,
    ⟨rfl, rfl, rfl, rfl, ?_⟩, ?_⟩
  · simp [Ledger.unread, Ledger.empty]
  · intro hv
    simp [reset] at hv
  · simp [Ledger.empty]
  · simp [Ledger.empty]
  · simp [reset, Ledger.empty]
  · simp [startPos, reset, Ledger.commitPos, Ledger.unread, Ledger.empty]
  · simp [reset]
  · simp [startPos, reset, Ledger.commitPos, Ledger.unread, Ledger.empty]
  · intro hcheck
    simp [reset] at hcheck
  · intro hready
    simp [reset] at hready
  · intro p hp
    simp [Ledger.empty] at hp

/-- The invariant holds in every clock of every run after reset in which no
packet is started with a zero sample count. -/
theorem run_inv
    (h3 : 3 ≤ P.maxPktLen) (s : State P) (inp : Nat → Input)
    (hok : ∀ t, FirstWordOk (stateAt s inp t) (inp t)) (t : Nat) :
    Inv (stateAt s inp t) (ledgerAt s inp t) :=
  run_observe_invariant Inv FirstWordOk (reset_inv s)
    (fun _ _ _ h hstep => h.step h3 hstep) hok t

end AxiStreamTsData
end MollerFirmware
