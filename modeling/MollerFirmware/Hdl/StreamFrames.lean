import MollerFirmware.Hdl.SubsystemStream

/-!
# Frames in the packets of an all-channel session

In an all-channel session the framer presents a frame of five words after every
selected conversion, and the packet buffer has to take each of them in its
clock. Everything is a matter of timing, so the state of the framer and of the
write machine are described by `age`, the number of clocks since the last
selected conversion: `FramerAt` and `Phase` are their invariants.

The write machine is back in `ST_IDLE` with `in_tready` high ten clocks after
the conversion that fills a packet. A conversion nine clocks after that one
still finds it ready, a conversion eight clocks after it does not.
-/

namespace MollerFirmware
namespace SubsystemStream
namespace Run

open Clocked

variable {r : Run} {N n₀ : Nat}

/-- The two upper bits of the first word of a frame. -/
def FrameStart (w : BitVec 64) : Prop :=
  w.getLsbD 63 = true ∧ w.getLsbD 62 = false

theorem frameStart_startWord (d : Fin numCh → BitVec 18) :
    FrameStart (startWord d) := by
  unfold FrameStart startWord
  simp only [BitVec.getLsbD_append]
  exact ⟨rfl, rfl⟩

theorem not_frameStart_nextWord
    (d : Fin numCh → BitVec 18) (block : BitVec 3) (beat : BitVec 4) :
    ¬ FrameStart (nextWord d block beat) := by
  have hlow : (nextWord d block beat).getLsbD 63 = false := by
    unfold nextWord
    split_ifs <;> simp only [BitVec.getLsbD_append] <;> rfl
  intro h
  rw [h.1] at hlow
  exact absurd hlow (by simp)

/-- The five words presented after the conversion of clock `u`. -/
def frameAt (r : Run) (u : Nat) : List (BitVec 64) :=
  [r.streamInTdata (u + 1), r.streamInTdata (u + 2), r.streamInTdata (u + 3),
    r.streamInTdata (u + 4), r.streamInTdata (u + 5)]

/-- A selected conversion whose frame begins with a marked word. -/
def Marked (r : Run) (u : Nat) : Prop :=
  r.inTvalid u = true ∧ FrameStart (r.streamInTdata (u + 1))

/-- The words are a sequence of whole frames, each of them presented after a
selected conversion and beginning with a marked word. -/
def WholeFrames (r : Run) (ws : List (BitVec 64)) : Prop :=
  ∃ us : List Nat, (∀ u ∈ us, Marked r u) ∧ ws = us.flatMap (frameAt r)

/-- An all-channel session: `ena` rises in clock `n₀`, with `stream_in_beat` at
its idle value, and stays high; packets have `N` samples and the receiver is
always ready. -/
structure Session (r : Run) (N n₀ : Nat) : Prop where
  allChan : ∀ t, (r.input t).allChan = true
  numSamples : ∀ t, (r.input t).numSamples.toNat = N
  multiple : 5 ∣ N
  positive : 0 < N
  bounded : N ≤ 8190
  ready : ∀ t, (r.input t).fifoTready = true
  spaced : Spaced 8 fun t => (r.input t).valid
  ena : ∀ t, (r.input t).ena = decide (n₀ ≤ t)
  idle : r.streamInBeat n₀ = 5

/-- What an all-channel session is to do with the words of the framer. -/
structure FrameAligned (r : Run) (n₀ : Nat) : Prop where
  /-- no word presented during the session is refused -/
  accepted : ∀ t, n₀ ≤ t → r.streamInTvalid t = true → r.inTready t = true
  /-- the payload of every packet is a sequence of whole frames -/
  packets : ∀ t, ∀ p ∈ r.packets t, WholeFrames r p.payload

/-- The words of the packet that is being written begin such a sequence. -/
def OpenAligned (r : Run) : Prop :=
  ∀ t, ∃ ws, WholeFrames r ws ∧ r.openPayload t <+: ws

/-! ## The age of the last conversion -/

/-- Clocks since the last selected conversion; long ago if there was none. -/
def age (r : Run) : Nat → Nat
  | 0 => 10
  | t + 1 => if r.inTvalid t then 1 else age r t + 1

theorem age_pos (r : Run) (t : Nat) : 1 ≤ r.age t := by
  cases t with
  | zero => simp [age]
  | succ t =>
      unfold age
      split_ifs <;> omega

theorem age_succ_conversion {t : Nat} (hc : r.inTvalid t = true) :
    r.age (t + 1) = 1 := by
  simp [age, hc]

theorem age_succ_quiet {t : Nat} (hc : r.inTvalid t = false) :
    r.age (t + 1) = r.age t + 1 := by
  simp [age, hc]

/-- A young age dates from a conversion. -/
theorem exists_conversion {t : Nat} (h : r.age t < 10) :
    ∃ u, u + r.age t = t ∧ r.inTvalid u = true := by
  induction t with
  | zero =>
      simp [age] at h
  | succ t ih =>
      cases hc : r.inTvalid t with
      | true => exact ⟨t, by simp [age, hc], hc⟩
      | false =>
          have hage := age_succ_quiet hc
          obtain ⟨u, hu, huc⟩ := ih (by omega)
          exact ⟨u, by omega, huc⟩

/-- The last conversion is at least eight clocks old when the next one comes. -/
theorem Session.eight_le_age (h : Session r N n₀) {t : Nat}
    (hc : r.inTvalid t = true) :
    8 ≤ r.age t := by
  by_contra hlt
  obtain ⟨u, hu, huc⟩ := exists_conversion (r := r) (t := t) (by omega)
  have hpos := age_pos r t
  have := inTvalid_spaced h.spaced u t (by omega) huc hc
  omega

theorem Session.quiet_of_young (h : Session r N n₀) {t : Nat}
    (hage : r.age t < 8) :
    r.inTvalid t = false := by
  by_contra hc
  have := h.eight_le_age (by simpa using hc)
  omega

/-- Eight clocks after a conversion its age is eight. -/
theorem Session.age_eight (h : Session r N n₀) {u : Nat}
    (hc : r.inTvalid u = true) :
    r.age (u + 8) = 8 := by
  have hage : ∀ k, k < 8 → r.age (u + k + 1) = k + 1 := by
    intro k hk
    induction k with
    | zero => exact age_succ_conversion hc
    | succ k ih =>
        have hlow := (inTvalid_spaced h.spaced).low_after hc
          (j := k + 1) (by omega) (by omega)
        rw [age_succ_quiet hlow]
        have := ih (by omega)
        rw [show u + (k + 1) = u + k + 1 by omega]
        omega
  exact hage 7 (by omega)

/-- Conversions are selected after the session has begun. -/
theorem Session.lt_of_inTvalid (h : Session r N n₀) {t : Nat}
    (hc : r.inTvalid t = true) :
    n₀ < t := by
  cases t with
  | zero =>
      simp at hc
  | succ t =>
      rw [inTvalid_succ] at hc
      have hena := (of_selected hc).1
      rw [h.ena, decide_eq_true_eq] at hena
      omega

/-! ## The framer -/

/-- The framer presents the words of the last conversion and is then idle. -/
structure FramerAt (r : Run) (t : Nat) : Prop where
  busy : r.age t ≤ 5 →
    r.streamInBeat t = BitVec.ofNat 4 (r.age t) ∧ r.streamInTvalid t = true
  idle : 6 ≤ r.age t → r.streamInBeat t = 5 ∧ r.streamInTvalid t = false

theorem Session.framer_conversion (h : Session r N n₀) {t : Nat}
    (hc : r.inTvalid t = true) :
    r.streamInBeat (t + 1) = 1 ∧ r.streamInTvalid (t + 1) = true ∧
      (r.streamInBeat t = 5 →
        r.streamInTdata (t + 1) = startWord (r.state t).dataReg) :=
  step_framer_conversion (r.state t) (h.allChan t) hc

theorem Session.framer_quiet (h : Session r N n₀) {t : Nat}
    (hc : r.inTvalid t = false) :
    r.streamInBeat (t + 1) =
        (if r.streamInBeat t = 5 then 5 else r.streamInBeat t + 1) ∧
      r.streamInTvalid (t + 1) = decide (r.streamInBeat t ≠ 5) ∧
      r.streamInTdata (t + 1) =
        nextWord (r.state t).dataReg (r.input t).block (r.streamInBeat t) :=
  step_framer_quiet (r.state t) (h.allChan t) hc

theorem FramerAt.next (h : Session r N n₀) {t : Nat} (hf : FramerAt r t) :
    FramerAt r (t + 1) := by
  have hpos := age_pos r t
  cases hc : r.inTvalid t with
  | true =>
      obtain ⟨hbeat, hvalid, -⟩ := h.framer_conversion hc
      have hage := age_succ_conversion hc
      refine ⟨fun _ => ?_, fun h6 => by omega⟩
      rw [hage]
      exact ⟨hbeat, hvalid⟩
  | false =>
      obtain ⟨hbeat, hvalid, -⟩ := h.framer_quiet hc
      have hage := age_succ_quiet hc
      by_cases hlast : r.age t ≤ 4
      · -- the next word of the frame
        have hb := (hf.busy (by omega)).1
        have hcount : ∀ k, 1 ≤ k → k ≤ 4 →
            BitVec.ofNat 4 k ≠ 5 ∧
              BitVec.ofNat 4 k + 1 = BitVec.ofNat 4 (k + 1) := by
          decide
        obtain ⟨hne, hsucc⟩ := hcount _ hpos hlast
        refine ⟨fun _ => ⟨?_, ?_⟩, fun h6 => by omega⟩
        · rw [hbeat, hb, if_neg hne, hsucc, hage]
        · rw [hvalid, hb]
          simpa using hne
      · have hfive : r.streamInBeat t = 5 := by
          by_cases h5 : r.age t = 5
          · have hb := (hf.busy (by omega)).1
            rw [h5] at hb
            exact hb
          · exact (hf.idle (by omega)).1
        refine ⟨fun _ => by omega, fun _ => ⟨?_, ?_⟩⟩
        · rw [hbeat, hfive, if_pos rfl]
        · rw [hvalid, hfive]
          rfl

/-- A word is presented while the last conversion is young. -/
theorem FramerAt.streamInTvalid_iff {t : Nat} (hf : FramerAt r t) :
    r.streamInTvalid t = true ↔ r.age t ≤ 5 := by
  constructor
  · intro hv
    by_contra hold
    have := (hf.idle (by omega)).2
    simp [hv] at this
  · intro hyoung
    exact (hf.busy hyoung).2

theorem FramerAt.streamInTvalid_eq_false_iff {t : Nat} (hf : FramerAt r t) :
    r.streamInTvalid t = false ↔ 6 ≤ r.age t := by
  rw [← Bool.not_eq_true, hf.streamInTvalid_iff]
  omega

/-- The frame of a conversion that finds the framer idle is marked. -/
theorem Session.marked (h : Session r N n₀) {u : Nat}
    (hf : FramerAt r u) (hc : r.inTvalid u = true) :
    Marked r u := by
  refine ⟨hc, ?_⟩
  have hage := h.eight_le_age hc
  have hbeat := (hf.idle (by omega)).1
  rw [(h.framer_conversion hc).2.2 hbeat]
  exact frameStart_startWord _

/-! ## The packet buffer -/

/-- Registers of the packet buffer. -/
def buf (r : Run) (t : Nat) : AxiStreamTsData.State streamerParams :=
  AxiStreamTsData.stateAt r.before.streamer r.streamerIn t

/-- Books of the packet buffer. -/
def books (r : Run) (t : Nat) : AxiStreamTsData.Ledger :=
  AxiStreamTsData.ledgerAt r.before.streamer r.streamerIn t

theorem books_succ (r : Run) (t : Nat) :
    r.books (t + 1) =
      AxiStreamTsData.watch (r.books t) (r.buf t) (r.streamerIn t) := by
  rfl

theorem buf_wr_succ (r : Run) (t : Nat) :
    (r.buf (t + 1)).wr =
      AxiStreamTsData.writeNext (r.buf t) (r.streamerIn t) :=
  AxiStreamTsData.wr_succ _ _ t

theorem inTready_eq (r : Run) (t : Nat) :
    r.inTready t = (r.buf t).wr.inTready := by
  unfold inTready
  rw [streamer_eq]
  rfl

theorem inCaptured_eq (r : Run) (t : Nat) :
    AxiStreamTsData.inCaptured (r.buf t) (r.streamerIn t) =
      (r.streamInTvalid t && r.inTready t) := by
  rw [inTready_eq]
  rfl

theorem Session.streamerIn_ena (h : Session r N n₀) {t : Nat}
    (ht : n₀ ≤ t) :
    (r.streamerIn t).ena = true :=
  (h.ena t).trans (by simpa using ht)

theorem Session.streamerIn_ena_before (h : Session r N n₀) {t : Nat}
    (ht : t < n₀) :
    (r.streamerIn t).ena = false :=
  (h.ena t).trans (by simpa using ht)

/-- No packet is started with a zero sample count. -/
theorem Session.firstWordOk (h : Session r N n₀) (t : Nat) :
    AxiStreamTsData.FirstWordOk (r.buf t) (r.streamerIn t) := by
  intro _ _ _ hzero
  have hnum := h.numSamples t
  have hpos := h.positive
  change (r.input t).numSamples = 0 at hzero
  rw [hzero] at hnum
  simp at hnum
  omega

theorem Session.inv (h : Session r N n₀) (t : Nat) :
    AxiStreamTsData.Inv (r.buf t) (r.books t) :=
  AxiStreamTsData.run_inv (by decide) _ _ h.firstWordOk t

/-- The free space check never fails. -/
theorem Session.spaceCheck (h : Session r N n₀) (t : Nat) :
    (r.buf (t + 2)).chk.spaceCheck = true :=
  AxiStreamTsData.spaceCheck_of_ready (by decide) (by decide) h.firstWordOk
    h.ready t

theorem Session.maxSamplesNext (h : Session r N n₀) (t : Nat) :
    (AxiStreamTsData.maxSamplesNext streamerParams (r.streamerIn t)).toNat + 1 =
      N := by
  have hnum : (r.streamerIn t).inNumSamples.toNat = N := h.numSamples t
  have hmax : streamerParams.intMaxSamples = 8190 := by
    rfl
  have hpos := h.positive
  have hle := h.bounded
  unfold AxiStreamTsData.maxSamplesNext
  rw [if_neg (by omega),
    BitVec.toNat_sub_of_le (by rw [BitVec.le_def]; simp; omega), hnum]
  simp
  omega

/-- Where the write machine is, given the age of the last conversion. -/
def Phase (N : Nat) (s : AxiStreamTsData.State streamerParams)
    (g : AxiStreamTsData.Ledger) (age : Nat) : Prop :=
  match s.wr.inState with
  | .idle => (age = 1 ∨ 9 ≤ age) ∧ (age ≠ 9 → s.wr.inTready = true)
  | .data =>
      g.building.length < N ∧
        g.building.length % 5 = (min age 6 - 1) % 5 ∧
        s.wr.maxSamples.toNat + 1 = N
  | .wrLen => g.building.length = N ∧ age = 6
  | .wrTs => g.building.length = N ∧ age = 7
  | .wrUpdate => g.building.length = N ∧ age = 8

/-- Frame and packet buffer in one clock of a session. -/
structure InStep (r : Run) (N t : Nat) : Prop where
  framer : FramerAt r t
  phase : Phase N (r.buf t) (r.books t) (r.age t)

/-- The word on the framer's output is accepted, if there is one. -/
theorem InStep.accepts (h : Session r N n₀) {t : Nat} (ht : n₀ ≤ t)
    (hs : InStep r N t) :
    AxiStreamTsData.accepts (r.buf t) (r.streamerIn t) = r.streamInTvalid t ∧
      (r.streamInTvalid t = true → r.inTready t = true) := by
  have hw := (h.inv t).write
  have hp := hs.phase
  have hena := h.streamerIn_ena ht
  have hpos := age_pos r t
  unfold AxiStreamTsData.accepts
  rw [inCaptured_eq, hena]
  cases hv : r.streamInTvalid t with
  | false => simp
  | true =>
      have hyoung := hs.framer.streamInTvalid_iff.mp hv
      cases hst : (r.buf t).wr.inState with
      | idle =>
          simp only [Phase, hst] at hp
          have hready : r.inTready t = true := by
            rw [inTready_eq]
            exact hp.2 (by omega)
          simp [hready]
      | data =>
          simp only [AxiStreamTsData.WriteInv, hst] at hw
          have hready : r.inTready t = true := by
            rw [inTready_eq]
            exact hw.ready
          simp [hready]
      | wrLen =>
          simp only [Phase, hst] at hp
          omega
      | wrTs =>
          simp only [Phase, hst] at hp
          omega
      | wrUpdate =>
          simp only [Phase, hst] at hp
          omega

theorem InStep.acceptedWords (h : Session r N n₀) {t : Nat} (ht : n₀ ≤ t)
    (hs : InStep r N t) :
    AxiStreamTsData.acceptedWords (r.buf t) (r.streamerIn t) =
      if r.streamInTvalid t then
        [(r.streamInTdata t, (r.streamerIn t).inTimestamp)]
      else [] := by
  unfold AxiStreamTsData.acceptedWords
  rw [(hs.accepts h ht).1]
  rfl

/-- The write machine in `ST_IDLE`. -/
theorem InStep.next_idle (h : Session r N n₀) {t : Nat} (ht : n₀ ≤ t)
    (ht2 : 2 ≤ t) (hs : InStep r N t)
    (hst : (r.buf t).wr.inState = .idle) :
    Phase N (r.buf (t + 1)) (r.books (t + 1)) (r.age (t + 1)) := by
  have hp := hs.phase
  have hw := (h.inv t).write
  simp only [Phase, hst] at hp
  simp only [AxiStreamTsData.WriteInv, hst] at hw
  have hena := h.streamerIn_ena ht
  have hwords := hs.acceptedWords h ht
  have hbuilding : (r.books (t + 1)).building = AxiStreamTsData.acceptedWords
      (r.buf t) (r.streamerIn t) := by
    rw [books_succ, AxiStreamTsData.watch_building_of_ne _ _ (by simp [hst]),
      hw.empty, List.nil_append]
  rcases AxiStreamTsData.idle_cases (r.streamerIn t) hst with
    ⟨hacc, hnext⟩ | ⟨hacc, hnext⟩
  · -- the first word of a packet
    rw [inCaptured_eq, hena] at hacc
    simp only [Bool.and_true, Bool.and_eq_true] at hacc
    have hyoung := hs.framer.streamInTvalid_iff.mp hacc.1
    have hage := age_succ_quiet (h.quiet_of_young (t := t) (by omega))
    have hdiv := Nat.le_of_dvd h.positive h.multiple
    rw [hacc.1, if_pos rfl] at hwords
    unfold Phase
    rw [buf_wr_succ, hnext, hbuilding, hwords]
    refine ⟨by simp; omega, ?_, h.maxSamplesNext t⟩
    rw [hage]
    have hone : r.age t = 1 := by omega
    simp [hone]
  · obtain ⟨v, rfl⟩ : ∃ v, t = v + 2 := ⟨t - 2, by omega⟩
    unfold Phase
    rw [buf_wr_succ, hnext, h.spaceCheck v]
    refine ⟨?_, fun _ => rfl⟩
    cases hc : r.inTvalid (v + 2) with
    | true => exact .inl (age_succ_conversion hc)
    | false =>
        right
        rw [age_succ_quiet hc]
        by_contra hlt
        have hone : r.age (v + 2) = 1 := by omega
        have hv := hs.framer.streamInTvalid_iff.mpr (by omega)
        have hready := (hs.accepts h ht).2 hv
        rw [inCaptured_eq, hena, hv, hready] at hacc
        exact absurd hacc (by simp)

/-- The packet is closed with its last word, since enable stays up. -/
theorem Session.closing_iff (h : Session r N n₀) {t : Nat} (ht : n₀ ≤ t)
    (hw : AxiStreamTsData.DataInv (r.buf t) (r.books t))
    (hmax : (r.buf t).wr.maxSamples.toNat + 1 = N) :
    AxiStreamTsData.closing (r.buf t) (r.streamerIn t) =
      decide (N ≤ (r.books t).building.length + 1) := by
  unfold AxiStreamTsData.closing
  rw [h.streamerIn_ena ht, show (r.streamerIn t).inTlast = false from rfl]
  simp only [Bool.not_true, Bool.false_or, BitVec.lt_def, hw.cnt_toNat,
    decide_eq_decide]
  omega

/-- The write machine in `ST_DATA`. -/
theorem InStep.next_data (h : Session r N n₀) {t : Nat} (ht : n₀ ≤ t)
    (hs : InStep r N t) (hst : (r.buf t).wr.inState = .data) :
    Phase N (r.buf (t + 1)) (r.books (t + 1)) (r.age (t + 1)) := by
  have hp := hs.phase
  have hw := (h.inv t).write
  simp only [Phase, hst] at hp
  simp only [AxiStreamTsData.WriteInv, hst] at hw
  obtain ⟨hlt, hmod, hmax⟩ := hp
  have hena := h.streamerIn_ena ht
  have hpos := age_pos r t
  have hwords := hs.acceptedWords h ht
  have hbuilding : (r.books (t + 1)).building =
      (r.books t).building ++ AxiStreamTsData.acceptedWords
        (r.buf t) (r.streamerIn t) := by
    rw [books_succ, AxiStreamTsData.watch_building_of_ne _ _ (by simp [hst])]
  have hready : r.inTready t = true := by
    rw [inTready_eq]
    exact hw.ready
  rcases AxiStreamTsData.data_cases (r.streamerIn t) hst with
      ⟨hcap, hnext⟩ | ⟨_, hlow, _⟩ | ⟨hcap, _, hnext⟩
  · -- a further word of the frame
    rw [inCaptured_eq, hready, Bool.and_true] at hcap
    have hyoung := hs.framer.streamInTvalid_iff.mp hcap
    have hage := age_succ_quiet (h.quiet_of_young (t := t) (by omega))
    rw [hcap, if_pos rfl] at hwords
    have hlen : (r.books (t + 1)).building.length =
        (r.books t).building.length + 1 := by
      rw [hbuilding, hwords]
      simp
    have hclosing := h.closing_iff ht hw hmax
    have hmultiple := Nat.mod_eq_zero_of_dvd h.multiple
    unfold Phase
    rw [buf_wr_succ, hnext, hlen, hage, hclosing]
    by_cases hfull : N ≤ (r.books t).building.length + 1
    · simp only [hfull, decide_true, if_true]
      omega
    · simp only [hfull, decide_false, Bool.false_eq_true, if_false]
      omega
  · rw [hena] at hlow
    exact absurd hlow (by simp)
  · -- between two frames
    rw [inCaptured_eq, hready, Bool.and_true] at hcap
    have hold := hs.framer.streamInTvalid_eq_false_iff.mp hcap
    rw [hcap, if_neg (by simp)] at hwords
    unfold Phase
    rw [buf_wr_succ, hnext, hbuilding, hwords, List.append_nil]
    refine ⟨hlt, ?_, hmax⟩
    cases hc : r.inTvalid t with
    | true =>
        rw [age_succ_conversion hc]
        omega
    | false =>
        rw [age_succ_quiet hc]
        omega

/-- The write machine while a packet is finished. A conversion in the last of
the three clocks would come too early. -/
theorem InStep.next_closed (h : Session r N n₀) {t : Nat}
    (hs : InStep r N t)
    (hidle : (r.buf t).wr.inState ≠ .idle)
    (hdata : (r.buf t).wr.inState ≠ .data)
    (hgap : (r.buf t).wr.inState = .wrUpdate → r.inTvalid t = false) :
    Phase N (r.buf (t + 1)) (r.books (t + 1)) (r.age (t + 1)) := by
  have hp := hs.phase
  have hkeep : (r.buf t).wr.inState ≠ .wrUpdate →
      (r.books (t + 1)).building = (r.books t).building := by
    intro hupdate
    rw [books_succ]
    exact (AxiStreamTsData.watch_closed _ _ hidle hdata hupdate).1
  cases hst : (r.buf t).wr.inState with
  | idle => exact absurd hst hidle
  | data => exact absurd hst hdata
  | wrLen =>
      simp only [Phase, hst] at hp
      have hage := age_succ_quiet (h.quiet_of_young (t := t) (by omega))
      unfold Phase
      rw [buf_wr_succ, hkeep (by simp [hst]), hage]
      simp only [AxiStreamTsData.writeNext, hst]
      omega
  | wrTs =>
      simp only [Phase, hst] at hp
      have hage := age_succ_quiet (h.quiet_of_young (t := t) (by omega))
      unfold Phase
      rw [buf_wr_succ, hkeep (by simp [hst]), hage]
      simp only [AxiStreamTsData.writeNext, hst]
      omega
  | wrUpdate =>
      simp only [Phase, hst] at hp
      have hage := age_succ_quiet (hgap hst)
      unfold Phase
      rw [buf_wr_succ, hage]
      simp only [AxiStreamTsData.writeNext, hst]
      omega

/-- **One clock of a session.** -/
theorem InStep.next (h : Session r N n₀) {t : Nat} (ht : n₀ ≤ t)
    (ht2 : 2 ≤ t) (hs : InStep r N t)
    (hgap : (r.buf t).wr.inState = .wrUpdate → r.inTvalid t = false) :
    InStep r N (t + 1) := by
  refine ⟨hs.framer.next h, ?_⟩
  by_cases hidle : (r.buf t).wr.inState = .idle
  · exact hs.next_idle h ht ht2 hidle
  · by_cases hdata : (r.buf t).wr.inState = .data
    · exact hs.next_data h ht hdata
    · exact hs.next_closed h hidle hdata hgap

/-! ## Before the session -/

/-- Until `ena` rises nothing is selected and nothing is accepted. -/
structure Quiet (r : Run) (t : Nat) : Prop where
  age : r.age t = 10 + t
  idle : (r.buf t).wr.inState = .idle
  building : (r.books t).building = []
  committed : (r.books t).committed = []
  beat : (r.streamInBeat t).toNat ≤ t

theorem Session.inTvalid_before (h : Session r N n₀) {t : Nat}
    (ht : t ≤ n₀) :
    r.inTvalid t = false := by
  by_contra hc
  have := h.lt_of_inTvalid (t := t) (by simpa using hc)
  omega

theorem Session.quiet (h : Session r N n₀) {t : Nat} (ht : t ≤ n₀) :
    Quiet r t := by
  induction t with
  | zero =>
      exact ⟨rfl, rfl, rfl, rfl, by simp [streamInBeat, state, reset]⟩
  | succ t ih =>
      have hq := ih (by omega)
      have hlow := h.inTvalid_before (t := t) (by omega)
      have hena := h.streamerIn_ena_before (t := t) (by omega)
      have hnone : AxiStreamTsData.acceptedWords (r.buf t) (r.streamerIn t) =
          [] := by
        simp [AxiStreamTsData.acceptedWords, AxiStreamTsData.accepts, hq.idle,
          hena]
      refine ⟨?_, ?_, ?_, ?_, ?_⟩
      · rw [age_succ_quiet hlow, hq.age]
        omega
      · rcases AxiStreamTsData.idle_cases (r.streamerIn t) hq.idle with
          ⟨hacc, _⟩ | ⟨_, hnext⟩
        · simp [hena] at hacc
        · rw [buf_wr_succ, hnext]
      · rw [books_succ,
          AxiStreamTsData.watch_building_of_ne _ _ (by simp [hq.idle]),
          hq.building, hnone]
        rfl
      · rw [books_succ,
          AxiStreamTsData.watch_committed_of_ne _ _ (by simp [hq.idle]),
          hq.committed]
      · have hle := hq.beat
        rw [(h.framer_quiet hlow).1]
        split_ifs with hfive
        · rw [hfive] at hle
          omega
        · rw [BitVec.toNat_add]
          exact le_trans (Nat.mod_le _ _) (by simpa using hle)

/-- The session does not begin in the first clocks after reset. -/
theorem Session.five_le (h : Session r N n₀) : 5 ≤ n₀ := by
  have hbeat := (h.quiet (le_refl n₀)).beat
  rw [h.idle] at hbeat
  exact hbeat

/-- The first clock of a session whose framer presents no word. -/
theorem Session.first (h : Session r N n₀)
    (hlow : r.streamInTvalid n₀ = false) :
    InStep r N n₀ := by
  have hq := h.quiet (le_refl n₀)
  have hage := hq.age
  have hfive := h.five_le
  refine ⟨⟨fun _ => by omega, fun _ => ⟨h.idle, hlow⟩⟩, ?_⟩
  obtain ⟨v, hv⟩ : ∃ v, n₀ = v + 3 := ⟨n₀ - 3, by omega⟩
  have hready : (r.buf n₀).wr.inTready = true := by
    have hbefore := h.quiet (t := v + 2) (by omega)
    have hena := h.streamerIn_ena_before (t := v + 2) (by omega)
    rcases AxiStreamTsData.idle_cases (r.streamerIn (v + 2)) hbefore.idle with
      ⟨hacc, _⟩ | ⟨_, hnext⟩
    · simp [hena] at hacc
    · rw [hv, buf_wr_succ, hnext, h.spaceCheck v]
  unfold Phase
  rw [hq.idle]
  exact ⟨.inr (by omega), fun _ => hready⟩

/-! ## Whole sessions -/

/-- Words of the current frame that are still to be accepted. -/
def owed (age : Nat) : Nat :=
  if age ≤ 5 then 6 - age else 0

/-- Five words for every conversion: they are committed in packets of `N`, or in
the packet that is being written, or still to come. -/
def Counted (r : Run) (N t : Nat) : Prop :=
  5 * pulsesIn r.inTvalid 0 t =
    N * (r.books t).committed.length + (r.books t).building.length +
      owed (r.age t)

theorem Counted.next (h : Session r N n₀) {t : Nat} (ht : n₀ ≤ t)
    (hs : InStep r N t) (hc : Counted r N t) :
    Counted r N (t + 1) := by
  have hpos := age_pos r t
  have hp := hs.phase
  have hwords := hs.acceptedWords h ht
  have hvalid := hs.framer.streamInTvalid_iff
  have hquiet := hs.framer.streamInTvalid_eq_false_iff
  -- what the age says about the words still to come
  have howed : owed (r.age (t + 1)) + (if r.streamInTvalid t then 1 else 0) =
      owed (r.age t) + if r.inTvalid t then 5 else 0 := by
    cases hconv : r.inTvalid t with
    | true =>
        have hold := h.eight_le_age hconv
        rw [age_succ_conversion hconv, hquiet.mpr (by omega)]
        unfold owed
        simp
        omega
    | false =>
        rw [age_succ_quiet hconv]
        unfold owed
        cases hv : r.streamInTvalid t with
        | true =>
            have := hvalid.mp hv
            simp
            split_ifs <;> omega
        | false =>
            have hold := hquiet.mp hv
            simp
            split_ifs <;> omega
  -- what a clock does to the books
  have hbooks : N * (r.books (t + 1)).committed.length +
      (r.books (t + 1)).building.length =
        N * (r.books t).committed.length + (r.books t).building.length +
          if r.streamInTvalid t then 1 else 0 := by
    rw [books_succ, AxiStreamTsData.watch_committed]
    by_cases hst : (r.buf t).wr.inState = .wrUpdate
    · simp only [Phase, hst] at hp
      rw [AxiStreamTsData.watch_building_of_wrUpdate _ _ hst,
        hquiet.mpr (by omega)]
      simp [AxiStreamTsData.commits, hst, Nat.mul_add, hp.1]
    · rw [AxiStreamTsData.watch_building_of_ne _ _ hst, hwords]
      cases r.streamInTvalid t <;>
        simp [AxiStreamTsData.commits, hst, Nat.add_assoc]
  unfold Counted at hc ⊢
  rw [pulsesIn_succ _ (by omega)]
  cases hconv : r.inTvalid t <;> simp only [hconv] at howed ⊢ <;>
    simp only [if_true, Bool.false_eq_true, if_false] at howed ⊢ <;> omega

/-- A session in which no conversion comes too early. -/
theorem Session.inStep (h : Session r N n₀)
    (hlow : r.streamInTvalid n₀ = false)
    (hgap : ∀ t, InStep r N t → Counted r N t →
      (r.buf t).wr.inState = .wrUpdate → r.inTvalid t = false)
    {t : Nat} (ht : n₀ ≤ t) :
    InStep r N t ∧ Counted r N t := by
  have hfive := h.five_le
  induction t, ht using Nat.le_induction with
  | base =>
      have hq := h.quiet (le_refl n₀)
      refine ⟨h.first hlow, ?_⟩
      have hnone : pulsesIn r.inTvalid 0 n₀ = 0 := by
        rw [pulsesIn_eq_zero_iff]
        exact fun t _ ht => h.inTvalid_before (by omega)
      unfold Counted
      rw [hnone, hq.building, hq.committed, hq.age, owed, if_neg (by omega)]
      simp
  | succ t ht ih =>
      obtain ⟨hs, hc⟩ := ih
      exact ⟨hs.next h ht (by omega) (hgap t hs hc), hc.next h ht hs⟩

/-! ## Frames in the packets -/

/-- The payloads in the books are made of whole frames, followed by the words
of the current frame that have been presented already. -/
structure Framed (r : Run) (t : Nat) : Prop where
  committed : ∀ p ∈ (r.books t).committed, WholeFrames r p.payload
  building : ∃ us : List Nat, (∀ u ∈ us, Marked r u) ∧
    (6 ≤ r.age t →
      (r.books t).building.map Prod.fst = us.flatMap (frameAt r)) ∧
    (r.age t ≤ 5 → ∃ u, u + r.age t = t ∧ Marked r u ∧
      (r.books t).building.map Prod.fst =
        us.flatMap (frameAt r) ++ (frameAt r u).take (r.age t - 1))

/-- The next word of a frame. -/
theorem frameAt_take (r : Run) (u : Nat) {k : Nat}
    (hpos : 1 ≤ k) (hle : k ≤ 5) :
    (frameAt r u).take (k - 1) ++ [r.streamInTdata (u + k)] =
      (frameAt r u).take k := by
  interval_cases k <;> rfl

/-- A clock in which the framer presents a word. -/
theorem Framed.next_word (h : Session r N n₀) {t : Nat} (ht : n₀ ≤ t)
    (hs : InStep r N t) (hf : Framed r t)
    (hv : r.streamInTvalid t = true) :
    Framed r (t + 1) := by
  have hpos := age_pos r t
  have hyoung := hs.framer.streamInTvalid_iff.mp hv
  have hage := age_succ_quiet (h.quiet_of_young (t := t) (by omega))
  have hst : (r.buf t).wr.inState ≠ .wrUpdate := by
    intro hst
    have hp := hs.phase
    simp only [Phase, hst] at hp
    omega
  have hcommitted : (r.books (t + 1)).committed = (r.books t).committed := by
    rw [books_succ, AxiStreamTsData.watch_committed_of_ne _ _ hst]
  have hbuilding : (r.books (t + 1)).building.map Prod.fst =
      (r.books t).building.map Prod.fst ++ [r.streamInTdata t] := by
    rw [books_succ, AxiStreamTsData.watch_building_of_ne _ _ hst,
      hs.acceptedWords h ht, hv]
    simp
  obtain ⟨us, hus, _, hcur⟩ := hf.building
  obtain ⟨u, hu, hmark, hpay⟩ := hcur hyoung
  have hpay' : (r.books (t + 1)).building.map Prod.fst =
      us.flatMap (frameAt r) ++ (frameAt r u).take (r.age t) := by
    rw [hbuilding, hpay, List.append_assoc, ← frameAt_take r u hpos hyoung, hu]
  refine ⟨by rw [hcommitted]; exact hf.committed, ?_⟩
  by_cases hlast : r.age t = 5
  · -- the frame is complete
    refine ⟨us ++ [u], ?_, fun _ => ?_, fun h5 => by omega⟩
    · intro v hv
      rcases List.mem_append.mp hv with hv | hv
      · exact hus v hv
      · rw [List.mem_singleton.mp hv]
        exact hmark
    · rw [hpay', hlast, List.flatMap_append]
      simp [frameAt]
  · refine ⟨us, hus, fun h6 => by omega, fun _ => ⟨u, by omega, hmark, ?_⟩⟩
    rw [hpay', hage]
    rfl

/-- A clock in which the framer presents no word. -/
theorem Framed.next_quiet (h : Session r N n₀) {t : Nat} (ht : n₀ ≤ t)
    (hs : InStep r N t) (hf : Framed r t)
    (hv : r.streamInTvalid t = false) :
    Framed r (t + 1) := by
  have hold := hs.framer.streamInTvalid_eq_false_iff.mp hv
  have hwords := hs.acceptedWords h ht
  rw [hv, if_neg (by simp)] at hwords
  obtain ⟨us, hus, hidle, _⟩ := hf.building
  have hpay := hidle hold
  -- a new frame has no word yet
  have hstart : ∀ vs : List Nat, (∀ v ∈ vs, Marked r v) →
      (r.books (t + 1)).building.map Prod.fst = vs.flatMap (frameAt r) →
      ∃ vs : List Nat, (∀ v ∈ vs, Marked r v) ∧
        (6 ≤ r.age (t + 1) → (r.books (t + 1)).building.map Prod.fst =
          vs.flatMap (frameAt r)) ∧
        (r.age (t + 1) ≤ 5 → ∃ u, u + r.age (t + 1) = t + 1 ∧ Marked r u ∧
          (r.books (t + 1)).building.map Prod.fst =
            vs.flatMap (frameAt r) ++
              (frameAt r u).take (r.age (t + 1) - 1)) := by
    intro vs hvs hbuild
    refine ⟨vs, hvs, fun _ => hbuild, fun hyoung => ?_⟩
    cases hc : r.inTvalid t with
    | true =>
        have hage := age_succ_conversion hc
        exact ⟨t, by omega, h.marked hs.framer hc, by rw [hbuild, hage]; simp⟩
    | false =>
        have hage := age_succ_quiet hc
        omega
  by_cases hst : (r.buf t).wr.inState = .wrUpdate
  · refine ⟨?_, hstart [] (by simp) ?_⟩
    · intro p hp
      rw [books_succ, AxiStreamTsData.watch_committed,
        AxiStreamTsData.commits, if_pos hst] at hp
      rcases List.mem_append.mp hp with hp | hp
      · exact hf.committed p hp
      · rw [List.mem_singleton.mp hp]
        exact ⟨us, hus, hpay⟩
    · rw [books_succ, AxiStreamTsData.watch_building_of_wrUpdate _ _ hst]
      rfl
  · refine ⟨?_, hstart us hus ?_⟩
    · rw [books_succ, AxiStreamTsData.watch_committed_of_ne _ _ hst]
      exact hf.committed
    · rw [books_succ, AxiStreamTsData.watch_building_of_ne _ _ hst, hwords,
        List.append_nil]
      exact hpay

/-- As long as the clocks of a session are in step its packets are aligned. -/
theorem Session.framed (h : Session r N n₀)
    (hs : ∀ t, n₀ ≤ t → InStep r N t) {t : Nat} (ht : n₀ ≤ t) :
    Framed r t := by
  induction t, ht using Nat.le_induction with
  | base =>
      have hq := h.quiet (le_refl n₀)
      have hage := hq.age
      refine ⟨by simp [hq.committed], [], by simp, fun _ => ?_, fun h5 => ?_⟩
      · rw [hq.building]
        rfl
      · omega
  | succ t ht ih =>
      cases hv : r.streamInTvalid t with
      | true => exact ih.next_word h ht (hs t ht) hv
      | false => exact ih.next_quiet h ht (hs t ht) hv

theorem Session.aligned_of_inStep (h : Session r N n₀)
    (hs : ∀ t, n₀ ≤ t → InStep r N t) :
    FrameAligned r n₀ ∧ OpenAligned r := by
  refine ⟨⟨fun t ht hv => ((hs t ht).accepts h ht).2 hv, fun t p hp => ?_⟩,
    fun t => ?_⟩
  · change p ∈ (r.books t).committed at hp
    rcases Nat.lt_or_ge t n₀ with ht | ht
    · rw [(h.quiet ht.le).committed] at hp
      exact absurd hp (by simp)
    · exact (h.framed hs ht).committed p hp
  · change ∃ ws, WholeFrames r ws ∧
      (r.books t).building.map Prod.fst <+: ws
    rcases Nat.lt_or_ge t n₀ with ht | ht
    · rw [(h.quiet ht.le).building]
      exact ⟨[], ⟨[], by simp, rfl⟩, by simp⟩
    · obtain ⟨us, hus, hidle, hcur⟩ := (h.framed hs ht).building
      rcases Nat.lt_or_ge (r.age t) 6 with hyoung | hold
      · obtain ⟨u, _, hmark, hpay⟩ := hcur (by omega)
        refine ⟨(us ++ [u]).flatMap (frameAt r), ⟨us ++ [u], ?_, rfl⟩, ?_⟩
        · intro v hv
          rcases List.mem_append.mp hv with hv | hv
          · exact hus v hv
          · rw [List.mem_singleton.mp hv]
            exact hmark
        · rw [hpay, List.flatMap_append, List.flatMap_singleton]
          exact (List.prefix_append_right_inj _).mpr (List.take_prefix _ _)
      · rw [hidle hold]
        exact ⟨_, ⟨us, hus, rfl⟩, List.prefix_refl _⟩

/-- Eight clocks after a conversion, a number of words that is a multiple of `N`
means that the conversion has filled a packet. -/
theorem InStep.wrUpdate_of_dvd {t : Nat} (h : Session r N n₀)
    (hs : InStep r N t) (hc : Counted r N t) (hage : r.age t = 8)
    (hdvd : N ∣ 5 * pulsesIn r.inTvalid 0 t) :
    (r.buf t).wr.inState = .wrUpdate := by
  have hp := hs.phase
  have hw := (h.inv t).write
  unfold Counted at hc
  rw [hage, owed, if_neg (by omega), Nat.add_zero] at hc
  rw [hc] at hdvd
  have hrest := (Nat.dvd_add_right (Nat.dvd_mul_right N _)).mp hdvd
  cases hst : (r.buf t).wr.inState with
  | idle =>
      simp only [Phase, hst] at hp
      omega
  | data =>
      simp only [Phase, hst] at hp
      simp only [AxiStreamTsData.WriteInv, hst] at hw
      have hne := List.length_pos_iff.mpr hw.nonempty
      have := Nat.le_of_dvd hne hrest
      omega
  | wrLen =>
      simp only [Phase, hst] at hp
      omega
  | wrTs =>
      simp only [Phase, hst] at hp
      omega
  | wrUpdate =>
      rfl

/-- Conversely a packet is committed at age eight, after a multiple of `N`
words. -/
theorem InStep.dvd_of_wrUpdate {t : Nat}
    (hs : InStep r N t) (hc : Counted r N t)
    (hst : (r.buf t).wr.inState = .wrUpdate) :
    r.age t = 8 ∧ N ∣ 5 * pulsesIn r.inTvalid 0 t := by
  have hp := hs.phase
  simp only [Phase, hst] at hp
  refine ⟨hp.2, ?_⟩
  unfold Counted at hc
  rw [hc, hp.2, hp.1, owed, if_neg (by omega), Nat.add_zero]
  exact Dvd.dvd.add (Nat.dvd_mul_right N _) (dvd_refl N)

/-- The first packet of a session is not aligned if the session begins with a
word on the framer's output. -/
theorem Session.not_openAligned_of_word (h : Session r N n₀)
    (hal : FrameAligned r n₀) (hv : r.streamInTvalid n₀ = true) :
    ¬ OpenAligned r := by
  intro hopened
  have hq := h.quiet (le_refl n₀)
  have hfive := h.five_le
  have hready := hal.accepted n₀ (le_refl _) hv
  have hena := h.streamerIn_ena (le_refl n₀)
  have hopen : r.openPayload (n₀ + 1) = [r.streamInTdata n₀] := by
    change (r.books (n₀ + 1)).building.map Prod.fst = _
    rw [books_succ, AxiStreamTsData.watch_building_of_ne _ _ (by simp [hq.idle]),
      hq.building]
    unfold AxiStreamTsData.acceptedWords AxiStreamTsData.accepts
    rw [inCaptured_eq, hv, hready, hq.idle, hena]
    rfl
  obtain ⟨ws, ⟨us, hus, rfl⟩, hprefix⟩ := hopened (n₀ + 1)
  rw [hopen] at hprefix
  cases us with
  | nil =>
      have := hprefix.length_le
      simp at this
  | cons u us =>
      have hhead : r.streamInTdata n₀ = r.streamInTdata (u + 1) := by
        simpa [frameAt] using hprefix
      have hmark := (hus u (by simp)).2
      obtain ⟨m, rfl⟩ : ∃ m, n₀ = m + 1 := ⟨n₀ - 1, by omega⟩
      have hquiet := h.inTvalid_before (t := m) (by omega)
      rw [← hhead, (h.framer_quiet hquiet).2.2] at hmark
      exact not_frameStart_nextWord _ _ _ hmark

/-- In an aligned session that begins without a word no conversion is selected
exactly eight clocks after one that fills a packet: its first word would find
the buffer not ready. -/
theorem Session.not_early_of_aligned (h : Session r N n₀)
    (hal : FrameAligned r n₀) (hlow : r.streamInTvalid n₀ = false) {u : Nat}
    (hu : r.inTvalid u = true) (hu8 : r.inTvalid (u + 8) = true) :
    ¬ N ∣ 5 * pulsesIn r.inTvalid 0 (u + 8) := by
  have hgap : ∀ t, InStep r N t → Counted r N t →
      (r.buf t).wr.inState = .wrUpdate → r.inTvalid t = false := by
    intro t hs _ hst
    by_contra hc
    have hc' : r.inTvalid t = true := by simpa using hc
    have hn := h.lt_of_inTvalid hc'
    have hword : r.streamInTvalid (t + 1) = true :=
      ((hs.framer.next h).busy (by rw [age_succ_conversion hc']; omega)).2
    have hready := hal.accepted (t + 1) (by omega) hword
    rw [inTready_eq, buf_wr_succ] at hready
    simp [AxiStreamTsData.writeNext, hst] at hready
  intro hdvd
  have hn := h.lt_of_inTvalid hu8
  obtain ⟨hs, hc⟩ := h.inStep hlow hgap hn.le
  have hst := hs.wrUpdate_of_dvd h hc (h.age_eight hu) hdvd
  rw [hgap (u + 8) hs hc hst] at hu8
  exact absurd hu8 (by simp)

/-- **All-channel sessions.** The packets of a session are frame aligned, the one
that is being written included, and no word is refused exactly when the framer
presents no word as `ena` rises and no conversion is selected exactly eight
clocks after one that fills a packet. -/
theorem frame_aligned_iff (h : Session r N n₀) :
    FrameAligned r n₀ ∧ OpenAligned r ↔
      r.streamInTvalid n₀ = false ∧
        ∀ u, r.selected u = true → r.selected (u + 8) = true →
          ¬ N ∣ 5 * pulsesIn r.selected 0 (u + 8) := by
  constructor
  · rintro ⟨hal, hopened⟩
    have hlow : r.streamInTvalid n₀ = false := by
      by_contra hv
      exact h.not_openAligned_of_word hal (by simpa using hv) hopened
    refine ⟨hlow, fun u hu hu8 => ?_⟩
    rw [← inTvalid_succ] at hu hu8
    rw [← pulsesIn_inTvalid]
    exact h.not_early_of_aligned hal hlow (u := u + 1) hu (by simpa using hu8)
  · rintro ⟨hlow, hnone⟩
    refine h.aligned_of_inStep (fun t ht => (h.inStep hlow ?_ ht).1)
    intro t hs hc hst
    obtain ⟨hage, hdvd⟩ := hs.dvd_of_wrUpdate hc hst
    by_contra hconv
    have hconv' : r.inTvalid t = true := by simpa using hconv
    obtain ⟨u, hu, huc⟩ := exists_conversion (r := r) (t := t) (by omega)
    obtain ⟨v, rfl⟩ : ∃ v, u = v + 1 :=
      ⟨u - 1, by have := h.lt_of_inTvalid huc; omega⟩
    obtain rfl : v + 8 + 1 = t := by omega
    rw [inTvalid_succ] at huc hconv'
    rw [pulsesIn_inTvalid] at hdvd
    exact hnone v huc hconv' hdvd

/-- Registers after power-up. -/
def powerUp : State where
  inTvalid := false
  inTs := 0
  div := 0
  muxCh0 := 0
  muxCh1 := 0
  dataReg := fun _ => 0
  streamInTs := 0
  framer := ⟨false, 0, 0⟩
  streamer :=
    { rData := fun _ => 0
      rd := ⟨0, 0, 0, false, false, false, 0⟩
      chk := ⟨false, 0⟩
      wr := ⟨0, false, 0, false, 0, 0, 0, 0, .idle, 0, 0⟩ }

/-- A session with packets of one frame that begins in clock 6; a conversion
in clock 6 and then in every `k`-th clock, all of them selected. -/
def periodicInput (k : Nat) (t : Nat) : Input where
  data := fun _ => 1
  valid := decide (t % k = 6)
  timestamp := 0
  block := 0
  ena := decide (6 ≤ t)
  allChan := true
  ch0Sel := 0
  ch1Sel := 0
  numSamples := 5
  rateDiv := 0
  fifoTready := true

def periodicRun (k : Nat) : Run where
  before := powerUp
  resetInput := periodicInput k 0
  input := periodicInput k

theorem periodicRun_session {k : Nat} (hk : 8 ≤ k)
    (hidle : (periodicRun k).streamInBeat 6 = 5) :
    Session (periodicRun k) 5 6 := by
  refine ⟨fun _ => rfl, fun _ => rfl, by decide, by decide, by decide,
    fun _ => rfl, fun t u htu ht hu => ?_, fun _ => rfl, hidle⟩
  have ht' : t % k = 6 := of_decide_eq_true ht
  have hu' : u % k = 6 := of_decide_eq_true hu
  have hdvd : k ∣ u - t :=
    Nat.dvd_of_mod_eq_zero (Nat.sub_mod_eq_zero_of_mod_eq (hu'.trans ht'.symm))
  have hle := Nat.le_of_dvd (by omega) hdvd
  omega

/-- A conversion in every sixteenth clock leaves time enough. -/
theorem frame_aligned_sixteen :
    FrameAligned (periodicRun 16) 6 ∧ OpenAligned (periodicRun 16) := by
  refine (frame_aligned_iff
    (periodicRun_session (k := 16) (by decide) (by decide +kernel))).mpr
    ⟨by decide +kernel, fun u hu hu8 => ?_⟩
  have hu' : u % 16 = 6 := of_decide_eq_true (of_selected hu).2
  have hu8' : (u + 8) % 16 = 6 := of_decide_eq_true (of_selected hu8).2
  omega

/-- With a conversion in every eighth clock the second frame loses its first
word. -/
theorem frame_refused_eight :
    Session (periodicRun 8) 5 6 ∧ ¬ FrameAligned (periodicRun 8) 6 := by
  have h : Session (periodicRun 8) 5 6 :=
    periodicRun_session (by decide) (by decide +kernel)
  refine ⟨h, fun hal => ?_⟩
  have hearly := h.not_early_of_aligned hal (by decide +kernel) (u := 7)
    (by decide +kernel) (by decide +kernel)
  exact hearly (by decide +kernel)

end Run
end SubsystemStream
end MollerFirmware
