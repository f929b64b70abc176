import MollerFirmware.Hdl.AxiStreamTsDataStep
import MollerFirmware.Sw.TaskDma

/-!
# axi_stream_ts_data: whole runs

What the invariant says about the streams of a run after reset.

* `lossless_framing`: the output is the framed form of the accepted words.
* `length_agrees_iff`: the length field of the header counts the words behind
  it exactly in the runs in which enable never falls between two words.
* `buffer_safe`: packets are bounded and no unread word is overwritten, in
  every run in which no packet is started with a zero sample count.
-/

namespace MollerFirmware
namespace AxiStreamTsData

open Clocked

variable {P : Params}

/-- Pointer behind the last committed word. While the header and the timestamp
are written, `wr_start` is already past the packet they belong to. -/
def commitPtr (s : State P) : BitVec (P.depthBits + 1) :=
  match s.wr.inState with
  | .wrTs => s.wr.wrPos
  | .wrUpdate => s.wr.wrPos - 1
  | _ => s.wr.wrStart

/-- Address of a word that is committed and not yet loaded by the read side. -/
def UnreadAddr (s : State P) (a : BitVec P.depthBits) : Prop :=
  ∃ k, k < (commitPtr s - s.rd.rdPos).toNat ∧
    a = (s.rd.rdPos + BitVec.ofNat _ k).setWidth P.depthBits

/-- The RAM is being written at the address of an unread word. -/
def Overwrites (s : State P) : Prop :=
  s.wr.wrEna = true ∧ UnreadAddr s (s.wr.wrPos.setWidth P.depthBits)

/-- Packets committed before clock `t`. -/
def packets (s : State P) (inp : Nat → Input) (t : Nat) : List Packet :=
  (ledgerAt s inp t).committed

/-- Words accepted for the packet that is being written in clock `t`. -/
def openWords (s : State P) (inp : Nat → Input) (t : Nat) :
    List (BitVec 64 × BitVec 64) :=
  (ledgerAt s inp t).building

/-- The pointer behind the committed words stands for `commitPos`. -/
theorem Inv.commitPtr_eq
    {s : State P} {g : Ledger} (h : Inv s g) :
    commitPtr s = BitVec.ofNat _ (g.commitPos P) := by
  have hw := h.write
  have hstart := h.space.wrStart
  unfold commitPtr
  unfold startPos at hstart
  cases hst : s.wr.inState with
  | idle => simpa [hst] using hstart
  | data => simpa [hst] using hstart
  | wrLen => simpa [hst] using hstart
  | wrTs =>
      simp only [WriteInv, hst] at hw
      exact hw.wrPos
  | wrUpdate =>
      simp only [WriteInv, hst] at hw
      simp only [hw.wrPos]
      rw [BitVec.ofNat_add]
      exact BitVec.add_sub_cancel _ _

/-- Under the invariant no unread word is overwritten. -/
theorem Inv.not_overwrites
    {s : State P} {g : Ledger} (h : Inv s g) (h3 : 3 ≤ P.maxPktLen) :
    ¬ Overwrites s := by
  rintro ⟨hena, k, hk, haddr⟩
  have hunread := h.unread_le
  have hcommit : g.commitPos P = g.loaded + (g.unread P).length := rfl
  have hdepth := Nat.two_pow_pos P.depthBits
  obtain ⟨x, hx, hlo, hhi⟩ := h.write_free h3 hena
  rw [h.commitPtr_eq, h.read.rdPos,
    ofNat_sub_ofNat_toNat (by omega) (by omega)] at hk
  rw [hx, h.read.rdPos, ofNat_add_ofNat,
    BitVec.setWidth_ofNat_of_le (by omega),
    BitVec.setWidth_ofNat_of_le (by omega)] at haddr
  exact ofNat_ne_ofNat (by omega) (by omega) haddr.symm

/-- The packets are the commits of the clocks before. -/
theorem packets_eq_eventsBefore
    (s : State P) (inp : Nat → Input) (t : Nat) :
    packets s inp t =
      eventsBefore
        (fun u => commits (stateAt s inp u) (ledgerAt s inp u)) t := by
  induction t with
  | zero =>
      rfl
  | succ t ih =>
      rw [eventsBefore_succ, ← ih]
      exact watch_committed _ _ _

/-- The accepted words are those of the committed packets and of the packet
that is being written. -/
theorem accepted_eq
    (s : State P) (inp : Nat → Input) (t : Nat) :
    accepted s inp t =
      (packets s inp t).flatMap Packet.words ++ openWords s inp t := by
  rw [packets_eq_eventsBefore, eventsBefore_flatMap]
  refine (eventsBefore_conservation (openWords s inp) ?_ rfl t).symm
  intro u
  change _ ++ (watch (ledgerAt s inp u) (stateAt s inp u) (inp u)).building =
    (ledgerAt s inp u).building ++ _
  by_cases hst : (stateAt s inp u).wr.inState = .wrUpdate
  · rw [watch_building_of_wrUpdate _ _ hst,
      acceptedWords_eq_nil _ (by simp [hst]) (by simp [hst])]
    simp [commits, hst, Ledger.nextPacket]
  · rw [watch_building_of_ne _ _ hst]
    simp [commits, hst]

/-- Packets are numbered from one, modulo `2 ^ 32`. -/
theorem packets_seq
    (s : State P) (inp : Nat → Input) (t : Nat) :
    ∀ k (hk : k < (packets s inp t).length),
      (packets s inp t)[k].seq = BitVec.ofNat 32 (k + 1) := by
  induction t with
  | zero =>
      intro k hk
      simp [packets, ledgerAt, Ledger.empty] at hk
  | succ t ih =>
      have hsucc : packets s inp (t + 1) =
          packets s inp t ++
            commits (stateAt s inp t) (ledgerAt s inp t) :=
        watch_committed _ _ _
      intro k hk
      by_cases hold : k < (packets s inp t).length
      · simp only [hsucc, List.getElem_append_left hold]
        exact ih k hold
      · -- the packet committed in clock `t`
        have hlast : commits (stateAt s inp t) (ledgerAt s inp t) =
            [(ledgerAt s inp t).nextPacket] := by
          unfold commits
          rw [if_pos]
          by_contra hst
          simp [hsucc, commits, hst] at hk
          omega
        have hkeq : k = (packets s inp t).length := by
          rw [hsucc, hlast, List.length_append, List.length_singleton] at hk
          omega
        subst hkeq
        simp only [hsucc, hlast, List.getElem_concat_length]
        rfl

/-- The words transferred, followed by the pending ones, are the beats of the
committed packets. -/
theorem transferred_append_pending
    (h3 : 3 ≤ P.maxPktLen) (s : State P) (inp : Nat → Input)
    (hok : ∀ t, FirstWordOk (stateAt s inp t) (inp t)) (t : Nat) :
    transferred s inp t ++ pending (stateAt s inp t) (ledgerAt s inp t) =
      (packets s inp t).flatMap (Packet.beats P) := by
  rw [packets_eq_eventsBefore, eventsBefore_flatMap]
  refine eventsBefore_conservation
    (fun u => pending (stateAt s inp u) (ledgerAt s inp u)) ?_ ?_ t
  · intro u
    have h := run_inv h3 s inp hok u
    exact h.flow (inp u) h.unread_le
  · simp [pending, stateAt, ledgerAt, reset, Ledger.unread, Ledger.empty]

/-- What the streams of a run look like in clock `t`. -/
structure FramedAt (s : State P) (inp : Nat → Input) (t : Nat) : Prop where
  /-- the output is a sequence of packets, possibly not yet complete -/
  output : transferred s inp t <+:
    (packets s inp t).flatMap (Packet.beats P)
  /-- once nothing is waiting, all committed packets have been sent -/
  drained : (stateAt s inp t).rd.outTvalid = false →
    (stateAt s inp t).wr.inPkts = (stateAt s inp t).rd.outPkts →
    transferred s inp t = (packets s inp t).flatMap (Packet.beats P)
  /-- packet number `k` carries the number `k + 1` -/
  seq : ∀ k (hk : k < (packets s inp t).length),
    (packets s inp t)[k].seq = BitVec.ofNat 32 (k + 1)
  /-- every packet has a payload -/
  payload : ∀ p ∈ packets s inp t, p.words ≠ []
  /-- the payloads are the accepted words, up to the packet being written -/
  input : accepted s inp t =
    (packets s inp t).flatMap Packet.words ++ openWords s inp t
  /-- between two packets every accepted word belongs to a committed packet -/
  closed : (stateAt s inp t).wr.inState = .idle → openWords s inp t = []
  /-- no committed word is overwritten before the read side has loaded it -/
  safe : ¬ Overwrites (stateAt s inp t)

theorem framedAt_of_firstWordOk
    (h3 : 3 ≤ P.maxPktLen) (s : State P) (inp : Nat → Input)
    (hok : ∀ t, FirstWordOk (stateAt s inp t) (inp t)) (t : Nat) :
    FramedAt s inp t := by
  have h := run_inv h3 s inp hok t
  have hflow := transferred_append_pending h3 s inp hok t
  refine ⟨⟨_, hflow⟩, ?_, packets_seq s inp t, ?_, accepted_eq s inp t, ?_,
    h.not_overwrites h3⟩
  · intro hv hpkts
    have hbuf : bufNotEmpty (stateAt s inp t) = false := by
      simp [bufNotEmpty, hpkts]
    have hqueue : (ledgerAt s inp t).queue = [] := by
      by_contra hne
      have := (bufNotEmpty_iff h.read h.unread_le hv).mpr hne
      simp [hbuf] at this
    simpa [pending, hv, Ledger.unread, hqueue, h.read.idle hv] using hflow
  · intro p hp
    exact (h.books p hp).1
  · intro hst
    have hw := h.write
    simp only [WriteInv, hst] at hw
    exact hw.empty

/-- **Lossless framing.** In every run after reset with positive sample counts
the output is the framed form of the accepted words. -/
theorem lossless_framing
    (h3 : 3 ≤ P.maxPktLen) (s : State P) (inp : Nat → Input)
    (hpos : ∀ t, (inp t).inNumSamples ≠ 0) (t : Nat) :
    FramedAt s inp t :=
  framedAt_of_firstWordOk h3 s inp (fun u _ _ _ => hpos u) t

/-- A small instance: packets of one payload word and up, eight RAM words. -/
def smallParams : Params where
  id := 0xDD
  maxPktLen := 3
  depthBits := 3

/-- Registers of the small instance after power-up. -/
def smallState : State smallParams where
  rData := fun _ => 0
  rd := ⟨0, 0, 0, false, false, false, 0⟩
  chk := ⟨false, 0⟩
  wr := ⟨0, false, 0, false, 0, 0, 0, 0, .idle, 0, 0⟩

/-- Words `100`, `101`, ... offered in every clock up to clock 3. -/
def twoWordsInput (t : Nat) : Input where
  ena := true
  inTimestamp := BitVec.ofNat 64 (1000 + t)
  inNumSamples := 1
  inTdata := BitVec.ofNat 64 (100 + t)
  inTvalid := decide (t < 4)
  inTlast := false
  outTready := true

theorem lossless_framing_twoWords :
    transferred smallState twoWordsInput 12 =
      [⟨true, false, 0xDD00000000010003#64⟩, ⟨false, false, 1002#64⟩,
        ⟨false, false, 102#64⟩, ⟨false, true, 103#64⟩] :=
  ((lossless_framing (P := smallParams) (by decide) smallState twoWordsInput
    (fun _ => by simp [twoWordsInput]) 12).drained (by decide +kernel)
    (by decide +kernel)).trans (by decide +kernel)

/-- The low half word of a header is the length field. -/
theorem headerLen_headerWord
    (P : Params) (n : BitVec 32) (len : BitVec 16) :
    (TaskDma.headerLen (headerWord P n len)).toNat = len.toNat := by
  have hlow : (headerWord P n len).setWidth 16 = len := by
    unfold headerWord
    rw [BitVec.setWidth_append]
    simp
  rw [TaskDma.headerLen_toNat, ← BitVec.toNat_setWidth, hlow]

/-- The length field of a packet counts the words behind its header, so that
the DMA thread publishes the whole packet and nothing else. -/
def LengthAgrees (P : Params) (p : Packet) : Prop :=
  (TaskDma.headerLen (headerWord P p.seq p.len)).toNat + 1 =
      (p.beats P).length ∧
    TaskDma.messageBytes (headerWord P p.seq p.len) =
      8 * (p.beats P).length

theorem lengthAgrees_iff_len
    (P : Params) (p : Packet) :
    LengthAgrees P p ↔ p.len.toNat = p.words.length + 1 := by
  unfold LengthAgrees TaskDma.messageBytes
  rw [headerLen_headerWord, Packet.beats_length]
  omega

/-- Three clocks after a packet is closed it is committed as it was closed. -/
theorem packets_after_wrLen
    {s : State P} {inp : Nat → Input} {t : Nat}
    (hst : (stateAt s inp t).wr.inState = .wrLen) :
    packets s inp (t + 3) =
      packets s inp t ++ [(ledgerAt s inp t).nextPacket] := by
  have hts : (stateAt s inp (t + 1)).wr.inState = .wrTs :=
    (inState_step _ _).1.mpr hst
  have hup : (stateAt s inp (t + 2)).wr.inState = .wrUpdate :=
    (inState_step _ _).2.mpr hts
  -- neither the header nor the timestamp touches the books of the packet
  have hkeep : ∀ u, (stateAt s inp u).wr.inState ≠ .idle →
      (stateAt s inp u).wr.inState ≠ .data →
      (stateAt s inp u).wr.inState ≠ .wrUpdate →
      packets s inp (u + 1) = packets s inp u ∧
        (ledgerAt s inp (u + 1)).nextPacket =
          (ledgerAt s inp u).nextPacket := by
    intro u hidle hdata hupdate
    exact ⟨watch_committed_of_ne _ _ hupdate,
      (watch_closed _ _ hidle hdata hupdate).2⟩
  obtain ⟨hp1, hn1⟩ := hkeep t (by simp [hst]) (by simp [hst]) (by simp [hst])
  obtain ⟨hp2, hn2⟩ :=
    hkeep (t + 1) (by simp [hts]) (by simp [hts]) (by simp [hts])
  have hlast : packets s inp (t + 3) =
      packets s inp (t + 2) ++ [(ledgerAt s inp (t + 2)).nextPacket] := by
    unfold packets
    rw [ledgerAt_succ, watch_committed]
    simp [commits, hup]
  rw [hlast, hp2, hp1, hn2, hn1]

/-- Without a drop the books never note one, and all length fields agree. -/
theorem packets_len_of_no_drop
    {s : State P} {inp : Nat → Input}
    (hdrop : ∀ t, drops (stateAt s inp t) (inp t) = false) (t : Nat) :
    (ledgerAt s inp t).dropped = false ∧
      ∀ p ∈ packets s inp t, p.len = BitVec.ofNat 16 (p.words.length + 1) := by
  induction t with
  | zero =>
      exact ⟨rfl, fun p hp => by simp [packets, ledgerAt, Ledger.empty] at hp⟩
  | succ t ih =>
      obtain ⟨hkept, hlen⟩ := ih
      refine ⟨?_, fun p hp => ?_⟩
      · by_cases hst : (stateAt s inp t).wr.inState = .wrUpdate
        · exact watch_dropped_of_wrUpdate _ (inp t) hst
        · rw [ledgerAt_succ, watch_dropped_of_ne _ (inp t) hst, hkept, hdrop t]
          rfl
      · have hsucc : packets s inp (t + 1) =
            packets s inp t ++
              commits (stateAt s inp t) (ledgerAt s inp t) :=
          watch_committed _ _ _
        rw [hsucc, List.mem_append] at hp
        rcases hp with hp | hp
        · exact hlen p hp
        · unfold commits at hp
          split_ifs at hp
          · rw [List.mem_singleton] at hp
            simp [hp, Ledger.nextPacket, hkept]
          · simp at hp

/-- A packet closed between two words carries a length that is one too high. -/
theorem not_lengthAgrees_of_drop
    (h3 : 3 ≤ P.maxPktLen) {s : State P} {inp : Nat → Input}
    (hok : ∀ t, FirstWordOk (stateAt s inp t) (inp t)) {t : Nat}
    (hdrop : drops (stateAt s inp t) (inp t) = true) :
    ∃ p ∈ packets s inp (t + 4), ¬ LengthAgrees P p := by
  have hstate : (stateAt s inp t).wr.inState = .data := by
    simp only [drops, Bool.and_eq_true, decide_eq_true_eq] at hdrop
    exact hdrop.1.1
  have hcap : inCaptured (stateAt s inp t) (inp t) = false := by
    simp only [drops, Bool.and_eq_true, Bool.not_eq_true'] at hdrop
    exact hdrop.1.2
  have hena : (inp t).ena = false := by
    simp only [drops, Bool.and_eq_true, Bool.not_eq_true'] at hdrop
    exact hdrop.2
  have hclosed : (stateAt s inp (t + 1)).wr.inState = .wrLen := by
    rw [stateAt_succ]
    simp [step, writeNext, hstate, dataNext, hcap, hena]
  have hdropped : (ledgerAt s inp (t + 1)).dropped = true := by
    rw [ledgerAt_succ, watch_dropped_of_ne _ (inp t) (by simp [hstate]),
      hdrop, Bool.or_true]
  refine ⟨(ledgerAt s inp (t + 1)).nextPacket, ?_, ?_⟩
  · rw [packets_after_wrLen hclosed]
    simp
  · have hw := (run_inv h3 s inp hok (t + 1)).write
    simp only [WriteInv, hclosed] at hw
    have hsize := hw.size
    have hmax := intMaxPktLen_le_65536 P
    rw [lengthAgrees_iff_len]
    simp only [Ledger.nextPacket, hdropped, if_true, BitVec.toNat_ofNat]
    omega

/-- **The length field and the DMA reader.** With positive sample counts the
output is made of the committed packets, and their length fields all count the
words behind the header exactly in the runs in which enable never falls in a
clock of an open packet without an accepted word. -/
theorem length_agrees_iff
    (h3 : 3 ≤ P.maxPktLen) (s : State P) (inp : Nat → Input)
    (hpos : ∀ t, (inp t).inNumSamples ≠ 0) :
    (∀ t, transferred s inp t <+:
      (packets s inp t).flatMap (Packet.beats P)) ∧
    ((∀ t, ∀ p ∈ packets s inp t, LengthAgrees P p) ↔
      ∀ t, drops (stateAt s inp t) (inp t) = false) := by
  have hok : ∀ t, FirstWordOk (stateAt s inp t) (inp t) :=
    fun t _ _ _ => hpos t
  refine ⟨fun t => ⟨_, transferred_append_pending h3 s inp hok t⟩, ?_, ?_⟩
  · intro hagree t
    by_contra hdrop
    obtain ⟨p, hp, hne⟩ :=
      not_lengthAgrees_of_drop h3 hok (by simpa using hdrop)
    exact hne (hagree (t + 4) p hp)
  · intro hdrop t p hp
    have hlen := (packets_len_of_no_drop hdrop t).2 p hp
    have hsize := ((run_inv h3 s inp hok t).books p hp).2
    have hmax := intMaxPktLen_le_65536 P
    rw [lengthAgrees_iff_len, hlen, BitVec.toNat_ofNat]
    omega

theorem length_agrees_twoWords :
    packets smallState twoWordsInput 12 =
        [⟨1, 3, [(102, 1002), (103, 1003)]⟩] ∧
      LengthAgrees smallParams ⟨1, 3, [(102, 1002), (103, 1003)]⟩ := by
  have hpkts : packets smallState twoWordsInput 12 =
      [⟨1, 3, [(102, 1002), (103, 1003)]⟩] := by
    decide +kernel
  have hagree := (length_agrees_iff (P := smallParams) (by decide) smallState
    twoWordsInput (fun _ => by simp [twoWordsInput])).2.mpr
    (fun t => by simp [drops, twoWordsInput])
  exact ⟨hpkts, hagree 12 _ (by rw [hpkts]; simp)⟩

/-- One word is accepted in clock 2, then enable falls while no word is
offered. -/
def dropInput (t : Nat) : Input where
  ena := decide (t < 3)
  inTimestamp := 7
  inNumSamples := 1
  inTdata := 5
  inTvalid := decide (t < 3)
  inTlast := false
  outTready := true

/-- The packet has two words behind its header, and its length field says
three. -/
theorem length_disagrees_dropInput :
    (∀ t, (dropInput t).inNumSamples ≠ 0) ∧
      packets smallState dropInput 7 = [⟨1, 3, [(5, 7)]⟩] ∧
      ¬ ∀ t, ∀ p ∈ packets smallState dropInput t,
        LengthAgrees smallParams p := by
  have hpkts : packets smallState dropInput 7 = [⟨1, 3, [(5, 7)]⟩] := by
    decide +kernel
  refine ⟨fun _ => by simp [dropInput], hpkts, fun hagree => ?_⟩
  have hlen := hagree 7 ⟨1, 3, [(5, 7)]⟩ (by rw [hpkts]; simp)
  rw [lengthAgrees_iff_len] at hlen
  exact absurd hlen (by decide)

/-- A packet never outgrows the RAM space set aside for it, and no unread word
is overwritten. -/
structure SafeAt (s : State P) (inp : Nat → Input) (t : Nat) : Prop where
  writing : (openWords s inp t).length + 2 ≤ max P.maxPktLen 4
  written : ∀ p ∈ packets s inp t, (p.beats P).length ≤ max P.maxPktLen 4
  safe : ¬ Overwrites (stateAt s inp t)

/-- **Buffer safety.** In every run after reset in which no packet is started
with a zero sample count. -/
theorem buffer_safe
    (h3 : 3 ≤ P.maxPktLen) (s : State P) (inp : Nat → Input)
    (hok : ∀ t, FirstWordOk (stateAt s inp t) (inp t)) (t : Nat) :
    SafeAt s inp t := by
  have h := run_inv h3 s inp hok t
  have hmax := intMaxPktLen_le h3
  refine ⟨?_, ?_, h.not_overwrites h3⟩
  · have hw := h.write
    have hopen : ∀ ho : OpenInv (stateAt s inp t) (ledgerAt s inp t),
        (openWords s inp t).length + 2 ≤ max P.maxPktLen 4 := by
      intro ho
      have hsize := ho.size
      unfold openWords
      omega
    cases hst : (stateAt s inp t).wr.inState <;>
      simp only [WriteInv, hst] at hw
    · have hnone : openWords s inp t = [] := hw.empty
      rw [hnone]
      exact le_max_of_le_right (by simp)
    · exact hopen hw.toOpenInv
    · exact hopen hw.toOpenInv
    · exact hopen hw.toOpenInv
    · exact hopen hw.toOpenInv
  · intro p hp
    have hsize := (h.books p hp).2
    rw [Packet.beats_length]
    omega

theorem buffer_safe_twoWords :
    SafeAt smallState twoWordsInput 12 :=
  buffer_safe (P := smallParams) (by decide) smallState twoWordsInput
    (fun _ _ _ _ => by simp [twoWordsInput]) 12

/-- The sample count register is zero, as after power-up. Enable is low in
clock 3 only, the receiver is never ready and a word is offered in every
clock. -/
def zeroSamplesInput (t : Nat) : Input where
  ena := decide (t ≠ 3)
  inTimestamp := 7
  inNumSamples := 0
  inTdata := BitVec.ofNat 64 t
  inTvalid := true
  inTlast := false
  outTready := false

/-- The second packet runs into the unread words of the first one. -/
theorem buffer_unsafe_zeroSamples :
    smallParams.maxPktLen < 2 ^ smallParams.depthBits ∧
      (openWords smallState zeroSamplesInput 12).length + 2 = 6 ∧
      Overwrites (stateAt smallState zeroSamplesInput 12) ∧
      ¬ ∀ t, SafeAt smallState zeroSamplesInput t := by
  have hover : Overwrites (stateAt smallState zeroSamplesInput 12) :=
    ⟨by decide +kernel, 0, by decide +kernel, by decide +kernel⟩
  exact ⟨by decide, by decide +kernel, hover, fun h => (h 12).safe hover⟩

end AxiStreamTsData
end MollerFirmware
