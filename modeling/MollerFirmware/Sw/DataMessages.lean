import MollerFirmware.Hdl.AxiStreamTsDataFraming
import MollerFirmware.Hdl.CapturePackets
import MollerFirmware.Sw.DmaProxy

/-!
# From the streams of the firmware to messages

The packets of the streamer and those of the capture subsystem meet in
`packet_switch` in front of the DMA engine, which lets whole packets pass, those
of each stream in order. Clients subscribe to the topics "ADC" and "AVG".
-/

namespace MollerFirmware
namespace DmaProxy

open AxiStreamTsData (stateAt drops headerWord)
open TaskDma (headerId)

/-! ## The two streams -/

/-- The packets that a streamer has committed. -/
def streamerPackets {P : AxiStreamTsData.Params} (st : AxiStreamTsData.State P)
    (inp : Nat → AxiStreamTsData.Input) (t : Nat) : List Packet :=
  (AxiStreamTsData.packets st inp t).map fun p =>
    (p.beats P).map AxiStreamTsData.Beat.tdata

/-- The packets that the capture subsystem has begun to send. -/
def averagePackets (r : SubsystemCapture.Session) (t : Nat) : List Packet :=
  (r.emissions t).map fun u =>
    (r.packetAt u).map fun b => b.tdata.setWidth 64

/-- A packet goes to a topic. -/
def onTopic (name : String) (p : Packet) : Bool :=
  topic (p.headD 0) == some name

theorem headerId_headerWord (P : AxiStreamTsData.Params) (n : BitVec 32)
    (len : BitVec 16) :
    headerId (headerWord P n len) = P.id := by
  refine BitVec.eq_of_getLsbD_eq fun i hi => ?_
  rw [headerId, BitVec.getLsbD_setWidth, BitVec.getLsbD_ushiftRight, headerWord,
    BitVec.getLsbD_append, BitVec.getLsbD_append, BitVec.getLsbD_append,
    if_neg (by omega), if_neg (by omega), if_neg (by omega),
    show 56 + i - 16 - 32 - 8 = i by omega]
  simp [hi]

theorem topic_of_headerId {header : BitVec 64} (hid : headerId header ≠ 0) :
    topic header =
      if headerId header = 0xAA then some "AVG"
      else if headerId header = 0xDD then some "ADC"
      else none := by
  have hzero : header ≠ 0 := by
    rintro rfl
    exact hid (by decide)
  rw [topic, if_neg hzero]

/-- As long as enable does not fall within a packet the streamer's packets have
the right length field. -/
theorem streamerPackets_wellFormed {P : AxiStreamTsData.Params}
    (h3 : 3 ≤ P.maxPktLen) (hid : P.id = 0xDD) {st : AxiStreamTsData.State P}
    {inp : Nat → AxiStreamTsData.Input}
    (hpos : ∀ t, (inp t).inNumSamples ≠ 0)
    (hdrop : ∀ t, drops (stateAt st inp t) (inp t) = false) {t : Nat}
    {p : Packet} (hp : p ∈ streamerPackets st inp t) :
    WellFormed p ∧ onTopic "ADC" p = true := by
  obtain ⟨q, hq, rfl⟩ := List.mem_map.mp hp
  have hlen := (AxiStreamTsData.packets_len_of_no_drop hdrop t).2 q hq
  have hsize := ((AxiStreamTsData.run_inv h3 st inp
    (fun u _ _ _ => hpos u) t).books q hq).2
  have hmax := AxiStreamTsData.intMaxPktLen_le_65536 P
  have hhead : ((q.beats P).map AxiStreamTsData.Beat.tdata).headD 0 =
      headerWord P q.seq q.len := by
    rfl
  constructor
  · rw [WellFormed, hhead, AxiStreamTsData.headerLen_headerWord, hlen,
      BitVec.toNat_ofNat, List.length_map, AxiStreamTsData.Packet.beats_length]
    omega
  · have hheader := (headerId_headerWord P q.seq q.len).trans hid
    rw [onTopic, hhead, topic_of_headerId (by rw [hheader]; decide), hheader]
    rfl

theorem averagePackets_wellFormed {r : SubsystemCapture.Session} {t : Nat}
    {p : Packet} (hp : p ∈ averagePackets r t) :
    WellFormed p ∧ onTopic "AVG" p = true := by
  obtain ⟨u, -, rfl⟩ := List.mem_map.mp hp
  have hhead : ((r.packetAt u).map fun b => b.tdata.setWidth 64).headD 0 =
      SubsystemCapture.packetizerParams.header.setWidth 64 := by
    rfl
  constructor
  · rw [WellFormed, hhead, List.length_map, SubsystemCapture.Session.packetAt,
      SimplePacketizer.packet, List.length_cons, List.length_ofFn]
    decide
  · rw [onTopic, hhead]
    decide

/-! ## Messages -/

/-- The packets that the switch has let through. -/
structure Feed (adc avg w : List Packet) : Prop where
  source : ∀ p ∈ w, p ∈ adc ∨ p ∈ avg
  adc : w.filter (onTopic "ADC") <+: adc
  avg : w.filter (onTopic "AVG") <+: avg

/-- The packets of the successful calls. -/
def deliveredPackets (outcomes : List TaskDma.ProxyStatus) (w : List Packet) :
    List Packet :=
  (List.range outcomes.length).filterMap fun k =>
    if outcomes[k]? = some .noError then w[k]? else none

theorem filterMap_getElem?_range {α : Type} (w : List α) (n : Nat) :
    (List.range n).filterMap (fun k => w[k]?) = w.take n := by
  induction n with
  | zero => rfl
  | succ n ih =>
      rw [List.range_succ, List.filterMap_append, ih, filterMap_one,
        List.take_add_one]

theorem filterMap_if {α β : Type} (l : List α) (p : α → Prop)
    [DecidablePred p] (f : α → Option β) :
    l.filterMap (fun a => if p a then f a else none) =
      (l.filter (fun a => p a)).filterMap f := by
  induction l with
  | nil => rfl
  | cons a l ih =>
      by_cases ha : p a
      · simp [ha, ih, List.filterMap_cons]
      · simp [ha, ih]

theorem deliveredPackets_sublist (outcomes : List TaskDma.ProxyStatus)
    (w : List Packet) :
    List.Sublist (deliveredPackets outcomes w) w := by
  rw [deliveredPackets, filterMap_if]
  refine (List.filter_sublist.filterMap _).trans ?_
  rw [filterMap_getElem?_range]
  exact List.take_sublist _ _

/-- What is published is what was delivered, under its topics. -/
theorem filterMap_publication (outcomes : List TaskDma.ProxyStatus)
    (w : List Packet) :
    ((List.range outcomes.length).filterMap fun k =>
        if outcomes[k]? = some .noError then w[k]?.bind publication
        else none) =
      (deliveredPackets outcomes w).filterMap publication := by
  rw [deliveredPackets, filterMap_if, filterMap_if, List.filterMap_filterMap]

/-- The messages of a topic. -/
def messagesOn (name : String) (ms : List (String × Packet)) : List Packet :=
  (ms.filter fun m => m.1 = name).map Prod.snd

theorem messagesOn_cons (name found : String) (p : Packet)
    (ms : List (String × Packet)) :
    messagesOn name ((found, p) :: ms) =
      if found = name then p :: messagesOn name ms else messagesOn name ms := by
  unfold messagesOn
  by_cases hfound : found = name <;> simp [hfound]

theorem messagesOn_publication (name : String) (w : List Packet) :
    messagesOn name (w.filterMap publication) = w.filter (onTopic name) := by
  induction w with
  | nil => rfl
  | cons p w ih =>
      cases htopic : topic (p.headD 0) with
      | none =>
          have hnone : publication p = none := by rw [publication, htopic]; rfl
          have hoff : onTopic name p = false := by rw [onTopic, htopic]; rfl
          rw [List.filterMap_cons_none hnone, ih, List.filter_cons, hoff]
          rfl
      | some found =>
          have hsome : publication p = some (found, p) := by
            rw [publication, htopic]
            rfl
          have hon : onTopic name p = decide (found = name) := by
            rw [onTopic, htopic]
            by_cases hfound : found = name <;> simp [hfound]
          rw [List.filterMap_cons_some hsome, messagesOn_cons, ih,
            List.filter_cons, hon]
          by_cases hfound : found = name <;> simp [hfound]

theorem length_publication {w : List Packet}
    (h : ∀ p ∈ w, onTopic "ADC" p = true ∨ onTopic "AVG" p = true) :
    (w.filterMap publication).length = w.length := by
  induction w with
  | nil => rfl
  | cons p w ih =>
      obtain ⟨found, hfound⟩ : ∃ found, topic (p.headD 0) = some found := by
        rcases h p (by simp) with hp | hp <;>
          exact ⟨_, by simpa [onTopic] using hp⟩
      have hsome : publication p = some (found, p) := by
        rw [publication, hfound]
        rfl
      rw [List.filterMap_cons_some hsome, List.length_cons, List.length_cons,
        ih fun q hq => h q (by simp [hq])]

theorem countP_range_getElem? {α : Type} [DecidableEq α] (a : α)
    (l : List α) :
    (List.range l.length).countP (fun k => l[k]? = some a) = l.count a := by
  induction l using List.reverseRecOn with
  | nil => rfl
  | append_singleton l x ih =>
      have hsame : (List.range l.length).countP
            (fun k => (l ++ [x])[k]? = some a) =
          (List.range l.length).countP (fun k => l[k]? = some a) := by
        refine List.countP_congr fun k hk => ?_
        rw [List.getElem?_append_left (List.mem_range.mp hk)]
      rw [List.length_append, List.length_singleton, List.range_succ,
        List.countP_append, hsame, ih, List.count_append, List.countP_singleton,
        List.count_singleton, List.getElem?_concat_length]
      simp

/-- Every successful call delivers. -/
theorem length_deliveredPackets {outcomes : List TaskDma.ProxyStatus}
    {w : List Packet}
    (h : ∀ k, outcomes[k]? = some .noError → k < w.length) :
    (deliveredPackets outcomes w).length = outcomes.count .noError := by
  rw [deliveredPackets, List.length_filterMap_eq_countP, ← countP_range_getElem?]
  refine List.countP_congr fun k _ => ?_
  by_cases hk : outcomes[k]? = some .noError
  · simp [hk, h k hk]
  · simp [hk]

/-- **Messages of the data streams.** Let the channel take packets of the
streamer and of the capture subsystem and queue every transfer, the number of
samples not be zero, and enable of the streamer never fall within a packet. Then
each message is a whole packet of its stream and nothing else; those of a topic
come in the order of the stream, none of them twice; and every successful call
brings one message. -/
theorem data_messages {P : AxiStreamTsData.Params} (h3 : 3 ≤ P.maxPktLen)
    (hid : P.id = 0xDD) {st : AxiStreamTsData.State P}
    {inp : Nat → AxiStreamTsData.Input}
    (hpos : ∀ t, (inp t).inNumSamples ≠ 0)
    (hdrop : ∀ t, drops (stateAt st inp t) (inp t) = false)
    (r : SubsystemCapture.Session) (t u : Nat) {s : Thread}
    (hfresh : Fresh s.channel) (hnone : s.published = []) {ts : List Turn}
    (hqueued : ∀ t ∈ ts, t.start = .queued)
    (hfeed : Feed (streamerPackets st inp t) (averagePackets r u)
      (s.run ts).channel.written) :
    List.Sublist (messagesOn "ADC" (s.run ts).published)
        (streamerPackets st inp t) ∧
      List.Sublist (messagesOn "AVG" (s.run ts).published)
        (averagePackets r u) ∧
      (s.run ts).published.length = (s.outcomes ts).count .noError := by
  have hwell : ∀ p ∈ (s.run ts).channel.written, WellFormed p ∧
      (onTopic "ADC" p = true ∨ onTopic "AVG" p = true) := by
    intro p hp
    rcases hfeed.source p hp with hadc | havg
    · have h := streamerPackets_wellFormed h3 hid hpos hdrop hadc
      exact ⟨h.1, .inl h.2⟩
    · have h := averagePackets_wellFormed havg
      exact ⟨h.1, .inr h.2⟩
  have hdelivered := Thread.delivered hfresh hqueued fun p hp => (hwell p hp).1
  have hsub := deliveredPackets_sublist (s.outcomes ts)
    (s.run ts).channel.written
  have hpublished : (s.run ts).published =
      (deliveredPackets (s.outcomes ts) (s.run ts).channel.written).filterMap
        publication := by
    rw [hdelivered.published, hnone, List.nil_append, ← filterMap_publication,
      s.length_outcomes]
  rw [hpublished]
  refine ⟨?_, ?_, ?_⟩
  · rw [messagesOn_publication]
    exact (hsub.filter _).trans hfeed.adc.sublist
  · rw [messagesOn_publication]
    exact (hsub.filter _).trans hfeed.avg.sublist
  · rw [length_publication fun p hp => (hwell p (hsub.subset hp)).2,
      length_deliveredPackets hdelivered.success]

/-- The packet of two samples that the streamer sends. -/
def streamedPacket : Packet :=
  [0xDD00000000010003, 1002, 102, 103]

theorem data_messages_twoWords :
    List.Sublist
        (messagesOn "ADC" (started.run [onTime streamedPacket]).published)
        [streamedPacket] ∧
      (started.run [onTime streamedPacket]).published.length = 1 := by
  have hpackets : streamerPackets AxiStreamTsData.smallState
      AxiStreamTsData.twoWordsInput 12 = [streamedPacket] := by
    decide +kernel
  have hpos : ∀ t, (AxiStreamTsData.twoWordsInput t).inNumSamples ≠ 0 := by
    simp [AxiStreamTsData.twoWordsInput]
  have hdrop : ∀ t, drops
      (stateAt AxiStreamTsData.smallState AxiStreamTsData.twoWordsInput t)
      (AxiStreamTsData.twoWordsInput t) = false := by
    simp [drops, AxiStreamTsData.twoWordsInput]
  have hqueued : ∀ t ∈ [onTime streamedPacket], t.start = .queued := by
    simp [onTime]
  have hwritten : (started.run [onTime streamedPacket]).channel.written =
      [streamedPacket] := by
    rfl
  have h := data_messages (by decide) rfl hpos hdrop
    SubsystemCapture.Session.alternatingSession 12 0 (s := started) ⟨rfl, rfl⟩
    rfl hqueued (by
      rw [hpackets, hwritten]
      exact ⟨by simp, by decide, by decide⟩)
  rw [hpackets] at h
  exact ⟨h.1, h.2.2⟩

end DmaProxy
end MollerFirmware
