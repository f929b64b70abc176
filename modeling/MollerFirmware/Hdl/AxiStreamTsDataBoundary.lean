import MollerFirmware.Hdl.AxiStreamTsDataFraming

/-!
# axi_stream_ts_data: where a packet ends

A packet begins with the word that is accepted in `ST_IDLE`. `Ends` lists what
is to end it: `ena` low, a word with `in_tlast`, or the word with which it has
as many words as were asked for when it began.

`packet_span` says which clocks the words of a packet come from. `ST_DATA`
looks at all three events, `ST_IDLE` at none of them, so that the first word
never ends its packet; and `max_samples` is clamped to what a length field of
sixteen bits can tell. For packets to which neither matters the payload ends
with the first of these events, `packet_boundary`.
-/

namespace MollerFirmware
namespace AxiStreamTsData

open Clocked

variable {P : Params}

section Boundaries

variable (s : State P) (inp : Nat → Input)

/-- State of the write machine in clock `t`. -/
def inStateAt (t : Nat) : InState :=
  (stateAt s inp t).wr.inState

/-- A word of a packet is accepted. -/
def acceptsAt (t : Nat) : Bool :=
  accepts (stateAt s inp t) (inp t)

/-- The first word of a packet is accepted. -/
def Begins (a : Nat) : Prop :=
  inStateAt s inp a = .idle ∧ acceptsAt s inp a = true

/-- A clock in `ST_DATA` in which the packet is closed. -/
def closesAt (t : Nat) : Bool :=
  if inCaptured (stateAt s inp t) (inp t) then
    closing (stateAt s inp t) (inp t)
  else !(inp t).ena

/-- The words `ws` of a packet are those accepted from clock `a`, in which it
begins, to clock `c`, in which it is closed. -/
structure Span (a c : Nat) (ws : List (BitVec 64 × BitVec 64)) : Prop where
  begins : Begins s inp a
  lt : a < c
  data : ∀ u, a < u → u ≤ c → inStateAt s inp u = .data
  closes : closesAt s inp c = true
  words : accepted s inp (c + 1) = accepted s inp a ++ ws

/-- What the write machine is at work on in clock `t`. -/
structure SpanInv (t : Nat) : Prop where
  idle : inStateAt s inp t = .idle → (ledgerAt s inp t).building = []
  data : inStateAt s inp t = .data →
    ∃ a, a < t ∧ Begins s inp a ∧
      (∀ u, a < u → u ≤ t → inStateAt s inp u = .data) ∧
      accepted s inp t = accepted s inp a ++ (ledgerAt s inp t).building
  closed : inStateAt s inp t ≠ .idle → inStateAt s inp t ≠ .data →
    ∃ a c, Span s inp a c (ledgerAt s inp t).building

/-- Words that a packet which begins in clock `a` is to have at most; no limit
if zero. -/
def limitAt (P : Params) (inp : Nat → Input) (a : Nat) : Nat :=
  min (inp a).inNumSamples.toNat (P.maxPktLen - 2)

/-- The packet that has begun in clock `a` is to end in clock `t`. -/
def Ends (a t : Nat) : Prop :=
  (inp t).ena = false ∨
    (acceptsAt s inp t = true ∧
      ((inp t).inTlast = true ∨
        pulsesIn (acceptsAt s inp) a (t + 1) = limitAt P inp a))

/-- `ws` are the words of a packet that begins in clock `a` and ends with the
first clock `c` in which it is to end. -/
structure Payload (a c : Nat) (ws : List (BitVec 64 × BitVec 64)) : Prop where
  begins : Begins s inp a
  le : a ≤ c
  ends : Ends s inp a c
  first : ∀ t, a ≤ t → t < c → ¬ Ends s inp a t
  words : accepted s inp (c + 1) = accepted s inp a ++ ws

/-- The first word of a packet does not end it, and the packet is not asked to
be longer than its length field can tell. -/
def FirstWordInside (a : Nat) : Prop :=
  (inp a).inTlast = false ∧ limitAt P inp a ≠ 1 ∧ limitAt P inp a ≠ 65535

end Boundaries

variable {s : State P} {inp : Nat → Input}

/-! ## The clocks of a packet -/

theorem accepted_succ (t : Nat) :
    accepted s inp (t + 1) =
      accepted s inp t ++ acceptedWords (stateAt s inp t) (inp t) := by
  rfl

/-- Outside a commit the accepted words are added to the open packet. -/
theorem building_succ (s : State P) (inp : Nat → Input) {t : Nat}
    (hst : inStateAt s inp t ≠ .wrUpdate) :
    (ledgerAt s inp (t + 1)).building =
      (ledgerAt s inp t).building ++
        acceptedWords (stateAt s inp t) (inp t) :=
  watch_building_of_ne _ _ hst

/-- In `ST_IDLE` a word is accepted only while `ena` is high. -/
theorem acceptsAt_of_idle {t : Nat} (hst : inStateAt s inp t = .idle) :
    acceptsAt s inp t =
      (inCaptured (stateAt s inp t) (inp t) && (inp t).ena) := by
  have hst' : (stateAt s inp t).wr.inState = .idle := hst
  simp [acceptsAt, accepts, hst']

theorem acceptsAt_of_data {t : Nat} (hst : inStateAt s inp t = .data) :
    acceptsAt s inp t = inCaptured (stateAt s inp t) (inp t) := by
  have hst' : (stateAt s inp t).wr.inState = .data := hst
  simp [acceptsAt, accepts, hst']

/-- `in_tready` by state: it is high throughout `ST_DATA` and low in the states
that do not take words. -/
theorem inTready_cases (s : State P) (inp : Nat → Input) (t : Nat) :
    inStateAt s inp t = .idle ∨
      (inStateAt s inp t = .data ∧ (stateAt s inp t).wr.inTready = true) ∨
      (inStateAt s inp t ≠ .data ∧ (stateAt s inp t).wr.inTready = false) := by
  cases t with
  | zero => exact Or.inl rfl
  | succ t =>
      unfold inStateAt
      rw [wr_succ]
      cases hst : (stateAt s inp t).wr.inState with
      | idle =>
          rcases idle_cases (inp t) hst with ⟨_, hnext⟩ | ⟨_, hnext⟩
          · exact Or.inr (Or.inl (by simp [hnext]))
          · exact Or.inl (by rw [hnext])
      | data =>
          rcases data_cases (inp t) hst with
            ⟨_, hnext⟩ | ⟨_, _, hnext⟩ | ⟨_, _, hnext⟩
          · rw [hnext]
            cases closing (stateAt s inp t) (inp t) <;> simp
          · exact Or.inr (Or.inr (by simp [hnext]))
          · exact Or.inr (Or.inl (by simp [hnext]))
      | wrLen => exact Or.inr (Or.inr (by simp [writeNext, hst]))
      | wrTs => exact Or.inr (Or.inr (by simp [writeNext, hst]))
      | wrUpdate => exact Or.inl (by simp [writeNext, hst])

theorem inTready_of_data {t : Nat} (hst : inStateAt s inp t = .data) :
    (stateAt s inp t).wr.inTready = true := by
  rcases inTready_cases s inp t with hidle | ⟨_, hready⟩ | ⟨hne, _⟩
  · rw [hst] at hidle
    exact absurd hidle (by simp)
  · exact hready
  · exact absurd hst hne

/-- While `ena` is high every captured word is accepted. -/
theorem acceptsAt_of_captured {t : Nat}
    (hcap : inCaptured (stateAt s inp t) (inp t) = true)
    (hena : (inp t).ena = true) :
    acceptsAt s inp t = true := by
  rcases inTready_cases s inp t with hst | ⟨hst, _⟩ | ⟨_, hlow⟩
  · rw [acceptsAt_of_idle hst, hcap, hena]
    rfl
  · rw [acceptsAt_of_data hst, hcap]
  · unfold inCaptured at hcap
    rw [hlow, Bool.and_false] at hcap
    exact absurd hcap (by simp)

/-- The first word of a packet takes the machine to `ST_DATA`. -/
theorem Begins.next {a : Nat} (h : Begins s inp a) :
    inStateAt s inp (a + 1) = .data ∧
      (stateAt s inp (a + 1)).wr.maxSamples = maxSamplesNext P (inp a) ∧
      (stateAt s inp (a + 1)).wr.wrCnt = 2 := by
  have hcap := h.2
  rw [acceptsAt_of_idle h.1] at hcap
  rcases idle_cases (inp a) h.1 with ⟨_, hnext⟩ | ⟨hno, _⟩
  · unfold inStateAt
    rw [wr_succ, hnext]
    exact ⟨rfl, rfl, rfl⟩
  · rw [hno] at hcap
    exact absurd hcap (by simp)

/-- Without it the machine stays in `ST_IDLE`. -/
theorem inStateAt_of_not_begins {t : Nat} (hst : inStateAt s inp t = .idle)
    (hacc : acceptsAt s inp t = false) :
    inStateAt s inp (t + 1) = .idle := by
  rw [acceptsAt_of_idle hst] at hacc
  rcases idle_cases (inp t) hst with ⟨hyes, _⟩ | ⟨_, hnext⟩
  · rw [hacc] at hyes
    exact absurd hyes (by simp)
  · unfold inStateAt
    rw [wr_succ, hnext]

/-- `ST_DATA` is left in the clock in which the packet is closed. -/
theorem inStateAt_of_data {t : Nat} (hst : inStateAt s inp t = .data) :
    inStateAt s inp (t + 1) = if closesAt s inp t then .wrLen else .data := by
  unfold inStateAt closesAt
  rw [wr_succ]
  rcases data_cases (inp t) hst with
    ⟨hcap, hnext⟩ | ⟨hcap, hena, hnext⟩ | ⟨hcap, hena, hnext⟩
  · rw [hnext, hcap, if_pos rfl]
  · rw [hnext, hcap, hena]
    rfl
  · rw [hnext, hcap, hena]
    rfl

/-- While a packet is not closed its counters follow the accepted words. -/
theorem open_of_data {t : Nat} (hst : inStateAt s inp t = .data)
    (hopen : closesAt s inp t = false) :
    (stateAt s inp (t + 1)).wr.maxSamples =
        (stateAt s inp t).wr.maxSamples ∧
      (stateAt s inp (t + 1)).wr.wrCnt =
        (stateAt s inp t).wr.wrCnt + if acceptsAt s inp t then 1 else 0 := by
  rw [acceptsAt_of_data hst]
  unfold closesAt at hopen
  rcases data_cases (inp t) hst with
    ⟨hcap, hnext⟩ | ⟨hcap, hena, hnext⟩ | ⟨hcap, hena, hnext⟩
  · exact ⟨by rw [wr_succ, hnext], by rw [wr_succ, hnext, hcap]; rfl⟩
  · rw [hcap, hena] at hopen
    exact absurd hopen (by simp)
  · refine ⟨by rw [wr_succ, hnext], ?_⟩
    rw [wr_succ, hnext, hcap]
    simp

/-- The clock in which a packet may begin. -/
theorem SpanInv.step_idle {t : Nat} (h : SpanInv s inp t)
    (hst : inStateAt s inp t = .idle) :
    SpanInv s inp (t + 1) := by
  have hbuild := building_succ s inp (t := t) (by simp [hst])
  rw [h.idle hst, List.nil_append] at hbuild
  cases hacc : acceptsAt s inp t with
  | true =>
      have hnext := (Begins.next ⟨hst, hacc⟩).1
      refine ⟨by simp [hnext], fun _ => ⟨t, by omega, ⟨hst, hacc⟩,
        fun u htu hut => ?_, ?_⟩, fun _ hdata => absurd hnext hdata⟩
      · obtain rfl : u = t + 1 := by omega
        exact hnext
      · rw [accepted_succ, hbuild]
  | false =>
      have hnext := inStateAt_of_not_begins hst hacc
      have hnone : acceptedWords (stateAt s inp t) (inp t) = [] := by
        unfold acceptsAt at hacc
        simp [acceptedWords, hacc]
      exact ⟨fun _ => hbuild.trans hnone, by simp [hnext],
        fun hidle => absurd hnext hidle⟩

/-- A clock of an open packet. -/
theorem SpanInv.step_data {t : Nat} (h : SpanInv s inp t)
    (hst : inStateAt s inp t = .data) :
    SpanInv s inp (t + 1) := by
  obtain ⟨a, hat, hbegins, hdata, hwords⟩ := h.data hst
  have hbuild := building_succ s inp (t := t) (by simp [hst])
  have haccepted : accepted s inp (t + 1) =
      accepted s inp a ++ (ledgerAt s inp (t + 1)).building := by
    rw [accepted_succ, hwords, hbuild, List.append_assoc]
  have hnext := inStateAt_of_data hst
  cases hcl : closesAt s inp t with
  | true =>
      rw [hcl] at hnext
      exact ⟨by simp [hnext], by simp [hnext],
        fun _ _ => ⟨a, t, hbegins, hat, hdata, hcl, haccepted⟩⟩
  | false =>
      rw [hcl] at hnext
      refine ⟨by simp [hnext], fun _ => ⟨a, by omega, hbegins,
        fun u hau hut => ?_, haccepted⟩, fun _ hne => absurd hnext hne⟩
      obtain hle | rfl : u ≤ t ∨ u = t + 1 := by omega
      · exact hdata u hau hle
      · exact hnext

theorem SpanInv.step {t : Nat} (h : SpanInv s inp t) :
    SpanInv s inp (t + 1) := by
  have hwr : inStateAt s inp (t + 1) =
      (writeNext (stateAt s inp t) (inp t)).inState := rfl
  -- header and timestamp are written without touching the payload
  have hkeep : ∀ next, inStateAt s inp t ≠ .idle →
      inStateAt s inp t ≠ .data → inStateAt s inp t ≠ .wrUpdate →
      inStateAt s inp (t + 1) = next → next ≠ .idle → next ≠ .data →
        SpanInv s inp (t + 1) := by
    intro next hidle hdata hupdate hnext hidle' hdata'
    have hbuild := building_succ s inp (t := t) hupdate
    rw [acceptedWords_eq_nil _ hidle hdata, List.append_nil] at hbuild
    rw [← hnext] at hidle' hdata'
    refine ⟨fun hst => absurd hst hidle', fun hst => absurd hst hdata',
      fun _ _ => ?_⟩
    rw [hbuild]
    exact h.closed hidle hdata
  cases hst : inStateAt s inp t with
  | idle => exact h.step_idle hst
  | data => exact h.step_data hst
  | wrLen =>
      have hst' : (stateAt s inp t).wr.inState = .wrLen := hst
      exact hkeep .wrTs (by simp [hst]) (by simp [hst]) (by simp [hst])
        (by simp [hwr, writeNext, hst']) (by simp) (by simp)
  | wrTs =>
      have hst' : (stateAt s inp t).wr.inState = .wrTs := hst
      exact hkeep .wrUpdate (by simp [hst]) (by simp [hst]) (by simp [hst])
        (by simp [hwr, writeNext, hst']) (by simp) (by simp)
  | wrUpdate =>
      have hst' : (stateAt s inp t).wr.inState = .wrUpdate := hst
      have hidle : inStateAt s inp (t + 1) = .idle := by
        simp [hwr, writeNext, hst']
      exact ⟨fun _ => watch_building_of_wrUpdate _ _ hst', by simp [hidle],
        fun hne => absurd hidle hne⟩

theorem spanInv (s : State P) (inp : Nat → Input) (t : Nat) :
    SpanInv s inp t := by
  induction t with
  | zero =>
      have hidle : inStateAt s inp 0 = .idle := rfl
      exact ⟨fun _ => rfl, by simp [hidle], fun hne => absurd hidle hne⟩
  | succ t ih => exact ih.step

/-- Every packet consists of the words accepted in the clocks of one span. -/
theorem packet_span (s : State P) (inp : Nat → Input) (t : Nat) :
    ∀ p ∈ packets s inp t, ∃ a c, Span s inp a c p.words := by
  induction t with
  | zero =>
      intro p hp
      exact absurd hp (by simp [packets, ledgerAt, Ledger.empty])
  | succ t ih =>
      intro p hp
      have hnext : packets s inp (t + 1) =
          packets s inp t ++ commits (stateAt s inp t) (ledgerAt s inp t) :=
        watch_committed _ _ _
      rw [hnext, List.mem_append] at hp
      rcases hp with hp | hp
      · exact ih p hp
      · unfold commits at hp
        split_ifs at hp with hst
        · rw [List.mem_singleton] at hp
          rw [hp]
          have hst' : inStateAt s inp t = .wrUpdate := hst
          exact (spanInv s inp t).closed (by simp [hst']) (by simp [hst'])
        · exact absurd hp (by simp)

/-- Inside its span a packet is not closed. -/
theorem Span.open {a c : Nat} {ws : List (BitVec 64 × BitVec 64)}
    (h : Span s inp a c ws) {t : Nat} (hat : a < t) (htc : t < c) :
    closesAt s inp t = false := by
  by_contra hcl
  have hnext := inStateAt_of_data (h.data t hat htc.le)
  rw [Bool.not_eq_false] at hcl
  rw [hcl, h.data (t + 1) (by omega) htc] at hnext
  exact absurd hnext (by simp)

/-- A word that is accepted within its span is in the packet. -/
theorem Span.mem_words {a c : Nat} {ws : List (BitVec 64 × BitVec 64)}
    (h : Span s inp a c ws) {t : Nat} (hat : a ≤ t) (htc : t ≤ c)
    (hacc : acceptsAt s inp t = true) :
    ((inp t).inTdata, (inp t).inTimestamp) ∈ ws := by
  have hbefore : accepted s inp a <+: accepted s inp t :=
    eventsBefore_prefix _ hat
  obtain ⟨earlier, hearlier⟩ := hbefore
  have hprefix : accepted s inp (t + 1) <+: accepted s inp (c + 1) :=
    eventsBefore_prefix _ (by omega)
  have hacc' : accepts (stateAt s inp t) (inp t) = true := hacc
  rw [accepted_succ, acceptedWords, if_pos hacc', ← hearlier, h.words,
    List.append_assoc, List.prefix_append_right_inj] at hprefix
  exact hprefix.subset (by simp)

/-- The timestamp of a packet is that of the clock in which it began. -/
theorem Span.firstTimestamp_eq {a c : Nat}
    {ws : List (BitVec 64 × BitVec 64)} (h : Span s inp a c ws) :
    firstTimestamp ws = (inp a).inTimestamp := by
  have hfirst : accepted s inp (a + 1) =
      accepted s inp a ++ [((inp a).inTdata, (inp a).inTimestamp)] := by
    have hacc : accepts (stateAt s inp a) (inp a) = true := h.begins.2
    rw [accepted_succ, acceptedWords, if_pos hacc]
  have hprefix : accepted s inp (a + 1) <+: accepted s inp (c + 1) :=
    eventsBefore_prefix _ (by have := h.lt; omega)
  rw [h.words, hfirst, List.prefix_append_right_inj] at hprefix
  obtain ⟨rest, hrest⟩ := hprefix
  rw [← hrest]
  rfl

/-! ## When a packet is closed -/

/-- Short of its clamp `max_samples` is one less than the limit. -/
theorem maxSamplesNext_toNat (h3 : 3 ≤ P.maxPktLen) {a : Nat}
    (hpos : limitAt P inp a ≠ 0) (hclamp : limitAt P inp a ≠ 65535) :
    (maxSamplesNext P (inp a)).toNat + 1 = limitAt P inp a := by
  have hlt := (inp a).inNumSamples.isLt
  unfold limitAt at hpos hclamp ⊢
  have hsub : ((inp a).inNumSamples - 1).toNat =
      (inp a).inNumSamples.toNat - 1 := by
    rw [BitVec.toNat_sub_of_le (by simp [BitVec.le_def]; omega)]
    rfl
  unfold maxSamplesNext Params.intMaxSamples Params.intMaxPktLen
  split_ifs
  · omega
  · omega
  · rw [BitVec.toNat_ofNat, Nat.mod_eq_of_lt (by omega)]
    omega
  · rw [hsub]
    omega
  · rw [BitVec.toNat_ofNat, Nat.mod_eq_of_lt (by omega)]
    omega
  · rw [hsub]
    omega

/-- With `n` words in the packet the comparison of the counters tells whether
the next one is the last that was asked for. -/
theorem count_iff (h3 : 3 ≤ P.maxPktLen) {a n : Nat}
    (hroom : limitAt P inp a ≠ 0 → n < limitAt P inp a)
    (hclamp : limitAt P inp a ≠ 65535) :
    maxSamplesNext P (inp a) < BitVec.ofNat 16 (n + 1) ↔
      n + 1 = limitAt P inp a := by
  rw [BitVec.lt_def, BitVec.toNat_ofNat]
  by_cases hzero : limitAt P inp a = 0
  · have hnone : (inp a).inNumSamples = 0 := by
      apply BitVec.eq_of_toNat_eq
      unfold limitAt at hzero
      simp
      omega
    have hmax : (maxSamplesNext P (inp a)).toNat = 65535 := by
      unfold maxSamplesNext
      rw [hnone, if_neg (by simp)]
      rfl
    omega
  · have hmax := maxSamplesNext_toNat h3 hzero hclamp
    have hle : limitAt P inp a ≤ 65535 := by
      have hlt := (inp a).inNumSamples.isLt
      unfold limitAt
      omega
    have := hroom hzero
    rw [Nat.mod_eq_of_lt (by omega)]
    omega

/-- What is known of the packet that began in clock `a` while it is open in
clock `t`. -/
structure OpenPacket (s : State P) (inp : Nat → Input) (a t : Nat) : Prop where
  maxSamples : (stateAt s inp t).wr.maxSamples = maxSamplesNext P (inp a)
  wrCnt : (stateAt s inp t).wr.wrCnt =
    BitVec.ofNat 16 (pulsesIn (acceptsAt s inp) a t + 1)
  going : ∀ u, a ≤ u → u < t → ¬ Ends s inp a u
  room : limitAt P inp a ≠ 0 →
    pulsesIn (acceptsAt s inp) a t < limitAt P inp a

/-- The first word of a packet leaves it open. -/
theorem Begins.openPacket {a : Nat} (h : Begins s inp a)
    (hfirst : FirstWordInside (P := P) inp a) :
    OpenPacket s inp a (a + 1) := by
  obtain ⟨hlast, hone, _⟩ := hfirst
  obtain ⟨_, hmax, hcnt⟩ := h.next
  have hcount : pulsesIn (acceptsAt s inp) a (a + 1) = 1 := by
    rw [pulsesIn_succ _ (le_refl a), pulsesIn_self, h.2]
    rfl
  have hacc := h.2
  rw [acceptsAt_of_idle h.1, Bool.and_eq_true] at hacc
  refine ⟨hmax, by rw [hcnt, hcount]; rfl, fun u hau hut hends => ?_,
    fun hpos => by omega⟩
  obtain rfl : u = a := by omega
  rcases hends with hena | ⟨_, htlast | hlimit⟩
  · rw [hacc.2] at hena
    exact absurd hena (by simp)
  · rw [hlast] at htlast
    exact absurd htlast (by simp)
  · omega

/-- `ST_DATA` closes the packet when it is to end. -/
theorem OpenPacket.closes_iff (h3 : 3 ≤ P.maxPktLen) {a t : Nat}
    (h : OpenPacket s inp a t) (hat : a ≤ t)
    (hst : inStateAt s inp t = .data)
    (hclamp : limitAt P inp a ≠ 65535) :
    closesAt s inp t = true ↔ Ends s inp a t := by
  have hiff := count_iff h3 h.room hclamp
  unfold closesAt closing Ends
  rw [acceptsAt_of_data hst, h.maxSamples, h.wrCnt, pulsesIn_succ _ hat,
    acceptsAt_of_data hst]
  cases inCaptured (stateAt s inp t) (inp t) with
  | true =>
      simp only [if_true, Bool.or_eq_true, Bool.not_eq_true',
        decide_eq_true_eq, true_and, hiff]
      tauto
  | false => simp

theorem OpenPacket.next (h3 : 3 ≤ P.maxPktLen) {a t : Nat}
    (h : OpenPacket s inp a t) (hat : a ≤ t)
    (hst : inStateAt s inp t = .data)
    (hclamp : limitAt P inp a ≠ 65535)
    (hopen : closesAt s inp t = false) :
    OpenPacket s inp a (t + 1) := by
  obtain ⟨hmax, hcnt⟩ := open_of_data hst hopen
  have hgoing : ¬ Ends s inp a t := by
    rw [← h.closes_iff h3 hat hst hclamp, hopen]
    simp
  refine ⟨hmax.trans h.maxSamples, ?_, fun u hau hut => ?_, fun hpos => ?_⟩
  · rw [hcnt, h.wrCnt, pulsesIn_succ _ hat]
    cases acceptsAt s inp t <;> simp [BitVec.ofNat_add]
  · obtain hlt | rfl : u < t ∨ u = t := by omega
    · exact h.going u hau hlt
    · exact hgoing
  · have hroom := h.room hpos
    rw [pulsesIn_succ _ hat]
    cases hacc : acceptsAt s inp t with
    | false => simpa using hroom
    | true =>
        have hne : pulsesIn (acceptsAt s inp) a (t + 1) ≠ limitAt P inp a :=
          fun hlimit => hgoing (Or.inr ⟨hacc, Or.inr hlimit⟩)
        rw [pulsesIn_succ _ hat, hacc, if_pos rfl] at hne
        rw [if_pos rfl]
        omega

/-- The packet of a span is open in all of its clocks. -/
theorem Span.openPacket (h3 : 3 ≤ P.maxPktLen) {a c : Nat}
    {ws : List (BitVec 64 × BitVec 64)} (h : Span s inp a c ws)
    (hfirst : FirstWordInside (P := P) inp a)
    {t : Nat} (hat : a < t) (htc : t ≤ c) :
    OpenPacket s inp a t := by
  induction t, hat using Nat.le_induction with
  | base => exact h.begins.openPacket hfirst
  | succ t hat ih =>
      have hat' : a < t := hat
      exact (ih (by omega)).next h3 hat'.le (h.data t hat' (by omega))
        hfirst.2.2 (h.open hat' (by omega))

/-- **Where a packet ends.** If no first word is one that should end its packet
at once or asks for more words than can be told, then every packet of the run
ends with the first event that is to end it. -/
theorem packet_boundary (h3 : 3 ≤ P.maxPktLen) (s : State P)
    (inp : Nat → Input)
    (hfirst : ∀ a, Begins s inp a → FirstWordInside (P := P) inp a)
    (t : Nat) :
    ∀ p ∈ packets s inp t, ∃ a c, Payload s inp a c p.words := by
  intro p hp
  obtain ⟨a, c, hspan⟩ := packet_span s inp t p hp
  have hinside := hfirst a hspan.begins
  have hopen := hspan.openPacket h3 hinside hspan.lt (le_refl c)
  refine ⟨a, c, hspan.begins, hspan.lt.le, ?_, hopen.going, hspan.words⟩
  exact (hopen.closes_iff h3 hspan.lt.le (hspan.data c hspan.lt (le_refl c))
    hinside.2.2).mp hspan.closes

/-- An instance with packets of up to two payload words. -/
def pairParams : Params where
  id := 0xDD
  maxPktLen := 4
  depthBits := 3

/-- Registers of that instance after power-up. -/
def pairState : State pairParams where
  rData := fun _ => 0
  rd := ⟨0, 0, 0, false, false, false, 0⟩
  chk := ⟨false, 0⟩
  wr := ⟨0, false, 0, false, 0, 0, 0, 0, .idle, 0, 0⟩

/-- Words `100`, `101`, ... in every clock, in packets of two. -/
def pairInput (t : Nat) : Input :=
  { twoWordsInput t with
    inNumSamples := 2
    inTvalid := true }

theorem packet_boundary_pair :
    ∃ a c, Payload pairState pairInput a c [(102, 1002), (103, 1003)] :=
  packet_boundary (by decide) pairState pairInput
    (fun _ _ => ⟨rfl, by simp [limitAt, pairInput, pairParams],
      by simp [limitAt, pairInput, pairParams]⟩)
    7 ⟨1, 3, [(102, 1002), (103, 1003)]⟩ (by decide +kernel)

theorem twoWordsInput_begins {a : Nat}
    (h : Begins smallState twoWordsInput a) :
    a = 2 := by
  have hvalid : a < 4 := by
    have hacc := h.2
    unfold acceptsAt accepts inCaptured at hacc
    simp only [Bool.and_eq_true] at hacc
    exact of_decide_eq_true hacc.1.1
  have hcases : ∀ b < 4, Begins smallState twoWordsInput b → b = 2 := by
    unfold Begins
    decide +kernel
  exact hcases a hvalid h

/-- With packets of one word the packet has two of them. -/
theorem packet_too_long_twoWords :
    ¬ ∀ p ∈ packets smallState twoWordsInput 12,
      ∃ a c, Payload smallState twoWordsInput a c p.words := by
  intro hall
  obtain ⟨a, c, hp⟩ := hall ⟨1, 3, [(102, 1002), (103, 1003)]⟩
    (by decide +kernel)
  obtain rfl := twoWordsInput_begins hp.begins
  have hends : Ends smallState twoWordsInput 2 2 :=
    Or.inr ⟨by decide +kernel, Or.inr (by decide +kernel)⟩
  have hc : c = 2 := by
    by_contra hne
    have := hp.le
    exact hp.first 2 (le_refl 2) (by omega) hends
  subst hc
  exact absurd hp.words (by decide +kernel)

end AxiStreamTsData
end MollerFirmware
