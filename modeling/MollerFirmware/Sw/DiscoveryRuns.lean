import MollerFirmware.Sw.DiscoveryCodec
import MollerFirmware.Sw.DiscoveryUdp

/-!
# Runs of the discovery responder

A device answers datagrams one after the other. Of its context only the uptime
bytes of the message and the uptime of the last request change:
`process_cases` lists what one datagram can do, and the results about runs
follow from it by induction on the sequence of datagrams.

The uptime of a request is noted before its filters are looked at. A request
for another device therefore costs the device `DISCOVERY_MIN_DELAY`, and nothing
else (`nonmatching_delays`).
-/

namespace MollerFirmware
namespace Discovery

open Memory

/-- A datagram and the uptime at which it is processed. -/
structure Delivery where
  rx : List Byte
  uptime : BitVec 64

/-- What the device does with a datagram. -/
def process (ctx : Context) (d : Delivery) : Option (List Byte) × Context :=
  processRequest ctx d.rx d.rx.length d.uptime

/-- The replies to a sequence of datagrams. -/
def replies : Context → List Delivery → List (Option (List Byte))
  | _, [] => []
  | ctx, d :: ds => (process ctx d).1 :: replies (process ctx d).2 ds

/-- The context after a sequence of datagrams. -/
def contextAfter : Context → List Delivery → Context
  | ctx, [] => ctx
  | ctx, d :: ds => contextAfter (process ctx d).2 ds

/-- The datagrams that are answered, each with its answer. -/
def answers : Context → List Delivery → List (Delivery × List Byte)
  | _, [] => []
  | ctx, d :: ds =>
      ((process ctx d).1.map fun a => (d, a)).toList ++
        answers (process ctx d).2 ds

/-- Uptimes do not go back. -/
def NonDecreasing (ds : List Delivery) : Prop :=
  ds.Pairwise fun d e => d.uptime ≤ e.uptime

/-! ## One datagram -/

/-- The request that a datagram carries, before anything of the device is looked
at. -/
def requestOf (rx : List Byte) : Option BeaconInfo :=
  (convertMemToBeacon rx rx.length).filter fun request => request.isRequest

/-- The rate limit lets a request pass. -/
def GateOpen (ctx : Context) (uptime : BitVec 64) : Prop :=
  ¬ uptime - ctx.lastUptime < minDelay

instance (ctx : Context) (uptime : BitVec 64) :
    Decidable (GateOpen ctx uptime) :=
  inferInstanceAs (Decidable (¬ _))

/-- No filter of the request rejects the device. -/
def filtersPass (request beacon : BeaconInfo) : Bool :=
  !idRejects request.deviceID beacon.deviceID &&
    !idRejects request.logicalID beacon.logicalID &&
    !stringRejects request.hardwareRevision beacon.hardwareRevision hwRevLen &&
    !stringRejects request.firmwareRevision beacon.firmwareRevision fwRevLen &&
    !stringRejects request.vendorName beacon.vendorName vendorLen &&
    !stringRejects request.productName beacon.productName productLen

/-- The context with the uptime of the last request brought up to date. -/
def Context.note (ctx : Context) (uptime : BitVec 64) : Context :=
  { ctx with lastUptime := uptime }

/-- A datagram that is no request, or comes too soon, or finds a context without
a beacon, leaves no trace. -/
theorem process_of_ignored
    {ctx : Context} {d : Delivery}
    (h : requestOf d.rx = none ∨ convertMemToBeacon ctx.msg beaconLen = none ∨
      ¬ GateOpen ctx d.uptime) :
    process ctx d = (none, ctx) := by
  unfold process processRequest
  by_cases hlen : d.rx.length < beaconLen
  · rw [if_pos hlen]
  rw [if_neg hlen]
  unfold requestOf GateOpen at h
  cases hdecode : convertMemToBeacon d.rx d.rx.length with
  | none => rfl
  | some request =>
      rw [hdecode] at h
      cases hkind : request.isRequest with
      | false => simp [hkind]
      | true =>
          rcases h with hnone | hbeacon | hgate
          · simp [hkind] at hnone
          · simp [hkind, hbeacon]
          · rw [not_not] at hgate
            cases convertMemToBeacon ctx.msg beaconLen <;> simp [hkind, hgate]

/-- A request that passes the rate limit is noted, and answered when no filter
rejects the device. -/
theorem process_of_request
    {ctx : Context} {d : Delivery} {request beacon : BeaconInfo}
    (hrequest : requestOf d.rx = some request)
    (hbeacon : convertMemToBeacon ctx.msg beaconLen = some beacon)
    (hgate : GateOpen ctx d.uptime) :
    process ctx d =
      if filtersPass request beacon then
        (some ((ctx.note d.uptime).setUptime d.uptime).msg,
          (ctx.note d.uptime).setUptime d.uptime)
      else (none, ctx.note d.uptime) := by
  unfold requestOf at hrequest
  rw [Option.filter_eq_some_iff] at hrequest
  obtain ⟨hdecode, hkind⟩ := hrequest
  have hlen : ¬ d.rx.length < beaconLen := by
    intro hlen
    simp [convertMemToBeacon, hlen] at hdecode
  unfold GateOpen at hgate
  unfold process processRequest
  rw [if_neg hlen, hdecode]
  simp only [hkind, Bool.not_true, Bool.false_eq_true, if_false, hbeacon, hgate]
  unfold filtersPass Context.note
  split_ifs <;> simp_all

/-- The rate limit in numbers, for a clock that has not gone back. -/
theorem gateOpen_iff
    {ctx : Context} {uptime : BitVec 64} (hle : ctx.lastUptime ≤ uptime) :
    GateOpen ctx uptime ↔
      ctx.lastUptime.toNat + minDelay.toNat ≤ uptime.toNat := by
  have hsub := BitVec.toNat_sub_of_le hle
  rw [BitVec.le_def] at hle
  unfold GateOpen
  rw [BitVec.lt_def, hsub]
  omega

/-- The context of a device whose beacon carries some identity. -/
def Shows (ctx : Context) (f : Fields) : Prop :=
  ∃ old, ctx.msg = messageBytes beaconStr old f

theorem Shows.convert {ctx : Context} {f : Fields} (h : Shows ctx f) :
    ∃ old, convertMemToBeacon ctx.msg beaconLen = some (f.info false old) := by
  obtain ⟨old, hmsg⟩ := h
  refine ⟨old, ?_⟩
  rw [hmsg]
  exact convert_messageBytes false old f

/-- **What one datagram can do** to a device: nothing; or its uptime is noted;
or it is answered with the beacon of the moment, which the device keeps. -/
theorem process_cases
    {ctx : Context} {f : Fields} (h : Shows ctx f) (d : Delivery) :
    process ctx d = (none, ctx) ∨
    (GateOpen ctx d.uptime ∧ process ctx d = (none, ctx.note d.uptime)) ∨
    (GateOpen ctx d.uptime ∧
      (∃ old request, requestOf d.rx = some request ∧
        filtersPass request (f.info false old) = true) ∧
      (process ctx d).1 = some (messageBytes beaconStr d.uptime f) ∧
      (process ctx d).2.msg = messageBytes beaconStr d.uptime f ∧
      (process ctx d).2.lastUptime = d.uptime) := by
  obtain ⟨old, hbeacon⟩ := h.convert
  cases hrequest : requestOf d.rx with
  | none =>
      exact .inl (process_of_ignored (.inl hrequest))
  | some request =>
      by_cases hgate : GateOpen ctx d.uptime
      · have hprocess := process_of_request hrequest hbeacon hgate
        right
        cases hpass : filtersPass request (f.info false old) with
        | false =>
            rw [hpass, if_neg (by simp)] at hprocess
            exact .inl ⟨hgate, hprocess⟩
        | true =>
            rw [hpass, if_pos rfl] at hprocess
            obtain ⟨older, hmsg⟩ := h
            have hreply := setUptime_msg (ctx.note d.uptime) hmsg d.uptime
            right
            rw [hprocess]
            exact ⟨hgate, ⟨old, request, rfl, hpass⟩, congrArg some hreply,
              hreply, rfl⟩
      · exact .inl (process_of_ignored (.inr (.inr hgate)))

/-- The beacon goes on to show the identity of the device. -/
theorem Shows.process
    {ctx : Context} {f : Fields} (h : Shows ctx f) (d : Delivery) :
    Shows (process ctx d).2 f := by
  rcases process_cases h d with heq | ⟨_, heq⟩ | ⟨_, _, _, hmsg, _⟩
  · rw [heq]
    exact h
  · rw [heq]
    exact h
  · exact ⟨d.uptime, hmsg⟩

/-- The noted uptime is that of the datagram or the old one. -/
theorem lastUptime_process
    {ctx : Context} {f : Fields} (h : Shows ctx f) (d : Delivery) :
    (process ctx d).2.lastUptime = ctx.lastUptime ∨
      (process ctx d).2.lastUptime = d.uptime := by
  rcases process_cases h d with heq | ⟨_, heq⟩ | ⟨_, _, _, _, hlast⟩
  · left
    rw [heq]
  · right
    rw [heq]
    rfl
  · exact .inr hlast

theorem Shows.contextAfter
    {ctx : Context} {f : Fields} (h : Shows ctx f) (ds : List Delivery) :
    Shows (contextAfter ctx ds) f := by
  induction ds generalizing ctx with
  | nil => exact h
  | cons d ds ih => exact ih (h.process d)

/-! ## What a request has to say to be answered -/

/-- The string in a field of a datagram. -/
def fieldOf (rx : List Byte) (off len : Nat) : List Byte :=
  cstr ((rx.drop off).take len)

/-- A string filter that is empty, or equal to a string up to case. -/
def StringSelects (filter own : List Byte) : Prop :=
  filter = [] ∨ filter.map tolower = own.map tolower

/-- The datagram is a request that selects a device. -/
structure Selects (rx : List Byte) (f : Fields) : Prop where
  length : beaconLen ≤ rx.length
  marker : (rx.take 8).map tolower = requestStr.map tolower
  deviceID : IdMatches (readLe rx 16) f.devID
  logicalID : IdMatches (readLe rx 24) f.logicalID
  hardwareRevision :
    StringSelects (fieldOf rx 32 hwRevLen) (truncated f.hwRev hwRevLen)
  firmwareRevision :
    StringSelects (fieldOf rx (32 + hwRevLen) fwRevLen)
      (truncated f.fwRev fwRevLen)
  vendorName :
    StringSelects (fieldOf rx (32 + hwRevLen + fwRevLen) vendorLen)
      (truncated f.vendor vendorLen)
  productName :
    StringSelects (fieldOf rx (32 + hwRevLen + fwRevLen + vendorLen) productLen)
      (truncated f.product productLen)

theorem copyField_eq
    {buf : List Byte} {off len : Nat} (h : off + len ≤ buf.length) :
    copyField buf off len = (buf.drop off).take len ++ [0] := by
  have hlen : ((buf.drop off).take len).length = len := by
    simp
    omega
  refine copyField_of_storedAt ⟨buf.take off, buf.drop (off + len), ?_, ?_⟩ hlen
  · simp
    omega
  · rw [← List.drop_drop, List.append_assoc, List.take_append_drop,
      List.take_append_drop]

theorem idMatches_of_not_rejects
    {filter own : BitVec 64} (h : idRejects filter own = false) :
    IdMatches filter own := by
  unfold idRejects at h
  by_cases hcare : filter = dontCare
  · exact .inl hcare
  · right
    have heq : own = filter := by simpa [hcare] using h
    exact heq.symm

/-- A string filter that does not reject selects the device. -/
theorem stringSelects_of_not_rejects
    {rx : List Byte} {off len : Nat} {own : Option CString}
    (hlen : off + len ≤ rx.length) (hpos : 0 < len)
    (h : stringRejects (copyField rx off len) (fieldBytes own len ++ [0]) len =
      false) :
    StringSelects (fieldOf rx off len) (truncated own len) := by
  have hown : cstr ((fieldBytes own len ++ [0]).take len) =
      truncated own len := by
    rw [List.take_left' (length_fieldBytes own len), ← cstr_fieldBytes own len]
    exact (cstr_append_zero _ []).symm
  have hfield : cstr ((copyField rx off len).take len) = fieldOf rx off len := by
    rw [copyField_eq hlen, List.take_left' (by simp; omega)]
    rfl
  unfold stringRejects at h
  rw [Bool.and_eq_false_iff, decide_eq_false_iff_not, decide_eq_false_iff_not,
    not_not, not_not] at h
  rcases h with hempty | hequal
  · left
    obtain ⟨n, rfl⟩ : ∃ n, len = n + 1 := ⟨len - 1, by omega⟩
    rw [← hfield, cstr_take_succ, if_pos hempty]
  · right
    rw [strncasecmp_eq_zero_iff, hown, hfield] at hequal
    exact hequal.symm

/-- The kind of a request is told by the first eight characters. -/
theorem marker_of_requestOf
    {rx : List Byte} {request : BeaconInfo}
    (h : requestOf rx = some request) :
    (rx.take 8).map tolower = requestStr.map tolower := by
  unfold requestOf at h
  rw [Option.filter_eq_some_iff] at h
  obtain ⟨hdecode, hkind⟩ := h
  have hsame := (isRequest_of_convert hdecode).mp hkind
  have hlen : requestStr.length = 8 := by decide
  have hmarker : cstr (requestStr.take 8) = requestStr := by decide
  rw [hlen, strncasecmp_eq_zero_iff, hmarker] at hsame
  -- the string before the first terminator has all eight characters
  have hprefix : cstr (rx.take 8) <+: rx.take 8 := List.takeWhile_prefix _
  have hwhole : cstr (rx.take 8) = rx.take 8 := by
    refine hprefix.eq_of_length_le ?_
    have hcount := congrArg List.length hsame
    rw [List.length_map, List.length_map, hlen] at hcount
    rw [hcount]
    exact List.length_take_le 8 rx
  rw [hwhole] at hsame
  exact hsame

theorem length_of_requestOf
    {rx : List Byte} {request : BeaconInfo}
    (h : requestOf rx = some request) :
    beaconLen ≤ rx.length := by
  by_contra hlen
  simp [requestOf, convertMemToBeacon, show rx.length < beaconLen by omega] at h

/-- A request that passes all filters selects the device. -/
theorem selects_of_filtersPass
    {rx : List Byte} {f : Fields} {old : BitVec 64} {request : BeaconInfo}
    (hrequest : requestOf rx = some request)
    (hpass : filtersPass request (f.info false old) = true) :
    Selects rx f := by
  have hlen := length_of_requestOf hrequest
  have hbounds : beaconLen = 256 := by decide
  have hfields := convert_fields
    ((Option.filter_eq_some_iff.mp hrequest).1)
  unfold filtersPass at hpass
  rw [hfields] at hpass
  simp only [Bool.and_eq_true, Bool.not_eq_true', and_assoc] at hpass
  obtain ⟨hdev, hlog, hhw, hfw, hvendor, hproduct⟩ := hpass
  have hhwLen : hwRevLen = 32 := rfl
  have hfwLen : fwRevLen = 32 := rfl
  have hvendorLen : vendorLen = 64 := rfl
  have hproductLen : productLen = 96 := rfl
  exact
    { length := hlen
      marker := marker_of_requestOf hrequest
      deviceID := idMatches_of_not_rejects hdev
      logicalID := idMatches_of_not_rejects hlog
      hardwareRevision :=
        stringSelects_of_not_rejects (by omega) (by omega) hhw
      firmwareRevision :=
        stringSelects_of_not_rejects (by omega) (by omega) hfw
      vendorName :=
        stringSelects_of_not_rejects (by omega) (by omega) hvendor
      productName :=
        stringSelects_of_not_rejects (by omega) (by omega) hproduct }

/-- An answered datagram selects the device, and the answer is a beacon of the
device with the uptime of the datagram. -/
theorem answer_spec
    {ctx : Context} {f : Fields} (h : Shows ctx f) {d : Delivery}
    {a : List Byte} (ha : (process ctx d).1 = some a) :
    GateOpen ctx d.uptime ∧ Selects d.rx f ∧
      a = messageBytes beaconStr d.uptime f ∧
      (process ctx d).2.lastUptime = d.uptime := by
  rcases process_cases h d with heq | ⟨_, heq⟩ |
    ⟨hgate, ⟨old, request, hrequest, hpass⟩, hreply, _, hlast⟩
  · rw [heq] at ha
    exact absurd ha (by simp)
  · rw [heq] at ha
    exact absurd ha (by simp)
  · rw [hreply] at ha
    exact ⟨hgate, selects_of_filtersPass hrequest hpass,
      (Option.some.inj ha).symm, hlast⟩

/-! ## Whole runs -/

theorem answers_cons_some
    {ctx : Context} {d : Delivery} {ds : List Delivery} {a : List Byte}
    (ha : (process ctx d).1 = some a) :
    answers ctx (d :: ds) = (d, a) :: answers (process ctx d).2 ds := by
  simp [answers, ha]

theorem answers_cons_none
    {ctx : Context} {d : Delivery} {ds : List Delivery}
    (ha : (process ctx d).1 = none) :
    answers ctx (d :: ds) = answers (process ctx d).2 ds := by
  simp [answers, ha]

/-- The noted uptime stays behind the datagrams to come. -/
theorem lastUptime_le
    {ctx : Context} {f : Fields} (h : Shows ctx f) {d : Delivery}
    {ds : List Delivery} (hmono : NonDecreasing (d :: ds))
    (hlast : ∀ e ∈ d :: ds, ctx.lastUptime ≤ e.uptime) :
    ∀ e ∈ ds, (process ctx d).2.lastUptime ≤ e.uptime := by
  intro e he
  rcases lastUptime_process h d with heq | heq
  · rw [heq]
    exact hlast e (List.mem_cons_of_mem _ he)
  · rw [heq]
    exact (List.pairwise_cons.mp hmono).1 e he

/-- Every answer keeps its distance from the noted uptime. -/
theorem answers_after
    {ctx : Context} {f : Fields} (h : Shows ctx f) {ds : List Delivery}
    (hmono : NonDecreasing ds)
    (hlast : ∀ d ∈ ds, ctx.lastUptime ≤ d.uptime) :
    ∀ p ∈ answers ctx ds,
      ctx.lastUptime.toNat + minDelay.toNat ≤ p.1.uptime.toNat := by
  induction ds generalizing ctx with
  | nil =>
      intro p hp
      simp [answers] at hp
  | cons d ds ih =>
      have hd := hlast d (List.mem_cons_self)
      have htail := ih (h.process d) (List.pairwise_cons.mp hmono).2
        (lastUptime_le h hmono hlast)
      have hnote : ctx.lastUptime.toNat ≤
          (process ctx d).2.lastUptime.toNat := by
        rcases lastUptime_process h d with heq | heq
        · rw [heq]
        · rw [heq]
          exact hd
      intro p hp
      cases ha : (process ctx d).1 with
      | none =>
          rw [answers_cons_none ha] at hp
          have := htail p hp
          omega
      | some a =>
          rw [answers_cons_some ha] at hp
          rcases List.mem_cons.mp hp with rfl | hp
          · exact (gateOpen_iff hd).mp (answer_spec h ha).1
          · have := htail p hp
            omega

theorem answers_pairwise
    {ctx : Context} {f : Fields} (h : Shows ctx f) {ds : List Delivery}
    (hmono : NonDecreasing ds)
    (hlast : ∀ d ∈ ds, ctx.lastUptime ≤ d.uptime) :
    (answers ctx ds).Pairwise fun p q =>
      p.1.uptime.toNat + minDelay.toNat ≤ q.1.uptime.toNat := by
  induction ds generalizing ctx with
  | nil =>
      exact .nil
  | cons d ds ih =>
      have hmono' := (List.pairwise_cons.mp hmono).2
      have hlast' := lastUptime_le h hmono hlast
      have htail := ih (h.process d) hmono' hlast'
      cases ha : (process ctx d).1 with
      | none =>
          rw [answers_cons_none ha]
          exact htail
      | some a =>
          rw [answers_cons_some ha]
          refine .cons (fun q hq => ?_) htail
          have hafter := answers_after (h.process d) hmono' hlast' q hq
          rw [(answer_spec h ha).2.2.2] at hafter
          exact hafter

theorem answers_selected
    {ctx : Context} {f : Fields} (h : Shows ctx f) (ds : List Delivery) :
    ∀ p ∈ answers ctx ds, Selects p.1.rx f ∧
      convertMemToBeacon p.2 beaconLen = some (f.info false p.1.uptime) := by
  induction ds generalizing ctx with
  | nil =>
      intro p hp
      simp [answers] at hp
  | cons d ds ih =>
      have htail := ih (h.process d)
      intro p hp
      cases ha : (process ctx d).1 with
      | none =>
          rw [answers_cons_none ha] at hp
          exact htail p hp
      | some a =>
          rw [answers_cons_some ha] at hp
          rcases List.mem_cons.mp hp with rfl | hp
          · obtain ⟨_, hselects, rfl, _⟩ := answer_spec h ha
            exact ⟨hselects, convert_messageBytes false d.uptime f⟩
          · exact htail p hp

/-- Messages that differ in their uptime differ in bytes 8 to 15 only. -/
theorem messageBytes_outside
    (version : List Byte) (u u' : BitVec 64) (f : Fields) {k : Nat}
    (hk : k < 8 ∨ 16 ≤ k) :
    (messageBytes version u f)[k]? = (messageBytes version u' f)[k]? := by
  have hfront := length_strncpyBytes version 8
  have hlen := length_leBytes u
  have hlen' := length_leBytes u'
  rw [messageBytes_eq, messageBytes_eq, List.append_assoc, List.append_assoc]
  generalize identityBytes f = rest
  rcases hk with hlow | hhigh
  · rw [List.getElem?_append_left (by omega),
      List.getElem?_append_left (by omega)]
  · rw [List.getElem?_append_right (by omega),
      List.getElem?_append_right (by omega),
      List.getElem?_append_right (by omega),
      List.getElem?_append_right (by omega), hlen, hlen']

theorem createBeacon_shows (ctx : Context) (f : Fields) :
    Shows (createBeacon ctx f) f :=
  ⟨0, createBeacon_msg ctx f⟩

/-- **The responder over whole runs.** Answers are `DISCOVERY_MIN_DELAY` apart,
only requests that select the device are answered, every answer decodes to the
beacon of the device, and of the message in the context only the bytes of the
uptime change. -/
theorem responder
    (ctx : Context) (f : Fields) (ds : List Delivery)
    (hmono : NonDecreasing ds) :
    ((answers (createBeacon ctx f) ds).Pairwise fun p q =>
        p.1.uptime.toNat + minDelay.toNat ≤ q.1.uptime.toNat) ∧
      (∀ p ∈ answers (createBeacon ctx f) ds, Selects p.1.rx f ∧
        convertMemToBeacon p.2 beaconLen =
          some (f.info false p.1.uptime)) ∧
      ∀ k, k < 8 ∨ 16 ≤ k →
        (contextAfter (createBeacon ctx f) ds).msg[k]? =
          (createBeacon ctx f).msg[k]? := by
  have h := createBeacon_shows ctx f
  refine ⟨answers_pairwise h hmono (fun d _ => ?_), answers_selected h ds,
    fun k hk => ?_⟩
  · have hzero : (createBeacon ctx f).lastUptime = 0 := rfl
    rw [hzero, BitVec.le_def]
    exact Nat.zero_le _
  · obtain ⟨u, hmsg⟩ := h.contextAfter ds
    rw [hmsg, createBeacon_msg]
    exact messageBytes_outside beaconStr u 0 f hk

/-- A request of some filters. -/
def requestFor (filter : Fields) (uptime : BitVec 64) : Delivery where
  rx := messageBytes requestStr 0 filter
  uptime := uptime

theorem requestOf_requestFor (filter : Fields) (uptime : BitVec 64) :
    requestOf (requestFor filter uptime).rx = some (filter.info true 0) := by
  have hdecode := convert_messageBytes true 0 filter
  unfold requestOf
  change (convertMemToBeacon (messageBytes requestStr 0 filter)
    (messageBytes requestStr 0 filter).length).filter _ = _
  rw [length_messageBytes]
  change convertMemToBeacon (messageBytes requestStr 0 filter) beaconLen = _
    at hdecode
  rw [hdecode]
  rfl

/-- A request for the vendor of a device. -/
def mollerRequest (uptime : BitVec 64) : Delivery :=
  requestFor mollerFilter uptime

/-- Three such requests; the second one comes too soon. -/
theorem responder_moller :
    (answers (createBeacon blankContext mollerIdentity)
      [mollerRequest 5, mollerRequest 7, mollerRequest 10]).Pairwise
        fun p q => p.1.uptime.toNat + minDelay.toNat ≤ q.1.uptime.toNat := by
  have hmono : NonDecreasing
      [mollerRequest 5, mollerRequest 7, mollerRequest 10] := by
    simp [NonDecreasing, mollerRequest, requestFor]
  exact (responder blankContext mollerIdentity _ hmono).1

/-! ## Requests for other devices -/

/-- A request that passes the rate limit and is not answered because one of its
filters does not match the device. -/
def RejectedByFilter (ctx : Context) (d : Delivery) : Prop :=
  ∃ request beacon, requestOf d.rx = some request ∧
    convertMemToBeacon ctx.msg beaconLen = some beacon ∧
    GateOpen ctx d.uptime ∧ filtersPass request beacon = false

/-- The datagram has no influence on the replies to later ones. -/
def NonInterfering (ctx : Context) (d : Delivery) : Prop :=
  ∀ ds, NonDecreasing (d :: ds) →
    replies (process ctx d).2 ds = replies ctx ds

theorem RejectedByFilter.process_eq
    {ctx : Context} {d : Delivery} (h : RejectedByFilter ctx d) :
    process ctx d = (none, ctx.note d.uptime) := by
  obtain ⟨request, beacon, hrequest, hbeacon, hgate, hpass⟩ := h
  rw [process_of_request hrequest hbeacon hgate, hpass, if_neg (by simp)]

@[simp] theorem note_lastUptime (ctx : Context) (uptime : BitVec 64) :
    (ctx.note uptime).lastUptime = uptime := by
  rfl

theorem Context.note_congr
    {a b : Context} (hmsg : a.msg = b.msg) (uptime : BitVec 64) :
    a.note uptime = b.note uptime := by
  cases a
  cases b
  obtain rfl : _ = _ := hmsg
  rfl

/-- Two contexts with the same message, whose rate limits agree on a datagram,
give the same reply. They are the same afterwards, or both unchanged. -/
theorem process_congr
    {a b : Context} {d : Delivery} (hmsg : a.msg = b.msg)
    (hgate : GateOpen a d.uptime ↔ GateOpen b d.uptime) :
    (process a d).1 = (process b d).1 ∧
      ((process a d).2 = (process b d).2 ∨
        ((process a d).2 = a ∧ (process b d).2 = b)) := by
  by_cases hopen : (∃ request, requestOf d.rx = some request) ∧
      (∃ beacon, convertMemToBeacon a.msg beaconLen = some beacon) ∧
      GateOpen a d.uptime
  · obtain ⟨⟨request, hrequest⟩, ⟨beacon, hbeacon⟩, hopen⟩ := hopen
    rw [process_of_request hrequest hbeacon hopen,
      process_of_request hrequest (hmsg ▸ hbeacon) (hgate.mp hopen),
      Context.note_congr hmsg]
    exact ⟨rfl, .inl rfl⟩
  · have hignored : requestOf d.rx = none ∨
        convertMemToBeacon a.msg beaconLen = none ∨
          ¬ GateOpen a d.uptime := by
      by_contra hall
      push Not at hall
      obtain ⟨hrequest, hbeacon, hgate'⟩ := hall
      exact hopen ⟨Option.ne_none_iff_exists'.mp hrequest,
        Option.ne_none_iff_exists'.mp hbeacon, hgate'⟩
    have hignored' := hignored
    rw [hmsg, hgate] at hignored'
    rw [process_of_ignored hignored, process_of_ignored hignored']
    exact ⟨rfl, .inr ⟨rfl, rfl⟩⟩

/-- Contexts whose rate limits agree on all datagrams give the same replies. -/
theorem replies_congr
    {a b : Context} {ds : List Delivery} (hmsg : a.msg = b.msg)
    (hgate : ∀ d ∈ ds, GateOpen a d.uptime ↔ GateOpen b d.uptime) :
    replies a ds = replies b ds := by
  induction ds with
  | nil => rfl
  | cons d ds ih =>
      obtain ⟨hreply, hctx⟩ := process_congr hmsg
        (hgate d List.mem_cons_self)
      have htail := ih (fun e he => hgate e (List.mem_cons_of_mem _ he))
      unfold replies
      rw [hreply]
      rcases hctx with hsame | ⟨ha, hb⟩
      · rw [hsame]
      · rw [ha, hb, htail]

/-- Datagrams that leave no trace are not answered and do not matter. -/
theorem replies_of_ignored
    (ctx : Context) {early : List Delivery} (late : List Delivery)
    (h : ∀ d ∈ early, process ctx d = (none, ctx)) :
    replies ctx (early ++ late) =
      early.map (fun _ => none) ++ replies ctx late := by
  induction early with
  | nil => rfl
  | cons d early ih =>
      have hd := h d List.mem_cons_self
      have htail := ih (fun e he => h e (List.mem_cons_of_mem _ he))
      simp [replies, hd, htail]

/-- A later datagram comes less than `DISCOVERY_MIN_DELAY` after another. -/
def soonAfter (d e : Delivery) : Bool :=
  decide (e.uptime.toNat < d.uptime.toNat + minDelay.toNat)

/-- Uptimes being non-decreasing, the early datagrams come first. -/
theorem not_soonAfter_of_mem_dropWhile
    {d : Delivery} {ds : List Delivery} (hmono : NonDecreasing ds) :
    ∀ e ∈ ds.dropWhile (soonAfter d), soonAfter d e = false := by
  induction ds with
  | nil =>
      intro e he
      simp at he
  | cons x ds ih =>
      obtain ⟨hx, htail⟩ := List.pairwise_cons.mp hmono
      intro e he
      cases hsoon : soonAfter d x with
      | true =>
          rw [List.dropWhile_cons_of_pos hsoon] at he
          exact ih htail e he
      | false =>
          rw [List.dropWhile_cons_of_neg (by simp [hsoon])] at he
          rcases List.mem_cons.mp he with rfl | he
          · exact hsoon
          · have hle := hx e he
            rw [BitVec.le_def] at hle
            simp only [soonAfter, decide_eq_false_iff_not] at hsoon ⊢
            omega

/-- The datagrams that come too soon after a noted request are ignored. -/
theorem replies_note
    (ctx : Context) {d : Delivery} {ds : List Delivery}
    (hmono : NonDecreasing (d :: ds)) :
    replies (ctx.note d.uptime) ds =
      (ds.takeWhile (soonAfter d)).map (fun _ => none) ++
        replies (ctx.note d.uptime) (ds.dropWhile (soonAfter d)) := by
  obtain ⟨hafter, _⟩ := List.pairwise_cons.mp hmono
  have hearly : ∀ e ∈ ds.takeWhile (soonAfter d),
      process (ctx.note d.uptime) e = (none, ctx.note d.uptime) := by
    intro e he
    have hsoon := List.mem_takeWhile_imp he
    have hle : (ctx.note d.uptime).lastUptime ≤ e.uptime :=
      hafter e ((List.takeWhile_prefix _).subset he)
    refine process_of_ignored (.inr (.inr ?_))
    rw [gateOpen_iff hle, note_lastUptime]
    simp only [soonAfter, decide_eq_true_eq] at hsoon
    omega
  have happend := replies_of_ignored _ (ds.dropWhile (soonAfter d)) hearly
  rwa [List.takeWhile_append_dropWhile] at happend

/-- The rate limit lets the later ones pass. -/
theorem gateOpen_note
    (ctx : Context) {d : Delivery} {ds : List Delivery}
    (hmono : NonDecreasing (d :: ds)) :
    ∀ e ∈ ds.dropWhile (soonAfter d), GateOpen (ctx.note d.uptime) e.uptime := by
  obtain ⟨hafter, htail⟩ := List.pairwise_cons.mp hmono
  intro e he
  have hsoon := not_soonAfter_of_mem_dropWhile htail e he
  have hle : (ctx.note d.uptime).lastUptime ≤ e.uptime :=
    hafter e ((List.dropWhile_suffix _).subset he)
  rw [gateOpen_iff hle, note_lastUptime]
  simp only [soonAfter, decide_eq_false_iff_not] at hsoon
  omega

/-- A limit that has passed is over for all datagrams that come later. -/
theorem GateOpen.later
    {ctx : Context} {d e : Delivery} (hclock : ctx.lastUptime ≤ d.uptime)
    (hgate : GateOpen ctx d.uptime) (hle : d.uptime ≤ e.uptime) :
    GateOpen ctx e.uptime := by
  rw [gateOpen_iff hclock] at hgate
  rw [gateOpen_iff (BitVec.le_trans hclock hle)]
  rw [BitVec.le_def] at hle
  omega

/-- **A request for another device costs `DISCOVERY_MIN_DELAY`.** The datagrams
that come sooner after it are not answered. The replies to the others are as if
neither it nor these had been received, and if there is no request among these
it does not interfere at all, as long as the limit of the context does not hold
up one of the others. If the clock has not gone back it does not. -/
theorem nonmatching_delays
    {ctx : Context} {d : Delivery} (hrejected : RejectedByFilter ctx d)
    {ds : List Delivery} (hmono : NonDecreasing (d :: ds)) :
    replies (process ctx d).2 ds =
        (ds.takeWhile (soonAfter d)).map (fun _ => none) ++
          replies (process ctx d).2 (ds.dropWhile (soonAfter d)) ∧
      ((∀ e ∈ ds.dropWhile (soonAfter d), GateOpen ctx e.uptime) →
        replies (process ctx d).2 (ds.dropWhile (soonAfter d)) =
            replies ctx (ds.dropWhile (soonAfter d)) ∧
          ((∀ e ∈ ds, soonAfter d e = true → requestOf e.rx = none) →
            replies (process ctx d).2 ds = replies ctx ds)) ∧
      (ctx.lastUptime ≤ d.uptime →
        ∀ e ∈ ds.dropWhile (soonAfter d), GateOpen ctx e.uptime) := by
  have hfirst := replies_note ctx hmono
  rw [hrejected.process_eq]
  refine ⟨hfirst, fun hopen => ?_, fun hclock e he => ?_⟩
  · have hlate : replies (ctx.note d.uptime) (ds.dropWhile (soonAfter d)) =
        replies ctx (ds.dropWhile (soonAfter d)) :=
      replies_congr rfl fun e he =>
        iff_of_true (gateOpen_note ctx hmono e he) (hopen e he)
    refine ⟨hlate, fun hnone => ?_⟩
    have hignored : ∀ e ∈ ds.takeWhile (soonAfter d),
        process ctx e = (none, ctx) := by
      intro e he
      exact process_of_ignored (.inl (hnone e
        ((List.takeWhile_prefix _).subset he) (List.mem_takeWhile_imp he)))
    have happend := replies_of_ignored ctx (ds.dropWhile (soonAfter d)) hignored
    rw [List.takeWhile_append_dropWhile] at happend
    rw [hfirst, happend, hlate]
  · obtain ⟨_, _, _, _, hgate, _⟩ := hrejected
    obtain ⟨hafter, _⟩ := List.pairwise_cons.mp hmono
    exact hgate.later hclock
      (hafter e ((List.dropWhile_suffix _).subset he))

/-- The device of the examples. -/
def mollerDevice : Context :=
  createBeacon blankContext mollerIdentity

/-- A request for a device of the same vendor with another id. -/
def otherRequest (uptime : BitVec 64) : Delivery :=
  requestFor { mollerFilter with devID := 18 } uptime

theorem otherRequest_rejected :
    RejectedByFilter mollerDevice (otherRequest 5) := by
  obtain ⟨old, hbeacon⟩ :=
    (createBeacon_shows blankContext mollerIdentity).convert
  exact ⟨_, _, requestOf_requestFor _ _, hbeacon, by decide, rfl⟩

theorem nonmatching_delays_moller :
    replies (process mollerDevice (otherRequest 5)).2
        [mollerRequest 7, mollerRequest 10] =
      [none] ++ replies mollerDevice [mollerRequest 10] := by
  have hmono : NonDecreasing
      [otherRequest 5, mollerRequest 7, mollerRequest 10] := by
    simp [NonDecreasing, mollerRequest, otherRequest, requestFor]
  obtain ⟨hfirst, hlate, hclear⟩ :=
    nonmatching_delays otherRequest_rejected hmono
  have hsame := (hlate (hclear (by decide))).1
  exact hfirst.trans (congrArg ([none] ++ ·) hsame)

/-- The device does not answer a request for its vendor that comes two ticks
after the request for the other device. -/
theorem interferes_moller :
    RejectedByFilter mollerDevice (otherRequest 5) ∧
      ¬ NonInterfering mollerDevice (otherRequest 5) := by
  refine ⟨otherRequest_rejected, fun hsame => ?_⟩
  have hmono : NonDecreasing [otherRequest 5, mollerRequest 7] := by
    simp [NonDecreasing, mollerRequest, otherRequest, requestFor]
  have hreplies := hsame [mollerRequest 7] hmono
  have hsilent : (process (process mollerDevice (otherRequest 5)).2
      (mollerRequest 7)).1 = none := by
    rw [otherRequest_rejected.process_eq]
    exact congrArg Prod.fst (process_of_ignored (.inr (.inr (by decide))))
  have hanswer : (process mollerDevice (mollerRequest 7)).1 =
      some (messageBytes beaconStr 7 mollerIdentity) := by
    have hlen : (mollerRequest 7).rx.length = beaconLen :=
      length_messageBytes _ _ _
    unfold process
    rw [hlen]
    exact processRequest_of_matches (createBeacon_msg _ _)
      mollerFilter_matches 0 (by decide)
  unfold replies at hreplies
  rw [hsilent, hanswer] at hreplies
  exact absurd (List.cons.inj hreplies).1 (by simp)

end Discovery
end MollerFirmware
