import MollerFirmware.Memory.LinkedLists
import MollerFirmware.Sw.Discovery

/-!
# discovery_udp_linux.c

The two ends of the discovery protocol over UDP. The client is the device: it
answers requests. The server broadcasts requests and collects the beacons that
come back in a singly linked list. The model keeps what the functions do with a
datagram once `recvfrom` has delivered it; sockets and addresses of the local
host are outside it, and memory allocation succeeds.

The module ends with the exchange between the two. The server builds what it
broadcasts with `discovery_create_beacon`, as a device does, and no device
takes a beacon for a request (`not_discovered`). The message that
`discovery_create_request` builds would be answered (`createRequest_answered`).
-/

namespace MollerFirmware
namespace Discovery

open Memory

/-- `DISCOVERY_MAX_BEACONS` -/
def maxBeacons : BitVec 32 :=
  253

/-- A datagram on the wire, with the address of its sender. -/
structure Datagram where
  ip : BitVec 32
  bytes : List Byte

/-- `recvfrom` into a buffer of `DISCOVERY_BEACON_LEN` bytes: a longer datagram
loses its end. The result is the message together with its length. -/
def recvfrom (d : Datagram) : List Byte × Nat :=
  let msg := d.bytes.take beaconLen
  (msg, msg.length)

/-- `discovery_client_update`: the message sent back, if any. -/
def clientUpdate (ctx : Context) (rx : Option Datagram) (uptime : BitVec 64) :
    Option (List Byte) × Context :=
  match rx with
  | none => (none, ctx)
  | some d =>
      let (msgRequest, ret) := recvfrom d
      if ret = beaconLen then
        processRequest ctx msgRequest beaconLen uptime
      else (none, ctx)

/-- The bytes that `discovery_server_send_request` broadcasts. The context on
its stack is not initialised. -/
def serverSendRequest (beacon : Context) (f : Fields) : List Byte :=
  (createBeacon beacon f).msg

/-- `tDiscoveryListItem` -/
structure ListItem where
  ip : BitVec 32
  info : BeaconInfo
deriving DecidableEq

/-- `tDiscoveryServerContext` and the heap with the nodes of its list. -/
structure ServerContext where
  heap : Heap ListItem
  responses : Option Nat
  latestResponse : Option Nat
  numResponses : BitVec 32
  lastRxDevice : ListItem

/-- `discovery_server_init` -/
def serverInit (ctx : ServerContext) : ServerContext :=
  { ctx with
    numResponses := 0
    responses := none
    latestResponse := none }

/-- The beacon that `discovery_server_update` takes from the socket. -/
def serverReceive (ctx : ServerContext) (rx : Option Datagram) :
    Option ListItem :=
  if ctx.numResponses < maxBeacons then
    match rx with
    | none => none
    | some d =>
        let (msg, ret) := recvfrom d
        if ret = beaconLen then
          match convertMemToBeacon msg beaconLen with
          | none => none
          | some info => if !info.isRequest then some ⟨d.ip, info⟩ else none
        else none
  else none

/-- A new node behind the latest response. -/
def ServerContext.append (ctx : ServerContext) (device : ListItem) :
    ServerContext :=
  let next := ctx.heap.length
  let node : Node ListItem := ⟨device, none⟩
  let ctx := { ctx with heap := ctx.heap ++ [node] }
  let ctx :=
    match ctx.latestResponse with
    | some latest => { ctx with heap := setNext ctx.heap latest (some next) }
    | none => { ctx with responses := some next }
  { ctx with
    latestResponse := some next
    numResponses := ctx.numResponses + 1 }

/-- `discovery_server_update` -/
def serverUpdate (ctx : ServerContext) (rx : Option Datagram) :
    ServerContext :=
  match serverReceive ctx rx with
  | none => ctx
  | some device => ctx.append device

/-- The first node leaves the list. Its memory is not freed, and
`latestResponse` is not looked at. -/
def ServerContext.remove (ctx : ServerContext) (node : Node ListItem) :
    ServerContext :=
  { ctx with
    lastRxDevice := node.value
    responses := node.next
    numResponses := ctx.numResponses - 1 }

/-- `discovery_server_get_next`. The pointer `responses` always leads to a node
(`linked_run`), so the innermost `none` does not occur. -/
def serverGetNext (ctx : ServerContext) : Option ListItem × ServerContext :=
  match ctx.responses with
  | none => (none, ctx)
  | some a =>
      match ctx.heap[a]? with
      | none => (none, ctx)
      | some node =>
          let ctx := ctx.remove node
          (some ctx.lastRxDevice, ctx)

/-- `discovery_server_get_num_responses` -/
def serverGetNumResponses (ctx : ServerContext) : BitVec 32 :=
  ctx.numResponses

section Exchange

/-- An id filter that covers an id. -/
def IdMatches (filter own : BitVec 64) : Prop :=
  filter = dontCare ∨ filter = own

/-- A string filter that covers a string: missing, empty, or the same string in
upper or lower case. -/
def StringMatches (filter own : Option CString) : Prop :=
  ∀ s ∈ filter, s.chars ≠ [] →
    ∃ o ∈ own, s.chars.map tolower = o.chars.map tolower

/-- Filters that cover an identity. -/
structure Matches (filter identity : Fields) : Prop where
  devID : IdMatches filter.devID identity.devID
  logicalID : IdMatches filter.logicalID identity.logicalID
  hwRev : StringMatches filter.hwRev identity.hwRev
  fwRev : StringMatches filter.fwRev identity.fwRev
  vendor : StringMatches filter.vendor identity.vendor
  product : StringMatches filter.product identity.product

/-- What the device sends back to the server that broadcasts some filters. -/
def exchange (device stack : Context) (ip : BitVec 32) (filter : Fields)
    (uptime : BitVec 64) : Option (List Byte) :=
  (clientUpdate device (some ⟨ip, serverSendRequest stack filter⟩) uptime).1

/-- The device is found: it answers with its beacon of that moment. -/
def Discovered (device stack : Context) (ip : BitVec 32)
    (identity filter : Fields) (uptime : BitVec 64) : Prop :=
  exchange device stack ip filter uptime =
    some (messageBytes beaconStr uptime identity)

theorem serverSendRequest_eq (stack : Context) (f : Fields) :
    serverSendRequest stack f = messageBytes beaconStr 0 f :=
  createBeacon_msg stack f

/-- A message with the beacon string does not compare as a request. -/
theorem beacon_not_request (uptime : BitVec 64) (f : Fields) :
    strncasecmp (messageBytes beaconStr uptime f) requestStr
      requestStr.length ≠ 0 := by
  have hlen : requestStr.length = 8 := by decide
  have hkind := strncasecmp_messageBytes false uptime f requestStr
  rw [show kindStr false = beaconStr from rfl] at hkind
  rw [hlen, hkind]
  decide

/-- No device answers what the server broadcasts. -/
theorem exchange_ne_some
    (device stack : Context) (ip : BitVec 32) (filter : Fields)
    (uptime : BitVec 64) (msg : List Byte) :
    exchange device stack ip filter uptime ≠ some msg := by
  have hrecv : recvfrom ⟨ip, serverSendRequest stack filter⟩ =
      (messageBytes beaconStr 0 filter, beaconLen) := by
    simp [recvfrom, serverSendRequest_eq, List.take_of_length_le]
  simp only [exchange, clientUpdate, hrecv, if_true]
  rw [processRequest_of_not_request _ _ _ (beacon_not_request 0 filter)]
  exact Option.some_ne_none msg ∘ Eq.symm

/-- **Discovery never succeeds.** Whatever the device, the filters and the
uptime, the broadcast of the server brings no beacon back. -/
theorem not_discovered
    (device stack : Context) (ip : BitVec 32) (identity filter : Fields)
    (uptime : BitVec 64) :
    ¬ Discovered device stack ip identity filter uptime :=
  exchange_ne_some device stack ip filter uptime _

/-- An uninitialised context. -/
def blankContext : Context where
  msg := List.replicate beaconLen 0
  lastUptime := 0
  length_msg := List.length_replicate

/-- A vendor name. -/
def vendorUpper : CString where
  chars := ascii ['M', 'O', 'L', 'L', 'E', 'R']
  nonzero := by decide

/-- The same name in lower case. -/
def vendorLower : CString where
  chars := ascii ['m', 'o', 'l', 'l', 'e', 'r']
  nonzero := by decide

/-- A device with a vendor name. -/
def mollerIdentity : Fields where
  devID := 17
  logicalID := 3
  hwRev := none
  fwRev := none
  vendor := some vendorUpper
  product := none

/-- A request for any device of that vendor. -/
def mollerFilter : Fields where
  devID := dontCare
  logicalID := dontCare
  hwRev := none
  fwRev := none
  vendor := some vendorLower
  product := none

theorem mollerFilter_matches : Matches mollerFilter mollerIdentity := by
  have hvendor : StringMatches mollerFilter.vendor mollerIdentity.vendor := by
    rintro s ⟨⟩ _
    exact ⟨vendorUpper, rfl, by decide⟩
  constructor
  case vendor => exact hvendor
  all_goals simp [IdMatches, StringMatches, mollerFilter, mollerIdentity]

/-- The device fits the request, which comes five ticks after its start, but it
does not answer. -/
theorem not_discovered_moller :
    Matches mollerFilter mollerIdentity ∧
      minDelay ≤ 5 - (createBeacon blankContext mollerIdentity).lastUptime ∧
      ¬ Discovered (createBeacon blankContext mollerIdentity) blankContext 0
        mollerIdentity mollerFilter 5 :=
  ⟨mollerFilter_matches, by decide, exchange_ne_some _ _ _ _ _ _⟩

theorem idRejects_of_matches
    {filter own : BitVec 64} (h : IdMatches filter own) :
    idRejects filter own = false := by
  rcases h with rfl | rfl <;> simp [idRejects]

/-- An empty string begins with its terminator. -/
theorem headD_fieldBytes
    {s : Option CString} (hempty : ∀ c ∈ s, c.chars = []) (n : Nat) :
    (fieldBytes s n ++ [0]).headD 0 = 0 := by
  have hchars : (s.map CString.chars).getD [] = [] := by
    cases s with
    | none => rfl
    | some c => exact hempty c rfl
  unfold fieldBytes strncpyBytes
  rw [hchars]
  cases n <;> simp [List.replicate_succ]

theorem stringRejects_of_matches
    {filter own : Option CString} (h : StringMatches filter own) (n : Nat) :
    stringRejects (fieldBytes filter n ++ [0]) (fieldBytes own n ++ [0]) n =
      false := by
  unfold stringRejects
  by_cases hempty : ∀ c ∈ filter, c.chars = []
  · rw [headD_fieldBytes hempty]
    simp
  · push Not at hempty
    obtain ⟨s, hs, hne⟩ := hempty
    obtain ⟨o, ho, hcase⟩ := h s hs hne
    obtain rfl : filter = some s := hs
    obtain rfl : own = some o := ho
    have hequal : strncasecmp (fieldBytes (some o) n ++ [0])
        (fieldBytes (some s) n ++ [0]) n = 0 := by
      refine strncasecmp_eq_zero (fun k hk => ?_)
      have hlower := congrArg (fun l => (l[k]?).getD (tolower 0)) hcase
      simp only [List.getElem?_map, Option.getD_map] at hlower
      simp only [fieldBytes, Option.map_some, Option.getD_some]
      rw [getD_strncpyBytes _ _ hk, getD_strncpyBytes _ _ hk,
        List.getD_eq_getElem?_getD, List.getD_eq_getElem?_getD, hlower]
    rw [hequal]
    simp

/-- A request whose filters cover the device, and which does not come too soon,
is answered with the beacon of the device. -/
theorem processRequest_of_matches
    {ctx : Context} {identity filter : Fields} {old : BitVec 64}
    (hmsg : ctx.msg = messageBytes beaconStr old identity)
    (hmatch : Matches filter identity) (sent : BitVec 64) {uptime : BitVec 64}
    (hdelay : minDelay ≤ uptime - ctx.lastUptime) :
    (processRequest ctx (messageBytes requestStr sent filter) beaconLen
      uptime).1 = some (messageBytes beaconStr uptime identity) := by
  have hrequest : convertMemToBeacon (messageBytes requestStr sent filter)
      beaconLen = some (filter.info true sent) :=
    convert_messageBytes true sent filter
  have hbeacon : convertMemToBeacon ctx.msg beaconLen =
      some (identity.info false old) := by
    rw [hmsg]
    exact convert_messageBytes false old identity
  have hintime : ¬ uptime - ctx.lastUptime < minDelay := by
    rw [BitVec.lt_def] at *
    rw [BitVec.le_def] at hdelay
    omega
  unfold processRequest
  rw [if_neg (lt_irrefl _), hrequest]
  simp only [Fields.info, Bool.not_true, Bool.false_eq_true, if_false, hbeacon,
    hintime, idRejects_of_matches hmatch.devID,
    idRejects_of_matches hmatch.logicalID,
    stringRejects_of_matches hmatch.hwRev,
    stringRejects_of_matches hmatch.fwRev,
    stringRejects_of_matches hmatch.vendor,
    stringRejects_of_matches hmatch.product]
  exact congrArg some
    (setUptime_msg { ctx with lastUptime := uptime } hmsg uptime)

/-- **What the server should broadcast.** The message of
`discovery_create_request` is answered by every device that its filters
cover. -/
theorem createRequest_answered
    {device : Context} {identity filter : Fields} {old uptime : BitVec 64}
    (hmsg : device.msg = messageBytes beaconStr old identity)
    (hmatch : Matches filter identity)
    (hdelay : minDelay ≤ uptime - device.lastUptime)
    {buff request : List Byte} (hbuff : buff.length = beaconLen)
    (hcreate : createRequest buff beaconLen filter = some request)
    (ip : BitVec 32) :
    (clientUpdate device (some ⟨ip, request⟩) uptime).1 =
      some (messageBytes beaconStr uptime identity) := by
  have hbytes : request = messageBytes requestStr 0 filter := by
    simp only [createRequest, createBeaconInMem, lt_irrefl, if_false,
      Option.some.injEq] at hcreate
    rw [← hcreate, fillBeacon_eq hbuff]
  subst hbytes
  have hrecv : recvfrom ⟨ip, messageBytes requestStr 0 filter⟩ =
      (messageBytes requestStr 0 filter, beaconLen) := by
    simp [recvfrom, List.take_of_length_le]
  simp only [clientUpdate, hrecv, if_true]
  exact processRequest_of_matches hmsg hmatch 0 hdelay

end Exchange

end Discovery
end MollerFirmware
