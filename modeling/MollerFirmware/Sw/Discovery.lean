import MollerFirmware.Memory.Buffers

/-!
# discovery.c

The discovery protocol: a device answers a request that matches its identity
with its beacon. Beacons and requests share one layout of 256 bytes; they differ
in the version string at the front. In a request an id of all ones and an empty
string match everything.

A datagram is the list of its bytes. Strings handed to the library may be
missing, as a null pointer; the buffers and contexts themselves are present.
-/

namespace MollerFirmware
namespace Discovery

open Memory

/-- `DISCOVERY_MIN_DELAY` -/
def minDelay : BitVec 64 :=
  5

/-- `DISCOVERY_VERSION` -/
def versionStr : List Byte :=
  ascii ['0', '1']

/-- `DISCOVERY_BEACON_STR` -/
def beaconStr : List Byte :=
  ascii ['B', 'E', 'A', 'C', 'O', 'N'] ++ versionStr

/-- `DISCOVERY_REQUEST_STR` -/
def requestStr : List Byte :=
  ascii ['R', 'Q', 'U', 'E', 'S', 'T'] ++ versionStr

/-- `DISCOVERY_VENDOR_LEN` -/
def vendorLen : Nat := 64

/-- `DISCOVERY_PRODUCT_LEN` -/
def productLen : Nat := 96

/-- `DISCOVERY_HW_REV_LEN` -/
def hwRevLen : Nat := 32

/-- `DISCOVERY_FW_REV_LEN` -/
def fwRevLen : Nat := 32

/-- `DISCOVERY_DONT_CARE` -/
def dontCare : BitVec 64 :=
  0xFFFFFFFFFFFFFFFF

/-- `DISCOVERY_BEACON_LEN` -/
def beaconLen : Nat :=
  8 + 8 + 8 + 8 + hwRevLen + fwRevLen + vendorLen + productLen

/-- Identity of a device, or the filters of a request. -/
structure Fields where
  devID : BitVec 64
  logicalID : BitVec 64
  hwRev : Option CString
  fwRev : Option CString
  vendor : Option CString
  product : Option CString

/-- `tDiscoveryBeaconInfo`; the strings are arrays with a final terminator. -/
structure BeaconInfo where
  isRequest : Bool
  uptime : BitVec 64
  deviceID : BitVec 64
  logicalID : BitVec 64
  hardwareRevision : List Byte
  firmwareRevision : List Byte
  vendorName : List Byte
  productName : List Byte
deriving DecidableEq

/-- `tDiscoveryContext`; `msg` is an array of 256 bytes. -/
structure Context where
  msg : List Byte
  lastUptime : BitVec 64
  length_msg : msg.length = beaconLen

/-- `strncpy` of a string that may be missing. -/
def copyString (buf : List Byte) (off : Nat) (src : Option CString) (n : Nat) :
    List Byte :=
  match src with
  | none => buf
  | some s => strncpy buf off s.chars n

/-- The stores of `create_beacon_in_mem`. -/
def fillBeacon (buffer version : List Byte) (uptime : BitVec 64)
    (f : Fields) : List Byte :=
  let buffer := overwrite buffer 0 (List.replicate beaconLen 0)
  let buffer := strncpy buffer 0 version 8
  let buffer := overwrite buffer 8 (leBytes uptime)
  let buffer := overwrite buffer 16 (leBytes f.devID)
  let buffer := overwrite buffer 24 (leBytes f.logicalID)
  let buffer := copyString buffer 32 f.hwRev hwRevLen
  let buffer := copyString buffer (32 + hwRevLen) f.fwRev fwRevLen
  let buffer := copyString buffer (32 + hwRevLen + fwRevLen) f.vendor vendorLen
  copyString buffer (32 + hwRevLen + fwRevLen + vendorLen) f.product productLen

/-- `create_beacon_in_mem` -/
def createBeaconInMem (buffer : List Byte) (buffLen : Nat)
    (version : List Byte) (uptime : BitVec 64) (f : Fields) :
    Option (List Byte) :=
  if buffLen < beaconLen then none
  else some (fillBeacon buffer version uptime f)

/-- Bytes of a string field; a missing string is an empty one. -/
def fieldBytes (src : Option CString) (n : Nat) : List Byte :=
  strncpyBytes ((src.map CString.chars).getD []) n

@[simp] theorem length_fieldBytes (src : Option CString) (n : Nat) :
    (fieldBytes src n).length = n := by
  simp [fieldBytes]

/-- A string that follows the filled part of a cleared buffer. -/
theorem copyString_fill
    {pre : List Byte} {off n m : Nat} (src : Option CString)
    (hoff : pre.length = off) (hfits : n ≤ m) :
    copyString (pre ++ List.replicate m 0) off src n =
      pre ++ fieldBytes src n ++ List.replicate (m - n) 0 := by
  cases src with
  | none =>
      simp [copyString, fieldBytes, strncpyBytes]
      omega
  | some s =>
      have hfill := overwrite_fill (z := (0 : Byte)) (strncpyBytes s.chars n)
        m hoff
      rw [length_strncpyBytes] at hfill
      exact hfill

/-- The bytes of a message, field by field. -/
def messageBytes (version : List Byte) (uptime : BitVec 64) (f : Fields) :
    List Byte :=
  strncpyBytes version 8 ++ leBytes uptime ++ leBytes f.devID ++
    leBytes f.logicalID ++ fieldBytes f.hwRev hwRevLen ++
    fieldBytes f.fwRev fwRevLen ++ fieldBytes f.vendor vendorLen ++
    fieldBytes f.product productLen

@[simp] theorem length_messageBytes
    (version : List Byte) (uptime : BitVec 64) (f : Fields) :
    (messageBytes version uptime f).length = beaconLen := by
  simp [messageBytes]
  rfl

/-- The version string is at the front. -/
theorem take_messageBytes
    {version : List Byte} (hversion : version.length = 8)
    (uptime : BitVec 64) (f : Fields) :
    (messageBytes version uptime f).take 8 = version := by
  have hfront : strncpyBytes version 8 = version := by
    simp [strncpyBytes, hversion]
  simp only [messageBytes, List.append_assoc, hfront]
  rw [← hversion, List.take_left]

/-- **Layout of a message.** The stores fill a buffer field by field. -/
theorem fillBeacon_eq
    {buffer : List Byte} (hbuf : buffer.length = beaconLen)
    (version : List Byte) (uptime : BitVec 64) (f : Fields) :
    fillBeacon buffer version uptime f = messageBytes version uptime f := by
  have hclear : overwrite buffer 0 (List.replicate beaconLen 0) =
      [] ++ List.replicate beaconLen (0 : Byte) := by
    simp [overwrite, ← hbuf]
  unfold fillBeacon strncpy
  dsimp only
  rw [hclear, overwrite_fill _ _ (by simp), overwrite_fill _ _ (by simp),
    overwrite_fill _ _ (by simp), overwrite_fill _ _ (by simp),
    copyString_fill _ (by simp) (by simp; decide),
    copyString_fill _ (by simp; rfl) (by simp; decide),
    copyString_fill _ (by simp; rfl) (by simp; decide),
    copyString_fill _ (by simp; rfl) (by simp; decide)]
  simp [messageBytes]
  rfl

theorem length_fillBeacon
    {buffer : List Byte} (hbuf : buffer.length = beaconLen)
    (version : List Byte) (uptime : BitVec 64) (f : Fields) :
    (fillBeacon buffer version uptime f).length = beaconLen := by
  rw [fillBeacon_eq hbuf, length_messageBytes]

/-- `discovery_create_beacon`: the context it leaves; the message it returns is
the one in the context. -/
def createBeacon (ctx : Context) (f : Fields) : Context where
  msg := (createBeaconInMem ctx.msg beaconLen beaconStr 0 f).getD ctx.msg
  lastUptime := 0
  length_msg := length_fillBeacon ctx.length_msg beaconStr 0 f

@[simp] theorem createBeacon_msg (ctx : Context) (f : Fields) :
    (createBeacon ctx f).msg = messageBytes beaconStr 0 f := by
  simp only [createBeacon, createBeaconInMem, lt_irrefl, if_false,
    Option.getD_some]
  exact fillBeacon_eq ctx.length_msg beaconStr 0 f

/-- `discovery_create_request` -/
def createRequest (buff : List Byte) (buffLen : Nat) (f : Fields) :
    Option (List Byte) :=
  createBeaconInMem buff buffLen requestStr 0 f

/-- `memcpy` of `len` bytes from index `off` on into a longer array, and a
terminator. -/
def copyField (buffer : List Byte) (off len : Nat) : List Byte :=
  (List.range len).map (fun k => buffer.getD (off + k) 0) ++ [0]

/-- `discovery_convert_mem_to_beacon` -/
def convertMemToBeacon (buffer : List Byte) (buffLen : Nat) :
    Option BeaconInfo :=
  if buffLen < beaconLen then none
  else if strncasecmp (buffer.drop 6) versionStr 2 ≠ 0 then none
  else
    let info (isRequest : Bool) : BeaconInfo :=
      { isRequest := isRequest
        uptime := readLe buffer 8
        deviceID := readLe buffer 16
        logicalID := readLe buffer 24
        hardwareRevision := copyField buffer 32 hwRevLen
        firmwareRevision := copyField buffer (32 + hwRevLen) fwRevLen
        vendorName := copyField buffer (32 + hwRevLen + fwRevLen) vendorLen
        productName :=
          copyField buffer (32 + hwRevLen + fwRevLen + vendorLen) productLen }
    if strncasecmp buffer requestStr requestStr.length = 0 then
      some (info true)
    else if strncasecmp buffer beaconStr beaconStr.length ≠ 0 then none
    else some (info false)

/-- An id filter that the device does not meet. -/
def idRejects (request beacon : BitVec 64) : Bool :=
  decide (request ≠ dontCare) && decide (beacon ≠ request)

/-- A string filter that the device does not meet. -/
def stringRejects (request beacon : List Byte) (len : Nat) : Bool :=
  decide (request.headD 0 ≠ 0) && decide (strncasecmp beacon request len ≠ 0)

/-- The uptime bytes of the message. -/
def Context.setUptime (ctx : Context) (uptime : BitVec 64) : Context where
  msg := overwrite ctx.msg 8 (leBytes uptime)
  lastUptime := ctx.lastUptime
  length_msg := by
    rw [length_overwrite, ctx.length_msg]
    rw [ctx.length_msg, length_leBytes]
    decide

/-- `discovery_process_request`: the reply, if any, and the context after it.
The uptime is noted before the filters are looked at. -/
def processRequest (ctx : Context) (rx : List Byte) (rxLen : Nat)
    (uptime : BitVec 64) : Option (List Byte) × Context :=
  if rxLen < beaconLen then (none, ctx)
  else
    match convertMemToBeacon rx rxLen with
    | none => (none, ctx)
    | some request =>
        if !request.isRequest then (none, ctx)
        else
          match convertMemToBeacon ctx.msg beaconLen with
          | none => (none, ctx)
          | some beacon =>
              if uptime - ctx.lastUptime < minDelay then (none, ctx)
              else
                let ctx := { ctx with lastUptime := uptime }
                if idRejects request.deviceID beacon.deviceID then (none, ctx)
                else if idRejects request.logicalID beacon.logicalID then
                  (none, ctx)
                else if stringRejects request.hardwareRevision
                    beacon.hardwareRevision hwRevLen then
                  (none, ctx)
                else if stringRejects request.firmwareRevision
                    beacon.firmwareRevision fwRevLen then
                  (none, ctx)
                else if stringRejects request.vendorName
                    beacon.vendorName vendorLen then
                  (none, ctx)
                else if stringRejects request.productName
                    beacon.productName productLen then
                  (none, ctx)
                else
                  let ctx := ctx.setUptime uptime
                  (some ctx.msg, ctx)

/-- The kind of a message is decided by the string at its front. -/
theorem isRequest_of_convert
    {buffer : List Byte} {len : Nat} {info : BeaconInfo}
    (h : convertMemToBeacon buffer len = some info) :
    info.isRequest = true ↔
      strncasecmp buffer requestStr requestStr.length = 0 := by
  unfold convertMemToBeacon at h
  split_ifs at h with _ _ hrequest
  · obtain rfl := Option.some.inj h
    simpa using hrequest
  · obtain rfl := Option.some.inj h
    simpa using hrequest

/-- Only messages that begin with the request string are looked at. -/
theorem processRequest_of_not_request
    (ctx : Context) {rx : List Byte} (rxLen : Nat) (uptime : BitVec 64)
    (hrx : strncasecmp rx requestStr requestStr.length ≠ 0) :
    processRequest ctx rx rxLen uptime = (none, ctx) := by
  unfold processRequest
  by_cases hlen : rxLen < beaconLen
  · rw [if_pos hlen]
  · rw [if_neg hlen]
    cases hdecode : convertMemToBeacon rx rxLen with
    | none => rfl
    | some request =>
        have hkind : request.isRequest = false := by
          rw [Bool.eq_false_iff]
          exact fun hrequest => hrx ((isRequest_of_convert hdecode).mp hrequest)
        simp [hkind]

/-- A field of a message is copied together with a terminator. -/
theorem copyField_of_storedAt
    {buf field : List Byte} {off len : Nat}
    (h : StoredAt buf off field) (hlen : field.length = len) :
    copyField buf off len = field ++ [0] := by
  subst hlen
  have hfield : (List.range field.length).map (fun k => buf.getD (off + k) 0) =
      field := by
    refine List.ext_getElem (by simp) (fun k hk hk' => ?_)
    rw [List.getElem_map, List.getElem_range, h.getD hk']
  unfold copyField
  rw [hfield]

/-- The version string of a beacon or of a request. -/
def kindStr (isRequest : Bool) : List Byte :=
  if isRequest then requestStr else beaconStr

@[simp] theorem length_kindStr (isRequest : Bool) :
    (kindStr isRequest).length = 8 := by
  cases isRequest <;> rfl

/-- What a decoded message says. -/
def Fields.info (f : Fields) (isRequest : Bool) (uptime : BitVec 64) :
    BeaconInfo where
  isRequest := isRequest
  uptime := uptime
  deviceID := f.devID
  logicalID := f.logicalID
  hardwareRevision := fieldBytes f.hwRev hwRevLen ++ [0]
  firmwareRevision := fieldBytes f.fwRev fwRevLen ++ [0]
  vendorName := fieldBytes f.vendor vendorLen ++ [0]
  productName := fieldBytes f.product productLen ++ [0]

/-- A message compares like the string at its front. -/
theorem strncasecmp_messageBytes
    (isRequest : Bool) (uptime : BitVec 64) (f : Fields) (s : List Byte) :
    strncasecmp (messageBytes (kindStr isRequest) uptime f) s 8 =
      strncasecmp (kindStr isRequest) s 8 := by
  rw [← strncasecmp_take, take_messageBytes (length_kindStr isRequest)]

/-- Where the fields of a message are. -/
structure Layout (msg : List Byte) (uptime : BitVec 64) (f : Fields) :
    Prop where
  uptime : StoredAt msg 8 (leBytes uptime)
  devID : StoredAt msg 16 (leBytes f.devID)
  logicalID : StoredAt msg 24 (leBytes f.logicalID)
  hwRev : StoredAt msg 32 (fieldBytes f.hwRev hwRevLen)
  fwRev : StoredAt msg (32 + hwRevLen) (fieldBytes f.fwRev fwRevLen)
  vendor : StoredAt msg (32 + hwRevLen + fwRevLen)
    (fieldBytes f.vendor vendorLen)
  product : StoredAt msg (32 + hwRevLen + fwRevLen + vendorLen)
    (fieldBytes f.product productLen)

theorem layout_messageBytes
    (version : List Byte) (uptime : BitVec 64) (f : Fields) :
    Layout (messageBytes version uptime f) uptime f where
  uptime := ((((((storedAt_append _ (by simp)).right _).right _).right
    _).right _).right _).right _
  devID := (((((storedAt_append _ (by simp)).right _).right _).right
    _).right _).right _
  logicalID := ((((storedAt_append _ (by simp)).right _).right _).right
    _).right _
  hwRev := (((storedAt_append _ (by simp)).right _).right _).right _
  fwRev := ((storedAt_append _ (by simp; rfl)).right _).right _
  vendor := (storedAt_append _ (by simp; rfl)).right _
  product := storedAt_append _ (by simp; rfl)

/-- What follows a message does not move its fields. -/
theorem Layout.right
    {msg : List Byte} {uptime : BitVec 64} {f : Fields}
    (h : Layout msg uptime f) (post : List Byte) :
    Layout (msg ++ post) uptime f where
  uptime := h.uptime.right post
  devID := h.devID.right post
  logicalID := h.logicalID.right post
  hwRev := h.hwRev.right post
  fwRev := h.fwRev.right post
  vendor := h.vendor.right post
  product := h.product.right post

/-- The decoder looks at the front of a message and at its fields. -/
theorem convert_of_layout
    {buf : List Byte} {len : Nat} {isRequest : Bool} {uptime : BitVec 64}
    {f : Fields} (hlen : beaconLen ≤ len)
    (hfront : buf.take 8 = kindStr isRequest) (h : Layout buf uptime f) :
    convertMemToBeacon buf len = some (f.info isRequest uptime) := by
  have hkind : ∀ s, strncasecmp buf s 8 =
      strncasecmp (kindStr isRequest) s 8 := by
    intro s
    rw [← strncasecmp_take, hfront]
  have hversion : strncasecmp (buf.drop 6) versionStr 2 = 0 := by
    have hend := congrArg (List.drop 6) hfront
    rw [List.drop_take] at hend
    rw [← strncasecmp_take, hend]
    cases isRequest <;> decide
  have hrequest : requestStr.length = 8 := by decide
  have hbeacon : beaconStr.length = 8 := by decide
  unfold convertMemToBeacon
  rw [if_neg (by omega), hversion, hrequest, hbeacon, hkind, hkind,
    h.uptime.readLe, h.devID.readLe, h.logicalID.readLe,
    copyField_of_storedAt h.hwRev (by simp),
    copyField_of_storedAt h.fwRev (by simp),
    copyField_of_storedAt h.vendor (by simp),
    copyField_of_storedAt h.product (by simp)]
  cases isRequest with
  | true =>
      have hsame : strncasecmp (kindStr true) requestStr 8 = 0 := by decide
      simp [hsame, Fields.info]
  | false =>
      have hother : strncasecmp (kindStr false) requestStr 8 ≠ 0 := by decide
      have hsame : strncasecmp (kindStr false) beaconStr 8 = 0 := by decide
      simp [hother, hsame, Fields.info]

/-- **The decoder reads what the encoder wrote.** -/
theorem convert_messageBytes
    (isRequest : Bool) (uptime : BitVec 64) (f : Fields) :
    convertMemToBeacon (messageBytes (kindStr isRequest) uptime f) beaconLen =
      some (f.info isRequest uptime) :=
  convert_of_layout (le_refl _)
    (take_messageBytes (length_kindStr isRequest) uptime f)
    (layout_messageBytes _ uptime f)

/-- The bytes of a message behind its uptime. -/
def identityBytes (f : Fields) : List Byte :=
  leBytes f.devID ++ leBytes f.logicalID ++ fieldBytes f.hwRev hwRevLen ++
    fieldBytes f.fwRev fwRevLen ++ fieldBytes f.vendor vendorLen ++
    fieldBytes f.product productLen

theorem messageBytes_eq
    (version : List Byte) (uptime : BitVec 64) (f : Fields) :
    messageBytes version uptime f =
      strncpyBytes version 8 ++ leBytes uptime ++ identityBytes f := by
  simp [messageBytes, identityBytes]

/-- The uptime of a beacon is brought up to date. -/
theorem setUptime_msg
    (ctx : Context) {old : BitVec 64} {version : List Byte} {f : Fields}
    (hmsg : ctx.msg = messageBytes version old f) (uptime : BitVec 64) :
    (ctx.setUptime uptime).msg = messageBytes version uptime f := by
  change overwrite ctx.msg 8 (leBytes uptime) = _
  rw [hmsg, messageBytes_eq, messageBytes_eq,
    overwrite_middle _ (by simp) (by simp)]

end Discovery
end MollerFirmware
