import MollerFirmware.Sw.Discovery

/-!
# Encoding and decoding of discovery messages

`create_beacon_in_mem` and `discovery_convert_mem_to_beacon` are written
separately and agree on the layout of a message. A string that is longer than
its field loses its end, and one that just fills it is stored without a
terminator; the decoder adds the terminator that is missing. So what comes back
is every string, truncated to its field (`convert_create`).

The buffer may be longer than a message; then the rest of it is left alone.
-/

namespace MollerFirmware
namespace Discovery

open Memory

/-- What is left of a string in a field of `n` characters; a missing string is
an empty one. -/
def truncated (src : Option CString) (n : Nat) : List Byte :=
  ((src.map CString.chars).getD []).take n

theorem truncated_nonzero
    (src : Option CString) (n : Nat) : ∀ c ∈ truncated src n, c ≠ 0 := by
  intro c hc
  cases src with
  | none =>
      simp [truncated] at hc
  | some s =>
      exact s.nonzero c (List.mem_of_mem_take hc)

/-- A field, with the terminator behind it, holds the truncated string, also
where the string fills the field. -/
theorem cstr_fieldBytes (src : Option CString) (n : Nat) :
    cstr (fieldBytes src n ++ [0]) = truncated src n := by
  have hown := cstr_of_nonzero (truncated_nonzero src n)
  unfold fieldBytes strncpyBytes
  change cstr (truncated src n ++ List.replicate _ 0 ++ [0]) = _
  rw [List.append_assoc, ← List.replicate_succ', List.replicate_succ,
    cstr_append_zero, hown]

/-- A store in the part of a longer buffer that a message occupies. -/
theorem overwrite_message
    {buf : List Byte} (hbuf : buf.length = beaconLen) (rest : List Byte)
    (off : Nat) (ws : List Byte) (hfits : off + ws.length ≤ beaconLen) :
    overwrite (buf ++ rest) off ws = overwrite buf off ws ++ rest ∧
      (overwrite buf off ws).length = beaconLen := by
  refine ⟨overwrite_append rest (by omega), ?_⟩
  rw [length_overwrite (by omega), hbuf]

theorem copyString_message
    {buf : List Byte} (hbuf : buf.length = beaconLen) (rest : List Byte)
    (off n : Nat) (src : Option CString) (hfits : off + n ≤ beaconLen) :
    copyString (buf ++ rest) off src n = copyString buf off src n ++ rest ∧
      (copyString buf off src n).length = beaconLen := by
  cases src with
  | none => exact ⟨rfl, hbuf⟩
  | some s =>
      exact overwrite_message hbuf rest off _
        (by rw [length_strncpyBytes]; exact hfits)

/-- The stores of a message stay in the first 256 bytes of the buffer. -/
theorem fillBeacon_append
    {buf : List Byte} (hbuf : buf.length = beaconLen) (rest : List Byte)
    (version : List Byte) (uptime : BitVec 64) (f : Fields) :
    fillBeacon (buf ++ rest) version uptime f =
      messageBytes version uptime f ++ rest := by
  obtain ⟨e₀, l₀⟩ := overwrite_message hbuf rest 0
    (List.replicate beaconLen 0) (by simp)
  obtain ⟨e₁, l₁⟩ := overwrite_message l₀ rest 0
    (strncpyBytes version 8) (by simp; decide)
  obtain ⟨e₂, l₂⟩ := overwrite_message l₁ rest 8
    (leBytes uptime) (by simp; decide)
  obtain ⟨e₃, l₃⟩ := overwrite_message l₂ rest 16
    (leBytes f.devID) (by simp; decide)
  obtain ⟨e₄, l₄⟩ := overwrite_message l₃ rest 24
    (leBytes f.logicalID) (by simp; decide)
  obtain ⟨e₅, l₅⟩ := copyString_message l₄ rest 32 hwRevLen f.hwRev
    (by decide)
  obtain ⟨e₆, l₆⟩ := copyString_message l₅ rest (32 + hwRevLen) fwRevLen
    f.fwRev (by decide)
  obtain ⟨e₇, l₇⟩ := copyString_message l₆ rest
    (32 + hwRevLen + fwRevLen) vendorLen f.vendor (by decide)
  obtain ⟨e₈, _⟩ := copyString_message l₇ rest
    (32 + hwRevLen + fwRevLen + vendorLen) productLen f.product
    (by decide)
  rw [← fillBeacon_eq hbuf]
  unfold fillBeacon strncpy
  dsimp only
  rw [e₀, e₁, e₂, e₃, e₄, e₅, e₆, e₇, e₈]

/-- What the decoder is to give back of a message. -/
structure GivesBack (info : BeaconInfo) (isRequest : Bool) (uptime : BitVec 64)
    (f : Fields) : Prop where
  isRequest : info.isRequest = isRequest
  uptime : info.uptime = uptime
  deviceID : info.deviceID = f.devID
  logicalID : info.logicalID = f.logicalID
  hardwareRevision : cstr info.hardwareRevision = truncated f.hwRev hwRevLen
  firmwareRevision : cstr info.firmwareRevision = truncated f.fwRev fwRevLen
  vendorName : cstr info.vendorName = truncated f.vendor vendorLen
  productName : cstr info.productName = truncated f.product productLen

theorem Fields.info_givesBack
    (f : Fields) (isRequest : Bool) (uptime : BitVec 64) :
    GivesBack (f.info isRequest uptime) isRequest uptime f where
  isRequest := rfl
  uptime := rfl
  deviceID := rfl
  logicalID := rfl
  hardwareRevision := cstr_fieldBytes f.hwRev hwRevLen
  firmwareRevision := cstr_fieldBytes f.fwRev fwRevLen
  vendorName := cstr_fieldBytes f.vendor vendorLen
  productName := cstr_fieldBytes f.product productLen

/-- Two buffers have the same bytes in a range. -/
def SameBytes (a b : List Byte) (off len : Nat) : Prop :=
  ∀ k < len, a.getD (off + k) 0 = b.getD (off + k) 0

theorem readLe_of_sameBytes
    {a b : List Byte} {off : Nat} (h : SameBytes a b off 8) :
    readLe a off = readLe b off := by
  unfold readLe
  refine List.foldl_ext _ _ _ (fun x k hk => ?_)
  rw [h k (List.mem_range.mp hk)]

theorem copyField_of_sameBytes
    {a b : List Byte} {off len : Nat} (h : SameBytes a b off len) :
    copyField a off len = copyField b off len := by
  unfold copyField
  rw [List.map_congr_left fun k hk => h k (List.mem_range.mp hk)]

/-- A decoded field depends on its own bytes in the buffer only: it is the same
for another buffer that agrees with the first one in these. -/
structure ReadsOwnBytes (a b : List Byte) (infoA infoB : BeaconInfo) :
    Prop where
  uptime : SameBytes a b 8 8 → infoA.uptime = infoB.uptime
  deviceID : SameBytes a b 16 8 → infoA.deviceID = infoB.deviceID
  logicalID : SameBytes a b 24 8 → infoA.logicalID = infoB.logicalID
  hardwareRevision : SameBytes a b 32 32 →
    infoA.hardwareRevision = infoB.hardwareRevision
  firmwareRevision : SameBytes a b 64 32 →
    infoA.firmwareRevision = infoB.firmwareRevision
  vendorName : SameBytes a b 96 64 → infoA.vendorName = infoB.vendorName
  productName : SameBytes a b 160 96 → infoA.productName = infoB.productName

/-- Where the decoder finds the fields, whatever the buffer holds. -/
theorem convert_fields
    {buf : List Byte} {len : Nat} {info : BeaconInfo}
    (h : convertMemToBeacon buf len = some info) :
    info =
      { isRequest := info.isRequest
        uptime := readLe buf 8
        deviceID := readLe buf 16
        logicalID := readLe buf 24
        hardwareRevision := copyField buf 32 hwRevLen
        firmwareRevision := copyField buf (32 + hwRevLen) fwRevLen
        vendorName := copyField buf (32 + hwRevLen + fwRevLen) vendorLen
        productName :=
          copyField buf (32 + hwRevLen + fwRevLen + vendorLen) productLen } := by
  unfold convertMemToBeacon at h
  split_ifs at h
  · obtain rfl := Option.some.inj h
    rfl
  · obtain rfl := Option.some.inj h
    rfl

theorem convert_readsOwnBytes
    {a b : List Byte} {len len' : Nat} {infoA infoB : BeaconInfo}
    (ha : convertMemToBeacon a len = some infoA)
    (hb : convertMemToBeacon b len' = some infoB) :
    ReadsOwnBytes a b infoA infoB := by
  rw [convert_fields ha, convert_fields hb]
  exact
    { uptime := readLe_of_sameBytes
      deviceID := readLe_of_sameBytes
      logicalID := readLe_of_sameBytes
      hardwareRevision := copyField_of_sameBytes
      firmwareRevision := copyField_of_sameBytes
      vendorName := copyField_of_sameBytes
      productName := copyField_of_sameBytes }

/-- **Decoding undoes encoding.** A message that is built in a buffer is decoded
to its kind, its numbers and its strings, each truncated to its field, and no
field is read from the bytes of another one. -/
theorem decode_encode
    (buffer : List Byte) (buffLen : Nat) (isRequest : Bool)
    (uptime : BitVec 64) (f : Fields)
    (hlen : beaconLen ≤ buffLen) (hbuf : buffLen ≤ buffer.length) :
    ∃ mem info,
      createBeaconInMem buffer buffLen (kindStr isRequest) uptime f =
          some mem ∧
        convertMemToBeacon mem buffLen = some info ∧
        GivesBack info isRequest uptime f ∧
        ∀ other info', convertMemToBeacon other buffLen = some info' →
          ReadsOwnBytes mem other info info' := by
  have hmem : createBeaconInMem buffer buffLen (kindStr isRequest) uptime f =
      some (messageBytes (kindStr isRequest) uptime f ++
        buffer.drop beaconLen) := by
    unfold createBeaconInMem
    rw [if_neg (by omega)]
    have hfirst : (buffer.take beaconLen).length = beaconLen := by
      rw [List.length_take]
      omega
    have hfill := fillBeacon_append hfirst (buffer.drop beaconLen) (kindStr isRequest) uptime f
    rw [List.take_append_drop] at hfill
    rw [hfill]
  have hfront : (messageBytes (kindStr isRequest) uptime f ++
      buffer.drop beaconLen).take 8 = kindStr isRequest := by
    rw [List.take_append_of_le_length (by simp; decide),
      take_messageBytes (length_kindStr isRequest)]
  have hconvert := convert_of_layout hlen hfront
    ((layout_messageBytes _ uptime f).right (buffer.drop beaconLen))
  exact ⟨_, _, hmem, hconvert, f.info_givesBack isRequest uptime,
    fun other info' hother => convert_readsOwnBytes hconvert hother⟩

/-- A hardware revision that fills its field, and characters behind it. -/
def longRevision : CString where
  chars := List.replicate 40 0x41
  nonzero := by
    intro c hc
    rw [List.eq_of_mem_replicate hc]
    decide

/-- A request with a string that does not fit and a string that is missing, in
a buffer that is longer than the message. -/
theorem decode_encode_longRevision :
    ∃ mem info,
      createBeaconInMem (List.replicate 300 0xFF) 300 requestStr 7
          ⟨dontCare, 3, some longRevision, none, none, none⟩ = some mem ∧
        convertMemToBeacon mem 300 = some info ∧
        cstr info.hardwareRevision = List.replicate 32 0x41 ∧
        cstr info.firmwareRevision = [] := by
  obtain ⟨mem, info, hmem, hinfo, hback, _⟩ :=
    decode_encode (List.replicate 300 0xFF) 300 true 7
      ⟨dontCare, 3, some longRevision, none, none, none⟩ (by decide)
      List.length_replicate.ge
  exact ⟨mem, info, hmem, hinfo, hback.hardwareRevision.trans rfl,
    hback.firmwareRevision.trans rfl⟩

end Discovery
end MollerFirmware
