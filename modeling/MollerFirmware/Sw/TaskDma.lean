import Mathlib.Tactic

/-!
# task_dma: what the DMA thread does with one transfer

The main loop of `dma_thread` receives one packet per DMA transfer, looks at
its first 64-bit word, and publishes as many bytes as the length field of that
word says. The model is the body of the `switch` on the transfer status; the
socket, the timing and the console output are outside it.
-/

namespace MollerFirmware
namespace TaskDma

/-- `enum proxy_status` of the DMA proxy driver; `other` is any value that the
driver does not define. -/
inductive ProxyStatus where
  | noError
  | busy
  | timeout
  | error
  | other
deriving DecidableEq

/-- `BUFFER_SIZE` in bytes. -/
def bufferSize : Nat :=
  64 * 65536

/-- Counters of the thread that a transfer can change. -/
structure Counters where
  numPkts : BitVec 32
  numBytes : BitVec 32
  numErrors : BitVec 32
  numValid : BitVec 32
  numTimeouts : BitVec 32
  numSamples : BitVec 32
  numAdcPkts : BitVec 32
  numAvgPkts : BitVec 32
  numUnknownErrors : BitVec 32
deriving DecidableEq

/-- A published message: its topic and its size in bytes. -/
structure Message where
  topic : String
  bytes : Nat
deriving DecidableEq

/-- `header_id = header >> 56` -/
def headerId (header : BitVec 64) : BitVec 8 :=
  (header >>> 56).setWidth 8

/-- `header_len = header & 0x000000000000FFFF` -/
def headerLen (header : BitVec 64) : BitVec 32 :=
  (header &&& 0x000000000000FFFF#64).setWidth 32

/-- `8+(header_len*8)` -/
def messageBytes (header : BitVec 64) : Nat :=
  8 + (headerLen header).toNat * 8

/-- The case `PROXY_NO_ERROR` for a transfer that starts with `header`. -/
def receive (c : Counters) (header : BitVec 64) : Counters × Option Message :=
  let c := { c with numPkts := c.numPkts + 1 }
  if header = 0 then (c, none)
  else if (headerLen header).toNat < bufferSize / 8 then
    let c :=
      { c with
        numBytes := c.numBytes + (8 + headerLen header * 8)
        numValid := c.numValid + 1 }
    if headerId header = 0xAA then
      ({ c with numAvgPkts := c.numAvgPkts + 1 },
        some ⟨"AVG", messageBytes header⟩)
    else if headerId header = 0xDD then
      ({ c with
          numSamples := c.numSamples + (headerLen header - 1)
          numAdcPkts := c.numAdcPkts + 1 },
        some ⟨"ADC", messageBytes header⟩)
    else (c, none)
  else ({ c with numErrors := c.numErrors + 1 }, none)

/-- The `switch` on the status of a finished transfer. -/
def onTransfer (c : Counters) (status : ProxyStatus) (header : BitVec 64) :
    Counters × Option Message :=
  match status with
  | .noError => receive c header
  | .timeout => ({ c with numTimeouts := c.numTimeouts + 1 }, none)
  | .busy => ({ c with numErrors := c.numErrors + 1 }, none)
  | .error => ({ c with numErrors := c.numErrors + 1 }, none)
  | .other => ({ c with numUnknownErrors := c.numUnknownErrors + 1 }, none)

/-- The length field is the low half word of the header. -/
theorem headerLen_toNat (header : BitVec 64) :
    (headerLen header).toNat = header.toNat % 2 ^ 16 := by
  unfold headerLen
  rw [BitVec.toNat_setWidth, BitVec.toNat_and]
  have hmask : (0x000000000000FFFF#64).toNat = 2 ^ 16 - 1 := by decide
  rw [hmask, Nat.and_two_pow_sub_one_eq_mod]
  omega

/-- The length field never exceeds the DMA buffer, so the error branch of the
length check is not reached. -/
theorem headerLen_lt_bufferSize (header : BitVec 64) :
    (headerLen header).toNat < bufferSize / 8 := by
  rw [headerLen_toNat]
  have : bufferSize / 8 = 524288 := by decide
  omega

/-- A message is always as long as the length field of the header says. -/
theorem receive_bytes
    {c : Counters} {header : BitVec 64} {m : Message}
    (h : (receive c header).2 = some m) :
    m.bytes = 8 * (header.toNat % 2 ^ 16 + 1) := by
  have hlen := headerLen_lt_bufferSize header
  have hbytes : messageBytes header = 8 * (header.toNat % 2 ^ 16 + 1) := by
    unfold messageBytes
    rw [headerLen_toNat]
    omega
  unfold receive at h
  by_cases h0 : header = 0
  · simp [h0] at h
  · simp only [h0, if_false, hlen, if_true] at h
    split_ifs at h <;> simp at h
    · rw [← h]
      exact hbytes
    · rw [← h]
      exact hbytes

end TaskDma
end MollerFirmware
