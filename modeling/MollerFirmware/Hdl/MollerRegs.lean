import MollerFirmware.Clocked.Handshakes
import MollerFirmware.Memory.Strobes

/-!
# moller_regs

The register bank between the processor and the firmware. The processor reads
and writes it over an AXI4-Lite bus; two state machines that share nothing but
the registers serve the read and the write channels.

An address selects a register when its word address is that of the register; a
write replaces the bytes whose strobes are set. `BASEADDR` and
`AXI_ADDR_WIDTH` are parameters. The instance of `moller_regmap_v1_0` has 0
and 9.
-/

namespace MollerFirmware
namespace MollerRegs

open Clocked Memory

/-- Parameters of an instance. -/
structure Params where
  baseaddr : BitVec 32
  axiAddrWidth : Nat

/-! ## The register map -/

/-- The registers of `moller_regs_pkg`, with one name for each element of an
array. -/
inductive Register where
  | adcTestData (i : Fin 16)
  | revision
  | streamCtrl
  | adcCtrl
  | freqTd
  | freqOsc
  | freqSom0
  | freqSom1
  | status
  | adcDelayIn (i : Fin 16)
  | adcDelayOut (i : Fin 16)
  | adcFifoCount
  | runFifoCount
  | tiFifoCount
  | macAddrHi
  | macAddrLo
  | udpDestIp
  | udpDstPort
  | udpSrcPort
deriving DecidableEq

namespace Register

/-- All registers, in the order in which the source compares addresses. -/
def all : List Register :=
  (List.finRange 16).map adcTestData ++
    [revision, streamCtrl, adcCtrl, freqTd, freqOsc, freqSom0, freqSom1,
      status] ++
    (List.finRange 16).map adcDelayIn ++
    (List.finRange 16).map adcDelayOut ++
    [adcFifoCount, runFifoCount, tiFifoCount, macAddrHi, macAddrLo, udpDestIp,
      udpDstPort, udpSrcPort]

/-- The `_OFFSET` constants. -/
def offset : Register → BitVec 32
  | adcTestData _ => 0x00000000
  | revision => 0x00000040
  | streamCtrl => 0x00000044
  | adcCtrl => 0x00000048
  | freqTd => 0x0000004C
  | freqOsc => 0x00000050
  | freqSom0 => 0x00000054
  | freqSom1 => 0x00000058
  | status => 0x0000005C
  | adcDelayIn _ => 0x00000060
  | adcDelayOut _ => 0x000000A0
  | adcFifoCount => 0x000000E0
  | runFifoCount => 0x000000E4
  | tiFifoCount => 0x000000E8
  | macAddrHi => 0x00000100
  | macAddrLo => 0x00000104
  | udpDestIp => 0x00000108
  | udpDstPort => 0x0000010C
  | udpSrcPort => 0x00000110

/-- Place in an array. -/
def index : Register → Nat
  | adcTestData i => i
  | adcDelayIn i => i
  | adcDelayOut i => i
  | _ => 0

/-- The registers that the write channel knows. -/
def writable : Register → Bool
  | streamCtrl => true
  | adcCtrl => true
  | adcDelayIn _ => true
  | macAddrHi => true
  | macAddrLo => true
  | udpDestIp => true
  | udpDstPort => true
  | udpSrcPort => true
  | _ => false

/-- The bits that a register has. -/
def mask : Register → BitVec 32
  | adcCtrl => 0xF0FFFFFF
  | status => 0x00000007
  | adcDelayIn _ => 0x000001FF
  | adcDelayOut _ => 0x000001FF
  | _ => 0xFFFFFFFF

end Register

/-- Values from the firmware that can be read. -/
structure Status where
  adcTestDataBadPatternCounter : Fin 16 → BitVec 16
  adcTestDataBadDcoCounter : Fin 16 → BitVec 16
  revisionValue : BitVec 32
  freqTdValue : BitVec 32
  freqOscValue : BitVec 32
  freqSom0Value : BitVec 32
  freqSom1Value : BitVec 32
  statusClkLockdetect : BitVec 1
  statusClkHoldover : BitVec 1
  statusAdcTrainDone : BitVec 1
  adcDelayOutValue : Fin 16 → BitVec 9
  adcFifoCountValue : BitVec 32
  runFifoCountValue : BitVec 32
  tiFifoCountValue : BitVec 32

/-- The stored fields, `s_reg_…_r`. -/
structure Regs where
  streamCtrlNumSamples : BitVec 16
  streamCtrlCh0 : BitVec 4
  streamCtrlCh1 : BitVec 4
  streamCtrlRateDiv : BitVec 7
  streamCtrlEnable : BitVec 1
  adcCtrlChDisable : BitVec 16
  adcCtrlSampleRate : BitVec 8
  adcCtrlClearCounters : BitVec 1
  adcCtrlPowerDown : BitVec 1
  adcCtrlTestpattern : BitVec 1
  adcCtrlEna : BitVec 1
  adcDelayInValue : Fin 16 → BitVec 9
  macAddrHiValue : BitVec 32
  macAddrLoValue : BitVec 32
  udpDestIpValue : BitVec 32
  udpDstPortValue : BitVec 16
  udpDstPortUnused : BitVec 16
  udpSrcPortValue : BitVec 16
  udpSrcPortUnused : BitVec 16

/-- The `_RESET` constants. -/
def Regs.reset : Regs :=
  { streamCtrlNumSamples := 0
    streamCtrlCh0 := 0
    streamCtrlCh1 := 0
    streamCtrlRateDiv := 0
    streamCtrlEnable := 0
    adcCtrlChDisable := 0
    adcCtrlSampleRate := 0
    adcCtrlClearCounters := 0
    adcCtrlPowerDown := 0
    adcCtrlTestpattern := 0
    adcCtrlEna := 0
    adcDelayInValue := fun _ => 0
    macAddrHiValue := 0
    macAddrLoValue := 0
    udpDestIpValue := 0
    udpDstPortValue := 0
    udpDstPortUnused := 0
    udpSrcPortValue := 0
    udpSrcPortUnused := 0 }

/-- The fields of a register, with its other bits zero. -/
def content (regs : Regs) (s : Status) : Register → BitVec 32
  | .adcTestData i =>
      s.adcTestDataBadDcoCounter i ++ s.adcTestDataBadPatternCounter i
  | .revision => s.revisionValue
  | .streamCtrl =>
      regs.streamCtrlEnable ++ regs.streamCtrlRateDiv ++ regs.streamCtrlCh1 ++
        regs.streamCtrlCh0 ++ regs.streamCtrlNumSamples
  | .adcCtrl =>
      regs.adcCtrlEna ++ regs.adcCtrlTestpattern ++ regs.adcCtrlPowerDown ++
        regs.adcCtrlClearCounters ++ 0#4 ++ regs.adcCtrlSampleRate ++
        regs.adcCtrlChDisable
  | .freqTd => s.freqTdValue
  | .freqOsc => s.freqOscValue
  | .freqSom0 => s.freqSom0Value
  | .freqSom1 => s.freqSom1Value
  | .status =>
      0#29 ++ s.statusAdcTrainDone ++ s.statusClkHoldover ++
        s.statusClkLockdetect
  | .adcDelayIn i => 0#23 ++ regs.adcDelayInValue i
  | .adcDelayOut i => 0#23 ++ s.adcDelayOutValue i
  | .adcFifoCount => s.adcFifoCountValue
  | .runFifoCount => s.runFifoCountValue
  | .tiFifoCount => s.tiFifoCountValue
  | .macAddrHi => regs.macAddrHiValue
  | .macAddrLo => regs.macAddrLoValue
  | .udpDestIp => regs.udpDestIpValue
  | .udpDstPort => regs.udpDstPortUnused ++ regs.udpDstPortValue
  | .udpSrcPort => regs.udpSrcPortUnused ++ regs.udpSrcPortValue

/-- The read channel's assignments to the bits of `v_rdata_r` that a register
has. -/
def drive (regs : Regs) (s : Status) (r : Register) (d : BitVec 32) :
    BitVec 32 :=
  d &&& ~~~r.mask ||| content regs s r

/-- The write channel's assignments to the fields of one register, bit by bit:
a bit is replaced if the strobe of its byte is set. -/
def Regs.write (regs : Regs) (wdata : BitVec 32) (wstrb : BitVec 4) :
    Register → Regs
  | .streamCtrl =>
      { regs with
        streamCtrlNumSamples :=
          strobed wdata wstrb 0 regs.streamCtrlNumSamples
        streamCtrlCh0 := strobed wdata wstrb 16 regs.streamCtrlCh0
        streamCtrlCh1 := strobed wdata wstrb 20 regs.streamCtrlCh1
        streamCtrlRateDiv := strobed wdata wstrb 24 regs.streamCtrlRateDiv
        streamCtrlEnable := strobed wdata wstrb 31 regs.streamCtrlEnable }
  | .adcCtrl =>
      { regs with
        adcCtrlChDisable := strobed wdata wstrb 0 regs.adcCtrlChDisable
        adcCtrlSampleRate := strobed wdata wstrb 16 regs.adcCtrlSampleRate
        adcCtrlClearCounters :=
          strobed wdata wstrb 28 regs.adcCtrlClearCounters
        adcCtrlPowerDown := strobed wdata wstrb 29 regs.adcCtrlPowerDown
        adcCtrlTestpattern :=
          strobed wdata wstrb 30 regs.adcCtrlTestpattern
        adcCtrlEna := strobed wdata wstrb 31 regs.adcCtrlEna }
  | .adcDelayIn i =>
      { regs with
        adcDelayInValue := Function.update regs.adcDelayInValue i
          (strobed wdata wstrb 0 (regs.adcDelayInValue i)) }
  | .macAddrHi =>
      { regs with
        macAddrHiValue := strobed wdata wstrb 0 regs.macAddrHiValue }
  | .macAddrLo =>
      { regs with
        macAddrLoValue := strobed wdata wstrb 0 regs.macAddrLoValue }
  | .udpDestIp =>
      { regs with
        udpDestIpValue := strobed wdata wstrb 0 regs.udpDestIpValue }
  | .udpDstPort =>
      { regs with
        udpDstPortValue := strobed wdata wstrb 0 regs.udpDstPortValue
        udpDstPortUnused := strobed wdata wstrb 16 regs.udpDstPortUnused }
  | .udpSrcPort =>
      { regs with
        udpSrcPortValue := strobed wdata wstrb 0 regs.udpSrcPortValue
        udpSrcPortUnused := strobed wdata wstrb 16 regs.udpSrcPortUnused }
  | _ => regs

/-! ## Addresses -/

/-- Addresses on the bus. -/
abbrev Addr (P : Params) :=
  BitVec P.axiAddrWidth

/-- `AXI_ADDR_WIDTH-1:2` -/
def wordPart (P : Params) {n : Nat} (x : BitVec n) :
    BitVec (P.axiAddrWidth - 2) :=
  x.extractLsb' 2 (P.axiAddrWidth - 2)

/-- An address is that of a register. -/
def hits (P : Params) (addr : Addr P) (r : Register) : Bool :=
  wordPart P addr ==
    wordPart P P.baseaddr + wordPart P r.offset +
      BitVec.ofNat (P.axiAddrWidth - 2) r.index

/-- The registers that a write to `addr` finds. -/
def writeHits (P : Params) (addr : Addr P) (r : Register) : Bool :=
  r.writable && hits P addr r

/-- `AXI_OKAY` -/
def axiOkay : BitVec 2 :=
  0b00

/-- `AXI_SLVERR` -/
def axiSlverr : BitVec 2 :=
  0b10

/-- `s_axi_bresp_r` after `WRITE_UPDATE_REGISTER`. -/
def writeResp (P : Params) (addr : Addr P) : BitVec 2 :=
  if Register.all.any (writeHits P addr) then axiOkay else axiSlverr

/-- The registers after `WRITE_UPDATE_REGISTER`. -/
def writeRegs (P : Params) (addr : Addr P) (wdata : BitVec 32)
    (wstrb : BitVec 4) (regs : Regs) : Regs :=
  Register.all.foldl
    (fun rs r => if writeHits P addr r then rs.write wdata wstrb r else rs) regs

/-- `v_rdata_r` after `READ_REGISTER`: on a bus so narrow that registers share an
address, their bits are merged. -/
def readData (P : Params) (addr : Addr P) (regs : Regs) (s : Status) :
    BitVec 32 :=
  Register.all.foldl
    (fun d r => if hits P addr r then drive regs s r d else d) 0

/-- `v_rresp_r` after `READ_REGISTER`. -/
def readResp (P : Params) (addr : Addr P) : BitVec 2 :=
  if Register.all.any (hits P addr) then axiOkay else axiSlverr

/-! ## The state machines -/

/-- `write_state_t` -/
inductive WriteState where
  | idle
  | addrFirst
  | dataFirst
  | updateRegister
  | done
deriving DecidableEq

/-- `read_state_t` -/
inductive ReadState where
  | idle
  | register
  | waitMemory
  | response
  | done
deriving DecidableEq

/-- Inputs in one clock. -/
structure Input (P : Params) where
  awaddr : Addr P
  awvalid : Bool
  wdata : BitVec 32
  wstrb : BitVec 4
  wvalid : Bool
  bready : Bool
  araddr : Addr P
  arvalid : Bool
  rready : Bool
  status : Status

/-- Registers of `write_fsm`. A strobe is high in the clock after its register
was written. -/
structure WriteFsm (P : Params) where
  state : WriteState
  awready : Bool
  wready : Bool
  awaddrReg : Addr P
  wdataReg : BitVec 32
  wstrbReg : BitVec 4
  bvalid : Bool
  bresp : BitVec 2
  regs : Regs
  strobe : Register → Bool

/-- Registers of `read_fsm`; `vRdata` and `vRresp` are `v_rdata_r` and
`v_rresp_r`. -/
structure ReadFsm (P : Params) where
  state : ReadState
  vRdata : BitVec 32
  vRresp : BitVec 2
  vMemWaitCount : BitVec 3
  arready : Bool
  rvalid : Bool
  rresp : BitVec 2
  araddrReg : Addr P
  rdata : BitVec 32
  strobe : Register → Bool

/-- Registers of the module. -/
structure State (P : Params) where
  write : WriteFsm P
  read : ReadFsm P

variable {P : Params}

/-- The registers with `axi_aresetn` low. -/
def reset (P : Params) : State P :=
  { write :=
      { state := .idle
        awready := false
        wready := false
        awaddrReg := 0
        wdataReg := 0
        wstrbReg := 0
        bvalid := false
        bresp := 0
        regs := Regs.reset
        strobe := fun _ => false }
    read :=
      { state := .idle
        vRdata := 0
        vRresp := 0
        vMemWaitCount := 0
        arready := false
        rvalid := false
        rresp := 0
        araddrReg := 0
        rdata := 0
        strobe := fun _ => false } }

/-- The default values of `write_fsm`. -/
def WriteFsm.defaults (s : WriteFsm P) : WriteFsm P :=
  { s with
    awready := false
    wready := false
    strobe := fun _ => false }

/-- Save the write address and acknowledge it. -/
def WriteFsm.takeAddr (s : WriteFsm P) (i : Input P) : WriteFsm P :=
  { s with
    awaddrReg := i.awaddr
    awready := true }

/-- Save the write data and acknowledge it. -/
def WriteFsm.takeData (s : WriteFsm P) (i : Input P) : WriteFsm P :=
  { s with
    wdataReg := i.wdata
    wstrbReg := i.wstrb
    wready := true }

/-- `WRITE_UPDATE_REGISTER` -/
def WriteFsm.update (s : WriteFsm P) : WriteFsm P :=
  { s with
    bresp := writeResp P s.awaddrReg
    bvalid := true
    regs := writeRegs P s.awaddrReg s.wdataReg s.wstrbReg s.regs
    strobe := writeHits P s.awaddrReg
    state := .done }

/-- A clock edge of `write_fsm`. -/
def WriteFsm.step (s : WriteFsm P) (i : Input P) : WriteFsm P :=
  match s.state with
  | .idle =>
      if i.awvalid && i.wvalid then
        { (s.defaults.takeAddr i).takeData i with state := .updateRegister }
      else if i.awvalid then
        { s.defaults.takeAddr i with state := .addrFirst }
      else if i.wvalid then
        { s.defaults.takeData i with state := .dataFirst }
      else s.defaults
  | .addrFirst =>
      if i.wvalid then
        { s.defaults.takeData i with state := .updateRegister }
      else s.defaults
  | .dataFirst =>
      if i.awvalid then
        { s.defaults.takeAddr i with state := .updateRegister }
      else s.defaults
  | .updateRegister => s.defaults.update
  | .done =>
      if i.bready then
        { s.defaults with
          bvalid := false
          state := .idle }
      else s.defaults

/-- The default values of `read_fsm`. -/
def ReadFsm.defaults (s : ReadFsm P) : ReadFsm P :=
  { s with
    arready := false
    strobe := fun _ => false }

/-- `READ_REGISTER`. The read channel strobes the registers that the write
channel does not know. -/
def ReadFsm.fetch (s : ReadFsm P) (regs : Regs) (st : Status) : ReadFsm P :=
  { s with
    vRdata := readData P s.araddrReg regs st
    vRresp := readResp P s.araddrReg
    strobe := fun r => !r.writable && hits P s.araddrReg r
    state := .response }

/-- A clock edge of `read_fsm`, which sees the registers `regs`. -/
def ReadFsm.step (s : ReadFsm P) (regs : Regs) (i : Input P) : ReadFsm P :=
  match s.state with
  | .idle =>
      if i.arvalid then
        { s.defaults with
          araddrReg := i.araddr
          arready := true
          state := .register }
      else s.defaults
  | .register => s.defaults.fetch regs i.status
  | .waitMemory =>
      if s.vMemWaitCount = 0 then
        { s.defaults with state := .response }
      else
        { s.defaults with vMemWaitCount := s.vMemWaitCount - 1 }
  | .response =>
      { s.defaults with
        rvalid := true
        rresp := s.vRresp
        rdata := s.vRdata
        state := .done }
  | .done =>
      if i.rready then
        { s.defaults with
          rvalid := false
          rdata := 0
          state := .idle }
      else s.defaults

/-- A clock edge with `axi_aresetn` high. -/
def step (s : State P) (i : Input P) : State P :=
  { write := s.write.step i
    read := s.read.step s.write.regs i }

end MollerRegs
end MollerFirmware
