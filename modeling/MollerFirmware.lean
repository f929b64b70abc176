import MollerFirmware.Clocked.Signals
import MollerFirmware.Clocked.RingMemory
import MollerFirmware.Clocked.Windows
import MollerFirmware.Memory.Buffers
import MollerFirmware.Memory.LinkedLists
import MollerFirmware.Hdl.SimplePacketizer
import MollerFirmware.Hdl.AxiStreamTsData
import MollerFirmware.Hdl.AxiStreamTsDataLedger
import MollerFirmware.Hdl.AxiStreamTsDataInvariant
import MollerFirmware.Hdl.AxiStreamTsDataStep
import MollerFirmware.Hdl.AxiStreamTsDataReady
import MollerFirmware.Sw.TaskDma
import MollerFirmware.Sw.Discovery
import MollerFirmware.Sw.DiscoveryUdp
import MollerFirmware.Sw.DiscoveryServer
import MollerFirmware.Hdl.AxiStreamTsDataFraming
import MollerFirmware.Hdl.CaptureControl
import MollerFirmware.Hdl.SubsystemCapture
import MollerFirmware.Hdl.CaptureSystem
import MollerFirmware.Hdl.CaptureWindow
import MollerFirmware.Hdl.SubsystemStream
import MollerFirmware.Hdl.StreamFrames
import MollerFirmware.Hdl.StreamDecoder
import MollerFirmware.Sw.DiscoveryCodec
import MollerFirmware.Sw.DiscoveryRuns
import MollerFirmware.Hdl.CaptureStatistics
import MollerFirmware.Hdl.CapturePackets
import MollerFirmware.Clocked.Delays
import MollerFirmware.Hdl.Ltc2387Conversion
import MollerFirmware.Hdl.Ltc2387Capture
import MollerFirmware.Hdl.Uwire
import MollerFirmware.Hdl.UwireProgramming
import MollerFirmware.Clocked.ReloadCounter
import MollerFirmware.Hdl.StreamDecimation
import MollerFirmware.Hdl.CaptureCycles
import MollerFirmware.Hdl.CaptureTimestamp
import MollerFirmware.Hdl.CaptureLabels
import MollerFirmware.Hdl.CaptureExtrema
import MollerFirmware.Hdl.AxiStreamTsDataBoundary
import MollerFirmware.Hdl.StreamPairs
import MollerFirmware.Hdl.StreamTimestamps
import MollerFirmware.Clocked.GrayCode
import MollerFirmware.Hdl.SynchronizerCounter
import MollerFirmware.Hdl.FreqCounter
import MollerFirmware.Hdl.Sequencer
import MollerFirmware.Hdl.DataDelayer
import MollerFirmware.Hdl.DelayResetSeq
import MollerFirmware.Memory.LongestRuns
import MollerFirmware.Sw.TaskCmd
import MollerFirmware.Hdl.UwireTiming
import MollerFirmware.Hdl.PacketCombiner
import MollerFirmware.Clocked.Packets
import MollerFirmware.Hdl.LenPrepender
import MollerFirmware.Hdl.InfoPrepender
import MollerFirmware.Hdl.InfoPrependerInvariant
import MollerFirmware.Hdl.InfoPrependerFrames
import MollerFirmware.Clocked.Handshakes
import MollerFirmware.Memory.Strobes
import MollerFirmware.Hdl.MollerRegs
import MollerFirmware.Hdl.MollerRegsMap
import MollerFirmware.Hdl.MollerRegsWrite
import MollerFirmware.Hdl.MollerRegsRead
import MollerFirmware.Hdl.MollerRegsBus
import MollerFirmware.Sw.TaskCmdServer
import MollerFirmware.Memory.Loops
import MollerFirmware.Hdl.SubsystemAdc
import MollerFirmware.Sw.TaskCmdCalibration
import MollerFirmware.Sw.DmaProxy
import MollerFirmware.Sw.DataMessages
import MollerFirmware.Clocked.Crossings
import MollerFirmware.Hdl.Ltc2387Samples
import MollerFirmware.Clocked.Filters
import MollerFirmware.Hdl.UwireDuration
import MollerFirmware.Hdl.SubsystemClock
import MollerFirmware.Clocked.SerialFrames
import MollerFirmware.Hdl.SigDelay
import MollerFirmware.Hdl.SyncSGen
import MollerFirmware.Hdl.SyncSGenWrites
import MollerFirmware.Hdl.SyncDecode
import MollerFirmware.Hdl.TCSsyncNode
import MollerFirmware.Hdl.TrigPrescale
import MollerFirmware.Clocked.UpDownCounters
import MollerFirmware.Hdl.DataGeneration
import MollerFirmware.Hdl.TrigCheck
import MollerFirmware.Sw.DiscoveryShutdown
import MollerFirmware.Clocked.Lags
import MollerFirmware.Hdl.TriggerClock
import MollerFirmware.Hdl.TriggerRule
import MollerFirmware.Hdl.TriggerRules
import MollerFirmware.Hdl.TSTrigGen
import MollerFirmware.Clocked.OneShots
import MollerFirmware.Hdl.TrigPulCond
import MollerFirmware.Hdl.RstPulsGen
import MollerFirmware.Hdl.SyncHistRead
