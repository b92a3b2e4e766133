import FpgaTest.ClockedMachine
import FpgaTest.PulseCounter
import FpgaTest.TriggerGate
import FpgaTest.PulseTally
import FpgaTest.BlockFraming
import FpgaTest.EventMachine
import FpgaTest.CommandServer
import FpgaTest.ClientConnections
import FpgaTest.StreamDelivery
import FpgaTest.OverflowRecovery
import FpgaTest.SessionIsolation
import FpgaTest.ClockDivider
import FpgaTest.WrappingCounter
import FpgaTest.DelayGen
import FpgaTest.DacSpi
import FpgaTest.Cn0531
import FpgaTest.DacStartup
import FpgaTest.DacProgress
import FpgaTest.DacSerial
import FpgaTest.VoltageUpdates
import FpgaTest.GateRegisters
import FpgaTest.TriggerResponse
import FpgaTest.CounterSlave
import FpgaTest.BusReset
import FpgaTest.BusAccess
import FpgaTest.CString
import FpgaTest.CommandDispatch
import FpgaTest.ByteMemory
import FpgaTest.ScatterGather
import FpgaTest.FileLoopback
import FpgaTest.OledSpi
import FpgaTest.OledControl
import FpgaTest.OledProgram
import FpgaTest.OledStages
import FpgaTest.OledPanel
import FpgaTest.Oled
import FpgaTest.OledDelivery
import FpgaTest.OledRefresh
import FpgaTest.RegisterShadow
import FpgaTest.DacCode
import FpgaTest.TriggerTimes
import FpgaTest.DelayVisits
import FpgaTest.DacRequests
import FpgaTest.OledNumber
import FpgaTest.OledRestart
import FpgaTest.OledHandshake
import FpgaTest.OledCommands
import FpgaTest.OledStream
import FpgaTest.CountReplies
import FpgaTest.DescriptorRings
import FpgaTest.Loop
import FpgaTest.FileCopy
import FpgaTest.Font8x8
import FpgaTest.Painting
import FpgaTest.HdmiText
import FpgaTest.DacFrames
import FpgaTest.Transactions
import FpgaTest.OledFrames
import FpgaTest.BitCounts
import FpgaTest.TmdsEncoder
import FpgaTest.TmdsDecoder
import FpgaTest.DelayMemory
import FpgaTest.ChannelBond
import FpgaTest.VideoLink
import FpgaTest.ByteCopies
import FpgaTest.XdmaRequest
import FpgaTest.XdmaTransfer
import FpgaTest.XdmaSubmit
import FpgaTest.XdmaCharDevice
import FpgaTest.DmaUtils
import FpgaTest.BusMaster
import FpgaTest.DaqSession
import FpgaTest.XdmaEngine
import FpgaTest.XdmaAsync
