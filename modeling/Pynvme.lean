import Pynvme.Admin.Command
import Pynvme.Admin.Enable
import Pynvme.Admin.Firmware
import Pynvme.Admin.Format
import Pynvme.Admin.Request
import Pynvme.Admin.Waitdone
import Pynvme.Cmdlog.Dump
import Pynvme.Cmdlog.Ring
import Pynvme.Cmdlog.Window
import Pynvme.Crc.Bounds
import Pynvme.Crc.Buffer
import Pynvme.Crc.Cmdlog
import Pynvme.Crc.Command
import Pynvme.Crc.Device
import Pynvme.Crc.Footprint
import Pynvme.Crc.Lifecycle
import Pynvme.Crc.Lock
import Pynvme.Crc.Marks
import Pynvme.Crc.Retry
import Pynvme.Crc.System
import Pynvme.Crc.Table
import Pynvme.Crc.Token
import Pynvme.Driver.Cleanup
import Pynvme.Driver.Clock
import Pynvme.Driver.Terminate
import Pynvme.Intr.Handshake
import Pynvme.Intr.Init
import Pynvme.Intr.Vector
import Pynvme.Ioworker.Accounting
import Pynvme.Ioworker.Args
import Pynvme.Ioworker.Close
import Pynvme.Ioworker.Cmdlist
import Pynvme.Ioworker.Cpu
import Pynvme.Ioworker.Distribution
import Pynvme.Ioworker.EmptyRegion
import Pynvme.Ioworker.Entry
import Pynvme.Ioworker.History
import Pynvme.Ioworker.Lba
import Pynvme.Ioworker.Moves
import Pynvme.Ioworker.OpCounter
import Pynvme.Ioworker.PerSecond
import Pynvme.Ioworker.Percentile
import Pynvme.Ioworker.Pool
import Pynvme.Ioworker.Process
import Pynvme.Ioworker.Region
import Pynvme.Ioworker.Replay
import Pynvme.Ioworker.ReplayIo
import Pynvme.Ioworker.Report
import Pynvme.Ioworker.Sections
import Pynvme.Ioworker.Send
import Pynvme.Ioworker.Sequential
import Pynvme.Ioworker.Skip
import Pynvme.Ioworker.Start
import Pynvme.Ioworker.State
import Pynvme.Ioworker.Statistics
import Pynvme.Ioworker.Stats
import Pynvme.Ioworker.Step
import Pynvme.Ioworker.Tables
import Pynvme.Ioworker.Throttle
import Pynvme.Ioworker.Validation
import Pynvme.Lib.Bytes
import Pynvme.Lib.Chunks
import Pynvme.Lib.Cumulative
import Pynvme.Lib.Decimal
import Pynvme.Lib.Except
import Pynvme.Lib.Fair
import Pynvme.Lib.Levels
import Pynvme.Lib.Loop
import Pynvme.Lib.Machine
import Pynvme.Lib.Named
import Pynvme.Lib.Ring
import Pynvme.Lib.Rounds
import Pynvme.Lib.Schedule
import Pynvme.Lib.Slice
import Pynvme.Lib.While
import Pynvme.Lib.Word
import Pynvme.Pcie.Capability
import Pynvme.Psd.Cqe
import Pynvme.Psd.PrpList
import Pynvme.Psd.PrpMemory
import Pynvme.Psd.Queue
import Pynvme.Script.Buffer
import Pynvme.Script.Dsm
import Pynvme.Script.Python
import Pynvme.Trace.Recorder
import Pynvme.Trace.Replayer
import Pynvme.Zns.Worker
import Pynvme.Zns.Zone
