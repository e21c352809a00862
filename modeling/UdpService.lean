import UdpService.SlotRuns
import UdpService.Fragmentation
import UdpService.UplinkFlow
import UdpService.HeldHistory
import UdpService.SplitTurns
import UdpService.ReceiverLaws
import UdpService.Repair
import UdpService.PacketRuns
import UdpService.Bounds
import UdpService.Sweeps
import UdpService.SensorStats
import UdpService.HistoryRuns
import UdpService.BufferPool
import UdpService.Fifo
import UdpService.HsConfigFileReader
import UdpService.ConfRead
import UdpService.ConfFormat
import UdpService.Terminals
import UdpService.SlotContents
import UdpService.HsLog
import UdpService.ServiceCheck
import UdpService.PipeQueues
import UdpService.Inotify
import UdpService.LogStream
import UdpService.WholeService
