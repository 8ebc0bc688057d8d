import RoblSampleCodes.StarveFreeOvertaking
import RoblSampleCodes.StarveFreeWakeUp
import RoblSampleCodes.SemaphoreLockExclusion
import RoblSampleCodes.SemaphoreLockProgress
import RoblSampleCodes.ThreadPoolOrder
import RoblSampleCodes.ThreadPoolWork
import RoblSampleCodes.UpdateMediatorDeadlock
import RoblSampleCodes.ThreadPoolFuture
import RoblSampleCodes.ThreadPoolShutdown
import RoblSampleCodes.PromiseMapEqualKeys
import RoblSampleCodes.PromiseMapDelivery
import RoblSampleCodes.PromiseMapLifetime
import RoblSampleCodes.MountMonitorCancel
import RoblSampleCodes.MountMonitorRounds
import RoblSampleCodes.MidListenerReentry
import RoblSampleCodes.MidListenerDispatch
import RoblSampleCodes.Crc32
import RoblSampleCodes.MulticastClient
import RoblSampleCodes.UpdateAgent
import RoblSampleCodes.WeatherData
import RoblSampleCodes.StorageWatcher
import RoblSampleCodes.MidListenerHandles
import RoblSampleCodes.RunningVersion
import RoblSampleCodes.SweepLine
import RoblSampleCodes.InterfaceTable
import RoblSampleCodes.InotifyEvent
import RoblSampleCodes.InterfaceTableDump
import RoblSampleCodes.SweepLineVerdict
import RoblSampleCodes.MulticastSerial
import RoblSampleCodes.MulticastConnection
import RoblSampleCodes.RtattrParsing
import RoblSampleCodes.InotifyBatch
import RoblSampleCodes.IpChanged
import RoblSampleCodes.LotteryProgram
import RoblSampleCodes.ChpasswdCommand
import RoblSampleCodes.VectorSum
import RoblSampleCodes.TlvTemplate
import RoblSampleCodes.SctpServer
import RoblSampleCodes.ArchiveExtract
import RoblSampleCodes.MouseRoi
import RoblSampleCodes.NedFrame
import RoblSampleCodes.RunningVersionPacking
import RoblSampleCodes.MatchFormat
import RoblSampleCodes.Tile
import RoblSampleCodes.CommandExec
import RoblSampleCodes.RouteList
import RoblSampleCodes.MountMonitorLifetime
import RoblSampleCodes.SemaphoreLifetime
import RoblSampleCodes.ReadersWriters
import RoblSampleCodes.SemaphoreLockRefinement
import RoblSampleCodes.SemaphoreLockShutdown
import RoblSampleCodes.StarveFreeRefinement
import RoblSampleCodes.RwLock
import RoblSampleCodes.RwLockInvariant
import RoblSampleCodes.SemaphoreLockStarvation
import RoblSampleCodes.RwLockHistory
import RoblSampleCodes.RwLockShutdown
import RoblSampleCodes.RwLockStarvation
import RoblSampleCodes.UpdateMediatorOutcome
import RoblSampleCodes.Counter
import RoblSampleCodes.SegmentHandshake
import RoblSampleCodes.VectorAdd
import RoblSampleCodes.StorageWatcherBytes
import RoblSampleCodes.Mercator
import RoblSampleCodes.TileLatitude
import RoblSampleCodes.IpMonitor
import RoblSampleCodes.ThreadPoolOutcome
