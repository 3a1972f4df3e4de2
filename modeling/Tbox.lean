import Tbox.Proof.CabinetTokens
import Tbox.Proof.FreeBlocks
import Tbox.Proof.PoolTasks
import Tbox.Proof.PoolStop
import Tbox.Proof.WorkThreadStatus
import Tbox.Proof.WatchdogStop
import Tbox.Proof.PipeDelivery
import Tbox.Proof.TimerIsolation
import Tbox.Proof.RequestExpiry
import Tbox.Proof.MutexRegion
import Tbox.Proof.SchedulerCleanup
import Tbox.Proof.Transitions
import Tbox.Proof.ParallelFinish
import Tbox.Proof.ExecutorOrder
import Tbox.Proof.PublishOrder
import Tbox.Proof.RpcLifecycle
import Tbox.Proof.RpcConversation
import Tbox.Proof.StreamWedge
import Tbox.Proof.TelnetElements
import Tbox.Proof.LogPipeline
import Tbox.Proof.MqttSessions
import Tbox.Proof.BufferedStream
import Tbox.Proof.ClientConnector
import Tbox.Proof.ConnectionLifetime
import Tbox.Proof.DnsLifecycle
import Tbox.Proof.DnsInside
import Tbox.Proof.DeserializerBounds
import Tbox.Proof.HeaderSafety
import Tbox.Proof.BufferQueue
import Tbox.Proof.ModulePairing
import Tbox.Proof.LoopCancel
import Tbox.Proof.WaitTime
import Tbox.Proof.SignalBooks
import Tbox.Proof.HostRoundTrip
import Tbox.Proof.RequestRoundTrip
import Tbox.Proof.ParserExchange
import Tbox.Proof.Segmentation
import Tbox.Proof.SerialRuns
import Tbox.Proof.RepeatRuns
import Tbox.Proof.RefusedChildren
import Tbox.Proof.TimerPass
import Tbox.Proof.SelectEviction
import Tbox.Proof.AlarmDelay
import Tbox.Proof.CrcTables
import Tbox.Proof.AesInverse
import Tbox.Proof.Md5Parts
import Tbox.Proof.Base64Decoders
import Tbox.Proof.HexRoundTrip
import Tbox.Proof.CmdlineQuoting
import Tbox.Proof.ChecksumLaws
import Tbox.Proof.WatcherCount
import Tbox.Proof.FdClosing
import Tbox.Proof.VariablesCopy
import Tbox.Proof.LineCrashes
import Tbox.Proof.LineEditor
import Tbox.Proof.KeySegments
