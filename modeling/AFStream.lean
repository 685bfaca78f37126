import AFStream.Queues.RingSession
import AFStream.Queues.Publication
import AFStream.Queues.ReverseReset
import AFStream.Thread.FinishProtocol
import AFStream.Thread.UpThreadNet
import AFStream.Thread.PollLoop
import AFStream.Thread.ControlHandshake
import AFStream.Thread.UpThreadTrace
import AFStream.Thread.Minibatch
import AFStream.Net.AckSafety
import AFStream.Net.Framing
import AFStream.Operator.WindowClear
import AFStream.Operator.SumDivergence
import AFStream.Operator.CountDivergence
import AFStream.FaultTolerance.ExactRecovery
import AFStream.FaultTolerance.WorkerIdentity
import AFStream.FaultTolerance.AdapterRecovery
import AFStream.Apps.CountMinMerge
import AFStream.Thread.BackupSeq
import AFStream.Net.Handshake
import AFStream.Net.WorkerPreamble
import AFStream.Apps.CountMinEstimate
import AFStream.Apps.CountMinWindow
import AFStream.Apps.HeavyHitters
import AFStream.Thread.CpuAffinity
import AFStream.Thread.AdapterReplay
import AFStream.Operator.ArrayContents
import AFStream.Queues.RoundRobin
import AFStream.FaultTolerance.RecoveryBuffer
import AFStream.ConfigFile
import AFStream.ControlChannel.Mailbox
import AFStream.Net.Connection
import AFStream.Net.EventLoopSafety
import AFStream.Net.Metadata
import AFStream.Net.HandshakePair
import AFStream.Foundation.ErrorBudget
import AFStream.Operator.BoundedError
import AFStream.Apps.SketchRecovery
import AFStream.Thread.UpThreadTraceError
