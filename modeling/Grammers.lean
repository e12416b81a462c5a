import Grammers.SortedSearch
import Grammers.StableSort
import Grammers.LabelledPath
import Grammers.Reassembly
import Grammers.WorkQueue
import Grammers.BoxTypes
import Grammers.BoxAdaptor
import Grammers.BoxEntries
import Grammers.BoxRecovery
import Grammers.BoxProcess
import Grammers.BoxDifference
import Grammers.BoxStore
import Grammers.BoxInvariant
import Grammers.BoxPrimitives
import Grammers.BoxLoop
import Grammers.BoxBatch
import Grammers.BoxHeld
import Grammers.BoxScan
import Grammers.BoxOps
import Grammers.BoxDiffOps
import Grammers.BoxChannelOps
import Grammers.BoxReach
import Grammers.BoxBookkeeping
import Grammers.BoxReject
import Grammers.BoxTotal
import Grammers.BoxChain
import Grammers.BoxArrival
import Grammers.BoxOrder
import Grammers.BoxRelease
import Grammers.BoxEffect
import Grammers.BoxTimed
import Grammers.BoxExclusion
import Grammers.BoxDeadline
import Grammers.BoxPunctual
import Grammers.BigEndian
import Grammers.ReplayIds
import Grammers.ReplayModel
import Grammers.LittleEndian
import Grammers.Checked
import Grammers.Incremental
import Grammers.Transport
import Grammers.TransportRead
import Grammers.TransportCode
import Grammers.Queue
import Grammers.CursorReader
import Grammers.TlPrimitives
import Grammers.TlCode
import Grammers.Receive
import Grammers.ReceiveCut
import Grammers.SwapRemove
import Grammers.Mtp
import Grammers.Plain
import Grammers.Sender
import Grammers.RequestLedger
import Grammers.RequestInvariants
import Grammers.SenderLedger
import Grammers.SenderLifecycle
import Grammers.Ige
import Grammers.Encrypted
import Grammers.Envelope
import Grammers.Inbound
import Grammers.StateError
import Grammers.InboundEffect
import Grammers.InboundPacket
import Grammers.InboundBudget
import Grammers.Clock
import Grammers.Outbound
import Grammers.Session
import Grammers.AtMostOnce
import Grammers.Packet
import Grammers.PushProgress
import Grammers.MessageStamps
import Grammers.MtProxy
import Grammers.MtProxyStream
import Grammers.FakeTls
import Grammers.FakeTlsWrite
import Grammers.FakeTlsRead
import Grammers.FakeTlsHello
import Grammers.FakeTlsPipe
import Grammers.Base64
import Grammers.SessionTypes
import Grammers.MemoryStorage
import Grammers.NativeSession
import Grammers.SessionImport
import Grammers.ImportedCredentials
import Grammers.SqliteStorage
import Grammers.StorageAgreement
import Grammers.StorageRuns
import Grammers.StorageAnswers
import Grammers.ManagedLifecycle
import Grammers.ManagedInvariants
import Grammers.ManagedOutcome
import Grammers.IgeMode
import Grammers.Container
import Grammers.RpcOutcome
import Grammers.BadMessages
import Grammers.GeneratorCheck
import Grammers.SrpAgreement
import Grammers.Factorization
import Grammers.RsaPad
import Grammers.CanonicalForm
import Grammers.PrintedDefinition
import Grammers.RecursiveTypes
import Grammers.Inject
import Grammers.Injection
import Grammers.BoxLoad
import Grammers.WaitingLine
import Grammers.BoxTurns
import Grammers.ByteSource
import Grammers.PartStream
import Grammers.Upload
import Grammers.SeekFile
import Grammers.Download
import Grammers.DownloadedFile
import Grammers.DownloadRoute
import Grammers.SentMessages
import Grammers.SentAlignment
import Grammers.Forest
import Grammers.Latest
import Grammers.MessageEntity
import Grammers.Markdown
import Grammers.MarkdownSpans
import Grammers.IterBuffer
import Grammers.DialogIter
import Grammers.DialogPositions
import Grammers.StoredPeers
import Grammers.PeerWrites
import Grammers.PendingConnection
import Grammers.ParticipantIter
import Grammers.ParticipantCalls
import Grammers.JoinedWords
import Grammers.RpcError
import Grammers.DequeBuffer
import Grammers.DataV2
import Grammers.TerminatorScan
import Grammers.HttpConnect
import Grammers.Mutex
import Grammers.DcEndpoints
import Grammers.ConnectionSetup
import Grammers.InPlaceSort
import Grammers.UpdateSort
import Grammers.ClearedBuffer
import Grammers.PathSize
import Grammers.UpdatesReceiver
import Grammers.ReceiverSteps
import Grammers.ReceiverPacing
import Grammers.FailureStreak
import Grammers.BoxPosition
import Grammers.ReceiverBacklog
import Grammers.ReceivedBatches
import Grammers.UpdateStream
import Grammers.Census
import Grammers.RouteCache
import Grammers.PoolConnection
import Grammers.SenderPool
import Grammers.PoolInvariant
import Grammers.PoolOps
import Grammers.PoolSteps
import Grammers.PoolRouting
import Grammers.PoolPlaces
import Grammers.PoolSettled
import Grammers.InvocationTracker
import Grammers.InboundTotal
import Grammers.EncryptedMtp
