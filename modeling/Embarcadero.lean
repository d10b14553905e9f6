import Embarcadero.Credit
import Embarcadero.StaleFences
import Embarcadero.AckStream
import Embarcadero.BLog
import Embarcadero.ClaimTable
import Embarcadero.EpochBuffers
import Embarcadero.Rollover
import Embarcadero.SlotLeak
import Embarcadero.ExportSlots
import Embarcadero.ExportGaps
import Embarcadero.RecoveredOrder
import Embarcadero.GoiExport
import Embarcadero.DurableCredit
import Embarcadero.CompletionVector
import Embarcadero.Scalog.Replica
import Embarcadero.Scalog.GlobalOrdering
import Embarcadero.LazyLog.Mailbox
import Embarcadero.Corfu.Tokens
import Embarcadero.Corfu.TokenProxy
import Embarcadero.Mailbox.Ring
import Embarcadero.Corfu.ReplicaStore
import Embarcadero.CommittedFrontier
import Embarcadero.Corfu.DurableFrontier
import Embarcadero.EpochFencing
import Embarcadero.SessionSnapshot
import Embarcadero.Corfu.Completion
import Embarcadero.LazyLog.AppendProgress
import Embarcadero.LazyLog.MetadataReplica
import Embarcadero.HeldCheck
import Embarcadero.FastPath
import Embarcadero.DedupWindow
import Embarcadero.BatchBody
import Embarcadero.DurableQueue
import Embarcadero.Scalog.ExportDescriptors
import Embarcadero.WrittenFrontier
import Embarcadero.Scalog.LocalCutTracker
import Embarcadero.KafkaFrontier
import Embarcadero.Order0Ring
import Embarcadero.MessageExport
import Embarcadero.SessionMemory
import Embarcadero.Corfu.TokenGate
import Embarcadero.Mailbox.Layout
