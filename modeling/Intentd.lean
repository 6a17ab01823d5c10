import Intentd.JournalCrashConsistency
import Intentd.JournalFaults
import Intentd.JournalDelivery
import Intentd.LinkSessions
import Intentd.ForwarderOrder
import Intentd.ConflatedTurns
import Intentd.ConflationBounds
import Intentd.FinalStopGrace
import Intentd.DeleteOwnership
import Intentd.InterruptOrder
import Intentd.DeliveryGroups
import Intentd.QueueEdits
import Intentd.QueueAccounting
import Intentd.QueueRecovery
import Intentd.FlushRuns
import Intentd.GroupSettlement
import Intentd.ImageScans
import Intentd.TurnStream
import Intentd.SnapshotJoin
import Intentd.ChatTerminal
import Intentd.NoteMerge
import Intentd.LogPages
import Intentd.ScrollbackRing
import Intentd.ConversationPages
import Intentd.NotePages
import Intentd.LinkRedaction
import Intentd.ChatDeltaParts
import Intentd.MessageBlockPages
import Intentd.CommentWalks
import Intentd.CaptureRuns
import Intentd.TunnelConnections
import Intentd.NodeGitSessions
import Intentd.ImportedPaths
import Intentd.ReplayPreviews
import Intentd.ReadyTasks
import Intentd.TaskRelations
import Intentd.UploadChunks
import Intentd.ScriptSegments
import Intentd.WrappedJson
import Intentd.SlimRows
import Intentd.JsonPreviews
