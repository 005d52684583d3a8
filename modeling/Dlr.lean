import Dlr.Core.CrashConsistency
import Dlr.Core.Filter
import Dlr.Core.FrameSafety
import Dlr.Core.Mmr
import Dlr.Core.Statistics
import Dlr.Core.TornWrites
import Dlr.Receiver.Durability
import Dlr.Receiver.LogLimits
import Dlr.Receiver.Completion
import Dlr.Receiver.Rejection
import Dlr.Compress.Contexts
import Dlr.Coding.BulkDecode
import Dlr.Coding.FlatGauss
import Dlr.Coding.Resampling
import Dlr.Coding.SparseDecode
import Dlr.Coding.ZeckendorfStream
import Dlr.Coding.Tampering
import Dlr.Coding.Placement
import Dlr.Coding.CayleyPaths
import Dlr.Shim.Delta
import Dlr.Shim.CleanTransfer
import Dlr.Shim.FilterHint
import Dlr.Shim.InlinePayload
import Dlr.Shim.Progress
import Dlr.Shim.Coordinator
import Dlr.Sidecar.Exchange
import Dlr.Sidecar.Interleaving
import Dlr.Sidecar.Prepare
import Dlr.Sidecar.Process
import Dlr.Sidecar.ProjectionCache
import Dlr.Sidecar.RequestBody
import Dlr.Sidecar.Resync
import Dlr.Transport.Flow
import Dlr.Transport.Multipath
import Dlr.Transport.Pipeline
import Dlr.Prune.Scheduler
import Dlr.Prune.Recency
import Dlr.Prune.Priority
