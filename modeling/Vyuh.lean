import Vyuh.Lib.Step
import Vyuh.Lib.Table
import Vyuh.Lib.FMap
import Vyuh.Cache.Coherence
import Vyuh.Auth.Runtime.Issuance
import Vyuh.Auth.Runtime.Dispatch
import Vyuh.Channels.Replay
import Vyuh.Console.Logs.Pagination
import Vyuh.Console.Logs.Cursors
import Vyuh.Console.Logs.Rendering
import Vyuh.Console.Logs.Selection
import Vyuh.Console.Logs.Order
import Vyuh.Auth.Codecs.Django
import Vyuh.Emitters.Cursor
import Vyuh.Tasks.Models
import Vyuh.Tasks.Result
import Vyuh.Tasks.Rate
import Vyuh.Tasks.RateWaits
import Vyuh.Tasks.Store.Transitions
import Vyuh.Tasks.Store.Memory.Runs
import Vyuh.Tasks.Store.Memory.Idempotency
import Vyuh.Tasks.Store.Memory.LaneClaims
import Vyuh.Tasks.Store.Memory.Acceptance
import Vyuh.Tasks.Store.Memory.LaneFence
import Vyuh.Tasks.Store.Memory.Fencing
import Vyuh.Tasks.Store.Memory.Ownership
import Vyuh.Tasks.Store.Memory.Admission
import Vyuh.Tasks.Store.Memory.Results
import Vyuh.Tasks.Store.Memory.Permits
import Vyuh.Tasks.Store.Memory.Wakeups
import Vyuh.Tasks.Diagnostics
import Vyuh.Tasks.Batch
import Vyuh.Tasks.Work
import Vyuh.Tasks.Submission
import Vyuh.Tasks.Store.Aggregation
import Vyuh.Lib.Agree
import Vyuh.Lib.StdPath
import Vyuh.Tasks.Store.Database.Commit
import Vyuh.Tasks.Store.Agreement
import Vyuh.Tasks.Runner.Serial
import Vyuh.Tasks.Runner.Deadline
import Vyuh.Tasks.Runner.FlowCache
import Vyuh.Tasks.Runner.Flush
import Vyuh.Cache.Key
import Vyuh.Cache.Recency
import Vyuh.Console.Logs.Lines
import Vyuh.Utils.Delivery
import Vyuh.Validation.Losses
import Vyuh.Auth.Runtime.Coverage
import Vyuh.Auth.Extraction
import Vyuh.Auth.Login.Mfa
import Vyuh.Auth.Login.Passwordless
import Vyuh.Assets.Serve
import Vyuh.Assets.Variants
import Vyuh.Assets.Etags
import Vyuh.Collectors.Export
import Vyuh.Collectors.Separate
import Vyuh.Commands.Accepted
import Vyuh.Routes.Forms
import Vyuh.Logging.Throttle
import Vyuh.Tasks.RetryDelay
import Vyuh.Emitters.Periodic
import Vyuh.Callables.Strip
import Vyuh.Apidocs.Lossless
import Vyuh.Apidocs.Paths
import Vyuh.Bundles.Exactness
import Vyuh.Bundles.Conflicts
import Vyuh.Bundles.Viewer
import Vyuh.Bundles.Inheritance
import Vyuh.Lib.Ledger
import Vyuh.Tasks.Store.Memory.Joins
import Vyuh.Tasks.Store.Memory.JoinSettling
import Vyuh.Tasks.Store.Memory.JoinTurns
import Vyuh.Tasks.Store.Memory.JoinStaging
import Vyuh.Tasks.Store.Memory.JoinCommits
import Vyuh.Tasks.Store.Memory.JoinPlacing
import Vyuh.Tasks.Store.Memory.JoinRuns
import Vyuh.Tasks.Store.Memory.JoinInputs
import Vyuh.Tasks.Store.Memory.JoinProgress
import Vyuh.Tasks.LaneSet
import Vyuh.Tasks.Assembly
import Vyuh.Tasks.Deployment
import Vyuh.Tasks.Store.Memory.Accepted
