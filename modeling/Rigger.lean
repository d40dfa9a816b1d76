import Rigger.Conductor.Attempts
import Rigger.Conductor.Attention
import Rigger.Conductor.Attribution
import Rigger.Conductor.Baseline
import Rigger.Conductor.BlastTiers
import Rigger.Conductor.Bounded
import Rigger.Conductor.Branches
import Rigger.Conductor.Budget
import Rigger.Conductor.CappedSection
import Rigger.Conductor.Condemn
import Rigger.Conductor.Coschedule
import Rigger.Conductor.Criterion
import Rigger.Conductor.Deferred
import Rigger.Conductor.GateOutcome
import Rigger.Conductor.Held
import Rigger.Conductor.Keyed
import Rigger.Conductor.Landings
import Rigger.Conductor.LoggedGenerations
import Rigger.Conductor.Owners
import Rigger.Conductor.ReviewReplay
import Rigger.Conductor.ReviewRound
import Rigger.Conductor.Reviewer
import Rigger.Conductor.Served
import Rigger.Conductor.Signals
import Rigger.Conductor.SignalsOnce
import Rigger.Conductor.SpawnIds
import Rigger.Console.Fold
import Rigger.Console.Session
import Rigger.Domain.Closure
import Rigger.Domain.Config
import Rigger.Domain.Failure
import Rigger.Domain.Glob
import Rigger.Domain.HoldProbe
import Rigger.Domain.HoldSpans
import Rigger.Domain.Mint
import Rigger.Domain.PrHead
import Rigger.Domain.Progress
import Rigger.Domain.Review
import Rigger.Domain.ReviewPanel
import Rigger.Domain.ReviewRates
import Rigger.Domain.SpawnTiming
import Rigger.Domain.Spec
import Rigger.Domain.Verdicts
import Rigger.Domain.Watch
import Rigger.Driver.Marker
import Rigger.Driver.Replay
import Rigger.Driver.SilentTime
import Rigger.Driver.Sweep
import Rigger.Graph.AtHead
import Rigger.Graph.CallWalk
import Rigger.Graph.Calls
import Rigger.Graph.CatchUp
import Rigger.Graph.Cursor
import Rigger.Graph.Findings
import Rigger.Graph.Kinds
import Rigger.Graph.Ledger
import Rigger.Graph.Neighborhood
import Rigger.Graph.Paging
import Rigger.Graph.Passes
import Rigger.Graph.Path
import Rigger.Graph.Proven
import Rigger.Graph.Prune
import Rigger.Graph.Seeding
import Rigger.Graph.Tiers
import Rigger.Grounder.BlastRadius
import Rigger.Grounder.Cfg
import Rigger.Grounder.DefPaths
import Rigger.Grounder.Entries
import Rigger.Grounder.ExtractEvents
import Rigger.Grounder.OutOfLine
import Rigger.Grounder.RankedPage
import Rigger.Lib.Alert
import Rigger.Lib.Bfs
import Rigger.Lib.Blocks
import Rigger.Lib.Crossing
import Rigger.Lib.Follow
import Rigger.Lib.Grouped
import Rigger.Lib.Occurrence
import Rigger.Lib.Paged
import Rigger.Lib.Pieces
import Rigger.Lib.Ranked
import Rigger.Lib.Redelivered
import Rigger.Lib.Retry
import Rigger.Lib.Stable
import Rigger.Lib.Unbroken
import Rigger.Lib.Utf8
import Rigger.Lib.Worklist
import Rigger.Process.Paths
import Rigger.Process.Reap
import Rigger.Store.Conditional
import Rigger.Store.Cursor
import Rigger.Store.Group
import Rigger.Store.LiveSelection
import Rigger.Store.Namespace
import Rigger.Store.Redact
import Rigger.Store.RunRead
import Rigger.Store.Subscription
import Rigger.Worktree.Sweep
