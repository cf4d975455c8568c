import PythonAI.Errors
import PythonAI.Library.Fence
import PythonAI.Library.Lts
import PythonAI.Library.Slices
import PythonAI.Library.Table
import PythonAI.Library.Txn
import PythonAI.Tasks.Calls
import PythonAI.Tasks.Continuation
import PythonAI.Tasks.Durable
import PythonAI.Tasks.Lease
import PythonAI.Tasks.Replay
import PythonAI.Tasks.Rows
import PythonAI.Tasks.Store
import PythonAI.Tasks.Types
import PythonAI.Tasks.Resume
import PythonAI.Tasks.Allowance
import PythonAI.Tasks.Answers
import PythonAI.Temporal.Types
import PythonAI.Temporal.Ledger
import PythonAI.Temporal.Store
import PythonAI.Temporal.Steps
import PythonAI.Temporal.Effects
import PythonAI.Temporal.Finalizing
import PythonAI.Temporal.Calls
import PythonAI.Library.Chain
import PythonAI.Temporal.Submissions
import PythonAI.Temporal.Artifacts
import PythonAI.Temporal.Chain
import PythonAI.Temporal.Operations
import PythonAI.Temporal.Runs
import PythonAI.Temporal.Superseded
import PythonAI.Temporal.Cancelled
import PythonAI.Temporal.Journal
import PythonAI.Scheduling.Retries
import PythonAI.Scheduling.Held
import PythonAI.Scheduling.Engines
import PythonAI.Scheduling.Cancellation
import PythonAI.Scheduling.Occurrences
import PythonAI.Scheduling.Instants
import PythonAI.Scheduling.Watches
import PythonAI.Budgets.Store
import PythonAI.Budgets.Conservation
import PythonAI.Budgets.Charges
import PythonAI.Coordinator.Store
import PythonAI.Coordinator.Graphs
import PythonAI.Coordinator.Human
import PythonAI.Coordinator.Host
import PythonAI.Coordinator.Steps
import PythonAI.Coordinator.Moves
import PythonAI.Coordinator.Fence
import PythonAI.Coordinator.Claims
import PythonAI.Coordinator.Stopped
import PythonAI.Coordinator.Subtrees
import PythonAI.Coordinator.Review
import PythonAI.Coordinator.Spending
import PythonAI.Limits
import PythonAI.Delivery.Store
import PythonAI.Library.Window
import PythonAI.Delivery.History
import PythonAI.Delivery.Resume
import PythonAI.Approvals.Store
import PythonAI.Approvals.Grants
import PythonAI.Communication.Types
import PythonAI.Communication.Store
import PythonAI.Communication.Calls
import PythonAI.Communication.Deliveries
import PythonAI.Communication.Jobs
import PythonAI.Communication.Worker
import PythonAI.Communication.Steps
import PythonAI.Communication.Outcomes
import PythonAI.Communication.Recovery
import PythonAI.Communication.Live
import PythonAI.Communication.Questions
import PythonAI.Communication.Suspensions
import PythonAI.Communication.Decisions
import PythonAI.Communication.Messages
import PythonAI.Communication.Rows
import PythonAI.Communication.Ingest
import PythonAI.Communication.Polling
import PythonAI.Memory.Conflicts
import PythonAI.Memory.Lists
import PythonAI.Memory.Reviews
import PythonAI.Memory.Leases
import PythonAI.Memory.Procedures
import PythonAI.Coordinator.Merging
import PythonAI.Coordinator.Bounds
import PythonAI.Coordinator.Ready
import PythonAI.Temporal.Publishing
import PythonAI.Extensions.OAuth
import PythonAI.Extensions.Exchanges
import PythonAI.Extensions.Revocation
import PythonAI.Scheduling.Dispatches
import PythonAI.Scheduling.Folds
import PythonAI.Context.Truncation
import PythonAI.Streaming.Completion
import PythonAI.Coordinator.Restored
import PythonAI.Delivery.Rollback
import PythonAI.TurnControl.Progress
import PythonAI.TurnControl.Reads
import PythonAI.TurnControl.Repetition
import PythonAI.CodeIndex.Syntax
import PythonAI.CodeIndex.Positions
import PythonAI.CodeIndex.Store
import PythonAI.CodeIndex.Search
import PythonAI.CodeIndex.Navigation
import PythonAI.CodeIndex.Refresh
import PythonAI.CodeIndex.Integrity
import PythonAI.CodeIndex.Limits
import PythonAI.CodeIndex.Rebuild
import PythonAI.Library.Cover
import PythonAI.Companion.Pieces
import PythonAI.Companion.Translation
import PythonAI.Companion.Coverage
import PythonAI.Context.Json
import PythonAI.Context.Merging
import PythonAI.Context.Admission
import PythonAI.Context.Pairing
import PythonAI.Communication.Batches
import PythonAI.Delivery.Archives
import PythonAI.Temporal.Waits
import PythonAI.Temporal.Erasure
import PythonAI.Workspace.Cleanup
import PythonAI.Workspace.Workers
import PythonAI.Workspace.Approved
import PythonAI.Library.Variant
import PythonAI.Workspace.Stages
import PythonAI.Workspace.Progress
import PythonAI.Workspace.Recovery
import PythonAI.Delivery.Inputs
import PythonAI.Approvals.Gate
