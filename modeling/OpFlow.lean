import OpFlow.Proofs.Random.Period
import OpFlow.Async.Session
import OpFlow.Operation.Outline
import OpFlow.Proofs.Machine.Unchecked
import OpFlow.Scenario
import OpFlow.Settings
import OpFlow.Text.Hex
import OpFlow.Proofs.Graph.Closure
import OpFlow.Proofs.Graph.Append
import OpFlow.Proofs.Graph.Size
import OpFlow.Collective.Meeting
import OpFlow.Proofs.Collective.Generations
import OpFlow.Proofs.Collective.Separation
import OpFlow.Proofs.Machine.Inner
import OpFlow.Proofs.Machine.Scene
import OpFlow.Proofs.Machine.Rest
import OpFlow.Proofs.Spmd.Locality
import OpFlow.Proofs.Spmd.Job
import OpFlow.Proofs.Spmd.Delivery
import OpFlow.Proofs.Spmd.Ledger
import OpFlow.Proofs.Spmd.Lockstep
import OpFlow.Proofs.Spmd.Exchanges
import OpFlow.Proofs.Spmd.Synced
import OpFlow.Proofs.Spmd.Completion
import OpFlow.Proofs.Order.Refinement
import OpFlow.Proofs.Machine.Abandonment
import OpFlow.Proofs.Machine.Tally
import OpFlow.Proofs.Machine.InOrder
import OpFlow.Proofs.Operation.Occurrence
import OpFlow.Proofs.Machine.Device
import OpFlow.Proofs.Context.Parts
import OpFlow.Proofs.Context.Completeness
import OpFlow.Proofs.Frame.Coverage
import OpFlow.Proofs.Machine.Attribution
import OpFlow.Proofs.Async.Confluence
import OpFlow.Proofs.Async.Resolution
import OpFlow.Proofs.Async.Alone
import OpFlow.Proofs.Feed.Matching
import OpFlow.Proofs.Feed.Order
import OpFlow.Proofs.Collective.Isolation
import OpFlow.Proofs.Collective.Scatter
import OpFlow.Proofs.Kernel.Parallel
import OpFlow.Proofs.Loop.Course
import OpFlow.Proofs.Loop.Resumption
import OpFlow.Proofs.Machine.Credit
import OpFlow.Proofs.Machine.Balance
import OpFlow.Proofs.Collective.Permute
import OpFlow.Proofs.Collective.Transpose
import OpFlow.Proofs.Buffer.Requests
import OpFlow.Proofs.CustomCall.Failure
import OpFlow.Proofs.Device.Accounting
import OpFlow.Proofs.Collective.Creation
import OpFlow.Proofs.Lab.Conservation
import OpFlow.Proofs.Pool.Handles
import OpFlow.Proofs.Kernel.Points
import OpFlow.Proofs.Settings.Layers
import OpFlow.Proofs.Timer.Service
