import Varmq.Interleaving.World
import Varmq.Interleaving.Seen
import Varmq.Interleaving.Alone
import Varmq.Interleaving.Total
import Varmq.Job.Basic
import Varmq.Job.Close
import Varmq.Job.Acknowledge
import Varmq.Worker.Status
import Varmq.Lifecycle.Basic
import Varmq.Lifecycle.Weights
import Varmq.Lifecycle.Balance
import Varmq.Lifecycle.Turn
import Varmq.Lifecycle.Quiet
import Varmq.Lifecycle.Serving
import Varmq.Lifecycle.Calls
import Varmq.Lifecycle.Counters
import Varmq.Lifecycle.Launch
import Varmq.Waiters.Basic
import Varmq.Waiters.Broadcast
import Varmq.Waiters.Sleep
import Varmq.Waiters.Driven
import Varmq.Park.Basic
import Varmq.Park.Line
import Varmq.Dispatch.Basic
import Varmq.Dispatch.Places
import Varmq.Dispatch.Conservation
import Varmq.Dispatch.Charge
import Varmq.Dispatch.Growth
import Varmq.Dispatch.Wait
import Varmq.Dispatch.Single
import Varmq.Dispatch.Order
import Varmq.Dispatch.Pending
import Varmq.Dispatch.Stamps
import Varmq.Wakeup.Basic
import Varmq.Wakeup.Refine
import Varmq.Wakeup.Pool
import Varmq.Wakeup.Signal
import Varmq.Wakeup.Known
import Varmq.Wakeup.Awake
import Varmq.Shutdown.Basic
import Varmq.Shutdown.Nodes
import Varmq.Shutdown.Clean
import Varmq.Group.Basic
import Varmq.Group.Members
import Varmq.Group.Deliver
import Varmq.Group.Once
import Varmq.Topics.Log
import Varmq.Topics.Chain
import Varmq.Topics.Step
import Varmq.Topics.Readers
import Varmq.Topics.Memory
import Varmq.Topics.Cursors
import Varmq.Topics.Locks
import Varmq.Topics.Fifo
import Varmq.Topics.Frame
import Varmq.Topics.Topic
import Varmq.Topics.Sections
import Varmq.Topics.Subscribers
import Varmq.Topics.Listing
import Varmq.Topics.Members
import Varmq.Topics.Attached
import Varmq.Topics.Reach
import Varmq.Topics.Sending
import Varmq.Topics.Bound
import Varmq.Topics.Plain
import Varmq.Topics.Refines
import Varmq.Topics.Whole
import Varmq.Topics.Reads
import Varmq.Topics.Chunked
import Varmq.Topics.Slots
import Varmq.Topics.Publishing
import Varmq.Topics.Feed
import Varmq.Topics.Delivery
import Varmq.Sources.Manager
import Varmq.Credit.Basic
import Varmq.Credit.Owing
import Varmq.Credit.Hint
import Varmq.Credit.Resync
import Varmq.Credit.Fine
import Varmq.Credit.Pass
import Varmq.Credit.Glance
import Varmq.Credit.Added
import Varmq.Credit.Classic
import Varmq.Credit.Announced
import Varmq.Sources.Order
import Varmq.Queues.Heap
import Varmq.Queues.Ids
import Varmq.Queues.Storage
import Varmq.Queues.Waiting
import Varmq.Queues.Dedup
import Varmq.Registry.Basic
import Varmq.Registry.Move
import Varmq.Registry.Held
import Varmq.Registry.Listed
import Varmq.Pause.Basic
import Varmq.Pause.Raised
import Varmq.Pause.Held
import Varmq.Fetch.Basic
import Varmq.Fetch.Refusals
import Varmq.Fetch.Empty
import Varmq.Fetch.Window
import Varmq.InMemory.Basic
import Varmq.InMemory.Locks
import Varmq.InMemory.Progress
import Varmq.InMemory.Ids
import Varmq.InMemory.Exact
import Varmq.InMemory.Closing
import Varmq.InMemory.Priority
import Varmq.Interleaving.Fair
import Varmq.Serve.Basic
import Varmq.Serve.Step
import Varmq.Serve.Balance
import Varmq.Serve.Once
import Varmq.Serve.Live
import Varmq.Serve.Delivery
import Varmq.Stats.Basic
import Varmq.Stats.Ledger
import Varmq.Stats.Step
import Varmq.Stats.Books
import Varmq.Stats.Balance
import Varmq.Stats.Stamps
import Varmq.Stats.Moves
import Varmq.Stats.Sound
import Varmq.Stats.Sweep
import Varmq.Stats.Purge
import Varmq.Stats.Later
import Varmq.Stats.Once
import Varmq.Leases.Envelope
import Varmq.Leases.Basic
import Varmq.Leases.Step
import Varmq.Leases.Bound
import Varmq.Leases.Told
import Varmq.Leases.Acked
import Varmq.Leases.Payload
import Varmq.Leases.Kept
import Varmq.Leases.Held
import Varmq.Queues.Calls
import Varmq.Queues.Capacity
import Varmq.Queues.HeapOrder
import Varmq.Queues.Priority
import Varmq.Queues.Listing
import Varmq.Park.Order
import Varmq.Park.Return
import Varmq.Queues.View
import Varmq.Submit.Basic
import Varmq.Submit.Refused
import Varmq.Pool.Linked
import Varmq.Pool.Basic
import Varmq.Pool.Step
import Varmq.Pool.Conserved
import Varmq.Pool.Positions
import Varmq.Pool.Stack
import Varmq.Pool.Ends
import Varmq.Wakeup.Shrink
import Varmq.Plan.Wrapped
import Varmq.Plan.Basic
import Varmq.Plan.Spawn
import Varmq.Sources.First
import Varmq.Sources.Round
import Varmq.Sources.Pick
import Varmq.Hooks.Basic
import Varmq.Hooks.Final
import Varmq.Waiters.Settled
