import PubSub.Lib.Cells
import PubSub.Lib.Runs
import PubSub.Sync
import PubSub.Queue.Bucket
import PubSub.Lib.BoundedInsert
import PubSub.Queue.Refinement
import PubSub.Queue.Concurrent
import PubSub.Lib.Ancestors
import PubSub.Topic
import PubSub.Queue.Idle
import PubSub.Bus.State
import PubSub.Bus.Delivery
import PubSub.Bus.Publish
import PubSub.Bus.References
import PubSub.Bus.Table
import PubSub.Bus.Offers
import PubSub.Bus.Sticky
import PubSub.Bus.Reading
import PubSub.Bus.Routing
import PubSub.Bus.Links
import PubSub.Bus.Subscriptions
import PubSub.Bus.Lifetime
import PubSub.Bus.Api
import PubSub.TopicTable
import PubSub.Ownership
import PubSub.Lib.LastWrite
import PubSub.StickyReplay
import PubSub.StickyStore
import PubSub.Bus.Serving
import PubSub.Origins
import PubSub.Priorities
import PubSub.Room
import PubSub.Lib.InStep
import PubSub.Bus.Retitled
import PubSub.PublishRoute
import PubSub.DeliveryCount
import PubSub.Bus.Flow
import PubSub.Bus.Lockstep
import PubSub.Accounts
import PubSub.NonRecursive
import PubSub.Calls
import PubSub.Correlation
import PubSub.SubscriptionLaws
import PubSub.SubsCount
import PubSub.PriorityRange
import PubSub.NewMsgCalls
import PubSub.OnEmpty
import PubSub.Queue.Interchange
import PubSub.StartOrder
import PubSub.Lib.Unwinding
import PubSub.Bus.Apart
import PubSub.Alike
import PubSub.OwnCalls
import PubSub.NonInterference
import PubSub.Lib.Since
import PubSub.WakeUp
import PubSub.SyncLinux
import PubSub.Timeouts
import PubSub.FlagStrings
import PubSub.HasTopic
import PubSub.Subtree
import PubSub.OverflowReaders
import PubSub.Overload
import PubSub.Lib.Heap
import PubSub.Memory.Message
import PubSub.Memory.Contents
import PubSub.Memory.Effects
import PubSub.Memory.State
import PubSub.Memory.Ledger
import PubSub.Memory.Steps
import PubSub.Memory.Runs
import PubSub.MessageOwnership
import PubSub.Memory.Values
import PubSub.Progress
import PubSub.Lib.Linked
import PubSub.Utlist
import PubSub.Queue.Nodes
import PubSub.Queue.NodeRuns
import PubSub.Uthash.Table
import PubSub.Uthash.Lists
import PubSub.Uthash.Expand
import PubSub.Uthash.Laws
import PubSub.Uthash.Reads
import PubSub.Uthash.Topics
import PubSub.Uthash.TopicRuns
import PubSub.Queue.Ordered
import PubSub.Exchange.Board
import PubSub.Exchange.Machine
import PubSub.Exchange.Simulation
import PubSub.Exchange.Sending
import PubSub.Exchange.Refinement
import PubSub.Backends
