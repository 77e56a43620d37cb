import MessageQueue.Base.Run
import MessageQueue.Server.QueueMessage
import MessageQueue.Store.Books
import MessageQueue.Store.Order
import MessageQueue.Store.Crash
import MessageQueue.Broker.Backlog
import MessageQueue.Link.Waiting
import MessageQueue.Link.Pushes
import MessageQueue.Broker.Publish
import MessageQueue.Broker.HandedOut
import MessageQueue.Broker.Agreement
import MessageQueue.Broker.Topology
import MessageQueue.Broker.Literals
import MessageQueue.Broker.Ownership
import MessageQueue.Broker.Evictions
import MessageQueue.Broker.Isolation
import MessageQueue.Broker.Lifetimes
import MessageQueue.Broker.Overtaking
import MessageQueue.Server.Topics
import MessageQueue.Server.Wildcards
import MessageQueue.Server.Keys
import MessageQueue.Server.Arguments
import MessageQueue.Store.Torn
import MessageQueue.Store.Failures
import MessageQueue.Broker.Routes
import MessageQueue.Broker.Registrations
import MessageQueue.Broker.Counters
import MessageQueue.Broker.Resets
import MessageQueue.Server.Turns
import MessageQueue.Common.Shutdown
import MessageQueue.Broker.Confirmations
import MessageQueue.Broker.Acceptance
import MessageQueue.Store.Places
import MessageQueue.Store.Acks
import MessageQueue.Common.Wakeups
import MessageQueue.Common.SplitSizes
import MessageQueue.Common.Uuid
import MessageQueue.Common.ParentDirectory
import MessageQueue.Common.WholePath
import MessageQueue.Base.Adler
import MessageQueue.Base.Framing
import MessageQueue.Common.Packet
import MessageQueue.Net.ByteQueue
import MessageQueue.Net.Stream
import MessageQueue.Net.Delivery
import MessageQueue.Net.Dispatcher
import MessageQueue.Net.Served
import MessageQueue.Link.Bytes
import MessageQueue.Broker.Contents
import MessageQueue.Broker.Durable
import MessageQueue.Link.Conserved
import MessageQueue.Link.Origins
import MessageQueue.Link.Settled
import MessageQueue.Link.Wires
