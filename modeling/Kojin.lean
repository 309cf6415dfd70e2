import Kojin.Foundation.Machine
import Kojin.Foundation.Loss
import Kojin.Foundation.Table
import Kojin.Foundation.Json
import Kojin.Core.Basic
import Kojin.Core.Message
import Kojin.Foundation.JsonSchema
import Kojin.Core.Wire
import Kojin.Core.WireFormat
import Kojin.Foundation.JsonText
import Kojin.Foundation.JsonUnique
import Kojin.Core.ContentDedup
import Kojin.Core.MemoryBroker
import Kojin.Core.Conservation
import Kojin.Core.System
import Kojin.Core.Worker
import Kojin.Core.Lifecycle
import Kojin.Core.QueueWeight
import Kojin.Core.Canvas
import Kojin.Core.Ledger
import Kojin.Core.MemoryResultBackend
import Kojin.Core.Retry
import Kojin.Core.GroupBackend
import Kojin.Core.Chord
import Kojin.Foundation.Keyspace
import Kojin.Redis.Commands
import Kojin.Redis.Keys
import Kojin.Redis.ResultBackend
import Kojin.Redis.Chord
import Kojin.Redis.Poll
import Kojin.Redis.DlqPages
import Kojin.Redis.Ack
import Kojin.Core.HandOff
import Kojin.Redis.Calls
import Kojin.Foundation.Replace
import Kojin.Redis.PollTarget
import Kojin.Redis.Nack
import Kojin.Redis.Errors
import Kojin.Redis.Dedup
import Kojin.Redis.GroupSize
import Kojin.Core.Redelivery
import Kojin.Sqs.Broker
import Kojin.Foundation.Segments
import Kojin.Sqs.Names
import Kojin.Sqs.DeadLetter
import Kojin.Sqs.Redelivery
import Kojin.Amqp.Broker
import Kojin.Amqp.DlqPages
import Kojin.Amqp.Redelivery
import Kojin.Postgres.ResultBackend
import Kojin.Postgres.Chord
import Kojin.Postgres.GroupHistory
import Kojin.Postgres.GroupLaws
import Kojin.Core.Pipeline
import Kojin.Core.Middleware
import Kojin.Core.Metrics
import Kojin.Core.MemoryFleet
import Kojin.Core.Duplicates
import Kojin.Core.DedupRetries
import Kojin.Core.WorkerLoop
import Kojin.Core.Results
import Kojin.Sqs.Delay
import Kojin.Core.Locks
import Kojin.Core.MemoryDequeue
import Kojin.Core.MemoryWorker
import Kojin.Core.Settled
import Kojin.Core.Shutdown
import Kojin.Core.Wakeup
import Kojin.Core.Cron
import Kojin.Core.Deduplication
import Kojin.Core.Hooks
import Kojin.Core.Backoff
import Kojin.Core.BackoffValue
import Kojin.Amqp.Priority
import Kojin.Amqp.Delay
import Kojin.Foundation.History
import Kojin.Core.GroupHistory
import Kojin.Redis.GroupHistory
import Kojin.Core.Correlation
import Kojin.Redis.Refinement
import Kojin.Agent.Runner
import Kojin.Agent.Sdd
import Kojin.Macros.TaskAttr
import Kojin.Amqp.Tags
import Kojin.Core.ChainSteps
import Kojin.Core.ChainRun
import Kojin.Foundation.Journal
import Kojin.Core.Timings
import Kojin.Core.Workflow
import Kojin.Foundation.Observed
import Kojin.Foundation.Expiring
import Kojin.Foundation.Glob
import Kojin.Foundation.Schema
import Kojin.Foundation.Depot
import Kojin.Redis.Clients
import Kojin.Redis.Namespace
import Kojin.Redis.ResultStore
import Kojin.Redis.Custody
import Kojin.Foundation.Growing
import Kojin.Amqp.Topology
import Kojin.Amqp.Startup
import Kojin.Foundation.Polling
import Kojin.Core.ResultClients
import Kojin.Redis.Waiting
import Kojin.Foundation.Tenants
import Kojin.Foundation.Footprint
import Kojin.Redis.Neighbours
import Kojin.Redis.Queues
import Kojin.Postgres.Lifetime
import Kojin.Macros.Codegen
import Kojin.Agent.Concurrency
import Kojin.Core.Provenance
import Kojin.Core.QueueOrder
import Kojin.Foundation.Leases
import Kojin.Sqs.Custody
import Kojin.Amqp.Custody
