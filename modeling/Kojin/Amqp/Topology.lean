/-
  Amqp/Topology.lean --- exchanges, queues and bindings (`kojin-amqp`: `topology.rs`,
  `broker.rs`).

  A broker that starts declares what it needs and then consumes.  Others start at the same
  time, with other queues and another `max_priority`, and any request may be lost, before
  or after the server has carried it out.

      kojin.direct    key n  →  kojin.queue.n
      kojin.dlx       key n  →  kojin.dlq.n
      kojin.delayed   key n  →  kojin.queue.n, if the server has the plugin

  Declaring again is harmless, nobody consumes from a queue before it is reached by its
  exchange and its dead letters have a place, and the server refuses a declaration only
  where two brokers disagree about priorities.  What the rest of the broker model takes for
  granted of the server is what these bindings do.
-/
import Kojin.Amqp.DlqPages
import Kojin.Foundation.Growing

set_option autoImplicit false

namespace Kojin.Amqp

open Kojin.Foundation Kojin.Core
open AmqpBroker (dlqName)

/-! ## The server -/

/-- The types of exchanges that are declared: `ExchangeKind::Direct`, and
`"x-delayed-message"` with `"x-delayed-type"` direct. -/
inductive ExchangeKind where
  | direct
  | delayedMessage
  deriving DecidableEq

/-- The arguments of a queue: `"x-dead-letter-exchange"` with
`"x-dead-letter-routing-key"`, and `"x-max-priority"`. -/
structure QueueArgs where
  deadLetter : Option (String × String)
  maxPriority : Option UInt16
  deriving DecidableEq

/-- A queue is bound to an exchange under a key. -/
structure Binding where
  queue : String
  exchange : String
  routingKey : String
  deriving DecidableEq

/-- The requests of a broker that starts. -/
inductive SetupOp where
  | connect
  | createChannel
  | exchangeDeclare (name : String) (kind : ExchangeKind)
  | queueDeclare (name : String) (args : QueueArgs)
  | queueBind (binding : Binding)
  | basicQos (prefetchCount : UInt16)
  | basicConsume (queue : String)
  deriving DecidableEq

/-- Why a request fails: the server refuses it, or it is lost. -/
inductive Refusal where
  | preconditionFailed
  | notFound
  | commandInvalid
  | lost (reason : String)
  deriving DecidableEq

/-- The interface of a broker that starts. -/
abbrev setup : Interface := ⟨SetupOp, fun _ => Except Refusal Unit⟩

/-- What is declared, and the queues that are consumed from. -/
structure Topology where
  exchanges : String → Option ExchangeKind
  queues : String → Option QueueArgs
  bindings : List Binding
  nodup : bindings.Nodup
  consumers : List String

namespace Topology

/-- Nothing is declared. -/
def empty : Topology := ⟨fun _ => none, fun _ => none, [], .nil, []⟩

/-- A binding is made, if it is not there. -/
def bind (t : Topology) (b : Binding) : Topology :=
  { t with
    bindings := t.bindings.insert b
    nodup := t.nodup.insert }

/-- A request that reaches the server. -/
def perform (plugin : Bool) (t : Topology) : SetupOp → Except Refusal Unit × Topology
  | .connect => (.ok (), t)
  | .createChannel => (.ok (), t)
  | .basicQos _ => (.ok (), t)
  | .exchangeDeclare name kind =>
      if kind = .delayedMessage ∧ plugin = false then (.error .commandInvalid, t)
      else
        match t.exchanges name with
        | some kind' => if kind' = kind then (.ok (), t) else (.error .preconditionFailed, t)
        | none => (.ok (), { t with exchanges := Function.update t.exchanges name (some kind) })
  | .queueDeclare name args =>
      match t.queues name with
      | some args' => if args' = args then (.ok (), t) else (.error .preconditionFailed, t)
      | none => (.ok (), { t with queues := Function.update t.queues name (some args) })
  | .queueBind b =>
      if (t.exchanges b.exchange).isSome ∧ (t.queues b.queue).isSome then (.ok (), t.bind b)
      else (.error .notFound, t)
  | .basicConsume queue =>
      if (t.queues queue).isSome then (.ok (), { t with consumers := t.consumers ++ [queue] })
      else (.error .notFound, t)

/-- Where a direct exchange, or the delayed one in the end, sends a text. -/
def route (t : Topology) (exchange routingKey : String) : List String :=
  (t.bindings.filter fun b => b.exchange = exchange ∧ b.routingKey = routingKey).map
    Binding.queue

/-- Where a text goes that is rejected from a queue. -/
def deadLetters (t : Topology) (queue : String) : List String :=
  match (t.queues queue).bind QueueArgs.deadLetter with
  | some (exchange, routingKey) => t.route exchange routingKey
  | none => []

end Topology

/-- What the outside decides: whether a request is lost, and whether its answer is. -/
structure SetupOracle where
  request : Option String
  answer : Option String

/-- The server, with the plugin or without. -/
def setupServer (plugin : Bool) : Service setup where
  State := Topology
  Oracle := SetupOracle
  respond o t op :=
    match o.request with
    | some reason => some (.error (.lost reason), t)
    | none =>
        match o.answer with
        | some reason => some (.error (.lost reason), (t.perform plugin op).2)
        | none => some (t.perform plugin op)

/-! ## The broker -/

/-- `AmqpConfig`, without the address. -/
structure AmqpConfig where
  exchange : String
  dlxExchange : String
  delayedExchange : String
  prefetchCount : UInt16
  maxPriority : UInt8

/-- Why `AmqpBroker::new` does not return a broker: a request failed, or the channel of
messages would have no room. -/
inductive SetupError where
  | refused (e : Refusal)
  | panicked
  deriving DecidableEq

/-- Requests, the first failure ending them. -/
abbrev Setup (α : Type) : Type := ExceptT SetupError (Prog setup) α

/-- A request whose failure is returned. -/
def request (op : SetupOp) : Setup Unit :=
  ExceptT.mk do
    let answer ← Prog.perform (I := setup) op
    pure (answer.mapError .refused)

/-- A request whose failure is ignored. -/
def ignored (op : SetupOp) : Setup Unit :=
  ExceptT.mk do
    let _ ← Prog.perform (I := setup) op
    pure (.ok ())

/-- The name of a queue on the server. -/
def queueName (name : String) : String := "kojin.queue." ++ name

namespace AmqpConfig

variable (config : AmqpConfig)

/-- The arguments of a main queue. -/
def queueArgs (name : String) : QueueArgs where
  deadLetter := some (config.dlxExchange, name)
  maxPriority := if config.maxPriority > 0 then some config.maxPriority.toUInt16 else none

/-- `declare_queue_pair`. -/
def declareQueuePair (name : String) : Setup Unit := do
  request (.queueDeclare (dlqName name) ⟨none, none⟩)
  request (.queueBind ⟨dlqName name, config.dlxExchange, name⟩)
  request (.queueDeclare (queueName name) (config.queueArgs name))
  request (.queueBind ⟨queueName name, config.exchange, name⟩)
  request .createChannel
  ignored (.queueBind ⟨queueName name, config.delayedExchange, name⟩)

/-- The probe of `declare_topology`, on a connection of its own. -/
def probe : Setup Unit :=
  ExceptT.mk do
    match ← Prog.perform (I := setup) .connect with
    | .error _ => pure (.ok ())
    | .ok () =>
        match ← Prog.perform (I := setup) .createChannel with
        | .error _ => pure (.ok ())
        | .ok () => (ignored (.exchangeDeclare config.delayedExchange .delayedMessage)).run

/-- The loop of `declare_topology` over the queues. -/
def declareQueuePairs : List String → Setup Unit
  | [] => pure ()
  | name :: names => do
      config.declareQueuePair name
      declareQueuePairs names

/-- `declare_topology`. -/
def declareTopology (queues : List String) : Setup Unit := do
  request (.exchangeDeclare config.exchange .direct)
  request (.exchangeDeclare config.dlxExchange .direct)
  config.probe
  config.declareQueuePairs queues

/-- `AmqpBroker::ensure_consumer`; what it returns is `consuming`. -/
def ensureConsumer (consuming : List String) (queue : String) : Setup (List String) :=
  if queue ∈ consuming then pure consuming
  else do
    request .createChannel
    request (.basicQos config.prefetchCount)
    request (.basicConsume (queueName queue))
    pure (consuming ++ [queue])

/-- The loop of `AmqpBroker::new` over the queues. -/
def ensureConsumers : List String → List String → Setup (List String)
  | consuming, [] => pure consuming
  | consuming, queue :: queues => do
      let consuming ← config.ensureConsumer consuming queue
      ensureConsumers consuming queues

/-- `AmqpBroker::new`, which returns what `list_queues` is to return.  A bounded channel
without room panics. -/
def new (queues : List String) : Setup (List String) := do
  request .connect
  request .createChannel
  request .createChannel
  config.declareTopology queues
  if config.prefetchCount.toNat * max queues.length 1 = 0 then throw .panicked
  config.ensureConsumers [] queues

end AmqpConfig

/-! ## Many brokers -/

/-- The exchanges that the brokers share. -/
structure Exchanges where
  exchange : String
  dlxExchange : String
  delayedExchange : String
  distinct : [exchange, dlxExchange, delayedExchange].Nodup

/-- A broker starts. -/
structure Startup where
  prefetchCount : UInt16
  maxPriority : UInt8
  queues : List String

/-- The configuration of a broker that starts. -/
def Exchanges.config (N : Exchanges) (x : Startup) : AmqpConfig where
  exchange := N.exchange
  dlxExchange := N.dlxExchange
  delayedExchange := N.delayedExchange
  prefetchCount := x.prefetchCount
  maxPriority := x.maxPriority

/-- Brokers start, in any number and at any time. -/
def setupMachine (N : Exchanges) (plugin : Bool) : Machine setup where
  toService := setupServer plugin
  Stimulus := Startup
  accept x t := some (t, [do
    let _ ← ((N.config x).new x.queues).run
    pure ()])

end Kojin.Amqp
