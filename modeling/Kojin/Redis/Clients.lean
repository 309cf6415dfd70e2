/-
  Redis/Clients.lean --- everybody who talks to the Redis of a deployment
  (`kojin-redis`: `broker.rs`, `result_backend.rs`).

  `Redis/Commands.lean` has the commands that the worker's calls send.  The rest of the
  two implementations reads: results are fetched and deleted, and queues are listed.
  Here are all the calls of both, as the programs of a pool: any number of brokers and
  backends with one prefix, whoever they belong to, in any order, with any delays and
  any losses.

      getResult     GET
      deleteResult  DEL
      listQueues    KEYS prefix:queue:*

  `Proper` says which commands they can come to send at all.

  The keys of the store are listed in whatever order the server has them; the oracle
  enumerates them.
-/
import Kojin.Foundation.Glob
import Kojin.Foundation.Observed
import Kojin.Redis.DlqPages
import Kojin.Redis.ResultBackend

set_option autoImplicit false

namespace Kojin.Redis

open Kojin.Foundation Kojin.Core

variable {σ : Type} [LinearOrder σ]

/-! ## Commands -/

/-- The bytes of a key. -/
def keyBytes (key : String) : List UInt8 := key.toByteArray.data.toList

variable (σ) in
/-- All the commands of the crate. -/
inductive ClientOp where
  | base (op : RedisOp σ)
  | get (key : String)
  | del (key : String)
  | keys (pattern : String)

/-- What a command answers when it succeeds. -/
abbrev ClientOp.Ans : ClientOp σ → Type
  | .base op => op.Ans
  | .get _ => Option String
  | .del _ => Unit
  | .keys _ => List String

variable (σ) in
/-- The interface of the server. -/
abbrev clientCommands : Interface := ⟨ClientOp σ, fun op => Except CommandError op.Ans⟩

/-- `GET key`. -/
def getText (r : Keyspace σ) (key : String) : Except CommandError (Option String) :=
  match r.get key with
  | none => .ok none
  | some (.text s) => .ok (some s)
  | some (.int n) => .ok (some (toString n))
  | some _ => .error wrongType

/-- The keys of an enumeration that have a value and match a pattern. -/
def matching (r : Keyspace σ) (pattern : String) (order : List String) : List String :=
  order.filter fun key => (r.live key).isSome && matchGlob (keyBytes pattern) (keyBytes key)

/-- What a command does, when the server enumerates its keys so. -/
def performClient (queueOf : String → Except CommandError String) (order : List String)
    (r : Keyspace σ) : (op : ClientOp σ) → Except CommandError op.Ans × Keyspace σ
  | .base op => perform queueOf r op
  | .get key => (getText r key, r)
  | .del key => (.ok (), r.remove key)
  | .keys pattern => (.ok (matching r pattern order), r)

/-- What the outside decides about a command. -/
structure ClientOracle extends Transit where
  order : List String

/-- A command that waits for an entry for ever. -/
def ClientOp.waits (r : Keyspace σ) : ClientOp σ → Bool
  | .base op => op.waits r
  | _ => false

/-- The server, for all its clients. -/
def clientServer (queueOf : String → Except CommandError String) :
    Service (clientCommands σ) where
  State := Keyspace σ
  Oracle := ClientOracle
  respond o r op :=
    if arrives o.failure && op.waits (r.advance o.elapsed) then none
    else some (carried o.failure (r.advance o.elapsed)
      (performClient queueOf o.order (r.advance o.elapsed) op))

/-- What the server answers: the command did not arrive, or it was carried out, and its
answer is heard or an error instead of it. -/
theorem clientServer_respond {queueOf : String → Except CommandError String} {o : ClientOracle}
    {r r' : Keyspace σ} {op : ClientOp σ} {answer : Except CommandError op.Ans}
    (h : (clientServer queueOf).respond o r op = some (answer, r')) :
    (r' = r.advance o.elapsed ∧ ∃ e, answer = .error e) ∨
      ∃ done, performClient queueOf o.order (r.advance o.elapsed) op = (done, r') ∧
        (answer = done ∨ ∃ e, answer = .error e) := by
  unfold clientServer at h
  dsimp only at h
  split at h
  · cases h
  rcases carried_cases (Option.some.inj h) with ⟨-, hdone⟩ | ⟨e, rfl, ⟨-, rfl⟩ | ⟨-, -, rfl⟩⟩
  · exact .inr ⟨answer, hdone, .inl rfl⟩
  · exact .inl ⟨rfl, e, rfl⟩
  · exact .inr ⟨_, rfl, .inr ⟨e, rfl⟩⟩

/-! ## Calls -/

variable (σ) in
/-- A call that may fail. -/
abbrev ClientAttempt (α : Type) : Type := ExceptT KojinError (Prog (clientCommands σ)) α

/-- A call of the broker or the backend. -/
def lift {α : Type} (p : Attempt σ α) : ClientAttempt σ α :=
  ExceptT.mk (p.run.interp fun op => Prog.perform (I := clientCommands σ) (.base op))

/-- One command, with its error turned into one of the crate's. -/
def clientCommand (err : CommandError → KojinError) (op : ClientOp σ) : ClientAttempt σ op.Ans :=
  ExceptT.mk do
    let answer ← Prog.perform (I := clientCommands σ) op
    pure (answer.mapError err)

/-- `k.strip_prefix(&prefix)`. -/
def stripPrefix? (lead key : String) : Option String :=
  if lead.toList <+: key.toList then some (String.ofList (key.toList.drop lead.toList.length))
  else none

/-- `RedisBroker::list_queues`. -/
def RedisBroker.listQueues (b : RedisBroker) : ClientAttempt σ (List String) := do
  clientCommand RedisBroker.brokerErr (.base .conn)
  let keys ← clientCommand RedisBroker.brokerErr (.keys (b.keys.keyPrefix ++ ":queue:*"))
  pure (keys.filterMap (stripPrefix? (b.keys.keyPrefix ++ ":queue:")))

namespace RedisResultBackend

/-- `RedisResultBackend::get`. -/
def get (b : RedisResultBackend) (decode : Decode) (id : TaskId) :
    ClientAttempt σ (Option Json) := do
  clientCommand backendErr (.base .conn)
  let result ← clientCommand backendErr (.get (b.keys.result id.toText))
  match result with
  | some s => do
      let v ← ExceptT.mk (pure ((decode s).mapError .serialization))
      pure (some v)
  | none => pure none

/-- `RedisResultBackend::delete`. -/
def delete (b : RedisResultBackend) (id : TaskId) : ClientAttempt σ Unit := do
  clientCommand backendErr (.base .conn)
  clientCommand backendErr (.del (b.keys.result id.toText))

end RedisResultBackend

/-! ## The deployment -/

/-- What the clients of a deployment share: the prefix, and how messages and results are
printed and read. -/
structure Deployment (σ : Type) where
  keys : KeyBuilder
  codec : RedisCodec σ
  decode : RedisResultBackend.Decode

/-- A call of some client.  Brokers differ in their worker and in the lifetime of dedup
keys, backends in the lifetime of results. -/
inductive ClientCall where
  | broker (workerId : String) (dedupTtl : Nat) (op : BrokerOp)
  | dequeue (workerId : String) (queues : List String) (timeout : Nat)
  | queueLen (queue : String)
  | dlqLen (queue : String)
  | dlqMessages (queue : String) (offset limit : UInt64)
  | listQueues
  | pollScheduled (now : Int)
  | backend (ttl : Nat) (op : ResultBackendOp)
  | getResult (id : TaskId)
  | deleteResult (id : TaskId)

/-- Make a call, whatever it returns. -/
def heedless {α : Type} (p : ClientAttempt σ α) : Prog (clientCommands σ) Unit := do
  let _ ← p.run
  pure ()

namespace Deployment

variable (D : Deployment σ)

/-- A broker of the deployment. -/
def broker (workerId : String) (dedupTtl : Nat) : RedisBroker := ⟨D.keys, workerId, dedupTtl⟩

/-- A backend of the deployment. -/
def backend (ttl : Nat) : RedisResultBackend := ⟨D.keys, ttl⟩

/-- The program of a call. -/
def program : ClientCall → Prog (clientCommands σ) Unit
  | .broker workerId dedupTtl op =>
      heedless (lift (ExceptT.mk ((D.broker workerId dedupTtl).driver D.codec op)))
  | .dequeue workerId queues timeout =>
      heedless (lift ((D.broker workerId 0).dequeue D.codec queues timeout))
  | .queueLen queue => heedless (lift ((D.broker "" 0).queueLen queue))
  | .dlqLen queue => heedless (lift ((D.broker "" 0).dlqLen queue))
  | .dlqMessages queue offset limit =>
      heedless (lift ((D.broker "" 0).dlqMessages D.codec queue offset limit))
  | .listQueues => heedless (D.broker "" 0).listQueues
  | .pollScheduled now => heedless (lift ((D.broker "" 0).pollScheduled D.codec now))
  | .backend ttl op => do
      let _ ← ((D.backend ttl).driver D.decode op).interp fun op =>
        Prog.perform (I := clientCommands σ) (.base op)
      pure ()
  | .getResult id => heedless ((D.backend 0).get D.decode id)
  | .deleteResult id => heedless ((D.backend 0).delete id)

/-- All the clients, on one server. -/
def machine (queueOf : String → Except CommandError String) : Machine (clientCommands σ) where
  toService := clientServer queueOf
  Stimulus := ClientCall
  accept call r := some (r, [D.program call])

/-! ## The commands they send -/

/-- The text of a message. -/
def IsMessage (text : String) : Prop := ∃ m : TaskMessage, text = m.encode D.codec.rfc3339

/-- The commands of the clients: each names the keys of one kind of object, and writes
what that object holds. -/
def Proper : ClientOp σ → Prop
  | .base .conn => True
  | .base (.setNxEx key value _) => value = .int 1 ∧ ∃ k, key = D.keys.dedup k
  | .base (.setEx key value _) =>
      (∃ (id : TaskId) (v : Json), key = D.keys.result id.toText ∧ value = .text v.print) ∨
        ∃ group, ∃ total : Nat, key = D.keys.groupTotal group ∧ value = .int total
  | .base (.lpush key item) => ∃ m : TaskMessage, item = m.encode D.codec.rfc3339 ∧
      (key = D.keys.queue m.queue ∨ key = D.keys.dlq m.queue)
  | .base (.lrange key _ _) => (∃ w, key = D.keys.processing w) ∨ (∃ q, key = D.keys.dlq q) ∨
      ∃ group, key = D.keys.groupResults group
  | .base (.lrem key _) => ∃ w, key = D.keys.processing w
  | .base (.blmove source target _) =>
      ∃ q w, source = D.keys.queue q ∧ target = D.keys.processing w
  | .base (.llen key) => ∃ q, key = D.keys.queue q ∨ key = D.keys.dlq q
  | .base (.zadd key _ member) => key = D.keys.scheduled ∧ D.IsMessage member
  | .base (.groupComplete completed results result) => ∃ (group : String) (v : Json),
      completed = D.keys.groupCompleted group ∧ results = D.keys.groupResults group ∧
        result = v.print
  | .base (.pollScheduled key _ keyPrefix) =>
      key = D.keys.scheduled ∧ keyPrefix = D.keys.scheduled.replace ":scheduled" ""
  | .get key => ∃ id : TaskId, key = D.keys.result id.toText
  | .del key => ∃ id : TaskId, key = D.keys.result id.toText
  | .keys pattern => pattern = D.keys.keyPrefix ++ ":queue:*"

section Calls

variable {D : Deployment σ} {α β : Type}

/-- What a call makes, one command after the other. -/
theorem calls_then {I : Interface} {C : I.Op → Prop} {p : ExceptT KojinError (Prog I) α}
    {f : α → ExceptT KojinError (Prog I) β} (hp : p.run.Calls C) (hf : ∀ a, (f a).run.Calls C) :
    (p >>= f).run.Calls C := by
  refine Prog.Calls.bind hp fun answer => ?_
  cases answer with
  | ok a => exact hf a
  | error e => trivial

/-- The commands of the two implementations, as commands of the clients. -/
def Sends (D : Deployment σ) (op : RedisOp σ) : Prop := D.Proper (.base op)

theorem sends_command {err : CommandError → KojinError} {op : RedisOp σ} (h : D.Sends op) :
    (command err op).run.Calls D.Sends := ⟨h, fun _ => trivial⟩

theorem sends_decoded {answer : Except KojinError α} :
    (decoded (σ := σ) answer).run.Calls D.Sends := trivial

theorem sends_claim (workerId : String) (ttl : Nat) (key : Option String) :
    ((D.broker workerId ttl).claim key).run.Calls D.Sends := by
  cases key with
  | none => trivial
  | some key =>
      refine ⟨⟨rfl, key, rfl⟩, fun answer => ?_⟩
      cases answer <;> trivial

theorem sends_enqueue (workerId : String) (ttl : Nat) (m : TaskMessage) :
    ((D.broker workerId ttl).enqueue D.codec m).run.Calls D.Sends := by
  refine calls_then (sends_command trivial) fun _ => ?_
  refine calls_then (sends_claim workerId ttl m.dedupKey) fun fresh => ?_
  cases fresh with
  | true => exact sends_command ⟨m, rfl, .inl rfl⟩
  | false => trivial

theorem sends_ack (workerId : String) (ttl : Nat) (id : TaskId) :
    ((D.broker workerId ttl).ack id).run.Calls D.Sends := by
  refine calls_then (sends_command trivial) fun _ => ?_
  refine calls_then (sends_command (.inl ⟨workerId, rfl⟩)) fun items => ?_
  split
  · exact sends_command ⟨workerId, rfl⟩
  · trivial

theorem sends_dequeueFrom (workerId : String) (ttl timeout : Nat) (queues : List String) :
    ((D.broker workerId ttl).dequeueFrom D.codec timeout queues).run.Calls D.Sends := by
  induction queues with
  | nil => trivial
  | cons name names ih =>
      refine calls_then (sends_command ⟨name, workerId, rfl, rfl⟩) fun entry => ?_
      cases entry with
      | none => exact ih
      | some data => exact calls_then sends_decoded fun _ => trivial

theorem sends_driver (workerId : String) (ttl : Nat) (op : BrokerOp) :
    ((D.broker workerId ttl).driver D.codec op).Calls D.Sends := by
  cases op with
  | enqueue m => exact sends_enqueue workerId ttl m
  | ack id => exact sends_ack workerId ttl id
  | nack m => exact calls_then (sends_ack workerId ttl m.id) fun _ => sends_enqueue workerId ttl m
  | deadLetter m =>
      refine calls_then (sends_command trivial) fun _ => ?_
      refine calls_then (sends_ack workerId ttl m.id) fun _ => ?_
      exact sends_command ⟨m, rfl, .inr rfl⟩
  | schedule m eta =>
      refine calls_then (sends_command trivial) fun _ => ?_
      exact sends_command ⟨rfl, m, rfl⟩

theorem sends_dlqMessages (queue : String) (offset limit : UInt64) :
    ((D.broker "" 0).dlqMessages D.codec queue offset limit).run.Calls D.Sends := by
  refine calls_then (sends_command trivial) fun _ => ?_
  split
  · trivial
  · refine calls_then (sends_command (.inr (.inl ⟨queue, rfl⟩))) fun _ => ?_
    exact sends_decoded

theorem sends_backend (ttl : Nat) (op : ResultBackendOp) :
    ((D.backend ttl).driver D.decode op).Calls D.Sends := by
  cases op with
  | store id v =>
      exact calls_then (sends_command trivial) fun _ => sends_command (.inl ⟨id, v, rfl, rfl⟩)
  | initGroup group total =>
      exact calls_then (sends_command trivial) fun _ =>
        sends_command (.inr ⟨group, total.toNat, rfl, rfl⟩)
  | completeGroupMember group task v =>
      refine calls_then (sends_command trivial) fun _ => ?_
      exact calls_then (sends_command ⟨group, v, rfl, rfl, rfl⟩) fun _ => trivial
  | getGroupResults group =>
      refine calls_then (sends_command trivial) fun _ => ?_
      exact calls_then (sends_command (.inr (.inr ⟨group, rfl⟩))) fun _ => sends_decoded

/-- What is sent, lifted to the interface of all the clients. -/
theorem proper_lifted {p : Prog (commands σ) α} (h : p.Calls D.Sends) :
    (p.interp fun op => Prog.perform (I := clientCommands σ) (.base op)).Calls D.Proper := by
  refine h.interp fun op hop => ?_
  exact ⟨hop, fun _ => trivial⟩

theorem proper_heedless {p : ClientAttempt σ α} (h : p.run.Calls D.Proper) :
    (heedless p).Calls D.Proper := h.bind fun _ => trivial

theorem proper_clientCommand {err : CommandError → KojinError} {op : ClientOp σ}
    (h : D.Proper op) : (clientCommand err op).run.Calls D.Proper := ⟨h, fun _ => trivial⟩

theorem proper_get (id : TaskId) : ((D.backend 0).get D.decode id).run.Calls D.Proper := by
  refine calls_then (proper_clientCommand trivial) fun _ => ?_
  refine calls_then (proper_clientCommand ⟨id, rfl⟩) fun result => ?_
  cases result with
  | none => trivial
  | some s => exact calls_then trivial fun _ => trivial

/-- The clients send no other commands. -/
theorem proper_program (call : ClientCall) : (D.program call).Calls D.Proper := by
  cases call with
  | broker workerId ttl op => exact proper_heedless (proper_lifted (sends_driver workerId ttl op))
  | dequeue workerId queues timeout =>
      refine proper_heedless (proper_lifted (calls_then (sends_command trivial) fun _ => ?_))
      exact sends_dequeueFrom workerId 0 timeout queues
  | queueLen queue =>
      exact proper_heedless (proper_lifted (calls_then (sends_command trivial) fun _ =>
        sends_command ⟨queue, .inl rfl⟩))
  | dlqLen queue =>
      exact proper_heedless (proper_lifted (calls_then (sends_command trivial) fun _ =>
        sends_command ⟨queue, .inr rfl⟩))
  | dlqMessages queue offset limit =>
      exact proper_heedless (proper_lifted (sends_dlqMessages queue offset limit))
  | listQueues =>
      refine proper_heedless (calls_then (proper_clientCommand trivial) fun _ => ?_)
      exact calls_then (proper_clientCommand rfl) fun _ => trivial
  | pollScheduled now =>
      exact proper_heedless (proper_lifted (calls_then (sends_command trivial) fun _ =>
        sends_command ⟨rfl, rfl⟩))
  | backend ttl op => exact (proper_lifted (sends_backend ttl op)).bind fun _ => trivial
  | getResult id => exact proper_heedless (proper_get id)
  | deleteResult id =>
      exact proper_heedless (calls_then (proper_clientCommand trivial) fun _ =>
        proper_clientCommand ⟨id, rfl⟩)

/-- Every program that is started is one of theirs. -/
theorem proper_entry {queueOf : String → Except CommandError String}
    (call : (D.machine queueOf).Stimulus) (r r' : Keyspace σ)
    (new : List (Prog (clientCommands σ) Unit))
    (h : (D.machine queueOf).accept call r = some (r', new)) : ∀ p ∈ new, p.Calls D.Proper := by
  cases h
  intro p hp
  rw [List.mem_singleton.mp hp]
  exact proper_program call

end Calls

end Deployment

end Kojin.Redis
