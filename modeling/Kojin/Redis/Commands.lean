/-
  Redis/Commands.lean --- the Redis commands the crate sends (`kojin-redis`:
  `scripts.rs`, and the command calls of `broker.rs` and `result_backend.rs`).

  A command is answered by the server in one piece, so it is the unit of
  interleaving; so is a script.  A script that fails half way keeps what it has
  done: scripts are not rolled back.  A connection may break before a command
  arrives, or after it was carried out; the caller gets an error either way.

  BLMOVE waits for an entry as long as its timeout says, and with timeout 0 for
  ever.

  `pollScheduledScript` reads the queue of a scheduled member out of its text.
  What the server's JSON library and the string concatenation of the script make
  of a text is the parameter `queueOf`.
-/
import Kojin.Core.Basic
import Kojin.Foundation.Keyspace
import Kojin.Foundation.Loss
import Kojin.Foundation.Machine

set_option autoImplicit false

namespace Kojin.Redis

open Kojin.Foundation Kojin.Core

variable {σ : Type} [LinearOrder σ]

/-! ## Scripts -/

/-- `GROUP_COMPLETE_SCRIPT`: count a completion and push its result. -/
def groupCompleteScript (completedKey resultsKey result : String) (r : Keyspace σ) :
    Except CommandError Int × Keyspace σ :=
  match r.incr completedKey with
  | .error e => (.error e, r)
  | .ok (count, r') =>
      match r'.rpush resultsKey result with
      | .error e => (.error e, r')
      | .ok r'' => (.ok count, r'')

/-- What the script does when it succeeds. -/
theorem groupCompleteScript_cases {completedKey resultsKey result : String} {r r' : Keyspace σ}
    {count : Int} (h : groupCompleteScript completedKey resultsKey result r = (.ok count, r')) :
    ∃ items, r' = (r.write completedKey (.int count)).writeList resultsKey (items ++ [result]) ∧
      (r.write completedKey (.int count)).list? resultsKey = .ok items ∧
      ((r.get completedKey = none ∧ count = 1) ∨
        ∃ n, r.get completedKey = some (.int n) ∧ count = n + 1) := by
  unfold groupCompleteScript at h
  split at h
  · cases h
  · rename_i n r₁ hincr
    obtain ⟨rfl, hn⟩ := Keyspace.incr_cases hincr
    split at h
    · cases h
    · rename_i r₂ hpush
      obtain ⟨items, hitems, rfl⟩ := Keyspace.rpush_cases hpush
      cases h
      exact ⟨items, rfl, hitems, hn⟩

/-- The loop of `POLL_SCHEDULED_SCRIPT`: push every item to the list of its
queue. -/
def pushDue (queueOf : String → Except CommandError String) (keyPrefix : String) :
    List String → Keyspace σ → Except CommandError Unit × Keyspace σ
  | [], r => (.ok (), r)
  | item :: items, r =>
      match queueOf item with
      | .error e => (.error e, r)
      | .ok queue =>
          match r.lpush (keyPrefix ++ ":queue:" ++ queue) item with
          | .error e => (.error e, r)
          | .ok r' => pushDue queueOf keyPrefix items r'

/-- `POLL_SCHEDULED_SCRIPT`: the first hundred due members are pushed, then all
due members are removed. -/
def pollScheduledScript (queueOf : String → Except CommandError String) (scheduledKey : String)
    (now : σ) (keyPrefix : String) (r : Keyspace σ) : Except CommandError Nat × Keyspace σ :=
  match r.zset? scheduledKey with
  | .error e => (.error e, r)
  | .ok set =>
      let items := set.rangeByScore now 100
      if items = [] then (.ok 0, r)
      else
        match pushDue queueOf keyPrefix items r with
        | (.error e, r') => (.error e, r')
        | (.ok _, r') =>
            match r'.zset? scheduledKey with
            | .error e => (.error e, r')
            | .ok set' => (.ok items.length, r'.writeZset scheduledKey (set'.removeByScore now))

/-! ## Commands -/

/-- The commands.  `conn` takes a connection from the pool. -/
inductive RedisOp (σ : Type) [LinearOrder σ] where
  | conn
  | setNxEx (key : String) (value : Value σ) (secs : Nat)
  | setEx (key : String) (value : Value σ) (secs : Nat)
  | lpush (key item : String)
  | lrange (key : String) (start stop : Int)
  | lrem (key item : String)
  | blmove (source target : String) (timeout : Nat)
  | llen (key : String)
  | zadd (key : String) (score : σ) (member : String)
  | groupComplete (completedKey resultsKey result : String)
  | pollScheduled (scheduledKey : String) (now : σ) (keyPrefix : String)

/-- What a command answers when it succeeds. -/
abbrev RedisOp.Ans : RedisOp σ → Type
  | .conn => Unit
  | .setNxEx _ _ _ => Bool
  | .setEx _ _ _ => Unit
  | .lpush _ _ => Unit
  | .lrange _ _ _ => List String
  | .lrem _ _ => Unit
  | .blmove _ _ _ => Option String
  | .llen _ => Nat
  | .zadd _ _ _ => Unit
  | .groupComplete _ _ _ => Int
  | .pollScheduled _ _ _ => Nat

/-- The interface of the server. -/
abbrev commands (σ : Type) [LinearOrder σ] : Interface :=
  ⟨RedisOp σ, fun op => Except CommandError op.Ans⟩

/-- A command that fails changes nothing. -/
def commit {α : Type} (r : Keyspace σ) :
    Except CommandError (α × Keyspace σ) → Except CommandError α × Keyspace σ
  | .ok (a, r') => (.ok a, r')
  | .error e => (.error e, r)

/-- What a command does. -/
def perform (queueOf : String → Except CommandError String) (r : Keyspace σ) :
    (op : RedisOp σ) → Except CommandError op.Ans × Keyspace σ
  | .conn => (.ok (), r)
  | .setNxEx key value secs => commit r (r.setNxEx key value secs)
  | .setEx key value secs => commit r ((r.setEx key value secs).map ((), ·))
  | .lpush key item => commit r ((r.lpush key item).map ((), ·))
  | .lrange key start stop => (r.lrange key start stop, r)
  | .lrem key item => commit r ((r.lrem key item).map ((), ·))
  | .blmove source target _ => commit r (r.lmove source target)
  | .llen key => (r.llen key, r)
  | .zadd key score member => commit r ((r.zadd key score member).map ((), ·))
  | .groupComplete completedKey resultsKey result =>
      groupCompleteScript completedKey resultsKey result r
  | .pollScheduled scheduledKey now keyPrefix =>
      pollScheduledScript queueOf scheduledKey now keyPrefix r

/-- A BLMOVE without a time limit waits as long as its source has no entry. -/
def RedisOp.waits (r : Keyspace σ) : RedisOp σ → Bool
  | .blmove source _ timeout => timeout = 0 && (match r.list? source with
      | .ok [] => true
      | _ => false)
  | _ => false

/-- What the outside decides about a command: how long it takes until the server
answers, in milliseconds, and what is lost of it. -/
structure Transit where
  elapsed : Nat
  failure : Option (Loss CommandError)

/-- The server.  A command that waits for ever is not answered. -/
def server (queueOf : String → Except CommandError String) : Service (commands σ) where
  State := Keyspace σ
  Oracle := Transit
  respond o r op :=
    if arrives o.failure && op.waits (r.advance o.elapsed) then none
    else some (carried o.failure (r.advance o.elapsed) (perform queueOf (r.advance o.elapsed) op))

/-- The server as long as no command fails: one that would fail is not answered. -/
def steadyServer (queueOf : String → Except CommandError String) : Service (commands σ) where
  State := Keyspace σ
  Oracle := Nat
  respond elapsed r op :=
    match (server queueOf).respond ⟨elapsed, none⟩ r op with
    | some (.ok a, r') => some (.ok a, r')
    | _ => none

/-- A command that does not wait, and of which nothing is lost, is answered. -/
theorem server_respond_of {queueOf : String → Except CommandError String} {o : Transit}
    {r : Keyspace σ} {op : RedisOp σ} (ho : o.failure = none)
    (hop : op.waits (r.advance o.elapsed) = false) :
    (server queueOf).respond o r op = some (perform queueOf (r.advance o.elapsed) op) := by
  simp [server, ho, hop]

/-- An answer is that of the command, unless some of it was lost. -/
theorem server_some {queueOf : String → Except CommandError String} {o : Transit}
    {r : Keyspace σ} {op : RedisOp σ} {p : Except CommandError op.Ans × Keyspace σ}
    (h : (server queueOf).respond o r op = some p) :
    (arrives o.failure = true → op.waits (r.advance o.elapsed) = false) ∧
      carried o.failure (r.advance o.elapsed) (perform queueOf (r.advance o.elapsed) op) = p := by
  unfold server at h
  dsimp only at h
  split at h
  · cases h
  · rename_i hwaits
    refine ⟨fun harrives => ?_, Option.some.inj h⟩
    simpa [harrives] using hwaits

/-- What it answers is what the command does. -/
theorem steadyServer_respond {queueOf : String → Except CommandError String} {elapsed : Nat}
    {r : Keyspace σ} {op : RedisOp σ} {p : Except CommandError op.Ans × Keyspace σ}
    (h : (steadyServer queueOf).respond elapsed r op = some p) :
    ∃ a r', perform queueOf (r.advance elapsed) op = (.ok a, r') ∧ p = (.ok a, r') := by
  unfold steadyServer at h
  dsimp only at h
  split at h
  · rename_i a r' hrespond
    exact ⟨a, r', (server_some hrespond).2, (Option.some.inj h).symm⟩
  · cases h

/-- A command that does not wait is answered with what it does. -/
theorem steadyServer_respond_of {queueOf : String → Except CommandError String} {elapsed : Nat}
    {r r' : Keyspace σ} {op : RedisOp σ} {a : op.Ans}
    (hop : op.waits (r.advance elapsed) = false)
    (h : perform queueOf (r.advance elapsed) op = (.ok a, r')) :
    (steadyServer queueOf).respond elapsed r op = some (.ok a, r') := by
  have hrespond : (server queueOf).respond ⟨elapsed, none⟩ r op = some (.ok a, r') :=
    (server_respond_of (o := ⟨elapsed, none⟩) rfl hop).trans (congrArg some h)
  unfold steadyServer
  dsimp only
  rw [hrespond]

/-! ## Calls -/

/-- A call that may fail, as the source writes it with `?`. -/
abbrev Attempt (σ : Type) [LinearOrder σ] (α : Type) : Type :=
  ExceptT KojinError (Prog (commands σ)) α

/-- One command, with its error turned into one of the crate's. -/
def command (err : CommandError → KojinError) (op : RedisOp σ) : Attempt σ op.Ans :=
  ExceptT.mk do
    let answer ← Prog.perform (I := commands σ) op
    pure (answer.mapError err)

/-- An answer that was computed without Redis. -/
def decoded {α : Type} (answer : Except KojinError α) : Attempt σ α := ExceptT.mk (pure answer)

section Eval

variable {α : Type} {queueOf : String → Except CommandError String} {dt : Nat}
  {r : Keyspace σ} {err : CommandError → KojinError} {op : RedisOp σ} {f : op.Ans → Attempt σ α}

/-- On a steady server a command answers what it does, and the call goes on. -/
theorem eval_bind_cases {out : TaskResult α × Keyspace σ}
    (h : (steadyServer queueOf).eval dt (command err op >>= f).run r = some out) :
    ∃ a r', perform queueOf (r.advance dt) op = (.ok a, r') ∧
      (steadyServer queueOf).eval dt (f a).run r' = some out := by
  obtain ⟨p, hp, hrest⟩ := Option.bind_eq_some_iff.mp
    (show ((steadyServer queueOf).respond dt r op).bind _ = some out from h)
  obtain ⟨a, r', hperform, rfl⟩ := steadyServer_respond hp
  exact ⟨a, r', hperform, hrest⟩

/-- On a steady server the last command of a call answers what it does. -/
theorem eval_command_cases {out : TaskResult op.Ans × Keyspace σ}
    (h : (steadyServer queueOf).eval dt (command err op).run r = some out) :
    ∃ a r', perform queueOf (r.advance dt) op = (.ok a, r') ∧ out = (.ok a, r') := by
  obtain ⟨p, hp, hrest⟩ := Option.bind_eq_some_iff.mp
    (show ((steadyServer queueOf).respond dt r op).bind _ = some out from h)
  obtain ⟨a, r', hperform, rfl⟩ := steadyServer_respond hp
  exact ⟨a, r', hperform, (Option.some.inj hrest).symm⟩

/-- A command that does not wait and does not fail is answered, and the call goes on. -/
theorem eval_bind_of {r' : Keyspace σ} (a : op.Ans) {out : TaskResult α × Keyspace σ}
    (hop : op.waits (r.advance dt) = false)
    (hperform : perform queueOf (r.advance dt) op = (.ok a, r'))
    (hrest : (steadyServer queueOf).eval dt (f a).run r' = some out) :
    (steadyServer queueOf).eval dt (command err op >>= f).run r = some out := by
  show ((steadyServer queueOf).respond dt r op).bind _ = some out
  rw [steadyServer_respond_of hop hperform]
  exact hrest

/-- The last command of a call, if it does not wait and does not fail, is answered. -/
theorem eval_command_of (op : RedisOp σ) {r' : Keyspace σ} (a : op.Ans)
    (hop : op.waits (r.advance dt) = false)
    (hperform : perform queueOf (r.advance dt) op = (.ok a, r')) :
    (steadyServer queueOf).eval dt (command err op).run r = some (.ok a, r') := by
  show ((steadyServer queueOf).respond dt r op).bind _ = _
  rw [steadyServer_respond_of hop hperform]
  rfl

end Eval

end Kojin.Redis
