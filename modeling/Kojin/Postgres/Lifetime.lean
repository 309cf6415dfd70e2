/-
  Postgres/Lifetime.lean --- how long a result can be read from PostgreSQL
  (`kojin-postgres`: `result_backend.rs`).

  `store` reads the clock of the client, adds the lifetime, and writes the result with the
  time it is good until; the server compares that time with its own clock when the result is
  read.  In between, other clients store, read and delete, statements and their answers are
  lost, and any time passes.

      call of store        start
      clock of the client  somewhere within the skew of the server's
      upsert               written; good until  clock + ttl
      SELECT               found, if  NOW() < until

  So a result can be read for its lifetime from the call on, less the skew, and not longer
  than its lifetime after it was written, and the skew.  A lifetime is what `as i64` makes of
  its seconds, so from 2 ^ 63 seconds on it is negative; where the time it is good until cannot
  be told, `store` panics and writes nothing.  That PostgreSQL keeps microseconds and no finer
  time is part of the skew.
-/
import Kojin.Foundation.Expiring
import Kojin.Foundation.Growing
import Kojin.Foundation.Polling
import Kojin.Postgres.ResultBackend

set_option autoImplicit false

namespace Kojin.Postgres

open Kojin.Foundation Kojin.Core

/-! ## Clients -/

/-- The statements of the backend, those on results included. -/
inductive ClientStatement where
  | base (s : Statement)
  | selectResult (task : String)
  | deleteResult (task : String)

/-- What they return. -/
abbrev ClientStatement.Res : ClientStatement → Type
  | .base s => s.Res
  | .selectResult _ => Except SqlError (Option Json)
  | .deleteResult _ => Except SqlError Unit

/-- The interface of all the clients. -/
abbrev clientStatements : Interface := ⟨ClientStatement, ClientStatement.Res⟩

namespace PostgresResultBackend

/-- `PostgresResultBackend::get`. -/
def get (id : TaskId) : Prog clientStatements (TaskResult (Option Json)) := do
  let row ← Prog.perform (I := clientStatements) (.selectResult id.toText)
  pure (row.mapError backendErr)

/-- `PostgresResultBackend::delete`. -/
def delete (id : TaskId) : Prog clientStatements (TaskResult Unit) := do
  let answer ← Prog.perform (I := clientStatements) (.deleteResult id.toText)
  pure (answer.mapError backendErr)

/-- `Duration::from_millis(100)`, in nanoseconds. -/
def interval : Nat := 100000000

/-- `PostgresResultBackend::wait`, for as many rounds as the timeout leaves time for. -/
def wait (id : TaskId) (timeout : Nat) :
    Prog (timed clientStatements) (Option (Outcome KojinError Json)) :=
  poll (get id) interval timeout ((timeout + interval - 1) / interval + 1)

variable {id : TaskId}

/-- A `get` is one `SELECT`. -/
theorem trace_get {part : List (Event clientStatements)} {answer : TaskResult (Option Json)}
    (h : (get id).Trace part answer) :
    ∃ row, part = [⟨.selectResult id.toText, row⟩] ∧ answer = row.mapError backendErr := by
  obtain ⟨row, rest, rfl, hrest⟩ := Prog.trace_call_iff.mp
    (show (Prog.call (I := clientStatements) (.selectResult id.toText) _).Trace part answer from h)
  obtain ⟨rfl, rfl⟩ := Prog.trace_ret_iff.mp hrest
  exact ⟨row, rfl, rfl⟩

/-- What a `wait` does as long as nothing comes of it: its `SELECT` finds nothing, the deadline
is not reached, it sleeps. -/
def Vain (id : TaskId) (deadline : Nat) (e : Event (timed clientStatements)) : Prop :=
  e = ⟨.base (.selectResult id.toText), .ok none⟩ ∨
    (∃ now, now < deadline ∧ e = ⟨.instant, now⟩) ∨ e = ⟨.sleep interval, ()⟩

/-- How a `wait` may end, by what it did since the deadline was set. -/
def EndsRightly (id : TaskId) (deadline : Nat) (tr : List (Event (timed clientStatements)))
    (outcome : Outcome KojinError Json) : Prop :=
  ∃ before last, tr = before ++ last ∧ (∀ e ∈ before, Vain id deadline e) ∧
    match outcome with
    | .found v => last = [⟨.base (.selectResult id.toText), .ok (some v)⟩]
    | .failed e => ∃ e', last = [⟨.base (.selectResult id.toText), .error e'⟩] ∧ e = backendErr e'
    | .timedOut => ∃ now, last = [⟨.base (.selectResult id.toText), .ok none⟩, ⟨.instant, now⟩] ∧
        deadline ≤ now

/-- Rounds that find nothing are in vain. -/
theorem vain_of_fruitless {deadline : Nat} {tr : List (Event (timed clientStatements))}
    (h : Fruitless (get id) interval deadline tr) : ∀ e ∈ tr, Vain id deadline e := by
  induction h with
  | nil => exact fun _ he => (List.not_mem_nil he).elim
  | round hpart hnow _ ih =>
      obtain ⟨row, rfl, hrow⟩ := trace_get hpart
      rcases row with e | v <;> cases hrow
      intro e he
      rcases List.mem_append.mp he with he | he
      · simp only [Prog.timedEvent, List.map_cons, List.map_nil, List.mem_append,
          List.mem_cons, List.not_mem_nil, or_false] at he
        rcases he with rfl | rfl | rfl
        · exact .inl rfl
        · exact .inr (.inl ⟨_, hnow, rfl⟩)
        · exact .inr (.inr rfl)
      · exact ih e he

theorem endsRightly_of_closes {deadline : Nat} {tr : List (Event (timed clientStatements))}
    {outcome : Outcome KojinError Json} (h : Closes (get id) interval deadline tr outcome) :
    EndsRightly id deadline tr outcome := by
  cases h with
  | found hbefore hpart =>
      obtain ⟨row, rfl, hrow⟩ := trace_get hpart
      rcases row with e | v <;> cases hrow
      exact ⟨_, _, rfl, vain_of_fruitless hbefore, rfl⟩
  | failed hbefore hpart =>
      obtain ⟨row, rfl, hrow⟩ := trace_get hpart
      rcases row with e | v <;> cases hrow
      exact ⟨_, _, rfl, vain_of_fruitless hbefore, e, rfl, rfl⟩
  | timedOut hbefore hpart hnow =>
      obtain ⟨row, rfl, hrow⟩ := trace_get hpart
      rcases row with e | v <;> cases hrow
      exact ⟨_, _, List.append_assoc _ _ _, vain_of_fruitless hbefore, _, rfl, hnow⟩

/-- `wait` ends, whatever the server answers: with what its last `SELECT` found, with its
first failure, or, when the timeout is over, after a last `SELECT` that found nothing; before
that nothing failed and nothing was found. -/
theorem wait_spec {timeout now : Nat} {tr : List (Event (timed clientStatements))}
    {out : Option (Outcome KojinError Json)} (htimely : Timely now tr)
    (h : (wait id timeout).Trace tr out) :
    ∃ outcome start rest, out = some outcome ∧ tr = ⟨.instant, start⟩ :: rest ∧
      EndsRightly id (start + timeout) rest outcome ∧
      rest.countP slept ≤ (timeout + interval - 1) / interval := by
  obtain ⟨outcome, start, rest, hout, htr, hcloses, hcount⟩ :=
    poll_spec (show 0 < interval by decide) (Nat.lt_succ_self _) htimely h
  exact ⟨outcome, start, rest, hout, htr, endsRightly_of_closes hcloses, hcount⟩

end PostgresResultBackend

/-- A call of `store`, with the lifetime of its backend and when it was made. -/
structure StoreCall where
  id : TaskId
  result : Json
  ttl : UInt64
  start : Int

/-- A change to a row, and when it was made. -/
structure Written where
  write : Write String Json Int
  time : Int

/-- The database and its clock; beside them the calls of `store` and the changes there
were. -/
structure PgWorld where
  tables : PgTables
  clock : Int
  calls : List StoreCall
  past : List Written

/-- What the outside decides: how much time passes, how far the clock of the client is from
the server's, and what is lost of a statement. -/
structure PgClientOracle where
  elapsed : Nat
  skew : Int
  failure : Option (Loss SqlError)

namespace PgTables

/-- `SELECT result FROM kojin_results WHERE task_id = $1 AND (expires_at IS NULL OR
expires_at > NOW())`. -/
def selectResult (s : PgTables) (task : String) (now : Int) : Option Json :=
  match s.results.lookup task with
  | some (result, expiresAt) => if now < expiresAt.nanos then some result else none
  | none => none

/-- `DELETE FROM kojin_results WHERE task_id = $1`. -/
def deleteResult (s : PgTables) (task : String) : PgTables :=
  { s with results := s.results.erase task }

end PgTables

namespace PgWorld

/-- Time passes. -/
def tick (s : PgWorld) (elapsed : Nat) : PgWorld := { s with clock := s.clock + elapsed }

/-- What a statement of the backend writes into `kojin_results` when it is carried out. -/
def written (types : PgTypes) (time : Int) : Statement → List Written
  | .upsertResult task result expiresAt =>
      match types.resultRow task result expiresAt with
      | .ok stored => [⟨⟨task, .put stored (some expiresAt.nanos)⟩, time⟩]
      | .error _ => []
  | _ => []

/-- A statement, carried out. -/
def perform (types : PgTypes) (o : PgClientOracle) (s : PgWorld) :
    (op : ClientStatement) → Option (op.Res × PgWorld)
  | .base op =>
      ((server types).respond ⟨⟨s.clock + o.skew⟩, o.failure⟩ s.tables op).map fun p =>
        (p.1, { s with
          tables := p.2
          past := s.past ++ if arrives o.failure then written types s.clock op else [] })
  | .selectResult task =>
      some (carried o.failure s (settle s
        ((bindText task).map fun _ => (s.tables.selectResult task s.clock, s))))
  | .deleteResult task =>
      some (carried o.failure s (settle s ((bindText task).map fun _ => ((), { s with
        tables := s.tables.deleteResult task
        past := s.past ++ [⟨⟨task, .drop⟩, s.clock⟩] }))))

/-- The server, whose clients' clocks are within the skew of its own. -/
def service (types : PgTypes) (skew : Nat) : Service clientStatements where
  State := PgWorld
  Oracle := PgClientOracle
  respond o s op := if o.skew.natAbs ≤ skew then perform types o (s.tick o.elapsed) op else none

end PgWorld

/-- A call of some client; backends differ in the lifetime of results. -/
inductive PgCall where
  | backend (ttl : UInt64) (op : ResultBackendOp)
  | get (id : TaskId)
  | delete (id : TaskId)

/-- A statement of the backend is one of the clients. -/
def liftStatement (op : Statement) : Prog clientStatements op.Res :=
  Prog.perform (I := clientStatements) (.base op)

namespace PgCall

/-- The program of a call. -/
def program : PgCall → Prog clientStatements Unit
  | .backend ttl op => do
      let _ ← ((PostgresResultBackend.mk ttl).driver op).interp liftStatement
      pure ()
  | .get id => do
      let _ ← PostgresResultBackend.get id
      pure ()
  | .delete id => do
      let _ ← PostgresResultBackend.delete id
      pure ()

/-- What is remembered of a call. -/
def noted (start : Int) : PgCall → List StoreCall
  | .backend ttl (.store id result) => [⟨id, result, ttl, start⟩]
  | _ => []

end PgCall

/-- Clients call, in any number and at any time. -/
def clients (types : PgTypes) (skew : Nat) : Machine clientStatements where
  toService := PgWorld.service types skew
  Stimulus := PgCall
  accept call s := some ({ s with calls := s.calls ++ call.noted s.clock }, [call.program])

namespace PgWorld

/-! ## What is kept -/

/-- Time goes on, and no call is forgotten. -/
def Later (s s' : PgWorld) : Prop := s.clock ≤ s'.clock ∧ s.calls ⊆ s'.calls

theorem Later.refl (s : PgWorld) : Later s s := ⟨Int.le_refl _, fun _ h => h⟩

theorem Later.trans {s₁ s₂ s₃ : PgWorld} (h : Later s₁ s₂) (h' : Later s₂ s₃) : Later s₁ s₃ :=
  ⟨h.1.trans h'.1, fun _ hc => h'.2 (h.2 hc)⟩

/-- A row that a change leaves. -/
def rowOf : Change Json Int → Option (Json × DateTime)
  | .put result (some t) => some (result, ⟨t⟩)
  | _ => none

/-- The changes there were. -/
def writes (s : PgWorld) : List (Write String Json Int) := s.past.map Written.write

end PgWorld

/-- The lifetime of a result, in nanoseconds. -/
def StoreCall.lifetime (call : StoreCall) : Int :=
  (PostgresResultBackend.mk call.ttl).ttlSecs * 1000000000

/-- A call may write into the row of this task at this time, good until then. -/
structure StoreCall.Writes (call : StoreCall) (skew : Nat) (task : String) (time t : Int) :
    Prop where
  task : call.id.toText = task
  start : call.start ≤ time
  least : call.start + call.lifetime ≤ t + skew
  most : t ≤ time + call.lifetime + skew

namespace PgWorld

variable {types : PgTypes} {skew : Nat} {s s' : PgWorld} {o : PgClientOracle}

/-- A value that a call of `store` wrote, good until then. -/
structure Justified (types : PgTypes) (skew : Nat) (s : PgWorld) (w : Written) (v : Json)
    (call : StoreCall) (t : Int) : Prop where
  called : call ∈ s.calls
  stored : types.jsonb call.result = .ok v
  writes : call.Writes skew w.write.key w.time t

/-- Rows are what the last change left, and every result that was written was given to
`store`, with a time that its call allows. -/
structure Kept (types : PgTypes) (skew : Nat) (s : PgWorld) : Prop where
  rows : ∀ task, s.tables.results.lookup task = (lastChange s.writes task).bind rowOf
  justified : ∀ w ∈ s.past, ∀ v until?, w.write.change = .put v until? →
    ∃ call t, until? = some t ∧ Justified types skew s w v call t
  times : ∀ w ∈ s.past, w.time ≤ s.clock

/-- Results are written as a call allows. -/
def Allowed (skew : Nat) (s : PgWorld) : ClientStatement → Prop
  | .base (.upsertResult task result expiresAt) =>
      ∃ call ∈ s.calls, call.result = result ∧ call.Writes skew task s.clock expiresAt.nanos
  | _ => True

theorem Kept.later (h : Kept types skew s) (hclock : s.clock ≤ s'.clock)
    (hcalls : s.calls ⊆ s'.calls) (htables : s'.tables.results = s.tables.results)
    (hpast : s'.past = s.past) : Kept types skew s' where
  rows task := by
    rw [htables, h.rows, writes, writes, hpast]
  justified w hw v until? hput := by
    obtain ⟨call, t, huntil, hjust⟩ := h.justified w (hpast ▸ hw) v until? hput
    exact ⟨call, t, huntil, { hjust with called := hcalls hjust.called }⟩
  times w hw := (h.times w (hpast ▸ hw)).trans hclock

/-- A change to a row. -/
theorem Kept.write (h : Kept types skew s) {w : Written}
    (htime : w.time = s.clock) (hcalls : s'.calls = s.calls) (hclock : s'.clock = s.clock)
    (hpast : s'.past = s.past ++ [w])
    (hrows : ∀ task, s'.tables.results.lookup task =
      if w.write.key = task then rowOf w.write.change else s.tables.results.lookup task)
    (hput : ∀ v until?, w.write.change = .put v until? →
      ∃ call t, until? = some t ∧ Justified types skew s w v call t) : Kept types skew s' where
  rows task := by
    have hwrites : s'.writes = s.writes ++ [w.write] := by
      rw [writes, hpast, List.map_append]
      rfl
    rw [hrows, hwrites, lastChange_snoc]
    split
    · rfl
    · exact h.rows task
  justified w' hw' v until? hchange := by
    have hold : ∃ call t, until? = some t ∧ Justified types skew s w' v call t := by
      rw [hpast] at hw'
      rcases List.mem_append.mp hw' with hw' | hw'
      · exact h.justified w' hw' v until? hchange
      · rw [List.mem_singleton.mp hw'] at hchange ⊢
        exact hput v until? hchange
    obtain ⟨call, t, huntil, hjust⟩ := hold
    exact ⟨call, t, huntil, { hjust with called := hcalls ▸ hjust.called }⟩
  times w' hw' := by
    rw [hpast] at hw'
    rw [hclock]
    rcases List.mem_append.mp hw' with hw' | hw'
    · exact h.times w' hw'
    · rw [List.mem_singleton.mp hw', htime]

/-- A result is stored, or the results are left alone and nothing is written. -/
theorem results_respond {o : PgOracle} {t t' : PgTables} {op : Statement} {r : op.Res}
    (h : (server types).respond o t op = some (r, t')) :
    (∃ task result expiresAt stored, op = .upsertResult task result expiresAt ∧
      arrives o.failure = true ∧ types.resultRow task result expiresAt = .ok stored ∧
      t' = t.upsertResult task stored expiresAt) ∨
    (t'.results = t.results ∧ ∀ time, arrives o.failure = true → written types time op = []) := by
  cases op with
  | utcNow =>
      cases h
      exact .inr ⟨rfl, fun _ _ => rfl⟩
  | panic => cases h
  | upsertResult task result expiresAt =>
      rcases settle_arrives (Option.some.inj h) with ⟨stored, harrives, hrow, rfl⟩ |
        ⟨rfl, hrefused⟩
      · exact .inl ⟨task, result, expiresAt, stored, rfl, harrives, hrow, rfl⟩
      · refine .inr ⟨rfl, fun time harrives => ?_⟩
        cases hrow : types.resultRow task result expiresAt with
        | ok stored => exact (hrefused stored harrives hrow).elim
        | error e => simp [written, hrow]
  | insertPlaceholder group task =>
      refine .inr ⟨?_, fun _ _ => rfl⟩
      rcases settle_arrives (Option.some.inj h) with ⟨-, -, -, rfl⟩ | ⟨rfl, -⟩
      · unfold PgTables.insertPlaceholder
        split <;> rfl
      · rfl
  | upsertMember group task result =>
      refine .inr ⟨?_, fun _ _ => rfl⟩
      rcases settle_arrives (Option.some.inj h) with ⟨-, -, -, rfl⟩ | ⟨rfl, -⟩ <;> rfl
  | countMembers group =>
      refine .inr ⟨?_, fun _ _ => rfl⟩
      rcases settle_arrives (Option.some.inj h) with ⟨-, -, -, rfl⟩ | ⟨rfl, -⟩ <;> rfl
  | selectResults group =>
      refine .inr ⟨?_, fun _ _ => rfl⟩
      rcases settle_arrives (Option.some.inj h) with ⟨-, -, -, rfl⟩ | ⟨rfl, -⟩ <;> rfl

/-- A result is stored as its call allows. -/
theorem Kept.store (h : Kept types skew s) {task : String} {result stored : Json}
    {expiresAt : DateTime} (hrow : types.resultRow task result expiresAt = .ok stored)
    (hop : Allowed skew s (.base (.upsertResult task result expiresAt)))
    (hs' : s' = { s with
      tables := s.tables.upsertResult task stored expiresAt
      past := s.past ++ written types s.clock (.upsertResult task result expiresAt) }) :
    Kept types skew s' := by
  have hwritten : written types s.clock (.upsertResult task result expiresAt) =
      [⟨⟨task, .put stored (some expiresAt.nanos)⟩, s.clock⟩] := by
    simp [written, hrow]
  obtain ⟨call, hcall, rfl, hwrites⟩ := hop
  subst hs'
  refine h.write (w := ⟨⟨task, .put stored (some expiresAt.nanos)⟩, s.clock⟩) rfl rfl rfl
    (congrArg (s.past ++ ·) hwritten) (fun task' => ?_) fun v until? hchange => ?_
  · show (s.tables.results.insert task _).lookup task' = _
    by_cases htask : task = task'
    · subst htask
      rw [if_pos rfl, AList.lookup_insert]
      rfl
    · rw [if_neg htask, AList.lookup_insert_ne (Ne.symm htask)]
  · cases hchange
    exact ⟨call, expiresAt.nanos, rfl, hcall, types.jsonb_of_resultRow hrow, hwrites⟩

/-- A row is deleted. -/
theorem Kept.delete (h : Kept types skew s) {task : String} (hs' : s' = { s with
      tables := s.tables.deleteResult task
      past := s.past ++ [⟨⟨task, .drop⟩, s.clock⟩] }) : Kept types skew s' := by
  subst hs'
  refine h.write (w := ⟨⟨task, .drop⟩, s.clock⟩) rfl rfl rfl rfl (fun task' => ?_)
    fun v until? hchange => by cases hchange
  show (s.tables.results.erase task).lookup task' = _
  by_cases htask : task = task'
  · subst htask
    rw [if_pos rfl, AList.lookup_erase]
    rfl
  · rw [if_neg htask, AList.lookup_erase_ne (Ne.symm htask)]

/-- A statement keeps what is kept. -/
theorem Kept.perform (h : Kept types skew s) {op : ClientStatement} (hop : Allowed skew s op)
    {r : op.Res} (hperform : perform types o s op = some (r, s')) :
    Kept types skew s' ∧ s'.clock = s.clock ∧ s'.calls = s.calls := by
  cases op with
  | base op =>
      obtain ⟨⟨r, t'⟩, hrespond, heq⟩ := Option.map_eq_some_iff.mp hperform
      cases heq
      rcases results_respond hrespond with ⟨task, result, expiresAt, stored, rfl, harrives, hrow,
        rfl⟩ | ⟨hsame, hnone⟩
      · exact ⟨h.store hrow hop (by rw [if_pos harrives]), rfl, rfl⟩
      · refine ⟨h.later (Int.le_refl _) (fun _ hc => hc) hsame ?_, rfl, rfl⟩
        show s.past ++ (if arrives o.failure then written types s.clock op else []) = s.past
        split
        · rw [hnone s.clock ‹_›, List.append_nil]
        · exact List.append_nil _
  | selectResult task =>
      rcases settle_arrives (Option.some.inj hperform) with ⟨-, -, -, rfl⟩ | ⟨rfl, -⟩ <;>
        exact ⟨h, rfl, rfl⟩
  | deleteResult task =>
      rcases settle_arrives (Option.some.inj hperform) with ⟨-, -, -, rfl⟩ | ⟨rfl, -⟩
      · exact ⟨h.delete rfl, rfl, rfl⟩
      · exact ⟨h, rfl, rfl⟩

theorem respond_cases {op : ClientStatement} {r : op.Res}
    (h : (service types skew).respond o s op = some (r, s')) :
    o.skew.natAbs ≤ skew ∧ perform types o (s.tick o.elapsed) op = some (r, s') := by
  simp only [service] at h
  split at h
  · exact ⟨‹_›, h⟩
  · cases h

theorem later_tick (s : PgWorld) (elapsed : Nat) : Later s (s.tick elapsed) :=
  ⟨Int.le_add_of_nonneg_right (Int.natCast_nonneg elapsed), fun _ h => h⟩

theorem Allowed.later {op : ClientStatement} (h : Allowed skew s op) (hle : Later s s') :
    Allowed skew s' op := by
  cases op with
  | base op =>
      cases op with
      | upsertResult task result expiresAt =>
          obtain ⟨call, hcall, hresult, hwrites⟩ := h
          refine ⟨call, hle.2 hcall, hresult,
            { hwrites with start := hwrites.start.trans hle.1, most := ?_ }⟩
          have := hle.1
          have := hwrites.most
          omega
      | _ => trivial
  | _ => trivial

theorem Kept.respond (h : Kept types skew s) {op : ClientStatement} (hop : Allowed skew s op)
    {r : op.Res} (hrespond : (service types skew).respond o s op = some (r, s')) :
    Kept types skew s' ∧ Later s s' := by
  obtain ⟨-, hperform⟩ := respond_cases hrespond
  have hle := later_tick s o.elapsed
  obtain ⟨hkept, hclock, hcalls⟩ := Kept.perform
    (h.later hle.1 hle.2 rfl rfl) (hop.later hle) hperform
  exact ⟨hkept, by rw [hclock]; exact hle.1, by rw [hcalls]; exact hle.2⟩

/-! ## The programs -/

/-- `store` writes what its call allows: the clock it reads is within the skew, and it was
read after the call was made. -/
theorem guarded_store {id : TaskId} {result : Json} {ttl : UInt64}
    (hcall : ⟨id, result, ttl, s.clock⟩ ∈ s.calls) :
    Prog.Guarded (service types skew) Later (Allowed skew) (fun _ _ => True)
      (((PostgresResultBackend.mk ttl).store id result).interp liftStatement) s := by
  intro s₁ hle₁
  refine ⟨trivial, fun o now s₂ hread => ?_⟩
  obtain ⟨hskew, hperform⟩ := respond_cases hread
  cases hperform
  show Prog.Guarded (service types skew) Later (Allowed skew) (fun _ _ => True)
    ((PostgresResultBackend.storeUntil id result (PostgresResultBackend.expiresAt _ _)).interp
      liftStatement) _
  unfold PostgresResultBackend.expiresAt
  split
  · intro s₃ hle₃
    have htick := (later_tick s₁ o.elapsed).1
    have hafter : (s₁.tick o.elapsed).clock ≤ s₃.clock := hle₃.1
    have hbefore := hle₁.1
    refine ⟨⟨_, hle₃.2 (hle₁.2 hcall), rfl, rfl, ?_, ?_, ?_⟩, fun _ _ _ _ => trivial⟩
    · exact hbefore.trans (htick.trans hafter)
    · show s.clock + (PostgresResultBackend.mk ttl).ttlSecs * 1000000000 ≤
        (s₁.tick o.elapsed).clock + o.skew +
          (PostgresResultBackend.mk ttl).ttlSecs * 1000000000 + skew
      omega
    · show (s₁.tick o.elapsed).clock + o.skew +
          (PostgresResultBackend.mk ttl).ttlSecs * 1000000000 ≤
        s₃.clock + (PostgresResultBackend.mk ttl).ttlSecs * 1000000000 + skew
      omega
  · -- nothing follows the panic
    exact fun _ _ => ⟨trivial, fun _ _ _ _ => trivial⟩

/-- Statements that write no result. -/
def Harmless : ClientStatement → Prop
  | .base (.upsertResult _ _ _) => False
  | _ => True

theorem allowed_of_harmless (op : ClientStatement) (s : PgWorld) (h : Harmless op) :
    Allowed skew s op := by
  cases op with
  | base op =>
      cases op with
      | upsertResult task result expiresAt => exact h.elim
      | _ => trivial
  | _ => trivial

/-- Statements on groups. -/
def OnGroups : Statement → Prop
  | .upsertResult _ _ _ => False
  | _ => True

theorem onGroups_insertPlaceholders (group : String) (is : List Nat) :
    (PostgresResultBackend.insertPlaceholders group is).Calls OnGroups := by
  induction is with
  | nil => trivial
  | cons i is ih =>
      refine ⟨trivial, fun r => ?_⟩
      cases r with
      | error e => trivial
      | ok u => exact ih

theorem onGroups_completeGroupMember (group : String) (task : TaskId) (result : Json) :
    (PostgresResultBackend.completeGroupMember group task result).Calls OnGroups := by
  refine ⟨trivial, fun r => ?_⟩
  cases r with
  | error e => trivial
  | ok u => exact ⟨trivial, fun _ => trivial⟩

theorem harmless_lifted {α : Type} {p : Prog statements α} (h : p.Calls OnGroups) :
    (p.interp liftStatement).Calls Harmless := by
  refine h.interp fun op hop => ?_
  refine ⟨?_, fun _ => trivial⟩
  cases op with
  | upsertResult task result expiresAt => exact hop.elim
  | _ => trivial

/-- The program of a call that has been noted. -/
theorem guarded_program {call : PgCall} (hnoted : ∀ n ∈ call.noted s.clock, n ∈ s.calls) :
    Prog.Guarded (service types skew) Later (Allowed skew) (fun _ _ => True) call.program s := by
  have hgroups : ∀ {α : Type} {p : Prog statements α}, p.Calls OnGroups →
      Prog.Guarded (service types skew) Later (Allowed skew) (fun _ _ => True)
        (p.interp liftStatement) s := by
    intro α p h
    exact Prog.Guarded.of_calls (S := service types skew) (G := Allowed skew)
      (fun op s' hop => allowed_of_harmless op s' hop) (harmless_lifted h) s
  cases call with
  | get id => exact fun _ _ => ⟨trivial, fun _ _ _ _ => trivial⟩
  | delete id => exact fun _ _ => ⟨trivial, fun _ _ _ _ => trivial⟩
  | backend ttl op =>
      refine Prog.Guarded.bind (Q := fun _ _ => True) ?_ fun _ _ _ => trivial
      cases op with
      | store id result =>
          have hcall : (⟨id, result, ttl, s.clock⟩ : StoreCall) ∈ s.calls :=
            hnoted _ (List.mem_singleton.mpr rfl)
          exact guarded_store hcall
      | initGroup group total => exact hgroups (onGroups_insertPlaceholders group _)
      | completeGroupMember group task result =>
          exact hgroups (onGroups_completeGroupMember group task result)
      | getGroupResults group => exact hgroups ⟨trivial, fun _ => trivial⟩

theorem growing {s₀ : PgWorld} (h₀ : Kept types skew s₀) {tr : List (clients types skew).Label}
    {c : (clients types skew).Config} (h : (clients types skew).Reach ⟨s₀, []⟩ tr c) :
    Kept types skew c.state := by
  refine (Machine.Reach.growing (M := clients types skew) (G := Allowed skew)
    (J := Kept types skew) (show ∀ s, Later s s from Later.refl) (fun _ _ _ => Later.trans)
    (fun _ _ _ _ _ hs hop hr => hs.respond hop hr) ?_
    (fun p hp => (List.not_mem_nil hp).elim) h₀ h).1
  intro x s s' new hs haccept
  cases haccept
  have hmore : s.calls ⊆ s.calls ++ x.noted s.clock := fun _ hc => List.mem_append.mpr (.inl hc)
  refine ⟨hs.later (Int.le_refl _) hmore rfl rfl, ⟨Int.le_refl _, hmore⟩, fun p hp => ?_⟩
  rw [List.mem_singleton.mp hp]
  exact guarded_program fun n hn => List.mem_append.mpr (.inr hn)

/-! ## What is read -/

/-- The last change to the row of a task. -/
def Last (s : PgWorld) (id : TaskId) (w : Written) : Prop :=
  ∃ before after, s.past = before ++ w :: after ∧ w.write.key = id.toText ∧
    ∀ w' ∈ after, w'.write.key ≠ id.toText

theorem last_cases (s : PgWorld) (id : TaskId) :
    (lastChange s.writes id.toText = none ∧ ∀ w ∈ s.past, w.write.key ≠ id.toText) ∨
      ∃ w, Last s id w ∧ lastChange s.writes id.toText = some w.write.change := by
  rcases lastChange_map_cases Written.write s.past id.toText with hnone |
    ⟨before, w, after, hpast, hkey, hafter, hlast⟩
  · exact .inl hnone
  · exact .inr ⟨w, ⟨before, after, hpast, hkey, hafter⟩, hlast⟩

/-- What was written last for a task: what JSONB stores for the result of a call of `store`, and
the time it is good until, which is the lifetime after the call and after it was written, but for
the skew. -/
structure StoredLast (types : PgTypes) (skew : Nat) (s : PgWorld) (id : TaskId) (w : Written)
    (call : StoreCall) (v : Json) (t : Int) : Prop where
  last : s.Last id w
  change : w.write.change = .put v (some t)
  called : call ∈ s.calls
  task : call.id.toText = id.toText
  stored : types.jsonb call.result = .ok v
  start : call.start ≤ w.time
  time : w.time ≤ s.clock
  least : call.start + call.lifetime ≤ t + skew
  most : t ≤ w.time + call.lifetime + skew

/-- What `store` has written last is as its call allows. -/
theorem Kept.storedLast (h : Kept types skew s) {id : TaskId} {w : Written} (hlast : Last s id w)
    {v : Json} {until? : Option Int} (hchange : w.write.change = .put v until?) :
    ∃ call t, until? = some t ∧ StoredLast types skew s id w call v t := by
  obtain ⟨hmem, hkey⟩ : w ∈ s.past ∧ w.write.key = id.toText := by
    obtain ⟨before, after, hpast, hkey, -⟩ := hlast
    rw [hpast]
    exact ⟨List.mem_append.mpr (.inr List.mem_cons_self), hkey⟩
  obtain ⟨call, t, rfl, hjust⟩ := h.justified w hmem v until? hchange
  exact ⟨call, t, rfl, {
    last := hlast
    change := hchange
    called := hjust.called
    task := hjust.writes.task.trans hkey
    stored := hjust.stored
    start := hjust.writes.start
    time := h.times w hmem
    least := hjust.writes.least
    most := hjust.writes.most }⟩

/-- How long a result can be read.  In every interleaving of any number of clients that
store, read and delete results and complete groups, with statements and answers that are lost,
any delays, and clocks within the skew of the server's: what a `SELECT` finds was written last,
for the result of a call of `store` for this task, and it is found for at most its lifetime after
it was written, and the skew; and when nothing is found, then nothing was ever written, or it was
deleted last, or the lifetime of what was written last is over, counted from the call, but for
the skew. -/
theorem lifetime {s₀ : PgWorld} (h₀ : Kept types skew s₀) {tr : List (clients types skew).Label}
    {c : (clients types skew).Config} (h : (clients types skew).Reach ⟨s₀, []⟩ tr c) {id : TaskId}
    {found : Option Json} (hread : (service types skew).respond o c.state
      (.selectResult id.toText) = some (.ok found, s')) :
    (∀ v, found = some v → ∃ w call t, StoredLast types skew s' id w call v t ∧ s'.clock < t ∧
      s'.clock < w.time + call.lifetime + skew) ∧
    (found = none → (∀ w ∈ s'.past, w.write.key ≠ id.toText) ∨
      (∃ w, Last s' id w ∧ w.write.change = .drop) ∨
      ∃ w call v t, StoredLast types skew s' id w call v t ∧ t ≤ s'.clock ∧
        call.start + call.lifetime ≤ s'.clock + skew) := by
  have hallowed : Allowed skew c.state (.selectResult id.toText) := trivial
  obtain ⟨hkept, -⟩ := (growing h₀ h).respond hallowed hread
  obtain ⟨-, hperform⟩ := respond_cases hread
  have hfound : found = s'.tables.selectResult id.toText s'.clock := by
    rcases settle_map (carried_ok (Option.some.inj hperform)) with ⟨e, -, hans, -⟩ |
      ⟨-, -, hans, rfl⟩
    · cases hans
    · exact Except.ok.inj hans
  unfold PgTables.selectResult at hfound
  rw [hkept.rows] at hfound
  rcases last_cases s' id with ⟨hnone, hnever⟩ | ⟨w, hlast, hchange⟩
  · rw [hnone] at hfound
    refine ⟨fun v hv => ?_, fun _ => .inl hnever⟩
    rw [hv] at hfound
    cases hfound
  · rw [hchange] at hfound
    cases hput : w.write.change with
    | drop =>
        rw [hput] at hfound
        refine ⟨fun v hv => ?_, fun _ => .inr (.inl ⟨w, hlast, hput⟩)⟩
        rw [hv] at hfound
        cases hfound
    | put v until? =>
        obtain ⟨call, t, rfl, hstored⟩ := hkept.storedLast hlast hput
        rw [hput] at hfound
        have hfound' : found = if s'.clock < t then some v else none := hfound
        have hmost := hstored.most
        have hleast := hstored.least
        split at hfound'
        · refine ⟨fun v' hv => ?_, fun hv => ?_⟩
          · rw [hv] at hfound'
            cases hfound'
            exact ⟨w, call, t, hstored, ‹_›, by omega⟩
          · rw [hv] at hfound'
            cases hfound'
        · refine ⟨fun v' hv => ?_, fun _ => .inr (.inr ⟨w, call, v, t, hstored, by omega,
            by omega⟩)⟩
          rw [hv] at hfound'
          cases hfound'

/-! ## A result is stored, read, and out of date -/

/-- A new database, just migrated. -/
def start : PgWorld := ⟨.empty, 0, [], []⟩

theorem kept_start (types : PgTypes) (skew : Nat) : Kept types skew start where
  rows _ := rfl
  justified _ hw := (List.not_mem_nil hw).elim
  times _ hw := (List.not_mem_nil hw).elim

/-- No time passes, and the clocks agree. -/
def inStep : PgClientOracle := ⟨0, 0, none⟩

/-- A result with a lifetime of one second is stored, and the answer is lost. -/
def storedOnce : List (clients .plain 0).Move :=
  [.env (.backend 1 (.store ⟨1⟩ .null)), .run 0 inStep, .run 0 ⟨0, 0, some (.answer "closed")⟩]

theorem storedOnce_plays : (Machine.Config.playAll (M := clients .plain 0) ⟨start, []⟩
    storedOnce).isSome = true := by
  decide +kernel

/-- The result is read just before its time is over, and not when it is. -/
theorem lifetime_once : ∃ s s' : PgWorld,
    (∃ w call t, StoredLast .plain 0 s ⟨1⟩ w call .null t ∧ s.clock < t ∧
      s.clock < w.time + call.lifetime + (0 : Nat)) ∧
    ((∀ w ∈ s'.past, w.write.key ≠ (TaskId.mk 1).toText) ∨
      (∃ w, Last s' ⟨1⟩ w ∧ w.write.change = .drop) ∨
      ∃ w call v t, StoredLast .plain 0 s' ⟨1⟩ w call v t ∧ t ≤ s'.clock ∧
        call.start + call.lifetime ≤ s'.clock + (0 : Nat)) := by
  have hreach := Machine.Config.reach_of_get storedOnce_plays
  have hearly : (service .plain 0).respond ⟨999999999, 0, none⟩
      ((Machine.Config.playAll (M := clients .plain 0) ⟨start, []⟩ storedOnce).get
        storedOnce_plays).2.state (.selectResult (TaskId.mk 1).toText) =
      some (.ok (some .null), _) := rfl
  have hlate : (service .plain 0).respond ⟨1000000000, 0, none⟩
      ((Machine.Config.playAll (M := clients .plain 0) ⟨start, []⟩ storedOnce).get
        storedOnce_plays).2.state (.selectResult (TaskId.mk 1).toText) =
      some (.ok none, _) := rfl
  obtain ⟨hfound, -⟩ := lifetime (kept_start .plain 0) hreach hearly
  obtain ⟨-, hnone⟩ := lifetime (kept_start .plain 0) hreach hlate
  exact ⟨_, _, hfound .null rfl, hnone rfl⟩

end PgWorld

end Kojin.Postgres
