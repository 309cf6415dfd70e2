/-
  Agent/Concurrency.lean --- agent tasks that share a `SemaphoreRunner` (`kojin-agent`:
  `concurrency.rs`, `task.rs`).

  A worker runs many agent tasks at once.  Each of their calls of the runner waits for a
  permit, calls the runner inside with the permit in hand, and drops it; the test commands
  of an `SddTask` take no permit.  A call that does not return, because of a panic or
  because its future is dropped, ends its task, and the permit is dropped on the way.

  The runner inside may be any: its calls answer what they like.
-/
import Kojin.Agent.Sdd
import Kojin.Foundation.Semaphore

set_option autoImplicit false

namespace Kojin.Agent

open Kojin.Foundation Kojin.Core

/-! ## Tasks -/

/-- `ClaudeCodeTask`. -/
structure ClaudeCodeTask where
  prompt : String
  args : RunArgs

/-- `ClaudeCodeTask::run`, in a context with or without a runner. -/
def ClaudeCodeTask.run (task : ClaudeCodeTask) (configured : Bool) :
    Prog agentCalls (TaskResult RunOutput) :=
  if configured then Prog.perform (I := agentCalls) (.claude task.prompt task.args)
  else pure (.error (.other ("ClaudeRunner not configured — add Arc<dyn ClaudeRunner> " ++
    "via KojinBuilder::data()")))

/-- The tasks of the agent crate. -/
inductive AgentTask where
  | claudeCode (task : ClaudeCodeTask)
  | sdd (task : SddTask)

/-- Calls that may not return. -/
abbrev fallible (I : Interface) : Interface := ⟨I.Op, fun op => Option (I.Res op)⟩

/-- A task ends when a call of it does not return.  Its result is left to the worker. -/
def unwind {I : Interface} {α : Type} : Prog I α → Prog (fallible I) Unit
  | .ret _ => .ret ()
  | .call op k =>
      .call (I := fallible I) op fun
        | some r => unwind (k r)
        | none => .ret ()

/-- What a task of the worker calls. -/
def AgentTask.program (configured : Bool) : AgentTask → Prog (fallible agentCalls) Unit
  | .claudeCode task => unwind (task.run configured)
  | .sdd task => unwind (task.run configured)

/-! ## A worker -/

/-- Tasks are started at any time, and calls answer what they like. -/
def agents (configured : Bool) : Machine (fallible agentCalls) where
  State := Unit
  Oracle := (op : AgentOp) → Option op.Res
  respond o s op := some (o op, s)
  Stimulus := AgentTask
  accept task s := some (s, [task.program configured])

/-- The calls that `SemaphoreRunner::run` makes of the runner inside. -/
def AgentOp.ofRunner : AgentOp → Bool
  | .claude _ _ => true
  | .process _ => false

/-- The tasks with `SemaphoreRunner::new(inner, max_concurrent)` as their runner. -/
abbrev semaphoreAgents (configured : Bool) : Machine (limited (fallible agentCalls)) :=
  (agents configured).limited AgentOp.ofRunner

/-- The start of a worker. -/
def idle (configured : Bool) (maxConcurrent : Nat) : (semaphoreAgents configured).Config :=
  ⟨((), maxConcurrent), []⟩

/-- `SemaphoreRunner::available_permits`. -/
def availablePermits {configured : Bool} (c : (semaphoreAgents configured).Config) : Nat :=
  c.state.2

/-- Agents under a semaphore.  In every order of their steps, no more calls of the
runner are under way than `max_concurrent`; the permits that are free and those that are
held are `max_concurrent`, and when no task is left all are free; some task can always go
on; and the calls are a history of the tasks without a semaphore. -/
theorem agents_limited {configured : Bool} {maxConcurrent : Nat}
    {tr : List (semaphoreAgents configured).Label} {c : (semaphoreAgents configured).Config}
    (h : (semaphoreAgents configured).Reach (idle configured maxConcurrent) tr c) :
    invocations AgentOp.ofRunner c.threads ≤ maxConcurrent ∧
      availablePermits c + holders AgentOp.ofRunner c.threads = maxConcurrent ∧
      ((∀ q ∈ c.threads, ended q = true) → availablePermits c = maxConcurrent) ∧
      (0 < maxConcurrent → (∃ q ∈ c.threads, ended q = false) →
        ∃ q ∈ c.threads, ended q = false ∧ (acquiring q = true → 0 < availablePermits c)) ∧
      ∃ c₁, (agents configured).Reach ⟨(), []⟩ (tr.filterMap Machine.unlimited) c₁ ∧
        List.Forall₂ (Inside AgentOp.ofRunner) c.threads c₁.threads := by
  obtain ⟨c₁, hreach, hlimits⟩ := Machine.limited_refines h
  refine ⟨hlimits.invocations_le, hlimits.permits, fun hended => ?_, ?_,
    c₁, hreach, hlimits.threads⟩
  · have hnone : holders AgentOp.ofRunner c.threads = 0 := by
      refine List.countP_eq_zero.mpr fun q hq hholds => ?_
      have hend := hended q hq
      cases q with
      | ret a => cases hholds
      | call op k => cases hend
    have hpermits := hlimits.permits
    rw [hnone, Nat.add_zero] at hpermits
    exact hpermits
  · rintro hpos ⟨q, hq, hrunning⟩
    exact hlimits.ready hpos hq hrunning

/-- A task with one call of the runner. -/
def review (prompt : String) : AgentTask := .claudeCode ⟨prompt, .default⟩

/-- Two tasks are started, and the first gets the only permit. -/
def twoReviews : List (semaphoreAgents true).Move :=
  [.env (review "a"), .env (review "b"), .run 0 fun _ => none]

theorem twoReviews_plays : ((idle true 1).playAll twoReviews).isSome = true := by
  decide +kernel

theorem agents_limited_two : ∃ tr c, (semaphoreAgents true).Reach (idle true 1) tr c ∧
    c.threads.countP acquiring = 1 ∧ invocations AgentOp.ofRunner c.threads = 1 ∧
    availablePermits c = 0 ∧
    ∃ q ∈ c.threads, ended q = false ∧ (acquiring q = true → 0 < availablePermits c) := by
  have hreach := Machine.Config.reach_of_get twoReviews_plays
  obtain ⟨-, -, -, hready, -⟩ := agents_limited hreach
  refine ⟨_, _, hreach, by decide +kernel, by decide +kernel, by decide +kernel, ?_⟩
  exact hready (by decide) (by decide +kernel)

/-- What a semaphore leaves of the runs of agents: with a permit, every run, call for
call; without one, those in which the runner is not called. -/
theorem agents_histories_iff {configured : Bool} {maxConcurrent : Nat}
    {history : List (agents configured).Label} :
    (∃ tr c, (semaphoreAgents configured).Reach (idle configured maxConcurrent) tr c ∧
        tr.filterMap Machine.unlimited = history) ↔
      (∃ c, (agents configured).Reach ⟨(), []⟩ history c) ∧
        (maxConcurrent = 0 → ∀ l ∈ history,
          Machine.happens (fun e => AgentOp.ofRunner e.op) l = false) := by
  refine Machine.limited_histories_iff.trans (and_congr_right' ?_)
  constructor
  · intro h hnone l hl
    by_contra hcalls
    have hpos := h l hl (by simpa using hcalls)
    omega
  · intro h l hl hcalls
    refine Nat.pos_of_ne_zero fun hnone => ?_
    rw [h hnone l hl] at hcalls
    cases hcalls

end Kojin.Agent
