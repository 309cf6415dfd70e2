/-
  Redis/Calls.lean --- the broker's calls on a server that may fail.

  `Redis/Commands.lean` says what one command does.  A call is a few commands, one
  after the other; time passes before each, and each may be lost on the way, or its
  answer on the way back.  The lemmas below say what a call did from what became of
  its commands: nothing past the command that failed, that command itself if it
  arrived, and, when no command failed, everything.

      Smooth tr        no command of the trace failed
      elapsed os n     the time the first `n` commands took
      reaches os n     the first `n` commands come through, and the next one arrives
-/
import Kojin.Redis.Ack

set_option autoImplicit false

namespace Kojin.Redis

open Kojin.Foundation Kojin.Core

variable {σ : Type} [LinearOrder σ]

/-! ## Commands -/

/-- No command failed. -/
def Smooth (tr : List (Event (commands σ))) : Prop :=
  ∀ e ∈ tr, ∃ a : e.op.Ans, e.res = (.ok a : Except CommandError e.op.Ans)

/-- The time the first `n` commands took to arrive. -/
def elapsed (os : List Transit) (n : Nat) : Nat := ((os.take n).map Transit.elapsed).sum

/-- The first `n` commands come through, and the next one arrives. -/
def reaches : List Transit → Nat → Bool
  | [], _ => false
  | o :: _, 0 => arrives o.failure
  | o :: os, n + 1 => o.failure.isNone && reaches os n

/-- What a command has left behind whose caller gets an error: all it does, if it
arrived. -/
def left (queueOf : String → Except CommandError String) (o : Transit) (r : Keyspace σ)
    (op : RedisOp σ) : Keyspace σ :=
  if arrives o.failure then (perform queueOf (r.advance o.elapsed) op).2 else r.advance o.elapsed

/-- A failed command is in the trace. -/
theorem not_smooth {op : RedisOp σ} {e : CommandError} {tr : List (Event (commands σ))}
    (h : ⟨op, .error e⟩ ∈ tr) : ¬ Smooth tr := by
  intro hsmooth
  obtain ⟨a, ha⟩ := hsmooth _ h
  cases ha

theorem Smooth.nil : Smooth ([] : List (Event (commands σ))) := fun _ he => nomatch he

theorem Smooth.cons {op : RedisOp σ} (a : op.Ans) {tr : List (Event (commands σ))}
    (h : Smooth tr) : Smooth (⟨op, .ok a⟩ :: tr) := by
  intro e he
  rcases List.mem_cons.mp he with rfl | he
  · exact ⟨a, rfl⟩
  · exact h e he

theorem Smooth.tail {e : Event (commands σ)} {tr : List (Event (commands σ))}
    (h : Smooth (e :: tr)) : Smooth tr := fun x hx => h x (List.mem_cons_of_mem e hx)

theorem Smooth.left {tr tr' : List (Event (commands σ))} (h : Smooth (tr ++ tr')) : Smooth tr :=
  fun x hx => h x (List.mem_append.mpr (.inl hx))

theorem Smooth.right {tr tr' : List (Event (commands σ))} (h : Smooth (tr ++ tr')) :
    Smooth tr' := fun x hx => h x (List.mem_append.mpr (.inr hx))

theorem elapsed_cons (o : Transit) (os : List Transit) (n : Nat) :
    elapsed (o :: os) (n + 1) = o.elapsed + elapsed os n := by
  unfold elapsed
  rw [List.take_succ_cons, List.map_cons, List.sum_cons]

theorem elapsed_add (os : List Transit) (m n : Nat) :
    elapsed os (m + n) = elapsed os m + elapsed (os.drop m) n := by
  unfold elapsed
  rw [List.take_add, List.map_append, List.sum_append]

@[simp] theorem reaches_nil (n : Nat) : reaches [] n = false := rfl

@[simp] theorem reaches_zero (o : Transit) (os : List Transit) :
    reaches (o :: os) 0 = arrives o.failure := rfl

@[simp] theorem reaches_succ (o : Transit) (os : List Transit) (n : Nat) :
    reaches (o :: os) (n + 1) = (o.failure.isNone && reaches os n) := rfl

/-- A command that is not answered is the last one. -/
theorem reaches_of_lost {o : Transit} (os : List Transit) {n : Nat} (h : o.failure ≠ none)
    (hn : 0 < n) : reaches (o :: os) n = false := by
  obtain ⟨n, rfl⟩ := Nat.exists_eq_succ_of_ne_zero (Nat.pos_iff_ne_zero.mp hn)
  simp [Option.isNone_iff_eq_none, h]

/-- The commands that come through are counted off. -/
theorem reaches_append {done : List Transit} (h : ∀ o ∈ done, o.failure = none)
    (os : List Transit) (n : Nat) : reaches (done ++ os) (done.length + n) = reaches os n := by
  induction done with
  | nil => simp
  | cons o done ih =>
      have hrest := ih fun o' ho' => h o' (List.mem_cons_of_mem o ho')
      rw [List.cons_append, List.length_cons, Nat.add_right_comm, reaches_succ, hrest,
        h o List.mem_cons_self]
      simp

/-- A committed command did what it answers. -/
theorem commit_ok {α : Type} {r r' : Keyspace σ} {x : Except CommandError (α × Keyspace σ)}
    {a : α} (h : commit r x = (.ok a, r')) : x = .ok (a, r') := by
  cases x with
  | error e => cases h
  | ok p =>
      cases h
      rfl

/-- A command that fails has changed nothing. -/
theorem commit_state {α : Type} (r : Keyspace σ) (x : Except CommandError (α × Keyspace σ)) :
    (commit r x).2 = r ∨ ∃ a r', x = .ok (a, r') ∧ (commit r x).2 = r' := by
  rcases x with e | ⟨a, r'⟩
  · exact .inl rfl
  · exact .inr ⟨a, r', rfl, rfl⟩

/-- A push that succeeds pushes. -/
theorem perform_lpush {queueOf : String → Except CommandError String} {r r' : Keyspace σ}
    {key item : String} {a : Unit} (h : perform queueOf r (.lpush key item) = (.ok a, r')) :
    ∃ xs, r.list? key = .ok xs ∧ r' = r.writeList key (item :: xs) := by
  have hmap : (r.lpush key item).map ((), ·) = .ok (a, r') := commit_ok h
  cases hpush : r.lpush key item with
  | error e =>
      rw [hpush] at hmap
      cases hmap
  | ok r'' =>
      rw [hpush] at hmap
      cases hmap
      exact Keyspace.lpush_cases hpush

section Run

variable {queueOf : String → Except CommandError String} {α : Type} {os : List Transit}
  {r r' : Keyspace σ} {tr : List (Event (commands σ))}

/-- A command that only reads has left nothing behind. -/
theorem left_of_reads {o : Transit} {op : RedisOp σ}
    (h : ∀ r, (perform queueOf r op).2 = r) : left queueOf o r op = r.advance o.elapsed := by
  unfold left
  rw [h, ite_self]

/-- The server does what the command does and says so, or its caller gets an error. -/
theorem server_respond {o : Transit} {op : RedisOp σ} {ans : Except CommandError op.Ans}
    (h : (server queueOf).respond o r op = some (ans, r')) :
    (∃ a, ans = .ok a ∧ o.failure = none ∧
        perform queueOf (r.advance o.elapsed) op = (.ok a, r')) ∨
      ∃ e, ans = .error e ∧
        (o.failure = none → (perform queueOf (r.advance o.elapsed) op).1 = .error e) ∧
        r' = left queueOf o r op := by
  obtain ⟨-, hcarried⟩ := server_some h
  rcases carried_cases hcarried with
    ⟨hnone, hperform⟩ | ⟨e, rfl, ⟨hlost, rfl⟩ | ⟨hsome, harrives, rfl⟩⟩
  · cases ans with
    | ok a => exact .inl ⟨a, rfl, hnone, hperform⟩
    | error e =>
        refine .inr ⟨e, rfl, fun _ => congrArg Prod.fst hperform, ?_⟩
        simp [left, arrives, hnone, hperform]
  · refine .inr ⟨e, rfl, fun hnone => ?_, by simp [left, hlost]⟩
    rw [hnone] at hlost
    cases hlost
  · exact .inr ⟨e, rfl, fun hnone => absurd hnone hsome, by simp [left, harrives]⟩

/-- A command, and what follows it. -/
theorem run_command {err : CommandError → KojinError} {op : RedisOp σ} {f : op.Ans → Attempt σ α}
    {out : TaskResult α}
    (h : (server queueOf).run os (command err op >>= f).run r = some (tr, out, r')) :
    ∃ o rest, os = o :: rest ∧
      ((∃ a r₁ tail, o.failure = none ∧ perform queueOf (r.advance o.elapsed) op = (.ok a, r₁) ∧
          tr = ⟨op, .ok a⟩ :: tail ∧ (server queueOf).run rest (f a).run r₁ = some (tail, out, r')) ∨
        ∃ e, tr = [⟨op, .error e⟩] ∧ out = .error (err e) ∧
          (o.failure = none → (perform queueOf (r.advance o.elapsed) op).1 = .error e) ∧
          r' = left queueOf o r op) := by
  obtain ⟨o, rest, ans, r₁, tail, rfl, hrespond, rfl, hrun⟩ := Service.run_call_iff.mp
    (show (server queueOf).run os (.call op _) r = some (tr, out, r') from h)
  refine ⟨o, rest, rfl, ?_⟩
  rcases server_respond hrespond with ⟨a, rfl, hnone, hperform⟩ | ⟨e, rfl, herror, hstate⟩
  · exact .inl ⟨a, r₁, tail, hnone, hperform, rfl, hrun⟩
  · obtain ⟨rfl, rfl, rfl⟩ := Service.run_ret_iff.mp
      (show (server queueOf).run rest (.ret (.error (err e))) r₁ = some (tail, out, r') from hrun)
    exact .inr ⟨e, rfl, rfl, herror, hstate⟩

/-- The last command of a call. -/
theorem run_last {err : CommandError → KojinError} {op : RedisOp σ} {out : TaskResult op.Ans}
    (h : (server queueOf).run os (command err op).run r = some (tr, out, r')) :
    ∃ o rest, os = o :: rest ∧
      ((∃ a, o.failure = none ∧ perform queueOf (r.advance o.elapsed) op = (.ok a, r') ∧
          tr = [⟨op, .ok a⟩] ∧ out = .ok a) ∨
        ∃ e, tr = [⟨op, .error e⟩] ∧ out = .error (err e) ∧
          (o.failure = none → (perform queueOf (r.advance o.elapsed) op).1 = .error e) ∧
          r' = left queueOf o r op) := by
  obtain ⟨o, rest, ans, r₁, tail, rfl, hrespond, rfl, hrun⟩ := Service.run_call_iff.mp
    (show (server queueOf).run os (.call op _) r = some (tr, out, r') from h)
  refine ⟨o, rest, rfl, ?_⟩
  rcases server_respond hrespond with ⟨a, rfl, hnone, hperform⟩ | ⟨e, rfl, herror, hstate⟩
  · obtain ⟨rfl, rfl, rfl⟩ := Service.run_ret_iff.mp
      (show (server queueOf).run rest (.ret (.ok a)) r₁ = some (tail, out, r') from hrun)
    exact .inl ⟨a, hnone, hperform, rfl, rfl⟩
  · obtain ⟨rfl, rfl, rfl⟩ := Service.run_ret_iff.mp
      (show (server queueOf).run rest (.ret (.error (err e))) r₁ = some (tail, out, r') from hrun)
    exact .inr ⟨e, rfl, rfl, herror, hstate⟩

/-- A connection, and what follows it. -/
theorem run_conn {err : CommandError → KojinError} {f : Unit → Attempt σ α} {out : TaskResult α}
    (h : (server queueOf).run os (command err .conn >>= f).run r = some (tr, out, r')) :
    ∃ o rest, os = o :: rest ∧
      ((∃ tail, o.failure = none ∧ tr = ⟨.conn, .ok ()⟩ :: tail ∧
          (server queueOf).run rest (f ()).run (r.advance o.elapsed) = some (tail, out, r')) ∨
        ∃ e, tr = [⟨.conn, .error e⟩] ∧ out = .error (err e) ∧ o.failure ≠ none ∧
          r' = r.advance o.elapsed) := by
  obtain ⟨o, rest, rfl, h₁⟩ := run_command h
  refine ⟨o, rest, rfl, ?_⟩
  rcases h₁ with ⟨⟨⟩, r₁, tail, hnone, hconn, rfl, h₁⟩ | ⟨e, rfl, rfl, herror, rfl⟩
  · obtain rfl : r.advance o.elapsed = r₁ := (Prod.mk.inj hconn).2
    exact .inl ⟨tail, hnone, rfl, h₁⟩
  · refine .inr ⟨e, rfl, rfl, fun hnone => ?_, left_of_reads fun _ => rfl⟩
    cases herror hnone

/-! ## Traces -/

/-- A command of a trace, and what follows it. -/
theorem trace_command {err : CommandError → KojinError} {op : RedisOp σ}
    {f : op.Ans → Attempt σ α} {out : TaskResult α}
    (h : Prog.Trace (command err op >>= f).run tr out) :
    (∃ a tail, tr = ⟨op, .ok a⟩ :: tail ∧ Prog.Trace (f a).run tail out) ∨
      ∃ e, tr = [⟨op, .error e⟩] ∧ out = .error (err e) := by
  obtain ⟨ans, tail, rfl, htail⟩ := Prog.trace_call_iff.mp
    (show Prog.Trace (.call op _) tr out from h)
  cases ans with
  | ok a => exact .inl ⟨a, tail, rfl, htail⟩
  | error e =>
      obtain ⟨rfl, rfl⟩ := Prog.trace_ret_iff.mp
        (show Prog.Trace (.ret (.error (err e))) tail out from htail)
      exact .inr ⟨e, rfl, rfl⟩

/-- The last command of a trace. -/
theorem trace_last {err : CommandError → KojinError} {op : RedisOp σ} {out : TaskResult op.Ans}
    (h : Prog.Trace (command err op).run tr out) :
    ∃ ans, tr = [⟨op, ans⟩] ∧ out = ans.mapError err := by
  obtain ⟨ans, tail, rfl, htail⟩ := Prog.trace_call_iff.mp
    (show Prog.Trace (.call op _) tr out from h)
  obtain ⟨rfl, rfl⟩ := Prog.trace_ret_iff.mp
    (show Prog.Trace (.ret (ans.mapError err)) tail out from htail)
  exact ⟨ans, rfl, rfl⟩

/-- A call in two parts. -/
theorem trace_then {p : Attempt σ Unit} {f : Unit → Attempt σ Unit} {out : TaskResult Unit}
    (h : Prog.Trace (p >>= f).run tr out) :
    ∃ tr₁ tr₂ out₁, tr = tr₁ ++ tr₂ ∧ Prog.Trace p.run tr₁ out₁ ∧
      ((out₁ = .ok () ∧ Prog.Trace (f ()).run tr₂ out) ∨
        ∃ e, out₁ = .error e ∧ tr₂ = [] ∧ out = .error e) := by
  obtain ⟨tr₁, tr₂, out₁, rfl, hfirst, hsecond⟩ := Prog.trace_bind_iff.mp
    (show Prog.Trace (p.run >>= ExceptT.bindCont f) tr out from h)
  refine ⟨tr₁, tr₂, out₁, rfl, hfirst, ?_⟩
  cases out₁ with
  | ok a => exact .inl ⟨rfl, hsecond⟩
  | error e =>
      obtain ⟨rfl, rfl⟩ := Prog.trace_ret_iff.mp
        (show Prog.Trace (.ret (.error e)) tr₂ out from hsecond)
      exact .inr ⟨e, rfl, rfl, rfl⟩

/-! ## The calls of the broker -/

namespace RedisBroker

variable {b : RedisBroker} {codec : RedisCodec σ} {m : TaskMessage} {id : TaskId}
  {xs ys : List String} {out : TaskResult Unit}

/-- The removal with which `ack` ends, once it has found the first entry that mentions the
identifier. -/
theorem run_removal {item : String} {t : Nat}
    (hat : ∀ t, (r.advance t).list? (b.keys.processing b.workerId) = .ok xs)
    (hfind : xs.find? (mentions id) = some item)
    (h : (server queueOf).run os
      (command brokerErr (.lrem (b.keys.processing b.workerId) item)).run (r.advance t) =
        some (tr, out, r')) :
    ∃ o rest, os = o :: rest ∧
      ((o.failure = none ∧ tr = [⟨.lrem (b.keys.processing b.workerId) item, .ok ()⟩] ∧
          out = .ok () ∧ r' = b.acked id xs (r.advance (t + o.elapsed))) ∨
        ∃ e, tr = [⟨.lrem (b.keys.processing b.workerId) item, .error e⟩] ∧
          out = .error (brokerErr e) ∧ o.failure ≠ none ∧
          ((arrives o.failure = true ∧ r' = b.acked id xs (r.advance (t + o.elapsed))) ∨
            (arrives o.failure = false ∧ r'.keys = r.keys))) := by
  have hremoved : ∀ t, perform queueOf (r.advance t)
      (.lrem (b.keys.processing b.workerId) item) = (.ok (), b.acked id xs (r.advance t)) := by
    intro t
    have hrem : (r.advance t).lrem (b.keys.processing b.workerId) item =
        .ok ((r.advance t).writeList (b.keys.processing b.workerId) (xs.erase item)) :=
      Keyspace.lrem_of_list? (hat t)
    rw [erase_find hfind] at hrem
    rw [acked, hfind]
    simp only [perform, hrem]
    rfl
  obtain ⟨o, rest, rfl, ⟨⟨⟩, hfine, hrem, rfl, rfl⟩ | ⟨e, rfl, rfl, herror, rfl⟩⟩ := run_last h
  · rw [Keyspace.advance_advance, hremoved] at hrem
    exact ⟨o, rest, rfl, .inl ⟨hfine, rfl, rfl, (Prod.mk.inj hrem).2.symm⟩⟩
  · have hlost : o.failure ≠ none := by
      intro hnone
      have hrem := herror hnone
      rw [Keyspace.advance_advance, hremoved] at hrem
      cases hrem
    refine ⟨o, rest, rfl, .inr ⟨e, rfl, rfl, hlost, ?_⟩⟩
    unfold left
    split
    · rename_i harrives
      rw [Keyspace.advance_advance, hremoved]
      exact .inl ⟨harrives, rfl⟩
    · rename_i harrives
      exact .inr ⟨Bool.eq_false_iff.mpr harrives, rfl⟩

/-- What `ack` did.  It removed the first entry that mentions the identifier; if a
command failed, exactly if that command was the removal and arrived. -/
theorem run_ack (hlasting : r.Lasting (b.keys.processing b.workerId))
    (hlist : r.list? (b.keys.processing b.workerId) = .ok xs)
    (h : (server queueOf).run os (b.ack id).run r = some (tr, out, r')) :
    (out = .ok () ∧ tr.length = ackCommands id xs ∧
        (∃ done rest, os = done ++ rest ∧ done.length = ackCommands id xs ∧
          ∀ o ∈ done, o.failure = none) ∧
        r' = b.acked id xs (r.advance (elapsed os (ackCommands id xs)))) ∨
      ((∃ e, out = .error e) ∧ ¬ Smooth tr ∧
        (∀ n, ackCommands id xs ≤ n → reaches os n = false) ∧
        (((xs.find? (mentions id)).isSome = true ∧ reaches os 2 = true ∧
            ∃ t, r' = b.acked id xs (r.advance t)) ∨
          (((xs.find? (mentions id)).isSome && reaches os 2) = false ∧ r'.keys = r.keys))) := by
  have hat : ∀ t, (r.advance t).list? (b.keys.processing b.workerId) = .ok xs := fun t =>
    (Keyspace.list?_advance_of_lasting hlasting t).trans hlist
  have hcount : 2 ≤ ackCommands id xs := by
    unfold ackCommands
    split <;> decide
  obtain ⟨o₁, os₁, rfl, ⟨tail₁, hfine₁, rfl, h₁⟩ | ⟨e, rfl, rfl, hlost, rfl⟩⟩ := run_conn h
  swap
  · refine .inr ⟨⟨_, rfl⟩, not_smooth List.mem_cons_self, fun n hn => ?_, .inr ⟨?_, rfl⟩⟩
    · exact reaches_of_lost os₁ hlost (by omega)
    · rw [reaches_of_lost os₁ hlost (by decide), Bool.and_false]
  obtain ⟨o₂, os₂, rfl, h₂⟩ := run_command h₁
  rcases h₂ with ⟨items, r₂, tail₂, hfine₂, hrange, rfl, h₂⟩ | ⟨e, rfl, rfl, herror, rfl⟩
  swap
  · have hlost : o₂.failure ≠ none := by
      intro hnone
      have hrange : ((r.advance o₁.elapsed).advance o₂.elapsed).lrange
          (b.keys.processing b.workerId) 0 (-1) = .error e := herror hnone
      rw [Keyspace.lrange_all, Keyspace.advance_advance, hat] at hrange
      cases hrange
    have hnot : ∀ n, 2 ≤ n → reaches (o₁ :: o₂ :: os₂) n = false := by
      intro n hn
      obtain ⟨n, rfl⟩ := Nat.exists_eq_add_of_le' hn
      rw [reaches_succ, reaches_of_lost os₂ hlost (Nat.succ_pos n), Bool.and_false]
    refine .inr ⟨⟨_, rfl⟩, not_smooth (List.mem_cons_of_mem _ List.mem_cons_self),
      fun n hn => hnot n (hcount.trans hn), .inr ⟨?_, ?_⟩⟩
    · rw [hnot 2 le_rfl, Bool.and_false]
    · rw [left_of_reads fun _ => rfl]
      rfl
  rw [Keyspace.advance_advance] at hrange
  obtain ⟨hitems, rfl⟩ : (r.advance (o₁.elapsed + o₂.elapsed)).lrange
      (b.keys.processing b.workerId) 0 (-1) = .ok items ∧
      r.advance (o₁.elapsed + o₂.elapsed) = r₂ := Prod.mk.inj hrange
  rw [Keyspace.lrange_all, hat] at hitems
  cases hitems
  cases hfind : xs.find? (mentions id) with
  | none =>
      rw [hfind] at h₂
      obtain ⟨rfl, rfl, rfl⟩ := Service.run_ret_iff.mp
        (show (server queueOf).run os₂ (.ret (.ok ())) _ = some (tail₂, out, r') from h₂)
      have htwo : ackCommands id xs = 2 := by
        rw [ackCommands, hfind]
        rfl
      refine .inl ⟨rfl, htwo.symm, ⟨[o₁, o₂], os₂, rfl, htwo.symm, ?_⟩, ?_⟩
      · simp [hfine₁, hfine₂]
      · rw [htwo, acked, hfind, elapsed_cons, elapsed_cons]
        rfl
  | some item =>
      rw [hfind] at h₂
      have hthree : ackCommands id xs = 3 := by
        rw [ackCommands, hfind]
        rfl
      obtain ⟨o₃, os₃, rfl, h₃⟩ := run_removal hat hfind h₂
      rcases h₃ with ⟨hfine₃, rfl, rfl, rfl⟩ | ⟨e, rfl, rfl, hlost, hleft⟩
      · refine .inl ⟨rfl, hthree.symm, ⟨[o₁, o₂, o₃], os₃, rfl, hthree.symm, ?_⟩, ?_⟩
        · simp [hfine₁, hfine₂, hfine₃]
        · rw [hthree, elapsed_cons, elapsed_cons, elapsed_cons]
          exact congrArg _ (congrArg _ (Nat.add_assoc _ _ _))
      · have hreach : reaches (o₁ :: o₂ :: o₃ :: os₃) 2 = arrives o₃.failure := by
          simp [hfine₁, hfine₂]
        refine .inr ⟨⟨_, rfl⟩, not_smooth (List.mem_cons_of_mem _ (List.mem_cons_of_mem _
          List.mem_cons_self)), fun n hn => ?_, ?_⟩
        · obtain ⟨n, rfl⟩ := Nat.exists_eq_add_of_le' (hthree ▸ hn)
          rw [reaches_succ, reaches_succ, reaches_of_lost os₃ hlost (Nat.succ_pos n),
            Bool.and_false, Bool.and_false]
        · rw [hreach]
          rcases hleft with ⟨harrives, rfl⟩ | ⟨harrives, hkeys⟩
          · exact .inl ⟨rfl, harrives, _, rfl⟩
          · exact .inr ⟨by simp [harrives], hkeys⟩

/-- The claim of a dedup key, and what follows it.  A claim that fails is answered
like one that is refused; it may have been made. -/
theorem run_claim {key : String} {f : Bool → Attempt σ Unit}
    (h : (server queueOf).run os (b.claim (some key) >>= f).run r = some (tr, out, r')) :
    ∃ o rest tail, os = o :: rest ∧
      ((∃ set r₁, o.failure = none ∧ perform queueOf (r.advance o.elapsed)
            (.setNxEx (b.keys.dedup key) (.int 1) b.dedupTtl) = (.ok set, r₁) ∧
          tr = ⟨.setNxEx (b.keys.dedup key) (.int 1) b.dedupTtl, .ok set⟩ :: tail ∧
          (server queueOf).run rest (f set).run r₁ = some (tail, out, r')) ∨
        ∃ e, tr = ⟨.setNxEx (b.keys.dedup key) (.int 1) b.dedupTtl, .error e⟩ :: tail ∧
          (server queueOf).run rest (f false).run
            (left queueOf o r (.setNxEx (b.keys.dedup key) (.int 1) b.dedupTtl)) =
              some (tail, out, r')) := by
  obtain ⟨o, rest, ans, r₁, tail, rfl, hrespond, rfl, hrun⟩ := Service.run_call_iff.mp
    (show (server queueOf).run os (.call (.setNxEx (b.keys.dedup key) (.int 1) b.dedupTtl) _) r =
      some (tr, out, r') from h)
  refine ⟨o, rest, tail, rfl, ?_⟩
  rcases server_respond hrespond with ⟨set, rfl, hnone, hperform⟩ | ⟨e, rfl, -, rfl⟩
  · exact .inl ⟨set, r₁, hnone, hperform, rfl, hrun⟩
  · exact .inr ⟨e, rfl, hrun⟩

/-- A claim leaves every other key alone. -/
theorem keys_left_setNxEx {o : Transit} {key key' : String} {v : Value σ} {secs : Nat}
    (h : key' ≠ key) : (left queueOf o r (.setNxEx key v secs)).keys key' = r.keys key' := by
  unfold left
  split
  swap
  · rfl
  show (commit _ ((r.advance o.elapsed).setNxEx key v secs)).2.keys key' =
    (r.advance o.elapsed).keys key'
  rcases commit_state (r.advance o.elapsed) ((r.advance o.elapsed).setNxEx key v secs) with
    hstate | ⟨set, r₁, hset, hstate⟩
  · rw [hstate]
  · rw [hstate]
    obtain ⟨-, ⟨-, -, rfl⟩ | ⟨-, -, rfl⟩⟩ := Keyspace.setNxEx_cases hset
    · exact Keyspace.keys_store_ne _ h _ _
    · rfl

variable (queueOf) in
/-- A push leaves every other key alone, and the clock. -/
theorem left_lpush (o : Transit) (r : Keyspace σ) (key item : String) :
    (∀ key', key' ≠ key →
        (left queueOf o r (.lpush key item)).keys key' = r.keys key') ∧
      (left queueOf o r (.lpush key item)).clock = (r.advance o.elapsed).clock := by
  unfold left
  split
  swap
  · exact ⟨fun _ _ => rfl, rfl⟩
  show (∀ key', key' ≠ key → (commit _ (((r.advance o.elapsed).lpush key item).map ((), ·))).2.keys
      key' = (r.advance o.elapsed).keys key') ∧
    (commit _ (((r.advance o.elapsed).lpush key item).map ((), ·))).2.clock = _
  cases hpush : (r.advance o.elapsed).lpush key item with
  | error e => exact ⟨fun _ _ => rfl, rfl⟩
  | ok r₁ =>
      obtain ⟨xs, -, rfl⟩ := Keyspace.lpush_cases hpush
      refine ⟨fun key' hne => ?_, Keyspace.clock_writeList _ _ _⟩
      exact Keyspace.keys_writeList_ne (r.advance o.elapsed) hne (item :: xs)

/-- A push, the last command of a call.  If its caller gets an error, it has pushed
exactly if it arrived. -/
theorem run_push {key text : String} (hlasting : r.Lasting key) (hlist : r.list? key = .ok ys)
    (h : (server queueOf).run os (command brokerErr (.lpush key text)).run r = some (tr, out, r')) :
    (∀ key', key' ≠ key → r'.keys key' = r.keys key') ∧
      ((out = .ok () ∧ r'.list? key = .ok (text :: ys)) ∨
        ((∃ e, out = .error e) ∧ ¬ Smooth tr ∧
          ((reaches os 0 = true ∧ r'.list? key = .ok (text :: ys)) ∨
            (reaches os 0 = false ∧ r'.keys key = r.keys key)))) := by
  obtain ⟨o, rest, rfl, h₁⟩ := run_last h
  have hat : (r.advance o.elapsed).list? key = .ok ys :=
    (Keyspace.list?_advance_of_lasting hlasting _).trans hlist
  have hpushed := @Keyspace.lpush_of_list? _ _ _ _ text _ hat
  have hother : ∀ key', key' ≠ key →
      ((r.advance o.elapsed).writeList key (text :: ys)).keys key' = r.keys key' := fun key' hkey =>
    Keyspace.keys_writeList_ne _ hkey _
  rcases h₁ with ⟨⟨⟩, -, hpush, rfl, rfl⟩ | ⟨e, rfl, rfl, -, rfl⟩
  · simp only [perform, hpushed] at hpush
    obtain rfl := (Prod.mk.inj hpush).2
    exact ⟨hother, .inl ⟨rfl, Keyspace.list?_writeList _ _ _⟩⟩
  · have hsmooth : ¬ Smooth ([⟨.lpush key text, .error e⟩] : List (Event (commands σ))) :=
      not_smooth List.mem_cons_self
    have hdone : (perform queueOf (r.advance o.elapsed) (.lpush key text)).2 =
        (r.advance o.elapsed).writeList key (text :: ys) := by
      simp only [perform, hpushed]
      rfl
    unfold left
    split
    · rename_i harrives
      rw [hdone]
      exact ⟨hother, .inr ⟨⟨_, rfl⟩, hsmooth, .inl ⟨harrives, Keyspace.list?_writeList _ _ _⟩⟩⟩
    · rename_i harrives
      exact ⟨fun _ _ => rfl, .inr ⟨⟨_, rfl⟩, hsmooth, .inr ⟨by simp [harrives], rfl⟩⟩⟩

/-- The dedup key of the message is free after the given time. -/
def Free (b : RedisBroker) (m : TaskMessage) (r : Keyspace σ) (t : Nat) : Prop :=
  ∀ key, m.dedupKey = some key → (r.advance t).get (b.keys.dedup key) = none

/-- How many commands `enqueue` sends before it pushes. -/
def claimCommands (m : TaskMessage) : Nat := if m.dedupKey.isSome then 2 else 1

/-- What `enqueue` did: it left every other key alone; when no command failed it
pushed the message if its dedup key was free, and left the queue as it was
otherwise; and if it returned an error, it pushed exactly if the push arrived. -/
theorem run_enqueue (hlasting : r.Lasting (b.keys.queue m.queue))
    (hlist : r.list? (b.keys.queue m.queue) = .ok ys)
    (h : (server queueOf).run os (b.enqueue codec m).run r = some (tr, out, r')) :
    (∀ key, (∀ k, key ≠ b.keys.dedup k) → key ≠ b.keys.queue m.queue →
        r'.keys key = r.keys key) ∧
      ((out = .ok () ∧ (Smooth tr →
          (b.Free m r (elapsed os 2) →
            r'.list? (b.keys.queue m.queue) = .ok (m.encode codec.rfc3339 :: ys)) ∧
          (¬ b.Free m r (elapsed os 2) → r'.list? (b.keys.queue m.queue) = .ok ys))) ∨
        ((∃ e, out = .error e) ∧ ¬ Smooth tr ∧
          ((reaches os (claimCommands m) = true ∧
              r'.list? (b.keys.queue m.queue) = .ok (m.encode codec.rfc3339 :: ys)) ∨
            (reaches os (claimCommands m) = false ∧
              r'.keys (b.keys.queue m.queue) = r.keys (b.keys.queue m.queue))))) := by
  have hclaims : 0 < claimCommands m := by
    unfold claimCommands
    split <;> decide
  obtain ⟨o₁, os₁, rfl, ⟨tail₁, hfine₁, rfl, h₁⟩ | ⟨e, rfl, rfl, hlost, rfl⟩⟩ := run_conn h
  swap
  · exact ⟨fun _ _ _ => rfl, .inr ⟨⟨_, rfl⟩, not_smooth List.mem_cons_self,
      .inr ⟨reaches_of_lost os₁ hlost hclaims, rfl⟩⟩⟩
  cases hkey : m.dedupKey with
  | none =>
      rw [hkey] at h₁
      have hfree : b.Free m r (elapsed (o₁ :: os₁) 2) := by
        intro key hkey'
        rw [hkey] at hkey'
        cases hkey'
      have hreach : reaches (o₁ :: os₁) (claimCommands m) = reaches os₁ 0 := by
        simp [claimCommands, hkey, hfine₁]
      have hat : (r.advance o₁.elapsed).list? (b.keys.queue m.queue) = .ok ys :=
        (Keyspace.list?_advance_of_lasting hlasting _).trans hlist
      obtain ⟨hother, ⟨rfl, hpushed⟩ | ⟨herror, hsmooth, hqueue⟩⟩ :=
        run_push (r := r.advance o₁.elapsed) hlasting hat h₁
      · refine ⟨fun key _ hne => hother key hne, .inl ⟨rfl, fun _ => ?_⟩⟩
        exact ⟨fun _ => hpushed, fun hnot => absurd hfree hnot⟩
      · rw [hreach]
        exact ⟨fun key _ hne => hother key hne, .inr ⟨herror, fun hall => hsmooth hall.tail, hqueue⟩⟩
  | some key =>
      rw [hkey] at h₁
      obtain ⟨o₂, os₂, tail₂, rfl, h₂⟩ := run_claim h₁
      have htime : elapsed (o₁ :: o₂ :: os₂) 2 = o₁.elapsed + o₂.elapsed := by
        rw [elapsed_cons, elapsed_cons]
        rfl
      have hfree : b.Free m r (elapsed (o₁ :: o₂ :: os₂) 2) ↔
          ((r.advance o₁.elapsed).advance o₂.elapsed).get (b.keys.dedup key) = none := by
        rw [Free, hkey, htime, Keyspace.advance_advance]
        simp
      have hqueue : b.keys.queue m.queue ≠ b.keys.dedup key := b.keys.queue_ne_dedup _ _
      rcases h₂ with ⟨set, r₂, hfine₂, hset, rfl, h₃⟩ | ⟨e, rfl, h₃⟩
      · obtain ⟨-, hcases⟩ := Keyspace.setNxEx_cases (commit_ok hset)
        rcases hcases with ⟨rfl, hnone, rfl⟩ | ⟨rfl, hsome, rfl⟩
        · have hkeys : ∀ key', key' ≠ b.keys.dedup key →
              (((r.advance o₁.elapsed).advance o₂.elapsed).store (b.keys.dedup key) (.int 1)
                b.dedupTtl).keys key' = r.keys key' := fun key' hne =>
            Keyspace.keys_store_ne _ hne _ _
          have hlasting₂ : (((r.advance o₁.elapsed).advance o₂.elapsed).store (b.keys.dedup key)
              (.int 1) b.dedupTtl).Lasting (b.keys.queue m.queue) := by
            intro e he
            rw [hkeys _ hqueue] at he
            exact hlasting e he
          have hlist₂ := (Keyspace.list?_of_keys hlasting (hkeys _ hqueue)).trans hlist
          have hreach : reaches (o₁ :: o₂ :: os₂) (claimCommands m) = reaches os₂ 0 := by
            simp [claimCommands, hkey, hfine₁, hfine₂]
          obtain ⟨hother, ⟨rfl, hpushed⟩ | ⟨herror, hsmooth, hqueue'⟩⟩ := run_push hlasting₂ hlist₂ h₃
          · refine ⟨fun key' hdedup hne => ?_, .inl ⟨rfl, fun _ => ?_⟩⟩
            · rw [hother key' hne, hkeys key' (hdedup key)]
            · exact ⟨fun _ => hpushed, fun hnot => absurd (hfree.mpr hnone) hnot⟩
          · rw [hkeys _ hqueue] at hqueue'
            rw [hreach]
            refine ⟨fun key' hdedup hne => ?_,
              .inr ⟨herror, fun hall => hsmooth hall.tail.tail, hqueue'⟩⟩
            rw [hother key' hne, hkeys key' (hdedup key)]
        · obtain ⟨rfl, rfl, rfl⟩ := Service.run_ret_iff.mp
            (show (server queueOf).run os₂ (.ret (.ok ())) _ = some (tail₂, out, r') from h₃)
          refine ⟨fun _ _ _ => rfl, .inl ⟨rfl, fun _ => ?_⟩⟩
          refine ⟨fun hyes => absurd (hfree.mp hyes) hsome, fun _ => ?_⟩
          rw [Keyspace.advance_advance]
          exact (Keyspace.list?_advance_of_lasting hlasting _).trans hlist
      · -- a claim that fails is taken for a duplicate, whether it was made or not
        obtain ⟨rfl, rfl, rfl⟩ := Service.run_ret_iff.mp
          (show (server queueOf).run os₂ (.ret (.ok ())) _ = some (tail₂, out, r') from h₃)
        refine ⟨fun key' hdedup _ => keys_left_setNxEx (hdedup key), .inl ⟨rfl, fun hsmooth => ?_⟩⟩
        exact absurd hsmooth (not_smooth (List.mem_cons_of_mem _ List.mem_cons_self))

/-- A call in two parts: the second runs where the first has succeeded. -/
theorem run_then {p : Attempt σ Unit} {f : Unit → Attempt σ Unit}
    (h : (server queueOf).run os (p >>= f).run r = some (tr, out, r')) :
    ∃ tr₁ tr₂ out₁ r₁, tr = tr₁ ++ tr₂ ∧ (server queueOf).run os p.run r = some (tr₁, out₁, r₁) ∧
      ((out₁ = .ok () ∧
          (server queueOf).run (os.drop tr₁.length) (f ()).run r₁ = some (tr₂, out, r')) ∨
        ∃ e, out₁ = .error e ∧ tr₂ = [] ∧ out = .error e ∧ r' = r₁) := by
  obtain ⟨tr₁, tr₂, out₁, r₁, rfl, hfirst, hsecond⟩ := Service.run_bind
    (show (server queueOf).run os (p.run >>= ExceptT.bindCont f) r = some (tr, out, r') from h)
  refine ⟨tr₁, tr₂, out₁, r₁, rfl, hfirst, ?_⟩
  cases out₁ with
  | ok a => exact .inl ⟨rfl, hsecond⟩
  | error e =>
      obtain ⟨rfl, rfl, rfl⟩ := Service.run_ret_iff.mp
        (show (server queueOf).run _ (.ret (.error e)) r₁ = some (tr₂, out, r') from hsecond)
      exact .inr ⟨e, rfl, rfl, rfl, rfl⟩

/-- An acknowledgement leaves every other key alone. -/
theorem keys_acked_ne {key : String} (h : key ≠ b.keys.processing b.workerId) :
    (b.acked id xs r).keys key = r.keys key := by
  unfold acked
  split
  · exact Keyspace.keys_writeList_ne r h _
  · rfl

theorem clock_acked : (b.acked id xs r).clock = r.clock := by
  unfold acked
  split
  · exact Keyspace.clock_writeList _ _ _
  · rfl

end RedisBroker

end Run

end Kojin.Redis
