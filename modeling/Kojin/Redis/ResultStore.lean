/-
  Redis/ResultStore.lean --- what a reader of results finds (`kojin-redis`: `store`, `get`
  and `delete` of `result_backend.rs`).

  A result is a key with an expiry, and every `SET` gives it a new one.  Workers store,
  clients read and delete, brokers and groups use the same server; nobody waits for
  anybody.  Still a read is answered as by a table of its own: with the last result that
  was stored under the identifier, unless it was deleted since or its time is up.  A
  command whose answer was lost counts as well: what it left is there.

      changes        what a step left of the results
      finds_results  a reader finds what the changes say, in every run
-/
import Kojin.Foundation.Expiring
import Kojin.Redis.Namespace

set_option autoImplicit false

namespace Kojin.Redis

open Kojin.Foundation Kojin.Core

variable {σ : Type} [LinearOrder σ]

/-- The key holds this text, until this time. -/
def holdsText (r : Keyspace σ) (key s : String) (until? : Nat) : Bool :=
  match r.keys key with
  | some ⟨.text s', some t⟩ => s' = s && t = until?
  | _ => false

/-- What a command left under keys with texts, whatever it answered. -/
def noted : Event (clientCommands σ) → Keyspace σ → List (Write String String Nat)
  | ⟨.base (.setEx key (.text s) secs), _⟩, r =>
      if holdsText r key s (r.clock + 1000 * secs) then
        [⟨key, .put s (some (r.clock + 1000 * secs))⟩]
      else []
  | ⟨.del key, _⟩, r => if (r.keys key).isNone then [⟨key, .drop⟩] else []
  | _, _ => []

/-- What a step of the machine left there. -/
def changes {queueOf : String → Except CommandError String} {D : Deployment σ}
    (_ : (D.machine queueOf).State) (l : (D.machine queueOf).Label)
    (r : (D.machine queueOf).State) : List (Write String String Nat) :=
  match l with
  | .call e => noted e r
  | .env _ => []

theorem holdsText_iff {r : Keyspace σ} {key s : String} {until? : Nat} :
    holdsText r key s until? = true ↔ r.keys key = some ⟨.text s, some until?⟩ := by
  unfold holdsText
  constructor
  · intro h
    split at h
    · rename_i s' t hkeys
      simp only [Bool.and_eq_true, decide_eq_true_eq] at h
      rw [hkeys, h.1, h.2]
    · cases h
  · intro h
    simp [h]

/-- The entry that a change leaves. -/
def entryOf : Change String Nat → Option (Entry σ)
  | .put s until? => some ⟨.text s, until?⟩
  | .drop => none

namespace Deployment

variable {D : Deployment σ} {queueOf : String → Except CommandError String}
  {ws : List (Write String String Nat)} {r r' : Keyspace σ} {id : TaskId}

/-- The key of a result. -/
def resultKey (D : Deployment σ) (id : TaskId) : String := D.keys.result id.toText

/-- The store holds of every result what the changes left. -/
def Follows (D : Deployment σ) (ws : List (Write String String Nat)) (r : Keyspace σ) : Prop :=
  ∀ id : TaskId, r.keys (D.resultKey id) = (lastChange ws (D.resultKey id)).bind entryOf

/-- What is read is what is there at the time. -/
theorem Follows.getText (h : D.Follows ws r) (id : TaskId) :
    getText r (D.resultKey id) = .ok (valueAt ws (D.resultKey id) r.clock) := by
  have hkeys := h id
  unfold Redis.getText Keyspace.get Keyspace.live valueAt
  rw [hkeys]
  cases lastChange ws (D.resultKey id) with
  | none => rfl
  | some change =>
      cases change with
      | drop => rfl
      | put s until? =>
          simp only [Option.bind_some, entryOf, Change.valueAt, Option.filter_some]
          have halive : Keyspace.Entry.alive r.clock (⟨.text s, until?⟩ : Entry σ) =
              until?.all (r.clock < ·) := rfl
          by_cases hcurrent : until?.all (r.clock < ·) = true
          · rw [if_pos (halive.trans hcurrent), if_pos hcurrent]
            rfl
          · rw [if_neg (halive.trans_ne hcurrent), if_neg hcurrent]
            rfl

/-! ## One step -/

theorem Follows.advance (h : D.Follows ws r) (millis : Nat) : D.Follows ws (r.advance millis) := h

/-- A step that neither writes to the key of a result nor notes a change. -/
theorem Follows.quiet (h : D.Follows ws r)
    (hkeys : ∀ id, r'.keys (D.resultKey id) = r.keys (D.resultKey id)) :
    D.Follows (ws ++ []) r' := by
  intro id
  rw [hkeys, List.append_nil]
  exact h id

/-- A step that notes what it left under one key. -/
theorem Follows.changed (h : D.Follows ws r) {w : Write String String Nat}
    (hself : r'.keys w.key = entryOf w.change)
    (hother : ∀ key, key ≠ w.key → r'.keys key = r.keys key) : D.Follows (ws ++ [w]) r' := by
  intro id
  rw [lastChange_snoc]
  split
  · rename_i hkey
    rw [← hkey, hself]
    rfl
  · rename_i hkey
    rw [hother _ fun heq => hkey heq.symm]
    exact h id

theorem noted_other {op : ClientOp σ}
    (hset : ∀ key s secs, op ≠ .base (.setEx key (.text s) secs)) (hdel : ∀ key, op ≠ .del key)
    (answer : Except CommandError op.Ans) (r : Keyspace σ) : noted ⟨op, answer⟩ r = [] := by
  cases op with
  | base op =>
      cases op with
      | setEx key value secs =>
          cases value with
          | text s => exact absurd rfl (hset key s secs)
          | _ => rfl
      | _ => rfl
  | del key => exact absurd rfl (hdel key)
  | _ => rfl

/-- Every text that was put is that of a value. -/
def Printed (ws : List (Write String String Nat)) : Prop :=
  ∀ w ∈ ws, ∀ s until?, w.change = .put s until? → IsResult s

/-- What the notes say, and the store holds. -/
structure Recorded (D : Deployment σ) (ws : List (Write String String Nat)) (r : Keyspace σ) :
    Prop where
  follows : D.Follows ws r
  printed : Printed ws

theorem Printed.append {ws' : List (Write String String Nat)} (h : Printed ws)
    (h' : Printed ws') : Printed (ws ++ ws') := by
  intro w hw
  rcases List.mem_append.mp hw with hw | hw
  · exact h w hw
  · exact h' w hw

/-- A step that leaves the results alone, and notes nothing. -/
theorem Recorded.quiet (h : D.Recorded ws r)
    (hkeys : ∀ id, r'.keys (D.resultKey id) = r.keys (D.resultKey id)) :
    D.Recorded (ws ++ []) r' := by
  refine ⟨h.follows.quiet hkeys, ?_⟩
  rw [List.append_nil]
  exact h.printed

/-- A result is set, or it is not. -/
theorem Recorded.setEx (h : D.Recorded ws r) {key s : String} {secs : Nat}
    {answer : Except CommandError Unit} (hs : IsResult s)
    (hstate : r' = r ∨ r' = r.store key (.text s) secs) :
    D.Recorded (ws ++ noted ⟨.base (.setEx key (.text s) secs), answer⟩ r') r' := by
  have hother : ∀ k, k ≠ key → r'.keys k = r.keys k := by
    intro k hk
    rcases hstate with rfl | rfl
    · rfl
    · exact r.keys_store_ne hk _ _
  simp only [noted]
  split
  · rename_i hholds
    refine ⟨h.follows.changed (holdsText_iff.mp hholds) hother,
      h.printed.append fun w hw s' until? hput => ?_⟩
    rw [List.mem_singleton.mp hw] at hput
    cases hput
    exact hs
  · rename_i hnot
    rcases hstate with rfl | rfl
    · exact h.quiet fun _ => rfl
    · exact absurd (holdsText_iff.mpr (r.keys_store_self key (.text s) secs)) hnot

/-- A result is deleted, or it is not. -/
theorem Recorded.del (h : D.Recorded ws r) {key : String} {answer : Except CommandError Unit}
    (hstate : r' = r ∨ r' = r.remove key) :
    D.Recorded (ws ++ noted ⟨.del key, answer⟩ r') r' := by
  have hother : ∀ k, k ≠ key → r'.keys k = r.keys k := by
    intro k hk
    rcases hstate with rfl | rfl
    · rfl
    · exact Keyspace.keys_remove_ne _ hk
  simp only [noted]
  split
  · rename_i hnone
    refine ⟨h.follows.changed (Option.isNone_iff_eq_none.mp hnone) hother,
      h.printed.append fun w hw s u hput => ?_⟩
    rw [List.mem_singleton.mp hw] at hput
    cases hput
  · rename_i hnot
    rcases hstate with rfl | rfl
    · exact h.quiet fun _ => rfl
    · have hgone : (r.remove key).keys key = none := Function.update_self _ _ _
      exact absurd (Option.isNone_iff_eq_none.mpr hgone) hnot

/-- A command that is carried out. -/
theorem Recorded.performed (h : D.Recorded ws r)
    (hscheduled : D.keys.scheduled.replace ":scheduled" "" = D.keys.keyPrefix)
    {order : List String} {op : ClientOp σ} (hop : D.Proper op)
    {done answer : Except CommandError op.Ans}
    (hperform : performClient queueOf order r op = (done, r')) :
    D.Recorded (ws ++ noted ⟨op, answer⟩ r') r' := by
  by_cases hset : ∃ key s secs, op = .base (.setEx key (.text s) secs)
  · obtain ⟨key, s, secs, rfl⟩ := hset
    have hs : IsResult s := by
      rcases hop with ⟨id, v, -, hv⟩ | ⟨group, total, -, hv⟩
      · cases hv
        exact ⟨v, rfl⟩
      · cases hv
    refine h.setEx hs ?_
    have hcommit : perform queueOf r (.setEx key (.text s) secs) = (done, r') := hperform
    rcases commit_map_cases hcommit with ⟨-, hdone⟩ | ⟨e, -, -, rfl⟩
    · exact .inr (Keyspace.setEx_cases hdone)
    · exact .inl rfl
  by_cases hdel : ∃ key, op = .del key
  · obtain ⟨key, rfl⟩ := hdel
    cases hperform
    exact h.del (.inr rfl)
  -- no other command writes to the key of a result
  rw [noted_other (fun key s secs heq => hset ⟨key, s, secs, heq⟩) fun key heq => hdel ⟨key, heq⟩]
  refine h.quiet fun id => ?_
  refine keys_performClient (fun htouch => ?_) hperform
  obtain ⟨y, hy, hwriter⟩ := writer_of_touches hscheduled hop htouch
  obtain rfl : KeyObject.result id.toText = y := key_injective D.keys hy
  rcases hwriter with ⟨v, secs, rfl⟩ | rfl
  · rcases hop with ⟨id', v', -, rfl⟩ | ⟨group, total, heq, -⟩
    · exact hset ⟨_, _, _, rfl⟩
    · cases key_injective D.keys (show D.keys.key (.result id.toText) =
        D.keys.key (.groupTotal group) from heq)
  · exact hdel ⟨_, rfl⟩

/-- A command that does not arrive. -/
theorem Recorded.lost (h : D.Recorded ws r) {op : ClientOp σ} (hop : D.Proper op)
    (answer : Except CommandError op.Ans) : D.Recorded (ws ++ noted ⟨op, answer⟩ r) r := by
  by_cases hset : ∃ key s secs, op = .base (.setEx key (.text s) secs)
  · obtain ⟨key, s, secs, rfl⟩ := hset
    rcases hop with ⟨id, v, -, hv⟩ | ⟨group, total, -, hv⟩
    · cases hv
      exact h.setEx ⟨v, rfl⟩ (.inl rfl)
    · cases hv
  by_cases hdel : ∃ key, op = .del key
  · obtain ⟨key, rfl⟩ := hdel
    exact h.del (.inl rfl)
  rw [noted_other (fun key s secs heq => hset ⟨key, s, secs, heq⟩) fun key heq => hdel ⟨key, heq⟩]
  exact h.quiet fun _ => rfl

/-- One command. -/
theorem Recorded.respond (h : D.Recorded ws r)
    (hscheduled : D.keys.scheduled.replace ":scheduled" "" = D.keys.keyPrefix) {o : ClientOracle}
    {op : ClientOp σ} (hop : D.Proper op) {answer : Except CommandError op.Ans}
    (hrespond : (clientServer queueOf).respond o r op = some (answer, r')) :
    D.Recorded (ws ++ noted ⟨op, answer⟩ r') r' := by
  have hlater : D.Recorded ws (r.advance o.elapsed) := ⟨h.follows.advance _, h.printed⟩
  rcases clientServer_respond hrespond with ⟨rfl, -⟩ | ⟨done, hperform, -⟩
  · exact hlater.lost hop answer
  · exact hlater.performed hscheduled hop hperform

/-! ## A read -/

/-- The result of a task that a reader finds: it was stored, neither stored again nor
deleted since, and its time is not up. -/
def Stored (D : Deployment σ) (ws : List (Write String String Nat)) (id : TaskId) (now : Nat)
    (v : Json) : Prop :=
  ∃ before until? after, ws = before ++ ⟨D.resultKey id, .put v.print until?⟩ :: after ∧
    (∀ w ∈ after, w.key ≠ D.resultKey id) ∧ Current now until?

/-- A command of `get`, when none is lost. -/
theorem run_clientCommand {α : Type} {err : CommandError → KojinError} {op : ClientOp σ}
    {f : op.Ans → ClientAttempt σ α} {os : List ClientOracle} {out : TaskResult α}
    {tr : List (Event (clientCommands σ))} (hos : ∀ o ∈ os, o.failure = none)
    (h : (clientServer queueOf).run os (clientCommand err op >>= f).run r = some (tr, out, r')) :
    ∃ o rest answer r₁ tail, os = o :: rest ∧
      performClient queueOf o.order (r.advance o.elapsed) op = (answer, r₁) ∧
      (clientServer queueOf).run rest
        (match answer with
          | .ok a => (f a).run
          | .error e => pure (.error (err e))) r₁ = some (tail, out, r') := by
  obtain ⟨o, rest, answer, r₁, tail, rfl, hrespond, rfl, hrest⟩ := Service.run_call_iff.mp
    (show (clientServer queueOf).run os (.call op _) r = some (tr, out, r') from h)
  have hperform : performClient queueOf o.order (r.advance o.elapsed) op = (answer, r₁) := by
    unfold clientServer at hrespond
    dsimp only at hrespond
    split at hrespond
    · cases hrespond
    · rw [hos o List.mem_cons_self] at hrespond
      exact Option.some.inj hrespond
  refine ⟨o, rest, answer, r₁, tail, rfl, hperform, ?_⟩
  cases answer with
  | ok a => exact hrest
  | error e => exact hrest

/-- What a reader of results finds.  After any run of any number of brokers, workers,
backends and readers, with any commands and answers lost, `get` answers, when nothing of
its own commands is lost, with what is read back from the text of the value that is
stored, and with none if no value is. -/
theorem finds_results (hscheduled : ¬ ":scheduled".toList <:+: D.keys.keyPrefix.toList)
    {r₀ : Keyspace σ} (hfresh : ∀ id, r₀.keys (D.resultKey id) = none)
    {c : (D.machine queueOf).Config} (h : Machine.Observed changes ⟨r₀, []⟩ ws c)
    {ttl : Nat} {os : List ClientOracle} (hos : ∀ o ∈ os, o.failure = none)
    {tr : List (Event (clientCommands σ))} {out : TaskResult (Option Json)}
    (hrun : (clientServer queueOf).run os ((D.backend ttl).get D.decode id).run c.state =
      some (tr, out, r')) :
    (∀ v, D.Stored ws id r'.clock v →
        out = ((D.decode v.print).mapError .serialization).map some) ∧
      ((∀ v, ¬ D.Stored ws id r'.clock v) → out = .ok none) := by
  have hpoll := (pollPrefix_eq_iff D.keys).mpr hscheduled
  have hrecorded : D.Recorded ws c.state := by
    refine (h.rule (C := D.Proper) (J := D.Recorded) proper_entry ?_ ?_
      (fun p hp => (List.not_mem_nil hp).elim) ⟨fun id => hfresh id, fun w hw =>
        (List.not_mem_nil hw).elim⟩).1
    · intro ws call s s' new hs haccept
      cases haccept
      have hnone : @changes _ _ queueOf D s (.env call) s = [] := rfl
      rw [hnone, List.append_nil]
      exact hs
    · intro ws o s op answer s' hs hop hrespond
      exact hs.respond hpoll hop hrespond
  obtain ⟨o, rest, answer, r₁, tail, rfl, hconn, hrest⟩ := run_clientCommand hos hrun
  cases hconn
  obtain ⟨o', rest', answer', r₂, tail', rfl, hget, hlast⟩ :=
    run_clientCommand (fun o' ho' => hos o' (List.mem_cons_of_mem o ho')) hrest
  have hread := ((hrecorded.follows.advance o.elapsed).advance o'.elapsed).getText id
  cases hget
  have hkey : (D.backend ttl).keys.result id.toText = D.resultKey id := rfl
  rw [hkey, hread] at hlast
  cases hvalue : valueAt ws (D.resultKey id)
      (((Keyspace.advance c.state o.elapsed).advance o'.elapsed).clock) with
  | none =>
      rw [hvalue] at hlast
      obtain ⟨-, rfl, rfl⟩ := Service.run_ret_iff.mp hlast
      refine ⟨fun v hv => ?_, fun _ => rfl⟩
      rw [valueAt_eq_some_iff.mpr hv] at hvalue
      cases hvalue
  | some s =>
      obtain ⟨before, until?, after, hsplit, hafter, hcurrent⟩ := valueAt_eq_some_iff.mp hvalue
      have hmem : (⟨D.resultKey id, .put s until?⟩ : Write String String Nat) ∈ ws := by
        rw [hsplit]
        exact List.mem_append.mpr (.inr List.mem_cons_self)
      obtain ⟨v, rfl⟩ := hrecorded.printed _ hmem s until? rfl
      rw [hvalue] at hlast
      have hdecoded : (clientServer queueOf).run rest'
          (.ret (((D.decode v.print).mapError KojinError.serialization).map some))
          ((Keyspace.advance c.state o.elapsed).advance o'.elapsed) = some (tail', out, r') := by
        rw [← hlast]
        show _ = (clientServer queueOf).run rest' (ExceptT.run (do
          let v' ← ExceptT.mk (pure ((D.decode v.print).mapError KojinError.serialization))
          pure (some v'))) _
        cases D.decode v.print <;> rfl
      obtain ⟨-, rfl, rfl⟩ := Service.run_ret_iff.mp hdecoded
      refine ⟨fun v' hv => ?_, fun hnone =>
        absurd ⟨before, until?, after, hsplit, hafter, hcurrent⟩ (hnone v)⟩
      rw [valueAt_eq_some_iff.mpr hv] at hvalue
      rw [Json.print_inj (Option.some.inj hvalue)]

/-! ## A result is stored and read -/

/-- A client asks for the result. -/
def reader : ClientAttempt Nat (Option Json) := (plain.backend 0).get plain.decode ⟨1⟩

/-- The client takes its connection just before the result expires. -/
def readLate : List ClientOracle := [⟨⟨59999, none⟩, []⟩, atOnce]

theorem readLate_arrives : ∀ o ∈ readLate, o.failure = none := by
  intro o ho
  rcases List.mem_cons.mp ho with rfl | ho
  · rfl
  · rw [List.mem_singleton.mp ho]
    rfl

/-- A producer sends a message, a worker takes it, and its result is stored, but the
worker does not hear of it. -/
def unheardSchedule : List (plain.machine plainQueue).Move :=
  plainSchedule.dropLast ++ [.run 2 ⟨⟨0, some (.answer "connection reset")⟩, []⟩]

theorem unheardSchedule_notes : (Machine.Config.notesOf (M := plain.machine plainQueue) changes
    ⟨Keyspace.empty 0, []⟩ unheardSchedule).isSome = true := by
  decide +kernel

theorem finds_results_plain : ∃ (c : (plain.machine plainQueue).Config) (tr : List _)
    (r' : Keyspace Nat), (clientServer plainQueue).run readLate reader.run
      c.state = some (tr, .ok (some .null), r') := by
  have hobserved := Machine.Config.observed_of_get unheardSchedule_notes
  generalize hget : (Machine.Config.notesOf (M := plain.machine plainQueue) changes
    ⟨Keyspace.empty 0, []⟩ unheardSchedule).get unheardSchedule_notes = p at hobserved
  have hnotes : p.1 = [⟨plain.resultKey ⟨1⟩, .put Json.null.print (some 60000)⟩] := by
    rw [← hget]
    decide +kernel
  have hruns : ((clientServer plainQueue).run readLate reader.run
      p.2.state).isSome = true := by
    rw [← hget]
    decide +kernel
  have hclock : (((clientServer plainQueue).run readLate reader.run
      p.2.state).map fun q => Keyspace.clock q.2.2) = some 59999 := by
    rw [← hget]
    decide +kernel
  obtain ⟨⟨tr, out, r'⟩, hrun⟩ := Option.isSome_iff_exists.mp hruns
  rw [hrun] at hclock
  have hnow : r'.clock = 59999 := Option.some.inj hclock
  have hstored : plain.Stored p.1 ⟨1⟩ r'.clock .null := by
    refine ⟨[], some 60000, [], hnotes, fun w hw => (List.not_mem_nil hw).elim, ?_⟩
    intro t ht
    cases ht
    omega
  have hout := (finds_results (by decide) (fun _ => rfl) hobserved readLate_arrives hrun).1
    .null hstored
  have hnull : plain.decode Json.null.print = .ok .null := by
    show (if Json.null.print = Json.null.print then Except.ok Json.null else Except.error "") = _
    rw [if_pos rfl]
  rw [hnull] at hout
  rw [hout] at hrun
  exact ⟨p.2, tr, r', hrun⟩

end Deployment

end Kojin.Redis
