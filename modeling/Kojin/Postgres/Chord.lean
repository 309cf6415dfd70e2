/-
  Postgres/Chord.lean --- the callback of a chord over PostgreSQL, statement by statement
  (`kojin-postgres`: `result_backend.rs`, `kojin-core`: `worker.rs`).

  A member that completes upserts its row and then counts the rows in a statement of its
  own; the one that counts all of them enqueues the callback.  Between the two statements
  other workers run theirs:

      one at a time      upsert, count 1, upsert, count 2       one callback
      side by side       upsert, upsert, count 2, count 2       two callbacks

  The callback is enqueued once when nobody is between his upsert and his COUNT at the
  moment of the last upsert.
-/
import Kojin.Core.Correlation
import Kojin.Core.Chord
import Kojin.Postgres.ResultBackend

set_option autoImplicit false

namespace Kojin.Postgres

open Kojin.Foundation Kojin.Core

/-! ## Workers, statement by statement -/

/-- Workers over a broker and the PostgreSQL backend: a method of the broker is one step,
and so is a statement of the backend, which fails or is carried out and answered. -/
def statementWorkers (C : Carrier) (b : PostgresResultBackend) (types : PgTypes)
    (codec : Codec) : Machine (system brokerTrait statements) where
  toService := systemService C.broker (firmServer types)
  Stimulus := CarrierStimulus C
  accept
    | .enqueue o m, (q, s) => (C.broker.respond o q (.enqueue m)).map fun p => ((p.2, s), [])
    | .arrive w x, (q, s) => (C.arrive x q).map fun p =>
        ((p.1, s), (p.2.map fun m => link directBroker b.driver (executeTask w codec m)).toList)

/-- A member of the chord: its group, the announced total, and the callback. -/
structure IsMember (group : String) (total : UInt32) (cb m : TaskMessage) : Prop where
  group : m.groupId = some group
  total : m.groupTotal = some total
  callback : m.chordCallback = some cb

/-- A message that has nothing to do with the chord. -/
structure IsOther (group : String) (i : TaskId) (m : TaskMessage) : Prop where
  group : m.groupId ≠ some group
  callback : ∀ cb, m.chordCallback = some cb → cb.id ≠ i

/-- The message that `apply` makes for a member is one. -/
theorem isMember_member (correlation group : String) (total : UInt32) (cb : TaskMessage)
    (sig : Signature) (now : DateTime) (id : TaskId) :
    IsMember group total cb (Canvas.member correlation group total (some cb) sig now id) :=
  ⟨rfl, rfl, rfl⟩

/-! ## The way of a member -/

/-- Where an execution stands: a member before its upsert, between its upsert and its
COUNT, or about to enqueue the callback; anything else; and what cannot be followed
because an identifier was drawn twice. -/
inductive Part where
  | before
  | counting
  | firing
  | done
  | lost
deriving DecidableEq

/-- The calls that do not matter to the chord. -/
def Quiet (group : String) (i : TaskId) : (system brokerTrait statements).Op → Prop
  | .backend (.upsertMember g _ _) => g ≠ group
  | .backend (.countMembers g) => g ≠ group
  | .broker (.enqueue m) => m.id ≠ i
  | _ => True

section Protocol

variable (group : String) (total : UInt32) (i : TaskId)

/-- Which call leads from where to where. -/
inductive Part.Step : Part → (op : (system brokerTrait statements).Op) →
    (system brokerTrait statements).Res op → Part → Prop where
  | quiet {u : Part} {op : (system brokerTrait statements).Op}
      (r : (system brokerTrait statements).Res op) :
      u ≠ .counting → Quiet group i op → Step u op r u
  | upsert (task : String) (result : Json) :
      Step .before (.backend (.upsertMember group task result)) (.ok ()) .counting
  | upsertFailed (task : String) (result : Json) (e : SqlError) :
      Step .before (.backend (.upsertMember group task result)) (.error e) .done
  | countLast {k : Nat} : UInt32.ofNat k = total →
      Step .counting (.backend (.countMembers group)) (.ok k) .firing
  | countOther {k : Nat} : UInt32.ofNat k ≠ total →
      Step .counting (.backend (.countMembers group)) (.ok k) .done
  | countFailed (e : SqlError) :
      Step .counting (.backend (.countMembers group)) (.error e) .done
  | fire {m : TaskMessage} (r : TaskResult Unit) : m.id = i →
      Step .firing (.broker (.enqueue m)) r .done
  | draw : Step .done (.runtime .newTaskId) i .lost
  | lost (op : (system brokerTrait statements).Op) (r : (system brokerTrait statements).Res op) :
      Step .lost op r .lost

/-- Where an execution may stop. -/
def Part.Final (u : Part) : Prop := u ≠ .counting ∧ u ≠ .firing

/-- The protocol of an execution, as far as the chord is concerned. -/
abbrev part : Protocol (system brokerTrait statements) :=
  ⟨Part, Part.Step group total i, Part.Final⟩

end Protocol

section Protocol

variable {group : String} {total : UInt32} {cb : TaskMessage} {codec : Codec}

/-- What is lost stays so. -/
theorem wp_lost {α : Type} {i : TaskId} (p : Prog (system brokerTrait statements) α) :
    p.wp (part group total i) .lost fun _ u => u = .lost := by
  induction p with
  | ret a => exact rfl
  | call op k ih => exact fun r => ⟨.lost, .lost op r, ih r⟩

/-- Calls that do not matter lead nowhere. -/
theorem wp_quiet {α : Type} {i : TaskId} {p : Prog (system brokerTrait statements) α}
    (h : p.Calls (Quiet group i)) {u : Part} (hu : u ≠ .counting) :
    p.wp (part group total i) u fun _ u' => u' = u := by
  induction p with
  | ret a => exact rfl
  | call op k ih => exact fun r => ⟨u, .quiet r hu h.1, ih r (h.2 r)⟩

/-- A message at the start of its execution. -/
inductive Starts (group : String) (total : UInt32) (cb m : TaskMessage) : Part → Prop where
  | member : IsMember group total cb m → Starts group total cb m .before
  | other : IsOther group cb.id m → Starts group total cb m .done

/-- A retried or buried copy of a message starts where the message did. -/
theorem Starts.copy {m m' : TaskMessage} {u : Part} (h : Starts group total cb m u)
    (hgroup : m'.groupId = m.groupId) (htotal : m'.groupTotal = m.groupTotal)
    (hcallback : m'.chordCallback = m.chordCallback) : Starts group total cb m' u := by
  cases h with
  | member h =>
      exact .member ⟨hgroup.trans h.group, htotal.trans h.total, hcallback.trans h.callback⟩
  | other h =>
      exact .other ⟨hgroup ▸ h.group, fun x hx => h.callback x (hcallback ▸ hx)⟩

theorem Starts.ne_counting {m : TaskMessage} {u : Part} (h : Starts group total cb m u) :
    u ≠ .counting := by
  cases h <;> exact Part.noConfusion

/-- Where an execution at a stage of its lifecycle stands. -/
def At (group : String) (total : UInt32) (cb : TaskMessage) (u : Part) : Stage → Prop
  | .received _ m => Starts group total cb m u
  | .cleared _ m => Starts group total cb m u
  | .postponed m _ => Starts group total cb m u
  | .released m _ => Starts group total cb m u
  | .running _ m => Starts group total cb m u
  | .erred m => Starts group total cb m u
  | .failed m => Starts group total cb m u
  | .toRetry m => Starts group total cb m u
  | .toBury m => Starts group total cb m u
  | .succeeded _ m _ => Starts group total cb m u
  | .acked _ m _ => Starts group total cb m u
  | .stored m _ => Starts group total cb m u
  | .calling _ _ callback => u = if callback.id = cb.id then .firing else .done
  | .collected _ _ callback => u = if callback.id = cb.id then .firing else .done
  | .wrapping _ _ => u = .done
  | .minting _ _ _ => u = .done
  | .continuing _ _ next => u = .done ∧ next.id ≠ cb.id
  | .chained _ _ => u = .done
  | .finished _ _ => u = .before ∨ u = .done
  | .gone => u = .before ∨ u = .done

/-- Only a member between its statements is counting. -/
theorem At.ne_counting {u : Part} {t : Stage} (h : At group total cb u t) : u ≠ .counting := by
  rintro rfl
  cases t with
  | calling m result callback =>
      have hif : Part.counting = if callback.id = cb.id then Part.firing else .done := h
      split at hif <;> cases hif
  | collected m result callback =>
      have hif : Part.counting = if callback.id = cb.id then Part.firing else .done := h
      split at hif <;> cases hif
  | wrapping m result => cases h
  | minting m result now => cases h
  | continuing m result next => exact Part.noConfusion h.1
  | chained m result => cases h
  | finished m result => rcases h with h | h <;> cases h
  | gone => rcases h with h | h <;> cases h
  | _ => exact Starts.ne_counting h rfl

/-- The group results change the headers of the callback only. -/
theorem withGroupResults_id (callback : TaskMessage) (r : TaskResult (List Json)) :
    (callback.withGroupResults r).id = callback.id := by
  cases r <;> rfl

/-- A call of the runtime leads an execution nowhere, unless it draws the identifier of
the callback for the next step of a chain. -/
theorem At.runtime {u : Part} {t t' : Stage} {op : RuntimeOp} {r : op.Res}
    (h : At group total cb u t) (hstep : Stage.Step codec t (.runtime op) r t') :
    At group total cb u t' ∨
      (u = .done ∧ (⟨op, r⟩ : (op : RuntimeOp) × op.Res) = ⟨.newTaskId, cb.id⟩) := by
  cases hstep with
  | retry now hlt => exact .inl (Starts.copy h rfl rfl rfl)
  | bury now hnot => exact .inl (Starts.copy h rfl rfl rfl)
  | completeWithoutBackend m result =>
      refine .inl ?_
      cases h with
      | member _ => exact .inl rfl
      | other _ => exact .inr rfl
  | complete result hnone => exact .inl (.inr h)
  | completeChained m result => exact .inl (.inr h)
  | @name m sig rest result now id hsome =>
      have hid := (chainStep_plain codec m result sig rest now id).2.2
      by_cases hdrawn : id = cb.id
      · exact .inr ⟨h, by rw [hdrawn]⟩
      · exact .inl ⟨h, fun heq => hdrawn (hid.symm.trans heq)⟩
  | _ => exact .inl h

/-- A method of the broker that does not matter. -/
theorem Part.Step.stay {u : Part} {i : TaskId} {op : BrokerOp} {r : TaskResult Unit}
    (hu : u ≠ .counting) (h : Quiet group i (.broker op)) :
    Part.Step group total i u (.broker op) r u := .quiet r hu h

/-- A method of the broker: the execution enqueues the callback, or the call does not
matter. -/
theorem At.broker {u : Part} {t t' : Stage} {op : BrokerOp} {r : TaskResult Unit}
    (h : At group total cb u t) (hstep : Stage.Step codec t (.broker op) r t') :
    ∃ u', Part.Step group total cb.id u (.broker op) r u' ∧ At group total cb u' t' := by
  have hu := h.ne_counting
  have hgone : ∀ {m : TaskMessage}, Starts group total cb m u → At group total cb u .gone := by
    intro m hm
    cases hm with
    | member _ => exact .inl rfl
    | other _ => exact .inr rfl
  cases hstep with
  | callback m result callback =>
      by_cases hid : callback.id = cb.id
      · have hfiring : u = .firing := h.trans (if_pos hid)
        rw [hfiring]
        exact ⟨.done, .fire r hid, rfl⟩
      · have hdone : u = .done := h.trans (if_neg hid)
        exact ⟨u, .stay hu hid, hdone⟩
  | chain m result next => exact ⟨u, .stay hu h.2, h.1⟩
  | ack b m result => exact ⟨u, .stay hu trivial, h⟩
  | release m eta => exact ⟨u, .stay hu trivial, h⟩
  | reschedule m eta => exact ⟨u, .stay hu trivial, hgone h⟩
  | nack m => exact ⟨u, .stay hu trivial, hgone h⟩
  | deadLetter m => exact ⟨u, .stay hu trivial, hgone h⟩

/-- A member is counted. -/
theorem IsMember.counted {m : TaskMessage} {result : Json} {c : UInt32} {t' : Stage}
    (hm : IsMember group total cb m) (hstep : Stage.Step codec (.stored m result)
      (.backend (.completeGroupMember group m.id result)) (.ok c) t') :
    At group total cb (if c = total then .firing else .done) t' := by
  have hdue : m.callbackDue c = if c = total then some cb else none := by
    rw [TaskMessage.callbackDue, hm.total, hm.callback, Option.getD_some]
  cases hstep with
  | countLast _ _ hsome =>
      rw [hsome] at hdue
      split at hdue
      · cases hdue
        rw [if_pos ‹_›]
        exact (if_pos rfl).symm
      · cases hdue
  | countOther _ _ hnone =>
      rw [hnone] at hdue
      split at hdue
      · cases hdue
      · rw [if_neg ‹_›]
        exact rfl

/-- A member is not counted, because a statement has failed. -/
theorem uncounted {m : TaskMessage} {result : Json} {e : KojinError} {t' : Stage}
    (hstep : Stage.Step codec (.stored m result)
      (.backend (.completeGroupMember group m.id result)) (.error e) t') :
    At group total cb .done t' := by
  cases hstep with
  | countFailed => exact rfl

/-- A member completes: it upserts its row, and then it counts. -/
theorem IsMember.complete {b : PostgresResultBackend} {m : TaskMessage} {result : Json}
    {f : TaskResult UInt32 → Stage} (hm : IsMember group total cb m)
    (hstep : ∀ r, Stage.Step codec (.stored m result)
      (.backend (.completeGroupMember group m.id result)) r (f r)) :
    (onBackend (b.driver (.completeGroupMember group m.id result)) :
      Prog (system brokerTrait statements) (TaskResult UInt32)).wp (part group total cb.id) .before
        fun r u => At group total cb u (f r) := by
  intro r
  cases r with
  | error e => exact ⟨.done, .upsertFailed m.id.toText result e, uncounted (hstep _)⟩
  | ok a =>
      refine ⟨.counting, .upsert m.id.toText result, ?_⟩
      intro count
      cases count with
      | error e => exact ⟨.done, .countFailed e, uncounted (hstep _)⟩
      | ok k =>
          have hcounted := hm.counted (hstep (.ok (UInt32.ofNat k)))
          by_cases hk : UInt32.ofNat k = total
          · rw [if_pos hk] at hcounted
            exact ⟨.firing, .countLast hk, hcounted⟩
          · rw [if_neg hk] at hcounted
            exact ⟨.done, .countOther hk, hcounted⟩

/-- The callback a counted message owes is the one it carries. -/
theorem callback_of_due {m callback : TaskMessage} {c : UInt32}
    (h : m.callbackDue c = some callback) : m.chordCallback = some callback := by
  unfold TaskMessage.callbackDue at h
  split at h
  · exact h
  · cases h

/-- A message that completes in the group is a member, and about to be upserted. -/
theorem Starts.member_of_group {m : TaskMessage} {u : Part} (h : Starts group total cb m u)
    (hgroup : m.groupId = some group) : IsMember group total cb m ∧ u = .before := by
  cases h with
  | member hm => exact ⟨hm, rfl⟩
  | other ho => exact absurd hgroup ho.group

/-- A message outside the group is none. -/
theorem Starts.other_of_group {m : TaskMessage} {u : Part} (h : Starts group total cb m u)
    (hgroup : m.groupId ≠ some group) : IsOther group cb.id m ∧ u = .done := by
  cases h with
  | member hm => exact absurd hm.group hgroup
  | other ho => exact ⟨ho, rfl⟩

/-- A method of the backend leads an execution nowhere, unless it completes a member. -/
theorem At.backend {u : Part} {t t' : Stage} {op : ResultBackendOp} {r : op.Res}
    (h : At group total cb u t) (hstep : Stage.Step codec t (.backend op) r t')
    (hother : ∀ task result, op ≠ .completeGroupMember group task result) :
    At group total cb u t' := by
  have hne : ∀ {m : TaskMessage} {g : String} {result : Json}, m.groupId = some g →
      (∀ task x, ResultBackendOp.completeGroupMember g m.id result ≠
        .completeGroupMember group task x) → m.groupId ≠ some group := by
    intro m g result hgroup hother heq
    rw [hgroup] at heq
    cases heq
    exact hother m.id result rfl
  cases hstep with
  | storeMember result r hgroup => exact h
  | storeLone result r hnone =>
      refine (Starts.other_of_group h ?_).2
      rw [hnone]
      exact Option.some_ne_none group |>.symm
  | @countLast m callback g result c hgroup hdue =>
      obtain ⟨ho, hu⟩ := Starts.other_of_group h (hne hgroup hother)
      exact hu.trans (if_neg (ho.callback callback (callback_of_due hdue))).symm
  | @countOther m g result c hgroup hdue =>
      exact (Starts.other_of_group h (hne hgroup hother)).2
  | @countFailed m g result e hgroup =>
      exact (Starts.other_of_group h (hne hgroup hother)).2
  | collect result callback r hgroup =>
      show u = if (callback.withGroupResults r).id = cb.id then .firing else .done
      rw [withGroupResults_id]
      exact h

/-- Only a message that has been stored completes in a group. -/
theorem stored_of_complete {t t' : Stage} {g : String} {task : TaskId} {result : Json}
    {r : TaskResult UInt32}
    (hstep : Stage.Step codec t (.backend (.completeGroupMember g task result)) r t') :
    ∃ m, t = .stored m result ∧ task = m.id ∧ m.groupId = some g := by
  cases hstep with
  | countLast result hgroup _ => exact ⟨_, rfl, rfl, hgroup⟩
  | countOther result hgroup _ => exact ⟨_, rfl, rfl, hgroup⟩
  | countFailed result e hgroup => exact ⟨_, rfl, rfl, hgroup⟩

/-- The statements of a method that does not complete a member. -/
theorem quiet_driver (b : PostgresResultBackend) {i : TaskId} {op : ResultBackendOp}
    (hother : ∀ task result, op ≠ .completeGroupMember group task result) :
    (onBackend (b.driver op) : Prog (system brokerTrait statements) op.Res).Calls
      (Quiet group i) := by
  cases op with
  | store id result =>
      refine ⟨trivial, fun now => ?_⟩
      show (PostgresResultBackend.storeUntil id result
        (PostgresResultBackend.expiresAt now b.ttlSecs) |>.interp _).Calls _
      cases PostgresResultBackend.expiresAt now b.ttlSecs with
      | none => exact ⟨trivial, fun _ => trivial⟩
      | some t => exact ⟨trivial, fun _ => trivial⟩
  | initGroup g n =>
      show (onBackend (PostgresResultBackend.insertPlaceholders g (List.range n.toNat))).Calls _
      induction List.range n.toNat with
      | nil => trivial
      | cons k rest ih =>
          refine ⟨trivial, fun r => ?_⟩
          cases r with
          | error e => trivial
          | ok a => exact ih
  | completeGroupMember g task result =>
      have hne : g ≠ group := by
        rintro rfl
        exact hother task result rfl
      refine ⟨hne, fun r => ?_⟩
      cases r with
      | error e => trivial
      | ok a => exact ⟨hne, fun _ => trivial⟩
  | getGroupResults g => exact ⟨trivial, fun _ => trivial⟩

/-- The implementation of a call follows the protocol of the chord. -/
theorem drive_part (b : PostgresResultBackend) (t : Stage) (u : Part) (op : traits.Op)
    (f : traits.Res op → Stage) (h : u = .lost ∨ At group total cb u t)
    (hstep : ∀ r, Stage.Step codec t op r (f r)) :
    (drive directBroker b.driver op).wp (part group total cb.id) u
      fun r u' => u' = .lost ∨ At group total cb u' (f r) := by
  rcases h with rfl | h
  · exact Prog.wp_mono (wp_lost _) fun _ _ hlost => .inl hlost
  cases op with
  | runtime op =>
      intro r
      rcases h.runtime (hstep r) with hat | ⟨rfl, heq⟩
      · exact ⟨u, .quiet r h.ne_counting trivial, .inr hat⟩
      · cases heq
        exact ⟨.lost, .draw, .inl rfl⟩
  | broker op =>
      intro r
      obtain ⟨u', hpart, hat⟩ := h.broker (hstep r)
      exact ⟨u', hpart, .inr hat⟩
  | backend op =>
      by_cases hother : ∀ task result, op ≠ .completeGroupMember group task result
      · refine Prog.wp_mono (wp_quiet (quiet_driver b hother) h.ne_counting) ?_
        rintro r _ rfl
        exact .inr (h.backend (hstep r) hother)
      · obtain ⟨task, result, rfl⟩ : ∃ task result, op = .completeGroupMember group task result := by
          simpa using hother
        obtain ⟨m, rfl, rfl, hgroup⟩ := stored_of_complete (hstep (.ok 0))
        obtain ⟨hm, rfl⟩ := Starts.member_of_group h hgroup
        exact Prog.wp_mono (hm.complete hstep) fun _ _ hat => .inr hat

/-- An execution on PostgreSQL follows the protocol of the chord. -/
theorem executeTask_part (b : PostgresResultBackend) (w : Worker) {m : TaskMessage} {u : Part}
    (h : Starts group total cb m u) :
    (link directBroker b.driver (executeTask w codec m)).Follows (part group total cb.id) u := by
  refine (executeTask_follows w m).implemented
    (fun (t : Stage) (u : Part) => u = .lost ∨ At group total cb u t)
    (drive_part b) ?_ (.inr h)
  rintro t u (rfl | hat) hfinal
  · exact ⟨Part.noConfusion, Part.noConfusion⟩
  · refine ⟨hat.ne_counting, ?_⟩
    rintro rfl
    cases t with
    | finished m result => rcases hat with hat | hat <;> cases hat
    | gone => rcases hat with hat | hat <;> cases hat
    | _ => exact hfinal.elim

end Protocol

/-! ## What a history shows -/

section History

variable {C : Carrier} {b : PostgresResultBackend} {types : PgTypes} {codec : Codec}

/-- A worker has upserted the row of this task. -/
def upsertOf (group : String) : (statementWorkers C b types codec).Label → Option String
  | .call ⟨.backend (.upsertMember g task _), .ok _⟩ => if g = group then some task else none
  | _ => none

/-- A worker has enqueued a message with this identifier. -/
def firingOf (i : TaskId) : (statementWorkers C b types codec).Label → Option TaskMessage
  | .call ⟨.broker (.enqueue m), _⟩ => if m.id = i then some m else none
  | _ => none

/-- A COUNT of the group has failed. -/
def miscountOf (group : String) : (statementWorkers C b types codec).Label → Option SqlError
  | .call ⟨.backend (.countMembers g), .error e⟩ => if g = group then some e else none
  | _ => none

variable (group : String) (i : TaskId) (tr : List (statementWorkers C b types codec).Label)

/-- The tasks that have been upserted, in order. -/
def upserts : List String := tr.filterMap (upsertOf group)

/-- The callbacks the workers have enqueued. -/
def firings : List TaskMessage := tr.filterMap (firingOf i)

/-- The failed COUNTs. -/
def miscounts : List SqlError := tr.filterMap (miscountOf group)

end History

/-- The program is about to count the group. -/
def AboutToCount (group : String) (p : Prog (system brokerTrait statements) Unit) : Prop :=
  ∃ k, p = .call (.backend (.countMembers group)) k

section Condition

variable {C : Carrier} {b : PostgresResultBackend} {types : PgTypes} {codec : Codec}

/-- What is asked of a step.  A worker is handed members of the chord and messages that
have nothing to do with it; nobody draws the identifier of the callback; and nobody is
about to count the group when the last of its `n` rows is upserted. -/
structure Orderly (n : Nat) (group : String) (cb : TaskMessage)
    (c : (statementWorkers C b types codec).Config)
    (l : (statementWorkers C b types codec).Label) : Prop where
  handed : ∀ w x m, l = .env (.arrive w x) → (C.arrive x c.state.1).bind Prod.snd = some m →
    IsMember group (UInt32.ofNat n) cb m ∨ IsOther group cb.id m
  fresh : l ≠ .call ⟨.runtime .newTaskId, cb.id⟩
  apart : ∀ task, upsertOf group l = some task → c.state.2.countMembers group + 1 = n →
    ∀ p ∈ c.threads, ¬ AboutToCount group p

/-- What is asked of a step, said of the stages. -/
structure OrderlyStages (n : Nat) (group : String) (cb : TaskMessage)
    (c : Machine.Staged (statementWorkers C b types codec)
      (part group (UInt32.ofNat n) cb.id))
    (l : (statementWorkers C b types codec).Label) : Prop where
  handed : ∀ w x m, l = .env (.arrive w x) → (C.arrive x c.state.1).bind Prod.snd = some m →
    IsMember group (UInt32.ofNat n) cb m ∨ IsOther group cb.id m
  fresh : l ≠ .call ⟨.runtime .newTaskId, cb.id⟩
  apart : ∀ task, upsertOf group l = some task → c.state.2.countMembers group + 1 = n →
    Part.counting ∉ c.stages

/-- Every call has an answer. -/
theorem nonempty_answer (op : (system brokerTrait statements).Op) :
    Nonempty ((system brokerTrait statements).Res op) := by
  cases op with
  | runtime op => exact ⟨stillRuntime op⟩
  | broker op => exact ⟨(.ok () : TaskResult Unit)⟩
  | backend op =>
      cases op with
      | utcNow => exact ⟨(⟨0⟩ : DateTime)⟩
      | panic => exact ⟨()⟩
      | upsertResult task result expiresAt => exact ⟨(.ok () : Except SqlError Unit)⟩
      | insertPlaceholder group task => exact ⟨(.ok () : Except SqlError Unit)⟩
      | upsertMember group task result => exact ⟨(.ok () : Except SqlError Unit)⟩
      | countMembers group => exact ⟨(.ok 0 : Except SqlError Nat)⟩
      | selectResults group => exact ⟨(.ok [] : Except SqlError (List Json))⟩

/-- A program between its upsert and its COUNT is about to count. -/
theorem aboutToCount_of_follows {group : String} {total : UInt32} {i : TaskId}
    {p : Prog (system brokerTrait statements) Unit}
    (h : p.Follows (part group total i) .counting) : AboutToCount group p := by
  cases p with
  | ret a => exact absurd rfl h.1
  | call op k =>
      obtain ⟨r⟩ := nonempty_answer op
      obtain ⟨u', hstep, -⟩ := h r
      cases hstep with
      | quiet r hne _ => exact absurd rfl hne
      | countLast _ => exact ⟨k, rfl⟩
      | countOther _ => exact ⟨k, rfl⟩
      | countFailed e => exact ⟨k, rfl⟩

open Classical in
/-- Where the execution of a message begins. -/
noncomputable def startOf (group : String) (total : UInt32) (cb m : TaskMessage) : Part :=
  if IsMember group total cb m then .before else if IsOther group cb.id m then .done else .lost

theorem startOf_follows (b : PostgresResultBackend) (w : Worker) (group : String)
    (total : UInt32) (cb m : TaskMessage) :
    (link directBroker b.driver (executeTask w codec m)).Follows (part group total cb.id)
      (startOf group total cb m) := by
  unfold startOf
  split
  · exact executeTask_part b w (.member ‹_›)
  split
  · exact executeTask_part b w (.other ‹_›)
  · refine Prog.wp_mono (wp_lost _) ?_
    rintro _ _ rfl
    exact ⟨Part.noConfusion, Part.noConfusion⟩

/-- Where the executions that a stimulus starts begin. -/
noncomputable def entries (group : String) (total : UInt32) (cb : TaskMessage) :
    CarrierStimulus C → C.broker.State × PgTables → List Part
  | .enqueue _ _, _ => []
  | .arrive _ x, s => (((C.arrive x s.1).bind Prod.snd).map (startOf group total cb)).toList

theorem follows_entries {group : String} {total : UInt32} {cb : TaskMessage}
    (x : (statementWorkers C b types codec).Stimulus)
    (s s' : (statementWorkers C b types codec).State)
    (new : List (Prog (system brokerTrait statements) Unit))
    (h : (statementWorkers C b types codec).accept x s = some (s', new)) :
    List.Forall₂ (Prog.Follows (part group total cb.id)) new (entries group total cb x s) := by
  cases x with
  | enqueue o m =>
      obtain ⟨q, -, heq⟩ := Option.map_eq_some_iff.mp h
      cases heq
      exact .nil
  | arrive w a =>
      obtain ⟨⟨q', m⟩, harrive, heq⟩ := Option.map_eq_some_iff.mp h
      cases heq
      simp only [entries, harrive, Option.bind_some]
      cases m with
      | none => exact .nil
      | some m => exact .cons (startOf_follows b w group total cb m) .nil

/-- The stages of an orderly step are in order. -/
theorem orderly_stages {n : Nat} {group : String} {cb : TaskMessage}
    (c : (statementWorkers C b types codec).Config) (stages : List Part)
    (l : (statementWorkers C b types codec).Label)
    (hall : List.Forall₂ (Prog.Follows (part group (UInt32.ofNat n) cb.id)) c.threads stages)
    (h : Orderly n group cb c l) :
    OrderlyStages n group cb ⟨c.state, stages⟩ l where
  handed := h.handed
  fresh := h.fresh
  apart := by
    intro task htask hlast hcounting
    obtain ⟨p, hp, hfollows⟩ := Machine.exists_of_forall₂ hall hcounting
    exact h.apart task htask hlast p hp (aboutToCount_of_follows hfollows)

end Condition

/-! ## One callback -/

section Tally

variable {C : Carrier} {b : PostgresResultBackend} {types : PgTypes} {codec : Codec}
  {n : Nat} {group : String} {cb : TaskMessage}

/-- The callbacks a member may still enqueue, once all rows are there. -/
def Part.owes : Part → Nat
  | .counting => 1
  | .firing => 1
  | _ => 0

/-- All that are still to come. -/
def owed (stages : List Part) : Nat := (stages.map Part.owes).sum

theorem owed_replace (before after : List Part) (u u' : Part) :
    owed (before ++ u' :: after) + u.owes = owed (before ++ u :: after) + u'.owes := by
  simp only [owed, List.map_append, List.map_cons, List.sum_append, List.sum_cons]
  omega

theorem owed_append (stages new : List Part) : owed (stages ++ new) = owed stages + owed new := by
  simp only [owed, List.map_append, List.sum_append]

theorem owed_eq_zero {stages : List Part} (hcounting : Part.counting ∉ stages)
    (hfiring : Part.firing ∉ stages) : owed stages = 0 := by
  refine List.sum_eq_zero fun k hk => ?_
  obtain ⟨u, hu, rfl⟩ := List.mem_map.mp hk
  cases u with
  | counting => exact absurd hu hcounting
  | firing => exact absurd hu hfiring
  | _ => rfl

/-- The account of the chord.  The completed rows are those that have been upserted; as
long as one is missing nobody enqueues the callback; and when all are there, the
callbacks that have been enqueued and those that are still to come are at most one, and
one if no COUNT has failed. -/
structure Tally (n : Nat) (group : String) (i : TaskId)
    (tr : List (statementWorkers C b types codec).Label) (s : PgTables) (stages : List Part) :
    Prop where
  rows : ∀ task, task ∈ s.completedTasks group ↔ task ∈ upserts group tr
  found : Part.lost ∉ stages
  early : (upserts group tr).length < n → firings i tr = [] ∧ Part.firing ∉ stages
  full : (upserts group tr).length = n → owed stages + (firings i tr).length ≤ 1 ∧
    (miscounts group tr = [] → owed stages + (firings i tr).length = 1)

variable {tr : List (statementWorkers C b types codec).Label} {s s' : PgTables}
  {before after stages : List Part} {i : TaskId}

/-- The COUNT of rows that have been upserted once each. -/
theorem Tally.count (h : Tally n group i tr s stages) (hnodup : (upserts group tr).Nodup) :
    s.countMembers group = (upserts group tr).length := by
  rw [PgTables.countMembers_eq h.rows, hnodup.dedup]

theorem upserts_snoc (tr : List (statementWorkers C b types codec).Label)
    (l : (statementWorkers C b types codec).Label) :
    upserts group (tr ++ [l]) = upserts group tr ++ (upsertOf group l).toList :=
  Machine.filterMap_snoc _ _ _

theorem firings_snoc (tr : List (statementWorkers C b types codec).Label)
    (l : (statementWorkers C b types codec).Label) :
    firings i (tr ++ [l]) = firings i tr ++ (firingOf i l).toList :=
  Machine.filterMap_snoc _ _ _

theorem miscounts_snoc (tr : List (statementWorkers C b types codec).Label)
    (l : (statementWorkers C b types codec).Label) :
    miscounts group (tr ++ [l]) = miscounts group tr ++ (miscountOf group l).toList :=
  Machine.filterMap_snoc _ _ _

/-- A step that shows nothing of the chord. -/
structure Unseen (group : String) (i : TaskId) (l : (statementWorkers C b types codec).Label) :
    Prop where
  upsert : upsertOf group l = none
  firing : firingOf i l = none
  miscount : miscountOf group l = none

variable {l : (statementWorkers C b types codec).Label} {stages' : List Part}

/-- A step that shows nothing and brings no callback nearer. -/
theorem Tally.keep (h : Tally n group i tr s stages) (hl : Unseen group i l)
    (hrows : ∀ task, task ∈ s'.completedTasks group ↔ task ∈ s.completedTasks group)
    (hfound : Part.lost ∉ stages') (hfiring : Part.firing ∈ stages' → Part.firing ∈ stages)
    (howed : owed stages' = owed stages) : Tally n group i (tr ++ [l]) s' stages' := by
  have hupserts : upserts group (tr ++ [l]) = upserts group tr :=
    Machine.filterMap_snoc_none hl.upsert tr
  have hfirings : firings i (tr ++ [l]) = firings i tr :=
    Machine.filterMap_snoc_none hl.firing tr
  have hmiscounts : miscounts group (tr ++ [l]) = miscounts group tr :=
    Machine.filterMap_snoc_none hl.miscount tr
  constructor
  · intro task
    rw [hrows, h.rows, hupserts]
  · exact hfound
  · intro hlt
    rw [hupserts] at hlt
    rw [hfirings]
    exact (h.early hlt).imp_right fun hnone hmem => hnone (hfiring hmem)
  · intro heq
    rw [hupserts] at heq
    rw [hfirings, hmiscounts, howed]
    exact h.full heq

/-- The calls that do not matter show nothing. -/
theorem unseen_of_quiet {op : (system brokerTrait statements).Op}
    (r : (system brokerTrait statements).Res op) (h : Quiet group i op) :
    Unseen group i (.call ⟨op, r⟩ : (statementWorkers C b types codec).Label) := by
  cases op with
  | runtime op => exact ⟨rfl, rfl, rfl⟩
  | broker op =>
      cases op with
      | enqueue m => exact ⟨rfl, if_neg h, rfl⟩
      | _ => exact ⟨rfl, rfl, rfl⟩
  | backend op =>
      cases op with
      | upsertMember g task result =>
          cases r with
          | error e => exact ⟨rfl, rfl, rfl⟩
          | ok a => exact ⟨if_neg h, rfl, rfl⟩
      | countMembers g =>
          cases r with
          | error e => exact ⟨rfl, rfl, if_neg h⟩
          | ok k => exact ⟨rfl, rfl, rfl⟩
      | _ => exact ⟨rfl, rfl, rfl⟩

/-- A statement that does not matter completes no row of the group. -/
theorem rows_of_statement {o : DateTime × Option SqlError} {op : Statement} {r : op.Res}
    (hr : (firmServer types).respond o s op = some (r, s'))
    (hquiet : Quiet group i (.backend op)) (task : String) :
    task ∈ s'.completedTasks group ↔ task ∈ s.completedTasks group := by
  cases op with
  | utcNow =>
      cases hr
      rfl
  | panic => cases hr
  | upsertResult text result expiresAt =>
      rcases firm_settle_map (Option.some.inj hr) with ⟨-, rfl⟩ | ⟨stored, -, -, rfl⟩ <;> rfl
  | insertPlaceholder g text =>
      rcases firm_settle_map (Option.some.inj hr) with ⟨-, rfl⟩ | ⟨-, -, -, rfl⟩
      · rfl
      · exact PgTables.completedTasks_insertPlaceholder
  | upsertMember g text result =>
      rcases firm_settle_map (Option.some.inj hr) with ⟨-, rfl⟩ | ⟨stored, -, -, rfl⟩
      · rfl
      · rw [PgTables.completedTasks_upsertMember]
        exact or_iff_right fun heq => hquiet heq.1
  | countMembers g =>
      rcases firm_settle_map (Option.some.inj hr) with ⟨-, rfl⟩ | ⟨-, -, -, rfl⟩ <;> rfl
  | selectResults g =>
      rcases firm_settle_map (Option.some.inj hr) with ⟨-, rfl⟩ | ⟨-, -, -, rfl⟩ <;> rfl

variable {q q' : C.broker.State}

/-- A statement of the backend is one of the server. -/
theorem respond_statement {o : (statementWorkers C b types codec).Oracle} {op : Statement}
    {r : op.Res} (hr : (statementWorkers C b types codec).respond o (q, s) (.backend op) =
      some (r, (q', s'))) : (firmServer types).respond o.backend s op = some (r, s') := by
  obtain ⟨⟨r₁, s₁⟩, hstatement, heq⟩ := Option.map_eq_some_iff.mp hr
  cases heq
  exact hstatement

/-- A call that is no statement of the backend leaves the rows as they are. -/
theorem rows_of_quiet {o : (statementWorkers C b types codec).Oracle}
    {op : (system brokerTrait statements).Op} {r : (system brokerTrait statements).Res op}
    (hr : (statementWorkers C b types codec).respond o (q, s) op = some (r, (q', s')))
    (hquiet : Quiet group i op) (task : String) :
    task ∈ s'.completedTasks group ↔ task ∈ s.completedTasks group := by
  cases op with
  | runtime op =>
      cases hr
      rfl
  | broker op =>
      obtain ⟨⟨r₁, q₁⟩, -, heq⟩ := Option.map_eq_some_iff.mp hr
      cases heq
      rfl
  | backend op => exact rows_of_statement (respond_statement hr) hquiet task

/-- An upsert that goes through. -/
theorem upsert_respond {o : (statementWorkers C b types codec).Oracle} {task : String}
    {result : Json} (hr : (statementWorkers C b types codec).respond o (q, s)
      (.backend (.upsertMember group task result)) = some (.ok (), (q', s'))) :
    ∃ stored, s' = s.upsertMember group task stored := by
  rcases firm_settle_map (Option.some.inj (respond_statement hr)) with
    ⟨⟨e, he⟩, -⟩ | ⟨stored, -, -, rfl⟩
  · cases he
  · exact ⟨stored, rfl⟩

/-- An upsert that fails. -/
theorem upsertFailed_respond {o : (statementWorkers C b types codec).Oracle} {task : String}
    {result : Json} {e : SqlError} (hr : (statementWorkers C b types codec).respond o (q, s)
      (.backend (.upsertMember group task result)) = some (.error e, (q', s'))) : s' = s := by
  rcases firm_settle_map (Option.some.inj (respond_statement hr)) with
    ⟨-, rfl⟩ | ⟨stored, -, hok, -⟩
  · rfl
  · cases hok

/-- A COUNT, whether it fails or not. -/
theorem count_respond {o : (statementWorkers C b types codec).Oracle} {r : Except SqlError Nat}
    (hr : (statementWorkers C b types codec).respond o (q, s)
      (.backend (.countMembers group)) = some (r, (q', s'))) :
    s' = s ∧ ∀ k, r = .ok k → k = s.countMembers group := by
  rcases firm_settle_map (Option.some.inj (respond_statement hr)) with
    ⟨⟨e, rfl⟩, rfl⟩ | ⟨-, -, rfl, rfl⟩
  · exact ⟨rfl, fun k hk => by cases hk⟩
  · exact ⟨rfl, fun k hk => (Except.ok.inj hk).symm⟩

/-- What is found after a replacement, other than the replacement itself, was there. -/
theorem mem_of_replace {x u u' : Part} (h : x ∈ before ++ u' :: after) (hne : x ≠ u') :
    x ∈ before ++ u :: after := by
  rw [List.mem_append, List.mem_cons] at h ⊢
  exact h.imp_right fun h => .inr (h.resolve_left hne)

/-- An execution that stays where it is, or stops without having been counted. -/
theorem Tally.replace {u u' : Part} (h : Tally n group i tr s (before ++ u :: after))
    (hl : Unseen group i l)
    (hrows : ∀ task, task ∈ s'.completedTasks group ↔ task ∈ s.completedTasks group)
    (hlost : u' ≠ .lost) (hfiring : u' ≠ .firing) (howes : u'.owes = u.owes) :
    Tally n group i (tr ++ [l]) s' (before ++ u' :: after) := by
  refine h.keep hl hrows ?_ ?_ ?_
  · exact fun hmem => h.found (mem_of_replace hmem hlost.symm)
  · exact fun hmem => mem_of_replace hmem hfiring.symm
  · have hreplace := owed_replace before after u u'
    omega

/-- An upsert.  When it is the last one, nobody else is counting: the member itself is
the one that will count all rows. -/
theorem Tally.upsert {task : String} {result : Json}
    (h : Tally n group i tr s (before ++ .before :: after))
    (hnodup : (upserts group tr).Nodup) (hupsert : upsertOf group l = some task)
    (hfiring : firingOf i l = none) (hs : s' = s.upsertMember group task result)
    (hapart : s.countMembers group + 1 = n → Part.counting ∉ before ++ .before :: after) :
    Tally n group i (tr ++ [l]) s' (before ++ .counting :: after) := by
  have hupserts : upserts group (tr ++ [l]) = upserts group tr ++ [task] := by
    rw [upserts_snoc, hupsert, Option.toList_some]
  have hfirings : firings i (tr ++ [l]) = firings i tr :=
    Machine.filterMap_snoc_none hfiring tr
  have hlength : (upserts group (tr ++ [l])).length = (upserts group tr).length + 1 := by
    rw [hupserts, List.length_append, List.length_singleton]
  have hreplace := owed_replace before after .before .counting
  constructor
  · intro x
    rw [hs, PgTables.completedTasks_upsertMember, h.rows, hupserts, List.mem_append,
      List.mem_singleton, or_comm, and_iff_right rfl, @eq_comm _ task]
  · exact fun hmem => h.found (mem_of_replace hmem Part.noConfusion)
  · intro hlt
    obtain ⟨hnone, hnobody⟩ := h.early (by omega)
    rw [hfirings]
    exact ⟨hnone, fun hmem => hnobody (mem_of_replace hmem Part.noConfusion)⟩
  · intro heq
    obtain ⟨hnone, hnobody⟩ := h.early (by omega)
    have hzero := owed_eq_zero (hapart (by rw [h.count hnodup]; omega)) hnobody
    rw [hfirings, hnone, List.length_nil]
    simp only [Part.owes] at hreplace
    exact ⟨by omega, fun _ => by omega⟩

/-- A COUNT of all rows: the member will enqueue the callback. -/
theorem Tally.countLast (h : Tally n group i tr s (before ++ .counting :: after))
    (hl : Unseen group i l) (hall : ¬ (upserts group tr).length < n) :
    Tally n group i (tr ++ [l]) s (before ++ .firing :: after) := by
  have hreplace := owed_replace before after .counting .firing
  simp only [Part.owes] at hreplace
  have hstay : Tally n group i (tr ++ [l]) s (before ++ .counting :: after) :=
    h.replace hl (fun _ => Iff.rfl) Part.noConfusion Part.noConfusion rfl
  have hupserts : upserts group (tr ++ [l]) = upserts group tr :=
    Machine.filterMap_snoc_none hl.upsert tr
  constructor
  · exact hstay.rows
  · exact fun hmem => h.found (mem_of_replace hmem Part.noConfusion)
  · intro hlt
    rw [hupserts] at hlt
    exact absurd hlt hall
  · intro heq
    obtain ⟨hle, hone⟩ := hstay.full heq
    exact ⟨by omega, fun hnone => by have := hone hnone; omega⟩

/-- A COUNT of fewer rows. -/
theorem Tally.countOther (h : Tally n group i tr s (before ++ .counting :: after))
    (hl : Unseen group i l) (hnotAll : (upserts group tr).length ≠ n) :
    Tally n group i (tr ++ [l]) s (before ++ .done :: after) := by
  have hstay : Tally n group i (tr ++ [l]) s (before ++ .counting :: after) :=
    h.replace hl (fun _ => Iff.rfl) Part.noConfusion Part.noConfusion rfl
  have hupserts : upserts group (tr ++ [l]) = upserts group tr :=
    Machine.filterMap_snoc_none hl.upsert tr
  constructor
  · exact hstay.rows
  · exact fun hmem => h.found (mem_of_replace hmem Part.noConfusion)
  · intro hlt
    obtain ⟨hnone, hnobody⟩ := hstay.early hlt
    exact ⟨hnone, fun hmem => hnobody (mem_of_replace hmem Part.noConfusion)⟩
  · intro heq
    rw [hupserts] at heq
    exact absurd heq hnotAll

/-- A COUNT that fails: if all rows were there, its member will not enqueue the callback
any more. -/
theorem Tally.countFailed {e : SqlError} (h : Tally n group i tr s (before ++ .counting :: after))
    (hupsert : upsertOf group l = none) (hfiring : firingOf i l = none)
    (hmiscount : miscountOf group l = some e) :
    Tally n group i (tr ++ [l]) s (before ++ .done :: after) := by
  have hreplace := owed_replace before after .counting .done
  simp only [Part.owes] at hreplace
  have hupserts : upserts group (tr ++ [l]) = upserts group tr :=
    Machine.filterMap_snoc_none hupsert tr
  have hfirings : firings i (tr ++ [l]) = firings i tr :=
    Machine.filterMap_snoc_none hfiring tr
  constructor
  · intro x
    rw [h.rows, hupserts]
  · exact fun hmem => h.found (mem_of_replace hmem Part.noConfusion)
  · intro hlt
    rw [hupserts] at hlt
    obtain ⟨hnone, hnobody⟩ := h.early hlt
    rw [hfirings]
    exact ⟨hnone, fun hmem => hnobody (mem_of_replace hmem Part.noConfusion)⟩
  · intro heq
    rw [hupserts] at heq
    obtain ⟨hle, -⟩ := h.full heq
    rw [hfirings]
    refine ⟨by omega, fun hnone => ?_⟩
    rw [miscounts_snoc, hmiscount] at hnone
    simp at hnone

/-- The callback is enqueued. -/
theorem Tally.fire {m : TaskMessage} (h : Tally n group i tr s (before ++ .firing :: after))
    (hupsert : upsertOf group l = none) (hfiring : firingOf i l = some m)
    (hmiscount : miscountOf group l = none) :
    Tally n group i (tr ++ [l]) s (before ++ .done :: after) := by
  have hreplace := owed_replace before after .firing .done
  simp only [Part.owes] at hreplace
  have hupserts : upserts group (tr ++ [l]) = upserts group tr :=
    Machine.filterMap_snoc_none hupsert tr
  have hmiscounts : miscounts group (tr ++ [l]) = miscounts group tr :=
    Machine.filterMap_snoc_none hmiscount tr
  have hlength : (firings i (tr ++ [l])).length = (firings i tr).length + 1 := by
    rw [firings_snoc, hfiring, Option.toList_some, List.length_append, List.length_singleton]
  constructor
  · intro x
    rw [h.rows, hupserts]
  · exact fun hmem => h.found (mem_of_replace hmem Part.noConfusion)
  · intro hlt
    rw [hupserts] at hlt
    exact absurd (List.mem_append.mpr (.inr List.mem_cons_self)) (h.early hlt).2
  · intro heq
    rw [hupserts] at heq
    obtain ⟨hle, hone⟩ := h.full heq
    rw [hlength, hmiscounts]
    exact ⟨by omega, fun hnone => by have := hone hnone; omega⟩

/-- What arrives brings no callback nearer. -/
theorem Tally.env {x : (statementWorkers C b types codec).Stimulus}
    {c c' : (statementWorkers C b types codec).State}
    {new : List (Prog (system brokerTrait statements) Unit)}
    (h : Tally n group cb.id tr c.2 stages)
    (hhanded : ∀ w a m, x = .arrive w a → (C.arrive a c.1).bind Prod.snd = some m →
      IsMember group (UInt32.ofNat n) cb m ∨ IsOther group cb.id m)
    (haccept : (statementWorkers C b types codec).accept x c = some (c', new)) :
    Tally n group cb.id (tr ++ [.env x]) c'.2 (stages ++ entries group (UInt32.ofNat n) cb x c) := by
  have hs : c'.2 = c.2 := by
    cases x with
    | enqueue o m =>
        obtain ⟨p, -, heq⟩ := Option.map_eq_some_iff.mp haccept
        cases heq
        rfl
    | arrive w a =>
        obtain ⟨p, -, heq⟩ := Option.map_eq_some_iff.mp haccept
        cases heq
        rfl
  have hnew : ∀ u ∈ entries group (UInt32.ofNat n) cb x c, u = .before ∨ u = .done := by
    intro u hu
    cases x with
    | enqueue o m => cases hu
    | arrive w a =>
        obtain ⟨m, hm, rfl⟩ := Option.map_eq_some_iff.mp (Option.mem_toList.mp hu)
        unfold startOf
        split
        · exact .inl rfl
        split
        · exact .inr rfl
        · rcases hhanded w a m rfl hm with hmember | hother
          · exact absurd hmember ‹_›
          · exact absurd hother ‹_›
  refine h.keep ⟨rfl, rfl, rfl⟩ (fun task => by rw [hs]) ?_ ?_ ?_
  · intro hmem
    rcases List.mem_append.mp hmem with hmem | hmem
    · exact h.found hmem
    · rcases hnew _ hmem with heq | heq <;> cases heq
  · intro hmem
    rcases List.mem_append.mp hmem with hmem | hmem
    · exact hmem
    · rcases hnew _ hmem with heq | heq <;> cases heq
  · have hzero : owed (entries group (UInt32.ofNat n) cb x c) = 0 := by
      refine owed_eq_zero ?_ ?_ <;>
        exact fun hmem => by rcases hnew _ hmem with heq | heq <;> cases heq
    rw [owed_append, hzero, add_zero]

/-- One orderly step keeps the account. -/
theorem Tally.step (hn : n < 2 ^ 32)
    {c c' : Machine.Staged (statementWorkers C b types codec) (part group (UInt32.ofNat n) cb.id)}
    (h : Tally n group cb.id tr c.state.2 c.stages) (hnodup : (upserts group tr).Nodup)
    (hgood : OrderlyStages n group cb c l)
    (hstep : Machine.StagedStep (part group (UInt32.ofNat n) cb.id)
      (entries group (UInt32.ofNat n) cb) c l c') :
    Tally n group cb.id (tr ++ [l]) c'.state.2 c'.stages := by
  cases hstep with
  | env x stages haccept =>
      exact h.env (fun w a m heq hm => hgood.handed w a m (congrArg _ heq) hm) haccept
  | @call o c₁ c₁' op r u u' before after hr hpart =>
      obtain ⟨q, s⟩ := c₁
      obtain ⟨q', s'⟩ := c₁'
      cases hpart with
      | quiet r hne hquiet =>
          refine h.keep (unseen_of_quiet r hquiet) (rows_of_quiet hr hquiet) h.found ?_ rfl
          exact id
      | upsert task result =>
          obtain ⟨stored, hs⟩ := upsert_respond hr
          exact h.upsert hnodup (if_pos rfl) rfl hs (hgood.apart task (if_pos rfl))
      | upsertFailed task result e =>
          refine h.replace ⟨rfl, rfl, rfl⟩ ?_ Part.noConfusion Part.noConfusion rfl
          intro x
          rw [upsertFailed_respond hr]
      | @countLast k hk =>
          obtain ⟨rfl, hcount⟩ := count_respond hr
          have hlength := (hcount k rfl).trans (h.count hnodup)
          refine h.countLast ⟨rfl, rfl, rfl⟩ fun hlt => ?_
          rw [hlength, ofNat_inj (hlt.trans hn) hn] at hk
          omega
      | @countOther k hk =>
          obtain ⟨rfl, hcount⟩ := count_respond hr
          have hlength := (hcount k rfl).trans (h.count hnodup)
          refine h.countOther ⟨rfl, rfl, rfl⟩ fun heq => hk ?_
          rw [hlength, heq]
      | countFailed e =>
          obtain ⟨rfl, -⟩ := count_respond hr
          exact h.countFailed rfl rfl (if_pos rfl)
      | @fire m r hid =>
          obtain ⟨⟨r₁, q₁⟩, -, heq⟩ := Option.map_eq_some_iff.mp hr
          cases heq
          exact h.fire rfl (if_pos hid) rfl
      | draw => exact absurd rfl hgood.fresh
      | lost op r => exact absurd (List.mem_append.mpr (.inr List.mem_cons_self)) h.found

/-- The account holds along every orderly run in which no member is upserted twice. -/
theorem tally_of_staged (hpos : 1 ≤ n) (hn : n < 2 ^ 32)
    {c₀ c : Machine.Staged (statementWorkers C b types codec) (part group (UInt32.ofNat n) cb.id)}
    (hnone : c₀.state.2.completedTasks group = []) (hstart : ∀ u ∈ c₀.stages, u = .done)
    (h : Machine.StagedReachIf (OrderlyStages n group cb) (entries group (UInt32.ofNat n) cb)
      c₀ tr c) (hnodup : (upserts group tr).Nodup) :
    Tally n group cb.id tr c.state.2 c.stages := by
  induction h with
  | start =>
      constructor
      · intro task
        rw [hnone]
        exact Iff.rfl
      · exact fun hmem => Part.noConfusion (hstart _ hmem)
      · exact fun _ => ⟨rfl, fun hmem => Part.noConfusion (hstart _ hmem)⟩
      · intro heq
        exact absurd heq (Nat.ne_of_lt hpos)
  | step _ hgood hstep ih =>
      rw [upserts_snoc] at hnodup
      have hbefore := (List.nodup_append.mp hnodup).1
      exact (ih hbefore).step hn hbefore hgood hstep

/-- Each of the `n` members has completed: it has been upserted once, and no COUNT has
failed. -/
structure CompletedOnce (n : Nat) (group : String)
    (tr : List (statementWorkers C b types codec).Label) : Prop where
  once : (upserts group tr).Nodup
  all : (upserts group tr).length = n
  counted : miscounts group tr = []

/-- One callback for each chord, in every orderly run.  A chord has `n` members and
fewer than `2 ^ 32`; no row of its group is completed at the start.  As long as no member
is upserted twice: before all are, no callback is enqueued; when all are, at most one; and
when each has completed once and all executions have returned, exactly one. -/
theorem callback_once_of_orderly (hpos : 1 ≤ n) (hn : n < 2 ^ 32)
    {c₀ c : (statementWorkers C b types codec).Config}
    (hnone : c₀.state.2.completedTasks group = [])
    (hclients : ∀ p ∈ c₀.threads, p.Calls (Quiet group cb.id))
    (h : Machine.ReachIf (Orderly n group cb) c₀ tr c) (hnodup : (upserts group tr).Nodup) :
    ((upserts group tr).length < n → firings cb.id tr = []) ∧
      ((upserts group tr).length = n → (firings cb.id tr).length ≤ 1) ∧
      (CompletedOnce n group tr → (∀ p ∈ c.threads, p = .ret ()) →
        (firings cb.id tr).length = 1) := by
  have hfollows : ∀ p ∈ c₀.threads, p.Follows (part group (UInt32.ofNat n) cb.id) .done := by
    intro p hp
    refine Prog.wp_mono (wp_quiet (hclients p hp) Part.noConfusion) ?_
    rintro _ _ rfl
    exact ⟨Part.noConfusion, Part.noConfusion⟩
  have hstart : List.Forall₂ (Prog.Follows (part group (UInt32.ofNat n) cb.id)) c₀.threads
      (c₀.threads.map fun _ => Part.done) := by
    rw [List.forall₂_map_right_iff, List.forall₂_same]
    exact hfollows
  obtain ⟨stages, hstaged, hall⟩ := h.staged follows_entries orderly_stages hstart
  have hdone : ∀ u ∈ c₀.threads.map fun _ => Part.done, u = .done := by
    intro u hu
    obtain ⟨p, -, rfl⟩ := List.mem_map.mp hu
    exact rfl
  have htally := tally_of_staged hpos hn hnone hdone hstaged hnodup
  refine ⟨fun hlt => (htally.early hlt).1, fun heq => ?_, fun honce hrest => ?_⟩
  · exact le_of_add_le_right (htally.full heq).1
  · have hreturned : ∀ u ∈ stages, Part.Final u := by
      intro u hu
      obtain ⟨p, hp, hfinal⟩ := Machine.exists_of_forall₂ hall hu
      rw [hrest p hp] at hfinal
      exact hfinal
    have hzero : owed stages = 0 :=
      owed_eq_zero (fun hmem => (hreturned _ hmem).1 rfl) fun hmem => (hreturned _ hmem).2 rfl
    have hone : owed stages + (firings cb.id tr).length = 1 :=
      (htally.full honce.all).2 honce.counted
    rwa [hzero, Nat.zero_add] at hone

end Tally

/-! ## Two members, one after the other and side by side -/

/-- Workers over the in-memory broker and PostgreSQL. -/
abbrev smallWorkers : Machine (system brokerTrait statements) :=
  statementWorkers memoryCarrier ⟨86400⟩ .plain blankCodec

/-- The callback. -/
def smallCallback : TaskMessage := plainSignature.intoMessage ⟨0⟩ ⟨9⟩

/-- A member of a chord of `n`. -/
def smallMember (n : Nat) (id : TaskId) : TaskMessage :=
  Canvas.member "w" "g" (UInt32.ofNat n) (some smallCallback) plainSignature ⟨0⟩ id

/-- The members are in the queue. -/
def withMembers (ms : List TaskMessage) : smallWorkers.Config :=
  ⟨(ms.foldl MemoryBroker.enqueue .new, .empty), []⟩

/-- Nothing fails. -/
def smoothAnswers : smallWorkers.Oracle := ⟨stillRuntime, [(), ()], (⟨0⟩, none)⟩

/-- A worker takes the next member. -/
def takesMember : smallWorkers.Move := .env (.arrive ⟨["t"], [], true⟩ ["q"])

/-- The first `k` calls of execution `i`: the sixth is its upsert, and the twelfth its last. -/
def steps (i k : Nat) : List smallWorkers.Move := List.replicate k (.run i smoothAnswers)

/-- No identifier is drawn, and nobody is about to count when a row is upserted. -/
def isOrderly (c : smallWorkers.Config) : smallWorkers.Label → Bool
  | .call ⟨.runtime .newTaskId, _⟩ => false
  | .call ⟨.backend (.upsertMember _ _ _), _⟩ =>
      c.threads.all fun
        | .call (.backend (.countMembers _)) _ => false
        | _ => true
  | .call _ => true
  | .env _ => false

theorem orderly_of_isOrderly {n : Nat} (c : smallWorkers.Config) (l : smallWorkers.Label)
    (h : isOrderly c l = true) : Orderly n "g" smallCallback c l where
  handed := by
    rintro w x m rfl
    cases h
  fresh := by
    rintro rfl
    cases h
  apart := by
    rintro task htask - p hp ⟨k, rfl⟩
    cases l with
    | env x => cases h
    | call e =>
        obtain ⟨op, r⟩ := e
        cases op with
        | backend op =>
            cases op with
            | upsertMember g x result =>
                have hnone := List.all_eq_true.mp h _ hp
                cases hnone
            | _ => cases htask
        | _ => cases htask

/-- Two members are in the queue. -/
abbrev twoMembers : smallWorkers.Config := withMembers [smallMember 2 ⟨1⟩, smallMember 2 ⟨2⟩]

/-- The first, and then both of them have been taken. -/
def oneTaken : smallWorkers.Config := (twoMembers.play takesMember).elim twoMembers Prod.snd

def bothTaken : smallWorkers.Config := (oneTaken.play takesMember).elim twoMembers Prod.snd

/-- Taking a member is orderly. -/
theorem takes_orderly {n : Nat} {c : smallWorkers.Config} {id : TaskId}
    (h : (memoryCarrier.arrive ["q"] c.state.1).bind Prod.snd = some (smallMember n id)) :
    Orderly n "g" smallCallback c (.env (.arrive ⟨["t"], [], true⟩ ["q"])) where
  handed := by
    rintro w x m heq hm
    cases heq
    obtain rfl := Option.some.inj (h.symm.trans hm)
    exact .inl (isMember_member _ _ _ _ _ _ _)
  fresh := nofun
  apart := nofun

/-- One execution after the other. -/
def inTurn : List smallWorkers.Move := steps 0 9 ++ steps 1 12

theorem inTurn_plays : (bothTaken.playAll inTurn).isSome = true := by
  decide +kernel

/-- How they end. -/
def inTurnEnd : List smallWorkers.Label × smallWorkers.Config :=
  (bothTaken.playAll inTurn).get inTurn_plays

/-- A chord of two members: the first counts one row, and the second counts two and enqueues the
callback. -/
theorem callback_once_of_orderly_inTurn :
    ∃ tr c, Machine.ReachIf (Orderly 2 "g" smallCallback) twoMembers tr c ∧
      CompletedOnce 2 "g" tr ∧ (∀ p ∈ c.threads, p = .ret ()) ∧
      (firings smallCallback.id tr).length = 1 := by
  have hone : twoMembers.play takesMember =
      some (.env (.arrive ⟨["t"], [], true⟩ ["q"]), oneTaken) := rfl
  have hboth : oneTaken.play takesMember =
      some (.env (.arrive ⟨["t"], [], true⟩ ["q"]), bothTaken) := rfl
  have htaken := Machine.ReachIf.step .start (takes_orderly (n := 2) (c := twoMembers) rfl)
    (Machine.Config.step_of_play hone)
  have hreach := (htaken.step (takes_orderly (n := 2) (c := oneTaken) rfl)
    (Machine.Config.step_of_play hboth)).trans
      (Machine.Config.reachIf_of_keeps orderly_of_isOrderly (Option.some_get inTurn_plays).symm
        (by decide +kernel))
  have honce : CompletedOnce 2 "g" ([] ++ [.env (.arrive ⟨["t"], [], true⟩ ["q"])] ++
      [.env (.arrive ⟨["t"], [], true⟩ ["q"])] ++ inTurnEnd.1) := by
    constructor <;> decide +kernel
  have hthreads : inTurnEnd.2.threads = List.replicate 2 (.ret ()) := rfl
  have hrest : ∀ p ∈ inTurnEnd.2.threads, p = .ret () := by
    intro p hp
    rw [hthreads] at hp
    exact List.eq_of_mem_replicate hp
  refine ⟨_, _, hreach, honce, hrest, ?_⟩
  exact (callback_once_of_orderly (by decide) (by decide) rfl (fun p hp => by cases hp) hreach
    honce.once).2.2 honce hrest

/-- Two members side by side: both upsert their rows before either counts. -/
def sideBySide : List smallWorkers.Move :=
  [takesMember, takesMember] ++ steps 0 6 ++ steps 1 6 ++ steps 0 6 ++ steps 1 6

theorem sideBySide_plays : (twoMembers.playAll sideBySide).isSome = true := by
  decide +kernel

/-- How they end. -/
def sideBySideEnd : List smallWorkers.Label × smallWorkers.Config :=
  (twoMembers.playAll sideBySide).get sideBySide_plays

/-- Two members, two callbacks.  Each of them completes once, both count two rows, and
both enqueue the callback. -/
theorem callback_twice :
    smallWorkers.Reach (withMembers [smallMember 2 ⟨1⟩, smallMember 2 ⟨2⟩])
        sideBySideEnd.1 sideBySideEnd.2 ∧
      CompletedOnce 2 "g" sideBySideEnd.1 ∧ (∀ p ∈ sideBySideEnd.2.threads, p = .ret ()) ∧
      (firings smallCallback.id sideBySideEnd.1).length = 2 := by
  have hthreads : sideBySideEnd.2.threads = [.ret (), .ret ()] := rfl
  refine ⟨Machine.Config.reach_of_get sideBySide_plays, ?_, ?_, by decide +kernel⟩
  · constructor <;> decide +kernel
  · intro p hp
    rw [hthreads] at hp
    simpa using hp

end Kojin.Postgres
