/-
  Core/GroupAccount.lean --- groups in a history, and the traffic around them.

  The first part reads off a history what a chord is about: the identifiers drawn,
  the messages sent, the members that succeeded and completed, the answers of the
  backend.  The second part keeps the account of a group over the ledger: what
  every token contributes to its members, its successes, its counted results.
  The third part is about all other traffic.  A message is foreign to a set of
  groups when neither it nor any callback it carries belongs to them; a step of a
  foreign token shows nothing of these groups, does not touch them in the
  backend, and leaves foreign tokens behind.
-/
import Kojin.Core.GroupBackend
import Kojin.Core.Ledger
import Mathlib.Algebra.BigOperators.Group.Multiset.Basic

set_option autoImplicit false

namespace Kojin.Core

open Kojin.Foundation

/-! ## What a history shows -/

section History

variable {S : Service resultBackendTrait} {codec : Codec}

/-- The group and correlation identifiers drawn. -/
def uuids (tr : List (memorySystem S codec).Label) : List TaskId :=
  tr.filterMap fun
    | .call ⟨.runtime .newUuid, u⟩ => some u
    | _ => none

/-- The task identifiers drawn. -/
def drawn (tr : List (memorySystem S codec).Label) : List TaskId :=
  tr.filterMap fun
    | .call ⟨.runtime .newTaskId, i⟩ => some i
    | _ => none

/-- The messages that threads of the system enqueued: a client its members, an
execution a callback or the next step of a chain. -/
def sent (tr : List (memorySystem S codec).Label) : List TaskMessage :=
  tr.filterMap fun
    | .call ⟨.broker (.enqueue m), _⟩ => some m
    | _ => none

/-- The members of a group that were sent. -/
def members (group : String) (tr : List (memorySystem S codec).Label) : List TaskMessage :=
  (sent tr).filter fun m => m.groupId = some group

/-- The messages with the identifier of a callback that were sent. -/
def callbacks (i : TaskId) (tr : List (memorySystem S codec).Label) : List TaskMessage :=
  (sent tr).filter fun m => m.id = i

/-- The successful executions of members of a group: who, and with which result. -/
def successes (group : String) (tr : List (memorySystem S codec).Label) :
    List (TaskId × Json) :=
  tr.filterMap fun
    | .call ⟨.runtime (.handle m _ _), .ok result⟩ =>
        if m.groupId = some group then some (m.id, result) else none
    | _ => none

/-- The executions of members of a group that have run to their last line. -/
def finishes (group : String) (tr : List (memorySystem S codec).Label) : List TaskId :=
  tr.filterMap fun
    | .call ⟨.runtime (.trace (.completed m)), _⟩ =>
        if m.groupId = some group then some m.id else none
    | _ => none

/-- What the backend answered to the completions of a group. -/
def completions (group : String) (tr : List (memorySystem S codec).Label) :
    List (TaskResult UInt32) :=
  tr.filterMap fun
    | .call ⟨.backend (.completeGroupMember g _ _), r⟩ => if g = group then some r else none
    | _ => none

end History

/-! ## Other traffic -/

/-- A message that has nothing to do with the groups in `U` and the identifiers
in `D`: it belongs to none of the groups, and neither do the callbacks it
carries, whose identifiers are others. -/
inductive TaskMessage.Foreign (U : String → Prop) (D : TaskId → Prop) : TaskMessage → Prop where
  | mk {m : TaskMessage} :
      (∀ group, m.groupId = some group → ¬ U group) →
      (∀ callback, m.chordCallback = some callback → ¬ D callback.id) →
      (∀ callback, m.chordCallback = some callback → TaskMessage.Foreign U D callback) →
      TaskMessage.Foreign U D m

section Foreign

variable {U : String → Prop} {D : TaskId → Prop}

theorem TaskMessage.Foreign.group {m : TaskMessage} (h : m.Foreign U D) {group : String}
    (hg : m.groupId = some group) : ¬ U group := by
  cases h with
  | mk hgroup _ _ => exact hgroup group hg

theorem TaskMessage.Foreign.callback {m callback : TaskMessage} (h : m.Foreign U D)
    (hc : m.chordCallback = some callback) : ¬ D callback.id ∧ callback.Foreign U D := by
  cases h with
  | mk _ hid hforeign => exact ⟨hid callback hc, hforeign callback hc⟩

/-- Being foreign is a matter of the group and the callback alone. -/
theorem TaskMessage.Foreign.congr {m m' : TaskMessage} (h : m.Foreign U D)
    (hgroup : m'.groupId = m.groupId) (hcallback : m'.chordCallback = m.chordCallback) :
    m'.Foreign U D :=
  .mk (fun _ hg => h.group (hgroup ▸ hg)) (fun _ hc => (h.callback (hcallback ▸ hc)).1)
    fun _ hc => (h.callback (hcallback ▸ hc)).2

/-- A message without group and callback is foreign to everything. -/
theorem TaskMessage.Foreign.plain {m : TaskMessage} (hgroup : m.groupId = none)
    (hcallback : m.chordCallback = none) : m.Foreign U D := by
  refine .mk ?_ ?_ ?_
  · intro group hg
    rw [hgroup] at hg
    cases hg
  · intro callback hc
    rw [hcallback] at hc
    cases hc
  · intro callback hc
    rw [hcallback] at hc
    cases hc

end Foreign

/-- The next step of a chain is in no group and carries no callback. -/
theorem chainStep_plain (codec : Codec) (m : TaskMessage) (result : Json) (sig : Signature)
    (rest : List Signature) (now : DateTime) (id : TaskId) :
    (m.chainStep codec result sig rest now id).groupId = none ∧
      (m.chainStep codec result sig rest now id).chordCallback = none ∧
      (m.chainStep codec result sig rest now id).id = id := by
  unfold TaskMessage.chainStep
  cases m.correlationId <;> by_cases h : rest.isEmpty = true <;> simp only [h] <;>
    exact ⟨rfl, rfl, rfl⟩

/-! ## Kinds of tokens -/

/-- What is asked of the copy a token carries, and of the callback or the chain
step an execution is about to enqueue. -/
structure Profile where
  message : TaskMessage → Prop
  calling : TaskMessage → Prop
  collected : TaskMessage → Prop
  next : TaskMessage → Prop

/-- A retry or a burial does not change what a message is. -/
def Profile.Closed (P : Profile) : Prop :=
  ∀ m now, P.message m → P.message (m.retryCopy now) ∧ P.message (m.buriedCopy now)

/-- An execution by a worker with a result backend, of a message that meets the
profile. -/
def Stage.Kind (P : Profile) : Stage → Prop
  | .received b m => b = true ∧ P.message m
  | .cleared b m => b = true ∧ P.message m
  | .postponed m _ => P.message m
  | .released m _ => P.message m
  | .running b m => b = true ∧ P.message m
  | .erred m => P.message m
  | .failed m => P.message m
  | .toRetry m => P.message m
  | .toBury m => P.message m
  | .succeeded b m _ => b = true ∧ P.message m
  | .acked b m _ => b = true ∧ P.message m
  | .stored m _ => P.message m
  | .calling m _ callback => P.message m ∧ P.calling callback
  | .collected m _ callback => P.message m ∧ P.collected callback
  | .wrapping m _ => P.message m
  | .minting m _ _ => P.message m
  | .continuing m _ next => P.message m ∧ P.next next
  | .chained m _ => P.message m
  | .finished m _ => P.message m
  | .gone => True

/-- A token of an execution that meets the profile; a client is of no kind. -/
def Token.Kind (P : Profile) : Token → Prop
  | .waiting m => P.message m
  | .buried m => P.message m
  | .held (.exec t) => t.Kind P
  | .held (.settling s) => P.message s.message
  | .held (.client _) => False

section Kinds

variable {codec : Codec} {P : Profile}

/-- A call of the runtime keeps the kind, if the chain steps it names meet the
profile. -/
theorem Stage.Step.kind_of_runtime {t t' : Stage} {op : RuntimeOp} {r : op.Res}
    (hstep : Stage.Step codec t (.runtime op) r t') (hclosed : P.Closed)
    (hnext : ∀ (m : TaskMessage) (result : Json) (sig : Signature) (rest : List Signature)
      (now : DateTime) (id : TaskId), P.message m →
      (⟨op, r⟩ : (op : RuntimeOp) × op.Res) = ⟨.newTaskId, id⟩ →
      P.next (m.chainStep codec result sig rest now id))
    (h : t.Kind P) : t'.Kind P := by
  cases hstep with
  | retry now _ => exact (hclosed _ now h).1
  | bury now _ => exact (hclosed _ now h).2
  | @name m sig rest result now id _ => exact ⟨h, hnext m result sig rest now id h rfl⟩
  | postpone b _ _ => exact h.2
  | beforeFailed b m e => exact h.2
  | notFound b m e => exact h.2
  | err b m e => exact h.2
  | completeWithoutBackend m result => exact h.2
  | _ => exact h

/-- An acknowledgement keeps the kind. -/
theorem Stage.Step.kind_of_ack {t t' : Stage} {id : TaskId} {r : TaskResult Unit}
    (hstep : Stage.Step codec t (.broker (.ack id)) r t') (h : t.Kind P) : t'.Kind P := by
  cases hstep <;> exact h

/-- What an execution enqueues is the callback it has collected or the chain step
it has named; it keeps its own kind. -/
theorem Stage.Step.kind_of_enqueue {t t' : Stage} {m : TaskMessage} {r : TaskResult Unit}
    (hstep : Stage.Step codec t (.broker (.enqueue m)) r t') (h : t.Kind P) :
    t'.Kind P ∧ (P.collected m ∨ P.next m) := by
  cases hstep with
  | callback x result => exact ⟨h.1, .inl h.2⟩
  | chain x result => exact ⟨h.1, .inr h.2⟩

/-- A settling call carries the copy the execution had. -/
theorem Stage.Step.kind_of_release {t t' : Stage} {s : Settling} {r : TaskResult Unit}
    (hstep : Stage.Step codec t (.broker s.method) r t') (h : t.Kind P) :
    (Token.held (.settling s)).Kind P := by
  cases s <;> cases hstep <;> exact h

end Kinds

/-! ## The account of a group -/

/-- Members, successes, counted results, callbacks owed, executions completed. -/
abbrev Account : Type :=
  Multiset TaskId × Multiset (TaskId × Json) × Multiset Json × Nat × Nat

namespace Account

def ids (a : Account) : Multiset TaskId := a.1
def won (a : Account) : Multiset (TaskId × Json) := a.2.1
def counted (a : Account) : Multiset Json := a.2.2.1
def owed (a : Account) : Nat := a.2.2.2.1
def closed (a : Account) : Nat := a.2.2.2.2

theorem ids_add (a b : Account) : (a + b).ids = a.ids + b.ids := rfl
theorem won_add (a b : Account) : (a + b).won = a.won + b.won := rfl
theorem counted_add (a b : Account) : (a + b).counted = a.counted + b.counted := rfl
theorem owed_add (a b : Account) : (a + b).owed = a.owed + b.owed := rfl
theorem closed_add (a b : Account) : (a + b).closed = a.closed + b.closed := rfl

end Account

/-- What a copy contributes to the account of a group it may be a member of. -/
def TaskMessage.share (group : String) (m : TaskMessage) (won : Multiset (TaskId × Json))
    (counted : Multiset Json) (owed closed : Nat) : Account :=
  if m.groupId = some group then ({m.id}, won, counted, owed, closed) else 0

/-- What an execution contributes. -/
def Stage.account (group : String) : Stage → Account
  | .received _ m => m.share group 0 0 0 0
  | .cleared _ m => m.share group 0 0 0 0
  | .postponed m _ => m.share group 0 0 0 0
  | .released m _ => m.share group 0 0 0 0
  | .running _ m => m.share group 0 0 0 0
  | .erred m => m.share group 0 0 0 0
  | .failed m => m.share group 0 0 0 0
  | .toRetry m => m.share group 0 0 0 0
  | .toBury m => m.share group 0 0 0 0
  | .succeeded _ m result => m.share group {(m.id, result)} 0 0 0
  | .acked _ m result => m.share group {(m.id, result)} 0 0 0
  | .stored m result => m.share group {(m.id, result)} 0 0 0
  | .calling m result _ => m.share group {(m.id, result)} {result} 1 0
  | .collected m result _ => m.share group {(m.id, result)} {result} 1 0
  | .wrapping m result => m.share group {(m.id, result)} {result} 0 0
  | .minting m result _ => m.share group {(m.id, result)} {result} 0 0
  | .continuing m result _ => m.share group {(m.id, result)} {result} 0 0
  | .chained m result => m.share group {(m.id, result)} {result} 0 0
  | .finished m result => m.share group {(m.id, result)} {result} 0 1
  | .gone => 0

/-- What a token contributes. -/
def Token.account (group : String) : Token → Account
  | .waiting m => m.share group 0 0 0 0
  | .buried m => m.share group 0 0 0 0
  | .held (.exec t) => t.account group
  | .held (.settling s) => s.message.share group 0 0 0 0
  | .held (.client _) => 0

/-- The account of a whole ledger. -/
def account (group : String) (T : Multiset Token) : Account := (T.map (Token.account group)).sum

theorem account_add (group : String) (T T' : Multiset Token) :
    account group (T + T') = account group T + account group T' := by
  rw [account, Multiset.map_add, Multiset.sum_add]
  rfl

@[simp] theorem account_zero (group : String) : account group 0 = 0 := rfl

@[simp] theorem account_singleton (group : String) (v : Token) :
    account group {v} = v.account group := by
  rw [account, Multiset.map_singleton, Multiset.sum_singleton]

theorem account_pair (group : String) (v w : Token) :
    account group {v, w} = v.account group + w.account group := by
  have h : ({v, w} : Multiset Token) = {v} + {w} := rfl
  rw [h, account_add, account_singleton, account_singleton]

theorem share_of_member {group : String} {m : TaskMessage} (h : m.groupId = some group)
    (won : Multiset (TaskId × Json)) (counted : Multiset Json) (owed closed : Nat) :
    m.share group won counted owed closed = ({m.id}, won, counted, owed, closed) := if_pos h

theorem share_of_other {group : String} {m : TaskMessage} (h : m.groupId ≠ some group)
    (won : Multiset (TaskId × Json)) (counted : Multiset Json) (owed closed : Nat) :
    m.share group won counted owed closed = 0 := if_neg h

/-- Results are counted only of executions that have succeeded, and those are
executions of members; a completed one has been counted and owes nothing. -/
structure Account.Sound (a : Account) : Prop where
  counted : a.counted ≤ a.won.map Prod.snd
  won : a.won.map Prod.fst ≤ a.ids
  closed : a.owed + a.closed ≤ a.counted.card

theorem Account.Sound.add {a b : Account} (ha : Account.Sound a) (hb : Account.Sound b) :
    Account.Sound (a + b) where
  counted := by
    rw [Account.counted_add, Account.won_add, Multiset.map_add]
    exact add_le_add ha.counted hb.counted
  won := by
    rw [Account.won_add, Account.ids_add, Multiset.map_add]
    exact add_le_add ha.won hb.won
  closed := by
    have ha := ha.closed
    have hb := hb.closed
    rw [Account.owed_add, Account.closed_add, Account.counted_add, Multiset.card_add]
    omega

theorem Account.sound_zero : Account.Sound 0 :=
  ⟨Multiset.zero_le _, Multiset.zero_le _, le_rfl⟩

/-- Every share is sound, at whatever point the member is. -/
theorem TaskMessage.share_sound (group : String) (m : TaskMessage)
    {won : Multiset (TaskId × Json)} {counted : Multiset Json} {owed closed : Nat}
    (hcounted : counted ≤ won.map Prod.snd) (hwon : won.map Prod.fst ≤ {m.id})
    (hclosed : owed + closed ≤ counted.card) :
    Account.Sound (m.share group won counted owed closed) := by
  unfold TaskMessage.share
  split
  · exact ⟨hcounted, hwon, hclosed⟩
  · exact Account.sound_zero

theorem Token.account_sound (group : String) (v : Token) : Account.Sound (v.account group) := by
  have hpending : ∀ m : TaskMessage, Account.Sound (m.share group 0 0 0 0) := fun m =>
    m.share_sound group (Multiset.zero_le _) (Multiset.zero_le _) le_rfl
  have hwon : ∀ (m : TaskMessage) (result : Json),
      Account.Sound (m.share group {(m.id, result)} 0 0 0) := fun m result =>
    m.share_sound group (Multiset.zero_le _) le_rfl le_rfl
  have hcounted : ∀ (m : TaskMessage) (result : Json) (owed closed : Nat), owed + closed ≤ 1 →
      Account.Sound (m.share group {(m.id, result)} {result} owed closed) :=
    fun m result owed closed h => m.share_sound group le_rfl le_rfl h
  cases v with
  | waiting m => exact hpending m
  | buried m => exact hpending m
  | held r =>
      cases r with
      | client s => exact Account.sound_zero
      | settling s => exact hpending s.message
      | exec t =>
          cases t with
          | gone => exact Account.sound_zero
          | succeeded b m result => exact hwon m result
          | acked b m result => exact hwon m result
          | stored m result => exact hwon m result
          | calling m result callback => exact hcounted m result 1 0 le_rfl
          | collected m result callback => exact hcounted m result 1 0 le_rfl
          | wrapping m result => exact hcounted m result 0 0 (Nat.zero_le _)
          | minting m result now => exact hcounted m result 0 0 (Nat.zero_le _)
          | continuing m result next => exact hcounted m result 0 0 (Nat.zero_le _)
          | chained m result => exact hcounted m result 0 0 (Nat.zero_le _)
          | finished m result => exact hcounted m result 0 1 le_rfl
          | received b m => exact hpending m
          | cleared b m => exact hpending m
          | postponed m eta => exact hpending m
          | released m eta => exact hpending m
          | running b m => exact hpending m
          | erred m => exact hpending m
          | failed m => exact hpending m
          | toRetry m => exact hpending m
          | toBury m => exact hpending m

theorem account_sound (group : String) (T : Multiset Token) :
    Account.Sound (account group T) := by
  induction T using Multiset.induction with
  | empty => exact Account.sound_zero
  | cons v T ih =>
      rw [← Multiset.singleton_add, account_add, account_singleton]
      exact (v.account_sound group).add ih

/-- What a history adds to the account of a group. -/
def progress {S : Service resultBackendTrait} {codec : Codec} (group : String)
    (tr : List (memorySystem S codec).Label) : Account :=
  (0, successes group tr, 0, 0, (finishes group tr).length)

/-- The clients of a ledger. -/
def Token.clients : Token → Multiset Canvas.Submission
  | .held (.client s) => {s}
  | _ => 0

def clients (T : Multiset Token) : Multiset Canvas.Submission := (T.map Token.clients).sum

theorem clients_add (T T' : Multiset Token) : clients (T + T') = clients T + clients T' := by
  rw [clients, Multiset.map_add, Multiset.sum_add]
  rfl

@[simp] theorem clients_singleton (v : Token) : clients {v} = v.clients := by
  rw [clients, Multiset.map_singleton, Multiset.sum_singleton]

/-- A token of some kind is no client. -/
theorem Token.Kind.clients_eq {P : Profile} {v : Token} (h : v.Kind P) : v.clients = 0 := by
  cases v with
  | held r =>
      cases r with
      | client s => exact absurd h id
      | _ => rfl
  | _ => rfl

/-- The only tokens that are clients. -/
theorem Token.eq_client {v : Token} (h : v.clients ≠ 0) : ∃ s, v = .held (.client s) := by
  cases v with
  | held r =>
      cases r with
      | client s => exact ⟨s, rfl⟩
      | _ => exact absurd rfl h
  | _ => exact absurd rfl h

/-- A token whose message is in another group contributes nothing. -/
theorem Token.Kind.account_eq_zero {P : Profile} {v : Token} (h : v.Kind P) {group : String}
    (hP : ∀ m, P.message m → m.groupId ≠ some group) : v.account group = 0 := by
  have hshare : ∀ {m : TaskMessage}, P.message m → ∀ won counted owed closed,
      m.share group won counted owed closed = 0 :=
    fun hm won counted owed closed => share_of_other (hP _ hm) won counted owed closed
  cases v with
  | waiting m => exact hshare h _ _ _ _
  | buried m => exact hshare h _ _ _ _
  | held r =>
      cases r with
      | client s => rfl
      | settling s => exact hshare h _ _ _ _
      | exec t =>
          cases t with
          | gone => rfl
          | received b m => exact hshare h.2 _ _ _ _
          | cleared b m => exact hshare h.2 _ _ _ _
          | running b m => exact hshare h.2 _ _ _ _
          | succeeded b m result => exact hshare h.2 _ _ _ _
          | acked b m result => exact hshare h.2 _ _ _ _
          | calling m result callback => exact hshare h.1 _ _ _ _
          | collected m result callback => exact hshare h.1 _ _ _ _
          | continuing m result next => exact hshare h.1 _ _ _ _
          | _ => exact hshare h _ _ _ _

/-! ## Freshness -/

section Run

variable {S : Service resultBackendTrait} {codec : Codec}

theorem uuids_append (tr tr' : List (memorySystem S codec).Label) :
    uuids (tr ++ tr') = uuids tr ++ uuids tr' := List.filterMap_append

theorem drawn_append (tr tr' : List (memorySystem S codec).Label) :
    drawn (tr ++ tr') = drawn tr ++ drawn tr' := List.filterMap_append

theorem sent_append (tr tr' : List (memorySystem S codec).Label) :
    sent (tr ++ tr') = sent tr ++ sent tr' := List.filterMap_append

theorem members_append (group : String) (tr tr' : List (memorySystem S codec).Label) :
    members group (tr ++ tr') = members group tr ++ members group tr' := by
  rw [members, sent_append, List.filter_append]
  rfl

theorem callbacks_append (i : TaskId) (tr tr' : List (memorySystem S codec).Label) :
    callbacks i (tr ++ tr') = callbacks i tr ++ callbacks i tr' := by
  rw [callbacks, sent_append, List.filter_append]
  rfl

theorem successes_append (group : String) (tr tr' : List (memorySystem S codec).Label) :
    successes group (tr ++ tr') = successes group tr ++ successes group tr' :=
  List.filterMap_append

theorem finishes_append (group : String) (tr tr' : List (memorySystem S codec).Label) :
    finishes group (tr ++ tr') = finishes group tr ++ finishes group tr' :=
  List.filterMap_append

theorem completions_append (group : String) (tr tr' : List (memorySystem S codec).Label) :
    completions group (tr ++ tr') = completions group tr ++ completions group tr' :=
  List.filterMap_append

/-- The identifiers of a history are fresh: task identifiers are drawn once, and
neither other producers nor other users of the backend know the groups in `U` or
the identifiers in `D`, which the system draws.  Every worker has the backend. -/
structure Fresh (U : String → Prop) (D : TaskId → Prop)
    (tr : List (memorySystem S codec).Label) : Prop where
  ownGroups : ∀ u ∈ uuids tr, U u.toText
  ownIds : ∀ i ∈ drawn tr, D i
  nodup : (drawn tr).Nodup
  producers : ∀ m, .env (.enqueue m) ∈ tr → m.Foreign U D
  users : ∀ o op group, .env (.backend o op) ∈ tr → op.group = some group → ¬ U group
  equipped : ∀ w queues, .env (.poll w queues) ∈ tr → w.hasBackend = true

variable {U : String → Prop} {D : TaskId → Prop}

/-- A history with fresh identifiers has had them all along. -/
theorem Fresh.init {tr tr' : List (memorySystem S codec).Label} (h : Fresh U D (tr ++ tr')) :
    Fresh U D tr where
  ownGroups u hu := h.ownGroups u (by rw [uuids_append]; exact List.mem_append.mpr (.inl hu))
  ownIds i hi := h.ownIds i (by rw [drawn_append]; exact List.mem_append.mpr (.inl hi))
  nodup := by
    have hnodup := h.nodup
    rw [drawn_append] at hnodup
    exact (List.nodup_append.mp hnodup).1
  producers m hm := h.producers m (List.mem_append.mpr (.inl hm))
  users o op group hop := h.users o op group (List.mem_append.mpr (.inl hop))
  equipped w queues hw := h.equipped w queues (List.mem_append.mpr (.inl hw))

/-- An identifier drawn now was not drawn before. -/
theorem Fresh.draw_ne {tr : List (memorySystem S codec).Label}
    {l : (memorySystem S codec).Label} (h : Fresh U D (tr ++ [l])) {i j : TaskId}
    (hi : i ∈ drawn [l]) (hj : j ∈ drawn tr) : i ≠ j := by
  have hnodup := h.nodup
  rw [drawn_append] at hnodup
  intro heq
  exact (List.nodup_append.mp hnodup).2.2 j hj i hi heq.symm

/-! ## Steps of foreign tokens -/

/-- The profile of foreign tokens.  `Seen` are the identifiers their chain steps
may have. -/
def alien (U : String → Prop) (D Seen : TaskId → Prop) : Profile where
  message m := m.Foreign U D
  calling callback := callback.Foreign U D ∧ ¬ D callback.id
  collected callback := callback.Foreign U D ∧ ¬ D callback.id
  next m := m.Foreign U D ∧ Seen m.id

theorem alien_closed (U : String → Prop) (D Seen : TaskId → Prop) : (alien U D Seen).Closed :=
  fun _ _ h => ⟨h.congr rfl rfl, h.congr rfl rfl⟩

/-- With more identifiers seen, a foreign token stays foreign. -/
theorem Token.Kind.alien_mono {Seen Seen' : TaskId → Prop} (hseen : ∀ i, Seen i → Seen' i)
    {v : Token} (h : v.Kind (alien U D Seen)) : v.Kind (alien U D Seen') := by
  cases v with
  | held r =>
      cases r with
      | exec t =>
          cases t with
          | continuing m result next => exact ⟨h.1, h.2.1, hseen _ h.2.2⟩
          | _ => exact h
      | _ => exact h
  | _ => exact h

/-- What a step of a foreign token can do: its successors are foreign, and it
shows nothing of the groups in `U`. -/
structure AlienStep (B : GroupBackend S) (U : String → Prop) (D Seen : TaskId → Prop)
    (l : (memorySystem S codec).Label) (after : Multiset Token) : Prop where
  tokens : ∀ v ∈ after, v.Kind (alien U D Seen)
  sends : ∀ m ∈ sent [l], m.Foreign U D ∧ (¬ D m.id ∨ Seen m.id)
  wins : ∀ group, U group → progress group [l] = 0
  counts : ∀ group, U group → completions group [l] = []
  backend : ∀ s s', BackendMove s l s' → ∀ group, U group →
    (B.Untouched s group → B.Untouched s' group) ∧
      ∀ rs, B.Holds s group rs → B.Holds s' group rs

/-- A step that calls no backend leaves all groups alone. -/
theorem backend_idle {B : GroupBackend S} {l : (memorySystem S codec).Label}
    (h : ∀ s s', BackendMove s l s' → s' = s) :
    ∀ s s', BackendMove s l s' → ∀ group, U group →
      (B.Untouched s group → B.Untouched s' group) ∧
        ∀ rs, B.Holds s group rs → B.Holds s' group rs := by
  intro s s' hmove group _
  rw [h s s' hmove]
  exact ⟨id, fun _ => id⟩

/-- A log line that is no mark adds nothing to any account. -/
theorem progress_note {e : TraceEvent} (h : e.isMark = false) (group : String) :
    progress group [(.call ⟨.runtime (.trace e), ()⟩ : (memorySystem S codec).Label)] = 0 := by
  cases e <;> first | rfl | cases h

/-- A call of the runtime by a foreign execution. -/
theorem AlienStep.of_runtime {B : GroupBackend S} {Seen Seen' : TaskId → Prop} {t t' : Stage}
    {op : RuntimeOp} {r : op.Res} (hstep : Stage.Step codec t (.runtime op) r t')
    (hseen : ∀ i, Seen i → Seen' i)
    (hdraw : ∀ i ∈ drawn [(.call ⟨.runtime op, r⟩ : (memorySystem S codec).Label)], Seen' i)
    (h : (Token.held (.exec t)).Kind (alien U D Seen)) :
    AlienStep B U D Seen' (.call ⟨.runtime op, r⟩ : (memorySystem S codec).Label)
      {.held (.exec t')} where
  tokens := by
    intro v hv
    obtain rfl := Multiset.mem_singleton.mp hv
    refine hstep.kind_of_runtime (alien_closed U D Seen') ?_ (h.alien_mono hseen)
    intro m result sig rest now i _ heq
    obtain ⟨hgroup, hcallback, hid⟩ := chainStep_plain codec m result sig rest now i
    refine ⟨.plain hgroup hcallback, hdraw _ ?_⟩
    cases heq
    exact List.mem_singleton.mpr hid
  sends := nofun
  wins := by
    intro group hU
    cases hstep with
    | handled b m result =>
        have hne : m.start.groupId ≠ some group := fun hg => h.2.group hg hU
        simp [progress, successes, finishes, hne]
    | completeWithoutBackend m result => exact absurd h.1 Bool.false_ne_true
    | @complete m result hnext =>
        have hne : m.succeed.groupId ≠ some group := fun hg => TaskMessage.Foreign.group h hg hU
        simp [progress, successes, finishes, hne]
    | completeChained m result =>
        have hne : m.succeed.groupId ≠ some group := fun hg => TaskMessage.Foreign.group h hg hU
        simp [progress, successes, finishes, hne]
    | note t hmark => exact progress_note hmark group
    | _ => rfl
  counts _ _ := rfl
  backend := backend_idle fun _ _ h => h

/-- A completion shows in the history of its own group only. -/
theorem completions_other {group group' : String} (hne : group' ≠ group) (task : TaskId)
    (result : Json) (r : TaskResult UInt32) :
    completions group
      [(.call ⟨.backend (.completeGroupMember group' task result), r⟩ :
        (memorySystem S codec).Label)] = [] := by
  simp [completions, hne]

/-- A call of the backend by a foreign execution. -/
theorem AlienStep.of_backend {B : GroupBackend S} {Seen : TaskId → Prop} {t t' : Stage}
    {op : ResultBackendOp} {r : op.Res} (hstep : Stage.Step codec t (.backend op) r t')
    (h : (Token.held (.exec t)).Kind (alien U D Seen)) :
    AlienStep B U D Seen (.call ⟨.backend op, r⟩ : (memorySystem S codec).Label)
      {.held (.exec t')} where
  tokens := by
    intro v hv
    obtain rfl := Multiset.mem_singleton.mp hv
    cases hstep with
    | storeMember result r hg => exact h.2
    | storeLone result r hg => exact h.2
    | countLast result hg hdue =>
        have hcb : _ = some _ := (Option.ite_none_right_eq_some.mp hdue).2
        obtain ⟨hid, hforeign⟩ := TaskMessage.Foreign.callback h hcb
        exact ⟨h, hforeign, hid⟩
    | collect result callback r hg =>
        refine ⟨h.1, ?_⟩
        cases r with
        | ok rs => exact ⟨h.2.1.congr rfl rfl, h.2.2⟩
        | error e => exact h.2
    | _ => exact h
  sends := nofun
  wins _ _ := rfl
  counts := by
    intro group hU
    cases hstep with
    | storeMember _ _ _ => rfl
    | storeLone _ _ _ => rfl
    | collect _ _ _ _ => rfl
    | countLast result hg _ =>
        refine completions_other ?_ _ _ _
        rintro rfl
        exact TaskMessage.Foreign.group h hg hU
    | countOther result hg _ =>
        refine completions_other ?_ _ _ _
        rintro rfl
        exact TaskMessage.Foreign.group h hg hU
    | countFailed result e hg =>
        refine completions_other ?_ _ _ _
        rintro rfl
        exact TaskMessage.Foreign.group h hg hU
  backend := by
    intro s s' ⟨o, hrespond⟩ group hU
    refine B.frame ?_ hrespond
    cases hstep with
    | storeMember _ _ _ => exact nofun
    | storeLone _ _ _ => exact nofun
    | collect result callback r hg =>
        intro heq
        exact h.1.group hg (Option.some.inj heq ▸ hU)
    | countLast result hg _ =>
        intro heq
        exact TaskMessage.Foreign.group h hg (Option.some.inj heq ▸ hU)
    | countOther result hg _ =>
        intro heq
        exact TaskMessage.Foreign.group h hg (Option.some.inj heq ▸ hU)
    | countFailed result e hg =>
        intro heq
        exact TaskMessage.Foreign.group h hg (Option.some.inj heq ▸ hU)

/-- A step that moves one foreign token and shows nothing. -/
theorem AlienStep.quiet {B : GroupBackend S} {Seen : TaskId → Prop}
    {l : (memorySystem S codec).Label} {v : Token} (hv : v.Kind (alien U D Seen))
    (hsent : sent [l] = []) (hprogress : ∀ group, progress group [l] = 0)
    (hcompletions : ∀ group, completions group [l] = [])
    (hidle : ∀ s s', BackendMove s l s' → s' = s) : AlienStep B U D Seen l {v} where
  tokens w hw := by
    obtain rfl := Multiset.mem_singleton.mp hw
    exact hv
  sends := by
    rw [hsent]
    exact nofun
  wins group _ := hprogress group
  counts group _ := hcompletions group
  backend := backend_idle hidle

/-- A step of foreign tokens.  `tr` is the history before the step. -/
theorem AlienStep.of_rule {B : GroupBackend S} {Seen Seen' : TaskId → Prop}
    {tr : List (memorySystem S codec).Label} {before after : Multiset Token}
    {l : (memorySystem S codec).Label} (hrule : Rule before l after)
    (hfresh : Fresh U D (tr ++ [l])) (hseen : ∀ i, Seen i → Seen' i)
    (hdraw : ∀ i ∈ drawn [l], Seen' i) (h : ∀ v ∈ before, v.Kind (alien U D Seen)) :
    AlienStep B U D Seen' l after := by
  have hl : l ∈ tr ++ [l] := List.mem_append.mpr (.inr (List.mem_singleton.mpr rfl))
  have hself : ∀ {v : Token}, v ∈ ({v} : Multiset Token) := Multiset.mem_singleton_self _
  cases hrule with
  | arrive m =>
      have hm : (Token.waiting m).Kind (alien U D Seen') := hfresh.producers m hl
      exact .quiet hm rfl (fun _ => rfl) (fun _ => rfl) fun _ _ h => h
  | outside o op =>
      refine ⟨nofun, nofun, fun _ _ => rfl, fun _ _ => rfl, ?_⟩
      intro s s' ⟨r, hrespond⟩ group hU
      exact B.frame (fun hg => hfresh.users o op group hl hg hU) hrespond
  | poll w queues m =>
      have hm : (Token.held (.exec (.received w.hasBackend m))).Kind (alien U D Seen') :=
        ⟨hfresh.equipped w queues hl, h _ hself⟩
      exact .quiet hm rfl (fun _ => rfl) (fun _ => rfl) fun _ _ h => h
  | note hmark =>
      exact ⟨nofun, nofun, fun group _ => progress_note hmark group, fun _ _ => rfl,
        backend_idle fun _ _ h => h⟩
  | runtime hstep _ => exact .of_runtime hstep hseen hdraw (h _ hself)
  | backend hstep => exact .of_backend hstep ((h _ hself).alien_mono hseen)
  | @enqueue t t' m hstep =>
      have hkind : t.Kind (alien U D Seen') := (h _ hself).alien_mono hseen
      obtain ⟨ht', hm⟩ := hstep.kind_of_enqueue hkind
      have hforeign : m.Foreign U D ∧ (¬ D m.id ∨ Seen' m.id) := by
        rcases hm with hm | hm
        · exact ⟨hm.1, .inl hm.2⟩
        · exact ⟨hm.1, .inr hm.2⟩
      refine ⟨?_, ?_, fun _ _ => rfl, fun _ _ => rfl, backend_idle fun _ _ h => h⟩
      · intro v hv
        rcases Multiset.mem_cons.mp hv with rfl | hv
        · exact hforeign.1
        · obtain rfl := Multiset.mem_singleton.mp hv
          exact ht'
      · intro m' hm'
        obtain rfl : m' = m := List.mem_singleton.mp hm'
        exact hforeign
  | ack hstep =>
      have hkind := hstep.kind_of_ack ((h _ hself).alien_mono hseen)
      exact .quiet hkind rfl (fun _ => rfl) (fun _ => rfl) fun _ _ h => h
  | schedule m eta =>
      have hm : (Token.waiting m).Kind (alien U D Seen') := h _ hself
      exact .quiet hm rfl (fun _ => rfl) (fun _ => rfl) fun _ _ h => h
  | release hstep =>
      have hkind := hstep.kind_of_release ((h _ hself).alien_mono hseen)
      exact .quiet hkind rfl (fun _ => rfl) (fun _ => rfl) fun _ _ h => h
  | requeue m =>
      have hm : (Token.waiting m).Kind (alien U D Seen') := h _ hself
      exact .quiet hm rfl (fun _ => rfl) (fun _ => rfl) fun _ _ h => h
  | bury m =>
      have hm : (Token.buried m).Kind (alien U D Seen') := h _ hself
      exact .quiet hm rfl (fun _ => rfl) (fun _ => rfl) fun _ _ h => h
  | clientRuntime hstep => exact absurd (h _ hself) id
  | clientBackend hstep => exact absurd (h _ hself) id
  | clientEnqueue hstep => exact absurd (h _ hself) id

end Run

end Kojin.Core
