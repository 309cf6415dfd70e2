/-
  Sqs/Custody.lean --- what becomes of a text on SQS (`kojin-sqs`: `broker.rs`).

  Several processes share the queues of a service.  Each has a broker that remembers
  receipts of its own, and any number of its methods run at a time.  A text is held back,
  received, given back when its visibility timeout is over, and received again while an
  earlier receiver is still at work:

      SendMessage                put
      ReceiveMessage             lend, under a new receipt
      ChangeMessageVisibility,
      visibility timeout         giveBack
      DeleteMessage              settle

  A text leaves the service only for an `ack` or a `dead_letter` of the message it is of.
  What carries this is that a receipt which some process remembers for an identifier, or
  has just taken out of its memory, is that of a text with this identifier; which process
  it is does not matter.
-/
import Kojin.Foundation.Leases
import Kojin.Foundation.Observed
import Kojin.Foundation.Tenants
import Kojin.Sqs.Delay

set_option autoImplicit false

namespace Kojin.Sqs

open Kojin.Foundation Kojin.Core

/-! ## Processes -/

/-- The service, and the receipts that each process remembers. -/
structure FleetState (ι : Type) where
  cloud : DelayState
  receipts : ι → TaskId → Option (String × Receipt)

namespace FleetState

variable {ι : Type}

/-- A service without texts, and processes without receipts. -/
def fresh (now : DateTime) : FleetState ι := ⟨⟨now, [], .empty⟩, fun _ _ => none⟩

/-- What a process has before it. -/
def seenBy (s : FleetState ι) (i : ι) : DelayState :=
  { s.cloud with server := { s.cloud.server with receipts := s.receipts i } }

/-- What a process leaves behind. -/
def leave [DecidableEq ι] (s : FleetState ι) (i : ι) (t : DelayState) : FleetState ι :=
  ⟨t, Function.update s.receipts i t.server.receipts⟩

end FleetState

/-- What comes from outside: time passes, a delay or a visibility timeout ends, and a
process calls a method of its broker. -/
inductive FleetStimulus (ι : Type) where
  | tick (nanos : Nat)
  | release (k : Nat)
  | expire (url : String) (receipt : Receipt)
  | dequeue (i : ι) (queues : List String) (timeoutSecs : Int)
  | call (i : ι) (op : BrokerOp)

/-- Make a call, whatever it returns. -/
def heedless {α : Type} (p : Prog requests α) : Prog requests Unit := do
  let _ ← p
  pure ()

section Fleet

variable {ι : Type} [DecidableEq ι]

/-- One service for all. -/
def fleetServer (ι : Type) [DecidableEq ι] : Service (tagged ι requests) where
  State := FleetState ι
  Oracle := SqsOracle
  respond o s op :=
    (delayServer.respond o (s.seenBy op.1) op.2).map fun p => (p.1, s.leave op.1 p.2)

/-- The processes, each with its broker. -/
def fleet (brokers : ι → SqsBroker) (codec : SqsCodec) : Machine (tagged ι requests) where
  toService := fleetServer ι
  Stimulus := FleetStimulus ι
  accept x s :=
    match x with
    | .tick nanos => some ({ s with cloud := s.cloud.tick nanos }, [])
    | .release k => (s.cloud.release k).map fun t => ({ s with cloud := t }, [])
    | .expire url receipt => some ({ s with cloud := s.cloud.expire url receipt }, [])
    | .dequeue i queues timeoutSecs =>
        some (s, [(heedless ((brokers i).dequeue codec queues timeoutSecs)).tag i])
    | .call i op => some (s, [(heedless ((brokers i).driver codec op)).tag i])

end Fleet

/-! ## What happens to texts -/

/-- A text, with the queue it is in. -/
abbrev Text : Type := String × String

/-- What is noted: a call that lets go of a message, and what happened to texts. -/
inductive Note where
  | asked (id : TaskId)
  | dealt (d : Dealing Receipt Text)
  deriving DecidableEq

/-- What happened to texts, of all that was noted. -/
def Note.dealing? : Note → Option (Dealing Receipt Text)
  | .asked _ => none
  | .dealt d => some d

/-- The dealings that were noted. -/
def dealings (ns : List Note) : List (Dealing Receipt Text) := ns.filterMap Note.dealing?

/-- The texts that were sent. -/
def sent (ns : List Note) : Multiset Text := Dealing.tally Dealing.put? (dealings ns)

/-- The texts that were received, under their receipts. -/
def received (ns : List Note) : Multiset (Receipt × Text) :=
  Dealing.tally Dealing.lent? (dealings ns)

/-- The texts that were given back, under the receipts they had been received with. -/
def returned (ns : List Note) : Multiset (Receipt × Text) :=
  Dealing.tally Dealing.returned? (dealings ns)

/-- The texts that were deleted, under the receipts they were deleted with. -/
def deleted (ns : List Note) : Multiset (Receipt × Text) :=
  Dealing.tally Dealing.settled? (dealings ns)

/-- The text of a request that is held back. -/
def heldText (e : DateTime × SendRequest) : Text := (e.2.queueUrl, e.2.body)

/-- The text in flight under this receipt. -/
def SqsState.inFlight (s : SqsState) (url : String) (receipt : Receipt) :
    List (Receipt × Text) :=
  (s.flight.find? (SqsState.isAt url receipt)).toList

/-- What was taken out of flight under a receipt. -/
def SqsState.landed (s s' : SqsState) (url : String) (receipt : Receipt) :
    List (Receipt × Text) :=
  if s'.flight.length < s.flight.length then s.inFlight url receipt else []

/-- What a request did to texts, from the state before and the one after.  The answer is not
looked at, for it may be lost. -/
def DelayState.deals (s s' : DelayState) : SqsOp → List (Dealing Receipt Text)
  | .sendMessage _ => (s'.delayed.drop s.delayed.length).map fun e => .put (heldText e)
  | .receiveMessage _ _ _ =>
      (s'.server.flight.drop s.server.flight.length).map fun e => .lend e.1 e.2
  | .deleteMessage url receipt =>
      (s.server.landed s'.server url receipt).map fun e => .settle e.1 e.2
  | .changeVisibility url receipt _ =>
      (s.server.landed s'.server url receipt).map fun e => .giveBack e.1 e.2
  | _ => []

/-- The message that a call lets go of. -/
def letsGo : BrokerOp → Option TaskId
  | .ack id => some id
  | .deadLetter m => some m.id
  | _ => none

/-- What is noted of a step of the processes. -/
def moves {ι : Type} [DecidableEq ι] {brokers : ι → SqsBroker} {codec : SqsCodec}
    (s : (fleet brokers codec).State) (l : (fleet brokers codec).Label)
    (s' : (fleet brokers codec).State) : List Note :=
  match l with
  | .call ⟨(_, op), _⟩ => (DelayState.deals s.cloud s'.cloud op).map .dealt
  | .env (.expire url receipt) =>
      ((SqsState.inFlight s.cloud.server url receipt).map fun e => .giveBack e.1 e.2).map .dealt
  | .env (.call _ op) => (letsGo op).toList.map .asked
  | .env _ => []

@[simp] theorem dealings_append (ns ms : List Note) :
    dealings (ns ++ ms) = dealings ns ++ dealings ms := List.filterMap_append

@[simp] theorem dealings_dealt (ds : List (Dealing Receipt Text)) :
    dealings (ds.map .dealt) = ds := by
  unfold dealings
  rw [List.filterMap_map]
  exact List.filterMap_some

@[simp] theorem dealings_asked (ids : List TaskId) : dealings (ids.map .asked) = [] := by
  simp [dealings, List.filterMap_map, Function.comp_def, Note.dealing?]

theorem mem_dealings {ns : List Note} {d : Dealing Receipt Text} :
    d ∈ dealings ns ↔ .dealt d ∈ ns := by
  unfold dealings
  rw [List.mem_filterMap]
  constructor
  · rintro ⟨n, hn, heq⟩
    cases n with
    | asked id => cases heq
    | dealt d' => exact Option.some.inj heq ▸ hn
  · exact fun h => ⟨_, h, rfl⟩

/-! ## The service lends texts -/

namespace DelayState

variable {s s' : DelayState} {ds : List (Dealing Receipt Text)}

/-- The texts that are held back or can be received, and those in flight. -/
def leases (s : DelayState) : Leases Receipt Text where
  free := s.server.visible + s.delayed.map heldText
  lent := s.server.flight

/-- The dealings led to what the service has, and it has issued every receipt that was used. -/
def Accounts (ds : List (Dealing Receipt Text)) (s : DelayState) : Prop :=
  Leases.Book (fun receipt => s.server.issued ≤ receipt) ds s.leases

/-- Nothing happened to texts. -/
theorem Accounts.same (h : Accounts ds s) (hleases : s'.leases = s.leases)
    (hissued : s'.server.issued = s.server.issued) : Accounts (ds ++ []) s' := by
  rw [List.append_nil, Accounts, hleases, hissued]
  exact h

/-- A text that is sent. -/
theorem Accounts.send (h : Accounts ds s) (request : SendRequest) (duplicate : Bool) :
    Accounts (ds ++ ((s.send request duplicate).delayed.drop s.delayed.length).map
      fun e => .put (heldText e)) (s.send request duplicate) := by
  unfold DelayState.send
  split
  · rw [List.drop_length]
    exact h.same rfl rfl
  · simp only [List.drop_left, List.map_cons, List.map_nil]
    have hput := h.put (heldText (request.releasedAt s.now, request))
    rw [leases, ← Multiset.add_cons, ← coe_snoc] at hput
    simpa only [Accounts, leases, List.map_append, List.map_cons, List.map_nil] using hput

/-- A text whose delay is over. -/
theorem leases_release {k : Nat} (h : s.release k = some s') :
    s'.leases = s.leases ∧ s'.server.issued = s.server.issued := by
  unfold DelayState.release at h
  split at h
  · cases h
  · rename_i releasedAt request hk
    split at h
    · cases h
      obtain ⟨hlt, hget⟩ := List.getElem?_eq_some_iff.mp hk
      refine ⟨?_, rfl⟩
      have hperm : (s.delayed.map heldText).Perm
          (heldText (releasedAt, request) :: (s.delayed.eraseIdx k).map heldText) := by
        rw [← hget, ← List.map_cons]
        exact (List.getElem_cons_eraseIdx_perm hlt).symm.map heldText
      simp only [leases, Leases.mk.injEq, Multiset.coe_add, Multiset.coe_eq_coe, and_true]
      rw [List.append_assoc]
      exact hperm.symm.append_left _
    · cases h

end DelayState

/-- What is in flight under a receipt. -/
theorem SqsState.mem_inFlight {s : SqsState} {url : String} {receipt : Receipt}
    {e : Receipt × Text} (h : e ∈ s.inFlight url receipt) :
    ∃ body, e = (receipt, url, body) ∧ e ∈ s.flight := by
  have hfind := Option.mem_toList.mp h
  have hat := List.find?_some hfind
  obtain ⟨receipt', url', body⟩ := e
  obtain ⟨rfl, rfl⟩ : receipt' = receipt ∧ url' = url := by simpa [isAt] using hat
  exact ⟨body, rfl, List.mem_of_find?_eq_some hfind⟩

theorem SqsState.inFlight_of_landed {s s' : SqsState} {url : String} {receipt : Receipt}
    {e : Receipt × Text} (h : e ∈ s.landed s' url receipt) : e ∈ s.inFlight url receipt := by
  unfold landed at h
  split at h
  · exact h
  · cases h

/-- Only a delete deletes. -/
theorem DelayState.settle_of_deals {s s' : DelayState} {op : SqsOp} {receipt : Receipt} {x : Text}
    (h : .settle receipt x ∈ deals s s' op) :
    ∃ url, op = .deleteMessage url receipt ∧ x.1 = url ∧ (receipt, x) ∈ s.server.flight := by
  unfold deals at h
  split at h
  · obtain ⟨_, -, heq⟩ := List.mem_map.mp h
    cases heq
  · obtain ⟨_, -, heq⟩ := List.mem_map.mp h
    cases heq
  · obtain ⟨e, he, heq⟩ := List.mem_map.mp h
    cases heq
    obtain ⟨body, rfl, hmem⟩ := SqsState.mem_inFlight (SqsState.inFlight_of_landed he)
    exact ⟨_, rfl, rfl, hmem⟩
  · obtain ⟨_, -, heq⟩ := List.mem_map.mp h
    cases heq
  · cases h

/-- The text in flight under a receipt is there, or it is not. -/
theorem SqsState.inFlight_cases (s : SqsState) (url : String) (receipt : Receipt) :
    (s.inFlight url receipt = [] ∧ s.flight.find? (isAt url receipt) = none ∧
        (s.delete url receipt).flight = s.flight) ∨
      ∃ body, s.inFlight url receipt = [(receipt, url, body)] ∧
        s.flight.find? (isAt url receipt) = some (receipt, url, body) ∧
        s.flight.Perm ((receipt, url, body) :: (s.delete url receipt).flight) := by
  unfold inFlight
  rcases find?_eraseP_cases (isAt url receipt) s.flight with
    ⟨hnone, herase⟩ | ⟨e, hsome, hat, hperm⟩
  · rw [hnone]
    exact .inl ⟨rfl, rfl, herase⟩
  · obtain ⟨receipt', url', body⟩ := e
    obtain ⟨rfl, rfl⟩ : receipt' = receipt ∧ url' = url := by simpa [isAt] using hat
    rw [hsome]
    exact .inr ⟨body, rfl, rfl, hperm⟩

namespace SqsState

variable {s : SqsState} {url : String} {receipt : Receipt}

/-- Nothing was taken out of flight. -/
@[simp] theorem landed_same (s : SqsState) (url : String) (receipt : Receipt) :
    s.landed s url receipt = [] := by
  simp [landed]

/-- A delete takes out of flight what the receipt is of. -/
theorem landed_delete (s : SqsState) (url : String) (receipt : Receipt) :
    s.landed (s.delete url receipt) url receipt = s.inFlight url receipt := by
  unfold landed
  rcases s.inFlight_cases url receipt with ⟨hnone, -, hflight⟩ | ⟨body, -, -, hperm⟩
  · rw [hflight, hnone, ite_self]
  · refine if_pos ?_
    have hlength := hperm.length_eq
    rw [List.length_cons] at hlength
    omega

/-- A timeout of zero gives back what the receipt is of, another one nothing. -/
theorem landed_changeVisibility (s : SqsState) (url : String) (receipt : Receipt) (timeout : Int) :
    s.landed (s.changeVisibility url receipt timeout) url receipt =
      if timeout = 0 then s.inFlight url receipt else [] := by
  unfold changeVisibility
  rcases s.inFlight_cases url receipt with ⟨hnone, hfind, -⟩ | ⟨body, -, hfind, -⟩
  · simp [hnone, hfind]
  · rw [hfind]
    by_cases htimeout : timeout = 0
    · rw [if_pos htimeout]
      simp only [if_pos htimeout]
      exact s.landed_delete url receipt
    · simp [htimeout]

/-- Another timeout changes nothing here. -/
theorem changeVisibility_of_ne {timeout : Int} (h : timeout ≠ 0) :
    s.changeVisibility url receipt timeout = s := by
  unfold changeVisibility
  split
  · exact if_neg h
  · rfl

end SqsState

namespace DelayState

variable {s s' : DelayState} {ds : List (Dealing Receipt Text)}

/-- A receipt is used to delete. -/
theorem Accounts.delete (h : Accounts ds s) (url : String) (receipt : Receipt) :
    Accounts (ds ++ (s.server.inFlight url receipt).map fun e => .settle e.1 e.2)
      { s with server := s.server.delete url receipt } := by
  rcases s.server.inFlight_cases url receipt with ⟨hnone, -, hflight⟩ | ⟨body, hsome, -, hperm⟩
  · rw [hnone]
    refine h.same ?_ rfl
    simp only [leases, hflight]
    rfl
  · rw [hsome]
    have hlent : (s.server.flight : Multiset (Receipt × Text)) =
        (receipt, url, body) ::ₘ ((s.server.delete url receipt).flight : Multiset _) :=
      Multiset.coe_eq_coe.mpr hperm
    rw [Accounts, leases, hlent] at h
    exact h.settle

/-- A text becomes visible again. -/
theorem Accounts.giveBack (h : Accounts ds s) (url : String) (receipt : Receipt) :
    Accounts (ds ++ (s.server.inFlight url receipt).map fun e => .giveBack e.1 e.2)
      { s with server := s.server.changeVisibility url receipt 0 } := by
  rcases s.server.inFlight_cases url receipt with
    ⟨hnone, hfind, hflight⟩ | ⟨body, hsome, hfind, hperm⟩
  · rw [hnone, SqsState.changeVisibility, hfind]
    exact h.same rfl rfl
  · rw [hsome, SqsState.changeVisibility, hfind]
    have hlent : (s.server.flight : Multiset (Receipt × Text)) =
        (receipt, url, body) ::ₘ ((s.server.delete url receipt).flight : Multiset _) :=
      Multiset.coe_eq_coe.mpr hperm
    rw [Accounts, leases, hlent] at h
    have hback := h.giveBack
    rw [← Multiset.cons_add, ← coe_snoc] at hback
    exact hback

/-- A text is received. -/
theorem Accounts.take (h : Accounts ds s) {url body : String} {pick : Nat}
    (hpick : s.server.visible[pick]? = some (url, body)) :
    Accounts (ds ++ [.lend s.server.issued (url, body)])
      { s with server := s.server.take pick url body } := by
  obtain ⟨hlt, hget⟩ := List.getElem?_eq_some_iff.mp hpick
  have hfree : (s.server.visible : Multiset Text) =
      (url, body) ::ₘ (s.server.visible.eraseIdx pick : Multiset Text) := by
    rw [← hget]
    exact Multiset.coe_eq_coe.mpr (List.getElem_cons_eraseIdx_perm hlt).symm
  rw [Accounts, leases, hfree, Multiset.cons_add] at h
  have hlend : Leases.Book (fun receipt => s.server.issued + 1 ≤ receipt) _ _ :=
    h.lend (Nat.le_refl s.server.issued) fun r hr => ⟨Nat.le_of_succ_le hr, Nat.ne_of_gt hr⟩
  rw [← coe_snoc] at hlend
  exact hlend

/-- A request that does nothing to texts. -/
theorem Accounts.idle (h : Accounts ds s) {op : SqsOp} (hdeals : deals s s' op = [])
    (hleases : s'.leases = s.leases) (hissued : s'.server.issued = s.server.issued) :
    Accounts (ds ++ deals s s' op) s' := by
  rw [hdeals]
  exact h.same hleases hissued

/-- A receive that is carried out. -/
theorem Accounts.receive (h : Accounts ds s) (url : String) (wait visibility : Int) (pick : Nat) :
    Accounts (ds ++ deals s { s with server := (s.server.receive url pick).2 }
        (.receiveMessage url wait visibility))
      { s with server := (s.server.receive url pick).2 } := by
  rcases s.server.receive_cases url pick with heq | ⟨body, hpick, heq⟩
  · rw [heq]
    exact h.idle (by simp [deals]) rfl rfl
  · rw [heq]
    have hdeals : deals s { s with server := s.server.take pick url body }
        (.receiveMessage url wait visibility) = [.lend s.server.issued (url, body)] := by
      simp [deals, SqsState.take]
    rw [hdeals]
    exact h.take hpick

/-- A delete that is carried out. -/
theorem Accounts.deleted (h : Accounts ds s) (url : String) (receipt : Receipt) :
    Accounts (ds ++ deals s { s with server := s.server.delete url receipt }
        (.deleteMessage url receipt))
      { s with server := s.server.delete url receipt } := by
  simp only [deals, SqsState.landed_delete]
  exact h.delete url receipt

/-- A change of the visibility that is carried out. -/
theorem Accounts.changed (h : Accounts ds s) (url : String) (receipt : Receipt) (timeout : Int) :
    Accounts (ds ++ deals s { s with server := s.server.changeVisibility url receipt timeout }
        (.changeVisibility url receipt timeout))
      { s with server := s.server.changeVisibility url receipt timeout } := by
  simp only [deals, SqsState.landed_changeVisibility]
  by_cases htimeout : timeout = 0
  · subst htimeout
    exact h.giveBack url receipt
  · rw [SqsState.changeVisibility_of_ne htimeout, if_neg htimeout]
    exact h.same rfl rfl

/-- One request, whether its answer comes or not. -/
theorem Accounts.respond (h : Accounts ds s) {o : SqsOracle} {op : SqsOp} {r : op.Res}
    (hrespond : delayServer.respond o s op = some (r, s')) :
    Accounts (ds ++ deals s s' op) s' := by
  cases op with
  | utcNow =>
      cases hrespond
      exact h.same rfl rfl
  | sendMessage request =>
      rcases carried_state (Option.some.inj hrespond) with rfl | rfl
      · exact h.idle (by simp [deals]) rfl rfl
      · exact h.send request o.duplicate
  | receiveMessage url wait visibility =>
      obtain ⟨t, ht, rfl⟩ := delayServer_behind hrespond (by simp) (by simp)
      rcases carried_state (Option.some.inj ht) with rfl | rfl
      · exact h.idle (by simp [deals]) rfl rfl
      · exact h.receive url wait visibility o.pick
  | deleteMessage url receipt =>
      obtain ⟨t, ht, rfl⟩ := delayServer_behind hrespond (by simp) (by simp)
      rcases carried_state (Option.some.inj ht) with rfl | rfl
      · exact h.idle (by simp [deals]) rfl rfl
      · exact h.deleted url receipt
  | changeVisibility url receipt timeout =>
      obtain ⟨t, ht, rfl⟩ := delayServer_behind hrespond (by simp) (by simp)
      rcases carried_state (Option.some.inj ht) with rfl | rfl
      · exact h.idle (by simp [deals]) rfl rfl
      · exact h.changed url receipt timeout
  | insertReceipt id url receipt =>
      cases hrespond
      exact h.same rfl rfl
  | removeReceipt id =>
      cases hrespond
      exact h.same rfl rfl

end DelayState

/-! ## What a method does with receipts -/

/-- How far a method has come: it knows of no receipt, it has received a message, it is to
let go of a message, or it has taken the receipt of that message out of the memory. -/
inductive Duty where
  | idle
  | got (url : String) (received : Received)
  | releasing (id : TaskId)
  | released (id : TaskId) (url : String) (receipt : Receipt)

namespace Duty

/-- After a receive. -/
def received (url : String) : Except RequestError (Option Received) → Duty
  | .ok (some received) => .got url received
  | _ => .idle

/-- After the memory was asked for the receipt of a message. -/
def claimed (id : TaskId) : Option (String × Receipt) → Duty
  | some (url, receipt) => .released id url receipt
  | none => .idle

/-- What the methods do: they remember the receipt of what they received under the
identifier of the message it says, and delete with a receipt from there. -/
inductive Step (codec : SqsCodec) : Duty → (op : SqsOp) → op.Res → Duty → Prop where
  | clock (now : DateTime) : Step codec .idle .utcNow now .idle
  | send (request : SendRequest) (r : Except RequestError Unit) :
      Step codec .idle (.sendMessage request) r .idle
  | receive (url : String) (wait visibility : Int) (r : Except RequestError (Option Received)) :
      Step codec .idle (.receiveMessage url wait visibility) r (received url r)
  | remember {url : String} {got : Received} {receipt : Receipt} {m : TaskMessage} :
      got.receipt = some receipt → codec.decodeMessage (got.body.getD "{}") = .ok m →
      Step codec (.got url got) (.insertReceipt m.id url receipt) () .idle
  | forget (id : TaskId) (r : Option (String × Receipt)) :
      Step codec .idle (.removeReceipt id) r .idle
  | restore (url : String) (receipt : Receipt) (r : Except RequestError Unit) :
      Step codec .idle (.changeVisibility url receipt 0) r .idle
  | claim (id : TaskId) (r : Option (String × Receipt)) :
      Step codec (.releasing id) (.removeReceipt id) r (claimed id r)
  | delete (id : TaskId) (url : String) (receipt : Receipt) (r : Except RequestError Unit) :
      Step codec (.released id url receipt) (.deleteMessage url receipt) r .idle

/-- A method may stop anywhere. -/
abbrev protocol (codec : SqsCodec) : Protocol requests := ⟨Duty, Step codec, fun _ => True⟩

/-- Where a call of a method starts. -/
def ofCall (op : BrokerOp) : Duty :=
  match letsGo op with
  | some id => .releasing id
  | none => .idle

end Duty

namespace SqsBroker

variable {b : SqsBroker} {codec : SqsCodec}

theorem duty_sendLast (request : SendRequest) :
    (sendLast request).wp (Duty.protocol codec) .idle fun _ t => t = .idle :=
  fun r => ⟨_, .send request r, rfl⟩

theorem duty_enqueue (m : TaskMessage) :
    (b.enqueue codec m).wp (Duty.protocol codec) .idle fun _ t => t = .idle := by
  unfold enqueue
  split
  · rfl
  · split
    · exact duty_sendLast _
    · exact fun now => ⟨_, .clock now, duty_sendLast _⟩

theorem duty_schedule (m : TaskMessage) (eta : DateTime) :
    (b.schedule codec m eta).wp (Duty.protocol codec) .idle fun _ t => t = .idle := by
  rw [schedule_eq]
  refine fun now => ⟨_, .clock now, ?_⟩
  unfold sendScheduled
  split
  · rfl
  · exact duty_sendLast _

theorem duty_ack (id : TaskId) :
    (ack id).wp (Duty.protocol codec) (.releasing id) fun _ t => t = .idle := by
  refine fun answer => ⟨_, .claim id answer, ?_⟩
  match answer with
  | none => rfl
  | some (url, receipt) => exact fun r => ⟨_, .delete id url receipt r, rfl⟩

theorem duty_nack (m : TaskMessage) :
    (nack m).wp (Duty.protocol codec) .idle fun _ t => t = .idle := by
  refine fun answer => ⟨_, .forget m.id answer, ?_⟩
  match answer with
  | none => rfl
  | some (url, receipt) => exact fun r => ⟨_, .restore url receipt r, rfl⟩

theorem duty_deadLetter (m : TaskMessage) :
    (b.deadLetter codec m).wp (Duty.protocol codec) (.releasing m.id) fun _ t => t = .idle := by
  refine Prog.wp_seq (duty_ack m.id) fun answer t ht => ?_
  subst ht
  match answer with
  | .error e => rfl
  | .ok _ =>
      simp only
      split
      · rfl
      · exact duty_sendLast _

theorem duty_dequeueFrom (wait : Int) (queues : List String) :
    (b.dequeueFrom codec wait queues).wp (Duty.protocol codec) .idle fun _ _ => True := by
  induction queues with
  | nil => trivial
  | cons name names ih =>
      unfold dequeueFrom
      cases b.resolveQueueUrl name with
      | none => exact ih
      | some url =>
          refine fun answer => ⟨_, .receive url wait _ answer, ?_⟩
          rcases answer with e | _ | received
          · trivial
          · exact ih
          · simp only [Prog.bind]
            split
            · trivial
            · rename_i m hm
              split
              · trivial
              · rename_i receipt hreceipt
                exact fun _ => ⟨_, .remember hreceipt hm, trivial⟩

/-- Every method keeps to the protocol. -/
theorem duty_driver (op : BrokerOp) :
    (b.driver codec op).wp (Duty.protocol codec) (Duty.ofCall op) fun _ t => t = .idle := by
  cases op with
  | enqueue m => exact duty_enqueue m
  | ack id => exact duty_ack id
  | nack m => exact duty_nack m
  | deadLetter m => exact duty_deadLetter m
  | schedule m eta => exact duty_schedule m eta

end SqsBroker

theorem follows_heedless {α : Type} {codec : SqsCodec} {p : Prog requests α} {t : Duty}
    {Q : α → Duty → Prop} (h : p.wp (Duty.protocol codec) t Q) :
    (heedless p).Follows (Duty.protocol codec) t :=
  Prog.wp_seq h fun _ _ _ => trivial

/-! ## What an answer says -/

section Answers

variable {o : SqsOracle} {s s' : DelayState}

/-- A message comes with its body and its receipt, and it was lent. -/
theorem respond_received {url : String} {wait visibility : Int} {received : Received}
    (h : delayServer.respond o s (.receiveMessage url wait visibility) =
      some (.ok (some received), s')) :
    ∃ body receipt, received = ⟨some body, some receipt⟩ ∧
      .lend receipt (url, body) ∈ DelayState.deals s s' (.receiveMessage url wait visibility) := by
  obtain ⟨t, ht, rfl⟩ := delayServer_behind h (by simp) (by simp)
  rcases server_receive ht with ⟨e, hans, -, -⟩ | ⟨hans, -, rfl⟩
  · cases hans
  · rcases s.server.receive_cases url o.pick with heq | ⟨body, -, heq⟩
    · rw [heq] at hans
      cases hans
    · rw [heq] at hans
      cases hans
      refine ⟨body, _, rfl, ?_⟩
      rw [heq]
      simp [DelayState.deals, SqsState.take]

/-- The memory is asked for what it has. -/
theorem respond_claimed {id : TaskId} {r : Option (String × Receipt)}
    (h : delayServer.respond o s (.removeReceipt id) = some (r, s')) :
    r = s.server.receipts id := by
  cases h
  rfl

/-- What is remembered was remembered before, or it has just been put there. -/
theorem respond_receipts {op : SqsOp} {r : op.Res} (h : delayServer.respond o s op = some (r, s'))
    {id : TaskId} {e : String × Receipt} (he : s'.server.receipts id = some e) :
    s.server.receipts id = some e ∨ op = .insertReceipt id e.1 e.2 := by
  cases op with
  | utcNow =>
      cases h
      exact .inl he
  | sendMessage request =>
      refine .inl ?_
      rcases carried_state (Option.some.inj h) with rfl | rfl
      · exact he
      · unfold DelayState.send at he
        split at he <;> exact he
  | receiveMessage url wait visibility =>
      obtain ⟨t, ht, rfl⟩ := delayServer_behind h (by simp) (by simp)
      refine .inl ?_
      rcases carried_state (Option.some.inj ht) with rfl | rfl
      · exact he
      · rcases s.server.receive_cases url o.pick with heq | ⟨body, -, heq⟩ <;>
          rw [heq] at he <;> exact he
  | deleteMessage url receipt =>
      obtain ⟨t, ht, rfl⟩ := delayServer_behind h (by simp) (by simp)
      rcases carried_state (Option.some.inj ht) with rfl | rfl <;> exact .inl he
  | changeVisibility url receipt timeout =>
      obtain ⟨t, ht, rfl⟩ := delayServer_behind h (by simp) (by simp)
      refine .inl ?_
      rcases carried_state (Option.some.inj ht) with rfl | rfl
      · exact he
      · simp only [SqsState.changeVisibility] at he
        split at he
        · split at he <;> exact he
        · exact he
  | insertReceipt id' url receipt =>
      cases h
      simp only [Function.update_apply] at he
      split at he
      · rename_i hid
        cases he
        exact .inr (by rw [hid])
      · exact .inl he
  | removeReceipt id' =>
      cases h
      simp only [Function.update_apply] at he
      split at he
      · cases he
      · exact .inl he

end Answers

/-! ## Every run -/

section Runs

variable {ι : Type} {codec : SqsCodec} {ns : List Note} {s : FleetState ι}

/-- The texts that are held back or can be received. -/
def FleetState.waiting (s : FleetState ι) : Multiset Text := s.cloud.leases.free

/-- The texts in flight, under their receipts. -/
def FleetState.inFlight (s : FleetState ι) : Multiset (Receipt × Text) := s.cloud.leases.lent

/-- The receipt was issued for a text of the message with this identifier. -/
def Stands (codec : SqsCodec) (ns : List Note) (id : TaskId) (url : String) (receipt : Receipt) :
    Prop :=
  ∃ body m, .dealt (.lend receipt (url, body)) ∈ ns ∧ codec.decodeMessage body = .ok m ∧ m.id = id

theorem Stands.mono {id : TaskId} {url : String} {receipt : Receipt}
    (h : Stands codec ns id url receipt) (ms : List Note) :
    Stands codec (ns ++ ms) id url receipt := by
  obtain ⟨body, m, hlend, hm, hid⟩ := h
  exact ⟨body, m, List.mem_append.mpr (.inl hlend), hm, hid⟩

/-- What has been noted by the time a method has come this far. -/
def Duty.Shown (codec : SqsCodec) (ns : List Note) : Duty → Prop
  | .idle => True
  | .got url received => ∃ body receipt, received = ⟨some body, some receipt⟩ ∧
      .dealt (.lend receipt (url, body)) ∈ ns
  | .releasing id => .asked id ∈ ns
  | .released id url receipt => .asked id ∈ ns ∧ Stands codec ns id url receipt

theorem Duty.Shown.mono {t : Duty} (h : t.Shown codec ns) (ms : List Note) :
    t.Shown codec (ns ++ ms) := by
  cases t with
  | idle => trivial
  | got url received =>
      obtain ⟨body, receipt, heq, hlend⟩ := h
      exact ⟨body, receipt, heq, List.mem_append.mpr (.inl hlend)⟩
  | releasing id => exact List.mem_append.mpr (.inl h)
  | released id url receipt => exact ⟨List.mem_append.mpr (.inl h.1), h.2.mono ms⟩

/-- The texts are accounted for, every receipt that is remembered stands, and what was
deleted had been let go of. -/
structure Secured (codec : SqsCodec) (ns : List Note) (s : FleetState ι) : Prop where
  accounts : DelayState.Accounts (dealings ns) s.cloud
  remembered : ∀ i id url receipt, s.receipts i id = some (url, receipt) →
    Stands codec ns id url receipt
  settled : ∀ receipt x, .dealt (.settle receipt x) ∈ ns →
    ∃ m, codec.decodeMessage x.2 = .ok m ∧ .asked m.id ∈ ns

/-- Notes that say of no text that it was deleted. -/
theorem Secured.more (h : Secured codec ns s) {s' : FleetState ι} {ms : List Note}
    (haccounts : DelayState.Accounts (dealings (ns ++ ms)) s'.cloud)
    (hreceipts : s'.receipts = s.receipts)
    (hms : ∀ receipt x, .dealt (.settle receipt x) ∉ ms) : Secured codec (ns ++ ms) s' where
  accounts := haccounts
  remembered i id url receipt hr := (h.remembered i id url receipt (hreceipts ▸ hr)).mono ms
  settled receipt x hx := by
    rcases List.mem_append.mp hx with hx | hx
    · obtain ⟨m, hm, hasked⟩ := h.settled receipt x hx
      exact ⟨m, hm, List.mem_append.mpr (.inl hasked)⟩
    · exact absurd hx (hms receipt x)

/-- What is deleted with a receipt that stands is the message it stands for. -/
theorem Secured.deleted (h : Secured codec ns s) {id : TaskId} {url body : String}
    {receipt : Receipt} (hstands : Stands codec ns id url receipt)
    (hmem : (receipt, url, body) ∈ s.cloud.server.flight) :
    ∃ m, codec.decodeMessage body = .ok m ∧ m.id = id := by
  obtain ⟨body', m, hlend, hm, hid⟩ := hstands
  have hlent : .lend receipt (url, body) ∈ dealings ns :=
    h.accounts.run.lend_of_lent (Multiset.mem_coe.mpr hmem)
  have heq := h.accounts.run.lend_unique hlent (mem_dealings.mpr hlend)
  rw [Prod.mk.injEq] at heq
  exact ⟨m, heq.2 ▸ hm, hid⟩

variable [DecidableEq ι] {brokers : ι → SqsBroker}

/-- One request of a method. -/
theorem Secured.call (h : Secured codec ns s) {o : SqsOracle} {i : ι} {op : SqsOp} {r : op.Res}
    {s' : FleetState ι} {t t' : Duty} (hshown : t.Shown codec ns)
    (hrespond : (fleetServer ι).respond o s (i, op) = some (r, s'))
    (hstep : Duty.Step codec t op r t') :
    Secured codec (ns ++ (DelayState.deals s.cloud s'.cloud op).map .dealt) s' ∧
      t'.Shown codec (ns ++ (DelayState.deals s.cloud s'.cloud op).map .dealt) := by
  obtain ⟨⟨answer, u⟩, hu, heq⟩ := Option.map_eq_some_iff.mp hrespond
  obtain ⟨rfl, rfl⟩ := Prod.mk.inj heq
  have hseen : DelayState.Accounts (dealings ns) (s.seenBy i) := h.accounts
  have haccounts := hseen.respond hu
  refine ⟨⟨?_, ?_, ?_⟩, ?_⟩
  · rw [dealings_append, dealings_dealt]
    exact haccounts
  · intro j id url receipt hreceipt
    by_cases hj : j = i
    · subst hj
      have hreceipt' : u.server.receipts id = some (url, receipt) := by
        simpa [FleetState.leave] using hreceipt
      rcases respond_receipts hu hreceipt' with hbefore | rfl
      · exact (h.remembered j id url receipt hbefore).mono _
      · -- the only receipt a method puts there is that of what it has received
        cases hstep with
        | @remember _ got _ m hgot hm =>
            obtain ⟨body, receipt', rfl, hlend⟩ := hshown
            cases hgot
            exact ⟨body, m, List.mem_append.mpr (.inl hlend), hm, rfl⟩
    · refine (h.remembered j id url receipt ?_).mono _
      simpa [FleetState.leave, hj] using hreceipt
  · intro receipt x hx
    rcases List.mem_append.mp hx with hx | hx
    · obtain ⟨m, hm, hasked⟩ := h.settled receipt x hx
      exact ⟨m, hm, List.mem_append.mpr (.inl hasked)⟩
    · obtain ⟨d, hd, heq⟩ := List.mem_map.mp hx
      cases heq
      obtain ⟨url, rfl, rfl, hflight⟩ := DelayState.settle_of_deals hd
      cases hstep with
      | delete id =>
          obtain ⟨hasked, hstands⟩ := hshown
          obtain ⟨m, hm, rfl⟩ := h.deleted hstands hflight
          exact ⟨m, hm, List.mem_append.mpr (.inl hasked)⟩
  · cases hstep with
    | receive url wait visibility =>
        rcases answer with e | _ | received
        · trivial
        · trivial
        · obtain ⟨body, receipt, rfl, hlend⟩ := respond_received hu
          exact ⟨body, receipt, rfl,
            List.mem_append.mpr (.inr (List.mem_map.mpr ⟨_, hlend, rfl⟩))⟩
    | claim id =>
        have hanswer : answer = s.receipts i id := respond_claimed hu
        rcases answer with _ | ⟨url, receipt⟩
        · trivial
        · exact ⟨List.mem_append.mpr (.inl hshown),
            (h.remembered i id url receipt hanswer.symm).mono _⟩
    | _ => trivial

/-- A stimulus. -/
theorem Secured.env (h : Secured codec ns s) {x : FleetStimulus ι} {s' : FleetState ι}
    {new : List (Prog (tagged ι requests) Unit)}
    (haccept : (fleet brokers codec).accept x s = some (s', new)) :
    Secured codec (ns ++ @moves ι _ brokers codec s (.env x) s') s' := by
  have hsame : ∀ {t : DelayState}, t.leases = s.cloud.leases →
      t.server.issued = s.cloud.server.issued →
      DelayState.Accounts (dealings (ns ++ [])) t := by
    intro t hleases hissued
    rw [dealings_append]
    exact h.accounts.same hleases hissued
  have hnone : ∀ receipt x, Note.dealt (.settle receipt x) ∉ ([] : List Note) :=
    fun _ _ => List.not_mem_nil
  cases x with
  | tick nanos =>
      cases haccept
      exact h.more (hsame rfl rfl) rfl hnone
  | release k =>
      obtain ⟨t, ht, heq⟩ := Option.map_eq_some_iff.mp haccept
      cases heq
      obtain ⟨hleases, hissued⟩ := DelayState.leases_release ht
      exact h.more (hsame hleases hissued) rfl hnone
  | expire url receipt =>
      cases haccept
      refine h.more ?_ rfl fun receipt' x hmem => ?_
      · rw [dealings_append]
        simp only [moves, dealings_dealt]
        exact h.accounts.giveBack url receipt
      · obtain ⟨d, hd, heq⟩ := List.mem_map.mp hmem
        cases heq
        obtain ⟨e, -, heq⟩ := List.mem_map.mp hd
        cases heq
  | dequeue i queues timeoutSecs =>
      cases haccept
      exact h.more (hsame rfl rfl) rfl hnone
  | call i op =>
      cases haccept
      refine h.more ?_ rfl fun receipt' x hmem => ?_
      · rw [dealings_append]
        simp only [moves, dealings_asked]
        exact h.accounts.same rfl rfl
      · obtain ⟨id, -, heq⟩ := List.mem_map.mp hmem
        cases heq

/-- The methods that a stimulus starts keep to the protocol, from what it shows. -/
theorem fleet_entry {x : FleetStimulus ι} {s' : FleetState ι}
    {new : List (Prog (tagged ι requests) Unit)}
    (haccept : (fleet brokers codec).accept x s = some (s', new)) :
    ∃ stages : List Duty,
      List.Forall₂ (Prog.Follows ((Duty.protocol codec).ofAll ι)) new stages ∧
      ∀ t ∈ stages, t.Shown codec (ns ++ @moves ι _ brokers codec s (.env x) s') := by
  cases x with
  | tick nanos =>
      cases haccept
      exact ⟨[], .nil, fun t ht => (List.not_mem_nil ht).elim⟩
  | release k =>
      obtain ⟨t, -, heq⟩ := Option.map_eq_some_iff.mp haccept
      cases heq
      exact ⟨[], .nil, fun t ht => (List.not_mem_nil ht).elim⟩
  | expire url receipt =>
      cases haccept
      exact ⟨[], .nil, fun t ht => (List.not_mem_nil ht).elim⟩
  | dequeue i queues timeoutSecs =>
      cases haccept
      have hfollows : (heedless ((brokers i).dequeue codec queues timeoutSecs)).Follows
          (Duty.protocol codec) .idle :=
        follows_heedless (SqsBroker.duty_dequeueFrom _ queues)
      refine ⟨[.idle], .cons (hfollows.tag i) .nil, fun t ht => ?_⟩
      obtain rfl := List.mem_singleton.mp ht
      trivial
  | call i op =>
      cases haccept
      have hfollows : (heedless ((brokers i).driver codec op)).Follows (Duty.protocol codec)
          (.ofCall op) :=
        follows_heedless (SqsBroker.duty_driver op)
      refine ⟨[.ofCall op], .cons (hfollows.tag i) .nil, fun t ht => ?_⟩
      obtain rfl := List.mem_singleton.mp ht
      cases hgo : letsGo op with
      | none => simp [Duty.ofCall, hgo, Duty.Shown]
      | some id => simp [Duty.ofCall, hgo, Duty.Shown, moves]

/-- Custody.  In every run of any number of processes, whatever their methods are
called with, however requests are lost and timeouts end: every text that was sent waits, is
in flight or was deleted; whatever was received is in flight, was given back or was
deleted, under a receipt of its own; and what was deleted is of a message that somebody
called `ack` or `dead_letter` for. -/
theorem texts_accounted {now : DateTime} {c : (fleet brokers codec).Config}
    (h : Machine.Observed moves ⟨FleetState.fresh now, []⟩ ns c) :
    sent ns = FleetState.waiting c.state + (FleetState.inFlight c.state).map Prod.snd +
      (deleted ns).map Prod.snd ∧
    received ns = FleetState.inFlight c.state + returned ns + deleted ns ∧
    ((received ns).map Prod.fst).Nodup ∧
    ∀ e ∈ deleted ns, ∃ m, codec.decodeMessage e.2.2 = .ok m ∧ .asked m.id ∈ ns := by
  have hstart : Secured codec [] (FleetState.fresh now : FleetState ι) := by
    refine ⟨⟨.start, fun receipt x hx => (List.not_mem_nil hx).elim⟩, fun i id url receipt hr => ?_,
      fun receipt x hx => (List.not_mem_nil hx).elim⟩
    cases hr
  have hsecured : Secured codec ns c.state := by
    refine (h.promises (P := (Duty.protocol codec).ofAll ι) (J := Secured codec)
      (G := fun ns t => Duty.Shown codec ns t) (fun ns ms t ht => Duty.Shown.mono ht ms) ?_ ?_ rfl
      hstart).1
    · exact fun ns x s s' new hs haccept => ⟨hs.env haccept, fleet_entry haccept⟩
    · intro ns o s op r s' t t' hs ht hrespond hstep
      exact hs.call ht hrespond hstep
  have hrun := hsecured.accounts.run
  refine ⟨hrun.put_eq, hrun.lent_eq, hrun.receipts_nodup, fun e he => ?_⟩
  exact hsecured.settled e.1 e.2 (mem_dealings.mp (Dealing.mem_settled.mp he))

end Runs

/-! ## A text that is received twice -/

/-- Two processes and one queue. -/
abbrev twoProcesses : Machine (tagged Bool requests) :=
  fleet (fun _ => SqsBroker.oneQueue none) SqsBroker.oneRetryCodec

/-- The text of the message. -/
def oneRetryText : Text := ("http://sqs/q", oneRetry.encode SqsBroker.oneRetryCodec.rfc3339)

/-- The second process receives the message and is slow; when the timeout is over, the
first one receives it as well.  Then both acknowledge it. -/
def slowReceiver : List twoProcesses.Move :=
  let turn (k : Nat) : twoProcesses.Move := .run k SqsBroker.prompt
  [.env (.call false (.enqueue oneRetry)), turn 0, .env (.release 0),
    .env (.dequeue true ["q"] 1), turn 1, turn 1, .env (.expire "http://sqs/q" 0),
    .env (.dequeue false ["q"] 1), turn 2, turn 2,
    .env (.call true (.ack oneRetry.id)), turn 3, turn 3,
    .env (.call false (.ack oneRetry.id)), turn 4, turn 4]

theorem slowReceiver_notes :
    (Machine.Config.notesOf (M := twoProcesses) moves ⟨FleetState.fresh ⟨0⟩, []⟩
      slowReceiver).isSome = true := by
  decide +kernel

/-- The receipt of the slow process deletes nothing; the text goes with the other one. -/
theorem texts_accounted_slowReceiver : ∃ (ns : List Note) (c : twoProcesses.Config),
    returned ns = {(0, oneRetryText)} ∧ deleted ns = {(1, oneRetryText)} ∧
    received ns = FleetState.inFlight c.state + returned ns + deleted ns ∧
    sent ns = FleetState.waiting c.state + (FleetState.inFlight c.state).map Prod.snd +
      (deleted ns).map Prod.snd := by
  have hobserved := Machine.Config.observed_of_get slowReceiver_notes
  obtain ⟨hsent, hreceived, -, -⟩ := texts_accounted hobserved
  have hnotes : dealings ((Machine.Config.notesOf (M := twoProcesses) moves
      ⟨FleetState.fresh ⟨0⟩, []⟩ slowReceiver).get slowReceiver_notes).1 =
      [.put oneRetryText, .lend 0 oneRetryText, .giveBack 0 oneRetryText,
        .lend 1 oneRetryText, .settle 1 oneRetryText] := by
    decide +kernel
  refine ⟨_, _, ?_, ?_, hreceived, hsent⟩
  · rw [returned, hnotes]
    rfl
  · rw [deleted, hnotes]
    rfl

end Kojin.Sqs
