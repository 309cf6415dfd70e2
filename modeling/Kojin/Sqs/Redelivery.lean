/-
  Sqs/Redelivery.lean --- how often a failing message is executed over SQS
  (`kojin-sqs`: `SqsBroker::nack`).

  `nack` makes the text in flight visible again.  The copy the worker has counted
  a retry in is not sent, so the message comes back as it was enqueued.
-/
import Kojin.Core.Redelivery
import Kojin.Core.MemoryResultBackend
import Kojin.Sqs.DeadLetter

set_option autoImplicit false

namespace Kojin.Sqs

open Kojin.Foundation Kojin.Core

/-- The JSON library reads the text of this message as the message. -/
def SqsCodec.Legible (codec : SqsCodec) (m : TaskMessage) : Prop :=
  codec.decodeMessage (m.encode codec.rfc3339) = .ok m

namespace SqsBroker

variable (b : SqsBroker) (codec : SqsCodec)

/-- Workers over SQS: an arrival is a call of `dequeue` with the answers it gets. -/
def carrier : Carrier where
  broker := wholeMethods (b.driver codec) server
  Arrival := List SqsOracle × List String × Int
  arrive a s := (server.run a.1 (b.dequeue codec a.2.1 a.2.2) s).map fun p =>
    (p.2.2, match p.2.1 with
      | .ok m => m
      | .error _ => none)

/-- A text of a queue that workers poll, as the message it is. -/
def readable (e : String × String) : Option TaskMessage :=
  if e.1 ∈ b.config.queueUrls then (codec.decodeMessage e.2).toOption else none

/-- The receipts are in order: a remembered one was issued, and it is that of a text
of the same message; what is in flight comes from a queue that workers poll. -/
structure InOrder (s : SqsState) : Prop where
  issued : ∀ id url receipt, s.receipts id = some (url, receipt) → receipt < s.issued
  own : ∀ id url receipt text x, s.receipts id = some (url, receipt) →
    (receipt, url, text) ∈ s.flight → codec.decodeMessage text = .ok x → x.id = id
  polled : ∀ e ∈ s.flight, e.2.1 ∈ b.config.queueUrls

/-- The messages the server may hand out are the readable texts; it also has those in
flight.  What is sent to the dead-letter queue does not come back. -/
def stock : Stock SqsState where
  good := b.InOrder codec
  ready s := Multiset.ofList (s.visible.filterMap (b.readable codec))
  kept s x := (∃ e ∈ s.visible, b.readable codec e = some x) ∨
    ∃ e ∈ s.flight, codec.decodeMessage e.2.2 = .ok x
  dead _ _ := False

end SqsBroker

/-- A receive finds nothing, or a visible text of the queue. -/
theorem SqsState.receive_cases (s : SqsState) (url : String) (pick : Nat) :
    s.receive url pick = (none, s) ∨
      ∃ body, s.visible[pick]? = some (url, body) ∧
        s.receive url pick = (some ⟨some body, some s.issued⟩, s.take pick url body) := by
  unfold SqsState.receive
  split
  · rename_i url' body hpick
    split
    · rename_i heq
      subst heq
      exact .inr ⟨body, hpick, rfl⟩
    · exact .inl rfl
  · exact .inl rfl

namespace SqsBroker

/-! ## What a request moves -/

variable {b : SqsBroker} {codec : SqsCodec} {s s' : SqsState} {m : TaskMessage} {url : String} {receipt : Receipt}

theorem readable_eq_some {e : String × String} {x : TaskMessage} :
    b.readable codec e = some x ↔
      e.1 ∈ b.config.queueUrls ∧ codec.decodeMessage e.2 = .ok x := by
  unfold readable
  cases codec.decodeMessage e.2 <;> simp [Except.toOption]

/-- A text that is sent, readable or not. -/
theorem moves_send {request : SendRequest} {duplicate : Bool} {more : Multiset TaskMessage}
    (h : (b.stock codec).good s)
    (hmore : ∀ x, b.readable codec (request.queueUrl, request.body) = some x → more = {x}) :
    (b.stock codec).Moves s (s.send request duplicate) more none := by
  unfold SqsState.send
  split
  · have hrefl := Stock.Moves.refl h
    exact ⟨hrefl.good, hrefl.ready.trans (add_le_add_right (Multiset.zero_le more) _),
      fun x hx => .inl hx, fun x hx => .inl hx⟩
  · constructor
    · exact ⟨h.issued, h.own, h.polled⟩
    · simp only [stock, List.filterMap_append, List.filterMap_cons, List.filterMap_nil]
      cases hread : b.readable codec (request.queueUrl, request.body) with
      | none =>
          rw [List.append_nil]
          exact Multiset.le_add_right _ more
      | some x =>
          rw [hmore x hread]
          exact (Multiset.coe_add _ [x]).ge
    · intro x hx
      rcases hx with ⟨e, he, hread⟩ | hflight
      · rcases List.mem_append.mp he with he | he
        · exact .inl (.inl ⟨e, he, hread⟩)
        · obtain rfl := List.mem_singleton.mp he
          simp [hmore x hread]
      · exact .inl (.inr hflight)
    · exact fun x hx => .inl hx

/-- A text in flight that is deleted. -/
theorem moves_delete (h : (b.stock codec).good s) :
    (b.stock codec).Moves s (s.delete url receipt) 0 none := by
  have hsub : ∀ e ∈ (s.delete url receipt).flight, e ∈ s.flight :=
    fun e he => List.eraseP_sublist.subset he
  constructor
  · constructor
    · exact h.issued
    · exact fun id url receipt text x hid he => h.own id url receipt text x hid (hsub _ he)
    · exact fun e he => h.polled e (hsub e he)
  · simp [stock, SqsState.delete]
  · intro x hx
    rcases hx with hvisible | ⟨e, he, hx⟩
    · exact .inl (.inl hvisible)
    · exact .inl (.inr ⟨e, hsub e he, hx⟩)
  · exact fun x hx => .inl hx

/-- A receipt that is forgotten. -/
theorem moves_forget {id : TaskId} (h : (b.stock codec).good s) :
    (b.stock codec).Moves s { s with receipts := Function.update s.receipts id none } 0 none := by
  have hbefore : ∀ id' url receipt,
      Function.update s.receipts id none id' = some (url, receipt) →
        s.receipts id' = some (url, receipt) := by
    intro id' url receipt hreceipt
    by_cases hid : id' = id
    · simp [hid] at hreceipt
    · simpa [hid] using hreceipt
  have hrefl := Stock.Moves.refl h
  constructor
  · constructor
    · exact fun id' url receipt hr => h.issued id' url receipt (hbefore id' url receipt hr)
    · exact fun id' url receipt text x hr =>
        h.own id' url receipt text x (hbefore id' url receipt hr)
    · exact h.polled
  · exact hrefl.ready
  · exact hrefl.kept
  · exact hrefl.dead

/-- A text in flight that becomes visible again. -/
theorem moves_visibility {timeout : Int} (h : (b.stock codec).good s) {id : TaskId}
    (hown : ∀ text x, (receipt, url, text) ∈ s.flight → codec.decodeMessage text = .ok x →
      x.id = id) :
    ∃ more, more.card ≤ 1 ∧ (∀ x ∈ more, (b.stock codec).kept s x ∧ x.id = id) ∧
      (b.stock codec).Moves s (s.changeVisibility url receipt timeout) more none := by
  unfold SqsState.changeVisibility
  split
  · rename_i e hfind
    have hmem := List.mem_of_find?_eq_some hfind
    split
    · obtain ⟨r, url', text⟩ := e
      have hat := List.find?_some hfind
      simp only [SqsState.isAt, Bool.and_eq_true, decide_eq_true_eq] at hat
      obtain ⟨rfl, rfl⟩ := hat
      have hdelete : (b.stock codec).Moves s (s.delete url' r) 0 none := moves_delete h
      refine ⟨(b.readable codec (url', text)).elim 0 fun x => {x}, ?_, ?_, ?_⟩
      · cases b.readable codec (url', text) <;> simp
      · intro x hx
        cases hread : b.readable codec (url', text) with
        | none => simp [hread] at hx
        | some y =>
            obtain rfl : x = y := by simpa [hread] using hx
            have hdecode := (readable_eq_some.mp hread).2
            exact ⟨.inr ⟨_, hmem, hdecode⟩, hown text x hmem hdecode⟩
      · have hsend : (b.stock codec).Moves (s.delete url' r)
            ((s.delete url' r).send ⟨url', text, none, none, none⟩ false)
            ((b.readable codec (url', text)).elim 0 fun x => {x}) none :=
          moves_send hdelete.good (by intro x hx; simp [hx])
        exact hdelete.trans hsend
    · exact ⟨0, by simp, by simp, .refl h⟩
  · exact ⟨0, by simp, by simp, .refl h⟩

/-- A message that is received: its text was readable, and its receipt is
remembered. -/
theorem moves_take {pick : Nat} {body : String} (h : (b.stock codec).good s)
    (hurl : url ∈ b.config.queueUrls) (hpick : s.visible[pick]? = some (url, body)) :
    (b.stock codec).Moves s (s.take pick url body) 0 none ∧
      ∀ x, codec.decodeMessage body = .ok x →
        (b.stock codec).ready (s.take pick url body) + {x} ≤ (b.stock codec).ready s ∧
          (b.stock codec).kept s x := by
  obtain ⟨hlt, hget⟩ := List.getElem?_eq_some_iff.mp hpick
  have hvisible : (url, body) ∈ s.visible := List.mem_of_getElem? hpick
  have hold : ∀ id url' receipt', s.receipts id = some (url', receipt') → ∀ text,
      (receipt', url', text) ∈ (s.take pick url body).flight →
        (receipt', url', text) ∈ s.flight := by
    intro id url' receipt' hreceipt text hmem
    rcases List.mem_append.mp hmem with hmem | hmem
    · exact hmem
    · have heq := List.mem_singleton.mp hmem
      have hlt := h.issued id url' receipt' hreceipt
      rw [Prod.mk.injEq] at heq
      exact absurd heq.1 (Nat.ne_of_lt hlt)
  have hready : ∀ x, codec.decodeMessage body = .ok x →
      (b.stock codec).ready (s.take pick url body) + {x} ≤ (b.stock codec).ready s := by
    intro x hx
    have hread : b.readable codec (url, body) = some x := readable_eq_some.mpr ⟨hurl, hx⟩
    have hperm : (s.visible.eraseIdx pick ++ [(url, body)]).Perm s.visible := by
      rw [← hget]
      exact (List.perm_append_comm).trans (List.getElem_cons_eraseIdx_perm hlt)
    have hmap := hperm.filterMap (b.readable codec)
    rw [List.filterMap_append, List.filterMap_cons, hread] at hmap
    exact (Multiset.coe_eq_coe.mpr hmap).le
  refine ⟨?_, fun x hx => ⟨hready x hx, .inl ⟨_, hvisible, readable_eq_some.mpr ⟨hurl, hx⟩⟩⟩⟩
  constructor
  · constructor
    · exact fun id url' receipt' hr => Nat.lt_succ_of_lt (h.issued id url' receipt' hr)
    · exact fun id url' receipt' text x hr hmem =>
        h.own id url' receipt' text x hr (hold id url' receipt' hr text hmem)
    · intro e he
      rcases List.mem_append.mp he with he | he
      · exact h.polled e he
      · obtain rfl := List.mem_singleton.mp he
        exact hurl
  · have hsub := (List.eraseIdx_sublist s.visible pick).filterMap (b.readable codec)
    simpa [stock, SqsState.take] using hsub.subperm
  · intro x hx
    rcases hx with ⟨e, he, hread⟩ | ⟨e, he, hdecode⟩
    · exact .inl (.inl ⟨e, (List.eraseIdx_sublist _ _).subset he, hread⟩)
    · rcases List.mem_append.mp he with he | he
      · exact .inl (.inr ⟨e, he, hdecode⟩)
      · obtain rfl := List.mem_singleton.mp he
        exact .inl (.inl ⟨_, hvisible, readable_eq_some.mpr ⟨hurl, hdecode⟩⟩)
  · exact fun x hx => .inl hx

/-- The receipt of the message just received is remembered. -/
theorem moves_remember {pick : Nat} {body : String}
    (h : (b.stock codec).good (s.take pick url body)) (hm : codec.decodeMessage body = .ok m) :
    (b.stock codec).Moves (s.take pick url body)
      { s.take pick url body with
        receipts := Function.update s.receipts m.id (some (url, s.issued)) } 0 none := by
  have hrefl := Stock.Moves.refl h
  constructor
  · constructor
    · intro id url' receipt' hreceipt
      by_cases hid : id = m.id
      · obtain ⟨-, rfl⟩ : url = url' ∧ s.issued = receipt' := by simpa [hid] using hreceipt
        exact Nat.lt_succ_self _
      · exact h.issued id url' receipt' (by simpa [hid, SqsState.take] using hreceipt)
    · intro id url' receipt' text x hreceipt hmem hdecode
      by_cases hid : id = m.id
      · obtain ⟨rfl, rfl⟩ : url = url' ∧ s.issued = receipt' := by simpa [hid] using hreceipt
        have hnew : (s.issued, url, body) ∈ (s.take pick url body).flight :=
          List.mem_append.mpr (.inr (List.mem_singleton.mpr rfl))
        obtain rfl : text = body := by
          have heq := SqsState.eq_of_receipt hmem hnew rfl
          simpa using heq
        rw [hm] at hdecode
        cases hdecode
        exact hid.symm
      · refine h.own id url' receipt' text x ?_ hmem hdecode
        simpa [hid, SqsState.take] using hreceipt
    · exact h.polled
  · exact hrefl.ready
  · exact hrefl.kept
  · exact hrefl.dead

/-! ## What a method moves -/

variable {os : List SqsOracle} {tr : List (Event requests)}

theorem resolveQueueUrl_mem {queue : String} (h : b.resolveQueueUrl queue = some url) :
    url ∈ b.config.queueUrls := by
  unfold resolveQueueUrl at h
  split at h
  · rename_i e hfind
    cases h
    exact b.names e (List.mem_of_find?_eq_some hfind)
  · split at h
    · rename_i hmem
      cases h
      exact hmem
    · cases h

/-- A request that ends a call does not arrive, or the text is sent. -/
theorem run_last {request : SendRequest} {out : TaskResult Unit}
    (h : server.run os (sendLast request) s = some (tr, out, s')) :
    s' = s ∨ ∃ duplicate, s' = s.send request duplicate := by
  obtain ⟨o, rest, ans, s₁, tail, rfl, hrespond, rfl, hrun⟩ := Service.run_call_iff.mp h
  obtain ⟨-, -, rfl⟩ := Service.run_ret_iff.mp hrun
  rcases server_send hrespond with ⟨e, -, -, ⟨-, rfl⟩ | ⟨-, rfl⟩⟩ | ⟨-, -, rfl⟩
  · exact .inl rfl
  · exact .inr ⟨_, rfl⟩
  · exact .inr ⟨_, rfl⟩

/-- A legible message that is sent can be handed out. -/
theorem moves_last {dedupId : String} {delay : Option Int} {out : TaskResult Unit}
    (h : (b.stock codec).good s) (hm : codec.Legible m)
    (hrun : server.run os (sendLast (request codec m url dedupId delay)) s =
      some (tr, out, s')) :
    (b.stock codec).Moves s s' {m} none := by
  rcases run_last hrun with rfl | ⟨duplicate, rfl⟩
  · have hrefl := Stock.Moves.refl h
    exact ⟨hrefl.good, hrefl.ready.trans (add_le_add_right (Multiset.zero_le _) _),
      fun x hx => .inl hx, fun x hx => .inl hx⟩
  · refine moves_send h fun x hx => ?_
    have hdecode := (readable_eq_some.mp hx).2
    rw [request, show codec.decodeMessage (m.encode codec.rfc3339) = .ok m from hm] at hdecode
    cases hdecode
    rfl

/-- A message that cannot be handed out moves nothing. -/
theorem moves_buried {dedupId : String} {out : TaskResult Unit} (h : (b.stock codec).good s)
    (hurl : url ∉ b.config.queueUrls)
    (hrun : server.run os (sendLast (request codec m url dedupId none)) s =
      some (tr, out, s')) :
    (b.stock codec).Moves s s' 0 none := by
  rcases run_last hrun with rfl | ⟨duplicate, rfl⟩
  · exact .refl h
  · exact moves_send h fun x hx => absurd (readable_eq_some.mp hx).1 hurl

theorem moves_enqueue {out : TaskResult Unit} (h : (b.stock codec).good s)
    (hm : codec.Legible m)
    (hrun : server.run os (b.enqueue codec m) s = some (tr, out, s')) :
    (b.stock codec).Moves s s' {m} none := by
  unfold enqueue at hrun
  split at hrun
  · obtain ⟨-, -, rfl⟩ := Service.run_ret_iff.mp hrun
    have hrefl := Stock.Moves.refl h
    exact ⟨hrefl.good, hrefl.ready.trans (add_le_add_right (Multiset.zero_le _) _),
      fun x hx => .inl hx, fun x hx => .inl hx⟩
  · split at hrun
    · exact moves_last h hm hrun
    · obtain ⟨o, rest, now, s₁, tail, rfl, hnow, rfl, hlast⟩ := Service.run_call_iff.mp hrun
      cases hnow
      exact moves_last h hm hlast

theorem moves_schedule {eta : DateTime} {out : TaskResult Unit} (h : (b.stock codec).good s)
    (hm : codec.Legible m) (heta : m.eta = some eta)
    (hrun : server.run os (b.schedule codec m eta) s = some (tr, out, s')) :
    (b.stock codec).Moves s s' {m} none := by
  obtain ⟨o, rest, now, s₁, tail, rfl, hnow, rfl, hrest⟩ := Service.run_call_iff.mp hrun
  cases hnow
  have hsame : { m with eta := some eta } = m := by
    cases m
    cases heta
    rfl
  simp only [Prog.bind, hsame, ite_self] at hrest
  split at hrest
  · obtain ⟨-, -, rfl⟩ := Service.run_ret_iff.mp hrest
    have hrefl := Stock.Moves.refl h
    exact ⟨hrefl.good, hrefl.ready.trans (add_le_add_right (Multiset.zero_le _) _),
      fun x hx => .inl hx, fun x hx => .inl hx⟩
  · exact moves_last h hm hrest

theorem moves_ack {id : TaskId} {out : TaskResult Unit} (h : (b.stock codec).good s)
    (hrun : server.run os (ack id) s = some (tr, out, s')) :
    (b.stock codec).Moves s s' 0 none := by
  obtain ⟨o, rest, known, s₁, tail, rfl, hremove, rfl, hrest⟩ := Service.run_call_iff.mp hrun
  cases hremove
  have hforget : (b.stock codec).Moves s
      { s with receipts := Function.update s.receipts id none } 0 none := moves_forget h
  cases hreceipt : s.receipts id with
  | none =>
      rw [hreceipt] at hrest
      obtain ⟨-, -, rfl⟩ := Service.run_ret_iff.mp hrest
      exact hforget
  | some known =>
      rw [hreceipt] at hrest
      obtain ⟨o₁, rest₁, ans, s₂, tail₁, rfl, hdelete, rfl, hret⟩ :=
        Service.run_call_iff.mp hrest
      obtain ⟨-, -, rfl⟩ := Service.run_ret_iff.mp hret
      rcases server_delete hdelete with ⟨e, -, -, ⟨-, rfl⟩ | ⟨-, rfl⟩⟩ | ⟨-, -, rfl⟩
      · exact hforget
      · exact hforget.trans (moves_delete hforget.good)
      · exact hforget.trans (moves_delete hforget.good)

theorem moves_deadLetter {out : TaskResult Unit} (h : (b.stock codec).good s)
    (hsep : ∀ url, b.config.dlqUrl = some url → url ∉ b.config.queueUrls)
    (hrun : server.run os (b.deadLetter codec m) s = some (tr, out, s')) :
    (b.stock codec).Moves s s' 0 none := by
  obtain ⟨tr₁, tr₂, acked, s₁, rfl, hack, hrest⟩ := Service.run_bind hrun
  have hmoves := moves_ack h hack
  cases acked with
  | error e =>
      obtain ⟨-, -, rfl⟩ := Service.run_ret_iff.mp hrest
      exact hmoves
  | ok _ =>
      cases hdlq : b.config.dlqUrl with
      | none =>
          rw [hdlq] at hrest
          obtain ⟨-, -, rfl⟩ := Service.run_ret_iff.mp hrest
          exact hmoves
      | some url =>
          rw [hdlq] at hrest
          exact hmoves.trans (moves_buried hmoves.good (hsep url hdlq) hrest)

theorem moves_nack {out : TaskResult Unit} (h : (b.stock codec).good s)
    (hrun : server.run os (nack m) s = some (tr, out, s')) :
    ∃ more, more.card ≤ 1 ∧ (∀ x ∈ more, (b.stock codec).kept s x ∧ x.id = m.id) ∧
      (b.stock codec).Moves s s' more none := by
  obtain ⟨o, rest, known, s₁, tail, rfl, hremove, rfl, hrest⟩ := Service.run_call_iff.mp hrun
  cases hremove
  have hforget : (b.stock codec).Moves s
      { s with receipts := Function.update s.receipts m.id none } 0 none := moves_forget h
  cases hreceipt : s.receipts m.id with
  | none =>
      rw [hreceipt] at hrest
      obtain ⟨-, -, rfl⟩ := Service.run_ret_iff.mp hrest
      exact ⟨0, by simp, by simp, hforget⟩
  | some known =>
      rw [hreceipt] at hrest
      obtain ⟨o₁, rest₁, ans, s₂, tail₁, rfl, hchange, rfl, hret⟩ :=
        Service.run_call_iff.mp hrest
      obtain ⟨-, -, rfl⟩ := Service.run_ret_iff.mp hret
      obtain ⟨more, hcard, hmore, hmoves⟩ := moves_visibility hforget.good
        fun text x => h.own m.id known.1 known.2 text x hreceipt
      rcases server_visibility hchange with ⟨e, -, -, ⟨-, rfl⟩ | ⟨-, rfl⟩⟩ | ⟨-, -, rfl⟩
      · exact ⟨0, by simp, by simp, hforget⟩
      · exact ⟨more, hcard, hmore, hforget.trans hmoves⟩
      · exact ⟨more, hcard, hmore, hforget.trans hmoves⟩

/-- What a call of `dequeue` moves: the message it returns is no longer there to be
handed out. -/
theorem moves_dequeueFrom {wait : Int} {queues : List String}
    {out : TaskResult (Option TaskMessage)} (h : (b.stock codec).good s)
    (hrun : server.run os (b.dequeueFrom codec wait queues) s = some (tr, out, s')) :
    (b.stock codec).Moves s s' 0 none ∧
      ∀ x, out = .ok (some x) →
        (b.stock codec).ready s' + {x} ≤ (b.stock codec).ready s ∧ (b.stock codec).kept s x := by
  induction queues generalizing os tr with
  | nil =>
      obtain ⟨-, rfl, rfl⟩ := Service.run_ret_iff.mp hrun
      exact ⟨.refl h, fun x hx => nomatch hx⟩
  | cons queue queues ih =>
      unfold dequeueFrom at hrun
      split at hrun
      · exact ih hrun
      · rename_i url hurl
        obtain ⟨o, rest, ans, s₁, tail, rfl, hreceive, rfl, hrest⟩ :=
          Service.run_call_iff.mp hrun
        rcases server_receive hreceive with ⟨e, rfl, -, ⟨-, rfl⟩ | ⟨-, rfl⟩⟩ | ⟨rfl, -, rfl⟩
        · obtain ⟨-, rfl, rfl⟩ := Service.run_ret_iff.mp hrest
          exact ⟨.refl h, fun x hx => nomatch hx⟩
        · -- the text is in flight, and nobody has it
          obtain ⟨-, rfl, rfl⟩ := Service.run_ret_iff.mp hrest
          refine ⟨?_, fun x hx => nomatch hx⟩
          rcases SqsState.receive_cases s url o.pick with hnone | ⟨body, hpick, hsome⟩
          · rw [hnone]
            exact .refl h
          · rw [hsome]
            exact (moves_take h (resolveQueueUrl_mem hurl) hpick).1
        · rcases SqsState.receive_cases s url o.pick with hnone | ⟨body, hpick, hsome⟩
          · rw [hnone] at hrest
            exact ih hrest
          · rw [hsome] at hrest
            obtain ⟨htake, hgain⟩ := moves_take h (resolveQueueUrl_mem hurl) hpick
            cases hdecode : codec.decodeMessage body with
            | error e =>
                simp only [Prog.bind, Option.getD_some, hdecode] at hrest
                obtain ⟨-, rfl, rfl⟩ := Service.run_ret_iff.mp hrest
                exact ⟨htake, fun x hx => nomatch hx⟩
            | ok x =>
                simp only [Prog.bind, Option.getD_some, hdecode] at hrest
                obtain ⟨o₁, rest₁, ans, s₂, tail₁, rfl, hinsert, rfl, hret⟩ :=
                  Service.run_call_iff.mp hrest
                cases hinsert
                obtain ⟨-, rfl, rfl⟩ := Service.run_ret_iff.mp hret
                refine ⟨htake.trans (moves_remember htake.good hdecode), ?_⟩
                intro y hy
                cases hy
                exact hgain x hdecode

/-- SQS delivers the text it has kept: over this broker a message that is given
back comes as it was enqueued. -/
theorem redelivers (hsep : ∀ url, b.config.dlqUrl = some url → url ∉ b.config.queueUrls) :
    (b.carrier codec).Redelivers (b.stock codec) codec.Legible := by
  have hrun : ∀ {os : List SqsOracle} {s s' : SqsState} {op : BrokerOp} {r : TaskResult Unit},
      (b.carrier codec).broker.respond os s op = some (r, s') →
        ∃ tr, server.run os (b.driver codec op) s = some (tr, r, s') := by
    intro os s s' op r h
    obtain ⟨⟨tr, r', s''⟩, hrun, heq⟩ := Option.map_eq_some_iff.mp h
    cases heq
    exact ⟨tr, hrun⟩
  constructor
  · intro o s m r s' hgood hm h
    obtain ⟨tr, h⟩ := hrun h
    exact moves_enqueue hgood hm h
  · intro o s m eta r s' hgood hm heta h
    obtain ⟨tr, h⟩ := hrun h
    exact moves_schedule hgood hm heta h
  · intro o s id r s' hgood h
    obtain ⟨tr, h⟩ := hrun h
    exact moves_ack hgood h
  · intro o s m r s' hgood h
    obtain ⟨tr, h⟩ := hrun h
    have hmoves := moves_deadLetter hgood hsep h
    exact ⟨hmoves.good, hmoves.ready, hmoves.kept, fun x hx => hx.elim⟩
  · intro o s m r s' hgood h
    obtain ⟨tr, h⟩ := hrun h
    exact moves_nack hgood h
  · intro a s s' m hgood h
    obtain ⟨⟨tr, out, s''⟩, hdequeue, heq⟩ := Option.map_eq_some_iff.mp h
    obtain ⟨rfl, rfl⟩ := Prod.mk.inj heq
    obtain ⟨hmoves, hgain⟩ := moves_dequeueFrom hgood hdequeue
    refine ⟨hmoves, ?_⟩
    match out, hgain with
    | .error e, _ => simpa using hmoves.ready
    | .ok none, _ => simpa using hmoves.ready
    | .ok (some x), hgain =>
        obtain ⟨hready, hkept⟩ := hgain x rfl
        refine ⟨hready, fun y hy => ?_⟩
        obtain rfl : y = x := by simpa using hy
        exact hkept

/-! ## Every run -/

section Runs

variable {S : Service resultBackendTrait} {workerCodec : Codec} {backends : S.State}
  {history : List (deployment (b.carrier codec) S workerCodec).Label}
  {c : (deployment (b.carrier codec) S workerCodec).Config} {m₀ : TaskMessage}

/-- The handler has not been invoked more often than the retries allow. -/
def Bounded (m₀ : TaskMessage)
    (history : List (deployment (b.carrier codec) S workerCodec).Label) : Prop :=
  calls (invocationOf m₀.id) history ≤ m₀.maxRetries.toNat + 1

/-- After that many failures the message has been sent to the dead-letter queue. -/
def GivenUp (m₀ : TaskMessage)
    (history : List (deployment (b.carrier codec) S workerCodec).Label) : Prop :=
  m₀.maxRetries.toNat + 1 ≤ calls (failureOf m₀.id) history →
    0 < calls (burialOf m₀.id) history

/-- When retries are bounded over SQS.  A message is enqueued once, with no
retries, and not into a queue of workers when it is dead-lettered.  In every run in
which it may not be retried at all, or fails no more often than it may be retried,
its handler is invoked at most once more than it may be retried, and when all
executions have returned it has been given up if it failed that often.  In every
other run that comes to rest it was not. -/
theorem sqs_retries_bounded
    (hsep : ∀ url, b.config.dlqUrl = some url → url ∉ b.config.queueUrls)
    (h : (deployment (b.carrier codec) S workerCodec).Reach ⟨(SqsState.empty, backends), []⟩
      history c)
    (hlegible : ∀ l ∈ history, ∀ m, sentBy l = some m → codec.Legible m)
    (honce : enqueued m₀.id history = [m₀]) (hfresh : m₀.retries = 0) :
    (m₀.maxRetries = 0 ∨ calls (failureOf m₀.id) history ≤ m₀.maxRetries.toNat →
        Bounded m₀ history) ∧
      (AtRest c.threads → (Bounded m₀ history ∧ GivenUp m₀ history ↔
        m₀.maxRetries = 0 ∨ calls (failureOf m₀.id) history ≤ m₀.maxRetries.toNat)) := by
  have hempty : (b.stock codec).Empty SqsState.empty := by
    constructor
    · constructor
      · exact fun id url receipt hr => nomatch hr
      · exact fun id url receipt text x hr => nomatch hr
      · exact fun e he => nomatch he
    · rintro x (⟨e, he, -⟩ | ⟨e, he, -⟩)
      · cases he
      · cases he
    · rfl
    · exact fun x hx => hx
  obtain ⟨stages, hbalance, hall⟩ :=
    account_of_reach (redelivers hsep) hempty h hlegible m₀.id
  obtain ⟨hhandled, hrounds⟩ := hbalance.once honce
  obtain ⟨hburied, hnacked⟩ := hbalance.settled honce
  rw [retry_of_fresh hfresh] at hburied hnacked
  have hfailed := hbalance.failed
  have hbound : m₀.maxRetries = 0 ∨ calls (failureOf m₀.id) history ≤ m₀.maxRetries.toNat →
      Bounded m₀ history := by
    unfold Bounded
    rintro (hzero | hle)
    · have hnone := hnacked fun hne => hne hzero
      omega
    · omega
  refine ⟨hbound, fun hrest => ?_⟩
  have hsettled := holding_of_atRest (i := m₀.id) hall hrest
  constructor
  · rintro ⟨-, hgiven⟩
    by_cases hzero : m₀.maxRetries = 0
    · exact .inl hzero
    · have hnone := hburied hzero
      refine .inr (Nat.le_of_not_lt fun hlt => ?_)
      have hpos := hgiven hlt
      omega
  · intro hcond
    refine ⟨hbound hcond, fun hlt => ?_⟩
    rcases hcond with hzero | hle
    · have hnone := hnacked fun hne => hne hzero
      omega
    · omega

end Runs

/-! ## A message with one retry -/

/-- A codec that reads this message. -/
def oneRetryCodec : SqsCodec := ⟨fun _ => "", readOneRetry⟩

theorem oneRetryCodec_legible : oneRetryCodec.Legible oneRetry := by
  simp [SqsCodec.Legible, oneRetryCodec, readOneRetry]

/-- Workers over one queue, with the in-memory result backend. -/
abbrev sqsPair : Machine traits :=
  deployment ((oneQueue none).carrier oneRetryCodec) MemoryResultBackend.service Core.blankCodec

/-- Nothing has been sent yet. -/
def sqsOrigin : sqsPair.Config := ⟨(SqsState.empty, MemoryResultBackend.new), []⟩

/-- The message is enqueued. -/
def sendOneRetry : sqsPair.Move := .env (.enqueue [prompt] oneRetry)

/-- A worker receives the message; as the `i`-th execution it makes `n` calls. -/
def round (i n : Nat) (runtime : RuntimeOracle) : List sqsPair.Move :=
  .env (.arrive ⟨["t"], [], false⟩ ([prompt, prompt], ["q"], 1)) ::
    List.replicate n (.run i ⟨runtime, [prompt, prompt], ()⟩)

/-- A failure and a success. -/
def oneFailure : List sqsPair.Move :=
  sendOneRetry :: (round 0 7 failingRuntime ++ round 1 4 stillRuntime)

theorem oneFailure_plays : (sqsOrigin.playAll oneFailure).isSome = true := by
  decide +kernel

/-- How it ends. -/
def oneFailureEnd : List sqsPair.Label × sqsPair.Config :=
  (sqsOrigin.playAll oneFailure).get oneFailure_plays

set_option maxRecDepth 100000 in
theorem oneFailure_history :
    oneFailureEnd.1.filterMap sentBy = [oneRetry] ∧
      enqueued oneRetry.id oneFailureEnd.1 = [oneRetry] ∧
      oneFailureEnd.2.threads = [.ret (), .ret ()] := ⟨rfl, rfl, rfl⟩

/-- One retry is enough for one failure. -/
theorem sqs_retries_bounded_oneFailure :
    sqsPair.Reach sqsOrigin oneFailureEnd.1 oneFailureEnd.2 ∧
      calls (failureOf oneRetry.id) oneFailureEnd.1 = 1 ∧
      calls (invocationOf oneRetry.id) oneFailureEnd.1 = 2 ∧
      Bounded oneRetry oneFailureEnd.1 ∧ GivenUp oneRetry oneFailureEnd.1 := by
  have hreach : sqsPair.Reach sqsOrigin oneFailureEnd.1 oneFailureEnd.2 :=
    Machine.Config.reach_of_get oneFailure_plays
  have hfailures : calls (failureOf oneRetry.id) oneFailureEnd.1 = 1 := by decide +kernel
  have hrest : AtRest oneFailureEnd.2.threads := by
    intro p hp
    simpa [oneFailure_history.2.2] using hp
  have hbounds := sqs_retries_bounded (b := oneQueue none) nofun hreach
    (legible_of_sent oneRetryCodec_legible oneFailure_history.1) oneFailure_history.2.1 rfl
  refine ⟨hreach, hfailures, by decide +kernel, (hbounds.2 hrest).mpr (.inr ?_)⟩
  exact hfailures.le

/-- Three failures. -/
def threeFailures : List sqsPair.Move :=
  sendOneRetry ::
    (round 0 7 failingRuntime ++ round 1 7 failingRuntime ++ round 2 7 failingRuntime)

theorem threeFailures_plays : (sqsOrigin.playAll threeFailures).isSome = true := by
  decide +kernel

/-- How they end. -/
def threeFailuresEnd : List sqsPair.Label × sqsPair.Config :=
  (sqsOrigin.playAll threeFailures).get threeFailures_plays

set_option maxRecDepth 100000 in
theorem threeFailures_history :
    threeFailuresEnd.1.filterMap sentBy = [oneRetry] ∧
      enqueued oneRetry.id threeFailuresEnd.1 = [oneRetry] ∧
      threeFailuresEnd.2.threads = [.ret (), .ret (), .ret ()] := ⟨rfl, rfl, rfl⟩

/-- The message comes back with no retries counted: its handler is invoked a third
time, and it is not sent to the dead-letter queue. -/
theorem retries_unbounded :
    sqsPair.Reach sqsOrigin threeFailuresEnd.1 threeFailuresEnd.2 ∧
      (∀ l ∈ threeFailuresEnd.1, ∀ m, sentBy l = some m → oneRetryCodec.Legible m) ∧
      enqueued oneRetry.id threeFailuresEnd.1 = [oneRetry] ∧
      AtRest threeFailuresEnd.2.threads ∧
      ¬ Bounded oneRetry threeFailuresEnd.1 ∧ ¬ GivenUp oneRetry threeFailuresEnd.1 := by
  have hreach : sqsPair.Reach sqsOrigin threeFailuresEnd.1 threeFailuresEnd.2 :=
    Machine.Config.reach_of_get threeFailures_plays
  refine ⟨hreach, legible_of_sent oneRetryCodec_legible threeFailures_history.1,
    threeFailures_history.2.1, ?_, ?_, ?_⟩
  · intro p hp
    simpa [threeFailures_history.2.2] using hp
  · unfold Bounded
    decide +kernel
  · unfold GivenUp
    decide +kernel

end SqsBroker

end Kojin.Sqs
