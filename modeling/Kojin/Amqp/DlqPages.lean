/-
  Amqp/DlqPages.lean --- the pages of a dead-letter queue (`kojin-amqp`:
  `AmqpBroker::dlq_messages`).

  The queue is read by taking its head with `basic_get` and rejecting it at once with
  requeue.  A text that is taken keeps its place in the queue under a mark, its tag, so
  that a requeue puts it back where it was.  The head therefore is taken again and again:
  the loop answers copies of it.
-/
import Kojin.Amqp.Broker
import Kojin.Foundation.Page

set_option autoImplicit false

namespace Kojin.Amqp

open Kojin.Foundation Kojin.Core

/-! ## The server -/

/-- The requests of an inspection. -/
inductive InspectOp where
  | createChannel
  | basicGet (queue : String)
  | basicNack (tag : Nat) (requeue : Bool)

/-- What each request of an inspection answers: `basic_get` a tag and a text, or that the queue is
empty. -/
abbrev InspectOp.Res : InspectOp → Type
  | .createChannel => Except RequestError Unit
  | .basicGet _ => Except RequestError (Option (Nat × String))
  | .basicNack _ _ => Except RequestError Unit

/-- The interface of an inspection. -/
abbrev inspection : Interface := ⟨InspectOp, InspectOp.Res⟩

/-- A text in its place, and the tag under which it is out, if it is. -/
abbrev Place : Type := String × Option Nat

/-- The texts that are in the queue. -/
def present (places : List Place) : List String :=
  (places.filter (·.2.isNone)).map Prod.fst

/-- The first text that is in the queue goes out under the tag. -/
def takeOut (tag : Nat) : List Place → List Place
  | [] => []
  | (text, none) :: rest => (text, some tag) :: rest
  | (text, some out) :: rest => (text, some out) :: takeOut tag rest

/-- The text that is out under the tag is back in its place. -/
def putBack (tag : Nat) (places : List Place) : List Place :=
  places.map fun e => if e.2 = some tag then (e.1, none) else e

/-- The text that is out under the tag is gone. -/
def discard (tag : Nat) (places : List Place) : List Place :=
  places.filter fun e => e.2 ≠ some tag

section Places

variable {tag : Nat} {places : List Place} {e : Place}

theorem mem_takeOut (h : e ∈ takeOut tag places) : e ∈ places ∨ e.2 = some tag := by
  induction places with
  | nil => cases h
  | cons other rest ih =>
      obtain ⟨text, out⟩ := other
      cases out with
      | none =>
          rcases List.mem_cons.mp h with rfl | h
          · exact .inr rfl
          · exact .inl (List.mem_cons_of_mem _ h)
      | some out =>
          rcases List.mem_cons.mp h with rfl | h
          · exact .inl List.mem_cons_self
          · exact (ih h).imp_left (List.mem_cons_of_mem _)

/-- Nothing is out under a fresh tag. -/
theorem putBack_fresh (h : ∀ e ∈ places, e.2 ≠ some tag) : putBack tag places = places := by
  have hkeep : ∀ e ∈ places, (if e.2 = some tag then (e.1, none) else e) = id e :=
    fun e he => if_neg (h e he)
  rw [putBack, List.map_congr_left hkeep, List.map_id]

/-- What was taken out and is put back is where it was. -/
theorem putBack_takeOut (h : ∀ e ∈ places, e.2 ≠ some tag) :
    putBack tag (takeOut tag places) = places := by
  induction places with
  | nil => rfl
  | cons other rest ih =>
      have hrest : ∀ e ∈ rest, e.2 ≠ some tag := fun e he => h e (List.mem_cons_of_mem _ he)
      obtain ⟨text, out⟩ := other
      cases out with
      | none =>
          show (if some tag = some tag then (text, none) else (text, some tag)) ::
            putBack tag rest = _
          rw [if_pos rfl, putBack_fresh hrest]
      | some out =>
          show (if some out = some tag then (text, none) else (text, some out)) ::
            putBack tag (takeOut tag rest) = _
          rw [if_neg (h _ List.mem_cons_self), ih hrest]

end Places

/-- The queues, and the last tag that was issued. -/
structure InspectState where
  queues : String → List Place
  issued : Nat
  bound : ∀ queue, ∀ e ∈ queues queue, ∀ tag, e.2 = some tag → tag ≤ issued

namespace InspectState

/-- The head of a queue is delivered under the next tag. -/
def take (s : InspectState) (queue : String) : InspectState where
  queues := Function.update s.queues queue (takeOut (s.issued + 1) (s.queues queue))
  issued := s.issued + 1
  bound := by
    intro name e he tag htag
    have hold : e ∈ s.queues name → tag ≤ s.issued + 1 := fun he =>
      (s.bound name e he tag htag).trans (Nat.le_succ _)
    by_cases hname : name = queue
    · subst hname
      rw [Function.update_self] at he
      rcases mem_takeOut he with he | he
      · exact hold he
      · exact le_of_eq (Option.some.inj (htag.symm.trans he))
    · rw [Function.update_of_ne hname] at he
      exact hold he

/-- A delivery is rejected.  A dead-letter queue routes nothing further. -/
def reject (s : InspectState) (tag : Nat) (requeue : Bool) : InspectState where
  queues name := if requeue then putBack tag (s.queues name) else discard tag (s.queues name)
  issued := s.issued
  bound := by
    intro name e he t ht
    split at he
    · obtain ⟨e', he', rfl⟩ := List.mem_map.mp he
      split at ht
      · cases ht
      · exact s.bound name e' he' t ht
    · exact s.bound name e (List.mem_filter.mp he).1 t ht

/-- No text is out under the next tag. -/
theorem fresh (s : InspectState) (queue : String) :
    ∀ e ∈ s.queues queue, e.2 ≠ some (s.issued + 1) := by
  intro e he htag
  exact absurd (s.bound queue e he _ htag) (Nat.not_succ_le_self _)

/-- A requeue restores the queues. -/
theorem queues_reject_take (s : InspectState) (queue : String) :
    ((s.take queue).reject (s.issued + 1) true).queues = s.queues := by
  funext name
  show putBack (s.issued + 1) (Function.update s.queues queue _ name) = _
  by_cases hname : name = queue
  · subst hname
    rw [Function.update_self, putBack_takeOut (s.fresh name)]
  · rw [Function.update_of_ne hname, putBack_fresh (s.fresh name)]

end InspectState

/-- The server, with nobody else at the queues.  A request that fails does not reach it. -/
def inspectServer : Service inspection where
  State := InspectState
  Oracle := Option RequestError
  respond o s
    | .createChannel =>
        match o with
        | some e => some (.error e, s)
        | none => some (.ok (), s)
    | .basicGet queue =>
        match o with
        | some e => some (.error e, s)
        | none =>
            match (present (s.queues queue)).head? with
            | none => some (.ok none, s)
            | some text => some (.ok (some (s.issued + 1, text)), s.take queue)
    | .basicNack tag requeue =>
        match o with
        | some e => some (.error e, s)
        | none => some (.ok (), s.reject tag requeue)

/-! ## The loop -/

namespace AmqpBroker

/-- The name of a dead-letter queue. -/
def dlqName (queue : String) : String := "kojin.dlq." ++ queue

/-- What a round of the loop does with the text it has taken: the texts before the page
are skipped, and those that cannot be read are passed over. -/
def inspect (codec : AmqpCodec) (offset : Nat) (text : String) (skipped : Nat)
    (messages : List TaskMessage) : Nat × List TaskMessage :=
  if skipped < offset then (skipped + 1, messages)
  else
    match codec.decodeMessage text with
    | .ok m => (skipped, messages ++ [m])
    | .error _ => (skipped, messages)

/-- The loop of `dlq_messages`, with the rounds that are left. -/
def dlqRounds (codec : AmqpCodec) (queue : String) (offset : Nat) :
    Nat → Nat → List TaskMessage → Prog inspection (TaskResult (List TaskMessage))
  | 0, _, messages => pure (.ok messages)
  | rounds + 1, skipped, messages => do
      match ← Prog.perform (I := inspection) (.basicGet (dlqName queue)) with
      | .error e => pure (.error (brokerErr e))
      | .ok none => pure (.ok messages)
      | .ok (some (tag, text)) => do
          let next := inspect codec offset text skipped messages
          match ← Prog.perform (I := inspection) (.basicNack tag true) with
          | .error e => pure (.error (brokerErr e))
          | .ok _ => dlqRounds codec queue offset rounds next.1 next.2

/-- `AmqpBroker::dlq_messages`. -/
def dlqMessages (codec : AmqpCodec) (queue : String) (offset limit : Nat) :
    Prog inspection (TaskResult (List TaskMessage)) := do
  match ← Prog.perform (I := inspection) .createChannel with
  | .error e => pure (.error (brokerErr e))
  | .ok _ => dlqRounds codec queue offset (offset + limit) 0 []

section Rounds

variable {codec : AmqpCodec} {queue text : String} {rest : List String} {offset : Nat}
  {s : InspectState} {m : TaskMessage}

/-- The rounds over an empty queue. -/
theorem eval_dlqRounds_nil (h : present (s.queues (dlqName queue)) = []) (rounds skipped : Nat)
    (messages : List TaskMessage) :
    inspectServer.eval none (dlqRounds codec queue offset rounds skipped messages) s =
      some (.ok messages, s) := by
  cases rounds with
  | zero => rfl
  | succ rounds =>
      have hget : inspectServer.respond none s (.basicGet (dlqName queue)) =
          some (.ok none, s) := by
        simp [inspectServer, h]
      show (inspectServer.respond none s (.basicGet (dlqName queue))).bind _ = _
      rw [hget]
      rfl

/-- One round: the head is taken, looked at and put back. -/
theorem eval_dlqRounds_succ (h : present (s.queues (dlqName queue)) = text :: rest)
    (rounds skipped : Nat) (messages : List TaskMessage) :
    inspectServer.eval none (dlqRounds codec queue offset (rounds + 1) skipped messages) s =
      inspectServer.eval none (dlqRounds codec queue offset rounds
        (inspect codec offset text skipped messages).1
        (inspect codec offset text skipped messages).2)
        ((s.take (dlqName queue)).reject (s.issued + 1) true) := by
  have hget : inspectServer.respond none s (.basicGet (dlqName queue)) =
      some (.ok (some (s.issued + 1, text)), s.take (dlqName queue)) := by
    simp [inspectServer, h]
  show (inspectServer.respond none s (.basicGet (dlqName queue))).bind _ = _
  rw [hget]
  rfl

/-- The invariant of the loop: what was skipped is skipped, and each round past these
adds a copy of the head. -/
theorem eval_dlqRounds (offset rounds skipped : Nat) (hm : codec.decodeMessage text = .ok m)
    (messages : List TaskMessage) (s : InspectState)
    (h : present (s.queues (dlqName queue)) = text :: rest) :
    ∃ s', inspectServer.eval none (dlqRounds codec queue offset rounds skipped messages) s =
        some (.ok (messages ++ List.replicate (rounds - (offset - skipped)) m), s') ∧
      s'.queues = s.queues := by
  induction rounds generalizing skipped messages s with
  | zero =>
      rw [Nat.zero_sub, List.replicate_zero, List.append_nil]
      exact ⟨s, rfl, rfl⟩
  | succ rounds ih =>
      have hback := s.queues_reject_take (dlqName queue)
      obtain ⟨s', heval, hqueues⟩ := ih (inspect codec offset text skipped messages).1
        (inspect codec offset text skipped messages).2
        ((s.take (dlqName queue)).reject (s.issued + 1) true) (by rw [hback]; exact h)
      refine ⟨s', ?_, hqueues.trans hback⟩
      rw [eval_dlqRounds_succ h, heval]
      by_cases hskip : skipped < offset
      · have hround : inspect codec offset text skipped messages = (skipped + 1, messages) :=
          if_pos hskip
        have hcount : rounds - (offset - (skipped + 1)) = rounds + 1 - (offset - skipped) := by
          omega
        rw [hround, hcount]
      · have hround : inspect codec offset text skipped messages = (skipped, messages ++ [m]) := by
          rw [inspect, if_neg hskip, hm]
        have hzero : offset - skipped = 0 := by omega
        rw [hround, hzero, Nat.sub_zero, Nat.sub_zero, List.append_assoc, List.singleton_append,
          List.replicate_succ]

end Rounds

/-- The inspection of a dead-letter queue of readable texts, with nobody else at it: the
queues are left as they were, and the answer is the page just when there is nothing to
read, or the page is full and shows the head of the queue only. -/
theorem dlq_messages_iff (codec : AmqpCodec) (queue : String) (offset limit : Nat)
    (s : InspectState) (d : List TaskMessage)
    (hd : (present (s.queues (dlqName queue))).map codec.decodeMessage = d.map .ok) :
    ∃ answer s', inspectServer.eval none (dlqMessages codec queue offset limit) s =
        some (.ok answer, s') ∧ s'.queues = s.queues ∧
      (answer = page d offset limit ↔ d = [] ∨ limit = 0 ∨
        offset + limit ≤ d.length ∧ ∀ m ∈ page d offset limit, d.head? = some m) := by
  cases d with
  | nil =>
      have hnone : present (s.queues (dlqName queue)) = [] := List.map_eq_nil_iff.mp hd
      refine ⟨[], s, eval_dlqRounds_nil hnone _ _ _, rfl, ?_⟩
      simp [page]
  | cons head tail =>
      obtain ⟨text, rest, hpresent, hhead, -⟩ := List.map_eq_cons_iff.mp hd
      obtain ⟨s', heval, hqueues⟩ := eval_dlqRounds offset (offset + limit) 0 hhead [] s
        hpresent
      refine ⟨List.replicate limit head, s', ?_, hqueues, ?_⟩
      · have hcount : offset + limit - (offset - 0) = limit := by omega
        rw [hcount] at heval
        exact heval
      · rw [eq_comm, List.eq_replicate_iff, length_page]
        have hlength : min limit ((head :: tail).length - offset) = limit ↔
            limit = 0 ∨ offset + limit ≤ (head :: tail).length := by omega
        rw [hlength]
        constructor
        · rintro ⟨hzero | hfull, hcopies⟩
          · exact .inr (.inl hzero)
          · exact .inr (.inr ⟨hfull, fun m hm => congrArg some (hcopies m hm).symm⟩)
        · rintro (hnil | rfl | ⟨hfull, hcopies⟩)
          · cases hnil
          · exact ⟨.inl rfl, fun m hm => by cases hm⟩
          · exact ⟨.inr hfull, fun m hm => (Option.some.inj (hcopies m hm)).symm⟩

/-! ## A queue of two -/

/-- A broker's queues with these texts as the dead letters of `q`. -/
def buried (texts : List String) : InspectState where
  queues name := if name = dlqName "q" then texts.map (·, none) else []
  issued := 0
  bound := by
    intro name e he tag htag
    split at he
    · obtain ⟨text, -, rfl⟩ := List.mem_map.mp he
      cases htag
    · cases he

/-- A codec that reads `a` and `b` as two messages. -/
def letterCodec : AmqpCodec :=
  ⟨fun _ => "", fun text => .ok (if text = "a" then plainMessage ⟨1⟩ else plainMessage ⟨2⟩)⟩

/-- The page of the first message. -/
theorem dlq_messages_iff_first :
    ∃ answer s', inspectServer.eval none (dlqMessages letterCodec "q" 0 1) (buried ["a", "b"]) =
        some (.ok answer, s') ∧ answer = [plainMessage ⟨1⟩] := by
  obtain ⟨answer, s', heval, -, hiff⟩ := dlq_messages_iff letterCodec "q" 0 1 (buried ["a", "b"])
    [plainMessage ⟨1⟩, plainMessage ⟨2⟩] rfl
  exact ⟨answer, s', heval, hiff.mpr (.inr (.inr ⟨by decide, by simp [page]⟩))⟩

/-- The page of both messages shows the first one twice. -/
theorem dlq_page_repeats :
    ∃ s', inspectServer.eval none (dlqMessages letterCodec "q" 0 2) (buried ["a", "b"]) =
        some (.ok [plainMessage ⟨1⟩, plainMessage ⟨1⟩], s') ∧
      (present ((buried ["a", "b"]).queues (dlqName "q"))).map letterCodec.decodeMessage =
        [plainMessage ⟨1⟩, plainMessage ⟨2⟩].map .ok ∧
      page [plainMessage ⟨1⟩, plainMessage ⟨2⟩] 0 2 = [plainMessage ⟨1⟩, plainMessage ⟨2⟩] := by
  refine ⟨_, rfl, rfl, rfl⟩

end AmqpBroker

end Kojin.Amqp
