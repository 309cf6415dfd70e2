/-
  Core/Conservation.lean --- the in-memory broker neither loses nor duplicates a
  message.

  The world of this file is the broker together with its clients, at the
  granularity of the lock-protected sections.  A client may introduce a message
  under a fresh identifier, dequeue, and settle what it has dequeued, each
  delivery once.  `nack` and `dead_letter` are two sections; between them the
  message is in the hands of the call, and every other client may run.

  THE INVARIANT.  For every identifier the copies in the queues, the processing
  map, the dead-letter queues, the acknowledged set and the hands of settling
  calls add up to the number of times it was introduced, which is at most one;
  and the processing map holds exactly the deliveries that are not settled yet.
  The second half is what lets a settling call find the entry it removes.

  `World.reachable_exists_unique_place` reads the sum back as a statement about
  places.
-/
import Kojin.Core.MemoryBroker
import Mathlib.Logic.Relation
import Mathlib.Logic.ExistsUnique

set_option autoImplicit false

namespace Kojin.Core

open Kojin.Foundation
open MemoryBroker (hasId unit hasId_iff unit_self unit_of_ne)

/-! ## Clients of the broker -/

/-- The broker and what its clients have done with it: the identifiers introduced
so far, the deliveries not settled yet and by whom, the acknowledged messages,
and the calls between their two sections. -/
structure World (Client : Type) where
  broker : MemoryBroker
  introduced : List TaskId
  held : List (Client × TaskId)
  acked : List TaskId
  inHand : List Settling

namespace World

variable {Client : Type}

/-- A new broker, before any client has called it. -/
def new : World Client := ⟨MemoryBroker.new, [], [], [], []⟩

/-- One lock-protected section by one client. -/
inductive Step [DecidableEq Client] : World Client → World Client → Prop where
  | enqueue (w : World Client) (m : TaskMessage) :
      m.id ∉ w.introduced →
      Step w { w with
        broker := w.broker.enqueue m
        introduced := m.id :: w.introduced }
  | schedule (w : World Client) (m : TaskMessage) (eta : DateTime) :
      m.id ∉ w.introduced →
      Step w { w with
        broker := w.broker.schedule m eta
        introduced := m.id :: w.introduced }
  | dequeue (w : World Client) (c : Client) (names : List String) {m : TaskMessage}
      {b : MemoryBroker} :
      w.broker.tryDequeue names = some (m, b) →
      Step w { w with broker := b, held := (c, m.id) :: w.held }
  | dequeueEmpty (w : World Client) (names : List String) :
      w.broker.tryDequeue names = none →
      Step w w
  | ack (w : World Client) (c : Client) (i : TaskId) :
      (c, i) ∈ w.held →
      Step w { w with
        broker := w.broker.removeProcessing i
        held := w.held.erase (c, i)
        acked := i :: w.acked }
  | nackRemove (w : World Client) (c : Client) (m : TaskMessage) :
      (c, m.id) ∈ w.held →
      Step w { w with
        broker := w.broker.removeProcessing m.id
        held := w.held.erase (c, m.id)
        inHand := .nack m :: w.inHand }
  | nackRequeue (w : World Client) (m : TaskMessage) (before after : List Settling) :
      w.inHand = before ++ .nack m :: after →
      Step w { w with
        broker := w.broker.enqueue m
        inHand := before ++ after }
  | deadLetterRemove (w : World Client) (c : Client) (m : TaskMessage) :
      (c, m.id) ∈ w.held →
      Step w { w with
        broker := w.broker.removeProcessing m.id
        held := w.held.erase (c, m.id)
        inHand := .deadLetter m :: w.inHand }
  | deadLetterPush (w : World Client) (m : TaskMessage) (before after : List Settling) :
      w.inHand = before ++ .deadLetter m :: after →
      Step w { w with
        broker := w.broker.pushDlq m
        inHand := before ++ after }

/-- A state some interleaving of the clients leads to. -/
def Reachable [DecidableEq Client] (w : World Client) : Prop := Relation.ReflTransGen Step new w

/-! ## The invariant -/

/-- Unsettled deliveries of message `i`. -/
def heldCount (w : World Client) (i : TaskId) : Nat := (w.held.map Prod.snd).count i

/-- Settling calls that carry message `i`. -/
def handCount (w : World Client) (i : TaskId) : Nat :=
  w.inHand.countP fun s => hasId i s.message

/-- All copies of message `i`, in the broker and in the hands of settling calls. -/
def copies (w : World Client) (i : TaskId) : Nat :=
  w.broker.queued i + w.broker.processed i + w.broker.dead i + w.acked.count i + w.handCount i

/-- Copies are conserved, identifiers are introduced at most once, and the
processing map is the set of unsettled deliveries. -/
structure Inv (w : World Client) : Prop where
  conserved : ∀ i, w.copies i = w.introduced.count i
  fresh : w.introduced.Nodup
  processing : ∀ i, w.broker.processed i = w.heldCount i

theorem inv_new : (new : World Client).Inv where
  conserved _ := rfl
  fresh := List.nodup_nil
  processing _ := rfl

theorem Inv.copies_le_one {w : World Client} (h : w.Inv) (i : TaskId) : w.copies i ≤ 1 := by
  rw [h.conserved]
  exact List.nodup_iff_count_le_one.mp h.fresh i

/-- Settling one delivery takes it off the list of unsettled ones. -/
theorem count_snd_erase [DecidableEq Client] {held : List (Client × TaskId)} {c : Client} {i : TaskId}
    (h : (c, i) ∈ held) (j : TaskId) :
    (held.map Prod.snd).count j = ((held.erase (c, i)).map Prod.snd).count j + unit i j := by
  have hperm := (List.perm_cons_erase h).map Prod.snd
  rw [hperm.count_eq, List.map_cons, List.count_cons]
  simp [unit]

/-- Introducing a message under a fresh identifier. -/
theorem Inv.introduce {w : World Client} (h : w.Inv) {m : TaskMessage}
    (hfresh : m.id ∉ w.introduced) :
    Inv { w with
      broker := w.broker.enqueue m
      introduced := m.id :: w.introduced } where
  conserved i := by
    have hi := h.conserved i
    rw [List.count_cons]
    simp only [copies, handCount, MemoryBroker.queued_enqueue, MemoryBroker.dead_enqueue,
      MemoryBroker.processed_enqueue, unit, beq_iff_eq] at hi ⊢
    omega
  fresh := List.nodup_cons.mpr ⟨hfresh, h.fresh⟩
  processing := h.processing

/-- A delivery moves the message from its queue to the processing map.  The sum
is at most one, so the entry it writes there cannot overwrite another. -/
theorem Inv.dequeue {w : World Client} (h : w.Inv) (c : Client) {names : List String}
    {m : TaskMessage} {b : MemoryBroker} (hd : w.broker.tryDequeue names = some (m, b)) :
    Inv { w with broker := b, held := (c, m.id) :: w.held } := by
  have hle := h.copies_le_one m.id
  have hpos := MemoryBroker.queued_pos_of_tryDequeue hd
  have hzero : w.broker.processed m.id = 0 := by
    simp only [copies] at hle
    omega
  refine ⟨fun i => ?_, h.fresh, fun i => ?_⟩
  · have hi := h.conserved i
    have hq := MemoryBroker.queued_of_tryDequeue hd i
    have hdead := MemoryBroker.dead_of_tryDequeue hd i
    simp only [copies, handCount] at hi ⊢
    by_cases hmi : m.id = i
    · subst hmi
      have hone := MemoryBroker.processed_of_tryDequeue_self hd
      rw [unit_self] at hq
      omega
    · have hsame := MemoryBroker.processed_of_tryDequeue_of_ne hd hmi
      rw [unit_of_ne hmi] at hq
      omega
  · have hi := h.processing i
    simp only [heldCount, List.map_cons, List.count_cons, beq_iff_eq] at hi ⊢
    by_cases hmi : m.id = i
    · subst hmi
      have hone := MemoryBroker.processed_of_tryDequeue_self hd
      rw [if_pos rfl]
      omega
    · have hsame := MemoryBroker.processed_of_tryDequeue_of_ne hd hmi
      rw [if_neg hmi]
      omega

/-- The first section of a settling call.  What it does with the message
afterwards is `acked` and `inHand`, which take over the copy. -/
theorem Inv.settle [DecidableEq Client] {w : World Client} (h : w.Inv) {c : Client} {i : TaskId}
    (hheld : (c, i) ∈ w.held) {acked : List TaskId} {inHand : List Settling}
    (hmoved : ∀ j, acked.count j + inHand.countP (fun s => hasId j s.message) =
      w.acked.count j + w.handCount j + unit i j) :
    Inv { w with
      broker := w.broker.removeProcessing i
      held := w.held.erase (c, i)
      acked := acked
      inHand := inHand } := by
  refine ⟨fun j => ?_, h.fresh, fun j => ?_⟩
  · have hj := h.conserved j
    have hp := h.processing j
    have hm := hmoved j
    have he := count_snd_erase hheld j
    simp only [copies, handCount, heldCount, MemoryBroker.queued_removeProcessing,
      MemoryBroker.dead_removeProcessing] at hj hp hm ⊢
    by_cases hij : i = j
    · subst hij
      have hle := h.copies_le_one i
      simp only [copies] at hle
      rw [MemoryBroker.processed_removeProcessing_self]
      rw [unit_self] at he hm
      omega
    · rw [MemoryBroker.processed_removeProcessing_of_ne _ hij]
      rw [unit_of_ne hij] at hm
      omega
  · have hp := h.processing j
    have he := count_snd_erase hheld j
    simp only [heldCount] at hp ⊢
    by_cases hij : i = j
    · subst hij
      have hle := h.copies_le_one i
      simp only [copies] at hle
      rw [MemoryBroker.processed_removeProcessing_self]
      rw [unit_self] at he
      omega
    · rw [MemoryBroker.processed_removeProcessing_of_ne _ hij]
      rw [unit_of_ne hij] at he
      omega

/-- Taking one call out of the list of settling calls. -/
theorem handCount_split {w : World Client} {s : Settling} {before after : List Settling}
    (h : w.inHand = before ++ s :: after) (i : TaskId) :
    w.handCount i = (before ++ after).countP (fun s => hasId i s.message) +
      unit s.message.id i := by
  rw [handCount, h, List.countP_append, List.countP_cons, List.countP_append]
  simp only [hasId_iff, unit]
  omega

/-- Every section keeps the invariant. -/
theorem Step.inv [DecidableEq Client] {w w' : World Client} (hstep : Step w w') (h : w.Inv) : w'.Inv := by
  cases hstep with
  | enqueue m hfresh => exact h.introduce hfresh
  | schedule m eta hfresh => exact h.introduce hfresh
  | dequeue c names hd => exact h.dequeue c hd
  | dequeueEmpty names hd => exact h
  | ack c i hheld =>
      refine h.settle hheld fun j => ?_
      rw [List.count_cons]
      simp only [handCount, unit, beq_iff_eq]
      omega
  | nackRemove c m hheld =>
      refine h.settle hheld fun j => ?_
      rw [List.countP_cons]
      simp only [handCount, unit, Settling.message_nack, hasId_iff]
      omega
  | deadLetterRemove c m hheld =>
      refine h.settle hheld fun j => ?_
      rw [List.countP_cons]
      simp only [handCount, unit, Settling.message_deadLetter, hasId_iff]
      omega
  | nackRequeue m before after hhand =>
      refine ⟨fun i => ?_, h.fresh, h.processing⟩
      have hi := h.conserved i
      have hs := handCount_split hhand i
      simp only [copies] at hi ⊢
      rw [MemoryBroker.queued_enqueue, MemoryBroker.dead_enqueue,
        MemoryBroker.processed_enqueue]
      simp only [handCount, Settling.message_nack] at hi hs ⊢
      omega
  | deadLetterPush m before after hhand =>
      refine ⟨fun i => ?_, h.fresh, h.processing⟩
      have hi := h.conserved i
      have hs := handCount_split hhand i
      simp only [copies] at hi ⊢
      rw [MemoryBroker.queued_pushDlq, MemoryBroker.dead_pushDlq,
        MemoryBroker.processed_pushDlq]
      simp only [handCount, Settling.message_deadLetter] at hi hs ⊢
      omega

/-- Every interleaving keeps the invariant. -/
theorem Reachable.inv [DecidableEq Client] {w : World Client} (h : w.Reachable) : w.Inv := by
  induction h with
  | refl => exact inv_new
  | tail _ hstep ih => exact hstep.inv ih

/-! ## Places -/

/-- Where a message can be. -/
inductive Place where
  | queue (name : String) (position : Nat)
  | processing
  | dlq (name : String) (position : Nat)
  | acked
  | inHand (call : Nat)
  deriving DecidableEq

/-- Message `i` is at this place. -/
def At (w : World Client) (i : TaskId) : Place → Prop
  | .queue name position =>
      ∃ ms m, w.broker.queues.lookup name = some ms ∧ ms[position]? = some m ∧ m.id = i
  | .processing => i ∈ w.broker.processing
  | .dlq name position =>
      ∃ ms m, w.broker.dlq.lookup name = some ms ∧ ms[position]? = some m ∧ m.id = i
  | .acked => i ∈ w.acked
  | .inHand call => ∃ s, w.inHand[call]? = some s ∧ s.message.id = i

/-- Two positions of a table of queues that hold message `i` coincide when the
table holds it at most once. -/
theorem queue_position_unique {t : Table String (List TaskMessage)} {i : TaskId}
    (hle : t.tally (List.countP (hasId i)) ≤ 1) {name name' : String} {k k' : Nat}
    {ms ms' : List TaskMessage} {m m' : TaskMessage}
    (h : t.lookup name = some ms) (hk : ms[k]? = some m) (hm : m.id = i)
    (h' : t.lookup name' = some ms') (hk' : ms'[k']? = some m') (hm' : m'.id = i) :
    name = name' ∧ k = k' := by
  have hpos := countP_pos_of_position hk (hasId_iff.mpr hm)
  have hpos' := countP_pos_of_position hk' (hasId_iff.mpr hm')
  by_cases hname : name = name'
  · subst hname
    have hms : ms = ms' := Option.some.inj (h.symm.trans h')
    subst hms
    have hone := Table.le_tally (f := List.countP (hasId i)) h
    exact ⟨rfl, position_unique (Nat.le_trans hone hle) hk hk' (hasId_iff.mpr hm)
      (hasId_iff.mpr hm')⟩
  · have htwo := Table.add_le_tally (f := List.countP (hasId i)) hname h h'
    omega

/-- A table of queues that holds message `i` holds it at some position. -/
theorem exists_queue_position {t : Table String (List TaskMessage)} {i : TaskId}
    (h : 0 < t.tally (List.countP (hasId i))) :
    ∃ (name : String) (k : Nat) (ms : List TaskMessage) (m : TaskMessage),
      t.lookup name = some ms ∧ ms[k]? = some m ∧ m.id = i := by
  obtain ⟨name, ms, hlookup, hpos⟩ := Table.exists_of_tally_pos h
  obtain ⟨k, m, hk, hm⟩ := exists_position hpos
  exact ⟨name, k, ms, m, hlookup, hk, hasId_iff.mp hm⟩

/-- Which summand of `copies` a place contributes to. -/
def share (w : World Client) (i : TaskId) : Place → Nat
  | .queue _ _ => w.broker.queued i
  | .processing => w.broker.processed i
  | .dlq _ _ => w.broker.dead i
  | .acked => w.acked.count i
  | .inHand _ => w.handCount i

/-- An occupied place has a positive share. -/
theorem share_pos_of_at {w : World Client} {i : TaskId} {p : Place} (h : w.At i p) :
    0 < w.share i p := by
  cases p with
  | queue name k =>
      obtain ⟨ms, m, hlookup, hk, hm⟩ := h
      exact Nat.lt_of_lt_of_le (countP_pos_of_position hk (hasId_iff.mpr hm))
        (Table.le_tally hlookup)
  | processing =>
      have hmem : i ∈ w.broker.processing := h
      show 0 < w.broker.processed i
      rw [MemoryBroker.processed, if_pos hmem]
      exact Nat.one_pos
  | dlq name k =>
      obtain ⟨ms, m, hlookup, hk, hm⟩ := h
      exact Nat.lt_of_lt_of_le (countP_pos_of_position hk (hasId_iff.mpr hm))
        (Table.le_tally hlookup)
  | acked => exact List.count_pos_iff.mpr h
  | inHand k =>
      obtain ⟨s, hk, hs⟩ := h
      exact countP_pos_of_position (p := fun s => hasId i s.message) hk (hasId_iff.mpr hs)

/-- With at most one copy in all, two occupied places are the same place. -/
theorem at_unique {w : World Client} {i : TaskId} (hle : w.copies i ≤ 1) {p p' : Place}
    (h : w.At i p) (h' : w.At i p') : p = p' := by
  have hpos := share_pos_of_at h
  have hpos' := share_pos_of_at h'
  cases p <;> cases p' <;> simp only [share, copies] at hpos hpos' hle <;> first
    | rfl
    | omega
    | skip
  · obtain ⟨ms, m, hlookup, hk, hm⟩ := h
    obtain ⟨ms', m', hlookup', hk', hm'⟩ := h'
    have hq : w.broker.queued i ≤ 1 := by omega
    obtain ⟨rfl, rfl⟩ := queue_position_unique hq hlookup hk hm hlookup' hk' hm'
    rfl
  · obtain ⟨ms, m, hlookup, hk, hm⟩ := h
    obtain ⟨ms', m', hlookup', hk', hm'⟩ := h'
    have hd : w.broker.dead i ≤ 1 := by omega
    obtain ⟨rfl, rfl⟩ := queue_position_unique hd hlookup hk hm hlookup' hk' hm'
    rfl
  · obtain ⟨s, hk, hs⟩ := h
    obtain ⟨s', hk', hs'⟩ := h'
    have hh : w.handCount i ≤ 1 := by omega
    have hkk := position_unique (p := fun s : Settling => hasId i s.message) hh hk hk'
      (hasId_iff.mpr hs) (hasId_iff.mpr hs')
    rw [hkk]

/-- Where there is a copy, some place is occupied. -/
theorem exists_at {w : World Client} {i : TaskId} (h : 0 < w.copies i) : ∃ p, w.At i p := by
  unfold copies at h
  by_cases hq : 0 < w.broker.queued i
  · obtain ⟨name, k, ms, m, hat⟩ := exists_queue_position hq
    exact ⟨.queue name k, ms, m, hat⟩
  by_cases hp : 0 < w.broker.processed i
  · refine ⟨.processing, ?_⟩
    by_contra hnot
    have hzero : w.broker.processed i = 0 := if_neg hnot
    omega
  by_cases hd : 0 < w.broker.dead i
  · obtain ⟨name, k, ms, m, hat⟩ := exists_queue_position hd
    exact ⟨.dlq name k, ms, m, hat⟩
  by_cases ha : 0 < w.acked.count i
  · exact ⟨.acked, List.count_pos_iff.mp ha⟩
  have hh : 0 < w.handCount i := by omega
  obtain ⟨k, s, hk, hs⟩ := exists_position hh
  exact ⟨.inHand k, s, hk, hasId_iff.mp hs⟩

/-- Conservation.  In every state that any interleaving of any number of
clients leads to, each message that was ever introduced is in exactly one place:
one position of one queue, the processing map, one position of one dead-letter
queue, the acknowledged set, or the hands of one settling call. -/
theorem reachable_exists_unique_place [DecidableEq Client] {w : World Client}
    (h : w.Reachable) {i : TaskId} (hi : i ∈ w.introduced) : ∃! p : Place, w.At i p := by
  have hone : w.copies i = 1 := by
    rw [h.inv.conserved]
    exact List.count_eq_one_of_mem h.inv.fresh hi
  obtain ⟨p, hp⟩ := exists_at (w := w) (i := i) (by omega)
  exact ⟨p, hp, fun p' hp' => at_unique (by omega) hp' hp⟩

/-- One client enqueues a message, another dequeues it and begins to `nack` it:
the message is in the hands of that call and nowhere else. -/
theorem nack_in_hand_unique_place :
    ∃ w : World Bool, w.Reachable ∧ (⟨7⟩ : TaskId) ∈ w.introduced ∧
      w.At ⟨7⟩ (.inHand 0) ∧ ∃! p : Place, w.At ⟨7⟩ p := by
  let m := plainMessage ⟨7⟩
  let w₁ : World Bool := ⟨MemoryBroker.new.enqueue m, [⟨7⟩], [], [], []⟩
  let b₂ : MemoryBroker :=
    { w₁.broker with
      queues := w₁.broker.queues.insert "q" []
      processing := w₁.broker.processing.insert m.id m }
  let w₂ : World Bool := ⟨b₂, [⟨7⟩], [(true, ⟨7⟩)], [], []⟩
  let w₃ : World Bool := ⟨b₂.removeProcessing ⟨7⟩, [⟨7⟩], [], [], [.nack m]⟩
  have s₁ : Step (new : World Bool) w₁ := .enqueue new m (by simp [new])
  have s₂ : Step w₁ w₂ := .dequeue w₁ true ["q"] (m := m) (b := b₂) rfl
  have s₃ : Step w₂ w₃ := .nackRemove w₂ true m (by simp [w₂, m, plainMessage, TaskMessage.new])
  have hreach : w₃.Reachable :=
    ((Relation.ReflTransGen.single s₁).tail s₂).tail s₃
  have hi : (⟨7⟩ : TaskId) ∈ w₃.introduced := List.mem_singleton.mpr rfl
  exact ⟨w₃, hreach, hi, ⟨.nack m, rfl, rfl⟩, reachable_exists_unique_place hreach hi⟩

end World

end Kojin.Core
