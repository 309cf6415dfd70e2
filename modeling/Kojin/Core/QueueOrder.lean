/-
  Core/QueueOrder.lean --- the order of the queues of the in-memory broker.

  A message is pushed to the back of its queue by producers, by clients, by the two
  sections of `nack`, by a postponement, by the continuation of a chain and by a callback,
  and a poll takes the message at the front.  Whoever does it, and whatever comes in
  between:

      queue          what was pushed, in order, is what was taken, in order, and then
                     what is still there
      dead letters   what was buried, in order, is there
-/
import Kojin.Core.Retry
import Kojin.Foundation.Observed

set_option autoImplicit false

namespace Kojin.Core

open Kojin.Foundation

/-! ## What happens to the queues -/

/-- What is noted of a step. -/
inductive QueueNote where
  | pushed (m : TaskMessage)
  | taken (m : TaskMessage)
  | buried (m : TaskMessage)

/-- The message that was pushed to this queue. -/
def QueueNote.pushTo (q : String) : QueueNote → Option TaskMessage
  | .pushed m => if m.queue = q then some m else none
  | _ => none

/-- The message that was taken from this queue. -/
def QueueNote.takeFrom (q : String) : QueueNote → Option TaskMessage
  | .taken m => if m.queue = q then some m else none
  | _ => none

/-- The message that was buried in the dead letters of this queue. -/
def QueueNote.buryIn (q : String) : QueueNote → Option TaskMessage
  | .buried m => if m.queue = q then some m else none
  | _ => none

/-- What a section does. -/
def Section.note : Section → List QueueNote
  | .enqueue m => [.pushed m]
  | .schedule m _ => [.pushed m]
  | .ack _ => []
  | .release _ => []
  | .deliver (.nack m) => [.pushed m]
  | .deliver (.deadLetter m) => [.buried m]

/-- What a poll takes. -/
def MemoryBroker.noteOf (b : MemoryBroker) (queues : List String) : List QueueNote :=
  match b.tryDequeue queues with
  | some (m, _) => [.taken m]
  | none => []

/-- A queue, the oldest message first. -/
def MemoryBroker.queueOf (b : MemoryBroker) (q : String) : List TaskMessage :=
  (b.queues.lookup q).getD []

/-- The dead letters of a queue, the oldest first. -/
def MemoryBroker.dlqOf (b : MemoryBroker) (q : String) : List TaskMessage :=
  (b.dlq.lookup q).getD []

/-- The notes are what happened to the queues. -/
structure InLine (ns : List QueueNote) (b : MemoryBroker) : Prop where
  queue : ∀ q, ns.filterMap (QueueNote.pushTo q) =
    ns.filterMap (QueueNote.takeFrom q) ++ b.queueOf q
  dead : ∀ q, ns.filterMap (QueueNote.buryIn q) = b.dlqOf q
  own : ∀ q, ∀ m ∈ b.queueOf q, m.queue = q

theorem queueOf_enqueue (b : MemoryBroker) (m : TaskMessage) (q : String) :
    (b.enqueue m).queueOf q = if m.queue = q then b.queueOf q ++ [m] else b.queueOf q := by
  by_cases hq : m.queue = q
  · subst hq
    simp [MemoryBroker.queueOf, MemoryBroker.enqueue]
  · simp [MemoryBroker.queueOf, MemoryBroker.enqueue, AList.lookup_insert_ne (Ne.symm hq), hq]

theorem dlqOf_pushDlq (b : MemoryBroker) (m : TaskMessage) (q : String) :
    (b.pushDlq m).dlqOf q = if m.queue = q then b.dlqOf q ++ [m] else b.dlqOf q := by
  by_cases hq : m.queue = q
  · subst hq
    simp [MemoryBroker.dlqOf, MemoryBroker.pushDlq]
  · simp [MemoryBroker.dlqOf, MemoryBroker.pushDlq, AList.lookup_insert_ne (Ne.symm hq), hq]

/-- A push. -/
theorem InLine.enqueue {ns : List QueueNote} {b : MemoryBroker} (h : InLine ns b)
    (m : TaskMessage) : InLine (ns ++ [.pushed m]) (b.enqueue m) := by
  refine ⟨fun q => ?_, fun q => ?_, fun q x hx => ?_⟩
  · rw [List.filterMap_append, List.filterMap_append, h.queue q, queueOf_enqueue]
    by_cases hq : m.queue = q <;> simp [QueueNote.pushTo, QueueNote.takeFrom, hq]
  · rw [List.filterMap_append, h.dead q]
    simp [QueueNote.buryIn, MemoryBroker.dlqOf, MemoryBroker.enqueue]
  · rw [queueOf_enqueue] at hx
    split at hx
    · rename_i hq
      rcases List.mem_append.mp hx with hx | hx
      · exact h.own q x hx
      · rw [List.mem_singleton.mp hx, hq]
    · exact h.own q x hx

/-- A poll. -/
theorem InLine.tryDequeue {ns : List QueueNote} {b b' : MemoryBroker} (h : InLine ns b)
    {queues : List String} {m : TaskMessage} (htake : b.tryDequeue queues = some (m, b')) :
    InLine (ns ++ [.taken m]) b' := by
  obtain ⟨name, -, ms, hlookup, rfl⟩ := MemoryBroker.tryDequeue_cases htake
  have hfront : b.queueOf name = m :: ms := by rw [MemoryBroker.queueOf, hlookup, Option.getD_some]
  have hown : m.queue = name := h.own name m (hfront ▸ List.mem_cons_self)
  have hrest : ∀ q, (b.queues.insert name ms).lookup q =
      if q = name then some ms else b.queues.lookup q := by
    intro q
    by_cases hq : q = name
    · rw [if_pos hq, hq, AList.lookup_insert]
    · rw [if_neg hq, AList.lookup_insert_ne hq]
  refine ⟨fun q => ?_, fun q => ?_, fun q x hx => ?_⟩
  · rw [List.filterMap_append, List.filterMap_append, h.queue q]
    by_cases hq : q = name
    · subst hq
      simp [List.filterMap_cons, QueueNote.pushTo, QueueNote.takeFrom, MemoryBroker.queueOf, hrest,
        hown, hlookup]
    · simp [List.filterMap_cons, QueueNote.pushTo, QueueNote.takeFrom, MemoryBroker.queueOf, hrest,
        hq, hown, Ne.symm hq]
  · rw [List.filterMap_append, h.dead q]
    simp [QueueNote.buryIn, MemoryBroker.dlqOf]
  · rw [MemoryBroker.queueOf, hrest] at hx
    by_cases hq : q = name
    · rw [if_pos hq, Option.getD_some] at hx
      rw [hq]
      exact h.own name x (hfront ▸ List.mem_cons_of_mem m hx)
    · rw [if_neg hq] at hx
      exact h.own q x hx

/-- A section keeps the queues in line. -/
theorem InLine.run {ns : List QueueNote} {b : MemoryBroker} (h : InLine ns b) (s : Section) :
    InLine (ns ++ s.note) (b.run s) := by
  have hquiet : ∀ b' : MemoryBroker, b'.queues = b.queues → b'.dlq = b.dlq →
      InLine (ns ++ []) b' := by
    intro b' hqueues hdlq
    rw [List.append_nil]
    refine ⟨fun q => ?_, fun q => ?_, fun q => ?_⟩
    · rw [MemoryBroker.queueOf, hqueues]
      exact h.queue q
    · rw [MemoryBroker.dlqOf, hdlq]
      exact h.dead q
    · rw [MemoryBroker.queueOf, hqueues]
      exact h.own q
  cases s with
  | enqueue m => exact h.enqueue m
  | schedule m eta => exact h.enqueue m
  | ack id => exact hquiet _ rfl rfl
  | release s => exact hquiet _ rfl rfl
  | deliver s =>
      cases s with
      | nack m => exact h.enqueue m
      | deadLetter m =>
          refine ⟨fun q => ?_, fun q => ?_, h.own⟩
          · rw [List.filterMap_append, List.filterMap_append, h.queue q]
            simp [List.filterMap_cons, Section.note, QueueNote.pushTo, QueueNote.takeFrom,
              MemoryBroker.queueOf, MemoryBroker.run, MemoryBroker.pushDlq]
          · rw [List.filterMap_append, h.dead q]
            by_cases hq : m.queue = q <;>
              simp [Section.note, QueueNote.buryIn, MemoryBroker.run, dlqOf_pushDlq, hq]

/-! ## Every run -/

section System

variable {S : Service resultBackendTrait} {codec : Codec}

/-- What is noted of a step of the system. -/
def queueNotes (s : (memorySystem S codec).State) (l : (memorySystem S codec).Label)
    (_ : (memorySystem S codec).State) : List QueueNote :=
  match l with
  | .call ⟨.broker q, _⟩ => Section.note q
  | .call _ => []
  | .env (.enqueue m) => [.pushed m]
  | .env (.backend _ _) => []
  | .env (.poll _ queues) => s.1.noteOf queues

/-- First in, first out.  In every run of workers and clients over the in-memory
broker, what was pushed to a queue, in order, is what was taken from it, in order, and then
what is still there; and the dead letters of a queue are what was buried, in order. -/
theorem queues_in_line {s₀ : S.State} {canvases : List Canvas} {ns : List QueueNote}
    {c : (memorySystem S codec).Config}
    (h : Machine.Observed queueNotes (memoryStart S codec s₀ canvases) ns c) (q : String) :
    ns.filterMap (QueueNote.pushTo q) =
        ns.filterMap (QueueNote.takeFrom q) ++ c.state.1.queueOf q ∧
      ns.filterMap (QueueNote.buryIn q) = c.state.1.dlqOf q := by
  have hkept : InLine ns c.state.1 := by
    induction h with
    | start => exact ⟨fun _ => rfl, fun _ => rfl, fun _ _ hm => (List.not_mem_nil hm).elim⟩
    | step _ hstep ih =>
        cases hstep with
        | @call o s s' op r k before after hrespond =>
            obtain ⟨b, t⟩ := s
            cases op with
            | runtime op =>
                cases hrespond
                simpa [queueNotes] using ih
            | broker op =>
                cases hrespond
                exact ih.run op
            | backend op =>
                obtain ⟨p, hp, heq⟩ := Option.map_eq_some_iff.mp hrespond
                cases heq
                simpa [queueNotes] using ih
        | @env x s s' threads new haccept =>
            obtain ⟨b, t⟩ := s
            cases x with
            | enqueue m =>
                cases haccept
                exact ih.enqueue m
            | backend o op =>
                obtain ⟨p, hp, heq⟩ := Option.map_eq_some_iff.mp haccept
                cases heq
                simpa [queueNotes] using ih
            | poll w queues =>
                obtain ⟨p, hp, heq⟩ := Option.map_eq_some_iff.mp haccept
                cases heq
                have hnote : queueNotes (b, t)
                    (.env (.poll w queues) : (memorySystem S codec).Label) (p.2, t) =
                      [.taken p.1] := by
                  simp only [queueNotes, MemoryBroker.noteOf, hp]
                rw [hnote]
                exact ih.tryDequeue hp
  exact ⟨hkept.queue q, hkept.dead q⟩

end System

theorem twoFailures_notes :
    (Machine.Config.notesOf (M := memoryPair) queueNotes memoryOrigin twoFailures).isSome =
      true := by
  decide +kernel

/-- A message is pushed, taken, pushed again, taken again and buried. -/
theorem queues_in_line_twoFailures : ∃ (ns : List QueueNote) (c : memoryPair.Config),
    (ns.filterMap (QueueNote.pushTo "q")).length = 2 ∧
      ns.filterMap (QueueNote.pushTo "q") = ns.filterMap (QueueNote.takeFrom "q") ∧
      (c.state.1.dlqOf "q").length = 1 ∧
      ns.filterMap (QueueNote.buryIn "q") = c.state.1.dlqOf "q" := by
  have hobserved := Machine.Config.observed_of_get twoFailures_notes
  obtain ⟨hqueue, hdead⟩ := queues_in_line hobserved "q"
  have hempty : (((Machine.Config.notesOf (M := memoryPair) queueNotes memoryOrigin
      twoFailures).get twoFailures_notes).2.state.1.queueOf "q").length = 0 := by
    decide +kernel
  rw [List.length_eq_zero_iff.mp hempty, List.append_nil] at hqueue
  exact ⟨_, _, by decide +kernel, hqueue, by decide +kernel, hdead⟩

end Kojin.Core
