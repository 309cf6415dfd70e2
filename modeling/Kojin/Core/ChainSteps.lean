/-
  Core/ChainSteps.lean --- the steps of a chain and the order of what happens to them
  (`kojin-core`: `canvas.rs`, `worker.rs`).

  The steps of a chain are nested single tasks and chains.  The submission makes a
  message of the first leaf and writes the other leaves into a header; the execution
  that succeeds with a message that has this header makes a message of the first of
  them and writes the others into its header.

  Three things happen to a chain: a message of it is made, a handler succeeds on one,
  one is buried.  `ChainPath` says in which order, one event at a time, and
  `ChainFaithful` what that comes to for the whole history.
-/
import Kojin.Core.Canvas
import Kojin.Core.Lifecycle

set_option autoImplicit false

namespace Kojin.Core

open Kojin.Foundation

/-! ## Nested chains -/

namespace Canvas

mutual

/-- A single task, or a chain of nested single tasks and chains. -/
def Linear : Canvas → Prop
  | .single _ => True
  | .chain steps => AllLinear steps
  | .group _ => False
  | .chord _ _ => False

/-- All of them are. -/
def AllLinear : List Canvas → Prop
  | [] => True
  | step :: steps => step.Linear ∧ AllLinear steps

end

mutual

/-- The single tasks of a workflow, from left to right. -/
def leaves : Canvas → List Signature
  | .single sig => [sig]
  | .chain steps => leavesOf steps
  | .group members => leavesOf members
  | .chord members callback => leavesOf members ++ callback.leaves

/-- The single tasks of several workflows, from left to right. -/
def leavesOf : List Canvas → List Signature
  | [] => []
  | step :: steps => step.leaves ++ leavesOf steps

end

mutual

/-- Flattening keeps all the leaves of a step, in order. -/
theorem flattenStep_eq : ∀ step : Canvas, step.Linear → flattenStep step = step.leaves
  | .single sig, _ => by rw [flattenStep, leaves]
  | .chain steps, h => by
      rw [flattenStep, leaves]
      exact flattenChain_eq steps (by rwa [Linear] at h)
  | .group _, h => by rw [Linear] at h; exact h.elim
  | .chord _ _, h => by rw [Linear] at h; exact h.elim

theorem flattenChain_eq : ∀ steps : List Canvas, AllLinear steps →
    flattenChain steps = leavesOf steps
  | [], _ => by rw [flattenChain, leavesOf]
  | step :: steps, h => by
      rw [AllLinear] at h
      rw [flattenChain, leavesOf, flattenStep_eq step h.1, flattenChain_eq steps h.2]

end

end Canvas

/-! ## The message of a step -/

/-- No header of the signature has a key that begins with `kojin.`. -/
def Signature.Unreserved (sig : Signature) : Prop :=
  ∀ key, key ∈ sig.headers → ¬ "kojin.".toList <+: key.toList

theorem Signature.Unreserved.lookup_eq_none {sig : Signature} (h : sig.Unreserved) {key : String}
    (hkey : "kojin.".toList <+: key.toList) : sig.headers.lookup key = none :=
  AList.lookup_eq_none.mpr fun hmem => h key hmem hkey

/-- The first of the remaining steps, and those behind it. -/
def peel : List Signature → Option (Signature × List Signature)
  | [] => none
  | sig :: rest => some (sig, rest)

/-- `m` is the message of the leaf `sig` of a workflow: it has what the signature says and
the id of the workflow, and in its headers the result of the step before it and the steps
behind it. -/
structure TaskMessage.StepOf (codec : Codec) (id : String) (sig : Signature)
    (rest : List Signature) (input : Option Json) (m : TaskMessage) : Prop where
  task : (m.taskName, m.queue, m.payload) = (sig.taskName, sig.queue, sig.payload)
  options : (m.maxRetries, m.eta, m.priority, m.dedupKey) =
    (sig.maxRetries, sig.eta, sig.priority, sig.dedupKey)
  correlation : m.correlationId = some id
  input : m.headers.lookup "kojin.chain_input" = input.map Json.print
  next : m.headers.lookup "kojin.chain_next" =
    if rest.isEmpty then none else some (encodeSignatures codec.rfc3339 rest)
  alone : m.groupId = none ∧ m.chordCallback = none

section StepOf

variable {codec : Codec} {id : String} {sig : Signature} {rest : List Signature}
  {input : Option Json} {m x : TaskMessage}

theorem chainInput_ne : "kojin.chain_input" ≠ "kojin.chain_next" := by decide

/-- What the submission makes of the first leaf. -/
theorem Canvas.chainHead_stepOf (hsig : sig.Unreserved) (now : DateTime) (task : TaskId) :
    (chainHead codec id rest sig now task).StepOf codec id sig rest none := by
  have hinput : sig.headers.lookup "kojin.chain_input" = none := hsig.lookup_eq_none (by decide)
  have hnext : sig.headers.lookup "kojin.chain_next" = none := hsig.lookup_eq_none (by decide)
  unfold chainHead
  cases rest with
  | nil => exact ⟨rfl, rfl, rfl, hinput, hnext, rfl, rfl⟩
  | cons first others =>
      refine ⟨rfl, rfl, rfl, ?_, ?_, rfl, rfl⟩
      · exact (AList.lookup_insert_ne chainInput_ne).trans hinput
      · exact AList.lookup_insert _

/-- What the execution of one step makes of the next. -/
theorem TaskMessage.chainStep_stepOf (hsig : sig.Unreserved) (hm : m.correlationId = some id)
    (result : Json) (now : DateTime) (task : TaskId) :
    (m.chainStep codec result sig rest now task).StepOf codec id sig rest (some result) := by
  have hnext : sig.headers.lookup "kojin.chain_next" = none := hsig.lookup_eq_none (by decide)
  unfold TaskMessage.chainStep
  rw [hm]
  cases rest with
  | nil =>
      refine ⟨rfl, rfl, rfl, ?_, ?_, rfl, rfl⟩
      · exact AList.lookup_insert _
      · exact (AList.lookup_insert_ne chainInput_ne.symm).trans hnext
  | cons first others =>
      refine ⟨rfl, rfl, rfl, ?_, ?_, rfl, rfl⟩
      · exact (AList.lookup_insert_ne chainInput_ne).trans (AList.lookup_insert _)
      · exact AList.lookup_insert _

/-- A worker reads the steps behind it out of the header. -/
theorem TaskMessage.StepOf.chainNext (h : m.StepOf codec id sig rest input)
    (hdecode : codec.decodeSignatures (encodeSignatures codec.rfc3339 rest) = .ok rest) :
    codec.chainNext m = peel rest := by
  have hnext := h.next
  unfold Codec.chainNext
  cases rest with
  | nil =>
      rw [hnext]
      rfl
  | cons first others =>
      rw [hnext]
      simp only [List.isEmpty_cons, Bool.false_eq_true, if_false, hdecode]
      rfl

/-- Copies of a message are messages of the same step. -/
theorem TaskMessage.StepOf.copy (h : m.StepOf codec id sig rest input) (hx : x.SameTask m) :
    x.StepOf codec id sig rest input := by
  rw [← hx] at h
  exact ⟨h.task, h.options, h.correlation, h.input, h.next, h.alone⟩

end StepOf

/-! ## What happens to a chain -/

/-- A message of the chain is made, a handler succeeds on a copy of one, or a copy of one
is buried. -/
inductive ChainEvent where
  | created (m : TaskMessage)
  | succeeded (m : TaskMessage) (result : Json)
  | buried (m : TaskMessage)

/-- The messages made, in order. -/
def createdSteps (es : List ChainEvent) : List TaskMessage :=
  es.filterMap fun
    | .created m => some m
    | _ => none

/-- The copies on which a handler succeeded, in order, and the results. -/
def succeededSteps (es : List ChainEvent) : List (TaskMessage × Json) :=
  es.filterMap fun
    | .succeeded m result => some (m, result)
    | _ => none

/-- The result a step is given: the first none, and every other that of the step before
it. -/
def inputOf (results : List Json) : Nat → Option Json
  | 0 => none
  | i + 1 => results[i]?

/-- How far a chain has come: the next of these steps is to be made, the message of one
is on its way with these steps behind it, or one has been buried. -/
inductive ChainPhase where
  | next (todo : List Signature) (input : Option Json)
  | running (m : TaskMessage) (rest : List Signature)
  | dead

/-- The steps whose messages have not been made. -/
def ChainPhase.pending : ChainPhase → List Signature
  | .next todo _ => todo
  | .running _ rest => rest
  | .dead => []

section Path

variable (codec : Codec) (id : String)

/-- Which event leads from which phase to which. -/
inductive ChainMove : ChainPhase → ChainEvent → ChainPhase → Prop where
  | create {sig : Signature} {rest : List Signature} {input : Option Json} {m : TaskMessage} :
      m.StepOf codec id sig rest input →
      ChainMove (.next (sig :: rest) input) (.created m) (.running m rest)
  | succeed {m x : TaskMessage} {rest : List Signature} (result : Json) :
      x.SameTask m → ChainMove (.running m rest) (.succeeded x result) (.next rest (some result))
  | bury {m x : TaskMessage} {rest : List Signature} :
      x.SameTask m → ChainMove (.running m rest) (.buried x) .dead

/-- The histories of a chain with these leaves, and the phase they lead to. -/
inductive ChainPath (leaves : List Signature) : List ChainEvent → ChainPhase → Prop where
  | start : ChainPath leaves [] (.next leaves none)
  | move {es : List ChainEvent} {e : ChainEvent} {p p' : ChainPhase} :
      ChainPath leaves es p → ChainMove codec id p e p' → ChainPath leaves (es ++ [e]) p'

/-- A chain is executed faithfully: the messages made are those of its leaves, in
order and each once, every one with the result of the step before it; each is made only
after that step has succeeded; the steps that succeed are the first leaves, and each
succeeds on a copy of its message; and a burial is the last that happens. -/
structure ChainFaithful (leaves : List Signature) (es : List ChainEvent) : Prop where
  created : ∀ (i : Nat) (m : TaskMessage), (createdSteps es)[i]? = some m →
    ∃ sig, leaves[i]? = some sig ∧ m.StepOf codec id sig (leaves.drop (i + 1))
      (inputOf ((succeededSteps es).map Prod.snd) i)
  succeeded : ∀ (i : Nat) (x : TaskMessage) (result : Json),
    (succeededSteps es)[i]? = some (x, result) →
      ∃ m, (createdSteps es)[i]? = some m ∧ x.SameTask m
  inOrder : (succeededSteps es).map (fun s => (s.1.taskName, s.1.queue, s.1.payload)) <+:
    leaves.map fun sig => (sig.taskName, sig.queue, sig.payload)
  counts : (succeededSteps es).length ≤ (createdSteps es).length ∧
    (createdSteps es).length ≤ (succeededSteps es).length + 1
  buried : ∀ x, .buried x ∈ es → ∃ m before, es = before ++ [.buried x] ∧
    (createdSteps es).getLast? = some m ∧ x.SameTask m ∧
    (createdSteps es).length = (succeededSteps es).length + 1

end Path

/-! ## From one event to the next to the whole history -/

section Tracked

variable {codec : Codec} {id : String} {leaves : List Signature} {es : List ChainEvent}
  {e : ChainEvent} {p p' : ChainPhase}

theorem createdSteps_append (es es' : List ChainEvent) :
    createdSteps (es ++ es') = createdSteps es ++ createdSteps es' := List.filterMap_append

theorem succeededSteps_append (es es' : List ChainEvent) :
    succeededSteps (es ++ es') = succeededSteps es ++ succeededSteps es' := List.filterMap_append

/-- An entry of a list to which one has been added. -/
theorem getElem?_snoc {α : Type} {xs : List α} {x y : α} {i : Nat}
    (h : (xs ++ [x])[i]? = some y) : xs[i]? = some y ∨ i = xs.length ∧ y = x := by
  rcases Nat.lt_or_ge i xs.length with hlt | hge
  · rw [List.getElem?_append_left hlt] at h
    exact .inl h
  · rw [List.getElem?_append_right hge, List.getElem?_singleton] at h
    split at h
    · exact .inr ⟨by omega, (Option.some.inj h).symm⟩
    · cases h

/-- Later results are not what a step was given. -/
theorem inputOf_snoc {results : List Json} {result : Json} {i : Nat} (h : i ≤ results.length) :
    inputOf (results ++ [result]) i = inputOf results i := by
  cases i with
  | zero => rfl
  | succ i => exact List.getElem?_append_left h

/-- The last result is what the next step is given. -/
theorem inputOf_last (results : List Json) (result : Json) :
    inputOf (results ++ [result]) (results.length + 1) = some result := by
  rw [inputOf, List.getElem?_concat_length]

/-- The first of the steps from `n` on is step `n`. -/
theorem getElem?_of_drop {n : Nat} {sig : Signature} {rest : List Signature}
    (h : sig :: rest = leaves.drop n) : leaves[n]? = some sig ∧ rest = leaves.drop (n + 1) := by
  constructor
  · rw [← Nat.add_zero n, ← List.getElem?_drop, ← h]
    rfl
  · rw [← List.tail_drop, ← h]
    rfl

/-- Where a history stands at a phase. -/
def ChainPhase.At (leaves : List Signature) (es : List ChainEvent) : ChainPhase → Prop
  | .next todo input =>
      todo = leaves.drop (createdSteps es).length ∧
        (createdSteps es).length = (succeededSteps es).length ∧
        input = inputOf ((succeededSteps es).map Prod.snd) (createdSteps es).length
  | .running m rest =>
      rest = leaves.drop (createdSteps es).length ∧
        (createdSteps es).length = (succeededSteps es).length + 1 ∧
        (createdSteps es).getLast? = some m
  | .dead => (createdSteps es).length = (succeededSteps es).length + 1

/-- What a history at a phase has been. -/
structure ChainTracked (codec : Codec) (id : String) (leaves : List Signature)
    (es : List ChainEvent) (p : ChainPhase) : Prop where
  created : ∀ (i : Nat) (m : TaskMessage), (createdSteps es)[i]? = some m →
    ∃ sig, leaves[i]? = some sig ∧ m.StepOf codec id sig (leaves.drop (i + 1))
      (inputOf ((succeededSteps es).map Prod.snd) i)
  succeeded : ∀ (i : Nat) (x : TaskMessage) (result : Json),
    (succeededSteps es)[i]? = some (x, result) →
      ∃ m, (createdSteps es)[i]? = some m ∧ x.SameTask m
  buried : ∀ x, .buried x ∈ es → p = .dead ∧ ∃ m before, es = before ++ [.buried x] ∧
    (createdSteps es).getLast? = some m ∧ x.SameTask m
  stands : p.At leaves es

theorem chainTracked_start : ChainTracked codec id leaves [] (.next leaves none) where
  created i m h := by cases h
  succeeded i x result h := by cases h
  buried x h := by cases h
  stands := ⟨rfl, rfl, rfl⟩

theorem ChainTracked.create {sig : Signature} {rest : List Signature} {input : Option Json}
    {m : TaskMessage} (h : ChainTracked codec id leaves es (.next (sig :: rest) input))
    (hm : m.StepOf codec id sig rest input) :
    ChainTracked codec id leaves (es ++ [.created m]) (.running m rest) := by
  obtain ⟨htodo, hcount, hinput⟩ := h.stands
  obtain ⟨hsig, hrest⟩ := getElem?_of_drop htodo
  have hcreated : createdSteps (es ++ [.created m]) = createdSteps es ++ [m] :=
    createdSteps_append es [.created m]
  have hsucceeded : succeededSteps (es ++ [.created m]) = succeededSteps es := by
    rw [succeededSteps_append]
    exact List.append_nil _
  constructor
  · intro i m' hi
    rw [hcreated] at hi
    rw [hsucceeded]
    rcases getElem?_snoc hi with hold | ⟨rfl, rfl⟩
    · exact h.created i m' hold
    · refine ⟨sig, hsig, ?_⟩
      rw [← hrest, ← hinput]
      exact hm
  · intro i x result hi
    rw [hsucceeded] at hi
    obtain ⟨m', hm', hx⟩ := h.succeeded i x result hi
    refine ⟨m', ?_, hx⟩
    obtain ⟨hlt, -⟩ := List.getElem?_eq_some_iff.mp hm'
    rw [hcreated, List.getElem?_append_left hlt]
    exact hm'
  · intro x hx
    rcases List.mem_append.mp hx with hx | hx
    · exact absurd (h.buried x hx).1 (fun heq => by cases heq)
    · cases List.mem_singleton.mp hx
  · refine ⟨?_, ?_, ?_⟩
    · rw [hcreated, List.length_append]
      exact hrest
    · rw [hcreated, hsucceeded, List.length_append, hcount]
      rfl
    · rw [hcreated]
      exact List.getLast?_concat

theorem ChainTracked.succeed {m x : TaskMessage} {rest : List Signature}
    (h : ChainTracked codec id leaves es (.running m rest)) (result : Json) (hx : x.SameTask m) :
    ChainTracked codec id leaves (es ++ [.succeeded x result]) (.next rest (some result)) := by
  obtain ⟨hrest, hcount, hlast⟩ := h.stands
  have hcreated : createdSteps (es ++ [.succeeded x result]) = createdSteps es := by
    rw [createdSteps_append]
    exact List.append_nil _
  have hsucceeded : succeededSteps (es ++ [.succeeded x result]) =
      succeededSteps es ++ [(x, result)] := succeededSteps_append es [.succeeded x result]
  have hresults : (succeededSteps (es ++ [.succeeded x result])).map Prod.snd =
      (succeededSteps es).map Prod.snd ++ [result] := by
    rw [hsucceeded, List.map_append]
    rfl
  constructor
  · intro i m' hi
    rw [hcreated] at hi
    obtain ⟨sig, hsig, hm'⟩ := h.created i m' hi
    refine ⟨sig, hsig, ?_⟩
    obtain ⟨hlt, -⟩ := List.getElem?_eq_some_iff.mp hi
    rw [hresults, inputOf_snoc (by rw [List.length_map]; omega)]
    exact hm'
  · intro i y result' hi
    rw [hsucceeded] at hi
    rw [hcreated]
    rcases getElem?_snoc hi with hold | ⟨rfl, heq⟩
    · exact h.succeeded i y result' hold
    · cases heq
      rw [List.getLast?_eq_getElem?, hcount, Nat.add_sub_cancel] at hlast
      exact ⟨m, hlast, hx⟩
  · intro y hy
    rcases List.mem_append.mp hy with hy | hy
    · exact absurd (h.buried y hy).1 (fun heq => by cases heq)
    · cases List.mem_singleton.mp hy
  · refine ⟨?_, ?_, ?_⟩
    · rw [hcreated]
      exact hrest
    · rw [hcreated, hsucceeded, List.length_append]
      exact hcount
    · rw [hcreated, hresults, hcount]
      have hlength : (succeededSteps es).length = ((succeededSteps es).map Prod.snd).length :=
        (List.length_map ..).symm
      rw [hlength, inputOf_last]

theorem ChainTracked.bury {m x : TaskMessage} {rest : List Signature}
    (h : ChainTracked codec id leaves es (.running m rest)) (hx : x.SameTask m) :
    ChainTracked codec id leaves (es ++ [.buried x]) .dead := by
  obtain ⟨-, hcount, hlast⟩ := h.stands
  have hcreated : createdSteps (es ++ [.buried x]) = createdSteps es := by
    rw [createdSteps_append]
    exact List.append_nil _
  have hsucceeded : succeededSteps (es ++ [.buried x]) = succeededSteps es := by
    rw [succeededSteps_append]
    exact List.append_nil _
  constructor
  · rw [hcreated, hsucceeded]
    exact h.created
  · rw [hcreated, hsucceeded]
    exact h.succeeded
  · intro y hy
    rcases List.mem_append.mp hy with hy | hy
    · exact absurd (h.buried y hy).1 (fun heq => by cases heq)
    · cases List.mem_singleton.mp hy
      rw [hcreated]
      exact ⟨rfl, m, es, rfl, hlast, hx⟩
  · show (createdSteps (es ++ [.buried x])).length = (succeededSteps (es ++ [.buried x])).length + 1
    rw [hcreated, hsucceeded]
    exact hcount

/-- One event keeps track. -/
theorem ChainTracked.move (h : ChainTracked codec id leaves es p)
    (hmove : ChainMove codec id p e p') :
    ChainTracked codec id leaves (es ++ [e]) p' := by
  cases hmove with
  | create hm => exact h.create hm
  | succeed result hx => exact h.succeed result hx
  | bury hx => exact h.bury hx

/-- Every history keeps track. -/
theorem ChainPath.tracked (h : ChainPath codec id leaves es p) :
    ChainTracked codec id leaves es p := by
  induction h with
  | start => exact chainTracked_start
  | move _ hmove ih => exact ih.move hmove

/-- No more messages are made than there are leaves. -/
theorem ChainTracked.created_le (h : ChainTracked codec id leaves es p) :
    (createdSteps es).length ≤ leaves.length := by
  by_contra hlt
  obtain ⟨sig, hsig, -⟩ := h.created leaves.length _
    (List.getElem?_eq_getElem (by omega))
  rw [List.getElem?_eq_none (le_refl _)] at hsig
  cases hsig

theorem ChainTracked.pending_suffix (h : ChainTracked codec id leaves es p) :
    p.pending <:+ leaves := by
  cases p with
  | next todo input => exact h.stands.1 ▸ List.drop_suffix _ _
  | running m rest => exact h.stands.1 ▸ List.drop_suffix _ _
  | dead => exact List.nil_suffix

/-- Nothing is left to be made: all steps have succeeded, or one has been buried. -/
def ChainPhase.Over : ChainPhase → Prop
  | .next todo _ => todo = []
  | .running _ _ => False
  | .dead => True

/-- Unless a message is about to be made, one has been made for every step that has
succeeded and for the one behind them. -/
theorem ChainTracked.created_eq (h : ChainTracked codec id leaves es p)
    (hp : p.Over ∨ ∃ m rest, p = .running m rest) :
    (createdSteps es).length = min ((succeededSteps es).length + 1) leaves.length := by
  have hle := h.created_le
  have hstands := h.stands
  cases p with
  | next todo input =>
      obtain ⟨htodo, hcount, -⟩ := hstands
      have hall : leaves.length ≤ (createdSteps es).length := by
        rcases hp with hover | ⟨m, rest, heq⟩
        · exact List.drop_eq_nil_iff.mp (htodo.symm.trans hover)
        · cases heq
      omega
  | running m rest =>
      have hcount := hstands.2.1
      omega
  | dead =>
      have hcount : (createdSteps es).length = (succeededSteps es).length + 1 := hstands
      omega

/-- Histories that go from phase to phase are faithful. -/
theorem ChainTracked.faithful (h : ChainTracked codec id leaves es p) :
    ChainFaithful codec id leaves es where
  created := h.created
  succeeded := h.succeeded
  inOrder := by
    refine List.prefix_iff_getElem?.mpr fun i hi => ?_
    rw [List.length_map] at hi
    obtain ⟨m, hm, hx⟩ := h.succeeded i (succeededSteps es)[i].1 (succeededSteps es)[i].2
      (List.getElem?_eq_getElem hi)
    obtain ⟨sig, hsig, hstep⟩ := h.created i m hm
    rw [List.getElem?_map, hsig, List.getElem_map]
    exact congrArg some (hstep.copy hx).task.symm
  counts := by
    have hat := h.stands
    cases p with
    | next todo input => exact ⟨hat.2.1.ge, hat.2.1 ▸ Nat.le_succ _⟩
    | running m rest => exact ⟨hat.2.1 ▸ Nat.le_succ _, hat.2.1.le⟩
    | dead => exact ⟨Nat.le_of_succ_le hat.ge, hat.le⟩
  buried x hx := by
    obtain ⟨rfl, m, before, hes, hlast, hsame⟩ := h.buried x hx
    exact ⟨m, before, hes, hlast, hsame, h.stands⟩

end Tracked

end Kojin.Core
