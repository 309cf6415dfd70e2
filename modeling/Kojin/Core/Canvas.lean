/-
  Core/Canvas.lean --- workflows and their submission (`kojin-core`:
  `canvas.rs`).

  A canvas is a single task, a chain, a group or a chord.  `Canvas.apply` sends
  its first messages to the broker: a single task or the head of a chain at once,
  the members of a group or chord one after the other, after the group has been
  announced to the result backend.  Members are already being executed while
  later ones are still on their way.

  The second half of the file names the stages of a submission, as
  `Core/Lifecycle.lean` does for an execution.
-/
import Kojin.Core.Worker

set_option autoImplicit false

namespace Kojin.Core

open Kojin.Foundation

/-- `Canvas`. -/
inductive Canvas where
  | single (sig : Signature)
  | chain (steps : List Canvas)
  | group (members : List Canvas)
  | chord (group : List Canvas) (callback : Canvas)

/-- `WorkflowHandle`. -/
structure WorkflowHandle where
  id : String
  taskIds : List TaskId

namespace Canvas

mutual

/-- One step of a chain.  A nested group or chord is skipped. -/
def flattenStep : Canvas → List Signature
  | .single sig => [sig]
  | .chain inner => flattenChain inner
  | .group _ => []
  | .chord _ _ => []

/-- `Canvas::flatten_chain`. -/
def flattenChain : List Canvas → List Signature
  | [] => []
  | step :: steps => flattenStep step ++ flattenChain steps

end

/-- `Canvas::flatten_group`.  Only single tasks are kept. -/
def flattenGroup : List Canvas → List Signature
  | [] => []
  | .single sig :: members => sig :: flattenGroup members
  | _ :: members => flattenGroup members

/-- A group of single tasks is its signatures. -/
theorem flattenGroup_map_single (sigs : List Signature) :
    flattenGroup (sigs.map .single) = sigs := by
  induction sigs with
  | nil => rfl
  | cons sig sigs ih =>
      rw [List.map_cons, flattenGroup, ih]

/-! ## Submission -/

/-- How a submission turns a signature into a message, given a clock reading and a
fresh identifier. -/
abbrev Make : Type := Signature → DateTime → TaskId → TaskMessage

/-- The message of a single task. -/
def lone (correlation : String) : Make := fun sig now id =>
  { sig.intoMessage now id with correlationId := some correlation }

/-- The first message of a chain, with the other steps in its header. -/
def chainHead (codec : Codec) (correlation : String) (remaining : List Signature) : Make :=
  fun sig now id =>
    let m := lone correlation sig now id
    if remaining.isEmpty then m
    else m.insertHeader "kojin.chain_next" (encodeSignatures codec.rfc3339 remaining)

/-- The message of a group member, or of a chord member when there is a callback. -/
def member (correlation group : String) (total : UInt32) (callback : Option TaskMessage) :
    Make := fun sig now id =>
  { sig.intoMessage now id with
    correlationId := some correlation
    groupId := some group
    groupTotal := some total
    chordCallback := callback }

/-- Make and enqueue one message per signature; stop at the first that the broker
refuses. -/
def enqueueEach (make : Make) : List Signature → Prog traits (TaskResult (List TaskId))
  | [] => pure (.ok [])
  | sig :: rest => do
      let now ← runtime .utcNow
      let id ← runtime .newTaskId
      match ← broker (.enqueue (make sig now id)) with
      | .error e => pure (.error e)
      | .ok _ => do
          let ids ← enqueueEach make rest
          pure (ids.map (id :: ·))

/-- One signature of a submission: it is made into a message and enqueued, and the
others follow if the broker takes it. -/
theorem enqueueEach_trace {make : Make} {sig : Signature} {rest : List Signature}
    {tr : List (Event traits)} {out : TaskResult (List TaskId)}
    (h : Prog.Trace (enqueueEach make (sig :: rest)) tr out) :
    ∃ now id r tail, tr = ⟨.runtime .utcNow, now⟩ :: ⟨.runtime .newTaskId, id⟩ ::
        ⟨.broker (.enqueue (make sig now id)), r⟩ :: tail ∧
      ((∃ e, r = .error e ∧ tail = [] ∧ out = .error e) ∨
        (r = .ok () ∧ ∃ ids, Prog.Trace (enqueueEach make rest) tail ids ∧
          out = ids.map (id :: ·))) := by
  obtain ⟨now, tr₁, rfl, h₁⟩ := Prog.trace_call_iff.mp h
  obtain ⟨id, tr₂, rfl, h₂⟩ := Prog.trace_call_iff.mp h₁
  obtain ⟨r, tail, rfl, h₃⟩ := Prog.trace_call_iff.mp h₂
  refine ⟨now, id, r, tail, rfl, ?_⟩
  cases r with
  | error e =>
      obtain ⟨rfl, rfl⟩ := Prog.trace_ret_iff.mp
        (show Prog.Trace (.ret (.error e)) tail out from h₃)
      exact .inl ⟨e, rfl, rfl, rfl⟩
  | ok _ =>
      obtain ⟨tr₄, tr₅, ids, rfl, h₄, h₅⟩ := Prog.trace_bind_iff.mp
        (show Prog.Trace (enqueueEach make rest >>= fun ids =>
          (.ret (ids.map (id :: ·)) : Prog traits _)) tail out from h₃)
      obtain ⟨rfl, rfl⟩ := Prog.trace_ret_iff.mp h₅
      rw [List.append_nil]
      exact .inr ⟨rfl, ids, h₄, rfl⟩

/-- `sigs.len() as u32`: the low 32 bits. -/
def groupTotal (sigs : List Signature) : UInt32 := UInt32.ofNat sigs.length

/-- The chord arm, once the group is announced: make the callback message, then
enqueue the members.  A callback that flattens to nothing ends the submission. -/
def applyChord (correlation group : String) (sigs : List Signature) :
    List Signature → Prog traits (TaskResult (List TaskId))
  | [] => pure (.ok [])
  | callback :: _ => do
      let now ← runtime .utcNow
      let id ← runtime .newTaskId
      enqueueEach
        (member correlation group (groupTotal sigs) (some (callback.intoMessage now id))) sigs

/-- `Canvas::apply_inner`, with the identifiers it pushes to `task_ids`. -/
def applyInner (codec : Codec) (correlation : String) :
    Canvas → Prog traits (TaskResult (List TaskId))
  | .single sig => enqueueEach (lone correlation) [sig]
  | .chain steps =>
      match flattenChain steps with
      | [] => pure (.ok [])
      | sig :: remaining => enqueueEach (chainHead codec correlation remaining) [sig]
  | .group members => do
      let group ← runtime .newUuid
      let sigs := flattenGroup members
      match ← backend (.initGroup group.toText (groupTotal sigs)) with
      | .error e => pure (.error e)
      | .ok _ => enqueueEach (member correlation group.toText (groupTotal sigs) none) sigs
  | .chord members callback => do
      let group ← runtime .newUuid
      let sigs := flattenGroup members
      match ← backend (.initGroup group.toText (groupTotal sigs)) with
      | .error e => pure (.error e)
      | .ok _ => applyChord correlation group.toText sigs (flattenChain [callback])

/-- `Canvas::apply`. -/
def apply (codec : Codec) (c : Canvas) : Prog traits (TaskResult WorkflowHandle) := do
  let correlation ← runtime .newUuid
  let ids ← c.applyInner codec correlation.toText
  pure (ids.map (⟨correlation.toText, ·⟩))

/-- A client that submits a workflow and drops the handle. -/
def submit (codec : Codec) (c : Canvas) : Prog traits Unit := do
  let _ ← c.apply codec
  pure ()

/-! ## The stages of a submission -/

/-- How far a submission has come.  `feeding` has these signatures still to
enqueue; `over` has stopped before the end. -/
inductive Submission where
  | fresh (c : Canvas)
  | grouping (correlation : String) (sigs : List Signature) (callback : Option (List Signature))
  | opening (correlation : String) (group : TaskId) (sigs : List Signature)
      (callback : Option (List Signature))
  | opened (correlation : String) (group : TaskId) (sigs : List Signature) (callback : Signature)
  | dated (correlation : String) (group : TaskId) (sigs : List Signature) (callback : Signature)
      (now : DateTime)
  | feeding (make : Make) (sigs : List Signature)
  | stamping (make : Make) (sig : Signature) (rest : List Signature) (now : DateTime)
  | sending (m : TaskMessage) (make : Make) (rest : List Signature)
  | over

/-- The stage after the correlation identifier is known. -/
def begun (codec : Codec) (correlation : String) : Canvas → Submission
  | .single sig => .feeding (lone correlation) [sig]
  | .chain steps =>
      match flattenChain steps with
      | [] => .over
      | sig :: remaining => .feeding (chainHead codec correlation remaining) [sig]
  | .group members => .grouping correlation (flattenGroup members) none
  | .chord members callback =>
      .grouping correlation (flattenGroup members) (some (flattenChain [callback]))

/-- The stage after the group has been announced. -/
def announced (correlation : String) (group : TaskId) (sigs : List Signature) :
    Option (List Signature) → Submission
  | none => .feeding (member correlation group.toText (groupTotal sigs) none) sigs
  | some [] => .over
  | some (callback :: _) => .opened correlation group sigs callback

/-- Which call leads from which stage to which. -/
inductive Submission.Step (codec : Codec) :
    Submission → (op : traits.Op) → traits.Res op → Submission → Prop where
  | tag (c : Canvas) (u : TaskId) :
      Step codec (.fresh c) (.runtime .newUuid) u (begun codec u.toText c)
  | group (correlation : String) (sigs : List Signature) (callback : Option (List Signature))
      (u : TaskId) :
      Step codec (.grouping correlation sigs callback) (.runtime .newUuid) u
        (.opening correlation u sigs callback)
  | announce (correlation : String) (group : TaskId) (sigs : List Signature)
      (callback : Option (List Signature)) :
      Step codec (.opening correlation group sigs callback)
        (.backend (.initGroup group.toText (groupTotal sigs))) (.ok ())
        (announced correlation group sigs callback)
  | refuse (correlation : String) (group : TaskId) (sigs : List Signature)
      (callback : Option (List Signature)) (e : KojinError) :
      Step codec (.opening correlation group sigs callback)
        (.backend (.initGroup group.toText (groupTotal sigs))) (.error e) .over
  | date (correlation : String) (group : TaskId) (sigs : List Signature) (callback : Signature)
      (now : DateTime) :
      Step codec (.opened correlation group sigs callback) (.runtime .utcNow) now
        (.dated correlation group sigs callback now)
  | callback (correlation : String) (group : TaskId) (sigs : List Signature)
      (callback : Signature) (now : DateTime) (id : TaskId) :
      Step codec (.dated correlation group sigs callback now) (.runtime .newTaskId) id
        (.feeding
          (member correlation group.toText (groupTotal sigs) (some (callback.intoMessage now id)))
          sigs)
  | stamp (make : Make) (sig : Signature) (rest : List Signature) (now : DateTime) :
      Step codec (.feeding make (sig :: rest)) (.runtime .utcNow) now (.stamping make sig rest now)
  | make (make : Make) (sig : Signature) (rest : List Signature) (now : DateTime) (id : TaskId) :
      Step codec (.stamping make sig rest now) (.runtime .newTaskId) id
        (.sending (make sig now id) make rest)
  | send (m : TaskMessage) (make : Make) (rest : List Signature) :
      Step codec (.sending m make rest) (.broker (.enqueue m)) (.ok ()) (.feeding make rest)
  | abort (m : TaskMessage) (make : Make) (rest : List Signature) (e : KojinError) :
      Step codec (.sending m make rest) (.broker (.enqueue m)) (.error e) .over

/-- Where a submission may stop. -/
def Submission.Final : Submission → Prop
  | .feeding _ [] => True
  | .over => True
  | _ => False

/-- The protocol of `Canvas.apply`. -/
abbrev submission (codec : Codec) : Protocol traits :=
  ⟨Submission, Submission.Step codec, Submission.Final⟩

/-! ## The code follows the protocol -/

variable {codec : Codec}

theorem enqueueEach_wp (make : Make) (sigs : List Signature) :
    (enqueueEach make sigs).wp (submission codec) (.feeding make sigs)
      fun _ u => Submission.Final u := by
  induction sigs with
  | nil => trivial
  | cons sig rest ih =>
      intro now
      refine ⟨.stamping make sig rest now, .stamp make sig rest now, ?_⟩
      intro id
      refine ⟨.sending (make sig now id) make rest, .make make sig rest now id, ?_⟩
      intro r
      cases r with
      | error e => exact ⟨.over, .abort _ make rest e, trivial⟩
      | ok _ =>
          refine ⟨.feeding make rest, .send _ make rest, ?_⟩
          refine Prog.wp_seq (p := enqueueEach make rest) ih ?_
          intro ids u hu
          exact hu

/-- The chord arm after the announcement. -/
theorem applyChord_wp (correlation : String) (group : TaskId) (sigs callback : List Signature) :
    (applyChord correlation group.toText sigs callback).wp (submission codec)
      (announced correlation group sigs (some callback)) fun _ u => Submission.Final u := by
  cases callback with
  | nil => trivial
  | cons callback rest =>
      intro now
      refine ⟨.dated correlation group sigs callback now,
        .date correlation group sigs callback now, ?_⟩
      intro id
      refine ⟨_, .callback correlation group sigs callback now id, ?_⟩
      exact enqueueEach_wp _ sigs

theorem applyInner_wp (correlation : String) (c : Canvas) :
    (c.applyInner codec correlation).wp (submission codec) (begun codec correlation c)
      fun _ u => Submission.Final u := by
  cases c with
  | single sig => exact enqueueEach_wp _ [sig]
  | chain steps =>
      simp only [applyInner, begun]
      cases flattenChain steps with
      | nil => trivial
      | cons sig remaining => exact enqueueEach_wp _ [sig]
  | group members =>
      intro group
      refine ⟨_, .group correlation (flattenGroup members) none group, ?_⟩
      intro r
      cases r with
      | error e => exact ⟨.over, .refuse correlation group _ none e, trivial⟩
      | ok _ =>
          exact ⟨_, .announce correlation group _ none, enqueueEach_wp _ (flattenGroup members)⟩
  | chord members callback =>
      intro group
      refine ⟨_, .group correlation (flattenGroup members) (some (flattenChain [callback])) group,
        ?_⟩
      intro r
      cases r with
      | error e => exact ⟨.over, .refuse correlation group _ _ e, trivial⟩
      | ok _ => exact ⟨_, .announce correlation group _ _, applyChord_wp correlation group _ _⟩

theorem apply_wp (c : Canvas) :
    (c.apply codec).wp (submission codec) (.fresh c) fun _ u => Submission.Final u := by
  intro u
  refine ⟨begun codec u.toText c, .tag c u, ?_⟩
  refine Prog.wp_seq (p := c.applyInner codec u.toText) (applyInner_wp u.toText c) ?_
  intro ids t ht
  exact ht

/-- A submission follows the protocol, whatever the broker and the backend
answer. -/
theorem submit_follows (c : Canvas) : (c.submit codec).Follows (submission codec) (.fresh c) := by
  refine Prog.wp_seq (apply_wp c) ?_
  intro handle t ht
  exact ht

end Canvas

end Kojin.Core
