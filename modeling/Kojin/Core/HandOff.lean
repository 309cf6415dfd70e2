/-
  Core/HandOff.lean --- what one execution leaves behind.

  An execution talks to the broker and the result backend in up to a dozen calls,
  any of which may be answered with an error; errors are logged and passed over.
  This file reads off the trace of a finished execution what became of its
  message: acknowledged, put back, buried, postponed; and what became of the
  messages it owed: the next step of a chain, the callback of a chord.

  A call that is answered with an error has left the broker as it was.  So the
  message is lost when its acknowledgement was accepted and a follow-up it owed
  was not.  `handed_off_iff` says exactly when that does not happen: the success
  path sends what is on its bill, one call per message, and a bill is paid in full
  exactly when no call was refused.
-/
import Kojin.Core.Lifecycle

set_option autoImplicit false

namespace Kojin.Core

open Kojin.Foundation

/-! ## What a trace shows -/

section Trace

/-- The acknowledgements the broker accepted. -/
def acks (tr : List (Event traits)) : List TaskId :=
  tr.filterMap fun
    | ⟨.broker (.ack id), .ok _⟩ => some id
    | _ => none

/-- The messages it accepted. -/
def accepted (tr : List (Event traits)) : List TaskMessage :=
  tr.filterMap fun
    | ⟨.broker (.enqueue m), .ok _⟩ => some m
    | _ => none

/-- The messages it accepted to schedule. -/
def scheduled (tr : List (Event traits)) : List (TaskMessage × DateTime) :=
  tr.filterMap fun
    | ⟨.broker (.schedule m eta), .ok _⟩ => some (m, eta)
    | _ => none

/-- The result of the handler, if this is its call. -/
def handledResult : Event traits → Option Json
  | ⟨.runtime (.handle _ _ _), .ok result⟩ => some result
  | _ => none

/-- The results of the handler. -/
def handled (tr : List (Event traits)) : List Json := tr.filterMap handledResult

/-- A call for a follow-up that was answered with an error.  The completion of a
member is one when a callback depends on it. -/
def isRefusal (due : Bool) : Event traits → Bool
  | ⟨.broker (.enqueue _), .error _⟩ => true
  | ⟨.broker (.schedule _ _), .error _⟩ => true
  | ⟨.backend (.completeGroupMember _ _ _), .error _⟩ => due
  | _ => false

/-- The counts the backend answered to completions. -/
def counts (tr : List (Event traits)) : List UInt32 :=
  tr.filterMap fun
    | ⟨.backend (.completeGroupMember _ _ _), .ok c⟩ => some c
    | _ => none

end Trace

/-! ## What a message owes -/

/-- The callback a member owes when it is the last of its group. -/
def TaskMessage.owedCallback (m : TaskMessage) (last : Bool) : Option TaskMessage :=
  if last = true ∧ m.groupId.isSome then m.chordCallback else none

/-- The chain step a message owes after a run with this result. -/
def TaskMessage.owedStep (codec : Codec) (m : TaskMessage) (result : Json) (now : DateTime)
    (id : TaskId) : Option TaskMessage :=
  (codec.chainNext m).map fun next => m.chainStep codec result next.1 next.2 now id

/-- The follow-ups of a successful run, in the order they are sent.  The callback
carries whatever results could be read. -/
def TaskMessage.Owes (codec : Codec) (m : TaskMessage) (last : Bool) (result : Json)
    (ms : List TaskMessage) : Prop :=
  ∃ results now id, ms = ((m.owedCallback last).map (·.withGroupResults results)).toList ++
    (m.owedStep codec result now id).toList

/-- How many they are. -/
def TaskMessage.debt (codec : Codec) (m : TaskMessage) (last : Bool) : Nat :=
  (m.owedCallback last).toList.length + (codec.chainNext m).toList.length

theorem TaskMessage.Owes.length_eq {codec : Codec} {m : TaskMessage} {last : Bool} {result : Json}
    {ms : List TaskMessage} (h : m.Owes codec last result ms) : ms.length = m.debt codec last := by
  obtain ⟨results, now, id, rfl⟩ := h
  unfold TaskMessage.debt TaskMessage.owedStep
  cases m.owedCallback last <;> cases codec.chainNext m <;> rfl

/-! ## Calls that have no part in the account -/

/-- Not the call of a handler. -/
def HandlerFree : traits.Op → Prop
  | .runtime (.handle _ _ _) => False
  | _ => True

/-- Not a call for a follow-up either. -/
def Quiet : traits.Op → Prop
  | .broker (.enqueue _) => False
  | .broker (.schedule _ _) => False
  | .backend (.completeGroupMember _ _ _) => False
  | op => HandlerFree op

theorem handledResult_of_handlerFree {e : Event traits} (h : HandlerFree e.op) :
    handledResult e = none := by
  rcases e with ⟨op, r⟩
  cases op with
  | runtime op => cases op with
    | handle x n p => exact h.elim
    | _ => rfl
  | broker op => rfl
  | backend op => rfl

theorem handled_of_handlerFree {tr : List (Event traits)} (h : ∀ e ∈ tr, HandlerFree e.op) :
    handled tr = [] :=
  List.filterMap_eq_nil_iff.mpr fun e he => handledResult_of_handlerFree (h e he)

theorem Quiet.handlerFree {op : traits.Op} (h : Quiet op) : HandlerFree op := by
  unfold Quiet at h
  split at h
  · exact h.elim
  · exact h.elim
  · exact h.elim
  · exact h

theorem accepted_of_quiet {tr : List (Event traits)} (h : ∀ e ∈ tr, Quiet e.op) :
    accepted tr = [] := by
  refine List.filterMap_eq_nil_iff.mpr ?_
  intro e he
  have hop := h e he
  rcases e with ⟨op, r⟩
  cases op with
  | runtime op => rfl
  | broker op => cases op with
    | enqueue m => exact hop.elim
    | _ => rfl
  | backend op => rfl

theorem scheduled_of_quiet {tr : List (Event traits)} (h : ∀ e ∈ tr, Quiet e.op) :
    scheduled tr = [] := by
  refine List.filterMap_eq_nil_iff.mpr ?_
  intro e he
  have hop := h e he
  rcases e with ⟨op, r⟩
  cases op with
  | runtime op => rfl
  | broker op => cases op with
    | schedule m eta => exact hop.elim
    | _ => rfl
  | backend op => rfl

theorem isRefusal_of_quiet {due : Bool} {e : Event traits} (h : Quiet e.op) :
    isRefusal due e = false := by
  rcases e with ⟨op, r⟩
  cases op with
  | runtime op => rfl
  | broker op => cases op with
    | enqueue m => exact h.elim
    | schedule m eta => exact h.elim
    | _ => rfl
  | backend op => cases op with
    | completeGroupMember g i x => exact h.elim
    | _ => rfl

theorem logError_quiet (r : TaskResult Unit) (event : KojinError → TraceEvent) :
    (logError r event).Calls Quiet := by
  cases r with
  | ok _ => trivial
  | error e => exact ⟨trivial, fun _ => trivial⟩

theorem runOnError_quiet (m : TaskMessage) (e : KojinError) (mws : List Nat) :
    (runOnError m e mws).Calls Quiet := by
  induction mws with
  | nil => trivial
  | cons mw rest ih => exact ⟨trivial, fun r => (logError_quiet r _).bind fun _ => ih⟩

theorem runAfter_quiet (m : TaskMessage) (result : Json) (mws : List Nat) :
    (runAfter m result mws).Calls Quiet := by
  induction mws with
  | nil => trivial
  | cons mw rest ih => exact ⟨trivial, fun r => (logError_quiet r _).bind fun _ => ih⟩

theorem runBefore_quiet (m : TaskMessage) (mws : List Nat) : (runBefore m mws).Calls Quiet := by
  induction mws with
  | nil => trivial
  | cons mw rest ih =>
      refine ⟨trivial, ?_⟩
      intro r
      cases r with
      | ok _ => exact ih
      | error e => trivial

/-- A failed execution gives its own message back and sends no other. -/
theorem handleFailure_quiet (w : Worker) (m : TaskMessage) (e : KojinError) :
    (handleFailure w m e).Calls Quiet := by
  refine (runOnError_quiet m e w.middlewares).bind fun _ => ?_
  split
  · exact ⟨trivial, fun _ => ⟨trivial, fun _ => ⟨trivial, fun _ => ⟨trivial, fun r =>
      logError_quiet r _⟩⟩⟩⟩
  · exact ⟨trivial, fun _ => ⟨trivial, fun _ => ⟨trivial, fun r => logError_quiet r _⟩⟩⟩

/-! ## Bills -/

/-- What is to be sent: how many messages, and which. -/
structure Bill where
  size : Nat
  settled : List TaskMessage → Prop
  length_eq : ∀ ms, settled ms → ms.length = size

namespace Bill

/-- One bill after the other. -/
def append (a b : Bill) : Bill where
  size := a.size + b.size
  settled ms := ∃ xs ys, ms = xs ++ ys ∧ a.settled xs ∧ b.settled ys
  length_eq := by
    rintro ms ⟨xs, ys, rfl, hxs, hys⟩
    rw [List.length_append, a.length_eq xs hxs, b.length_eq ys hys]

/-- The trace pays the bill, up to the calls that were answered with an error. -/
structure Pays (bill : Bill) (due : Bool) (tr : List (Event traits)) : Prop where
  le : (accepted tr).length ≤ bill.size
  full : (∀ e ∈ tr, isRefusal due e = false) → bill.settled (accepted tr)
  short : (∃ e ∈ tr, isRefusal due e = true) → (accepted tr).length < bill.size

/-- A bill is paid exactly when no call was refused. -/
theorem Pays.settled_iff {bill : Bill} {due : Bool} {tr : List (Event traits)}
    (h : bill.Pays due tr) :
    bill.settled (accepted tr) ↔ ∀ e ∈ tr, isRefusal due e = false := by
  refine ⟨?_, h.full⟩
  intro hsettled e he
  cases hr : isRefusal due e with
  | false => rfl
  | true =>
      have hshort := h.short ⟨e, he, hr⟩
      rw [bill.length_eq _ hsettled] at hshort
      exact absurd hshort (Nat.lt_irrefl _)

/-- Quiet calls pay an empty bill. -/
theorem pays_of_quiet {bill : Bill} {due : Bool} {tr : List (Event traits)}
    (hnil : bill.settled []) (h : ∀ e ∈ tr, Quiet e.op) : bill.Pays due tr := by
  have hsize : bill.size = 0 := (bill.length_eq [] hnil).symm
  refine ⟨?_, ?_, ?_⟩
  · rw [accepted_of_quiet h]
    exact Nat.zero_le _
  · intro _
    rw [accepted_of_quiet h]
    exact hnil
  · rintro ⟨e, he, hr⟩
    rw [isRefusal_of_quiet (h e he)] at hr
    cases hr

theorem Pays.append {a b : Bill} {due : Bool} {tr tr' : List (Event traits)}
    (ha : a.Pays due tr) (hb : b.Pays due tr') : (a.append b).Pays due (tr ++ tr') := by
  have hlength : accepted (tr ++ tr') = accepted tr ++ accepted tr' := List.filterMap_append
  have hle := ha.le
  have hle' := hb.le
  refine ⟨?_, ?_, ?_⟩
  · rw [hlength, List.length_append]
    exact Nat.add_le_add hle hle'
  · intro h
    rw [hlength]
    refine ⟨_, _, rfl, ha.full fun e he => ?_, hb.full fun e he => ?_⟩
    · exact h e (List.mem_append.mpr (.inl he))
    · exact h e (List.mem_append.mpr (.inr he))
  · rintro ⟨e, he, hr⟩
    rw [hlength, List.length_append]
    rcases List.mem_append.mp he with he | he
    · exact Nat.add_lt_add_of_lt_of_le (ha.short ⟨e, he, hr⟩) hle'
    · exact Nat.add_lt_add_of_le_of_lt hle (hb.short ⟨e, he, hr⟩)

/-- Quiet calls before and after a payment change nothing. -/
theorem Pays.surround {bill : Bill} {due : Bool} {tr : List (Event traits)}
    (h : bill.Pays due tr) (before after : List (Event traits))
    (hbefore : ∀ e ∈ before, Quiet e.op) (hafter : ∀ e ∈ after, Quiet e.op) :
    bill.Pays due (before ++ tr ++ after) := by
  have hacc : accepted (before ++ tr ++ after) = accepted tr := by
    unfold accepted
    rw [List.filterMap_append, List.filterMap_append]
    show accepted before ++ accepted tr ++ accepted after = accepted tr
    rw [accepted_of_quiet hbefore, accepted_of_quiet hafter, List.append_nil, List.nil_append]
  refine ⟨hacc ▸ h.le, ?_, ?_⟩
  · intro hnone
    rw [hacc]
    apply h.full
    intro e he
    exact hnone e (List.mem_append.mpr (.inl (List.mem_append.mpr (.inr he))))
  · rintro ⟨e, he, hr⟩
    rw [hacc]
    apply h.short
    rcases List.mem_append.mp he with he | he
    · rcases List.mem_append.mp he with he | he
      · rw [isRefusal_of_quiet (hbefore e he)] at hr
        cases hr
      · exact ⟨e, he, hr⟩
    · rw [isRefusal_of_quiet (hafter e he)] at hr
      cases hr

/-- A call that sends nothing and was not refused. -/
theorem Pays.skip {bill : Bill} {due : Bool} {tr : List (Event traits)} (e : Event traits)
    (hsent : accepted [e] = []) (hr : isRefusal due e = false) (h : bill.Pays due tr) :
    bill.Pays due (e :: tr) := by
  have hacc : accepted (e :: tr) = accepted tr := by
    show accepted ([e] ++ tr) = accepted tr
    rw [accepted, List.filterMap_append]
    show accepted [e] ++ accepted tr = accepted tr
    rw [hsent, List.nil_append]
  refine ⟨hacc ▸ h.le, ?_, ?_⟩
  · intro hnone
    rw [hacc]
    exact h.full fun x hx => hnone x (List.mem_cons_of_mem e hx)
  · rintro ⟨x, hx, hxr⟩
    rw [hacc]
    rcases List.mem_cons.mp hx with rfl | hx
    · rw [hr] at hxr
      cases hxr
    · exact h.short ⟨x, hx, hxr⟩

/-- One message, sent by one call. -/
theorem pays_enqueue {bill : Bill} {due : Bool} {m : TaskMessage} (hbill : bill.settled [m])
    (r : TaskResult Unit) : bill.Pays due [⟨.broker (.enqueue m), r⟩] := by
  have hsize : bill.size = 1 := (bill.length_eq [m] hbill).symm
  cases r with
  | ok _ =>
      refine ⟨Nat.le_of_eq hsize.symm, fun _ => hbill, ?_⟩
      rintro ⟨e, he, hr⟩
      obtain rfl := List.mem_singleton.mp he
      cases hr
  | error e =>
      refine ⟨Nat.zero_le _, fun h => ?_, fun _ => ?_⟩
      · exact absurd (h _ List.mem_cons_self) (by simp [isRefusal])
      · rw [hsize]
        exact Nat.one_pos

end Bill

/-- The next step of a chain, as a bill. -/
def stepBill (codec : Codec) (m : TaskMessage) (result : Json) : Bill where
  size := (codec.chainNext m).toList.length
  settled ms := ∃ now id, ms = (m.owedStep codec result now id).toList
  length_eq := by
    rintro ms ⟨now, id, rfl⟩
    unfold TaskMessage.owedStep
    cases codec.chainNext m <;> rfl

/-- The callback of the last member, as a bill. -/
def callbackBill (m : TaskMessage) (last : Bool) : Bill where
  size := (m.owedCallback last).toList.length
  settled ms := ∃ results, ms = ((m.owedCallback last).map (·.withGroupResults results)).toList
  length_eq := by
    rintro ms ⟨results, rfl⟩
    cases m.owedCallback last <;> rfl

/-! ## The success path pays -/

section Pay

variable {codec : Codec} {tr : List (Event traits)}

/-- Without a next step nothing is sent. -/
theorem continueChain_quiet {m : TaskMessage} (result : Json) (h : codec.chainNext m = none) :
    (continueChain codec m result).Calls Quiet := by
  unfold continueChain
  unfold Codec.chainNext at h
  split
  · trivial
  · rename_i json hlookup
    rw [hlookup] at h
    split
    · rename_i sig rest hdecode
      simp [hdecode] at h
    · trivial
    · exact ⟨trivial, fun _ => trivial⟩

theorem continueChain_pays {m : TaskMessage} {result : Json} (due : Bool)
    (h : Prog.Trace (continueChain codec m result) tr ()) :
    (stepBill codec m result).Pays due tr := by
  cases hnext : codec.chainNext m with
  | none =>
      refine Bill.pays_of_quiet ⟨⟨0⟩, ⟨0⟩, ?_⟩ ((continueChain_quiet result hnext).trace h)
      rw [TaskMessage.owedStep, hnext]
      rfl
  | some next =>
      obtain ⟨sig, rest⟩ := next
      obtain ⟨json, hlookup, hdecode⟩ := chainNext_eq_some hnext
      rw [continueChain_step result hlookup hdecode] at h
      obtain ⟨now, tr₁, rfl, h₁⟩ := trace_runtime h
      obtain ⟨id, tr₂, rfl, h₂⟩ := trace_runtime h₁
      obtain ⟨r, tr₃, rfl, h₃⟩ := trace_broker h₂
      have hbill : (stepBill codec m result).settled [m.chainStep codec result sig rest now id] := by
        refine ⟨now, id, ?_⟩
        rw [TaskMessage.owedStep, hnext]
        rfl
      have hafter : ∀ e ∈ tr₃, Quiet e.op := by
        refine Prog.Calls.trace ?_ h₃
        cases r with
        | ok _ => exact ⟨trivial, fun _ => trivial⟩
        | error e => exact ⟨trivial, fun _ => trivial⟩
      refine (Bill.pays_enqueue hbill r).surround
        [⟨.runtime .utcNow, now⟩, ⟨.runtime .newTaskId, id⟩] tr₃ ?_ hafter
      simp [Quiet, HandlerFree]

theorem enqueueCallback_pays {bill : Bill} {group : String} {callback : TaskMessage} (due : Bool)
    (hbill : ∀ results, bill.settled [callback.withGroupResults results])
    (h : Prog.Trace (enqueueCallback group callback) tr ()) : bill.Pays due tr := by
  obtain ⟨results, tr₁, rfl, h₁⟩ := trace_backend h
  obtain ⟨r, tr₂, rfl, h₂⟩ := trace_broker h₁
  have hafter : ∀ e ∈ tr₂, Quiet e.op := by
    refine Prog.Calls.trace ?_ h₂
    cases r with
    | ok _ => exact ⟨trivial, fun _ => trivial⟩
    | error e => exact ⟨trivial, fun _ => trivial⟩
  refine (Bill.pays_enqueue (hbill results) r).surround
    [⟨.backend (.getGroupResults group), results⟩] tr₂ ?_ hafter
  simp [Quiet, HandlerFree]

/-- The last member pays with its callback, the others owe nothing. -/
theorem completeGroup_pays {m : TaskMessage} {result : Json} {last : Bool}
    (hlast : ∀ c ∈ counts tr, (c = m.groupTotal.getD 0 ↔ last = true))
    (h : Prog.Trace (completeGroup m result) tr ()) :
    (callbackBill m last).Pays (m.owedCallback last).isSome tr := by
  unfold completeGroup at h
  cases hgroup : m.groupId with
  | none =>
      rw [hgroup] at h
      obtain ⟨rfl, -⟩ := Prog.trace_ret_iff.mp h
      refine Bill.pays_of_quiet ⟨.ok [], ?_⟩ (fun e he => nomatch he)
      simp [TaskMessage.owedCallback, hgroup]
  | some group =>
      rw [hgroup] at h
      obtain ⟨completed, tr₁, rfl, h₁⟩ := trace_backend h
      have howed : m.owedCallback last = if last = true then m.chordCallback else none := by
        simp [TaskMessage.owedCallback, hgroup]
      cases completed with
      | error e =>
          have hquiet : ∀ e ∈ tr₁, Quiet e.op :=
            Prog.Calls.trace (p := onMemberCompleted m group (.error e))
              ⟨trivial, fun _ => trivial⟩ h₁
          have hnil : accepted tr₁ = [] := accepted_of_quiet hquiet
          refine ⟨?_, ?_, ?_⟩
          · show (accepted tr₁).length ≤ _
            rw [hnil]
            exact Nat.zero_le _
          · intro hnone
            have hdue := hnone _ List.mem_cons_self
            have hnoCallback : m.owedCallback last = none := by simpa [isRefusal] using hdue
            refine ⟨.ok [], ?_⟩
            rw [hnoCallback]
            exact hnil
          · rintro ⟨x, hx, hr⟩
            show (accepted tr₁).length < _
            rw [hnil]
            rcases List.mem_cons.mp hx with rfl | hx
            · have hdue : (m.owedCallback last).isSome = true := hr
              obtain ⟨callback, hcallback⟩ := Option.isSome_iff_exists.mp hdue
              simp [callbackBill, hcallback]
            · rw [isRefusal_of_quiet (hquiet x hx)] at hr
              cases hr
      | ok c =>
          refine Bill.Pays.skip _ rfl rfl ?_
          have hc : c = m.groupTotal.getD 0 ↔ last = true := hlast c List.mem_cons_self
          obtain ⟨⟨⟩, tr₂, rfl, h₂⟩ := trace_runtime h₁
          have hpays : (callbackBill m last).Pays (m.owedCallback last).isSome tr₂ := by
            split at h₂
            · rename_i hcount
              have hl : last = true := hc.mp hcount
              cases hcb : m.chordCallback with
              | none =>
                  rw [hcb] at h₂
                  obtain ⟨rfl, -⟩ := Prog.trace_ret_iff.mp h₂
                  refine Bill.pays_of_quiet ⟨.ok [], ?_⟩ (fun e he => nomatch he)
                  rw [howed, if_pos hl, hcb]
                  rfl
              | some callback =>
                  rw [hcb] at h₂
                  refine enqueueCallback_pays _ (fun results => ⟨results, ?_⟩) h₂
                  rw [howed, if_pos hl, hcb]
                  rfl
            · rename_i hcount
              have hl : ¬ last = true := fun hl => hcount (hc.mpr hl)
              obtain ⟨rfl, -⟩ := Prog.trace_ret_iff.mp h₂
              refine Bill.pays_of_quiet ⟨.ok [], ?_⟩ (fun e he => nomatch he)
              rw [howed, if_neg hl]
              rfl
          have hall := hpays.surround
            [⟨.runtime (.trace (.groupMemberCompleted m.id group c (m.groupTotal.getD 0))), ()⟩] []
            (by simp [Quiet, HandlerFree]) (fun e he => nomatch he)
          rwa [List.append_nil] at hall

/-- Everything a worker with a backend sends after the acknowledgement. -/
theorem followUp_pays {w : Worker} {m : TaskMessage} {result : Json} {last : Bool}
    (hw : w.hasBackend = true) (hlast : ∀ c ∈ counts tr, (c = m.groupTotal.getD 0 ↔ last = true))
    (h : Prog.Trace (followUp w codec m result) tr ()) :
    ((callbackBill m last).append (stepBill codec m result)).Pays
      (m.owedCallback last).isSome tr := by
  unfold followUp at h
  rw [if_pos hw] at h
  obtain ⟨stored, tr₁, rfl, h₁⟩ := trace_backend h
  obtain ⟨tr₂, tr₃, ⟨⟩, rfl, h₂, h₃⟩ := Prog.trace_bind_iff.mp h₁
  obtain ⟨tr₄, tr₅, ⟨⟩, rfl, h₄, h₅⟩ := Prog.trace_bind_iff.mp h₃
  have hbefore : ∀ e ∈ ⟨.backend (.store m.id result), stored⟩ :: tr₂, Quiet e.op := by
    intro e he
    rcases List.mem_cons.mp he with rfl | he
    · trivial
    · exact (logError_quiet stored _).trace h₂ e he
  have hcounts : ∀ c ∈ counts tr₄, (c = m.groupTotal.getD 0 ↔ last = true) := by
    intro c hc
    apply hlast
    show c ∈ counts (tr₂ ++ (tr₄ ++ tr₅))
    unfold counts
    rw [List.filterMap_append, List.filterMap_append]
    exact List.mem_append.mpr (.inr (List.mem_append.mpr (.inl hc)))
  have hpays := (completeGroup_pays hcounts h₄).append (continueChain_pays _ h₅)
  have hall := hpays.surround (⟨.backend (.store m.id result), stored⟩ :: tr₂) [] hbefore
    (fun e he => nomatch he)
  rwa [List.append_nil] at hall

/-- No handler is called after the acknowledgement. -/
theorem followUp_handlerFree (w : Worker) (m : TaskMessage) (result : Json) :
    (followUp w codec m result).Calls HandlerFree := by
  have hlog : ∀ (r : TaskResult Unit) (event : KojinError → TraceEvent),
      (logError r event).Calls HandlerFree := fun r event =>
    (logError_quiet r event).mono fun _ => Quiet.handlerFree
  have hcallback : ∀ group callback, (enqueueCallback group callback).Calls HandlerFree := by
    intro group callback
    refine ⟨trivial, fun _ => ⟨trivial, fun r => ?_⟩⟩
    cases r with
    | ok _ => exact ⟨trivial, fun _ => trivial⟩
    | error e => exact ⟨trivial, fun _ => trivial⟩
  have hgroup : (completeGroup m result).Calls HandlerFree := by
    unfold completeGroup
    split
    · trivial
    · refine ⟨trivial, fun completed => ?_⟩
      cases completed with
      | error e => exact ⟨trivial, fun _ => trivial⟩
      | ok c =>
          refine ⟨trivial, fun _ => ?_⟩
          show Prog.Calls HandlerFree (if c = m.groupTotal.getD 0 then _ else _)
          split
          · split
            · exact hcallback _ _
            · trivial
          · trivial
  have hchain : (continueChain codec m result).Calls HandlerFree := by
    cases hnext : codec.chainNext m with
    | none => exact (continueChain_quiet result hnext).mono fun _ => Quiet.handlerFree
    | some next =>
        obtain ⟨sig, rest⟩ := next
        obtain ⟨json, hlookup, hdecode⟩ := chainNext_eq_some hnext
        rw [continueChain_step result hlookup hdecode]
        refine ⟨trivial, fun _ => ⟨trivial, fun _ => ⟨trivial, fun r => ?_⟩⟩⟩
        cases r with
        | ok _ => exact ⟨trivial, fun _ => trivial⟩
        | error e => exact ⟨trivial, fun _ => trivial⟩
  unfold followUp
  split
  · exact ⟨trivial, fun r => (hlog r _).bind fun _ => hgroup.bind fun _ => hchain⟩
  · trivial

/-- The success path is its follow-ups, with quiet calls around them. -/
theorem onSuccess_trace {w : Worker} {m : TaskMessage} {result : Json}
    (h : Prog.Trace (onSuccess w codec m result) tr ()) :
    ∃ before mid after, tr = before ++ mid ++ after ∧ (∀ e ∈ before, Quiet e.op) ∧
      Prog.Trace (followUp w codec m.succeed result) mid () ∧ ∀ e ∈ after, Quiet e.op := by
  obtain ⟨tr₁, tr₂, ⟨⟩, rfl, h₁, h₂⟩ := Prog.trace_bind_iff.mp h
  obtain ⟨acked, tr₃, rfl, h₃⟩ := trace_broker h₂
  obtain ⟨tr₄, tr₅, ⟨⟩, rfl, h₄, h₅⟩ := Prog.trace_bind_iff.mp h₃
  obtain ⟨mid, after, ⟨⟩, rfl, hmid, h₆⟩ := Prog.trace_bind_iff.mp h₅
  refine ⟨tr₁ ++ ⟨.broker (.ack m.id), acked⟩ :: tr₄, mid, after, ?_, ?_, hmid, ?_⟩
  · simp
  · intro e he
    rcases List.mem_append.mp he with he | he
    · exact (runAfter_quiet m result w.middlewares).trace h₁ e he
    · rcases List.mem_cons.mp he with rfl | he
      · trivial
      · exact (logError_quiet acked _).trace h₄ e he
  · exact Prog.Calls.trace (p := log (.completed m.succeed)) ⟨trivial, fun _ => trivial⟩ h₆

end Pay

/-! ## Hand-off -/

section HandOff

/-- The guard found the eta in the future. -/
def EtaAhead (m : TaskMessage) (eta : DateTime) (tr : List (Event traits)) : Prop :=
  m.eta = some eta ∧ ∃ now rest, tr = ⟨.runtime .utcNow, now⟩ :: rest ∧ now.nanos < eta.nanos

/-- Every follow-up was accepted by the broker: the re-scheduled copy of a message
whose eta is ahead, and what a successful run owes. -/
structure FollowedUp (codec : Codec) (m : TaskMessage) (last : Bool)
    (tr : List (Event traits)) : Prop where
  rescheduled : ∀ eta, EtaAhead m eta tr → (m, eta) ∈ scheduled tr
  sent : ∀ result ∈ handled tr, m.Owes codec last result (accepted tr)

/-- Either the message was never let go, or it was followed up. -/
def HandedOff (codec : Codec) (m : TaskMessage) (last : Bool) (tr : List (Event traits)) : Prop :=
  m.id ∉ acks tr ∨ FollowedUp codec m last tr

/-- If the acknowledgement is accepted, then so is every call for a follow-up, and a
worker without a result backend has none to make. -/
def Undisturbed (w : Worker) (codec : Codec) (m : TaskMessage) (last : Bool)
    (tr : List (Event traits)) : Prop :=
  m.id ∈ acks tr → (∀ e ∈ tr, isRefusal (m.owedCallback last).isSome e = false) ∧
    (handled tr = [] ∨ w.hasBackend = true ∨ m.debt codec last = 0)

variable {w : Worker} {codec : Codec} {m : TaskMessage} {last : Bool} {tr : List (Event traits)}

/-- What the success path owes is the two bills one after the other. -/
theorem owes_iff {result : Json} {ms : List TaskMessage} :
    m.Owes codec last result ms ↔
      ((callbackBill m last).append (stepBill codec m result)).settled ms := by
  constructor
  · rintro ⟨results, now, id, rfl⟩
    exact ⟨_, _, rfl, ⟨results, rfl⟩, now, id, rfl⟩
  · rintro ⟨xs, ys, rfl, ⟨results, rfl⟩, now, id, rfl⟩
    exact ⟨results, now, id, rfl⟩

/-- A message whose eta is ahead is acknowledged and then scheduled. -/
theorem reschedule_trace {eta : DateTime} (due : Bool)
    (h : Prog.Trace (reschedule m eta) tr ()) :
    handled tr = [] ∧ ((m, eta) ∈ scheduled tr ↔ ∀ e ∈ tr, isRefusal due e = false) := by
  obtain ⟨⟨⟩, tr₁, rfl, h₁⟩ := trace_runtime h
  obtain ⟨acked, tr₂, rfl, h₂⟩ := trace_broker h₁
  obtain ⟨tr₃, tr₄, ⟨⟩, rfl, h₃, h₄⟩ := Prog.trace_bind_iff.mp h₂
  obtain ⟨r, tr₅, rfl, h₅⟩ := trace_broker h₄
  have hlog := (logError_quiet acked _).trace h₃
  have hlog' := (logError_quiet r _).trace h₅
  refine ⟨?_, ?_⟩
  · apply handled_of_handlerFree
    intro e he
    simp only [List.mem_cons, List.mem_append] at he
    rcases he with rfl | rfl | he | rfl | he
    · trivial
    · trivial
    · exact (hlog e he).handlerFree
    · trivial
    · exact (hlog' e he).handlerFree
  · have hscheduled : scheduled (⟨.runtime (.trace (.etaInFuture m.id eta)), ()⟩ ::
        ⟨.broker (.ack m.id), acked⟩ :: (tr₃ ++ ⟨.broker (.schedule m eta), r⟩ :: tr₅)) =
        scheduled [⟨.broker (.schedule m eta), r⟩] := by
      show scheduled (tr₃ ++ ([⟨.broker (.schedule m eta), r⟩] ++ tr₅)) = _
      rw [scheduled, List.filterMap_append, List.filterMap_append]
      show scheduled tr₃ ++ (scheduled [⟨.broker (.schedule m eta), r⟩] ++ scheduled tr₅) = _
      rw [scheduled_of_quiet hlog, scheduled_of_quiet hlog', List.append_nil, List.nil_append]
    rw [hscheduled]
    cases r with
    | ok _ =>
        refine iff_of_true List.mem_cons_self ?_
        intro e he
        simp only [List.mem_cons, List.mem_append] at he
        rcases he with rfl | rfl | he | rfl | he
        · rfl
        · rfl
        · exact isRefusal_of_quiet (hlog e he)
        · rfl
        · exact isRefusal_of_quiet (hlog' e he)
    | error x =>
        refine iff_of_false (fun hmem => nomatch hmem) ?_
        intro hall
        have hrefused := hall ⟨.broker (.schedule m eta), .error x⟩ (by simp)
        cases hrefused

/-- Sending nothing is right for a message that owes nothing. -/
theorem owes_nil_iff {result : Json} :
    m.Owes codec last result [] ↔ m.debt codec last = 0 := by
  constructor
  · intro h
    exact h.length_eq.symm
  · intro h
    unfold TaskMessage.debt at h
    have hcallback : m.owedCallback last = none := by
      cases hc : m.owedCallback last with
      | none => rfl
      | some c => simp [hc] at h
    have hstep : codec.chainNext m = none := by
      cases hc : codec.chainNext m with
      | none => rfl
      | some c => simp [hc] at h
    refine ⟨.ok [], ⟨0⟩, ⟨0⟩, ?_⟩
    rw [hcallback, TaskMessage.owedStep, hstep]
    rfl

/-- The success path sends what is owed exactly when no call for it was refused and
there is a backend to make them. -/
theorem onSuccess_settled {result : Json}
    (hlast : ∀ c ∈ counts tr, (c = m.groupTotal.getD 0 ↔ last = true))
    (h : Prog.Trace (onSuccess w codec m.start result) tr ()) :
    handled tr = [] ∧
      (m.Owes codec last result (accepted tr) ↔
        (∀ e ∈ tr, isRefusal (m.owedCallback last).isSome e = false) ∧
          (w.hasBackend = true ∨ m.debt codec last = 0)) := by
  obtain ⟨before, mid, after, rfl, hbefore, hmid, hafter⟩ := onSuccess_trace h
  have hhandled : handled (before ++ mid ++ after) = [] := by
    apply handled_of_handlerFree
    intro e he
    rcases List.mem_append.mp he with he | he
    · rcases List.mem_append.mp he with he | he
      · exact (hbefore e he).handlerFree
      · exact (followUp_handlerFree w m.start.succeed result).trace hmid e he
    · exact (hafter e he).handlerFree
  refine ⟨hhandled, ?_⟩
  cases hw : w.hasBackend with
  | true =>
      have hcounts : ∀ c ∈ counts mid, (c = m.groupTotal.getD 0 ↔ last = true) := by
        intro c hc
        apply hlast
        obtain ⟨e, he, heq⟩ := List.mem_filterMap.mp hc
        refine List.mem_filterMap.mpr ⟨e, ?_, heq⟩
        exact List.mem_append.mpr (.inl (List.mem_append.mpr (.inr he)))
      have hpays := (followUp_pays (m := m.start.succeed) hw hcounts hmid).surround before after hbefore hafter
      refine owes_iff.trans (hpays.settled_iff.trans ?_)
      exact (and_iff_left (.inl rfl)).symm
  | false =>
      have hquiet : ∀ e ∈ before ++ mid ++ after, Quiet e.op := by
        have hnil : mid = [] := by
          unfold followUp at hmid
          rw [hw] at hmid
          exact (Prog.trace_ret_iff.mp hmid).1
        intro e he
        rw [hnil, List.append_nil] at he
        rcases List.mem_append.mp he with he | he
        · exact hbefore e he
        · exact hafter e he
      rw [accepted_of_quiet hquiet, owes_nil_iff]
      have hnone : ∀ e ∈ before ++ mid ++ after,
          isRefusal (m.owedCallback last).isSome e = false :=
        fun e he => isRefusal_of_quiet (hquiet e he)
      exact ⟨fun h => ⟨hnone, .inr h⟩, fun h => h.2.resolve_left (fun hw => nomatch hw)⟩

/-- The call of a registered handler, answered with a result. -/
theorem dispatch_ok_trace {result : Json} (h : Prog.Trace (dispatch w m) tr (.ok result)) :
    tr = [⟨.runtime (.handle m m.taskName m.payload), .ok result⟩] := by
  unfold dispatch at h
  split at h
  · obtain ⟨r, rest, rfl, h₁⟩ := Prog.trace_call_iff.mp h
    obtain ⟨rfl, rfl⟩ := Prog.trace_ret_iff.mp h₁
    rfl
  · obtain ⟨-, hr⟩ := Prog.trace_ret_iff.mp h
    cases hr

/-- An unknown task, or the call of its handler, answered with an error. -/
theorem dispatch_error_trace {x : KojinError} (h : Prog.Trace (dispatch w m) tr (.error x)) :
    ∀ e ∈ tr, e = ⟨.runtime (.handle m m.taskName m.payload), .error x⟩ := by
  unfold dispatch at h
  split at h
  · obtain ⟨r, rest, rfl, h₁⟩ := Prog.trace_call_iff.mp h
    obtain ⟨rfl, rfl⟩ := Prog.trace_ret_iff.mp h₁
    exact fun e he => List.mem_singleton.mp he
  · obtain ⟨rfl, -⟩ := Prog.trace_ret_iff.mp h
    exact fun e he => nomatch he

/-- A failed execution has no result and sends nothing. -/
theorem failure_handedOff {due : Bool} {P : Prop} (hfree : handled tr = [])
    (hnone : ∀ e ∈ tr, isRefusal due e = false) :
    (∀ result ∈ handled tr, m.Owes codec last result (accepted tr)) ↔
      (∀ e ∈ tr, isRefusal due e = false) ∧ (handled tr = [] ∨ P) := by
  refine iff_of_true ?_ ⟨hnone, .inl hfree⟩
  intro result hresult
  rw [hfree] at hresult
  cases hresult

section Around

variable {x : TaskMessage} {taskName : String} {payload : Json} {before after : List (Event traits)} {result : Json}
  (hquiet : ∀ e ∈ before, Quiet e.op)
include hquiet

/-- Up to the answer of the handler nothing is sent. -/
theorem accepted_around : accepted (⟨.runtime (.trace (.executing m)), ()⟩ :: (before ++
    ([⟨.runtime (.handle x taskName payload), .ok result⟩] ++ after))) =
    accepted after := by
  show accepted (before ++ ([⟨.runtime (.handle x taskName payload), .ok result⟩] ++
    after)) = accepted after
  rw [accepted, List.filterMap_append]
  show accepted before ++ accepted after = accepted after
  rw [accepted_of_quiet hquiet, List.nil_append]

/-- The answer is the one result. -/
theorem handled_around : handled (⟨.runtime (.trace (.executing m)), ()⟩ :: (before ++
    ([⟨.runtime (.handle x taskName payload), .ok result⟩] ++ after))) =
    result :: handled after := by
  show handled (before ++ ([⟨.runtime (.handle x taskName payload), .ok result⟩] ++
    after)) = result :: handled after
  rw [handled, List.filterMap_append]
  show handled before ++ result :: handled after = result :: handled after
  rw [handled_of_handlerFree fun e he => (hquiet e he).handlerFree, List.nil_append]

/-- Nothing before it is refused. -/
theorem refusal_around {due : Bool} : (∀ e ∈ ⟨.runtime (.trace (.executing m)), ()⟩ :: (before ++
    ([⟨.runtime (.handle x taskName payload), .ok result⟩] ++ after)),
    isRefusal due e = false) ↔ ∀ e ∈ after, isRefusal due e = false := by
  constructor
  · intro h e he
    exact h e (by simp [he])
  · intro h e he
    simp only [List.mem_cons, List.mem_append, List.not_mem_nil, or_false] at he
    rcases he with rfl | he | rfl | he
    · rfl
    · exact isRefusal_of_quiet (hquiet e he)
    · rfl
    · exact h e he

end Around

/-- Past the eta guard nothing is left to re-schedule, so the account is that of the
success path. -/
theorem runTask_handedOff
    (hlast : ∀ c ∈ counts tr, (c = m.groupTotal.getD 0 ↔ last = true))
    (h : Prog.Trace (runTask w codec m) tr ()) :
    (∀ result ∈ handled tr, m.Owes codec last result (accepted tr)) ↔
      (∀ e ∈ tr, isRefusal (m.owedCallback last).isSome e = false) ∧
        (handled tr = [] ∨ w.hasBackend = true ∨ m.debt codec last = 0) := by
  obtain ⟨⟨⟩, tr₁, rfl, h₁⟩ := trace_runtime h
  obtain ⟨before, tr₂, outcome, rfl, hbefore, h₂⟩ := Prog.trace_bind_iff.mp h₁
  have hquiet := (runBefore_quiet m.start w.middlewares).trace hbefore
  cases outcome with
  | error e =>
      obtain ⟨⟨⟩, tr₃, rfl, h₃⟩ := trace_runtime h₂
      have hfailure := (handleFailure_quiet w m.start e).trace h₃
      have hall : ∀ x ∈ ⟨.runtime (.trace (.executing m)), ()⟩ ::
          (before ++ ⟨.runtime (.trace (.beforeFailed m.id e)), ()⟩ :: tr₃), Quiet x.op := by
        intro x hx
        simp only [List.mem_cons, List.mem_append] at hx
        rcases hx with rfl | hx | rfl | hx
        · trivial
        · exact hquiet x hx
        · trivial
        · exact hfailure x hx
      exact failure_handedOff (handled_of_handlerFree fun x hx => (hall x hx).handlerFree)
        fun x hx => isRefusal_of_quiet (hall x hx)
  | ok _ =>
      obtain ⟨called, tr₃, outcome, rfl, hcalled, h₃⟩ := Prog.trace_bind_iff.mp h₂
      cases outcome with
      | error e =>
          obtain ⟨⟨⟩, tr₄, rfl, h₄⟩ := trace_runtime h₃
          have hfailure := (handleFailure_quiet w m.start e).trace h₄
          have hall : ∀ x ∈ ⟨.runtime (.trace (.executing m)), ()⟩ ::
              (before ++ (called ++ ⟨.runtime (.trace (.taskFailed m.id m.taskName e)), ()⟩ :: tr₄)),
              Quiet x.op ∨ x ∈ called := by
            intro x hx
            simp only [List.mem_cons, List.mem_append] at hx
            rcases hx with rfl | hx | hx | rfl | hx
            · exact .inl trivial
            · exact .inl (hquiet x hx)
            · exact .inr hx
            · exact .inl trivial
            · exact .inl (hfailure x hx)
          have hcall := dispatch_error_trace hcalled
          refine failure_handedOff (List.filterMap_eq_nil_iff.mpr fun x hx => ?_) fun x hx => ?_
          · rcases hall x hx with hx | hx
            · exact handledResult_of_handlerFree hx.handlerFree
            · rw [hcall x hx]
              rfl
          · rcases hall x hx with hx | hx
            · exact isRefusal_of_quiet hx
            · rw [hcall x hx]
              rfl
      | ok result =>
          obtain rfl := dispatch_ok_trace hcalled
          have hcounts : ∀ c ∈ counts tr₃, (c = m.groupTotal.getD 0 ↔ last = true) := by
            intro c hc
            obtain ⟨e, he, heq⟩ := List.mem_filterMap.mp hc
            refine hlast c (List.mem_filterMap.mpr ⟨e, ?_, heq⟩)
            simp [he]
          obtain ⟨hnone, hsettled⟩ := onSuccess_settled hcounts h₃
          rw [handled_around hquiet, accepted_around hquiet, refusal_around hquiet, hnone]
          simpa using hsettled

/-- Exactly when an execution hands its message off. -/
theorem handed_off_iff
    (hlast : ∀ c ∈ counts tr, (c = m.groupTotal.getD 0 ↔ last = true))
    (h : Prog.Trace (executeTask w codec m) tr ()) :
    HandedOff codec m last tr ↔ Undisturbed w codec m last tr := by
  have key : FollowedUp codec m last tr ↔
      (∀ e ∈ tr, isRefusal (m.owedCallback last).isSome e = false) ∧
        (handled tr = [] ∨ w.hasBackend = true ∨ m.debt codec last = 0) := by
    unfold executeTask at h
    cases heta : m.eta with
    | none =>
        rw [heta] at h
        refine Iff.trans ⟨fun hf => hf.sent, fun hs => ⟨?_, hs⟩⟩ (runTask_handedOff hlast h)
        intro eta hahead
        rw [hahead.1] at heta
        cases heta
    | some eta =>
        rw [heta] at h
        obtain ⟨now, tr₁, rfl, h₁⟩ := trace_runtime h
        have hrefusal : (∀ e ∈ ⟨.runtime .utcNow, now⟩ :: tr₁,
            isRefusal (m.owedCallback last).isSome e = false) ↔
            ∀ e ∈ tr₁, isRefusal (m.owedCallback last).isSome e = false := by
          simp [isRefusal]
        rw [hrefusal]
        split at h₁
        · rename_i hnow
          obtain ⟨hhandled, hiff⟩ := reschedule_trace (m.owedCallback last).isSome h₁
          have hempty : handled (⟨.runtime .utcNow, now⟩ :: tr₁) = [] := hhandled
          rw [hempty, ← hiff]
          constructor
          · intro hf
            exact ⟨hf.rescheduled eta ⟨heta, now, tr₁, rfl, hnow⟩, .inl rfl⟩
          · rintro ⟨hscheduled, -⟩
            refine ⟨?_, ?_⟩
            · rintro eta' ⟨heta', -⟩
              obtain rfl : eta = eta' := Option.some.inj (heta.symm.trans heta')
              exact hscheduled
            · intro result hresult
              rw [hempty] at hresult
              cases hresult
        · rename_i hnow
          have hlast₁ : ∀ c ∈ counts tr₁, (c = m.groupTotal.getD 0 ↔ last = true) := hlast
          have hrun := runTask_handedOff hlast₁ h₁
          refine Iff.trans ⟨fun hf => hf.sent, fun hs => ⟨?_, hs⟩⟩ hrun
          rintro eta' ⟨heta', now', rest, heq, hnow'⟩
          obtain rfl : eta = eta' := Option.some.inj (heta.symm.trans heta')
          cases heq
          exact absurd hnow' hnow
  unfold HandedOff Undisturbed
  rw [key]
  exact imp_iff_not_or.symm

/-! ## A postponed message -/

/-- A message whose eta is one nanosecond ahead of the still clock. -/
def earlyMessage : TaskMessage := { plainMessage ⟨1⟩ with eta := some ⟨1⟩ }

/-- What its execution does when the acknowledgement is accepted and `schedule`
answers `r`. -/
def earlyTrace (r : TaskResult Unit) (after : List (Event traits)) : List (Event traits) :=
  ⟨.runtime .utcNow, ⟨0⟩⟩ :: ⟨.runtime (.trace (.etaInFuture ⟨1⟩ ⟨1⟩)), ()⟩ ::
    ⟨.broker (.ack ⟨1⟩), .ok ()⟩ :: ⟨.broker (.schedule earlyMessage ⟨1⟩), r⟩ :: after

/-- Such an execution. -/
theorem trace_early (w : Worker) (r : TaskResult Unit) {after : List (Event traits)}
    (h : Prog.Trace (logError r (.rescheduleFailed ⟨1⟩)) after ()) :
    Prog.Trace (executeTask w blankCodec earlyMessage) (earlyTrace r after) () := by
  refine .call ?_
  show Prog.Trace (if (0 : Int) < 1 then reschedule earlyMessage ⟨1⟩
    else runTask w blankCodec earlyMessage) _ ()
  rw [if_pos (by decide)]
  exact .call (.call (.call h))

/-- Accepted by `schedule`, it is handed off. -/
theorem handed_off_early :
    HandedOff blankCodec earlyMessage false (earlyTrace (.ok ()) []) := by
  have htrace := trace_early ⟨[], [], true⟩ (.ok ()) (.ret ())
  refine (handed_off_iff (by simp [earlyTrace, counts]) htrace).mpr ?_
  intro _
  refine ⟨?_, .inl rfl⟩
  simp [earlyTrace, isRefusal]

/-- Acknowledged first and scheduled afterwards, the message is lost when
`schedule` fails. -/
theorem early_message_lost :
    ∃ (w : Worker) (codec : Codec) (m : TaskMessage) (last : Bool) (tr : List (Event traits)),
      Prog.Trace (executeTask w codec m) tr () ∧
        (∀ c ∈ counts tr, (c = m.groupTotal.getD 0 ↔ last = true)) ∧
        ¬ HandedOff codec m last tr := by
  let failed : List (Event traits) :=
    [⟨.runtime (.trace (.rescheduleFailed ⟨1⟩ (.broker "connection refused"))), ()⟩]
  refine ⟨⟨[], [], true⟩, blankCodec, earlyMessage, false,
    earlyTrace (.error (.broker "connection refused")) failed, ?_, ?_, ?_⟩
  · exact trace_early _ _ (.call (.ret ()))
  · simp [earlyTrace, counts, failed]
  · rintro (hheld | hfollowed)
    · exact hheld List.mem_cons_self
    · have hmem := hfollowed.rescheduled ⟨1⟩ ⟨rfl, ⟨0⟩, _, rfl, by decide⟩
      cases hmem

end HandOff

/-! ## A failed execution gives its message back -/

section Failure

variable {w : Worker} {codec : Codec} {m : TaskMessage} {tr : List (Event traits)}

/-- With retries left, the failure path ends in `nack` with the updated copy. -/
theorem handleFailure_nacks {x : TaskMessage} {e : KojinError} (hleft : x.retries < x.maxRetries)
    (h : Prog.Trace (handleFailure w x e) tr ()) :
    ∃ now r, ⟨.broker (.nack (x.retryCopy now)), r⟩ ∈ tr := by
  obtain ⟨tr₁, tr₂, ⟨⟩, rfl, -, h₁⟩ := Prog.trace_bind_iff.mp h
  rw [if_pos hleft] at h₁
  obtain ⟨now, tr₃, rfl, h₂⟩ := trace_runtime h₁
  obtain ⟨⟨⟩, tr₄, rfl, h₃⟩ := trace_runtime h₂
  obtain ⟨⟨⟩, tr₅, rfl, h₄⟩ := trace_runtime h₃
  obtain ⟨r, tr₆, rfl, -⟩ := trace_broker h₄
  exact ⟨now, r, by simp⟩

/-- Past the eta guard and without a result, it is the failure path that was taken. -/
theorem runTask_nacks (hleft : m.retries < m.maxRetries) (hfailed : handled tr = [])
    (h : Prog.Trace (runTask w codec m) tr ()) :
    ∃ now r, ⟨.broker (.nack (m.retryCopy now)), r⟩ ∈ tr := by
  obtain ⟨⟨⟩, tr₁, rfl, h₁⟩ := trace_runtime h
  obtain ⟨before, tr₂, outcome, rfl, hbefore, h₂⟩ := Prog.trace_bind_iff.mp h₁
  cases outcome with
  | error e =>
      obtain ⟨⟨⟩, tr₃, rfl, h₃⟩ := trace_runtime h₂
      obtain ⟨now, r, hmem⟩ := handleFailure_nacks (x := m.start) hleft h₃
      refine ⟨now, r, ?_⟩
      simp only [List.mem_cons, List.mem_append]
      exact .inr (.inr (.inr hmem))
  | ok _ =>
      obtain ⟨called, tr₃, outcome, rfl, hcalled, h₃⟩ := Prog.trace_bind_iff.mp h₂
      cases outcome with
      | error e =>
          obtain ⟨⟨⟩, tr₄, rfl, h₄⟩ := trace_runtime h₃
          obtain ⟨now, r, hmem⟩ := handleFailure_nacks (x := m.start) hleft h₄
          refine ⟨now, r, ?_⟩
          simp only [List.mem_cons, List.mem_append]
          exact .inr (.inr (.inr (.inr hmem)))
      | ok result =>
          obtain rfl := dispatch_ok_trace hcalled
          rw [handled_around ((runBefore_quiet m.start w.middlewares).trace hbefore)] at hfailed
          cases hfailed

/-- A failed execution with retries left calls `nack`. -/
theorem failure_nacks (hleft : m.retries < m.maxRetries)
    (hguard : ∀ eta, ¬ EtaAhead m eta tr) (hfailed : handled tr = [])
    (h : Prog.Trace (executeTask w codec m) tr ()) :
    ∃ now r, ⟨.broker (.nack (m.retryCopy now)), r⟩ ∈ tr := by
  unfold executeTask at h
  cases heta : m.eta with
  | none =>
      rw [heta] at h
      exact runTask_nacks hleft hfailed h
  | some eta =>
      rw [heta] at h
      obtain ⟨now, tr₁, rfl, h₁⟩ := trace_runtime h
      split at h₁
      · rename_i hnow
        exact absurd ⟨heta, now, tr₁, rfl, hnow⟩ (hguard eta)
      · have hfailed₁ : handled tr₁ = [] := hfailed
        obtain ⟨now', r, hmem⟩ := runTask_nacks hleft hfailed₁ h₁
        exact ⟨now', r, List.mem_cons_of_mem _ hmem⟩

end Failure

end Kojin.Core
