/-
  Core/Ledger.lean --- where the copies of a message are, as a bag of tokens.

  The state of the system is maps, lists and programs.  For what happens to
  messages only this matters: which copies wait in a queue, which have been
  buried in a dead-letter queue, and which are in the hands of a thread that has
  come so far.  The ledger is the bag of these tokens.

  Every step of the system replaces at most one token, and `Rule` lists the
  replacements.  The ledger has no positions and no queue names, so a rule never
  speaks about the tokens it leaves alone; `step_rule` is the theorem that the
  system does nothing else.
-/
import Kojin.Core.MemorySystem

set_option autoImplicit false

namespace Kojin.Core

open Kojin.Foundation

/-- A copy of a message, or a thread. -/
inductive Token where
  | waiting (m : TaskMessage)
  | buried (m : TaskMessage)
  | held (r : Role)

/-- An execution that has given its message back holds nothing. -/
def Role.tokens : Role → Multiset Token
  | .exec .gone => 0
  | r => {.held r}

/-- The bag of all tokens of the system. -/
def ledger (b : MemoryBroker) (rs : List Role) : Multiset Token :=
  b.queues.contents.map .waiting + b.dlq.contents.map .buried + (rs.map Role.tokens).sum

/-! ## What the broker's sections do to the ledger -/

theorem ledger_enqueue (b : MemoryBroker) (m : TaskMessage) (rs : List Role) :
    ledger (b.enqueue m) rs = {.waiting m} + ledger b rs := by
  have h : (b.enqueue m).queues.contents = m ::ₘ b.queues.contents :=
    Table.contents_push b.queues m.queue m
  unfold ledger
  rw [h, Multiset.map_cons, Multiset.cons_add, Multiset.cons_add, Multiset.singleton_add]
  rfl

theorem ledger_pushDlq (b : MemoryBroker) (m : TaskMessage) (rs : List Role) :
    ledger (b.pushDlq m) rs = {.buried m} + ledger b rs := by
  have h : (b.pushDlq m).dlq.contents = m ::ₘ b.dlq.contents :=
    Table.contents_push b.dlq m.queue m
  unfold ledger
  rw [h, Multiset.map_cons, Multiset.add_cons, Multiset.cons_add, Multiset.singleton_add]
  rfl

theorem ledger_tryDequeue {b b' : MemoryBroker} {m : TaskMessage} {names : List String}
    (h : b.tryDequeue names = some (m, b')) (rs : List Role) :
    ledger b rs = {.waiting m} + ledger b' rs := by
  obtain ⟨name, -, ms, hlookup, rfl⟩ := MemoryBroker.tryDequeue_cases h
  unfold ledger
  rw [Table.contents_pop hlookup, Multiset.map_cons, Multiset.cons_add, Multiset.cons_add,
    Multiset.singleton_add]

theorem ledger_threads (b : MemoryBroker) (before after : List Role) (r : Role) :
    ledger b (before ++ r :: after) = r.tokens + ledger b (before ++ after) := by
  unfold ledger
  simp only [List.map_append, List.map_cons, List.sum_append, List.sum_cons]
  abel

theorem ledger_append (b : MemoryBroker) (rs : List Role) (r : Role) :
    ledger b (rs ++ [r]) = r.tokens + ledger b rs := by
  have h := ledger_threads b rs [] r
  rw [List.append_nil] at h
  exact h

/-- A token of a thread. -/
theorem mem_threads {rs : List Role} {v : Token} (h : v ∈ (rs.map Role.tokens).sum) :
    ∃ r ∈ rs, v = .held r := by
  induction rs with
  | nil => exact absurd h (Multiset.notMem_zero v)
  | cons r rs ih =>
      rw [List.map_cons, List.sum_cons, Multiset.mem_add] at h
      rcases h with hr | hrest
      · refine ⟨r, List.mem_cons_self, ?_⟩
        unfold Role.tokens at hr
        split at hr
        · exact absurd hr (Multiset.notMem_zero v)
        · exact Multiset.mem_singleton.mp hr
      · obtain ⟨r', hr', hv⟩ := ih hrest
        exact ⟨r', List.mem_cons_of_mem _ hr', hv⟩

/-- Where a token of the ledger comes from. -/
theorem mem_ledger {b : MemoryBroker} {rs : List Role} {v : Token} (h : v ∈ ledger b rs) :
    (∃ m ∈ b.queues.contents, v = .waiting m) ∨ (∃ m ∈ b.dlq.contents, v = .buried m) ∨
      ∃ r ∈ rs, v = .held r := by
  unfold ledger at h
  rw [Multiset.mem_add, Multiset.mem_add, Multiset.mem_map, Multiset.mem_map] at h
  rcases h with (⟨m, hm, rfl⟩ | ⟨m, hm, rfl⟩) | hthreads
  · exact .inl ⟨m, hm, rfl⟩
  · exact .inr (.inl ⟨m, hm, rfl⟩)
  · exact .inr (.inr (mem_threads hthreads))

/-! ## The rules -/

section Rules

variable {S : Service resultBackendTrait} {codec : Codec}

/-- What one step does to the tokens it touches: `Rule A l B` replaces the tokens
of `A` by those of `B`. -/
inductive Rule : Multiset Token → (memorySystem S codec).Label → Multiset Token → Prop where
  | arrive (m : TaskMessage) : Rule 0 (.env (.enqueue m)) {.waiting m}
  | outside (o : S.Oracle) (op : ResultBackendOp) : Rule 0 (.env (.backend o op)) 0
  | poll (w : Worker) (queues : List String) (m : TaskMessage) :
      Rule {.waiting m} (.env (.poll w queues)) {.held (.exec (.received w.hasBackend m))}
  | note {e : TraceEvent} : e.isMark = false → Rule 0 (.call ⟨.runtime (.trace e), ()⟩) 0
  | runtime {t t' : Stage} {op : RuntimeOp} {r : op.Res} :
      Stage.Step codec t (.runtime op) r t' → t ≠ .gone →
      Rule {.held (.exec t)} (.call ⟨.runtime op, r⟩) {.held (.exec t')}
  | backend {t t' : Stage} {op : ResultBackendOp} {r : op.Res} :
      Stage.Step codec t (.backend op) r t' →
      Rule {.held (.exec t)} (.call ⟨.backend op, r⟩) {.held (.exec t')}
  | enqueue {t t' : Stage} {m : TaskMessage} :
      Stage.Step codec t (.broker (.enqueue m)) (.ok ()) t' →
      Rule {.held (.exec t)} (.call ⟨.broker (.enqueue m), ()⟩)
        {.waiting m, .held (.exec t')}
  | ack {t t' : Stage} {id : TaskId} :
      Stage.Step codec t (.broker (.ack id)) (.ok ()) t' →
      Rule {.held (.exec t)} (.call ⟨.broker (.ack id), ()⟩) {.held (.exec t')}
  | schedule (m : TaskMessage) (eta : DateTime) :
      Rule {.held (.exec (.released m eta))} (.call ⟨.broker (.schedule m eta), ()⟩)
        {.waiting m}
  | release {t : Stage} {s : Settling} :
      Stage.Step codec t (.broker s.method) (.ok ()) .gone →
      Rule {.held (.exec t)} (.call ⟨.broker (.release s), ()⟩) {.held (.settling s)}
  | requeue (m : TaskMessage) :
      Rule {.held (.settling (.nack m))} (.call ⟨.broker (.deliver (.nack m)), ()⟩)
        {.waiting m}
  | bury (m : TaskMessage) :
      Rule {.held (.settling (.deadLetter m))} (.call ⟨.broker (.deliver (.deadLetter m)), ()⟩)
        {.buried m}
  | clientRuntime {s s' : Canvas.Submission} {op : RuntimeOp} {r : op.Res} :
      Canvas.Submission.Step codec s (.runtime op) r s' →
      Rule {.held (.client s)} (.call ⟨.runtime op, r⟩) {.held (.client s')}
  | clientBackend {s s' : Canvas.Submission} {op : ResultBackendOp} {r : op.Res} :
      Canvas.Submission.Step codec s (.backend op) r s' →
      Rule {.held (.client s)} (.call ⟨.backend op, r⟩) {.held (.client s')}
  | clientEnqueue {s s' : Canvas.Submission} {m : TaskMessage} :
      Canvas.Submission.Step codec s (.broker (.enqueue m)) (.ok ()) s' →
      Rule {.held (.client s)} (.call ⟨.broker (.enqueue m), ()⟩)
        {.waiting m, .held (.client s')}

/-- A rule replaces at most one token. -/
theorem Rule.sole {A B : Multiset Token} {l : (memorySystem S codec).Label} (h : Rule A l B) :
    A = 0 ∨ ∃ v, A = {v} := by
  cases h with
  | arrive m => exact .inl rfl
  | outside o op => exact .inl rfl
  | note hmark => exact .inl rfl
  | _ => exact .inr ⟨_, rfl⟩

/-- What a step does to the backend: nothing, unless it is a call of it. -/
def BackendMove (s : S.State) : (memorySystem S codec).Label → S.State → Prop
  | .call ⟨.backend op, r⟩, s' => ∃ o, S.respond o s op = some (r, s')
  | .call _, s' => s' = s
  | .env (.backend o op), s' => ∃ r, S.respond o s op = some (r, s')
  | .env _, s' => s' = s

/-! ## The system follows the rules -/

theorem tokens_gone : (Role.exec .gone).tokens = 0 := rfl

theorem tokens_exec {t : Stage} (h : t ≠ .gone) : (Role.exec t).tokens = {.held (.exec t)} := by
  cases t with
  | gone => exact absurd rfl h
  | _ => rfl

/-- A runtime call keeps the execution in possession of its message. -/
theorem Stage.Step.ne_gone_of_runtime {t t' : Stage} {op : RuntimeOp} {r : op.Res}
    (h : Stage.Step codec t (.runtime op) r t') (ht : t ≠ .gone) : t' ≠ .gone := by
  cases h with
  | note t h => exact ht
  | _ => exact nofun

/-- A call of the backend keeps the execution in possession of its message. -/
theorem Stage.Step.ne_gone_of_backend {t t' : Stage} {op : ResultBackendOp} {r : op.Res}
    (h : Stage.Step codec t (.backend op) r t') : t ≠ .gone ∧ t' ≠ .gone := by
  cases h <;> exact ⟨nofun, nofun⟩

/-- One step of the system, seen through the ledger. -/
structure LedgerStep (c : RoleConfig S codec) (l : (memorySystem S codec).Label)
    (c' : RoleConfig S codec) : Prop where
  tokens : ∃ A B rest : Multiset Token, Rule A l B ∧
    ledger c.state.1 c.stages = A + rest ∧ ledger c'.state.1 c'.stages = B + rest ∧
    ∀ (i : TaskId) (m : TaskMessage), c'.state.1.processing.lookup i = some m →
      c.state.1.processing.lookup i = some m ∨ (m.id = i ∧ .waiting m ∈ A)
  backend : BackendMove c.state.2 l c'.state.2

/-- Dequeuing records the message it hands out, and no other. -/
theorem processing_of_tryDequeue {b b' : MemoryBroker} {m : TaskMessage} {names : List String}
    (h : b.tryDequeue names = some (m, b')) {i : TaskId} {m' : TaskMessage}
    (hm' : b'.processing.lookup i = some m') :
    b.processing.lookup i = some m' ∨ (m'.id = i ∧ m' = m) := by
  obtain ⟨name, -, ms, -, rfl⟩ := MemoryBroker.tryDequeue_cases h
  by_cases hi : i = m.id
  · subst hi
    have hlookup : (b.processing.insert m.id m).lookup m.id = some m' := hm'
    rw [AList.lookup_insert] at hlookup
    cases hlookup
    exact .inr ⟨rfl, rfl⟩
  · have hlookup : (b.processing.insert m.id m).lookup i = some m' := hm'
    rw [AList.lookup_insert_ne hi] at hlookup
    exact .inl hlookup

/-- Removing an entry leaves the others. -/
theorem processing_of_remove {b : MemoryBroker} {j i : TaskId} {m : TaskMessage}
    (h : (b.removeProcessing j).processing.lookup i = some m) :
    b.processing.lookup i = some m := by
  have hlookup : (b.processing.erase j).lookup i = some m := h
  by_cases hi : i = j
  · subst hi
    rw [AList.lookup_erase] at hlookup
    cases hlookup
  · rw [AList.lookup_erase_ne hi] at hlookup
    exact hlookup

/-- A thread moves; what the broker gained meanwhile is `X`. -/
theorem LedgerStep.of_thread {b b' : MemoryBroker} {s s' : S.State} {r r' : Role}
    {before after : List Role} {l : (memorySystem S codec).Label} {X : Multiset Token}
    (hrule : Rule r.tokens l (X + r'.tokens))
    (hledger : ∀ rs, ledger b' rs = X + ledger b rs)
    (hprocessing : ∀ i m, b'.processing.lookup i = some m → b.processing.lookup i = some m)
    (hback : BackendMove s l s') :
    LedgerStep (⟨(b, s), before ++ r :: after⟩ : RoleConfig S codec) l
      ⟨(b', s'), before ++ r' :: after⟩ where
  tokens := by
    refine ⟨_, _, ledger b (before ++ after), hrule, ledger_threads b before after r, ?_,
      fun i m h => .inl (hprocessing i m h)⟩
    change ledger b' (before ++ r' :: after) = _
    rw [ledger_threads, hledger]
    abel
  backend := hback

/-- A thread moves and the broker is left alone. -/
theorem LedgerStep.of_quiet {b : MemoryBroker} {s s' : S.State} {r r' : Role}
    {before after : List Role} {l : (memorySystem S codec).Label}
    (hrule : Rule r.tokens l r'.tokens) (hback : BackendMove s l s') :
    LedgerStep (⟨(b, s), before ++ r :: after⟩ : RoleConfig S codec) l
      ⟨(b, s'), before ++ r' :: after⟩ :=
  .of_thread (X := 0) (by rwa [zero_add]) (fun rs => (zero_add _).symm) (fun _ _ h => h) hback

/-- A call of the runtime. -/
theorem Rule.of_runtime {t t' : Stage} {op : RuntimeOp} {r : op.Res}
    (h : Stage.Step codec t (.runtime op) r t') :
    Rule (Role.exec t).tokens (.call ⟨.runtime op, r⟩ : (memorySystem S codec).Label)
      (Role.exec t').tokens := by
  by_cases ht : t = .gone
  · subst ht
    cases h with
    | note _ hmark => exact .note hmark
  · rw [tokens_exec ht, tokens_exec (h.ne_gone_of_runtime ht)]
    exact .runtime h ht

/-- A section of the broker always answers. -/
theorem respond_broker {b b' : MemoryBroker} {s s' : S.State}
    {o : (memorySystem S codec).Oracle} {q : Section} {x : Unit}
    (h : (memorySystem S codec).respond o (b, s) (.broker q) = some (x, (b', s'))) :
    b' = b.run q ∧ s' = s := by
  cases h
  exact ⟨rfl, rfl⟩

/-- The backend answers for itself and leaves the broker alone. -/
theorem respond_backend {b b' : MemoryBroker} {s s' : S.State}
    {o : (memorySystem S codec).Oracle} {op : ResultBackendOp} {x : op.Res}
    (h : (memorySystem S codec).respond o (b, s) (.backend op) = some (x, (b', s'))) :
    b' = b ∧ S.respond o.backend s op = some (x, s') := by
  obtain ⟨p, hp, heq⟩ := Option.map_eq_some_iff.mp h
  cases heq
  exact ⟨rfl, hp⟩

/-- A step by a thread. -/
theorem LedgerStep.of_call {b b' : MemoryBroker} {s s' : S.State} {r r' : Role}
    {before after : List Role} {o : (memorySystem S codec).Oracle} {op : memoryInterface.Op}
    {x : memoryInterface.Res op}
    (hrespond : (memorySystem S codec).respond o (b, s) op = some (x, (b', s')))
    (hstep : Role.Step codec r op x r') :
    LedgerStep (⟨(b, s), before ++ r :: after⟩ : RoleConfig S codec) (.call ⟨op, x⟩)
      ⟨(b', s'), before ++ r' :: after⟩ := by
  cases hstep with
  | runtime h =>
      cases hrespond
      exact .of_quiet (.of_runtime h) rfl
  | clientRuntime h =>
      cases hrespond
      exact .of_quiet (.clientRuntime h) rfl
  | backend h =>
      obtain ⟨rfl, hback⟩ := respond_backend hrespond
      obtain ⟨ht, ht'⟩ := h.ne_gone_of_backend
      refine .of_quiet ?_ ⟨_, hback⟩
      rw [tokens_exec ht, tokens_exec ht']
      exact .backend h
  | clientBackend h =>
      obtain ⟨rfl, hback⟩ := respond_backend hrespond
      exact .of_quiet (.clientBackend h) ⟨_, hback⟩
  | @enqueue t t' m h =>
      obtain ⟨rfl, rfl⟩ := respond_broker hrespond
      refine .of_thread (X := {Token.waiting m}) ?_ (fun rs => ledger_enqueue b m rs)
        (fun _ _ h => h) rfl
      have ht : t ≠ .gone ∧ t' ≠ .gone := by cases h <;> exact ⟨nofun, nofun⟩
      rw [tokens_exec ht.1, tokens_exec ht.2]
      exact .enqueue h
  | @clientEnqueue q q' m h =>
      obtain ⟨rfl, rfl⟩ := respond_broker hrespond
      exact .of_thread (X := {Token.waiting m}) (.clientEnqueue h) (fun rs => ledger_enqueue b m rs)
        (fun _ _ h => h) rfl
  | @ack t t' id h =>
      obtain ⟨rfl, rfl⟩ := respond_broker hrespond
      refine .of_thread (X := 0) ?_ (fun rs => (zero_add _).symm)
        (fun _ _ h => processing_of_remove h) rfl
      have ht : t ≠ .gone ∧ t' ≠ .gone := by cases h <;> exact ⟨nofun, nofun⟩
      rw [zero_add, tokens_exec ht.1, tokens_exec ht.2]
      exact .ack h
  | @schedule t t' m eta h =>
      obtain ⟨rfl, rfl⟩ := respond_broker hrespond
      cases h
      refine .of_thread (X := {Token.waiting m}) ?_ (fun rs => ledger_enqueue b m rs)
        (fun _ _ h => h) rfl
      rw [tokens_gone, add_zero]
      exact .schedule m eta
  | @release t t' q h =>
      obtain ⟨rfl, rfl⟩ := respond_broker hrespond
      obtain rfl := h.gone_of_settle
      refine .of_thread (X := 0) ?_ (fun rs => (zero_add _).symm)
        (fun _ _ h => processing_of_remove h) rfl
      have ht : t ≠ .gone := by
        rintro rfl
        cases q <;> cases h
      rw [zero_add, tokens_exec ht]
      exact .release h
  | deliver q =>
      obtain ⟨rfl, rfl⟩ := respond_broker hrespond
      cases q with
      | nack m =>
          refine .of_thread (X := {Token.waiting m}) ?_ (fun rs => ledger_enqueue b m rs)
            (fun _ _ h => h) rfl
          rw [tokens_gone, add_zero]
          exact .requeue m
      | deadLetter m =>
          refine .of_thread (X := {Token.buried m}) ?_ (fun rs => ledger_pushDlq b m rs)
            (fun _ _ h => h) rfl
          rw [tokens_gone, add_zero]
          exact .bury m

/-- The system does nothing to the ledger but what the rules say. -/
theorem ledgerStep_of_roleStep {c c' : RoleConfig S codec} {l : (memorySystem S codec).Label}
    (h : RoleStep c l c') : LedgerStep c l c' := by
  cases h with
  | @call o s s' op x r r' before after hrespond hstep =>
      exact .of_call hrespond hstep
  | @env x s s' rs new haccept =>
      rcases s with ⟨b, s⟩
      cases x with
      | enqueue m =>
          cases haccept
          refine ⟨⟨0, {.waiting m}, ledger b rs, .arrive m, (zero_add _).symm, ?_,
            fun _ _ h => .inl h⟩, rfl⟩
          have hrs : ledger (b.enqueue m) (rs ++ []) = ledger (b.enqueue m) rs :=
            congrArg _ (List.append_nil _)
          exact hrs.trans (ledger_enqueue b m rs)
      | backend o op =>
          obtain ⟨p, hp, heq⟩ := Option.map_eq_some_iff.mp haccept
          cases heq
          refine ⟨⟨0, 0, ledger b rs, .outside o op, (zero_add _).symm, ?_,
            fun _ _ h => .inl h⟩, ⟨p.1, hp⟩⟩
          have hrs : ledger b (rs ++ []) = ledger b rs := congrArg _ (List.append_nil _)
          exact hrs.trans (zero_add _).symm
      | poll w queues =>
          obtain ⟨⟨m, b'⟩, hp, heq⟩ := Option.map_eq_some_iff.mp haccept
          cases heq
          have hroles : (MemoryStimulus.poll w queues).roles (b, s) =
              [.exec (.received w.hasBackend m)] := by
            simp [MemoryStimulus.roles, hp]
          refine ⟨⟨{.waiting m}, _, ledger b' rs, .poll w queues m, ?_, ?_, ?_⟩, rfl⟩
          · exact ledger_tryDequeue hp rs
          · have happend := ledger_append b' rs (.exec (.received w.hasBackend m))
            rw [← hroles] at happend
            exact happend
          · intro i m' hm'
            rcases processing_of_tryDequeue hp hm' with hold | ⟨hid, rfl⟩
            · exact .inl hold
            · exact .inr ⟨hid, Multiset.mem_singleton_self _⟩

end Rules

end Kojin.Core
