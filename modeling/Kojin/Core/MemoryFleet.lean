/-
  Core/MemoryFleet.lean --- workers with one implemented middleware, over the
  in-memory broker (`kojin-core`: `worker.rs`, `memory_broker.rs`).

  A protocol over the broker's methods becomes one over its sections: a settling
  call that has left the processing map and not yet reached its second section is a
  stage of its own.

  THE MACHINE.  `memoryFleet` is the system of `Core/MemorySystem.lean` whose workers
  belong to one fleet and whose `k`-th middleware is implemented.  Its histories are
  histories of that system, so what is known about every middleware holds of this
  one.
-/
import Kojin.Core.MemorySystem
import Kojin.Core.Middleware

set_option autoImplicit false

namespace Kojin.Core

open Kojin.Foundation

/-! ## Protocols over sections -/

/-- A stage of an execution, or a settling call between its two sections. -/
inductive Sectioned (σ : Type) where
  | at (t : σ)
  | settling (s : Settling) (next : σ)

section Sections

/-- Which section or call leads from which stage to which. -/
inductive Sectioned.Step {σ : Type} (step : σ → (op : traits.Op) → traits.Res op → σ → Prop) :
    Sectioned σ → (op : memoryInterface.Op) → memoryInterface.Res op → Sectioned σ → Prop where
  | runtime {t t' : σ} {op : RuntimeOp} {r : op.Res} :
      step t (.runtime op) r t' → Step step (.at t) (.runtime op) r (.at t')
  | backend {t t' : σ} {op : ResultBackendOp} {r : op.Res} :
      step t (.backend op) r t' → Step step (.at t) (.backend op) r (.at t')
  | enqueue {t t' : σ} {m : TaskMessage} :
      step t (.broker (.enqueue m)) (.ok ()) t' →
      Step step (.at t) (.broker (.enqueue m)) () (.at t')
  | ack {t t' : σ} {id : TaskId} :
      step t (.broker (.ack id)) (.ok ()) t' → Step step (.at t) (.broker (.ack id)) () (.at t')
  | schedule {t t' : σ} {m : TaskMessage} {eta : DateTime} :
      step t (.broker (.schedule m eta)) (.ok ()) t' →
      Step step (.at t) (.broker (.schedule m eta)) () (.at t')
  | release {t t' : σ} {s : Settling} :
      step t (.broker s.method) (.ok ()) t' →
      Step step (.at t) (.broker (.release s)) () (.settling s t')
  | deliver (s : Settling) (t : σ) :
      Step step (.settling s t) (.broker (.deliver s)) () (.at t)

/-- A settling call does not stop between its sections. -/
def Sectioned.Final {σ : Type} (final : σ → Prop) : Sectioned σ → Prop
  | .at t => final t
  | .settling _ _ => False

variable (P : Protocol traits)

/-- The protocol over the sections of the broker. -/
abbrev sectioned : Protocol memoryInterface :=
  ⟨Sectioned P.Stage, Sectioned.Step P.Step, Sectioned.Final P.Final⟩

variable {P}

/-- A settling call, in its two sections. -/
theorem settle_sectioned {t t' : P.Stage} {s : Settling}
    (h : P.Step t (.broker s.method) (.ok ()) t') :
    (onBroker (MemoryBroker.settle s)).wp (sectioned P) (.at t)
      fun (r : TaskResult Unit) u => r = .ok () ∧ u = .at t' :=
  fun _ => ⟨.settling s t', .release h, fun _ => ⟨.at t', .deliver s t', rfl, rfl⟩⟩

/-- Every method of the broker keeps to its sections. -/
theorem drive_sectioned (t : P.Stage) (op : traits.Op) (f : traits.Res op → P.Stage)
    (h : ∀ r, P.Step t op r (f r)) :
    (drive MemoryBroker.driver directBackend op).wp (sectioned P) (.at t)
      fun r u => u = .at (f r) := by
  cases op with
  | runtime op => exact fun r => ⟨_, .runtime (h r), rfl⟩
  | backend op => exact fun r => ⟨_, .backend (h r), rfl⟩
  | broker op =>
      cases op with
      | enqueue m => exact fun _ => ⟨_, .enqueue (h (.ok ())), rfl⟩
      | ack id => exact fun _ => ⟨_, .ack (h (.ok ())), rfl⟩
      | schedule m eta => exact fun _ => ⟨_, .schedule (h (.ok ())), rfl⟩
      | nack m =>
          refine Prog.wp_mono (@settle_sectioned P t _ (.nack m) (h (.ok ()))) ?_
          rintro r u ⟨rfl, hu⟩
          exact hu
      | deadLetter m =>
          refine Prog.wp_mono (@settle_sectioned P t _ (.deadLetter m) (h (.ok ()))) ?_
          rintro r u ⟨rfl, hu⟩
          exact hu

/-- A program that follows a protocol follows it in sections on the in-memory
broker. -/
theorem follows_sectioned {p : Prog traits Unit} {t : P.Stage} (h : p.Follows P t) :
    (onMemory p).Follows (sectioned P) (.at t) :=
  @Prog.Follows.interp traits P memoryInterface (drive MemoryBroker.driver directBackend)
    (sectioned P) Sectioned.at (fun t op f h => drive_sectioned t op f h) (fun _ h => h) p t h

end Sections

/-! ## The machine -/

section Machine

variable (S : Service resultBackendTrait) (codec : Codec) (mw : Middleware) (k : Nat)
  (crew : Fleet)

/-- What arrives from outside: a stimulus of the in-memory system, or a change around
the middleware. -/
inductive FleetStimulus where
  | memory (x : MemoryStimulus S)
  | tick (x : mw.Tick)

/-- A worker that polls belongs to the fleet. -/
def MemoryStimulus.Fits {S : Service resultBackendTrait} (crew : Fleet) : MemoryStimulus S → Prop
  | .poll w _ => crew.Has w
  | _ => True

instance {S : Service resultBackendTrait} (crew : Fleet) (x : MemoryStimulus S) :
    Decidable (x.Fits crew) :=
  match x with
  | .poll w _ => inferInstanceAs (Decidable (crew.Has w))
  | .enqueue _ => .isTrue trivial
  | .backend _ _ => .isTrue trivial

/-- The workers of a fleet, over the in-memory broker and the backend `S`. -/
def memoryFleet : Machine memoryInterface where
  toService := mw.mount k (systemService MemoryBroker.service S)
  Stimulus := FleetStimulus S mw
  accept
    | .tick x, s => some ((s.1, mw.tick x s.2), [])
    | .memory x, s =>
        if x.Fits crew then
          ((memorySystem S codec).accept x s.1).map fun p => ((p.1, s.2), p.2)
        else none

/-- An empty broker, and the middleware in this state. -/
def fleetStart (s₀ : S.State) (q₀ : mw.State) : (memoryFleet S codec mw k crew).Config :=
  ⟨((MemoryBroker.new, s₀), q₀), []⟩

end Machine

section Histories

variable {S : Service resultBackendTrait} {codec : Codec} {mw : Middleware} {k : Nat}
  {crew : Fleet}

/-- The step as one of the in-memory system, to which the middleware is open. -/
def openLabel : (memoryFleet S codec mw k crew).Label → Option (memorySystem S codec).Label
  | .call e => some (.call e)
  | .env (.memory x) => some (.env x)
  | .env (.tick _) => none

/-- A history as one of the in-memory system. -/
def opened (tr : List (memoryFleet S codec mw k crew).Label) : List (memorySystem S codec).Label :=
  tr.filterMap openLabel

/-- A hook may answer what the middleware answers. -/
theorem exists_open_answer {op : memoryInterface.Op} {r : memoryInterface.Res op} {q q' : mw.State}
    (h : mw.answer k op q = some (r, q')) (o : (memorySystem S codec).Oracle)
    (s : (memorySystem S codec).State) :
    ∃ o', (memorySystem S codec).respond o' s op = some (r, s) := by
  classical
  cases op with
  | broker op => cases h
  | backend op => cases h
  | runtime op =>
      refine ⟨⟨Function.update o.runtime op r, o.broker, o.backend⟩, ?_⟩
      show some (Function.update o.runtime op r op, s) = _
      rw [Function.update_self]

/-- Every history of the fleet is one of the in-memory system. -/
theorem reach_opened {s₀ : S.State} {q₀ : mw.State}
    {tr : List (memoryFleet S codec mw k crew).Label}
    {c : (memoryFleet S codec mw k crew).Config}
    (h : (memoryFleet S codec mw k crew).Reach (fleetStart S codec mw k crew s₀ q₀) tr c) :
    (memorySystem S codec).Reach (memoryStart S codec s₀ []) (opened tr)
      ⟨c.state.1, c.threads⟩ := by
  induction h with
  | start => exact .start
  | step _ hstep ih =>
      rw [opened, Machine.filterMap_snoc]
      cases hstep with
      | @call o s s' op r f before after hr =>
          rcases Middleware.mount_cases hr with ⟨hans, hs⟩ | ⟨-, hserve, -⟩
          · obtain ⟨o', ho'⟩ := @exists_open_answer S codec mw k op r s.2 s'.2 hans o s.1
            rw [hs]
            exact .step ih (@Machine.Step.call _ (memorySystem S codec) o' _ _ _ _ f _ _ ho')
          · exact .step ih (@Machine.Step.call _ (memorySystem S codec) o _ _ _ _ f _ _ hserve)
      | env x threads haccept =>
          cases x with
          | tick x =>
              cases haccept
              have hnone : openLabel (.env (.tick x) : (memoryFleet S codec mw k crew).Label) = none :=
                rfl
              rw [hnone, Option.toList_none, List.append_nil, List.append_nil]
              exact ih
          | memory x =>
              simp only [memoryFleet] at haccept
              split at haccept
              · obtain ⟨p, hp, heq⟩ := Option.map_eq_some_iff.mp haccept
                cases heq
                exact .step ih (@Machine.Step.env _ (memorySystem S codec) x _ _ threads _ hp)
              · cases haccept

/-- The phase a stimulus starts. -/
def FleetStimulus.phases :
    FleetStimulus S mw → (MemoryBroker × S.State) × mw.State → List (Sectioned Phase)
  | .memory (.poll _ queues), s =>
      ((s.1.1.tryDequeue queues).map fun p => Sectioned.at (Phase.entering p.1)).toList
  | _, _ => []

theorem fleet_entry (x : FleetStimulus S mw) (s s' : (memoryFleet S codec mw k crew).State)
    (new : List (Prog memoryInterface Unit))
    (h : (memoryFleet S codec mw k crew).accept x s = some (s', new)) :
    List.Forall₂ (Prog.Follows (sectioned (pipeline crew))) new (x.phases s) := by
  cases x with
  | tick x =>
      cases h
      exact .nil
  | memory x =>
      simp only [memoryFleet] at h
      split at h
      · rename_i hfits
        obtain ⟨p, hp, heq⟩ := Option.map_eq_some_iff.mp h
        cases heq
        cases x with
        | enqueue m =>
            cases hp
            exact .nil
        | backend o op =>
            obtain ⟨p', -, heq⟩ := Option.map_eq_some_iff.mp hp
            cases heq
            exact .nil
        | poll w queues =>
            obtain ⟨p', hp', heq⟩ := Option.map_eq_some_iff.mp hp
            cases heq
            have hdequeue : s.1.1.tryDequeue queues = some p' := hp'
            simp only [FleetStimulus.phases, hdequeue, Option.map_some, Option.toList_some]
            exact .cons (follows_sectioned (executeTask_hooks hfits codec p'.1)) .nil
      · cases h

/-- Only what happens around the middleware changes it from outside. -/
theorem fleet_accept {x : FleetStimulus S mw} {s s' : (memoryFleet S codec mw k crew).State}
    {new : List (Prog memoryInterface Unit)}
    (h : (memoryFleet S codec mw k crew).accept x s = some (s', new)) :
    match x with
    | .memory _ => s'.2 = s.2
    | .tick x => s' = (s.1, mw.tick x s.2) := by
  cases x with
  | tick x =>
      cases h
      rfl
  | memory x =>
      simp only [memoryFleet] at h
      split at h
      · obtain ⟨p, -, heq⟩ := Option.map_eq_some_iff.mp h
        cases heq
        rfl
      · cases h

/-- An execution starts at the eta guard. -/
theorem entering_of_mem_phases {x : FleetStimulus S mw} {s : (MemoryBroker × S.State) × mw.State}
    {u : Sectioned Phase} (h : u ∈ x.phases s) : ∃ m, u = .at (.entering m) := by
  cases x with
  | tick x => cases h
  | memory x =>
      cases x with
      | poll w queues =>
          obtain ⟨p, -, heq⟩ := Option.map_eq_some_iff.mp (Option.mem_toList.mp h)
          exact ⟨p.1, heq.symm⟩
      | _ => cases h

/-- Every history of the fleet, with its executions at the phases they have come to. -/
theorem fleet_phases {s₀ : S.State} {q₀ : mw.State}
    {tr : List (memoryFleet S codec mw k crew).Label}
    {c : (memoryFleet S codec mw k crew).Config}
    (h : (memoryFleet S codec mw k crew).Reach (fleetStart S codec mw k crew s₀ q₀) tr c) :
    ∃ phases, Machine.StagedReach (M := memoryFleet S codec mw k crew)
        (sectioned (pipeline crew)) FleetStimulus.phases ⟨((MemoryBroker.new, s₀), q₀), []⟩ tr
        ⟨c.state, phases⟩ ∧
      List.Forall₂ (Prog.Follows (sectioned (pipeline crew))) c.threads phases :=
  h.staged fleet_entry .nil

end Histories

end Kojin.Core
