/-
  Foundation/Machine.lean --- what answers the calls of a program, and what holds
  in every interleaving of many programs.

  A `Machine` owns the shared state.  It answers one call at a time, so a call of
  its interface is the unit of interleaving, and it accepts stimuli from outside,
  which may start new programs.  The choices the machine does not determine (the
  reading of a clock, the outcome of a handler, which call fails) come from an
  oracle, so every definition here is executable once the oracle is given.

      S.run os p s         one program, alone on the service
      Reach M c₀ tr c      any number of programs, in every order

  The second relation is tamed by `Reach.staged`: when every program of the pool
  follows a protocol, the pool is simulated by a configuration that keeps only
  the stages.  Invariants are then proved over stages, one protocol step at a
  time, and never look inside a continuation.
-/
import Kojin.Foundation.Prog
import Mathlib.Data.List.Forall2

set_option autoImplicit false

namespace Kojin.Foundation

/-- Something that answers the calls of an interface, one at a time, out of its
state and an oracle.  No answer means that the call has to wait. -/
structure Service (I : Interface) where
  State : Type
  Oracle : Type
  respond : Oracle → State → (op : I.Op) → Option (I.Res op × State)

/-- A service together with the stimuli that arrive from outside; a stimulus may
start programs. -/
structure Machine (I : Interface) extends Service I where
  Stimulus : Type
  accept : Stimulus → State → Option (State × List (Prog I Unit))

/-- Run a program to its end without letting anything else in between. -/
def Service.eval {I : Interface} {α : Type} (S : Service I) (o : S.Oracle) :
    Prog I α → S.State → Option (α × S.State)
  | .ret a, s => some (a, s)
  | .call op k, s => (S.respond o s op).bind fun p => S.eval o (k p.1) p.2

/-! ## One program alone -/

namespace Service

variable {I : Interface} {α β : Type} (S : Service I)

/-- Run a program alone, with one oracle for each call: what it does, what it
returns, and the state it leaves. -/
def run : List S.Oracle → Prog I α → S.State → Option (List (Event I) × α × S.State)
  | _, .ret a, s => some ([], a, s)
  | [], .call _ _, _ => none
  | o :: os, .call op k, s =>
      (S.respond o s op).bind fun p =>
        (run os (k p.1) p.2).map fun q => (⟨op, p.1⟩ :: q.1, q.2)

/-- What the calls of such a run meet: each with its oracle and the state before it. -/
def met : List S.Oracle → Prog I α → S.State → List (S.Oracle × S.State × I.Op)
  | o :: os, .call op k, s =>
      (o, s, op) :: match S.respond o s op with
        | none => []
        | some p => met os (k p.1) p.2
  | _, _, _ => []

variable {S}

theorem run_ret_iff {os : List S.Oracle} {a b : α} {s s' : S.State} {tr : List (Event I)} :
    S.run os (.ret a) s = some (tr, b, s') ↔ tr = [] ∧ b = a ∧ s' = s := by
  rw [run]
  constructor
  · intro h
    cases h
    exact ⟨rfl, rfl, rfl⟩
  · rintro ⟨rfl, rfl, rfl⟩
    rfl

theorem run_call_iff {os : List S.Oracle} {op : I.Op} {k : I.Res op → Prog I α}
    {s s' : S.State} {tr : List (Event I)} {a : α} :
    S.run os (.call op k) s = some (tr, a, s') ↔
      ∃ o rest r s₁ tail, os = o :: rest ∧ S.respond o s op = some (r, s₁) ∧
        tr = ⟨op, r⟩ :: tail ∧ S.run rest (k r) s₁ = some (tail, a, s') := by
  constructor
  · intro h
    cases os with
    | nil => cases h
    | cons o rest =>
        obtain ⟨⟨r, s₁⟩, hr, hmap⟩ := Option.bind_eq_some_iff.mp h
        obtain ⟨⟨tail, a', s₂⟩, hrun, heq⟩ := Option.map_eq_some_iff.mp hmap
        cases heq
        exact ⟨o, rest, r, s₁, tail, rfl, hr, rfl, hrun⟩
  · rintro ⟨o, rest, r, s₁, tail, rfl, hr, rfl, hrun⟩
    rw [run, hr, Option.bind_some, hrun]
    rfl

theorem met_call {o : S.Oracle} {os : List S.Oracle} {op : I.Op} {k : I.Res op → Prog I α}
    {s s₁ : S.State} {r : I.Res op} (h : S.respond o s op = some (r, s₁)) :
    S.met (o :: os) (.call op k) s = (o, s, op) :: S.met os (k r) s₁ := by
  rw [met, h]

/-- A run of a sequential composition splits where the first program returns. -/
theorem run_bind {os : List S.Oracle} {p : Prog I α} {f : α → Prog I β} {s s' : S.State}
    {tr : List (Event I)} {b : β} (h : S.run os (p >>= f) s = some (tr, b, s')) :
    ∃ tr₁ tr₂ a s₁, tr = tr₁ ++ tr₂ ∧ S.run os p s = some (tr₁, a, s₁) ∧
      S.run (os.drop tr₁.length) (f a) s₁ = some (tr₂, b, s') := by
  induction p generalizing os s tr with
  | ret a => exact ⟨[], tr, a, s, rfl, run_ret_iff.mpr ⟨rfl, rfl, rfl⟩, h⟩
  | call op k ih =>
      rw [Prog.call_bind] at h
      obtain ⟨o, rest, r, s₁, tail, rfl, hr, rfl, hrun⟩ := run_call_iff.mp h
      obtain ⟨tr₁, tr₂, a, s₂, rfl, hfirst, hsecond⟩ := ih r hrun
      exact ⟨⟨op, r⟩ :: tr₁, tr₂, a, s₂, rfl,
        run_call_iff.mpr ⟨o, rest, r, s₁, tr₁, rfl, hr, rfl, hfirst⟩, hsecond⟩

/-- Two runs, one after the other. -/
theorem run_append {os : List S.Oracle} {p : Prog I α} {f : α → Prog I β} {s s₁ s' : S.State}
    {tr₁ tr₂ : List (Event I)} {a : α} {b : β} (hfirst : S.run os p s = some (tr₁, a, s₁))
    (hsecond : S.run (os.drop tr₁.length) (f a) s₁ = some (tr₂, b, s')) :
    S.run os (p >>= f) s = some (tr₁ ++ tr₂, b, s') := by
  induction p generalizing os s tr₁ with
  | ret c =>
      obtain ⟨rfl, rfl, rfl⟩ := run_ret_iff.mp hfirst
      exact hsecond
  | call op k ih =>
      obtain ⟨o, rest, r, s₂, tail, rfl, hr, rfl, hrun⟩ := run_call_iff.mp hfirst
      rw [Prog.call_bind]
      exact run_call_iff.mpr ⟨o, rest, r, s₂, tail ++ tr₂, rfl, hr, rfl, ih r hrun hsecond⟩

/-- What a program does on a service is one of its traces. -/
theorem trace_of_run {os : List S.Oracle} {p : Prog I α} {s s' : S.State}
    {tr : List (Event I)} {a : α} (h : S.run os p s = some (tr, a, s')) : p.Trace tr a := by
  induction p generalizing os s tr with
  | ret b =>
      obtain ⟨rfl, rfl, -⟩ := run_ret_iff.mp h
      exact .ret _
  | call op k ih =>
      obtain ⟨o, rest, r, s₁, tail, rfl, -, rfl, hrun⟩ := run_call_iff.mp h
      exact .call (ih r hrun)

/-- What the answers to calls of one kind keep, a run of such calls keeps. -/
theorem run_keeps {P : S.State → Prop} {C : I.Op → Prop}
    (hkeeps : ∀ o s op r s', P s → C op → S.respond o s op = some (r, s') → P s')
    {os : List S.Oracle} {p : Prog I α} {s s' : S.State} {tr : List (Event I)} {a : α}
    (hp : p.Calls C) (h : S.run os p s = some (tr, a, s')) (hs : P s) : P s' := by
  induction p generalizing os s tr with
  | ret b =>
      obtain ⟨-, -, rfl⟩ := run_ret_iff.mp h
      exact hs
  | call op k ih =>
      obtain ⟨o, rest, r, s₁, tail, rfl, hr, rfl, hrun⟩ := run_call_iff.mp h
      exact ih r (hp.2 r) hrun (hkeeps o s op r s₁ hs hp.1 hr)

/-- A run, seen through a map of the states that respects the answers. -/
theorem run_map (S' : Service I) (f : S.State → S'.State) (g : S.Oracle → S'.Oracle)
    (hrespond : ∀ o s op r s', S.respond o s op = some (r, s') →
      S'.respond (g o) (f s) op = some (r, f s'))
    {os : List S.Oracle} {p : Prog I α} {s s' : S.State} {tr : List (Event I)} {a : α}
    (h : S.run os p s = some (tr, a, s')) :
    S'.run (os.map g) p (f s) = some (tr, a, f s') := by
  induction p generalizing os s tr with
  | ret b =>
      obtain ⟨rfl, rfl, rfl⟩ := run_ret_iff.mp h
      exact run_ret_iff.mpr ⟨rfl, rfl, rfl⟩
  | call op k ih =>
      obtain ⟨o, rest, r, s₁, tail, rfl, hr, rfl, hrun⟩ := run_call_iff.mp h
      exact run_call_iff.mpr ⟨g o, rest.map g, r, f s₁, tail, rfl, hrespond o s op r s₁ hr, rfl,
        ih r hrun⟩

end Service

namespace Machine

variable {I : Interface} (M : Machine I)

/-! ## Many programs -/

/-- A pool of programs over the shared state.  A program that has returned stays
in the pool as `ret ()`. -/
structure Config where
  state : M.State
  threads : List (Prog I Unit)

/-- What one step of the pool did. -/
inductive Label where
  | call (event : Event I)
  | env (stimulus : M.Stimulus)

/-- One step: any program whose next call the machine answers makes that call, or
a stimulus arrives and starts its programs. -/
inductive Step : M.Config → M.Label → M.Config → Prop where
  | call (o : M.Oracle) {s s' : M.State} {op : I.Op} {r : I.Res op}
      (k : I.Res op → Prog I Unit) (before after : List (Prog I Unit)) :
      M.respond o s op = some (r, s') →
      Step ⟨s, before ++ .call op k :: after⟩ (.call ⟨op, r⟩) ⟨s', before ++ k r :: after⟩
  | env (x : M.Stimulus) {s s' : M.State} (threads : List (Prog I Unit))
      {new : List (Prog I Unit)} :
      M.accept x s = some (s', new) →
      Step ⟨s, threads⟩ (.env x) ⟨s', threads ++ new⟩

/-- `Reach M c₀ tr c`: some interleaving takes `c₀` to `c`, with history `tr`. -/
inductive Reach (c₀ : M.Config) : List M.Label → M.Config → Prop where
  | start : Reach c₀ [] c₀
  | step {tr : List M.Label} {c c' : M.Config} {l : M.Label} :
      Reach c₀ tr c → M.Step c l c' → Reach c₀ (tr ++ [l]) c'

variable {M}

/-- The step is a call of this kind. -/
def happens (f : Event I → Bool) : M.Label → Bool
  | .call e => f e
  | .env _ => false

/-- How many calls of this kind a history has. -/
def happened (f : Event I → Bool) (tr : List M.Label) : Nat := tr.countP (happens f)

theorem happened_snoc (f : Event I → Bool) (tr : List M.Label) (l : M.Label) :
    happened f (tr ++ [l]) = happened f tr + (happens f l).toNat := by
  rw [happened, List.countP_append]
  cases h : happens f l <;> simp [happened, h]

/-- Histories all of whose steps meet a condition, on the configuration they start
from and on what they do. -/
inductive ReachIf (good : M.Config → M.Label → Prop) (c₀ : M.Config) :
    List M.Label → M.Config → Prop where
  | start : ReachIf good c₀ [] c₀
  | step {tr : List M.Label} {c c' : M.Config} {l : M.Label} :
      ReachIf good c₀ tr c → good c l → M.Step c l c' → ReachIf good c₀ (tr ++ [l]) c'

/-- Histories compose. -/
theorem Reach.trans {c₀ c₁ c₂ : M.Config} {tr₁ tr₂ : List M.Label}
    (h₁ : M.Reach c₀ tr₁ c₁) (h₂ : M.Reach c₁ tr₂ c₂) : M.Reach c₀ (tr₁ ++ tr₂) c₂ := by
  induction h₂ with
  | start => simpa using h₁
  | step _ hstep ih =>
      rw [← List.append_assoc]
      exact .step ih hstep

/-- Histories whose steps meet a condition compose. -/
theorem ReachIf.trans {good : M.Config → M.Label → Prop} {c₀ c₁ c₂ : M.Config}
    {tr₁ tr₂ : List M.Label} (h₁ : ReachIf good c₀ tr₁ c₁) (h₂ : ReachIf good c₁ tr₂ c₂) :
    ReachIf good c₀ (tr₁ ++ tr₂) c₂ := by
  induction h₂ with
  | start => simpa using h₁
  | step _ hgood hstep ih =>
      rw [← List.append_assoc]
      exact .step ih hgood hstep

/-- A history all of whose steps meet the condition wherever they are taken. -/
theorem Reach.reachIf {good : M.Config → M.Label → Prop} {c₀ c : M.Config} {tr : List M.Label}
    (h : M.Reach c₀ tr c) (hgood : ∀ l ∈ tr, ∀ c, good c l) : ReachIf good c₀ tr c := by
  induction h with
  | start => exact .start
  | step _ hstep ih =>
      refine .step (ih fun l hl => hgood l (List.mem_append.mpr (.inl hl))) ?_ hstep
      exact hgood _ (List.mem_append.mpr (.inr List.mem_cons_self)) _

/-- A program that is not scheduled changes nothing. -/
theorem Reach.park {s s' : M.State} {ts ts' : List (Prog I Unit)} {tr : List M.Label}
    (p : Prog I Unit) (h : M.Reach ⟨s, ts⟩ tr ⟨s', ts'⟩) :
    M.Reach ⟨s, p :: ts⟩ tr ⟨s', p :: ts'⟩ := by
  generalize hc : (⟨s', ts'⟩ : M.Config) = c at h
  induction h generalizing s' ts' with
  | start =>
      cases hc
      exact .start
  | @step tr c c' l _ hstep ih =>
      have hprev := @ih c.state c.threads rfl
      refine .step hprev ?_
      subst hc
      cases hstep with
      | call o k before after hrespond => exact .call o k (p :: before) after hrespond
      | env x threads haccept => exact .env x (p :: threads) haccept

/-- When every program there is or will be only makes calls of one kind, the history
has no others. -/
theorem Reach.calls {C : I.Op → Prop}
    (hentry : ∀ x s s' new, M.accept x s = some (s', new) → ∀ p ∈ new, p.Calls C)
    {c₀ c : M.Config} (h₀ : ∀ p ∈ c₀.threads, p.Calls C) {tr : List M.Label}
    (h : M.Reach c₀ tr c) : (∀ e, .call e ∈ tr → C e.op) ∧ ∀ p ∈ c.threads, p.Calls C := by
  induction h with
  | start => exact ⟨fun e he => (List.not_mem_nil he).elim, h₀⟩
  | step _ hstep ih =>
      obtain ⟨hpast, hthreads⟩ := ih
      cases hstep with
      | @call o s s' op r k before after hr =>
          have hp : (Prog.call op k).Calls C :=
            hthreads _ (List.mem_append.mpr (.inr List.mem_cons_self))
          refine ⟨fun e he => ?_, fun p hmem => ?_⟩
          · rcases List.mem_append.mp he with he | he
            · exact hpast e he
            · cases List.mem_singleton.mp he
              exact hp.1
          · rcases List.mem_append.mp hmem with hmem | hmem
            · exact hthreads p (List.mem_append.mpr (.inl hmem))
            rcases List.mem_cons.mp hmem with rfl | hmem
            · exact hp.2 r
            · exact hthreads p (List.mem_append.mpr (.inr (List.mem_cons_of_mem _ hmem)))
      | @env x s s' threads new haccept =>
          refine ⟨fun e he => ?_, fun p hmem => ?_⟩
          · rcases List.mem_append.mp he with he | he
            · exact hpast e he
            · cases List.mem_singleton.mp he
          · rcases List.mem_append.mp hmem with hmem | hmem
            · exact hthreads p hmem
            · exact hentry x s s' new haccept p hmem

/-- What a projection of the history gains with one more step. -/
theorem filterMap_snoc {δ ε : Type} (f : δ → Option ε) (tr : List δ) (l : δ) :
    (tr ++ [l]).filterMap f = tr.filterMap f ++ (f l).toList := by
  rw [List.filterMap_append]
  cases h : f l <;> simp [h]

/-- An entry that shows nothing. -/
theorem filterMap_snoc_none {δ ε : Type} {f : δ → Option ε} {l : δ} (h : f l = none)
    (tr : List δ) : (tr ++ [l]).filterMap f = tr.filterMap f := by
  rw [filterMap_snoc, h, Option.toList_none, List.append_nil]

/-! ## Playing a schedule -/

variable (M)

/-- A scheduler's decision: run the `i`-th program with this oracle, or let a
stimulus in. -/
inductive Move where
  | run (i : Nat) (o : M.Oracle)
  | env (x : M.Stimulus)

variable {M}

/-- The step a decision leads to, if it is possible. -/
def Config.play (c : M.Config) : M.Move → Option (M.Label × M.Config)
  | .run i o =>
      match c.threads[i]? with
      | some (.call op k) =>
          (M.respond o c.state op).map fun p =>
            (.call ⟨op, p.1⟩, ⟨p.2, c.threads.set i (k p.1)⟩)
      | _ => none
  | .env x =>
      (M.accept x c.state).map fun p => (.env x, ⟨p.1, c.threads ++ p.2⟩)

/-- Play a whole schedule, collecting the history. -/
def Config.playAll (c : M.Config) : List M.Move → Option (List M.Label × M.Config)
  | [] => some ([], c)
  | m :: ms =>
      match c.play m with
      | none => none
      | some (l, c') => (c'.playAll ms).map fun p => (l :: p.1, p.2)

theorem Config.step_of_play {c c' : M.Config} {m : M.Move} {l : M.Label}
    (h : c.play m = some (l, c')) : M.Step c l c' := by
  cases m with
  | run i o =>
      rcases c with ⟨s, threads⟩
      simp only [Config.play] at h
      split at h
      · rename_i op k hi
        rw [Option.map_eq_some_iff] at h
        obtain ⟨⟨r, s'⟩, hr, heq⟩ := h
        simp only [Prod.mk.injEq] at heq
        obtain ⟨rfl, rfl⟩ := heq
        obtain ⟨hlt, hget⟩ := List.getElem?_eq_some_iff.mp hi
        have hsplit : threads = threads.take i ++ .call op k :: threads.drop (i + 1) := by
          rw [← hget, List.getElem_cons_drop, List.take_append_drop]
        have hset : threads.set i (k r) = threads.take i ++ k r :: threads.drop (i + 1) := by
          rw [List.set_eq_take_append_cons_drop, if_pos hlt]
        rw [hset]
        conv in (Config.mk s threads) => rw [hsplit]
        exact .call o k _ _ hr
      · cases h
  | env x =>
      rcases c with ⟨s, threads⟩
      simp only [Config.play, Option.map_eq_some_iff] at h
      obtain ⟨⟨s', new⟩, haccept, heq⟩ := h
      simp only [Prod.mk.injEq] at heq
      obtain ⟨rfl, rfl⟩ := heq
      exact .env x threads haccept

/-- The step of a decision that is known to be possible. -/
theorem Config.step_of_get {c : M.Config} {m : M.Move} (h : (c.play m).isSome = true) :
    M.Step c ((c.play m).get h).1 ((c.play m).get h).2 :=
  step_of_play (Option.some_get h).symm

/-- Every schedule that plays through is a history of the machine. -/
theorem Config.reach_of_playAll {ms : List M.Move} :
    ∀ {c c' : M.Config} {tr : List M.Label},
      c.playAll ms = some (tr, c') → M.Reach c tr c' := by
  induction ms with
  | nil =>
      intro c c' tr h
      simp only [Config.playAll, Option.some.injEq, Prod.mk.injEq] at h
      obtain ⟨rfl, rfl⟩ := h
      exact .start
  | cons m ms ih =>
      intro c c' tr h
      simp only [Config.playAll] at h
      split at h
      · cases h
      · rename_i l c₁ hm
        rw [Option.map_eq_some_iff] at h
        obtain ⟨⟨tr', c₂⟩, hrest, heq⟩ := h
        simp only [Prod.mk.injEq] at heq
        obtain ⟨rfl, rfl⟩ := heq
        exact Reach.trans (.step .start (step_of_play hm)) (ih hrest)

/-- The history of a schedule that is known to play through. -/
theorem Config.reach_of_get {c : M.Config} {ms : List M.Move}
    (h : (c.playAll ms).isSome = true) :
    M.Reach c ((c.playAll ms).get h).1 ((c.playAll ms).get h).2 :=
  reach_of_playAll (Option.some_get h).symm

/-- Every step of a schedule passes a test. -/
def Config.keeps (test : M.Config → M.Label → Bool) (c : M.Config) : List M.Move → Bool
  | [] => true
  | m :: ms =>
      match c.play m with
      | none => false
      | some (l, c') => test c l && c'.keeps test ms

/-- A schedule whose steps pass a test is a history whose steps meet the condition
tested. -/
theorem Config.reachIf_of_keeps {good : M.Config → M.Label → Prop}
    {test : M.Config → M.Label → Bool} (htest : ∀ c l, test c l = true → good c l)
    {ms : List M.Move} :
    ∀ {c c' : M.Config} {tr : List M.Label}, c.playAll ms = some (tr, c') →
      c.keeps test ms = true → ReachIf good c tr c' := by
  induction ms with
  | nil =>
      intro c c' tr h _
      simp only [Config.playAll, Option.some.injEq, Prod.mk.injEq] at h
      obtain ⟨rfl, rfl⟩ := h
      exact .start
  | cons m ms ih =>
      intro c c' tr h hkeeps
      simp only [Config.playAll] at h
      simp only [Config.keeps] at hkeeps
      split at h
      · cases h
      · rename_i l c₁ hm
        rw [hm] at hkeeps
        rw [Option.map_eq_some_iff] at h
        obtain ⟨⟨tr', c₂⟩, hrest, heq⟩ := h
        simp only [Prod.mk.injEq] at heq
        obtain ⟨rfl, rfl⟩ := heq
        obtain ⟨hfirst, hlater⟩ := Bool.and_eq_true_iff.mp hkeeps
        exact (ReachIf.step .start (htest c l hfirst) (step_of_play hm)).trans (ih hrest hlater)

/-! ## Stages instead of programs -/

/-- Related lists split at the same place. -/
theorem forall₂_split {δ ε : Type} {R : δ → ε → Prop} {before after : List δ} {a : δ} :
    ∀ {us : List ε}, List.Forall₂ R (before ++ a :: after) us →
      ∃ us₁ u us₂, us = us₁ ++ u :: us₂ ∧ List.Forall₂ R before us₁ ∧ R a u ∧
        List.Forall₂ R after us₂ := by
  induction before with
  | nil =>
      intro us h
      cases h with
      | cons ha hafter => exact ⟨[], _, _, rfl, .nil, ha, hafter⟩
  | cons b before ih =>
      intro us h
      cases h with
      | cons hb hrest =>
          obtain ⟨us₁, u, us₂, rfl, hbefore, ha, hafter⟩ := ih hrest
          exact ⟨_ :: us₁, u, us₂, rfl, .cons hb hbefore, ha, hafter⟩

/-- Every element on the right of related lists is related to one on the left. -/
theorem exists_of_forall₂ {δ ε : Type} {R : δ → ε → Prop} {as : List δ} {us : List ε} {u : ε}
    (h : List.Forall₂ R as us) (hu : u ∈ us) : ∃ a ∈ as, R a u := by
  induction h with
  | nil => cases hu
  | cons hfirst _ ih =>
      rcases List.mem_cons.mp hu with rfl | hu
      · exact ⟨_, List.mem_cons_self, hfirst⟩
      · obtain ⟨a, ha, hrel⟩ := ih hu
        exact ⟨a, List.mem_cons_of_mem _ ha, hrel⟩

section Staged

variable (P : Protocol I) (entry : M.Stimulus → M.State → List P.Stage)

variable (M) in
/-- The pool with every program replaced by the stage it has reached. -/
structure Staged where
  state : M.State
  stages : List P.Stage

/-- One step of the staged pool: the same answers and the same stimuli, with a
protocol step in place of the continuation. -/
inductive StagedStep : M.Staged P → M.Label → M.Staged P → Prop where
  | call (o : M.Oracle) {s s' : M.State} {op : I.Op} {r : I.Res op} {t t' : P.Stage}
      (before after : List P.Stage) :
      M.respond o s op = some (r, s') → P.Step t op r t' →
      StagedStep ⟨s, before ++ t :: after⟩ (.call ⟨op, r⟩) ⟨s', before ++ t' :: after⟩
  | env (x : M.Stimulus) {s s' : M.State} (stages : List P.Stage)
      {new : List (Prog I Unit)} :
      M.accept x s = some (s', new) →
      StagedStep ⟨s, stages⟩ (.env x) ⟨s', stages ++ entry x s⟩

/-- Histories of the staged pool. -/
inductive StagedReach (c₀ : M.Staged P) : List M.Label → M.Staged P → Prop where
  | start : StagedReach c₀ [] c₀
  | step {tr : List M.Label} {c c' : M.Staged P} {l : M.Label} :
      StagedReach c₀ tr c → StagedStep P entry c l c' → StagedReach c₀ (tr ++ [l]) c'

variable {P entry}

/-- Histories of the staged pool all of whose steps meet a condition. -/
inductive StagedReachIf (good : M.Staged P → M.Label → Prop)
    (entry : M.Stimulus → M.State → List P.Stage) (c₀ : M.Staged P) :
    List M.Label → M.Staged P → Prop where
  | start : StagedReachIf good entry c₀ [] c₀
  | step {tr : List M.Label} {c c' : M.Staged P} {l : M.Label} :
      StagedReachIf good entry c₀ tr c → good c l → StagedStep P entry c l c' →
      StagedReachIf good entry c₀ (tr ++ [l]) c'

/-- Histories whose steps meet a condition are histories of the staged pool. -/
theorem StagedReachIf.reach {good : M.Staged P → M.Label → Prop}
    {entry : M.Stimulus → M.State → List P.Stage} {c₀ c : M.Staged P} {tr : List M.Label}
    (h : StagedReachIf good entry c₀ tr c) : StagedReach P entry c₀ tr c := by
  induction h with
  | start => exact .start
  | step _ _ hstep ih => exact .step ih hstep

/-- One step of the pool is one step of the staged pool. -/
theorem Step.staged
    (hentry : ∀ x s s' new, M.accept x s = some (s', new) →
      List.Forall₂ (Prog.Follows P) new (entry x s))
    {c c' : M.Config} {l : M.Label} (hstep : M.Step c l c') {stages : List P.Stage}
    (hall : List.Forall₂ (Prog.Follows P) c.threads stages) :
    ∃ stages', StagedStep P entry ⟨c.state, stages⟩ l ⟨c'.state, stages'⟩ ∧
      List.Forall₂ (Prog.Follows P) c'.threads stages' := by
  cases hstep with
  | @call o s s' op r k before after hr =>
      obtain ⟨ts, t, ts', rfl, hbefore, hfollows, hafter⟩ := forall₂_split hall
      obtain ⟨t', hpstep, hk⟩ := hfollows r
      refine ⟨ts ++ t' :: ts', .call o ts ts' hr hpstep, ?_⟩
      exact List.rel_append hbefore (.cons hk hafter)
  | env x threads haccept =>
      refine ⟨stages ++ entry x _, .env x stages haccept, ?_⟩
      exact List.rel_append hall (hentry _ _ _ _ haccept)

/-- Every history of the pool is a history of the staged pool, ending in the same
shared state with every program at a stage it follows the protocol from. -/
theorem Reach.staged
    (hentry : ∀ x s s' new, M.accept x s = some (s', new) →
      List.Forall₂ (Prog.Follows P) new (entry x s))
    {c₀ : M.Config} {stages₀ : List P.Stage}
    (h₀ : List.Forall₂ (Prog.Follows P) c₀.threads stages₀)
    {tr : List M.Label} {c : M.Config} (h : M.Reach c₀ tr c) :
    ∃ stages, StagedReach P entry ⟨c₀.state, stages₀⟩ tr ⟨c.state, stages⟩ ∧
      List.Forall₂ (Prog.Follows P) c.threads stages := by
  induction h with
  | start => exact ⟨stages₀, .start, h₀⟩
  | step _ hstep ih =>
      obtain ⟨stages, hreach, hall⟩ := ih
      obtain ⟨stages', hstaged, hall'⟩ := hstep.staged hentry hall
      exact ⟨stages', .step hreach hstaged, hall'⟩

/-- Every history whose steps meet a condition that can be told from the stages is one of the staged
pool. -/
theorem ReachIf.staged {good : M.Config → M.Label → Prop} {good' : M.Staged P → M.Label → Prop}
    (hentry : ∀ x s s' new, M.accept x s = some (s', new) →
      List.Forall₂ (Prog.Follows P) new (entry x s))
    (hgood : ∀ c stages l, List.Forall₂ (Prog.Follows P) c.threads stages → good c l →
      good' ⟨c.state, stages⟩ l)
    {c₀ : M.Config} {stages₀ : List P.Stage}
    (h₀ : List.Forall₂ (Prog.Follows P) c₀.threads stages₀)
    {tr : List M.Label} {c : M.Config} (h : M.ReachIf good c₀ tr c) :
    ∃ stages, StagedReachIf good' entry ⟨c₀.state, stages₀⟩ tr ⟨c.state, stages⟩ ∧
      List.Forall₂ (Prog.Follows P) c.threads stages := by
  induction h with
  | start => exact ⟨stages₀, .start, h₀⟩
  | step _ hg hstep ih =>
      obtain ⟨stages, hreach, hall⟩ := ih
      obtain ⟨stages', hstaged, hall'⟩ := hstep.staged hentry hall
      exact ⟨stages', .step hreach (hgood _ stages _ hall hg) hstaged, hall'⟩

end Staged

end Machine

end Kojin.Foundation
