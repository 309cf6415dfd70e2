/-
  Foundation/Prog.lean --- effectful programs as trees of calls, and a program
  logic that relates them to protocols.

  WHAT THIS FILE IS FOR.  Asynchronous code is a sequence of calls, each of which
  is answered by its surroundings before the code goes on.  `Prog I α` is that
  tree: a finished program, or one call of the interface `I` with a continuation
  for every possible answer.  The answers are not fixed by the program, so a
  statement about a `Prog` holds whatever its surroundings do.

  TWO WAYS TO SPEAK ABOUT A PROGRAM.

      Trace p tr a   : some sequence of answers makes `p` perform exactly `tr`
                       and return `a`
      Prog.wp P p t Q : started at stage `t` of the protocol `P`, every call of
                       `p` is a step of the protocol, and `Q` holds at the end

  A protocol is an automaton over calls.  It forgets the continuations and keeps
  a stage, which is what an invariant over many programs at once can name.

  Nothing here mentions a particular program.
-/
import Mathlib.Data.List.Basic

set_option autoImplicit false

namespace Kojin.Foundation

/-- The calls a program may make, and the type of the answer to each. -/
structure Interface where
  Op : Type
  Res : Op → Type

/-- A call together with the answer it got. -/
structure Event (I : Interface) where
  op : I.Op
  res : I.Res op

/-- A program over the interface `I` that returns an `α`. -/
inductive Prog (I : Interface) (α : Type) : Type where
  | ret (value : α) : Prog I α
  | call (op : I.Op) (next : I.Res op → Prog I α) : Prog I α

namespace Prog

variable {I : Interface} {α β γ : Type}

/-- Run `p`, then continue with its value. -/
def bind : Prog I α → (α → Prog I β) → Prog I β
  | .ret a, f => f a
  | .call op k, f => .call op fun r => (k r).bind f

instance : Monad (Prog I) where
  pure := .ret
  bind := bind

/-- The program that makes a single call and returns its answer. -/
def perform (op : I.Op) : Prog I (I.Res op) := .call op .ret

@[simp] theorem pure_eq_ret (a : α) : (pure a : Prog I α) = .ret a := rfl

@[simp] theorem ret_bind (a : α) (f : α → Prog I β) :
    (Prog.ret a : Prog I α) >>= f = f a := rfl

@[simp] theorem call_bind (op : I.Op) (k : I.Res op → Prog I α) (f : α → Prog I β) :
    (Prog.call op k : Prog I α) >>= f = .call op (fun r => k r >>= f) := rfl

@[simp] theorem perform_bind (op : I.Op) (f : I.Res op → Prog I β) :
    perform op >>= f = .call op f := rfl

/-! ## Implementing one interface by another -/

/-- Replace every call of `I` by the program over `J` that implements it. -/
def interp {J : Interface} (impl : (op : I.Op) → Prog J (I.Res op)) : Prog I α → Prog J α
  | .ret a => .ret a
  | .call op k => (impl op).bind fun r => (k r).interp impl

/-! ## Traces -/

/-- `Trace p tr a`: answered as the events of `tr` say, `p` makes exactly the
calls of `tr` and returns `a`. -/
inductive Trace : Prog I α → List (Event I) → α → Prop where
  | ret (a : α) : Trace (.ret a) [] a
  | call {op : I.Op} {k : I.Res op → Prog I α} {r : I.Res op}
      {tr : List (Event I)} {a : α} :
      Trace (k r) tr a → Trace (.call op k) (⟨op, r⟩ :: tr) a

theorem trace_ret_iff {a b : α} {tr : List (Event I)} :
    Trace (.ret a : Prog I α) tr b ↔ tr = [] ∧ b = a := by
  constructor
  · intro h
    cases h
    exact ⟨rfl, rfl⟩
  · rintro ⟨rfl, rfl⟩
    exact .ret _

theorem trace_call_iff {op : I.Op} {k : I.Res op → Prog I α}
    {tr : List (Event I)} {a : α} :
    Trace (.call op k) tr a ↔ ∃ r rest, tr = ⟨op, r⟩ :: rest ∧ Trace (k r) rest a := by
  constructor
  · intro h
    cases h with
    | call h => exact ⟨_, _, rfl, h⟩
  · rintro ⟨r, rest, rfl, h⟩
    exact .call h

/-- A trace of a sequential composition splits at the point where the first
program returns. -/
theorem trace_bind_iff {p : Prog I α} {f : α → Prog I β} {tr : List (Event I)} {b : β} :
    Trace (p >>= f) tr b ↔
      ∃ tr₁ tr₂ a, tr = tr₁ ++ tr₂ ∧ Trace p tr₁ a ∧ Trace (f a) tr₂ b := by
  induction p generalizing tr with
  | ret a =>
      rw [ret_bind]
      constructor
      · intro h
        exact ⟨[], tr, a, rfl, .ret a, h⟩
      · rintro ⟨tr₁, tr₂, a', rfl, h₁, h₂⟩
        obtain ⟨rfl, rfl⟩ := trace_ret_iff.mp h₁
        exact h₂
  | call op k ih =>
      rw [call_bind, trace_call_iff]
      constructor
      · rintro ⟨r, rest, rfl, h⟩
        obtain ⟨tr₁, tr₂, a, rfl, h₁, h₂⟩ := (ih r).mp h
        exact ⟨⟨op, r⟩ :: tr₁, tr₂, a, rfl, .call h₁, h₂⟩
      · rintro ⟨tr₁, tr₂, a, rfl, h₁, h₂⟩
        obtain ⟨r, rest, rfl, hfirst⟩ := trace_call_iff.mp h₁
        exact ⟨r, rest ++ tr₂, rfl, (ih r).mpr ⟨rest, tr₂, a, rfl, hfirst, h₂⟩⟩

/-- Every call the program can come to satisfies `C`. -/
def Calls (C : I.Op → Prop) : Prog I α → Prop
  | .ret _ => True
  | .call op k => C op ∧ ∀ r, (k r).Calls C

theorem Calls.bind {C : I.Op → Prop} {p : Prog I α} {f : α → Prog I β} (h : p.Calls C)
    (hf : ∀ a, (f a).Calls C) : (p >>= f).Calls C := by
  induction p with
  | ret a => exact hf a
  | call op k ih => exact ⟨h.1, fun r => ih r (h.2 r)⟩

theorem Calls.mono {C D : I.Op → Prop} (hCD : ∀ op, C op → D op) {p : Prog I α}
    (h : p.Calls C) : p.Calls D := by
  induction p with
  | ret a => trivial
  | call op k ih => exact ⟨hCD op h.1, fun r => ih r (h.2 r)⟩

/-- Implementations that make calls of one kind for calls of another. -/
theorem Calls.interp {J : Interface} {impl : (op : I.Op) → Prog J (I.Res op)} {C : I.Op → Prop}
    {D : J.Op → Prop} (himpl : ∀ op, C op → (impl op).Calls D) {p : Prog I α} (h : p.Calls C) :
    (p.interp impl).Calls D := by
  induction p with
  | ret a => trivial
  | call op k ih => exact (himpl op h.1).bind fun r => ih r (h.2 r)

/-- Every call that a program made is of the kind of its calls. -/
theorem Calls.trace {C : I.Op → Prop} {p : Prog I α} (h : p.Calls C) {tr : List (Event I)}
    {a : α} (htr : Trace p tr a) : ∀ e ∈ tr, C e.op := by
  induction htr with
  | ret a => exact fun e he => nomatch he
  | call _ ih =>
      intro e he
      rcases List.mem_cons.mp he with rfl | he
      · exact h.1
      · exact ih (h.2 _) e he

/-- `Realizes impl tr tr'`: the events of `tr'` are what the implementations of
the calls in `tr` did, one after the other. -/
inductive Realizes {J : Interface} (impl : (op : I.Op) → Prog J (I.Res op)) :
    List (Event I) → List (Event J) → Prop where
  | nil : Realizes impl [] []
  | cons {op : I.Op} {r : I.Res op} {tr : List (Event I)} {part tr' : List (Event J)} :
      Trace (impl op) part r → Realizes impl tr tr' →
      Realizes impl (⟨op, r⟩ :: tr) (part ++ tr')

/-- A trace of an implementation is a trace of the program, realized. -/
theorem Trace.of_interp {J : Interface} {impl : (op : I.Op) → Prog J (I.Res op)}
    {p : Prog I α} {tr' : List (Event J)} {a : α} (h : Trace (p.interp impl) tr' a) :
    ∃ tr, Trace p tr a ∧ Realizes impl tr tr' := by
  induction p generalizing tr' with
  | ret b =>
      obtain ⟨rfl, rfl⟩ := trace_ret_iff.mp h
      exact ⟨[], .ret a, .nil⟩
  | call op k ih =>
      obtain ⟨part, rest, r, rfl, hpart, hrest⟩ := trace_bind_iff.mp h
      obtain ⟨tr, htr, hreal⟩ := ih r hrest
      exact ⟨⟨op, r⟩ :: tr, .call htr, .cons hpart hreal⟩

/-- Every call left its own trace. -/
theorem Realizes.part {J : Interface} {impl : (op : I.Op) → Prog J (I.Res op)}
    {tr : List (Event I)} {tr' : List (Event J)} (h : Realizes impl tr tr') {e : Event I}
    (he : e ∈ tr) : ∃ part, Trace (impl e.op) part e.res ∧ ∀ x ∈ part, x ∈ tr' := by
  induction h with
  | nil => cases he
  | @cons op r tr part tr' hpart _ ih =>
      rcases List.mem_cons.mp he with rfl | he
      · exact ⟨part, hpart, fun x hx => List.mem_append.mpr (.inl hx)⟩
      · obtain ⟨part', hpart', hsub⟩ := ih he
        exact ⟨part', hpart', fun x hx => List.mem_append.mpr (.inr (hsub x hx))⟩

end Prog

/-! ## Protocols -/

/-- An automaton over the calls of an interface.  `Final` marks the stages at
which a program may stop. -/
structure Protocol (I : Interface) where
  Stage : Type
  Step : Stage → (op : I.Op) → I.Res op → Stage → Prop
  Final : Stage → Prop

namespace Prog

variable {I : Interface} {α β : Type} {P : Protocol I}

/-- Weakest precondition of a program over a protocol: whatever the answers,
each call is a step of the protocol and the postcondition holds where the
program returns. -/
def wp (P : Protocol I) : Prog I α → P.Stage → (α → P.Stage → Prop) → Prop
  | .ret a, t, Q => Q a t
  | .call op k, t, Q => ∀ r, ∃ t', P.Step t op r t' ∧ (k r).wp P t' Q

/-- The program respects the protocol from stage `t` on, and stops only at a
final stage. -/
def Follows (P : Protocol I) (p : Prog I Unit) (t : P.Stage) : Prop :=
  p.wp P t fun _ t' => P.Final t'

@[simp] theorem wp_ret (a : α) (t : P.Stage) (Q : α → P.Stage → Prop) :
    (Prog.ret a : Prog I α).wp P t Q ↔ Q a t := Iff.rfl

@[simp] theorem wp_call (op : I.Op) (k : I.Res op → Prog I α) (t : P.Stage)
    (Q : α → P.Stage → Prop) :
    (Prog.call op k).wp P t Q ↔ ∀ r, ∃ t', P.Step t op r t' ∧ (k r).wp P t' Q := Iff.rfl

/-- The rule of sequential composition. -/
theorem wp_bind (p : Prog I α) (f : α → Prog I β) (t : P.Stage)
    (Q : β → P.Stage → Prop) :
    (p >>= f).wp P t Q ↔ p.wp P t fun a t' => (f a).wp P t' Q := by
  induction p generalizing t with
  | ret a => rfl
  | call op k ih =>
      rw [call_bind, wp_call, wp_call]
      constructor
      · intro h r
        obtain ⟨t', hstep, hk⟩ := h r
        exact ⟨t', hstep, (ih r t').mp hk⟩
      · intro h r
        obtain ⟨t', hstep, hk⟩ := h r
        exact ⟨t', hstep, (ih r t').mpr hk⟩

/-- The rule of consequence. -/
theorem wp_mono {p : Prog I α} {t : P.Stage} {Q R : α → P.Stage → Prop}
    (h : p.wp P t Q) (hQR : ∀ a t', Q a t' → R a t') : p.wp P t R := by
  induction p generalizing t with
  | ret a => exact hQR a t h
  | call op k ih =>
      intro r
      obtain ⟨t', hstep, hk⟩ := h r
      exact ⟨t', hstep, ih r hk⟩

/-- Sequential composition in the direction proofs use it. -/
theorem wp_seq {p : Prog I α} {f : α → Prog I β} {t : P.Stage}
    {Q : α → P.Stage → Prop} {R : β → P.Stage → Prop}
    (h : p.wp P t Q) (hf : ∀ a t', Q a t' → (f a).wp P t' R) :
    (p >>= f).wp P t R :=
  (wp_bind p f t R).mpr (wp_mono h hf)

/-- A protocol over `I` carries over to the implementation of `I` by `J`: it is
enough that each call, wherever the protocol allows it, is implemented in line
with the protocol over `J`.  `f` is the choice of next stage the call leads to. -/
theorem Follows.interp {J : Interface} {impl : (op : I.Op) → Prog J (I.Res op)}
    {R : Protocol J} (enc : P.Stage → R.Stage)
    (himpl : ∀ (t : P.Stage) (op : I.Op) (f : I.Res op → P.Stage),
      (∀ r, P.Step t op r (f r)) → (impl op).wp R (enc t) fun r u => u = enc (f r))
    (hfinal : ∀ t, P.Final t → R.Final (enc t)) {p : Prog I Unit} {t : P.Stage}
    (h : p.Follows P t) : (p.interp impl).Follows R (enc t) := by
  induction p generalizing t with
  | ret a => exact hfinal t h
  | call op k ih =>
      choose f hstep hnext using h
      refine wp_seq (himpl t op f hstep) ?_
      intro r u hu
      rw [hu]
      exact ih r (hnext r)

/-- A protocol carries over to an implementation, with a relation between the stages of the two
protocols. -/
theorem Follows.implemented {J : Interface} {impl : (op : I.Op) → Prog J (I.Res op)}
    {R : Protocol J} (rel : P.Stage → R.Stage → Prop)
    (himpl : ∀ (t : P.Stage) (u : R.Stage) (op : I.Op) (f : I.Res op → P.Stage), rel t u →
      (∀ r, P.Step t op r (f r)) → (impl op).wp R u fun r u' => rel (f r) u')
    (hfinal : ∀ t u, rel t u → P.Final t → R.Final u) {p : Prog I Unit} {t : P.Stage}
    {u : R.Stage} (hrel : rel t u) (h : p.Follows P t) : (p.interp impl).Follows R u := by
  induction p generalizing t u with
  | ret a => exact hfinal t u hrel h
  | call op k ih =>
      choose f hstep hnext using h
      exact wp_seq (himpl t u op f hrel hstep) fun r u' hu' => ih r hu' (hnext r)

/-- A program that follows a protocol follows every protocol that simulates it. -/
theorem Follows.simulated {R : Protocol I} (rel : P.Stage → R.Stage → Prop)
    (hstep : ∀ {t : P.Stage} {u : R.Stage} {op : I.Op} {r : I.Res op} {t' : P.Stage}, rel t u →
      P.Step t op r t' → ∃ u', R.Step u op r u' ∧ rel t' u')
    (hfinal : ∀ t u, rel t u → P.Final t → R.Final u) {p : Prog I Unit} {t : P.Stage}
    {u : R.Stage} (hrel : rel t u) (h : p.Follows P t) : p.Follows R u := by
  induction p generalizing t u with
  | ret a => exact hfinal t u hrel h
  | call op k ih =>
      intro r
      obtain ⟨t', ht, hk⟩ := h r
      obtain ⟨u', hu, hrel'⟩ := hstep hrel ht
      exact ⟨u', hu, ih r hrel' hk⟩

/-! ## Paths of a protocol -/

/-- The events lead from one stage to another. -/
inductive Path (P : Protocol I) : P.Stage → List (Event I) → P.Stage → Prop where
  | stop (t : P.Stage) : Path P t [] t
  | step {t t' t'' : P.Stage} {op : I.Op} {r : I.Res op} {tr : List (Event I)} :
      P.Step t op r t' → Path P t' tr t'' → Path P t (⟨op, r⟩ :: tr) t''

/-- Every trace of a program that follows a protocol is a path to a final stage. -/
theorem Follows.path {p : Prog I Unit} {t : P.Stage} (h : p.Follows P t)
    {tr : List (Event I)} (htr : p.Trace tr ()) : ∃ t', Path P t tr t' ∧ P.Final t' := by
  induction p generalizing t tr with
  | ret a =>
      obtain ⟨rfl, -⟩ := trace_ret_iff.mp htr
      exact ⟨t, .stop t, h⟩
  | call op k ih =>
      obtain ⟨r, rest, rfl, hrest⟩ := trace_call_iff.mp htr
      obtain ⟨t', hstep, hk⟩ := h r
      obtain ⟨t'', hpath, hfinal⟩ := ih r hk hrest
      exact ⟨t'', .step hstep hpath, hfinal⟩

end Prog

end Kojin.Foundation
