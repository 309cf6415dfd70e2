/-
  Foundation/History.lean --- a service that is called from one place only.

  `serve` makes a list of calls one after the other, each answered before the next
  is made.  `Answered A` says that every answer of such a history is the one `A`
  allows after the calls before it, so two services that are held to compatible
  conditions answer alike, call by call.  `Throughout P` says something of every call,
  by the calls before it.

  Nothing here mentions a particular service.
-/
import Kojin.Foundation.Machine
import Mathlib.Data.List.Induction
import Mathlib.Data.List.Infix

set_option autoImplicit false

namespace Kojin.Foundation

variable {I : Interface} {S : Service I}

/-- Every answer of a history is allowed after the calls made before it. -/
def Answered (A : List I.Op → (op : I.Op) → I.Res op → Prop) :
    List I.Op → List (Event I) → Prop
  | _, [] => True
  | calls, e :: history => A calls e.op e.res ∧ Answered A (calls ++ [e.op]) history

namespace Service

/-- Make the calls one after the other, with one oracle for each. -/
def serve (S : Service I) : List (S.Oracle × I.Op) → S.State → Option (List (Event I) × S.State)
  | [], s => some ([], s)
  | (o, op) :: rest, s =>
      (S.respond o s op).bind fun p =>
        (S.serve rest p.2).map fun q => (⟨op, p.1⟩ :: q.1, q.2)

theorem serve_cons_iff {o : S.Oracle} {op : I.Op} {rest : List (S.Oracle × I.Op)}
    {s s' : S.State} {history : List (Event I)} :
    S.serve ((o, op) :: rest) s = some (history, s') ↔
      ∃ r s₁ tail, S.respond o s op = some (r, s₁) ∧ S.serve rest s₁ = some (tail, s') ∧
        history = ⟨op, r⟩ :: tail := by
  simp only [serve, Option.bind_eq_some_iff, Option.map_eq_some_iff, Prod.exists, Prod.mk.injEq]
  constructor
  · rintro ⟨r, s₁, hr, tail, s₂, hserve, rfl, rfl⟩
    exact ⟨r, s₁, tail, hr, hserve, rfl⟩
  · rintro ⟨r, s₁, tail, hr, hserve, rfl⟩
    exact ⟨r, s₁, hr, tail, s', hserve, rfl, rfl⟩

/-- A history shows the calls that were made. -/
theorem ops_serve {calls : List (S.Oracle × I.Op)} {s s' : S.State} {history : List (Event I)}
    (h : S.serve calls s = some (history, s')) : history.map Event.op = calls.map Prod.snd := by
  induction calls generalizing s history with
  | nil =>
      cases h
      rfl
  | cons call rest ih =>
      obtain ⟨r, s₁, tail, -, hserve, rfl⟩ := serve_cons_iff.mp h
      rw [List.map_cons, List.map_cons, ih hserve]

/-- Calls that are served are served in parts. -/
theorem serve_append {first second : List (S.Oracle × I.Op)} {s s' : S.State}
    {history : List (Event I)} (h : S.serve (first ++ second) s = some (history, s')) :
    ∃ history₁ s₁ history₂, S.serve first s = some (history₁, s₁) ∧
      S.serve second s₁ = some (history₂, s') ∧ history = history₁ ++ history₂ := by
  induction first generalizing s history with
  | nil => exact ⟨[], s, history, rfl, h, rfl⟩
  | cons call rest ih =>
      obtain ⟨r, s₁, tail, hr, hserve, rfl⟩ := serve_cons_iff.mp h
      obtain ⟨history₁, s₂, history₂, hfirst, hsecond, rfl⟩ := ih hserve
      exact ⟨⟨call.2, r⟩ :: history₁, s₂, history₂,
        serve_cons_iff.mpr ⟨r, s₁, history₁, hr, hfirst, rfl⟩, hsecond, rfl⟩

/-- One more call. -/
theorem serve_snoc_iff {first : List (S.Oracle × I.Op)} {o : S.Oracle} {op : I.Op}
    {s s' : S.State} {history : List (Event I)} :
    S.serve (first ++ [(o, op)]) s = some (history, s') ↔
      ∃ history₁ s₁ r, S.serve first s = some (history₁, s₁) ∧
        S.respond o s₁ op = some (r, s') ∧ history = history₁ ++ [⟨op, r⟩] := by
  induction first generalizing s history with
  | nil =>
      rw [List.nil_append, serve_cons_iff]
      constructor
      · rintro ⟨r, s₁, tail, hr, hserve, rfl⟩
        obtain ⟨rfl, rfl⟩ := Prod.mk.inj (Option.some.inj hserve)
        exact ⟨[], s, r, rfl, hr, rfl⟩
      · rintro ⟨history₁, s₁, r, hserve, hr, rfl⟩
        obtain ⟨rfl, rfl⟩ := Prod.mk.inj (Option.some.inj hserve)
        exact ⟨r, s', [], hr, rfl, rfl⟩
  | cons call first ih =>
      rw [List.cons_append, serve_cons_iff]
      constructor
      · rintro ⟨r, s₁, tail, hr, hserve, rfl⟩
        obtain ⟨history₁, s₂, r', hfirst, hr', rfl⟩ := ih.mp hserve
        exact ⟨_, s₂, r', serve_cons_iff.mpr ⟨r, s₁, history₁, hr, hfirst, rfl⟩, hr', rfl⟩
      · rintro ⟨history₁, s₂, r', hserve, hr', rfl⟩
        obtain ⟨r, s₁, tail, hr, hfirst, rfl⟩ := serve_cons_iff.mp hserve
        exact ⟨r, s₁, _, hr, ih.mpr ⟨tail, s₂, r', hfirst, hr', rfl⟩, rfl⟩

section Rules

variable {R : List I.Op → S.State → Prop}
  {A : List I.Op → (op : I.Op) → I.Res op → Prop}

/-- The rule for a history: what relates the calls made so far to the state, and is
kept by every answer, says what every answer is. -/
theorem serve_answered
    (hstep : ∀ calls o s op r s', R calls s → S.respond o s op = some (r, s') →
      A calls op r ∧ R (calls ++ [op]) s')
    {todo : List (S.Oracle × I.Op)} {calls : List I.Op} {s s' : S.State}
    {history : List (Event I)} (hs : R calls s) (h : S.serve todo s = some (history, s')) :
    Answered A calls history ∧ R (calls ++ history.map Event.op) s' := by
  induction todo generalizing calls s history with
  | nil =>
      cases h
      exact ⟨trivial, by simpa using hs⟩
  | cons call rest ih =>
      obtain ⟨r, s₁, tail, hr, hserve, rfl⟩ := serve_cons_iff.mp h
      obtain ⟨hanswer, hs₁⟩ := hstep calls call.1 s call.2 r s₁ hs hr
      obtain ⟨htail, hend⟩ := ih hs₁ hserve
      exact ⟨⟨hanswer, htail⟩, by simpa using hend⟩

/-- If none of them has to wait, all the calls are answered. -/
theorem exists_serve
    (hstep : ∀ calls o s op r s', R calls s → S.respond o s op = some (r, s') →
      R (calls ++ [op]) s')
    (todo : List (S.Oracle × I.Op))
    (hanswers : ∀ call ∈ todo, ∀ calls s, R calls s → ∃ p, S.respond call.1 s call.2 = some p)
    {calls : List I.Op} {s : S.State} (hs : R calls s) : ∃ p, S.serve todo s = some p := by
  induction todo generalizing calls s with
  | nil => exact ⟨_, rfl⟩
  | cons call rest ih =>
      obtain ⟨⟨r, s₁⟩, hr⟩ := hanswers call List.mem_cons_self calls s hs
      obtain ⟨⟨tail, s'⟩, hserve⟩ := ih (fun c hc => hanswers c (List.mem_cons_of_mem call hc))
        (hstep calls call.1 s call.2 r s₁ hs hr)
      exact ⟨_, serve_cons_iff.mpr ⟨r, s₁, tail, hr, hserve, rfl⟩⟩

end Rules

end Service

section Answered

variable {A B : List I.Op → (op : I.Op) → I.Res op → Prop}

/-- What is allowed may depend on which calls are made in the end. -/
theorem Answered.mono {calls : List I.Op} {history : List (Event I)}
    (hAB : ∀ before op r, (before ++ [op]) <+: calls ++ history.map Event.op →
      A before op r → B before op r)
    (h : Answered A calls history) : Answered B calls history := by
  induction history generalizing calls with
  | nil => trivial
  | cons e history ih =>
      obtain ⟨hanswer, htail⟩ := h
      have happend : calls ++ [e.op] ++ history.map Event.op =
          calls ++ (e :: history).map Event.op := by simp
      refine ⟨hAB calls e.op e.res ?_ hanswer, ih ?_ htail⟩
      · exact ⟨history.map Event.op, happend⟩
      · rw [happend]
        exact hAB

/-- Two histories of the same calls, compared answer by answer. -/
theorem Answered.forall₂ {Rel : Event I → Event I → Prop}
    (hrel : ∀ calls op r r', A calls op r → B calls op r' → Rel ⟨op, r⟩ ⟨op, r'⟩)
    {calls : List I.Op} {history history' : List (Event I)} (h : Answered A calls history)
    (h' : Answered B calls history') (hcalls : history.map Event.op = history'.map Event.op) :
    List.Forall₂ Rel history history' := by
  induction history generalizing calls history' with
  | nil =>
      cases history' with
      | nil => exact .nil
      | cons e' history' => cases hcalls
  | cons e history ih =>
      obtain ⟨op, r⟩ := e
      cases history' with
      | nil => cases hcalls
      | cons e' history' =>
          obtain ⟨op', r'⟩ := e'
          obtain ⟨rfl, hrest⟩ := List.cons.inj hcalls
          exact .cons (hrel calls op r r' h.1 h'.1) (ih h.2 h'.2 hrest)

/-- The answer at one place of a history. -/
theorem Answered.at {calls : List I.Op} {before after : List (Event I)} {e : Event I}
    (h : Answered A calls (before ++ e :: after)) :
    A (calls ++ before.map Event.op) e.op e.res := by
  induction before generalizing calls with
  | nil => simpa using h.1
  | cons e' before ih => simpa using ih h.2

/-- The first part of a history. -/
theorem Answered.left {calls : List I.Op} {history history' : List (Event I)}
    (h : Answered A calls (history ++ history')) : Answered A calls history := by
  induction history generalizing calls with
  | nil => trivial
  | cons e history ih => exact ⟨h.1, ih h.2⟩

/-- One more call. -/
theorem answered_snoc {calls : List I.Op} {history : List (Event I)} {e : Event I} :
    Answered A calls (history ++ [e]) ↔
      Answered A calls history ∧ A (calls ++ history.map Event.op) e.op e.res := by
  induction history generalizing calls with
  | nil => simp [Answered]
  | cons e' history ih => simp [Answered, ih, and_assoc]

end Answered

/-- Every element of a list is as `P` says, by those before it. -/
def Throughout {α : Type} (P : List α → α → Prop) (calls : List α) : Prop :=
  ∀ before op, before ++ [op] <+: calls → P before op

section Throughout

variable {α : Type} {P : List α → α → Prop}

theorem throughout_nil : Throughout P [] := by
  intro before op hbefore
  simpa using hbefore.length_le

theorem throughout_snoc {calls : List α} {op : α} :
    Throughout P (calls ++ [op]) ↔ Throughout P calls ∧ P calls op := by
  constructor
  · intro h
    exact ⟨fun before op' hbefore => h before op' (hbefore.trans (List.prefix_append calls [op])),
      h calls op (List.prefix_refl _)⟩
  · rintro ⟨hbefore, hlast⟩ before op' hsub
    rcases List.prefix_concat_iff.mp hsub with heq | hshort
    · obtain ⟨rfl, hop⟩ := List.append_inj' heq rfl
      cases hop
      exact hlast
    · exact hbefore before op' hshort

/-- Answers and calls.  If an answer is right exactly when its call is as `P` says, after
calls that are all as `P` says, then all answers are right exactly when all calls are. -/
theorem Answered.iff_throughout {A B : List I.Op → (op : I.Op) → I.Res op → Prop}
    {P : List I.Op → I.Op → Prop}
    (hstep : ∀ calls op r, Throughout P calls → A calls op r → (B calls op r ↔ P calls op))
    {history : List (Event I)} (h : Answered A [] history) :
    Answered B [] history ↔ Throughout P (history.map Event.op) := by
  induction history using List.reverseRec with
  | nil => exact ⟨fun _ => throughout_nil, fun _ => trivial⟩
  | append_singleton history e ih =>
      obtain ⟨hbefore, hanswer⟩ := answered_snoc.mp h
      rw [answered_snoc, List.map_append, List.map_singleton, throughout_snoc, ih hbefore]
      exact and_congr_right fun hall => hstep _ _ _ hall hanswer

end Throughout

end Kojin.Foundation
