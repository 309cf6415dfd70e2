/-
  Foundation/Loss.lean --- calls over a connection that breaks.

  A caller that hears an error does not know how far its call came.  The request may
  not have arrived; then the service has done nothing.  Or it has arrived and was
  carried out, and only the answer is missing.

      carried none s done               what the service answers and does
      carried (some (.request e)) s _   an error, and the state `s` is kept
      carried (some (.answer e)) _ done an error, and the service has done its part

  Nothing here mentions a particular service.
-/
import Mathlib.Init

set_option autoImplicit false

namespace Kojin.Foundation

/-- What is lost of a call, and the error its caller gets. -/
inductive Loss (ε : Type) where
  /-- The request does not arrive. -/
  | request (error : ε)
  /-- The request is carried out, and the answer does not arrive. -/
  | answer (error : ε)
  deriving DecidableEq, Repr

variable {ε α S : Type} {loss : Option (Loss ε)} {s s' : S} {done : Except ε α × S}
  {ans : Except ε α}

/-- The request arrives. -/
def arrives : Option (Loss ε) → Bool
  | some (.request _) => false
  | _ => true

/-- What becomes of a call of which this is lost. -/
def carried (loss : Option (Loss ε)) (s : S) (done : Except ε α × S) : Except ε α × S :=
  match loss with
  | none => done
  | some (.request e) => (.error e, s)
  | some (.answer e) => (.error e, done.2)

@[simp] theorem arrives_none : arrives (none : Option (Loss ε)) = true := rfl

@[simp] theorem arrives_request (e : ε) : arrives (some (.request e)) = false := rfl

@[simp] theorem arrives_answer (e : ε) : arrives (some (.answer e)) = true := rfl

@[simp] theorem carried_none (s : S) (done : Except ε α × S) : carried none s done = done := rfl

/-- The call came through, or its caller gets an error and the service has done all of
it or nothing. -/
theorem carried_cases (h : carried loss s done = (ans, s')) :
    (loss = none ∧ done = (ans, s')) ∨
      ∃ e, ans = .error e ∧ ((arrives loss = false ∧ s' = s) ∨
        (loss ≠ none ∧ arrives loss = true ∧ s' = done.2)) := by
  rcases loss with _ | e | e
  · exact .inl ⟨rfl, h⟩
  · obtain ⟨rfl, rfl⟩ := Prod.mk.inj h
    exact .inr ⟨e, rfl, .inl ⟨rfl, rfl⟩⟩
  · obtain ⟨rfl, rfl⟩ := Prod.mk.inj h
    exact .inr ⟨e, rfl, .inr ⟨by simp, rfl, rfl⟩⟩

/-- What is lost is lost of whatever is seen of the service. -/
theorem carried_map {S' : Type} (f : S → S') (loss : Option (Loss ε)) (s : S)
    (done : Except ε α × S) :
    carried loss (f s) (Prod.map id f done) = Prod.map id f (carried loss s done) := by
  rcases loss with _ | e | e <;> rfl

/-- A success is one of the service. -/
theorem carried_ok {a : α} (h : carried loss s done = (.ok a, s')) : done = (.ok a, s') := by
  rcases carried_cases h with ⟨-, hdone⟩ | ⟨e, he, -⟩
  · exact hdone
  · cases he

/-- The state is the one before, or the one the service leaves. -/
theorem carried_state (h : carried loss s done = (ans, s')) : s' = s ∨ s' = done.2 := by
  rcases carried_cases h with ⟨-, rfl⟩ | ⟨e, -, ⟨-, rfl⟩ | ⟨-, -, rfl⟩⟩
  · exact .inr rfl
  · exact .inl rfl
  · exact .inr rfl

end Kojin.Foundation
