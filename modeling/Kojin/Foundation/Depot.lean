/-
  Foundation/Depot.lean --- queues that are emptied into the hands of holders.

  Items are pushed to queues, a holder takes the oldest item of a queue, and what is held
  is removed in the end.  The lists of a depot have the newest item first.

      queue    what was pushed, in order, is what was taken, in order, and then what is
               still there
      holder   what was taken is still held, or it was removed

  So every queue is first in, first out for all its takers together, and no item is
  handed out twice.  Nothing here mentions a particular program.
-/
import Mathlib.Data.List.Perm.Basic
import Mathlib.Logic.Function.Basic

set_option autoImplicit false

namespace Kojin.Foundation

/-- The queues, and what the holders have. -/
structure Depot (Q W α : Type) where
  queue : Q → List α
  held : W → List α

/-- What may happen in a depot. -/
inductive Motion (Q W α : Type) where
  | pushed (q : Q) (a : α)
  | taken (q : Q) (w : W) (a : α)
  | removed (w : W) (a : α)
  deriving DecidableEq

namespace Depot

variable {Q W α : Type}

/-- A depot without items. -/
def empty : Depot Q W α := ⟨fun _ => [], fun _ => []⟩

/-- What happens, and what it leaves. -/
inductive Step [DecidableEq Q] [DecidableEq W] [DecidableEq α] :
    Depot Q W α → Motion Q W α → Depot Q W α → Prop where
  | pushed (d : Depot Q W α) (q : Q) (a : α) :
      Step d (.pushed q a) { d with queue := Function.update d.queue q (a :: d.queue q) }
  | taken (d : Depot Q W α) {q : Q} (w : W) {a : α} {rest : List α} :
      d.queue q = rest ++ [a] →
      Step d (.taken q w a)
        ⟨Function.update d.queue q rest, Function.update d.held w (a :: d.held w)⟩
  | removed (d : Depot Q W α) {w : W} {a : α} :
      a ∈ d.held w →
      Step d (.removed w a) { d with held := Function.update d.held w ((d.held w).erase a) }

/-- What happened, from one depot to another. -/
inductive Run [DecidableEq Q] [DecidableEq W] [DecidableEq α] (d₀ : Depot Q W α) :
    List (Motion Q W α) → Depot Q W α → Prop where
  | start : Run d₀ [] d₀
  | step {ms : List (Motion Q W α)} {d d' : Depot Q W α} {m : Motion Q W α} :
      Run d₀ ms d → Step d m d' → Run d₀ (ms ++ [m]) d'

/-- The item a motion pushed to a queue. -/
def pushTo [DecidableEq Q] (q : Q) : Motion Q W α → Option α
  | .pushed q' a => if q' = q then some a else none
  | _ => none

/-- The item it took from a queue. -/
def takeFrom [DecidableEq Q] (q : Q) : Motion Q W α → Option α
  | .taken q' _ a => if q' = q then some a else none
  | _ => none

/-- The item it gave to a holder. -/
def takeTo [DecidableEq W] (w : W) : Motion Q W α → Option α
  | .taken _ w' a => if w' = w then some a else none
  | _ => none

/-- The item it removed from a holder. -/
def removeFrom [DecidableEq W] (w : W) : Motion Q W α → Option α
  | .removed w' a => if w' = w then some a else none
  | _ => none

variable [DecidableEq Q] [DecidableEq W] [DecidableEq α] {ms : List (Motion Q W α)}
  {d : Depot Q W α}

/-- First in, first out. -/
theorem Run.queue_eq (h : Run empty ms d) (q : Q) :
    ms.filterMap (pushTo q) = ms.filterMap (takeFrom q) ++ (d.queue q).reverse := by
  induction h with
  | start => rfl
  | step _ hstep ih =>
      rw [List.filterMap_append, List.filterMap_append, ih]
      cases hstep with
      | pushed q' a =>
          by_cases hq : q' = q
          · subst hq
            simp [List.filterMap_cons, pushTo, takeFrom]
          · simp [List.filterMap_cons, pushTo, takeFrom, hq, Function.update_of_ne (Ne.symm hq)]
      | taken w hlast =>
          rename_i q' a rest
          by_cases hq : q' = q
          · subst hq
            simp [List.filterMap_cons, pushTo, takeFrom, hlast]
          · simp [List.filterMap_cons, pushTo, takeFrom, hq, Function.update_of_ne (Ne.symm hq)]
      | removed hmem => simp [List.filterMap_cons, pushTo, takeFrom]

/-- What was handed out is held, or it was removed. -/
theorem Run.held_perm (h : Run empty ms d) (w : W) :
    (ms.filterMap (takeTo w)).Perm (d.held w ++ ms.filterMap (removeFrom w)) := by
  induction h with
  | start => exact .nil
  | step _ hstep ih =>
      rw [List.filterMap_append, List.filterMap_append]
      cases hstep with
      | pushed q a => simpa [List.filterMap_cons, takeTo, removeFrom] using ih
      | taken w' hlast =>
          rename_i q a rest
          by_cases hw : w' = w
          · subst hw
            have hmore := (ih.append_right [a]).trans (List.perm_append_singleton a _)
            simpa [List.filterMap_cons, takeTo, removeFrom] using hmore
          · simpa [List.filterMap_cons, takeTo, removeFrom, hw,
              Function.update_of_ne (Ne.symm hw)] using ih
      | removed hmem =>
          rename_i d w' a
          by_cases hw : w' = w
          · subst hw
            have hback := (List.perm_cons_erase hmem).append_right
            have hsplit := ih.trans (hback _)
            simp only [takeTo, removeFrom, List.filterMap_cons, List.filterMap_nil, if_true,
              List.append_nil, Function.update_self]
            refine hsplit.trans ?_
            rw [← List.append_assoc]
            exact (List.perm_append_singleton a _).symm
          · simpa [List.filterMap_cons, takeTo, removeFrom, hw,
              Function.update_of_ne (Ne.symm hw)] using ih

end Depot

end Kojin.Foundation
