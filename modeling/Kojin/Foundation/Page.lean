/-
  Foundation/Page.lean --- pages of a list.

  A page is a stretch of a list: at most `limit` elements from `offset` on.

  Nothing here mentions a particular program.
-/
import Mathlib.Data.List.Basic

set_option autoImplicit false

namespace Kojin.Foundation

variable {α : Type}

/-- The page of at most `limit` elements that begins at `offset`. -/
def page (xs : List α) (offset limit : Nat) : List α := (xs.drop offset).take limit

theorem length_page (xs : List α) (offset limit : Nat) :
    (page xs offset limit).length = min limit (xs.length - offset) := by
  rw [page, List.length_take, List.length_drop]

theorem mem_of_mem_page {xs : List α} {offset limit : Nat} {x : α} (h : x ∈ page xs offset limit) :
    x ∈ xs := List.mem_of_mem_drop (List.mem_of_mem_take h)

end Kojin.Foundation
