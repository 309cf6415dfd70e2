/-
  Foundation/Segments.lean --- the last segment of a text, and suffixes.

  A separator splits a text into segments.  What `String.splitOn`, `endsWith` and
  `dropEnd` compute is stated in terms of the characters of the text:

      last segment of s     s.toList.rtakeWhile (· ≠ separator)
      s without n at the end     s.toList.take (length - n)

  Nothing here mentions a particular program.
-/
import Mathlib.Data.List.DropRight
import Mathlib.Data.String.Basic

set_option autoImplicit false

namespace Kojin.Foundation

open String

/-! ## The last segment -/

/-- What is left of a separator does not matter. -/
theorem rtakeWhile_append_cons {α : Type} {p : α → Bool} {x : α} (hx : p x = false)
    (xs ys : List α) : (xs ++ x :: ys).rtakeWhile p = ys.rtakeWhile p := by
  rw [List.rtakeWhile, List.rtakeWhile, List.reverse_append, List.reverse_cons,
    List.append_assoc, List.takeWhile_append]
  split
  · rename_i hall
    have hself : ys.reverse.takeWhile p = ys.reverse :=
      (List.takeWhile_prefix p).eq_of_length hall
    rw [List.singleton_append, List.takeWhile_cons_of_neg (by simp [hx]), List.append_nil, hself]
  · rfl

theorem getLastD_splitOnPPrepend {α : Type} {p : α → Bool} (xs acc : List α) (d : List α)
    (hacc : ∀ x ∈ acc, p x = false) :
    (List.splitOnPPrepend p xs acc).getLastD d = (acc.reverse ++ xs).rtakeWhile fun x => !p x := by
  induction xs generalizing acc d with
  | nil =>
      rw [List.append_nil, List.rtakeWhile_eq_self_iff.mpr]
      · rfl
      · intro x hx
        rw [hacc x (List.mem_reverse.mp hx), Bool.not_false]
  | cons x xs ih =>
      rw [List.splitOnPPrepend_cons_eq_if]
      split
      · rename_i hx
        rw [List.getLastD_cons, List.splitOnP_eq_splitOnPPrepend, ih [] _ (fun y hy => by cases hy),
          rtakeWhile_append_cons (by rw [hx, Bool.not_true])]
        rfl
      · rename_i hx
        rw [ih (x :: acc) d, List.reverse_cons, List.append_assoc, List.singleton_append]
        intro y hy
        rcases List.mem_cons.mp hy with rfl | hy
        · exact Bool.not_eq_true _ ▸ hx
        · exact hacc y hy

/-- `splitOn` with a separator of one character, in the middle of a text. -/
theorem splitOnAux_singleton (c : Char) (l m r : List Char) (acc : List String) :
    splitOnAux (ofList (l ++ m ++ r)) (ofList [c]) ⟨utf8Len l⟩ ⟨utf8Len l + utf8Len m⟩ 0 acc =
      acc.reverse ++ (List.splitOnPPrepend (· == c) r m.reverse).map ofList := by
  induction r generalizing l m acc with
  | nil =>
      have hend := (atEnd_of_valid (l ++ m) []).mpr rfl
      have hextract := extract_of_valid l m []
      rw [utf8Len_append] at hend
      unfold splitOnAux
      rw [if_pos hend, hextract]
      simp
  | cons d r ih =>
      have hend : ¬ _ := mt (atEnd_of_valid (l ++ m) (d :: r)).mp (List.cons_ne_nil d r)
      have hget := get_of_valid (l ++ m) (d :: r)
      have hnext := next_of_valid (l ++ m) d r
      have hget' : Pos.Raw.get (ofList [c]) 0 = c := get_of_valid [] [c]
      have hnext' : Pos.Raw.next (ofList [c]) 0 = ⟨0 + c.utf8Size⟩ := next_of_valid [] c []
      rw [utf8Len_append] at hend hget hnext
      unfold splitOnAux
      rw [if_neg hend, hget, hget', hnext, hnext', List.splitOnPPrepend_cons_eq_if]
      have hlast : ∀ xs, utf8Len (xs ++ [d]) = utf8Len xs + d.utf8Size := fun xs => by
        simp [utf8Len_append]
      by_cases hd : d == c
      · -- the separator: the segment ends here
        obtain rfl : d = c := beq_iff_eq.mp hd
        have hend' : Pos.Raw.atEnd (ofList [d]) ⟨0 + d.utf8Size⟩ :=
          (atEnd_of_valid [d] []).mpr rfl
        have hback : Pos.Raw.unoffsetBy ⟨utf8Len l + utf8Len m + d.utf8Size⟩ ⟨0 + d.utf8Size⟩ =
            ⟨utf8Len l + utf8Len m⟩ := by
          simp [Pos.Raw.unoffsetBy]
        have hrest := ih (l ++ m ++ [d]) [] (ofList m :: acc)
        rw [hlast, utf8Len_append, List.append_nil, List.append_assoc (l ++ m),
          List.singleton_append] at hrest
        rw [List.headD_cons, if_pos hd, if_pos hd]
        dsimp only
        rw [if_pos hend', hback, extract_of_valid l m (d :: r)]
        refine hrest.trans ?_
        simp
      · have hback : Pos.Raw.unoffsetBy ⟨utf8Len l + utf8Len m⟩ 0 =
            ⟨utf8Len l + utf8Len m⟩ := rfl
        have hrest := ih l (m ++ [d]) acc
        rw [hlast, ← List.append_assoc, List.append_assoc (l ++ m), List.singleton_append,
          ← Nat.add_assoc] at hrest
        rw [List.headD_cons, if_neg hd, if_neg hd, hback, hnext, hrest, List.reverse_append]
        rfl

theorem splitOn_singleton (s : String) (c : Char) :
    s.splitOn (ofList [c]) = (List.splitOnP (· == c) s.toList).map ofList := by
  have haux := splitOnAux_singleton c [] [] s.toList []
  have hne : ¬ (ofList [c] == "") = true := by
    rw [beq_iff_eq, ← String.toList_inj, String.toList_ofList]
    exact List.cons_ne_nil c []
  rw [List.append_nil, List.nil_append, String.ofList_toList] at haux
  rw [splitOn, if_neg hne]
  exact haux

/-- The last segment of a text. -/
theorem toList_getLastD_splitOn (s d : String) (c : Char) :
    ((s.splitOn (ofList [c])).getLastD d).toList = s.toList.rtakeWhile fun x => !(x == c) := by
  have hlast := getLastD_splitOnPPrepend (p := (· == c)) s.toList [] d.toList
    (fun x hx => by cases hx)
  rw [List.reverse_nil, List.nil_append, List.splitOnPPrepend_nil_right] at hlast
  have hmap : ((List.splitOnP (· == c) s.toList).map ofList).getLastD d =
      ofList ((List.splitOnP (· == c) s.toList).getLastD d.toList) := by
    rw [List.getLastD_eq_getLast?, List.getLastD_eq_getLast?, List.getLast?_map]
    cases (List.splitOnP (· == c) s.toList).getLast? with
    | none => exact String.ofList_toList.symm
    | some xs => rfl
  rw [splitOn_singleton, hmap, String.toList_ofList, hlast]

/-- A text without the characters at its end. -/
theorem toList_dropEnd (s : String) (n : Nat) :
    (s.dropEnd n).toString.toList = s.toList.take (s.toList.length - n) := by
  have hcopy := (s.toSlice.splits_prevn_endPos n).copy_sliceTo_eq
  rw [String.copy_toSlice] at hcopy
  have hdrop : (s.dropEnd n).toString = ofList (s.toList.take (s.toList.length - n)) := hcopy
  rw [hdrop, String.toList_ofList]

end Kojin.Foundation
