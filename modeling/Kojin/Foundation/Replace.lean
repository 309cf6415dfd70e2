/-
  Foundation/Replace.lean --- deleting every occurrence of a pattern.

  `erase pat` reads a text from left to right and leaves out the occurrences of `pat` it
  meets; what it deletes is not searched again.  It is what `String.replace` computes when
  the replacement is empty: `toList_replace_empty`.

  A pattern whose first element does not occur again cannot straddle the end of a text it
  is appended to, so

      erase pat (text ++ pat) = erase pat text

  Nothing here mentions a particular program.
-/
import Mathlib.Data.List.Infix

set_option autoImplicit false

namespace Kojin.Foundation

variable {α : Type} [DecidableEq α]

/-- Delete every occurrence of `pat`.  The number counts the elements of an occurrence
that are still to be passed over. -/
def eraseFrom (pat : List α) : Nat → List α → List α
  | _, [] => []
  | n + 1, _ :: xs => eraseFrom pat n xs
  | 0, x :: xs =>
      if pat <+: x :: xs then eraseFrom pat (pat.length - 1) xs else x :: eraseFrom pat 0 xs

def erase (pat xs : List α) : List α := eraseFrom pat 0 xs

variable {pat : List α}

theorem eraseFrom_append {xs ys : List α} :
    eraseFrom pat xs.length (xs ++ ys) = eraseFrom pat 0 ys := by
  induction xs with
  | nil => rfl
  | cons x xs ih => exact ih

@[simp] theorem erase_nil : erase pat [] = [] := rfl

/-- An occurrence is deleted. -/
theorem erase_append (hpat : pat ≠ []) (xs : List α) : erase pat (pat ++ xs) = erase pat xs := by
  obtain ⟨p, ps, rfl⟩ := List.exists_cons_of_ne_nil hpat
  rw [erase, List.cons_append, eraseFrom, if_pos ⟨xs, by rw [List.cons_append]⟩]
  exact eraseFrom_append

/-- What begins no occurrence is kept. -/
theorem erase_cons {x : α} {xs : List α} (h : ¬ pat <+: x :: xs) :
    erase pat (x :: xs) = x :: erase pat xs := by
  rw [erase, eraseFrom, if_neg h]
  rfl

theorem erase_append_left {xs ys : List α}
    (h : ∀ zs ws, xs = zs ++ ws → ws ≠ [] → ¬ pat <+: ws ++ ys) :
    erase pat (xs ++ ys) = xs ++ erase pat ys := by
  induction xs with
  | nil => rfl
  | cons x xs ih =>
      have hfirst : ¬ pat <+: x :: (xs ++ ys) := h [] (x :: xs) rfl (List.cons_ne_nil x xs)
      rw [List.cons_append, erase_cons hfirst,
        ih fun zs ws hsplit hws => h (x :: zs) ws (by rw [hsplit, List.cons_append]) hws,
        List.cons_append]

/-- Nothing is added. -/
theorem length_eraseFrom_le (n : Nat) (xs : List α) : (eraseFrom pat n xs).length ≤ xs.length := by
  induction xs generalizing n with
  | nil => cases n <;> exact Nat.le_refl 0
  | cons x xs ih =>
      cases n with
      | succ n => exact Nat.le_succ_of_le (ih n)
      | zero =>
          unfold eraseFrom
          split
          · exact Nat.le_succ_of_le (ih _)
          · exact Nat.succ_le_succ (ih 0)

/-- A text is kept exactly if the pattern does not occur in it. -/
theorem erase_eq_self_iff (hpat : pat ≠ []) {xs : List α} : erase pat xs = xs ↔ ¬ pat <:+: xs := by
  induction xs with
  | nil => exact iff_of_true rfl fun h => hpat (List.infix_nil.mp h)
  | cons x xs ih =>
      rw [List.infix_cons_iff, not_or, ← ih]
      by_cases hbegins : pat <+: x :: xs
      · refine iff_of_false (fun heq => ?_) (fun h => h.1 hbegins)
        rw [erase, eraseFrom, if_pos hbegins] at heq
        have hlength := congrArg List.length heq
        have hle : (eraseFrom pat (pat.length - 1) xs).length ≤ xs.length :=
          length_eraseFrom_le (pat.length - 1) xs
        rw [List.length_cons] at hlength
        omega
      · rw [erase_cons hbegins, List.cons.injEq]
        exact ⟨fun h => ⟨hbegins, h.2⟩, fun h => ⟨rfl, h.2⟩⟩

/-! ## A pattern at the end -/

omit [DecidableEq α] in
/-- A pattern that begins in front of itself ends there, too. -/
theorem prefix_of_prefix_append {p : α} {ps xs : List α} (hhead : p ∉ ps) (hne : xs ≠ [])
    (h : p :: ps <+: xs ++ p :: ps) : p :: ps <+: xs := by
  rcases Nat.lt_or_ge xs.length (p :: ps).length with hlt | hle
  · exfalso
    obtain ⟨zs, hzs⟩ := List.prefix_of_prefix_length_le (List.prefix_append xs (p :: ps)) h
      (Nat.le_of_lt hlt)
    obtain ⟨x, xs', rfl⟩ := List.exists_cons_of_ne_nil hne
    obtain ⟨z, zs', rfl⟩ : ∃ z zs', zs = z :: zs' := by
      refine List.exists_cons_of_ne_nil fun hnil => ?_
      rw [hnil, List.append_nil] at hzs
      exact absurd hlt (by rw [hzs]; exact Nat.lt_irrefl _)
    rw [← hzs, List.prefix_append_right_inj, hzs, List.cons_prefix_cons] at h
    have htail := (List.cons.inj hzs).2
    exact hhead (by rw [← htail, ← h.1]; exact List.mem_append_right _ List.mem_cons_self)
  · exact List.prefix_of_prefix_length_le h (List.prefix_append xs (p :: ps)) hle

theorem eraseFrom_append_self {p : α} {ps : List α} (hhead : p ∉ ps) {n : Nat} {xs : List α}
    (hn : n ≤ xs.length) :
    eraseFrom (p :: ps) n (xs ++ p :: ps) = eraseFrom (p :: ps) n xs := by
  induction xs generalizing n with
  | nil =>
      obtain rfl : n = 0 := by simpa using hn
      have herase := erase_append (List.cons_ne_nil p ps) []
      rwa [List.append_nil] at herase
  | cons x xs ih =>
      cases n with
      | succ n => exact ih (Nat.le_of_succ_le_succ hn)
      | zero =>
          by_cases hbegins : p :: ps <+: x :: xs
          · have hlong : p :: ps <+: x :: (xs ++ p :: ps) :=
              hbegins.trans (List.prefix_append (x :: xs) (p :: ps))
            rw [List.cons_append, eraseFrom, eraseFrom, if_pos hbegins, if_pos hlong]
            exact ih (Nat.le_of_succ_le_succ hbegins.length_le)
          · have hshort : ¬ p :: ps <+: x :: (xs ++ p :: ps) := fun h =>
              hbegins (prefix_of_prefix_append hhead (List.cons_ne_nil x xs) h)
            rw [List.cons_append, eraseFrom, eraseFrom, if_neg hbegins, if_neg hshort,
              ih (Nat.zero_le _)]

/-- A pattern appended to a text is deleted, and nothing else, if its first element
does not occur in the rest of it. -/
theorem erase_append_self {p : α} {ps : List α} (hhead : p ∉ ps) (xs : List α) :
    erase (p :: ps) (xs ++ p :: ps) = erase (p :: ps) xs :=
  eraseFrom_append_self hhead (Nat.zero_le _)

/-! ## Strings -/

open String.Slice.Pattern String.Slice.Pattern.Model

/-- What `replace` makes of one step of the search, when the replacement is empty. -/
def eraseStep {s : String.Slice} (text : String) : SearchStep s → String
  | .matched _ _ => text ++ "".toSlice
  | .rejected start stop => text ++ s.slice! start stop

/-- The pattern begins nowhere in a stretch in which the search finds no match. -/
theorem not_prefix_between {pat : String} {s : String.Slice} {start stop : s.Pos}
    (hnone : ∀ pos, start ≤ pos → pos < stop → ¬ MatchesAt pat pos) {t mid rest : String}
    (hstart : start.Splits t (mid ++ rest)) (hstop : stop.Splits (t ++ mid) rest) :
    ∀ zs ws, mid.toList = zs ++ ws → ws ≠ [] → ¬ pat.toList <+: ws ++ rest.toList := by
  rintro zs ws hws hne ⟨us, hus⟩
  obtain rfl : mid = String.ofList zs ++ String.ofList ws := by
    rw [← String.ofList_append, ← hws, String.ofList_toList]
  have hrest : String.ofList ws ++ rest = pat ++ String.ofList us := by
    rw [← String.toList_inj]
    simp [hus]
  have hcopy : s.copy = (t ++ String.ofList zs) ++ (String.ofList ws ++ rest) := by
    rw [hstart.eq_append, String.append_assoc, String.append_assoc]
  obtain ⟨inner, hinner⟩ : ∃ inner : s.Pos, inner.Splits _ _ :=
    ⟨_, String.Slice.Pos.splits_ofEqAppend hcopy⟩
  have hle : start ≤ inner := (hstart.le_iff_exists_eq_append hinner).mpr
    ⟨String.ofList zs, rfl, String.append_assoc⟩
  have hlt : inner < stop := (hinner.lt_iff_exists_eq_append hstop).mpr
    ⟨String.ofList ws, by simpa using hne, String.append_assoc.symm, rfl⟩
  rw [hrest] at hinner
  exact hnone inner hle hlt (ForwardStringSearcher.matchesAt_iff_splits.mpr ⟨_, _, hinner⟩)

/-- What the search leaves of a text. -/
theorem toList_foldl_eraseStep {pat : String} (hpat : pat ≠ "") {s : String.Slice} {pos : s.Pos}
    {steps : List (SearchStep s)} (h : IsValidSearchFrom pat pos steps) {t₁ t₂ : String}
    (hsplit : pos.Splits t₁ t₂) (text : String) :
    (steps.foldl eraseStep text).toList = text.toList ++ erase pat.toList t₂.toList := by
  induction h generalizing t₁ t₂ text with
  | endPos =>
      obtain rfl : t₂ = "" := hsplit.eq_right s.splits_endPos
      simp
  | @matched steps start stop hmatch _ ih =>
      obtain ⟨u₁, u₂, hstart, hstop⟩ := ForwardStringSearcher.isLongestMatchAt_iff_splits.mp hmatch
      obtain rfl : t₂ = pat ++ u₂ := hsplit.eq_right hstart
      have hne : pat.toList ≠ [] := fun hnil => hpat (String.toList_eq_nil_iff.mp hnil)
      rw [List.foldl_cons, ih hstop, String.toList_append, erase_append hne]
      simp [eraseStep]
  | @mismatched steps start stop hlt hnone _ ih =>
      obtain ⟨left, rest, hstop⟩ : ∃ left rest, stop.Splits left rest := ⟨_, _, stop.splits⟩
      obtain ⟨mid, -, rfl, rfl⟩ := (hsplit.lt_iff_exists_eq_append hstop).mp hlt
      obtain ⟨hle, hmid⟩ := String.Slice.copy_slice_eq_iff_splits.mpr ⟨t₁, rest, hsplit, hstop⟩
      have hkept : (s.slice! start stop).copy = mid := by
        rw [← String.Slice.slice_eq_slice!, hmid]
        exact hle
      rw [List.foldl_cons, ih hstop, String.toList_append, erase_append_left]
      · simp [eraseStep, hkept]
      · exact not_prefix_between hnone hsplit hstop

theorem replace_eq_fold (s pat : String) :
    s.replace pat "" = (ToForwardSearcher.toSearcher pat s.toSlice).fold eraseStep "" := by
  unfold String.replace String.Slice.replace
  congr 1
  funext text step
  cases step <;> rfl

/-- `replace` with an empty replacement deletes the pattern. -/
theorem toList_replace_empty {pat : String} (hpat : pat ≠ "") (s : String) :
    (s.replace pat "").toList = erase pat.toList s.toList := by
  have hsearch := (ForwardStringSearcher.lawfulToForwardSearcherModel hpat).isValidSearchFrom_toList
    s.toSlice
  have hfold := toList_foldl_eraseStep hpat hsearch s.toSlice.splits_startPos ""
  rw [Std.Iter.foldl_toList, String.copy_toSlice] at hfold
  rw [replace_eq_fold]
  exact hfold

end Kojin.Foundation
