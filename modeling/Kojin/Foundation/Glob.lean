/-
  Foundation/Glob.lean --- glob patterns over bytes, as key-value stores match them.

      *          any bytes, also none
      ?          one byte
      [abc]      one of these bytes; [^abc] one that is not; [a-c] one of a range
      \x         the byte x itself
      x          the byte x itself

  A class that is not closed ends where the pattern does.

  A pattern is read once, into tokens, and the tokens are matched.  A pattern without
  the four special bytes matches itself and nothing else: `matchGlob_plain_append`.
-/
import Mathlib.Data.List.Infix

set_option autoImplicit false

namespace Kojin.Foundation

/-- A part of a pattern. -/
inductive Token where
  | star
  | any
  | oneOf (negated : Bool) (ranges : List (UInt8 × UInt8))
  | byte (b : UInt8)

/-- A class that is being read: whether it is negated, and its ranges so far. -/
abbrev OpenClass : Type := Option (Bool × List (UInt8 × UInt8))

/-- Read a pattern. -/
def readGlob : OpenClass → List UInt8 → List Token
  | none, [] => []
  | none, 42 :: p => .star :: readGlob none p
  | none, 63 :: p => .any :: readGlob none p
  | none, 91 :: 94 :: p => readGlob (some (true, [])) p
  | none, 91 :: p => readGlob (some (false, [])) p
  | none, 92 :: b :: p => .byte b :: readGlob none p
  | none, b :: p => .byte b :: readGlob none p
  | some (negated, ranges), [] => [.oneOf negated ranges]
  | some (negated, ranges), 92 :: b :: p => readGlob (some (negated, (b, b) :: ranges)) p
  | some (negated, ranges), 93 :: p => .oneOf negated ranges :: readGlob none p
  | some (negated, ranges), a :: 45 :: b :: p =>
      readGlob (some (negated, (min a b, max a b) :: ranges)) p
  | some (negated, ranges), b :: p => readGlob (some (negated, (b, b) :: ranges)) p

/-- The byte is in the class. -/
def inClass (negated : Bool) (ranges : List (UInt8 × UInt8)) (b : UInt8) : Bool :=
  negated != ranges.any fun r => r.1 ≤ b && b ≤ r.2

/-- The tokens match the whole text. -/
def matchTokens : List Token → List UInt8 → Bool
  | [], s => s.isEmpty
  | .star :: ts, s => s.tails.any (matchTokens ts)
  | .any :: _, [] => false
  | .any :: ts, _ :: s => matchTokens ts s
  | .oneOf _ _ :: _, [] => false
  | .oneOf negated ranges :: ts, b :: s => inClass negated ranges b && matchTokens ts s
  | .byte _ :: _, [] => false
  | .byte b' :: ts, b :: s => b == b' && matchTokens ts s

/-- The pattern matches the whole text. -/
def matchGlob (pattern text : List UInt8) : Bool := matchTokens (readGlob none pattern) text

/-- A byte that stands for itself. -/
def Plain (b : UInt8) : Prop := b ≠ 42 ∧ b ≠ 63 ∧ b ≠ 91 ∧ b ≠ 92

instance (b : UInt8) : Decidable (Plain b) := inferInstanceAs (Decidable (_ ∧ _))

theorem readGlob_plain {b : UInt8} (h : Plain b) (p : List UInt8) :
    readGlob none (b :: p) = .byte b :: readGlob none p := by
  obtain ⟨hstar, hany, hclass, hescape⟩ := h
  rw [readGlob]
  · exact hstar
  · exact hany
  · exact fun _ hb _ => hclass hb
  · exact hclass
  · exact fun _ _ hb _ => hescape hb

/-- Bytes that stand for themselves are matched one by one. -/
theorem matchGlob_plain_append {bs : List UInt8} (h : ∀ b ∈ bs, Plain b) (p text : List UInt8) :
    matchGlob (bs ++ p) text = true ↔ ∃ rest, text = bs ++ rest ∧ matchGlob p rest = true := by
  induction bs generalizing text with
  | nil => simp
  | cons b bs ih =>
      have hb := h b List.mem_cons_self
      have hbs := ih fun b' hb' => h b' (List.mem_cons_of_mem b hb')
      rw [List.cons_append, matchGlob, readGlob_plain hb]
      cases text with
      | nil => simp [matchTokens]
      | cons c text =>
          rw [matchTokens, Bool.and_eq_true, beq_iff_eq]
          constructor
          · rintro ⟨rfl, hmatch⟩
            obtain ⟨rest, rfl, hrest⟩ := (hbs text).mp hmatch
            exact ⟨rest, rfl, hrest⟩
          · rintro ⟨rest, heq, hrest⟩
            obtain ⟨rfl, rfl⟩ := List.cons.inj heq
            exact ⟨rfl, (hbs _).mpr ⟨rest, rfl, hrest⟩⟩

/-- A star matches everything. -/
theorem matchGlob_star (text : List UInt8) : matchGlob [42] text = true := by
  rw [matchGlob, readGlob, readGlob, matchTokens, List.any_eq_true]
  exact ⟨[], (List.mem_tails _ _).mpr List.nil_suffix, rfl⟩

end Kojin.Foundation
