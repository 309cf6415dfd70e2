/-
  Foundation/JsonText.lean --- compact JSON texts among other characters.

  A scanner reads characters and keeps the place it is at: outside strings at a depth of
  brackets, in a string, or behind a backslash.  It fails where no compact text does:
  a backslash outside strings, a colon outside strings and brackets, an escaped colon.

  The text of a value leads the scanner back to where it was, so a colon followed by the
  text of a value is never the end of the text of another one.  A name, a colon and a
  text can therefore be told apart, whatever the name.
-/
import Kojin.Foundation.Json

set_option autoImplicit false

namespace Kojin.Foundation

/-! ## The scanner -/

/-- The place in a text. -/
inductive TextPlace where
  | outside (depth : Nat)
  | inString (depth : Nat)
  | escaped (depth : Nat)
  | failed
  deriving DecidableEq, Repr

namespace TextPlace

/-- The place behind a character. -/
def step : TextPlace → Char → TextPlace
  | outside depth, c =>
      if c = '"' then inString depth
      else if c = '[' ∨ c = '{' then outside (depth + 1)
      else if c = ']' ∨ c = '}' then (if depth = 0 then failed else outside (depth - 1))
      else if c = ':' then (if depth = 0 then failed else outside depth)
      else if c = '\\' then failed
      else outside depth
  | inString depth, c =>
      if c = '"' then outside depth
      else if c = '\\' then escaped depth
      else inString depth
  | escaped depth, c => if c = ':' then failed else inString depth
  | failed, _ => failed

/-- The place behind a text. -/
def scan (place : TextPlace) (text : List Char) : TextPlace := text.foldl step place

variable {place place' : TextPlace} {c : Char} {text text' name name' : List Char} {depth : Nat}

theorem scan_cons : place.scan (c :: text) = (place.step c).scan text := List.foldl_cons

theorem scan_append : place.scan (text ++ text') = (place.scan text).scan text' :=
  List.foldl_append

theorem scan_failed : failed.scan text = failed := by
  induction text with
  | nil => rfl
  | cons c text ih => exact ih

/-! ## Texts -/

/-- A character with no meaning outside strings. -/
def isPlain (c : Char) : Bool :=
  !(c == '"' || c == '[' || c == '{' || c == ']' || c == '}' || c == ':' || c == '\\')

/-- The scanner comes out of the text where it went in. -/
def Returns (text : List Char) : Prop := ∀ depth, (outside depth).scan text = outside depth

theorem step_plain (h : isPlain c = true) : (outside depth).step c = outside depth := by
  simp only [isPlain, Bool.not_eq_true', Bool.or_eq_false_iff, beq_eq_false_iff_ne] at h
  simp [step, h]

theorem returns_plain (h : ∀ c ∈ text, isPlain c = true) : Returns text := by
  intro depth
  induction text with
  | nil => rfl
  | cons c text ih =>
      rw [scan_cons, step_plain (h c List.mem_cons_self)]
      exact ih fun c' hc' => h c' (List.mem_cons_of_mem c hc')

theorem Returns.append (h : Returns text) (h' : Returns text') : Returns (text ++ text') := by
  intro depth
  rw [scan_append, h, h']

/-- What is in brackets may have colons. -/
theorem Returns.bracket {opening closing : Char} (hopening : opening = '[' ∨ opening = '{')
    (hclosing : closing = ']' ∨ closing = '}')
    (h : ∀ depth, (outside (depth + 1)).scan text = outside (depth + 1)) :
    Returns (opening :: (text ++ [closing])) := by
  intro depth
  have hin : (outside depth).step opening = outside (depth + 1) := by
    rcases hopening with rfl | rfl <;> rfl
  have hout : (outside (depth + 1)).step closing = outside depth := by
    rcases hclosing with rfl | rfl <;> rfl
  rw [scan_cons, hin, scan_append, h, scan_cons, hout]
  rfl

end TextPlace

open TextPlace

/-! ## Printed values -/

theorem digitChar_inString {n : Nat} (h : n < 16) (depth : Nat) :
    (inString depth).step (Nat.digitChar n) = inString depth := by
  have hdigit : ∀ m < 16, Nat.digitChar m ≠ '"' ∧ Nat.digitChar m ≠ '\\' := by decide
  rw [step, if_neg (hdigit n h).1, if_neg (hdigit n h).2]

/-- An escaped character does not end the string. -/
theorem scan_escapeChar (c : Char) (depth : Nat) :
    (inString depth).scan (escapeChar c) = inString depth := by
  unfold escapeChar
  split_ifs with hquote hbackslash _ _ _ _ _ hcontrol
  any_goals rfl
  · have hhigh : c.toNat / 16 < 16 := by omega
    have hlow : c.toNat % 16 < 16 := Nat.mod_lt _ (by decide)
    calc (inString depth).scan
          ['\\', 'u', '0', '0', Nat.digitChar (c.toNat / 16), Nat.digitChar (c.toNat % 16)]
        = ((inString depth).step (Nat.digitChar (c.toNat / 16))).step
            (Nat.digitChar (c.toNat % 16)) := rfl
      _ = inString depth := by rw [digitChar_inString hhigh, digitChar_inString hlow]
  · change (inString depth).step c = inString depth
    rw [step, if_neg hquote, if_neg hbackslash]

theorem scan_escaped (chars : List Char) (depth : Nat) :
    (inString depth).scan (chars.flatMap escapeChar) = inString depth := by
  induction chars with
  | nil => rfl
  | cons c chars ih => rw [List.flatMap_cons, scan_append, scan_escapeChar, ih]

theorem returns_quoteChars (s : String) : Returns (quoteChars s) := by
  intro depth
  have hquote : (outside depth).step '"' = inString depth := rfl
  rw [quoteChars, scan_cons, hquote, scan_append, scan_escaped]
  rfl

theorem isPlain_of_isDigit {c : Char} (h : c.isDigit = true) : isPlain c = true := by
  have hne : ∀ c' : Char, c'.isDigit = false → c ≠ c' := by
    rintro c' hc' rfl
    rw [h] at hc'
    cases hc'
  simp [isPlain, hne '"' rfl, hne '[' rfl, hne '{' rfl, hne ']' rfl, hne '}' rfl, hne ':' rfl,
    hne '\\' rfl]

theorem chars_ofNat (n : Nat) : (JsonNumber.int n).chars = Nat.toDigits 10 n := by
  rw [JsonNumber.chars, Int.toString_eq_repr, Int.repr_eq_if, if_pos (Int.natCast_nonneg n),
    Int.toNat_natCast, Nat.toList_repr]

theorem chars_negSucc (n : Nat) :
    (JsonNumber.int (Int.negSucc n)).chars = '-' :: Nat.toDigits 10 (n + 1) := by
  rw [JsonNumber.chars, Int.toString_eq_repr, Int.repr_eq_if,
    if_neg (Int.not_le.mpr (Int.negSucc_lt_zero n)), String.toList_append, Int.neg_negSucc,
    Nat.toList_repr]
  rfl

theorem returns_number (n : JsonNumber) : Returns n.chars := by
  have hdigits : ∀ m c, c ∈ Nat.toDigits 10 m → isPlain c = true := fun m c hc =>
    isPlain_of_isDigit (Nat.isDigit_of_mem_toDigits (by decide) (by decide) hc)
  cases n with
  | int n =>
      refine returns_plain fun c hc => ?_
      cases n with
      | ofNat n =>
          rw [Int.ofNat_eq_natCast, chars_ofNat] at hc
          exact hdigits n c hc
      | negSucc n =>
          rw [chars_negSucc] at hc
          rcases List.mem_cons.mp hc with rfl | hc
          · rfl
          · exact hdigits (n + 1) c hc
  | float f =>
      refine returns_plain fun c hc => ?_
      have hfloat := List.all_eq_true.mp f.chars_ok c hc
      simp only [isFloatChar, Bool.or_eq_true, beq_iff_eq] at hfloat
      rcases hfloat with (((hdigit | rfl) | rfl) | rfl) | rfl
      · exact isPlain_of_isDigit hdigit
      all_goals rfl

theorem returns_comma : Returns [','] := fun _ => rfl

mutual

/-- The text of a value leads back. -/
theorem returns_chars : (v : Json) → Returns v.chars
  | .null => fun _ => rfl
  | .bool true => fun _ => rfl
  | .bool false => fun _ => rfl
  | .num n => returns_number n
  | .str s => returns_quoteChars s
  | .arr items => Returns.bracket (.inl rfl) (.inl rfl) fun depth => returns_items items (depth + 1)
  | .obj fields => Returns.bracket (.inr rfl) (.inr rfl) (scan_fields fields)

theorem returns_items : (items : List Json) → Returns (Json.itemsChars items)
  | [] => fun _ => rfl
  | [v] => returns_chars v
  | v :: w :: rest =>
      (returns_chars v).append (returns_comma.append (returns_items (w :: rest)))

theorem scan_fields : (fields : List (String × Json)) → (depth : Nat) →
    (outside (depth + 1)).scan (Json.fieldsChars fields) = outside (depth + 1)
  | [], _ => rfl
  | [(k, v)], depth => by
      have hcolon : (outside (depth + 1)).step ':' = outside (depth + 1) := rfl
      rw [Json.fieldsChars, scan_append, returns_quoteChars, scan_cons, hcolon, returns_chars]
  | (k, v) :: f :: rest, depth => by
      have hcolon : (outside (depth + 1)).step ':' = outside (depth + 1) := rfl
      have hcomma : (outside (depth + 1)).step ',' = outside (depth + 1) := rfl
      rw [Json.fieldsChars, scan_append, returns_quoteChars, scan_cons, hcolon, scan_append,
        returns_chars, scan_cons, hcomma, scan_fields (f :: rest)]

end

/-! ## Scanning from the wrong side of a quote -/

namespace TextPlace

/-- Two scanners disagree on what is in a string, unless one of them has failed. -/
def Opposed : TextPlace → TextPlace → Prop
  | outside _, inString _ => True
  | inString _, outside _ => True
  | failed, _ => True
  | _, failed => True
  | _, _ => False

variable {place place' : TextPlace} {c : Char} {text text' name name' : List Char} {depth depth' : Nat}

theorem opposed_symm (h : Opposed place place') : Opposed place' place := by
  cases place <;> cases place' <;> trivial

theorem opposed_failed : Opposed place failed := by
  cases place <;> trivial

/-- Outside strings a character that is no quote is forbidden, or it is passed by and is
no backslash. -/
theorem step_outside_cases (hquote : c ≠ '"') : (outside depth).step c = failed ∨
    c ≠ '\\' ∧ ∃ depth', (outside depth).step c = outside depth' := by
  by_cases hbackslash : c = '\\'
  · subst hbackslash
    exact .inl rfl
  · rw [step, if_neg hquote]
    split_ifs
    · exact .inr ⟨hbackslash, _, rfl⟩
    · exact .inl rfl
    · exact .inr ⟨hbackslash, _, rfl⟩
    · exact .inl rfl
    · exact .inr ⟨hbackslash, _, rfl⟩
    · exact .inr ⟨hbackslash, _, rfl⟩

theorem opposed_step_inString :
    Opposed ((outside depth).step c) ((inString depth').step c) := by
  by_cases hquote : c = '"'
  · subst hquote
    trivial
  · rcases step_outside_cases hquote with hfailed | ⟨hbackslash, depth₁, houtside⟩
    · rw [hfailed]
      trivial
    · rw [houtside, step, if_neg hquote, if_neg hbackslash]
      trivial

/-- Scanners that disagree go on disagreeing: a quote takes the one into a string and
the other out of it, and the one outside fails at a backslash. -/
theorem Opposed.step (h : Opposed place place') : Opposed (place.step c) (place'.step c) := by
  cases place with
  | outside depth =>
      cases place' with
      | inString depth' => exact opposed_step_inString
      | failed => exact opposed_failed
      | outside depth' => exact h.elim
      | escaped depth' => exact h.elim
  | inString depth =>
      cases place' with
      | outside depth' => exact opposed_symm opposed_step_inString
      | failed => exact opposed_failed
      | inString depth' => exact h.elim
      | escaped depth' => exact h.elim
  | escaped depth =>
      cases place' with
      | failed => exact opposed_failed
      | outside depth' => exact h.elim
      | inString depth' => exact h.elim
      | escaped depth' => exact h.elim
  | failed => trivial

theorem Opposed.scan (h : Opposed place place') : Opposed (place.scan text) (place'.scan text) := by
  induction text generalizing place place' with
  | nil => exact h
  | cons c text ih => exact ih h.step

/-- A scanner that begins a text in a string is not outside at its end. -/
theorem scan_inString_ne (h : Returns text) : (inString depth).scan text ≠ outside depth' := by
  intro hscan
  have hopposed : Opposed ((inString depth).scan text) ((outside 0).scan text) :=
    Opposed.scan trivial
  rw [hscan, h 0] at hopposed
  exact hopposed

/-- A colon and a text do not end a text.  Where the colon is outside strings the
scanner is in brackets, and the text behind it does not close them; where it is in a
string, the text behind it does not end the string. -/
theorem Returns.ne_append_colon (h : Returns text) (h' : Returns text') :
    text ≠ name ++ ':' :: text' := by
  intro heq
  have hscan := h 0
  rw [heq, scan_append, scan_cons] at hscan
  cases hplace : (outside 0).scan name with
  | outside depth =>
      rw [hplace] at hscan
      cases depth with
      | zero =>
          have hcolon : (outside 0).step ':' = failed := rfl
          rw [hcolon, scan_failed] at hscan
          cases hscan
      | succ depth =>
          have hcolon : (outside (depth + 1)).step ':' = outside (depth + 1) := rfl
          rw [hcolon, h'] at hscan
          cases hscan
  | inString depth =>
      rw [hplace] at hscan
      exact scan_inString_ne h' hscan
  | escaped depth =>
      have hcolon : (escaped depth).step ':' = failed := rfl
      rw [hplace, hcolon, scan_failed] at hscan
      cases hscan
  | failed =>
      have hcolon : failed.step ':' = failed := rfl
      rw [hplace, hcolon, scan_failed] at hscan
      cases hscan

/-- A name, a colon and a text can be told apart. -/
theorem Returns.append_colon_inj (h : Returns text) (h' : Returns text')
    (heq : name ++ ':' :: text = name' ++ ':' :: text') : name = name' ∧ text = text' := by
  rcases List.append_eq_append_iff.mp heq with ⟨between, hname, htext⟩ | ⟨between, hname, htext⟩
  · cases between with
    | nil =>
        rw [List.append_nil] at hname
        exact ⟨hname.symm, List.tail_eq_of_cons_eq htext⟩
    | cons c between => exact absurd (List.tail_eq_of_cons_eq htext) (h.ne_append_colon h')
  · cases between with
    | nil =>
        rw [List.append_nil] at hname
        exact ⟨hname, (List.tail_eq_of_cons_eq htext).symm⟩
    | cons c between => exact absurd (List.tail_eq_of_cons_eq htext) (h'.ne_append_colon h)

end TextPlace

end Kojin.Foundation
