/-
  Foundation/Json.lean --- JSON values and their compact text.

  `Json.chars` prints the way a compact serializer does: no white space, object
  fields in the order of the value, strings quoted with the two-character escapes
  for the quote, the backslash and the five named control characters, and the
  six-character form for the remaining control characters.

  A number is an integer, kept as its value, or a floating point number, kept as
  the text it is printed as.  The text of a float is well formed by construction,
  so it cannot be confused with the punctuation around it.
-/
import Mathlib.Data.List.Basic

set_option autoImplicit false

namespace Kojin.Foundation

/-- The characters a printed floating point number consists of. -/
def isFloatChar (c : Char) : Bool :=
  c.isDigit || c == '-' || c == '+' || c == '.' || c == 'e'

/-- The text of a finite floating point number, as a shortest-digits printer
writes it.  It has a point or an exponent, which is what sets it apart from an
integer. -/
structure FloatText where
  text : List Char
  chars_ok : text.all isFloatChar = true
  fractional : text.any (fun c => c == '.' || c == 'e') = true
  deriving DecidableEq

/-- A JSON number. -/
inductive JsonNumber where
  | int (n : Int)
  | float (f : FloatText)
  deriving DecidableEq

/-- A JSON value.  Object fields keep their order. -/
inductive Json where
  | null
  | bool (b : Bool)
  | num (n : JsonNumber)
  | str (s : String)
  | arr (items : List Json)
  | obj (fields : List (String × Json))

/-- The text of one character inside a JSON string. -/
def escapeChar (c : Char) : List Char :=
  if c = '"' then ['\\', '"']
  else if c = '\\' then ['\\', '\\']
  else if c = '\n' then ['\\', 'n']
  else if c = '\r' then ['\\', 'r']
  else if c = '\t' then ['\\', 't']
  else if c.toNat = 8 then ['\\', 'b']
  else if c.toNat = 12 then ['\\', 'f']
  else if c.toNat < 32 then
    ['\\', 'u', '0', '0', Nat.digitChar (c.toNat / 16), Nat.digitChar (c.toNat % 16)]
  else [c]

/-- A quoted, escaped string. -/
def quoteChars (s : String) : List Char :=
  '"' :: (s.toList.flatMap escapeChar ++ ['"'])

/-- The text of a number. -/
def JsonNumber.chars : JsonNumber → List Char
  | .int n => (toString n).toList
  | .float f => f.text

mutual

/-- The compact text of a JSON value. -/
def Json.chars : Json → List Char
  | .null => ['n', 'u', 'l', 'l']
  | .bool true => ['t', 'r', 'u', 'e']
  | .bool false => ['f', 'a', 'l', 's', 'e']
  | .num n => n.chars
  | .str s => quoteChars s
  | .arr items => '[' :: (Json.itemsChars items ++ [']'])
  | .obj fields => '{' :: (Json.fieldsChars fields ++ ['}'])

/-- The items of an array, separated by commas. -/
def Json.itemsChars : List Json → List Char
  | [] => []
  | [v] => v.chars
  | v :: w :: rest => v.chars ++ ',' :: Json.itemsChars (w :: rest)

/-- The fields of an object, separated by commas. -/
def Json.fieldsChars : List (String × Json) → List Char
  | [] => []
  | [(k, v)] => quoteChars k ++ ':' :: v.chars
  | (k, v) :: f :: rest => quoteChars k ++ ':' :: (v.chars ++ ',' :: Json.fieldsChars (f :: rest))

end

/-- The compact text of a JSON value, as a string. -/
def Json.print (v : Json) : String := String.ofList v.chars

@[simp] theorem Json.toList_print (v : Json) : v.print.toList = v.chars :=
  String.toList_ofList

end Kojin.Foundation
