/-
  Foundation/JsonUnique.lean --- a compact JSON text is that of one value.

  Where a text is followed by nothing, a comma or a closing bracket, the value and what
  follows can be read off it.
-/
import Kojin.Foundation.JsonText

set_option autoImplicit false

namespace Kojin.Foundation

variable {text text' rest rest' : List Char}

/-! ## Digits -/

/-- The value of a digit, in a base up to sixteen. -/
def digitValue (c : Char) : Nat := if c.isDigit then c.toNat - 48 else c.toNat - 87

theorem digitValue_digitChar {n : Nat} (h : n < 16) : digitValue (Nat.digitChar n) = n := by
  have hall : ∀ m < 16, digitValue (Nat.digitChar m) = m := by decide
  exact hall n h

/-- The number with some digits. -/
def ofDigits (base : Nat) (digits : List Char) : Nat :=
  digits.foldl (fun n c => base * n + digitValue c) 0

theorem ofDigits_toDigits {base : Nat} (hbase : 1 < base) (hbase' : base ≤ 16) (n : Nat) :
    ofDigits base (Nat.toDigits base n) = n := by
  induction n using Nat.base_induction base hbase with
  | single m hm =>
      rw [Nat.toDigits_of_lt_base hm, ofDigits, List.foldl_cons, List.foldl_nil,
        digitValue_digitChar (Nat.lt_of_lt_of_le hm hbase')]
      omega
  | digit m k hk hm ih =>
      rw [← Nat.toDigits_append_toDigits hbase hm hk, Nat.toDigits_of_lt_base hk, ofDigits,
        List.foldl_append, ← ofDigits, ih, List.foldl_cons, List.foldl_nil,
        digitValue_digitChar (Nat.lt_of_lt_of_le hk hbase')]

/-- Digits are those of one number. -/
theorem toDigits_inj {base m n : Nat} (hbase : 1 < base) (hbase' : base ≤ 16)
    (h : Nat.toDigits base m = Nat.toDigits base n) : m = n := by
  rw [← ofDigits_toDigits hbase hbase' m, h, ofDigits_toDigits hbase hbase']

/-! ## Numbers -/

/-- What may follow a value. -/
def Ends (rest : List Char) : Prop :=
  ∀ c, rest.head? = some c → c = ',' ∨ c = ']' ∨ c = '}'

theorem ends_nil : Ends [] := fun c h => by cases h

theorem ends_cons {c : Char} (h : c = ',' ∨ c = ']' ∨ c = '}') : Ends (c :: rest) := by
  intro c' hc'
  cases hc'
  exact h

/-- A text of some characters ends where another character is. -/
theorem append_inj_of_all {p : Char → Bool} (h : ∀ c ∈ text, p c = true)
    (h' : ∀ c ∈ text', p c = true) (hrest : ∀ c, rest.head? = some c → p c = false)
    (hrest' : ∀ c, rest'.head? = some c → p c = false) (heq : text ++ rest = text' ++ rest') :
    text = text' ∧ rest = rest' := by
  induction text generalizing text' with
  | nil =>
      cases text' with
      | nil => exact ⟨rfl, heq⟩
      | cons c text' =>
          have hno : p c = false := hrest c (by rw [← List.nil_append rest, heq]; rfl)
          rw [h' c List.mem_cons_self] at hno
          cases hno
  | cons c text ih =>
      cases text' with
      | nil =>
          have hno : p c = false := hrest' c (by rw [← List.nil_append rest', ← heq]; rfl)
          rw [h c List.mem_cons_self] at hno
          cases hno
      | cons c' text' =>
          obtain ⟨rfl, htail⟩ := List.cons.inj heq
          obtain ⟨rfl, hrests⟩ := ih (fun c hc => h c (List.mem_cons_of_mem _ hc))
            (fun c hc => h' c (List.mem_cons_of_mem _ hc)) htail
          exact ⟨rfl, hrests⟩

namespace JsonNumber

/-- The text of an integer has digits and a sign. -/
theorem intChars {n : Int} {c : Char} (h : c ∈ (int n).chars) : c.isDigit = true ∨ c = '-' := by
  have hdigits : ∀ m, c ∈ Nat.toDigits 10 m → c.isDigit = true := fun m hc =>
    Nat.isDigit_of_mem_toDigits (by decide) (by decide) hc
  cases n with
  | ofNat n =>
      rw [Int.ofNat_eq_natCast, chars_ofNat] at h
      exact .inl (hdigits n h)
  | negSucc n =>
      rw [chars_negSucc] at h
      rcases List.mem_cons.mp h with rfl | h
      · exact .inr rfl
      · exact .inl (hdigits (n + 1) h)

theorem isFloatChar_of_mem {n : JsonNumber} {c : Char} (h : c ∈ n.chars) :
    isFloatChar c = true := by
  cases n with
  | int n =>
      rcases intChars h with hdigit | rfl
      · simp [isFloatChar, hdigit]
      · rfl
  | float f => exact List.all_eq_true.mp f.chars_ok c h

theorem intChars_inj {m n : Int} (h : (int m).chars = (int n).chars) : m = n := by
  have hminus : ∀ k (text : List Char), Nat.toDigits 10 k ≠ '-' :: text := by
    intro k text heq
    have hdigit : Char.isDigit '-' = true :=
      Nat.isDigit_of_mem_toDigits (b := 10) (n := k) (by decide) (by decide)
        (heq ▸ List.mem_cons_self)
    cases hdigit
  cases m with
  | ofNat m =>
      cases n with
      | ofNat n =>
          rw [Int.ofNat_eq_natCast, Int.ofNat_eq_natCast, chars_ofNat, chars_ofNat] at h
          rw [toDigits_inj (by decide) (by decide) h]
      | negSucc n =>
          rw [Int.ofNat_eq_natCast, chars_ofNat, chars_negSucc] at h
          exact absurd h (hminus m _)
  | negSucc m =>
      cases n with
      | ofNat n =>
          rw [Int.ofNat_eq_natCast, chars_ofNat, chars_negSucc] at h
          exact absurd h.symm (hminus n _)
      | negSucc n =>
          rw [chars_negSucc, chars_negSucc] at h
          have hsucc := toDigits_inj (by decide) (by decide) (List.tail_eq_of_cons_eq h)
          rw [Nat.succ.inj hsucc]

/-- A float has a point or an exponent. -/
theorem intChars_ne_float {n : Int} {f : FloatText} : (int n).chars ≠ (float f).chars := by
  intro h
  obtain ⟨c, hc, hfractional⟩ := List.any_eq_true.mp f.fractional
  have hint : c.isDigit = true ∨ c = '-' := intChars (by rw [h]; exact hc)
  simp only [Bool.or_eq_true, beq_iff_eq] at hfractional
  rcases hfractional with rfl | rfl
  · revert hint
    decide
  · revert hint
    decide

theorem chars_inj {m n : JsonNumber} (h : m.chars = n.chars) : m = n := by
  cases m with
  | int m =>
      cases n with
      | int n => rw [intChars_inj h]
      | float f => exact absurd h intChars_ne_float
  | float f =>
      cases n with
      | int n => exact absurd h.symm intChars_ne_float
      | float g =>
          cases f
          cases g
          cases h
          rfl

theorem chars_append_inj {m n : JsonNumber} (h : Ends rest) (h' : Ends rest')
    (heq : m.chars ++ rest = n.chars ++ rest') : m = n ∧ rest = rest' := by
  have hends : ∀ {rest : List Char}, Ends rest → ∀ c, rest.head? = some c → isFloatChar c = false := by
    intro rest hrest c hc
    rcases hrest c hc with rfl | rfl | rfl <;> rfl
  obtain ⟨hchars, hrests⟩ := append_inj_of_all (fun _ => isFloatChar_of_mem)
    (fun _ => isFloatChar_of_mem) (hends h) (hends h') heq
  exact ⟨chars_inj hchars, hrests⟩

end JsonNumber

/-! ## Strings -/

/-- The character an escape stands for, and what follows. -/
def escape : List Char → Char × List Char
  | 'n' :: rest => ('\n', rest)
  | 'r' :: rest => ('\r', rest)
  | 't' :: rest => ('\t', rest)
  | 'b' :: rest => (Char.ofNat 8, rest)
  | 'f' :: rest => (Char.ofNat 12, rest)
  | 'u' :: '0' :: '0' :: high :: low :: rest =>
      (Char.ofNat (16 * digitValue high + digitValue low), rest)
  | c :: rest => (c, rest)
  | [] => ('\\', [])

/-- The first character of the text of a string, and what follows. -/
def unescape : List Char → Char × List Char
  | [] => ('"', [])
  | c :: text => if c = '\\' then escape text else (c, text)

theorem unescape_escapeChar (c : Char) : unescape (escapeChar c ++ rest) = (c, rest) := by
  unfold escapeChar
  split_ifs with hquote hbackslash hn hr ht hb hf hcontrol
  · rw [hquote]
    rfl
  · rw [hbackslash]
    rfl
  · rw [hn]
    rfl
  · rw [hr]
    rfl
  · rw [ht]
    rfl
  · rw [← Char.ofNat_toNat c, hb]
    rfl
  · rw [← Char.ofNat_toNat c, hf]
    rfl
  · have hhigh : digitValue (Nat.digitChar (c.toNat / 16)) = c.toNat / 16 :=
      digitValue_digitChar (by omega)
    have hlow : digitValue (Nat.digitChar (c.toNat % 16)) = c.toNat % 16 :=
      digitValue_digitChar (Nat.mod_lt _ (by decide))
    calc unescape (['\\', 'u', '0', '0', Nat.digitChar (c.toNat / 16),
            Nat.digitChar (c.toNat % 16)] ++ rest)
        = (Char.ofNat (16 * digitValue (Nat.digitChar (c.toNat / 16)) +
            digitValue (Nat.digitChar (c.toNat % 16))), rest) := rfl
      _ = (c, rest) := by rw [hhigh, hlow, Nat.div_add_mod, Char.ofNat_toNat]
  · rw [List.singleton_append, unescape, if_neg hbackslash]

theorem escapeChar_append_inj {c c' : Char}
    (h : escapeChar c ++ rest = escapeChar c' ++ rest') : c = c' ∧ rest = rest' := by
  have heq : (c, rest) = (c', rest') := by
    rw [← unescape_escapeChar c, h, unescape_escapeChar]
  exact Prod.mk.inj heq

/-- No character is escaped as a quote. -/
theorem escapeChar_ne_quote {c : Char} : escapeChar c ++ rest ≠ '"' :: rest' := by
  unfold escapeChar
  split_ifs with hquote
  case neg => exact fun h => hquote (List.head_eq_of_cons_eq h)
  all_goals exact fun h => absurd (List.head_eq_of_cons_eq h) (by decide)

theorem escaped_append_inj {chars chars' : List Char}
    (h : chars.flatMap escapeChar ++ '"' :: rest = chars'.flatMap escapeChar ++ '"' :: rest') :
    chars = chars' ∧ rest = rest' := by
  induction chars generalizing chars' with
  | nil =>
      cases chars' with
      | nil => exact ⟨rfl, List.tail_eq_of_cons_eq h⟩
      | cons c' chars' =>
          rw [List.flatMap_cons, List.append_assoc] at h
          exact absurd h.symm escapeChar_ne_quote
  | cons c chars ih =>
      cases chars' with
      | nil =>
          rw [List.flatMap_cons, List.append_assoc] at h
          exact absurd h escapeChar_ne_quote
      | cons c' chars' =>
          rw [List.flatMap_cons, List.flatMap_cons, List.append_assoc, List.append_assoc] at h
          obtain ⟨rfl, htail⟩ := escapeChar_append_inj h
          obtain ⟨rfl, hrests⟩ := ih htail
          exact ⟨rfl, hrests⟩

theorem quoteChars_append_inj {s s' : String}
    (h : quoteChars s ++ rest = quoteChars s' ++ rest') : s = s' ∧ rest = rest' := by
  simp only [quoteChars, List.cons_append, List.append_assoc, List.cons.injEq, true_and,
    List.nil_append] at h
  obtain ⟨hchars, hrests⟩ := escaped_append_inj h
  exact ⟨String.toList_inj.mp hchars, hrests⟩

/-! ## Lists -/

/-- The text can be told from what follows, where something that ends it does. -/
def Readable {α : Type} (text : α → List Char) (a : α) : Prop :=
  ∀ b rest rest', Ends rest → Ends rest' → text a ++ rest = text b ++ rest' →
    a = b ∧ rest = rest'

/-- Texts separated by commas. -/
def separated {α : Type} (text : α → List Char) : List α → List Char
  | [] => []
  | a :: as => text a ++ as.flatMap fun b => ',' :: text b

section Lists

variable {α : Type} {text : α → List Char} {closing : Char}

theorem ends_more {as : List α} (hclosing : closing = ']' ∨ closing = '}') :
    Ends ((as.flatMap fun b => ',' :: text b) ++ closing :: rest) := by
  cases as with
  | nil => exact ends_cons (.inr hclosing)
  | cons a as => exact ends_cons (.inl rfl)

theorem more_append_inj {as bs : List α} (hclosing : closing = ']' ∨ closing = '}')
    (has : ∀ a ∈ as, Readable text a)
    (h : (as.flatMap fun b => ',' :: text b) ++ closing :: rest =
      (bs.flatMap fun b => ',' :: text b) ++ closing :: rest') : as = bs ∧ rest = rest' := by
  have hcomma : closing ≠ ',' := by
    rcases hclosing with rfl | rfl <;> decide
  induction as generalizing bs with
  | nil =>
      cases bs with
      | nil => exact ⟨rfl, List.tail_eq_of_cons_eq h⟩
      | cons b bs => exact absurd (List.head_eq_of_cons_eq h) hcomma
  | cons a as ih =>
      cases bs with
      | nil => exact absurd (List.head_eq_of_cons_eq h).symm hcomma
      | cons b bs =>
          rw [List.flatMap_cons, List.flatMap_cons, List.append_assoc, List.append_assoc] at h
          obtain ⟨rfl, htail⟩ := has a List.mem_cons_self b _ _ (ends_more hclosing)
            (ends_more hclosing) (List.tail_eq_of_cons_eq h)
          obtain ⟨rfl, hrests⟩ := ih (fun c hc => has c (List.mem_cons_of_mem a hc)) htail
          exact ⟨rfl, hrests⟩

/-- A list can be told from what follows, if its items can and none begins like the end
of the list. -/
theorem separated_append_inj {as bs : List α} (hclosing : closing = ']' ∨ closing = '}')
    (hne : ∀ (a : α) (rest rest' : List Char), text a ++ rest ≠ closing :: rest')
    (has : ∀ a ∈ as, Readable text a)
    (h : separated text as ++ closing :: rest = separated text bs ++ closing :: rest') :
    as = bs ∧ rest = rest' := by
  cases as with
  | nil =>
      cases bs with
      | nil => exact ⟨rfl, List.tail_eq_of_cons_eq h⟩
      | cons b bs =>
          rw [separated, separated, List.append_assoc] at h
          exact absurd h.symm (hne b _ _)
  | cons a as =>
      cases bs with
      | nil =>
          rw [separated, separated, List.append_assoc] at h
          exact absurd h (hne a _ _)
      | cons b bs =>
          rw [separated, separated, List.append_assoc, List.append_assoc] at h
          obtain ⟨rfl, htail⟩ := has a List.mem_cons_self b _ _ (ends_more hclosing)
            (ends_more hclosing) h
          obtain ⟨rfl, hrests⟩ := more_append_inj hclosing
            (fun c hc => has c (List.mem_cons_of_mem a hc)) htail
          exact ⟨rfl, hrests⟩

end Lists

/-! ## Values -/

/-- The text of a field. -/
def fieldChars (field : String × Json) : List Char := quoteChars field.1 ++ ':' :: field.2.chars

theorem itemsChars_eq_separated (items : List Json) :
    Json.itemsChars items = separated Json.chars items := by
  induction items with
  | nil => rfl
  | cons v rest ih =>
      cases rest with
      | nil => rw [Json.itemsChars, separated, List.flatMap_nil, List.append_nil]
      | cons w rest =>
          rw [Json.itemsChars, ih]
          rfl

theorem fieldsChars_eq_separated (fields : List (String × Json)) :
    Json.fieldsChars fields = separated fieldChars fields := by
  induction fields with
  | nil => rfl
  | cons field rest ih =>
      obtain ⟨k, v⟩ := field
      cases rest with
      | nil =>
          rw [Json.fieldsChars, separated, List.flatMap_nil, List.append_nil]
          rfl
      | cons f rest =>
          rw [Json.fieldsChars, ih]
          simp [separated, fieldChars]

/-- What the first character of a text says of the value. -/
inductive JsonKind where
  | null
  | bool (b : Bool)
  | number
  | string
  | array
  | object
  deriving DecidableEq

def Json.kind : Json → JsonKind
  | .null => .null
  | .bool b => .bool b
  | .num _ => .number
  | .str _ => .string
  | .arr _ => .array
  | .obj _ => .object

/-- The kind of a value whose text begins with a character. -/
def kindOf (c : Char) : JsonKind :=
  if c = 'n' then .null
  else if c = 't' then .bool true
  else if c = 'f' then .bool false
  else if c = '"' then .string
  else if c = '[' then .array
  else if c = '{' then .object
  else .number

theorem kindOf_float {c : Char} (h : isFloatChar c = true) : kindOf c = .number := by
  have hne : ∀ c', isFloatChar c' = false → c ≠ c' := by
    rintro c' hc' rfl
    rw [h] at hc'
    cases hc'
  rw [kindOf, if_neg (hne 'n' rfl), if_neg (hne 't' rfl), if_neg (hne 'f' rfl),
    if_neg (hne '"' rfl), if_neg (hne '[' rfl), if_neg (hne '{' rfl)]

theorem JsonNumber.chars_ne_nil (n : JsonNumber) : n.chars ≠ [] := by
  cases n with
  | int n =>
      cases n with
      | ofNat n =>
          rw [Int.ofNat_eq_natCast, chars_ofNat]
          exact Nat.toDigits_ne_nil
      | negSucc n =>
          rw [chars_negSucc]
          exact List.cons_ne_nil _ _
  | float f =>
      intro hnil
      have hfractional := f.fractional
      rw [JsonNumber.chars] at hnil
      rw [hnil] at hfractional
      cases hfractional

/-- The text of a value begins with a character of its kind. -/
theorem Json.exists_chars_eq (v : Json) :
    ∃ c text, v.chars = c :: text ∧ kindOf c = v.kind ∧ c ≠ ']' := by
  cases v with
  | null => exact ⟨_, _, rfl, rfl, by decide⟩
  | bool b => cases b <;> exact ⟨_, _, rfl, rfl, by decide⟩
  | num n =>
      obtain ⟨c, text, hchars⟩ := List.exists_cons_of_ne_nil n.chars_ne_nil
      have hfloat : isFloatChar c = true :=
        JsonNumber.isFloatChar_of_mem (hchars ▸ List.mem_cons_self)
      refine ⟨c, text, hchars, kindOf_float hfloat, ?_⟩
      rintro rfl
      cases hfloat
  | str s => exact ⟨_, _, rfl, rfl, by decide⟩
  | arr items => exact ⟨_, _, rfl, rfl, by decide⟩
  | obj fields => exact ⟨_, _, rfl, rfl, by decide⟩

theorem Json.kind_eq {v w : Json} (h : v.chars ++ rest = w.chars ++ rest') : v.kind = w.kind := by
  obtain ⟨c, text, hv, hc, -⟩ := v.exists_chars_eq
  obtain ⟨c', text', hw, hc', -⟩ := w.exists_chars_eq
  rw [hv, hw] at h
  rw [← hc, ← hc', List.head_eq_of_cons_eq h]

/-- A text does not begin like the end of a list. -/
theorem Json.chars_ne_closing (v : Json) : v.chars ++ rest ≠ ']' :: rest' := by
  obtain ⟨c, text, hv, -, hc⟩ := v.exists_chars_eq
  intro h
  rw [hv] at h
  exact hc (List.head_eq_of_cons_eq h)

theorem readable_field {field : String × Json} (h : Readable Json.chars field.2) :
    Readable fieldChars field := by
  intro field' rest rest' hrest hrest' heq
  obtain ⟨k, v⟩ := field
  obtain ⟨k', v'⟩ := field'
  simp only [fieldChars, List.append_assoc, List.cons_append] at heq
  obtain ⟨rfl, htail⟩ := quoteChars_append_inj heq
  obtain ⟨rfl, hrests⟩ := h v' rest rest' hrest hrest' (List.tail_eq_of_cons_eq htail)
  exact ⟨rfl, hrests⟩

/-- Induction over the values in a value. -/
theorem Json.inductionOn {P : Json → Prop} (null : P .null) (bool : ∀ b, P (.bool b))
    (num : ∀ n, P (.num n)) (str : ∀ s, P (.str s))
    (arr : ∀ items, (∀ v ∈ items, P v) → P (.arr items))
    (obj : ∀ fields, (∀ field ∈ fields, P field.2) → P (.obj fields)) (v : Json) : P v := by
  match v with
  | .null => exact null
  | .bool b => exact bool b
  | .num n => exact num n
  | .str s => exact str s
  | .arr items =>
      refine arr items fun w hw => ?_
      have hlt := List.sizeOf_lt_of_mem hw
      exact Json.inductionOn null bool num str arr obj w
  | .obj fields =>
      refine obj fields fun field hfield => ?_
      have hmem := List.sizeOf_lt_of_mem hfield
      have hlt : sizeOf field.2 < 1 + sizeOf fields := by
        obtain ⟨key, w⟩ := field
        simp only [Prod.mk.sizeOf_spec] at hmem
        change sizeOf w < _
        omega
      exact Json.inductionOn null bool num str arr obj field.2
termination_by sizeOf v

/-- A value can be read off its text, and what follows with it. -/
theorem readable_chars (v : Json) : Readable Json.chars v := by
  induction v using Json.inductionOn with
  | null =>
      intro w rest rest' _ _ heq
      match w, Json.kind_eq heq with
      | .null, _ => exact ⟨rfl, List.append_cancel_left heq⟩
  | bool b =>
      intro w rest rest' _ _ heq
      match w, Json.kind_eq heq with
      | .bool b', hkind =>
          cases hkind
          exact ⟨rfl, List.append_cancel_left heq⟩
  | num n =>
      intro w rest rest' hrest hrest' heq
      match w, Json.kind_eq heq with
      | .num n', _ =>
          obtain ⟨rfl, hrests⟩ := JsonNumber.chars_append_inj hrest hrest' heq
          exact ⟨rfl, hrests⟩
  | str s =>
      intro w rest rest' _ _ heq
      match w, Json.kind_eq heq with
      | .str s', _ =>
          obtain ⟨rfl, hrests⟩ := quoteChars_append_inj heq
          exact ⟨rfl, hrests⟩
  | arr items ih =>
      intro w rest rest' _ _ heq
      match w, Json.kind_eq heq with
      | .arr items', _ =>
          simp only [Json.chars, itemsChars_eq_separated, List.cons_append, List.append_assoc,
            List.nil_append] at heq
          obtain ⟨rfl, hrests⟩ := separated_append_inj (.inl rfl) (fun v _ _ => v.chars_ne_closing)
            ih (List.tail_eq_of_cons_eq heq)
          exact ⟨rfl, hrests⟩
  | obj fields ih =>
      intro w rest rest' _ _ heq
      match w, Json.kind_eq heq with
      | .obj fields', _ =>
          simp only [Json.chars, fieldsChars_eq_separated, List.cons_append, List.append_assoc,
            List.nil_append] at heq
          have hne : ∀ (field : String × Json) (rest rest' : List Char),
              fieldChars field ++ rest ≠ '}' :: rest' :=
            fun _ _ _ h => absurd (List.head_eq_of_cons_eq h) (by decide)
          obtain ⟨rfl, hrests⟩ := separated_append_inj (.inr rfl) hne
            (fun field hfield => readable_field (ih field hfield)) (List.tail_eq_of_cons_eq heq)
          exact ⟨rfl, hrests⟩

/-- A text is that of one value. -/
theorem Json.chars_inj {v w : Json} (h : v.chars = w.chars) : v = w := by
  have hnil : v.chars ++ [] = w.chars ++ [] := by rw [h]
  exact (readable_chars v w [] [] ends_nil ends_nil hnil).1

theorem Json.print_inj {v w : Json} (h : v.print = w.print) : v = w :=
  Json.chars_inj (String.ofList_injective h)

end Kojin.Foundation
