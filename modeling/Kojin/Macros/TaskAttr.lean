/-
  Macros/TaskAttr.lean --- the attribute of `#[task(...)]` (`kojin-macros`:
  `task_attr.rs`).

  The parser reads items until its input is empty:

      queue = <string literal>
      max_retries = <expression>

  An expression that is an integer literal is the number of retries.  Any other is read
  and forgotten, so `max_retries = -1` is accepted and means the default.

  The tokens are the entries of a token buffer.  A group of no delimiter, which the
  expansion of a macro leaves behind, is entered by the parsers of identifiers,
  punctuation and literals; its ends are the entries `noneStart` and `noneEnd`.  The
  parser of expressions is the parameter `Syn`.
-/
import Mathlib.Data.List.Basic

set_option autoImplicit false

namespace Kojin.Macros

/-! ## Tokens -/

/-- A literal; of an integer literal, its value. -/
inductive Lit where
  | str (value : String)
  | int (value : Nat)
  | other (text : String)
  deriving DecidableEq, Repr

/-- The delimiters that can be seen. -/
inductive Delimiter where
  | parenthesis
  | brace
  | bracket
  deriving DecidableEq, Repr

/-- An entry of a token buffer.  A word that is reserved is a keyword. -/
inductive Entry where
  | ident (text : String)
  | keyword (text : String)
  | punct (c : Char)
  | literal (l : Lit)
  | group (delimiter : Delimiter) (inside : List Entry)
  | noneStart
  | noneEnd

/-- `syn::Expr`, as far as it is looked at. -/
inductive Expr where
  | lit (attrs : List (List Entry)) (l : Lit)
  | other (tokens : List Entry)

/-- Why an input is rejected. -/
inductive ParseError where
  | expected (what : String)
  | expression (message : String)
  | tooLarge
  | unknownAttribute (name : String)
  deriving DecidableEq, Repr

/-- The parser of expressions: what it makes of the entries, and how many it takes. -/
structure Syn where
  parseExpr : List Entry → Except String (Expr × Nat)

/-! ## Cursors -/

/-- A cursor does not stay at the end of a group it has entered. -/
def settle : List Entry → List Entry
  | .noneEnd :: rest => settle rest
  | ts => ts

/-- Enter the groups that cannot be seen. -/
def enter : List Entry → List Entry
  | .noneStart :: rest => enter rest
  | .noneEnd :: rest => enter rest
  | ts => ts

/-- `input.parse::<Ident>()`. -/
def ident (ts : List Entry) : Except ParseError (String × List Entry) :=
  match enter ts with
  | .ident text :: rest => .ok (text, settle rest)
  | _ => .error (.expected "identifier")

/-- `input.parse::<Token![c]>()`. -/
def punct (c : Char) (ts : List Entry) : Except ParseError (List Entry) :=
  match enter ts with
  | .punct c' :: rest => if c' = c then .ok (settle rest) else .error (.expected c.toString)
  | _ => .error (.expected c.toString)

/-- `input.parse::<LitStr>()`. -/
def litStr (ts : List Entry) : Except ParseError (String × List Entry) :=
  match enter ts with
  | .literal (.str value) :: rest => .ok (value, settle rest)
  | _ => .error (.expected "string literal")

/-- `input.parse::<Expr>()`. -/
def expr (syn : Syn) (ts : List Entry) : Except ParseError (Expr × List Entry) :=
  match syn.parseExpr ts with
  | .ok (e, n) => .ok (e, settle (ts.drop n))
  | .error message => .error (.expression message)

/-- `base10_parse::<u32>()`. -/
def base10Parse (value : Nat) : Except ParseError UInt32 :=
  if value < UInt32.size then .ok (UInt32.ofNat value) else .error .tooLarge

/-! ## The parser -/

/-- `TaskAttr`. -/
structure TaskAttr where
  queue : Option String
  maxRetries : Option UInt32
  deriving DecidableEq, Repr

namespace TaskAttr

/-- `TaskAttr::default`. -/
def default : TaskAttr := ⟨none, none⟩

/-- What is made of the expression of `max_retries`. -/
def withMaxRetries (attr : TaskAttr) : Expr → Except ParseError TaskAttr
  | .lit _ (.int value) => do
      let n ← base10Parse value
      pure { attr with maxRetries := some n }
  | _ => pure attr

/-- One item: the key, the equals sign and the value. -/
def parseItem (syn : Syn) (attr : TaskAttr) (ts : List Entry) :
    Except ParseError (TaskAttr × List Entry) := do
  let (key, ts) ← ident ts
  let ts ← punct '=' ts
  if key = "queue" then
    let (value, ts) ← litStr ts
    pure ({ attr with queue := some value }, ts)
  else if key = "max_retries" then
    let (value, ts) ← expr syn ts
    let attr ← attr.withMaxRetries value
    pure (attr, ts)
  else throw (.unknownAttribute key)

end TaskAttr

/-- `Task::QUEUE` of the generated code. -/
def TaskAttr.queueConst (attr : TaskAttr) : String := attr.queue.getD "default"

/-- `Task::MAX_RETRIES` of the generated code. -/
def TaskAttr.maxRetriesConst (attr : TaskAttr) : UInt32 := attr.maxRetries.getD 3

/-! ## Every parser takes something -/

theorem length_settle_le (ts : List Entry) : (settle ts).length ≤ ts.length := by
  induction ts with
  | nil => exact Nat.le_refl 0
  | cons t ts ih =>
      cases t with
      | noneEnd => exact Nat.le_succ_of_le ih
      | _ => exact Nat.le_refl _

theorem length_enter_le (ts : List Entry) : (enter ts).length ≤ ts.length := by
  induction ts with
  | nil => exact Nat.le_refl 0
  | cons t ts ih =>
      cases t with
      | noneStart => exact Nat.le_succ_of_le ih
      | noneEnd => exact Nat.le_succ_of_le ih
      | _ => exact Nat.le_refl _

theorem ident_cases {ts rest : List Entry} {text : String} (h : ident ts = .ok (text, rest)) :
    ∃ rest', enter ts = .ident text :: rest' ∧ rest = settle rest' := by
  unfold ident at h
  split at h
  · rename_i text' rest' henter
    cases h
    exact ⟨rest', henter, rfl⟩
  · cases h

theorem punct_cases {c : Char} {ts rest : List Entry} (h : punct c ts = .ok rest) :
    ∃ rest', enter ts = .punct c :: rest' ∧ rest = settle rest' := by
  unfold punct at h
  split at h
  · rename_i c' rest' henter
    split at h
    · rename_i hc
      cases h
      exact ⟨rest', by rw [henter, hc], rfl⟩
    · cases h
  · cases h

/-- What is behind the first entry is shorter. -/
theorem length_lt_of_enter {ts rest : List Entry} {t : Entry} (h : enter ts = t :: rest) :
    (settle rest).length < ts.length := by
  have henter := length_enter_le ts
  have hsettle := length_settle_le rest
  rw [h, List.length_cons] at henter
  omega

theorem length_ident_lt {ts rest : List Entry} {text : String}
    (h : ident ts = .ok (text, rest)) : rest.length < ts.length := by
  obtain ⟨rest', henter, rfl⟩ := ident_cases h
  exact length_lt_of_enter henter

theorem length_punct_lt {c : Char} {ts rest : List Entry} (h : punct c ts = .ok rest) :
    rest.length < ts.length := by
  obtain ⟨rest', henter, rfl⟩ := punct_cases h
  exact length_lt_of_enter henter

/-! ## Items -/

/-- What an item says. -/
inductive Item where
  | queue (value : String)
  | maxRetries (value : Expr)

/-- The cursor is at an item, and `rest` is behind it. -/
inductive ItemAt (syn : Syn) (ts : List Entry) : Item → List Entry → Prop where
  | queue {ts₁ ts₂ rest : List Entry} {value : String} :
      ident ts = .ok ("queue", ts₁) → punct '=' ts₁ = .ok ts₂ → litStr ts₂ = .ok (value, rest) →
      ItemAt syn ts (.queue value) rest
  | maxRetries {ts₁ ts₂ rest : List Entry} {value : Expr} :
      ident ts = .ok ("max_retries", ts₁) → punct '=' ts₁ = .ok ts₂ →
      expr syn ts₂ = .ok (value, rest) → ItemAt syn ts (.maxRetries value) rest

/-- What an item does to the attribute. -/
def TaskAttr.add (attr : TaskAttr) : Item → Except ParseError TaskAttr
  | .queue value => .ok { attr with queue := some value }
  | .maxRetries value => attr.withMaxRetries value

variable {syn : Syn} {ts rest : List Entry} {attr attr' : TaskAttr} {item : Item}

/-- A step of a parser that goes well, and what follows. -/
theorem bind_eq_ok_iff {ε α β : Type} {x : Except ε α} {f : α → Except ε β} {b : β} :
    x >>= f = .ok b ↔ ∃ a, x = .ok a ∧ f a = .ok b := by
  cases x with
  | error e => exact ⟨(fun h => by cases h), fun ⟨a, h, _⟩ => by cases h⟩
  | ok a => exact ⟨fun h => ⟨a, rfl, h⟩, fun ⟨a', h, hf⟩ => by cases h; exact hf⟩

/-- Reading a key and the equals sign. -/
theorem length_key_lt {ts₁ ts₂ : List Entry} {text : String} (hkey : ident ts = .ok (text, ts₁))
    (hequals : punct '=' ts₁ = .ok ts₂) : ts₂.length < ts.length :=
  Nat.lt_trans (length_punct_lt hequals) (length_ident_lt hkey)

theorem ItemAt.length_lt (h : ItemAt syn ts item rest) : rest.length < ts.length := by
  cases h with
  | @queue _ ts₂ _ value hkey hequals hvalue =>
      have hkeys := length_key_lt hkey hequals
      have hle : rest.length < ts₂.length := by
        unfold litStr at hvalue
        split at hvalue
        · rename_i henter
          cases hvalue
          exact length_lt_of_enter henter
        · cases hvalue
      omega
  | @maxRetries _ ts₂ _ value hkey hequals hvalue =>
      have hkeys := length_key_lt hkey hequals
      have hle : rest.length ≤ ts₂.length := by
        unfold expr at hvalue
        split at hvalue
        · rename_i n _
          cases hvalue
          have hsettle := length_settle_le (ts₂.drop n)
          rw [List.length_drop] at hsettle
          omega
        · cases hvalue
      omega

/-- There is at most one item at a cursor. -/
theorem ItemAt.unique {item' : Item} {rest' : List Entry} (h : ItemAt syn ts item rest)
    (h' : ItemAt syn ts item' rest') : item = item' ∧ rest = rest' := by
  have hkeys : ("queue" : String) ≠ "max_retries" := by decide
  cases h with
  | queue hkey hequals hvalue =>
      cases h' with
      | queue hkey' hequals' hvalue' =>
          cases hkey.symm.trans hkey'
          cases hequals.symm.trans hequals'
          cases hvalue.symm.trans hvalue'
          exact ⟨rfl, rfl⟩
      | maxRetries hkey' _ _ =>
          exact absurd (congrArg Prod.fst (Except.ok.inj (hkey.symm.trans hkey'))) hkeys
  | maxRetries hkey hequals hvalue =>
      cases h' with
      | queue hkey' _ _ =>
          exact absurd (congrArg Prod.fst (Except.ok.inj (hkey.symm.trans hkey'))) hkeys.symm
      | maxRetries hkey' hequals' hvalue' =>
          cases hkey.symm.trans hkey'
          cases hequals.symm.trans hequals'
          cases hvalue.symm.trans hvalue'
          exact ⟨rfl, rfl⟩

/-- What is parsed is an item, and it is added to the attribute; and an item that can
be added is parsed. -/
theorem parseItem_iff : TaskAttr.parseItem syn attr ts = .ok (attr', rest) ↔
    ∃ item, ItemAt syn ts item rest ∧ attr.add item = .ok attr' := by
  unfold TaskAttr.parseItem
  constructor
  · intro h
    obtain ⟨⟨key, ts₁⟩, hkey, hbehind⟩ := bind_eq_ok_iff.mp h
    obtain ⟨ts₂, hequals, hrest⟩ := bind_eq_ok_iff.mp hbehind
    by_cases hqueue : key = "queue"
    · rw [if_pos hqueue] at hrest
      obtain ⟨⟨value, ts₃⟩, hvalue, hret⟩ := bind_eq_ok_iff.mp hrest
      subst hqueue
      cases hret
      exact ⟨_, .queue hkey hequals hvalue, rfl⟩
    · rw [if_neg hqueue] at hrest
      by_cases hretries : key = "max_retries"
      · rw [if_pos hretries] at hrest
        obtain ⟨⟨value, ts₃⟩, hvalue, hadded⟩ := bind_eq_ok_iff.mp hrest
        obtain ⟨attr₁, hadd, hret⟩ := bind_eq_ok_iff.mp hadded
        subst hretries
        cases hret
        exact ⟨_, .maxRetries hkey hequals hvalue, hadd⟩
      · rw [if_neg hretries] at hrest
        cases hrest
  · rintro ⟨item, hitem, hadd⟩
    cases hitem with
    | queue hkey hequals hvalue =>
        cases hadd
        refine bind_eq_ok_iff.mpr ⟨_, hkey, bind_eq_ok_iff.mpr ⟨_, hequals, ?_⟩⟩
        exact bind_eq_ok_iff.mpr ⟨_, hvalue, rfl⟩
    | maxRetries hkey hequals hvalue =>
        refine bind_eq_ok_iff.mpr ⟨_, hkey, bind_eq_ok_iff.mpr ⟨_, hequals, ?_⟩⟩
        exact bind_eq_ok_iff.mpr ⟨_, hvalue, bind_eq_ok_iff.mpr ⟨_, hadd, rfl⟩⟩

/-! ## The loop -/

/-- `while !input.is_empty()`. -/
def TaskAttr.parseLoop (syn : Syn) (attr : TaskAttr) (ts : List Entry) :
    Except ParseError TaskAttr :=
  if ts = [] then .ok attr
  else
    match _hitem : parseItem syn attr ts with
    | .error e => .error e
    | .ok (attr', rest) =>
        if rest = [] then parseLoop syn attr' rest
        else
          match _hcomma : punct ',' rest with
          | .error e => .error e
          | .ok rest' => parseLoop syn attr' rest'
termination_by ts.length
decreasing_by
  · obtain ⟨item, hat, -⟩ := parseItem_iff.mp _hitem
    exact hat.length_lt
  · obtain ⟨item, hat, -⟩ := parseItem_iff.mp _hitem
    exact Nat.lt_trans (length_punct_lt _hcomma) hat.length_lt

/-- `TaskAttr::parse`. -/
def TaskAttr.parse (syn : Syn) (ts : List Entry) : Except ParseError TaskAttr :=
  parseLoop syn default (settle ts)

/-- Items separated by commas, with one at the end or without. -/
inductive CommaList {α : Type} (itemAt : List Entry → α → List Entry → Prop) :
    List Entry → List α → Prop where
  | nil : CommaList itemAt [] []
  | last {ts : List Entry} {a : α} : itemAt ts a [] → CommaList itemAt ts [a]
  | more {ts rest rest' : List Entry} {a : α} {as : List α} :
      itemAt ts a rest → rest ≠ [] → punct ',' rest = .ok rest' → CommaList itemAt rest' as →
      CommaList itemAt ts (a :: as)

/-- What the items do to the attribute. -/
def TaskAttr.addAll (attr : TaskAttr) (items : List Item) : Except ParseError TaskAttr :=
  items.foldlM TaskAttr.add attr

theorem addAll_cons_iff {items : List Item} :
    attr.addAll (item :: items) = .ok attr' ↔
      ∃ attr₁, attr.add item = .ok attr₁ ∧ attr₁.addAll items = .ok attr' := by
  rw [TaskAttr.addAll, List.foldlM_cons]
  exact bind_eq_ok_iff

theorem commaList_nil {items : List Item} (h : CommaList (ItemAt syn) [] items) : items = [] := by
  cases h with
  | nil => rfl
  | last hitem => exact absurd hitem.length_lt (Nat.not_lt_zero _)
  | more hitem _ _ _ => exact absurd hitem.length_lt (Nat.not_lt_zero _)

/-- A list of items that can be added: the first item, and the others behind a comma. -/
theorem exists_items_iff (hne : ts ≠ []) :
    (∃ items, CommaList (ItemAt syn) ts items ∧ attr.addAll items = .ok attr') ↔
      ∃ attr₁ rest, TaskAttr.parseItem syn attr ts = .ok (attr₁, rest) ∧
        ((rest = [] ∧ attr₁ = attr') ∨
          (rest ≠ [] ∧ ∃ rest', punct ',' rest = .ok rest' ∧
            ∃ items, CommaList (ItemAt syn) rest' items ∧ attr₁.addAll items = .ok attr')) := by
  constructor
  · rintro ⟨items, hlist, hadd⟩
    cases hlist with
    | nil => exact absurd rfl hne
    | @last _ item hitem =>
        obtain ⟨attr₁, hfirst, hrest⟩ := addAll_cons_iff.mp hadd
        cases hrest
        exact ⟨_, [], parseItem_iff.mpr ⟨item, hitem, hfirst⟩, .inl ⟨rfl, rfl⟩⟩
    | @more _ rest rest' item items hitem hrest hcomma hitems =>
        obtain ⟨attr₁, hfirst, hothers⟩ := addAll_cons_iff.mp hadd
        exact ⟨attr₁, rest, parseItem_iff.mpr ⟨item, hitem, hfirst⟩,
          .inr ⟨hrest, rest', hcomma, items, hitems, hothers⟩⟩
  · rintro ⟨attr₁, rest, hparse, ⟨rfl, rfl⟩ | ⟨hrest, rest', hcomma, items, hitems, hothers⟩⟩
    · obtain ⟨item, hitem, hfirst⟩ := parseItem_iff.mp hparse
      exact ⟨[item], .last hitem, addAll_cons_iff.mpr ⟨attr₁, hfirst, rfl⟩⟩
    · obtain ⟨item, hitem, hfirst⟩ := parseItem_iff.mp hparse
      exact ⟨item :: items, .more hitem hrest hcomma hitems,
        addAll_cons_iff.mpr ⟨attr₁, hfirst, hothers⟩⟩

/-- The loop reads exactly the lists of items, and adds them up. -/
theorem parseLoop_iff : TaskAttr.parseLoop syn attr ts = .ok attr' ↔
    ∃ items, CommaList (ItemAt syn) ts items ∧ attr.addAll items = .ok attr' := by
  fun_induction TaskAttr.parseLoop syn attr ts with
  | case1 attr =>
      constructor
      · intro h
        exact ⟨[], .nil, h⟩
      · rintro ⟨items, hlist, hadd⟩
        rw [commaList_nil hlist] at hadd
        exact hadd
  | case2 attr ts hne e hitem =>
      rw [exists_items_iff hne, hitem]
      simp
  | case3 attr ts hne attr₁ hitem ih =>
      rw [exists_items_iff hne, hitem, ih]
      constructor
      · rintro ⟨items, hlist, hadd⟩
        rw [commaList_nil hlist] at hadd
        cases hadd
        exact ⟨_, _, rfl, .inl ⟨rfl, rfl⟩⟩
      · rintro ⟨attr₂, rest, heq, ⟨rfl, rfl⟩ | ⟨hrest, -⟩⟩
        · cases heq
          exact ⟨[], .nil, rfl⟩
        · cases heq
          exact absurd rfl hrest
  | case4 attr ts hne attr₁ rest hitem hrest e hcomma =>
      rw [exists_items_iff hne, hitem]
      simp [hrest, hcomma]
  | case5 attr ts hne attr₁ rest hitem hrest rest' hcomma ih =>
      rw [exists_items_iff hne, hitem, ih]
      simp [hrest, hcomma]

/-! ## The grammar -/

/-- The value of an item. -/
inductive Value where
  | queue (value : String)
  | maxRetries (value : UInt32)
  deriving DecidableEq, Repr

/-- `queue = <string literal>`, or `max_retries = <unsigned 32-bit integer literal>`. -/
inductive GrammarItem (ts : List Entry) : Value → List Entry → Prop where
  | queue {ts₁ ts₂ rest : List Entry} {value : String} :
      ident ts = .ok ("queue", ts₁) → punct '=' ts₁ = .ok ts₂ → litStr ts₂ = .ok (value, rest) →
      GrammarItem ts (.queue value) rest
  | maxRetries {ts₁ rest : List Entry} {value : Nat} :
      ident ts = .ok ("max_retries", ts₁) → punct '=' ts₁ = .ok (.literal (.int value) :: rest) →
      value < UInt32.size → GrammarItem ts (.maxRetries (UInt32.ofNat value)) (settle rest)

/-- The value of the last `queue` item. -/
def lastQueue (values : List Value) : Option String :=
  (values.filterMap fun | .queue value => some value | .maxRetries _ => none).getLast?

/-- The value of the last `max_retries` item. -/
def lastMaxRetries (values : List Value) : Option UInt32 :=
  (values.filterMap fun | .queue _ => none | .maxRetries value => some value).getLast?

/-- The parser ignores nothing: what it accepts is a list of the grammar, and the
attribute has the last values. -/
def IgnoresNothing (syn : Syn) (ts : List Entry) : Prop :=
  ∀ attr, TaskAttr.parse syn ts = .ok attr →
    ∃ values, CommaList GrammarItem (settle ts) values ∧
      attr.queue = lastQueue values ∧ attr.maxRetries = lastMaxRetries values

/-- An integer literal that stands alone. -/
def Expr.isInteger : Expr → Prop
  | .lit [] (.int _) => True
  | _ => False

/-- The integer literals among the values fit into 32 bits. -/
def Fits (items : List Item) : Prop :=
  ∀ attrs n, .maxRetries (.lit attrs (.int n)) ∈ items → n < UInt32.size

/-- However the input is read as a list of items whose integers fit, every `max_retries`
is an integer literal that stands alone. -/
def OnlyIntegers (syn : Syn) (ts : List Entry) : Prop :=
  ∀ items, CommaList (ItemAt syn) (settle ts) items → Fits items →
    ∀ e, .maxRetries e ∈ items → e.isInteger

/-- What the parser of expressions does with integer literals: one that stands alone is
that token, and such a token at the end of an item is one. -/
structure ReadsIntegers (syn : Syn) : Prop where
  alone : ∀ ts n k, syn.parseExpr ts = .ok (.lit [] (.int n), k) →
    k = 1 ∧ ∃ rest, ts = .literal (.int n) :: rest
  token : ∀ n rest, (settle rest = [] ∨ ∃ rest', punct ',' (settle rest) = .ok rest') →
    syn.parseExpr (.literal (.int n) :: rest) = .ok (.lit [] (.int n), 1)

/-- The item with a value. -/
def Value.toItem : Value → Item
  | .queue value => .queue value
  | .maxRetries value => .maxRetries (.lit [] (.int value.toNat))

/-! ## Readings -/

/-- An input is read as at most one list of items. -/
theorem commaList_unique {items items' : List Item} (h : CommaList (ItemAt syn) ts items)
    (h' : CommaList (ItemAt syn) ts items') : items = items' := by
  induction h generalizing items' with
  | nil => exact (commaList_nil h').symm
  | last hitem =>
      cases h' with
      | nil => exact absurd hitem.length_lt (Nat.not_lt_zero _)
      | last hitem' => rw [(hitem.unique hitem').1]
      | more hitem' hrest _ _ => exact absurd (hitem.unique hitem').2.symm hrest
  | more hitem hrest hcomma _ ih =>
      cases h' with
      | nil => exact absurd hitem.length_lt (Nat.not_lt_zero _)
      | last hitem' => exact absurd (hitem.unique hitem').2 hrest
      | more hitem' _ hcomma' hitems' =>
          obtain ⟨rfl, rfl⟩ := hitem.unique hitem'
          cases hcomma.symm.trans hcomma'
          rw [ih hitems']

/-- An item of the grammar is read as one, where an item ends. -/
theorem GrammarItem.itemAt (hsyn : ReadsIntegers syn) {value : Value}
    (h : GrammarItem ts value rest) (hend : rest = [] ∨ ∃ rest', punct ',' rest = .ok rest') :
    ItemAt syn ts value.toItem rest := by
  cases h with
  | queue hkey hequals hvalue => exact .queue hkey hequals hvalue
  | @maxRetries ts₁ rest₀ n hkey hequals hfits =>
      have htoNat : (UInt32.ofNat n).toNat = n := by
        rw [UInt32.toNat_ofNat', Nat.mod_eq_of_lt hfits]
      refine .maxRetries hkey hequals ?_
      rw [htoNat, expr, hsyn.token n rest₀ hend]
      rfl

theorem CommaList.items (hsyn : ReadsIntegers syn) {values : List Value}
    (h : CommaList GrammarItem ts values) :
    CommaList (ItemAt syn) ts (values.map Value.toItem) := by
  induction h with
  | nil => exact .nil
  | last hitem => exact .last (hitem.itemAt hsyn (.inl rfl))
  | more hitem hrest hcomma _ ih =>
      exact .more (hitem.itemAt hsyn (.inr ⟨_, hcomma⟩)) hrest hcomma ih

/-- An item whose value is a string or an integer that fits is one of the grammar. -/
theorem ItemAt.grammarItem (hsyn : ReadsIntegers syn) (h : ItemAt syn ts item rest)
    (hinteger : ∀ e, item = .maxRetries e → e.isInteger)
    (hfits : ∀ attrs n, item = .maxRetries (.lit attrs (.int n)) → n < UInt32.size) :
    ∃ value : Value, GrammarItem ts value rest ∧ item = value.toItem := by
  cases h with
  | @queue _ _ _ value hkey hequals hvalue => exact ⟨.queue value, .queue hkey hequals hvalue, rfl⟩
  | @maxRetries ts₁ ts₂ _ e hkey hequals hvalue =>
      obtain ⟨n, rfl⟩ : ∃ n, e = .lit [] (.int n) := by
        have he := hinteger e rfl
        unfold Expr.isInteger at he
        split at he
        · exact ⟨_, rfl⟩
        · exact he.elim
      have hn := hfits [] n rfl
      have htoNat : (UInt32.ofNat n).toNat = n := by
        rw [UInt32.toNat_ofNat', Nat.mod_eq_of_lt hn]
      unfold expr at hvalue
      split at hvalue
      · rename_i e' k hparse
        cases hvalue
        obtain ⟨rfl, rest', rfl⟩ := hsyn.alone _ _ _ hparse
        exact ⟨.maxRetries (UInt32.ofNat n), .maxRetries hkey hequals hn, by
          rw [Value.toItem, htoNat]⟩
      · cases hvalue

theorem CommaList.values (hsyn : ReadsIntegers syn) {items : List Item}
    (h : CommaList (ItemAt syn) ts items) (hinteger : ∀ e, .maxRetries e ∈ items → e.isInteger)
    (hfits : Fits items) :
    ∃ values, CommaList GrammarItem ts values ∧ items = values.map Value.toItem := by
  induction h with
  | nil => exact ⟨[], .nil, rfl⟩
  | last hitem =>
      obtain ⟨value, hvalue, rfl⟩ := hitem.grammarItem hsyn
        (fun e he => hinteger e (he ▸ List.mem_cons_self))
        (fun attrs n he => hfits attrs n (he ▸ List.mem_cons_self))
      exact ⟨[value], .last hvalue, rfl⟩
  | more hitem hrest hcomma _ ih =>
      obtain ⟨value, hvalue, rfl⟩ := hitem.grammarItem hsyn
        (fun e he => hinteger e (he ▸ List.mem_cons_self))
        (fun attrs n he => hfits attrs n (he ▸ List.mem_cons_self))
      obtain ⟨values, hvalues, rfl⟩ := ih
        (fun e he => hinteger e (List.mem_cons_of_mem _ he))
        (fun attrs n he => hfits attrs n (List.mem_cons_of_mem _ he))
      exact ⟨value :: values, .more hvalue hrest hcomma hvalues, rfl⟩

/-! ## Sums -/

theorem base10Parse_eq_ok_iff {n : Nat} {value : UInt32} :
    base10Parse n = .ok value ↔ n < UInt32.size ∧ value = UInt32.ofNat n := by
  unfold base10Parse
  split
  · rename_i hn
    exact ⟨(fun h => by cases h; exact ⟨hn, rfl⟩), fun h => congrArg _ h.2.symm⟩
  · rename_i hn
    exact ⟨(fun h => by cases h), fun h => absurd h.1 hn⟩

/-- An item can be added exactly if its integer fits. -/
theorem exists_add_iff : (∃ attr', attr.add item = .ok attr') ↔
    ∀ attrs n, item = .maxRetries (.lit attrs (.int n)) → n < UInt32.size := by
  cases item with
  | queue value => exact iff_of_true ⟨_, rfl⟩ fun attrs n h => by cases h
  | maxRetries e =>
      cases e with
      | other tokens => exact iff_of_true ⟨_, rfl⟩ fun attrs n h => by cases h
      | lit attrs l =>
          cases l with
          | str value => exact iff_of_true ⟨_, rfl⟩ fun attrs n h => by cases h
          | other text => exact iff_of_true ⟨_, rfl⟩ fun attrs n h => by cases h
          | int n =>
              constructor
              · rintro ⟨attr', hadd⟩ attrs' n' heq
                obtain ⟨value, hvalue, -⟩ := bind_eq_ok_iff.mp hadd
                cases heq
                exact (base10Parse_eq_ok_iff.mp hvalue).1
              · intro hfits
                have hvalue := base10Parse_eq_ok_iff.mpr ⟨hfits attrs n rfl, rfl⟩
                exact ⟨_, bind_eq_ok_iff.mpr ⟨_, hvalue, rfl⟩⟩

/-- Items can be added up exactly if their integers fit. -/
theorem exists_addAll_iff {items : List Item} :
    (∃ attr', attr.addAll items = .ok attr') ↔ Fits items := by
  induction items generalizing attr with
  | nil => exact iff_of_true ⟨attr, rfl⟩ fun attrs n h => by cases h
  | cons item items ih =>
      constructor
      · rintro ⟨attr', hadd⟩ attrs n hmem
        obtain ⟨attr₁, hfirst, hothers⟩ := addAll_cons_iff.mp hadd
        rcases List.mem_cons.mp hmem with hitem | hrest
        · exact exists_add_iff.mp ⟨attr₁, hfirst⟩ attrs n hitem.symm
        · exact ih.mp ⟨attr', hothers⟩ attrs n hrest
      · intro hfits
        obtain ⟨attr₁, hfirst⟩ := exists_add_iff.mpr fun attrs n hitem =>
          hfits attrs n (hitem ▸ List.mem_cons_self)
        obtain ⟨attr', hothers⟩ := ih.mpr fun attrs n hmem =>
          hfits attrs n (List.mem_cons_of_mem item hmem)
        exact ⟨attr', addAll_cons_iff.mpr ⟨attr₁, hfirst, hothers⟩⟩

/-- An item with a value is added. -/
theorem add_toItem (value : Value) :
    attr.add value.toItem = .ok ⟨(lastQueue [value]).or attr.queue,
      (lastMaxRetries [value]).or attr.maxRetries⟩ := by
  cases value with
  | queue text => rfl
  | maxRetries n =>
      have hvalue : base10Parse n.toNat = .ok n :=
        base10Parse_eq_ok_iff.mpr ⟨n.toNat_lt, (UInt32.ofNat_toNat).symm⟩
      exact bind_eq_ok_iff.mpr ⟨_, hvalue, rfl⟩

/-- The last value is the last of the others, or the first. -/
theorem getLast?_filterMap_cons {α β : Type} (f : α → Option β) (a : α) (as : List α) :
    ((a :: as).filterMap f).getLast? =
      ((as.filterMap f).getLast?).or (([a].filterMap f).getLast?) := by
  rw [← List.singleton_append, List.filterMap_append, List.getLast?_append]

theorem lastQueue_cons (value : Value) (values : List Value) :
    lastQueue (value :: values) = (lastQueue values).or (lastQueue [value]) :=
  getLast?_filterMap_cons _ _ _

theorem lastMaxRetries_cons (value : Value) (values : List Value) :
    lastMaxRetries (value :: values) = (lastMaxRetries values).or (lastMaxRetries [value]) :=
  getLast?_filterMap_cons _ _ _

/-- The sum of the items with some values has the last of them. -/
theorem addAll_values (values : List Value) :
    attr.addAll (values.map Value.toItem) =
      .ok ⟨(lastQueue values).or attr.queue, (lastMaxRetries values).or attr.maxRetries⟩ := by
  induction values generalizing attr with
  | nil => rfl
  | cons value values ih =>
      refine addAll_cons_iff.mpr ⟨_, add_toItem value, ?_⟩
      rw [ih, lastQueue_cons value values, lastMaxRetries_cons value values, Option.or_assoc,
        Option.or_assoc]

/-- When the attribute parser ignores nothing: when every `max_retries` of its input
is an integer literal that stands alone. -/
theorem ignores_nothing_iff (hsyn : ReadsIntegers syn) (ts : List Entry) :
    IgnoresNothing syn ts ↔ OnlyIntegers syn ts := by
  constructor
  · intro hnothing items hitems hfits e he
    obtain ⟨attr, hadd⟩ := exists_addAll_iff.mpr hfits
    have hparse := parseLoop_iff.mpr ⟨items, hitems, hadd⟩
    obtain ⟨values, hvalues, -, -⟩ := hnothing attr hparse
    obtain rfl := commaList_unique hitems (hvalues.items hsyn)
    obtain ⟨value, -, heq⟩ := List.mem_map.mp he
    cases value with
    | queue text => cases heq
    | maxRetries n =>
        cases heq
        trivial
  · intro honly attr hparse
    obtain ⟨items, hitems, hadd⟩ := parseLoop_iff.mp hparse
    have hfits := exists_addAll_iff.mp ⟨attr, hadd⟩
    obtain ⟨values, hvalues, rfl⟩ := hitems.values hsyn (honly items hitems hfits) hfits
    rw [addAll_values] at hadd
    cases hadd
    exact ⟨values, hvalues, Option.or_none, Option.or_none⟩

/-! ## Two inputs -/

/-- An item ends at the end of the input, or at a comma. -/
def atEnd (ts : List Entry) : Bool := (settle ts).isEmpty || (punct ',' (settle ts)).isOk

/-- The entries of a value. -/
def valueTokens : List Entry → List Entry
  | [] => []
  | t :: ts => if atEnd (t :: ts) then [] else t :: valueTokens ts

/-- The parser of expressions, where the values are literals and simple operations. -/
def literalSyn : Syn where
  parseExpr ts :=
    match valueTokens ts with
    | [] => .error "expected an expression"
    | [.literal l] => .ok (.lit [] l, 1)
    | tokens => .ok (.other tokens, tokens.length)

theorem valueTokens_end (h : settle ts = [] ∨ ∃ rest', punct ',' (settle ts) = .ok rest') :
    valueTokens ts = [] := by
  cases ts with
  | nil => rfl
  | cons t ts =>
      have hend : atEnd (t :: ts) = true := by
        unfold atEnd
        rcases h with hnil | ⟨rest', hcomma⟩
        · rw [hnil]
          rfl
        · rw [hcomma]
          exact Bool.or_true _
      rw [valueTokens, if_pos hend]

theorem valueTokens_cons {t : Entry} {tokens : List Entry} (h : valueTokens ts = t :: tokens) :
    ∃ rest, ts = t :: rest := by
  cases ts with
  | nil => cases h
  | cons t' ts =>
      rw [valueTokens] at h
      split at h
      · cases h
      · cases h
        exact ⟨ts, rfl⟩

theorem literalSyn_readsIntegers : ReadsIntegers literalSyn where
  alone ts n k h := by
    unfold literalSyn at h
    dsimp only at h
    split at h
    · cases h
    · rename_i l hvalue
      cases h
      exact ⟨rfl, valueTokens_cons hvalue⟩
    · cases h
  token n rest hend := by
    have hnot : ¬ atEnd (.literal (.int n) :: rest) = true := by
      intro h
      cases h
    have hvalue : valueTokens (.literal (.int n) :: rest) = [.literal (.int n)] := by
      rw [valueTokens, if_neg hnot, valueTokens_end hend]
    unfold literalSyn
    dsimp only
    rw [hvalue]

/-- `queue = "q", max_retries = 10`. -/
def bothTokens : List Entry :=
  [.ident "queue", .punct '=', .literal (.str "q"), .punct ',', .ident "max_retries",
    .punct '=', .literal (.int 10)]

/-- `max_retries = -1`. -/
def negativeTokens : List Entry :=
  [.ident "max_retries", .punct '=', .punct '-', .literal (.int 1)]

theorem ignores_nothing_both : IgnoresNothing literalSyn bothTokens := by
  refine (ignores_nothing_iff literalSyn_readsIntegers bothTokens).mpr fun items hitems _ e he => ?_
  have hboth : CommaList (ItemAt literalSyn) (settle bothTokens)
      [.queue "q", .maxRetries (.lit [] (.int 10))] :=
    .more (.queue rfl rfl rfl) (List.cons_ne_nil _ _) rfl (.last (.maxRetries rfl rfl rfl))
  rw [commaList_unique hitems hboth] at he
  simp only [List.mem_cons, List.not_mem_nil, or_false] at he
  rcases he with he | he
  · cases he
  · cases he
    trivial

/-- A sign is not a literal. -/
theorem negativeTokens_not_grammar {value : Value} : ¬ GrammarItem negativeTokens value rest := by
  have hkey : ident negativeTokens = .ok ("max_retries", negativeTokens.tail) := rfl
  intro h
  cases h with
  | queue hqueue _ _ =>
      have hsame : "max_retries" = "queue" :=
        congrArg Prod.fst (Except.ok.inj (hkey.symm.trans hqueue))
      exact absurd hsame (by decide)
  | maxRetries hretries hequals _ =>
      cases hkey.symm.trans hretries
      cases hequals

/-- A negative number of retries is ignored: the attribute is accepted as if it were
empty, and the task gets the default of three retries. -/
theorem negative_retries_ignored :
    TaskAttr.parse literalSyn negativeTokens = .ok TaskAttr.default ∧
      TaskAttr.default.maxRetriesConst = 3 ∧ ¬ IgnoresNothing literalSyn negativeTokens := by
  have hparse : TaskAttr.parse literalSyn negativeTokens = .ok TaskAttr.default :=
    parseLoop_iff.mpr ⟨[.maxRetries (.other [.punct '-', .literal (.int 1)])],
      .last (.maxRetries rfl rfl rfl), rfl⟩
  refine ⟨hparse, rfl, fun hnothing => ?_⟩
  obtain ⟨values, hvalues, -, hnone⟩ := hnothing _ hparse
  cases hvalues with
  | last hitem => exact negativeTokens_not_grammar hitem
  | more hitem _ _ _ => exact negativeTokens_not_grammar hitem

end Kojin.Macros
