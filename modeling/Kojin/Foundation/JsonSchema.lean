/-
  Foundation/JsonSchema.lean --- a fragment of JSON Schema, draft 7.

  The schemas are those of one kind of object: required properties, a subschema for each
  property that is allowed, and no others.  A subschema is a list of keywords, or a
  reference to the whole schema.

  Formats are checked, and a number with a zero fraction is an integer, as the draft has
  it; what is a UUID, what is a date-time and which floats are whole is taken as given.

  Nothing here mentions a particular program.
-/
import Kojin.Foundation.Json

set_option autoImplicit false

namespace Kojin.Foundation

/-- What a validator knows about texts and floats: the formats, and the integer a float
denotes, if it denotes one. -/
structure Vocabulary where
  uuid : String → Bool
  dateTime : String → Bool
  whole : FloatText → Option Int

/-- `type`. -/
inductive JsonType where
  | null
  | object
  | string
  | integer
  deriving DecidableEq

/-- `format`. -/
inductive Format where
  | uuid
  | dateTime
  deriving DecidableEq

/-- The keywords of a subschema.  Without types every value is allowed, and without an
enumeration every string; `values` is the type of all values of an object. -/
structure Keywords where
  types : List JsonType
  format : Option Format
  enum : List String
  minimum : Option Int
  maximum : Option Int
  values : Option JsonType

/-- No keywords at all. -/
def Keywords.any : Keywords := ⟨[], none, [], none, none, none⟩

/-- A subschema: keywords, or `"$ref": "#"`. -/
inductive Subschema where
  | keywords (k : Keywords)
  | root

/-- A schema with `"type": "object"` and `"additionalProperties": false`. -/
structure ObjectSchema where
  required : List String
  properties : List (String × Subschema)

section Validation

variable (voc : Vocabulary)

/-- The integer that a number denotes. -/
def JsonNumber.whole : JsonNumber → Option Int
  | .int n => some n
  | .float f => voc.whole f

/-- The value is of the type. -/
def Json.hasType : JsonType → Json → Bool
  | .null, .null => true
  | .object, .obj _ => true
  | .string, .str _ => true
  | .integer, .num n => (n.whole voc).isSome
  | _, _ => false

namespace Keywords

variable (k : Keywords)

def typeHolds (v : Json) : Bool := k.types.isEmpty || k.types.any (v.hasType voc ·)

def formatHolds : Json → Bool
  | .str s =>
      match k.format with
      | some .uuid => voc.uuid s
      | some .dateTime => voc.dateTime s
      | none => true
  | _ => true

def enumHolds : Json → Bool
  | .str s => k.enum.isEmpty || k.enum.contains s
  | _ => k.enum.isEmpty

def rangeHolds : Json → Bool
  | .num n =>
      match n.whole voc with
      | some i => k.minimum.all (· ≤ i) && k.maximum.all (i ≤ ·)
      | none => true
  | _ => true

def valuesHold : Json → Bool
  | .obj fields => k.values.all fun t => fields.all fun f => f.2.hasType voc t
  | _ => true

/-- The value satisfies the keywords. -/
def holds (v : Json) : Bool :=
  k.typeHolds voc v && k.formatHolds voc v && k.enumHolds v && k.rangeHolds voc v &&
    k.valuesHold voc v

end Keywords

/-- An integer, written as one and below the bound. -/
def plainInteger (bound : Int) : Json → Bool
  | .num (.int n) => n < bound
  | .num (.float _) => false
  | _ => true

namespace ObjectSchema

variable (S : ObjectSchema)

/-- The property is there. -/
def has (fields : List (String × Json)) (key : String) : Bool := (fields.lookup key).isSome

mutual

/-- The value is valid under the schema. -/
def valid : Json → Bool
  | .obj fields => S.required.all (has fields) && fieldsValid fields
  | _ => false

/-- All properties are allowed, and valid under their subschemas. -/
def fieldsValid : List (String × Json) → Bool
  | [] => true
  | (key, v) :: rest =>
      (match S.properties.lookup key with
        | none => false
        | some (.keywords k) => k.holds voc v
        | some .root => valid v) && fieldsValid rest

end

mutual

/-- Where the schema has an integer, the value has one that is written as an integer and
is below the bound, or no number. -/
def plain (bound : Int) : Json → Bool
  | .obj fields => fieldsPlain bound fields
  | _ => true

/-- The integers among the properties of an object are plain, as far as the schema asks for them. -/
def fieldsPlain (bound : Int) : List (String × Json) → Bool
  | [] => true
  | (key, v) :: rest =>
      (match S.properties.lookup key with
        | none => true
        | some (.keywords k) => !k.types.contains .integer || plainInteger bound v
        | some .root => plain bound v) && fieldsPlain bound rest

end

end ObjectSchema

end Validation

/-! ## Keywords with `null` -/

/-- `"type": [..., "null"]`. -/
def Keywords.orNull (k : Keywords) : Keywords := { k with types := k.types ++ [.null] }

section OrNull

variable {voc : Vocabulary} {k : Keywords} {v : Json}

theorem Keywords.holds_iff :
    k.holds voc v = true ↔ k.typeHolds voc v = true ∧ k.formatHolds voc v = true ∧
      k.enumHolds v = true ∧ k.rangeHolds voc v = true ∧ k.valuesHold voc v = true := by
  simp only [holds, Bool.and_eq_true, and_assoc]

/-- Everything satisfies no keywords. -/
theorem Keywords.holds_any (v : Json) : Keywords.any.holds voc v = true := by
  refine holds_iff.mpr ⟨rfl, ?_, ?_, ?_, ?_⟩
  · cases v <;> rfl
  · cases v <;> rfl
  · cases v with
    | num n => cases h : n.whole voc <;> simp [rangeHolds, any, h]
    | _ => rfl
  · cases v <;> rfl

/-- A value of the type `string`. -/
theorem Keywords.str_of_holds (hk : k.types = [.string]) (h : k.holds voc v = true) :
    ∃ s, v = .str s := by
  have htype := (holds_iff.mp h).1
  rw [typeHolds, hk] at htype
  cases v with
  | str s => exact ⟨s, rfl⟩
  | _ => cases htype

/-- A value of the type `integer` that is written as one. -/
theorem Keywords.int_of_holds {bound : Int} (hk : k.types = [.integer])
    (h : k.holds voc v = true) (hplain : plainInteger bound v = true) :
    ∃ n, v = .num (.int n) ∧ n < bound ∧ (∀ low, k.minimum = some low → low ≤ n) ∧
      ∀ high, k.maximum = some high → n ≤ high := by
  obtain ⟨htype, -, -, hrange, -⟩ := holds_iff.mp h
  rw [typeHolds, hk] at htype
  cases v with
  | num n =>
      cases n with
      | int n =>
          simp only [rangeHolds, JsonNumber.whole, Bool.and_eq_true, Option.all_eq_true,
            decide_eq_true_eq] at hrange
          exact ⟨n, rfl, of_decide_eq_true hplain, fun low => hrange.1 low,
            fun high => hrange.2 high⟩
      | float f => cases hplain
  | _ => cases htype

theorem Keywords.holds_orNull (h : k.holds voc v = true) (hk : k.types ≠ []) :
    k.orNull.holds voc v = true := by
  obtain ⟨htype, hrest⟩ := holds_iff.mp h
  refine holds_iff.mpr ⟨?_, hrest⟩
  simp only [typeHolds, Bool.or_eq_true, List.isEmpty_iff] at htype
  simp [typeHolds, orNull, htype.resolve_left hk]

/-- Apart from `null` there is nothing new. -/
theorem Keywords.holds_of_orNull (h : k.orNull.holds voc v = true) :
    v = .null ∨ k.holds voc v = true := by
  obtain ⟨htype, hrest⟩ := holds_iff.mp h
  by_cases hnull : v.hasType voc .null = true
  · cases v with
    | null => exact .inl rfl
    | _ => cases hnull
  · refine .inr (holds_iff.mpr ⟨?_, hrest⟩)
    have hany : k.types.any (v.hasType voc ·) = true := by
      simpa [typeHolds, orNull, hnull] using htype
    rw [typeHolds, hany, Bool.or_true]

end OrNull

/-! ## What validity says of a property -/

namespace ObjectSchema

variable {voc : Vocabulary} {S : ObjectSchema} {bound : Int} {fields : List (String × Json)}
  {key : String} {v : Json} {k : Keywords}

theorem valid_obj :
    S.valid voc (.obj fields) = true ↔
      (∀ key ∈ S.required, has fields key = true) ∧ S.fieldsValid voc fields = true := by
  rw [valid, Bool.and_eq_true, List.all_eq_true]

theorem mem_of_lookup (h : fields.lookup key = some v) : (key, v) ∈ fields := by
  obtain ⟨before, after, rfl, -⟩ := List.lookup_eq_some_iff.mp h
  exact List.mem_append_right before List.mem_cons_self

theorem fieldsValid_iff :
    S.fieldsValid voc fields = true ↔ ∀ f ∈ fields,
      (match S.properties.lookup f.1 with
        | none => false
        | some (.keywords k) => k.holds voc f.2
        | some .root => S.valid voc f.2) = true := by
  induction fields with
  | nil => simp [fieldsValid]
  | cons f rest ih => rw [fieldsValid, Bool.and_eq_true, ih, List.forall_mem_cons]

theorem fieldsPlain_iff :
    S.fieldsPlain bound fields = true ↔ ∀ f ∈ fields,
      (match S.properties.lookup f.1 with
        | none => true
        | some (.keywords k) => !k.types.contains .integer || plainInteger bound f.2
        | some .root => S.plain bound f.2) = true := by
  induction fields with
  | nil => simp [fieldsPlain]
  | cons f rest ih => rw [fieldsPlain, Bool.and_eq_true, ih, List.forall_mem_cons]

/-- A property with keywords satisfies them. -/
theorem holds_of_valid (h : S.fieldsValid voc fields = true)
    (hkey : S.properties.lookup key = some (.keywords k)) (hv : fields.lookup key = some v) :
    k.holds voc v = true := by
  have hfield := fieldsValid_iff.mp h (key, v) (mem_of_lookup hv)
  rw [hkey] at hfield
  exact hfield

/-- A reference to the schema is valid under it. -/
theorem root_of_valid (h : S.fieldsValid voc fields = true)
    (hkey : S.properties.lookup key = some .root) (hv : fields.lookup key = some v) :
    S.valid voc v = true := by
  have hfield := fieldsValid_iff.mp h (key, v) (mem_of_lookup hv)
  rw [hkey] at hfield
  exact hfield

/-- The integer of a property. -/
theorem plain_of_lookup (h : S.fieldsPlain bound fields = true)
    (hkey : S.properties.lookup key = some (.keywords k)) (hk : k.types.contains .integer = true)
    (hv : fields.lookup key = some v) : plainInteger bound v = true := by
  have hfield := fieldsPlain_iff.mp h (key, v) (mem_of_lookup hv)
  rw [hkey] at hfield
  change (!k.types.contains .integer || plainInteger bound v) = true at hfield
  rw [hk] at hfield
  exact hfield

theorem root_of_plain (h : S.fieldsPlain bound fields = true)
    (hkey : S.properties.lookup key = some .root) (hv : fields.lookup key = some v) :
    S.plain bound v = true := by
  have hfield := fieldsPlain_iff.mp h (key, v) (mem_of_lookup hv)
  rw [hkey] at hfield
  exact hfield

end ObjectSchema

end Kojin.Foundation
