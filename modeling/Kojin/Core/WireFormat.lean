/-
  Core/WireFormat.lean --- the schema of messages (`docs/message-schema.json`) against what
  is written and read (`kojin-core`: `message.rs`).

  A message whose priorities are at most nine is written as a valid value.  A valid value
  can be read, as long as its integers are written as integers and fit; the optional fields
  of the message are those that are there and are not `null`.
-/
import Kojin.Core.Wire

set_option autoImplicit false

namespace Kojin.Core

open Kojin.Foundation

/-! ## The schema -/

/-- The schemas of the properties, by the keywords they use. -/
def stringKeywords : Keywords := { Keywords.any with types := [.string] }

def uuidKeywords : Keywords := { stringKeywords with format := some .uuid }

def dateTimeKeywords : Keywords := { stringKeywords with format := some .dateTime }

def countKeywords : Keywords := { Keywords.any with types := [.integer], minimum := some 0 }

/-- `docs/message-schema.json`. -/
def messageSchema : ObjectSchema where
  required :=
    ["id", "task_name", "queue", "payload", "state", "retries", "max_retries", "created_at",
     "updated_at", "headers"]
  properties :=
    [("id", .keywords uuidKeywords),
     ("task_name", .keywords stringKeywords),
     ("queue", .keywords stringKeywords),
     ("payload", .keywords Keywords.any),
     ("state", .keywords { stringKeywords with
        enum := ["pending", "received", "started", "success", "failure", "retry", "revoked",
          "dead_lettered"] }),
     ("retries", .keywords countKeywords),
     ("max_retries", .keywords countKeywords),
     ("created_at", .keywords dateTimeKeywords),
     ("updated_at", .keywords dateTimeKeywords),
     ("eta", .keywords dateTimeKeywords.orNull),
     ("headers", .keywords { Keywords.any with types := [.object], values := some .string }),
     ("parent_id", .keywords uuidKeywords.orNull),
     ("correlation_id", .keywords stringKeywords.orNull),
     ("group_id", .keywords stringKeywords.orNull),
     ("group_total", .keywords countKeywords.orNull),
     ("chord_callback", .root),
     ("priority", .keywords { countKeywords.orNull with maximum := some 9 }),
     ("dedup_key", .keywords stringKeywords.orNull)]

/-! ## What is written is valid -/

/-- All priorities are at most nine, also in the callbacks. -/
def TaskMessage.PriorityInRange : TaskMessage → Prop
  | ⟨_, _, _, _, _, _, _, _, _, _, _, _, _, _, _, chordCallback, priority, _⟩ =>
    (∀ n, priority = some n → n ≤ 9) ∧
      match chordCallback with
      | none => True
      | some callback => callback.PriorityInRange

theorem TaskMessage.priorityInRange_iff {m : TaskMessage} :
    m.PriorityInRange ↔ (∀ n, m.priority = some n → n ≤ 9) ∧
      ∀ callback, m.chordCallback = some callback → callback.PriorityInRange := by
  cases m with
  | mk id taskName queue payload state retries maxRetries createdAt updatedAt eta headers parentId
      correlationId groupId groupTotal chordCallback priority dedupKey =>
    rw [TaskMessage.PriorityInRange.eq_def]
    cases chordCallback with
    | none => simp
    | some callback => simp

section Written

variable {α : Type} {F : TextFormats}

theorem holds_uuid (id : TaskId) : uuidKeywords.holds F.toVocabulary (.str id.toText) = true := by
  refine Keywords.holds_iff.mpr ⟨rfl, ?_, rfl, rfl, rfl⟩
  exact F.uuid_toText id

theorem holds_dateTime (t : DateTime) :
    dateTimeKeywords.holds F.toVocabulary (.str (F.rfc3339 t)) = true := by
  refine Keywords.holds_iff.mpr ⟨rfl, ?_, rfl, rfl, rfl⟩
  exact F.dateTime_rfc3339 t

theorem holds_count (voc : Vocabulary) (n : Nat) : countKeywords.holds voc (natJson n) = true := by
  refine Keywords.holds_iff.mpr ⟨rfl, rfl, rfl, ?_, rfl⟩
  show (decide ((0 : Int) ≤ n) && true) = true
  simp

theorem holds_priority (voc : Vocabulary) {n : UInt8} (h : n ≤ 9) :
    Keywords.holds voc { countKeywords.orNull with maximum := some 9 } (natJson n.toNat) = true := by
  have hle : n.toNat ≤ 9 := UInt8.le_iff_toNat_le.mp h
  refine Keywords.holds_iff.mpr ⟨rfl, rfl, rfl, ?_, rfl⟩
  show (decide ((0 : Int) ≤ n.toNat) && decide ((n.toNat : Int) ≤ 9)) = true
  rw [Bool.and_eq_true, decide_eq_true_eq, decide_eq_true_eq]
  omega

theorem holds_headers (voc : Vocabulary) (h : Headers) :
    Keywords.holds voc { Keywords.any with types := [.object], values := some .string }
      (headersJson h) = true := by
  refine Keywords.holds_iff.mpr ⟨rfl, rfl, rfl, rfl, ?_⟩
  show (List.all (h.entries.map fun e => (e.1, Json.str e.2)) fun f => f.2.hasType voc .string) = true
  rw [List.all_map]
  exact List.all_eq_true.mpr fun e _ => rfl

/-- A property is allowed and valid. -/
def FieldValid (F : TextFormats) (f : String × Json) : Prop :=
  (match messageSchema.properties.lookup f.1 with
    | none => false
    | some (.keywords k) => k.holds F.toVocabulary f.2
    | some .root => messageSchema.valid F.toVocabulary f.2) = true

theorem fieldsValid_optionalField {key : String} {f : α → Json} {o : Option α}
    (h : ∀ a, o = some a → FieldValid F (key, f a)) :
    ∀ e ∈ optionalField key f o, FieldValid F e := by
  intro e he
  cases o with
  | none => cases he
  | some a =>
      obtain rfl := List.mem_singleton.mp he
      exact h a rfl

/-- What is written is valid under the schema. -/
theorem TaskMessage.valid_toJson (F : TextFormats) (m : TaskMessage) (h : m.PriorityInRange) :
    messageSchema.valid F.toVocabulary (m.toJson F.rfc3339) = true := by
  induction m using TaskMessage.callbackInduction with
  | step m ih =>
      obtain ⟨hpriority, hcallback⟩ := TaskMessage.priorityInRange_iff.mp h
      rw [TaskMessage.toJson_eq, ObjectSchema.valid_obj]
      refine ⟨?_, ObjectSchema.fieldsValid_iff.mpr ?_⟩
      · intro key hkey
        simp only [messageSchema, List.mem_cons, List.not_mem_nil, or_false] at hkey
        rcases hkey with rfl | rfl | rfl | rfl | rfl | rfl | rfl | rfl | rfl | rfl <;> rfl
      · show ∀ f ∈ m.jsonFields F.rfc3339, FieldValid F f
        have hstring : stringKeywords.types ≠ [] := List.cons_ne_nil _ _
        have hstate : FieldValid F ("state", .str m.state.toText) := by
          show Keywords.holds _ _ _ = true
          cases m.state <;> rfl
        have heta : FieldValid F
            ("eta", (m.eta.map fun t => Json.str (F.rfc3339 t)).getD .null) := by
          cases m.eta with
          | none => rfl
          | some t => exact Keywords.holds_orNull (holds_dateTime t) hstring
        simp only [jsonFields, List.forall_mem_append, List.forall_mem_cons, List.not_mem_nil,
          false_implies, implies_true, and_true]
        refine ⟨⟨⟨⟨⟨⟨⟨⟨holds_uuid m.id, rfl, rfl, Keywords.holds_any m.payload, hstate,
          holds_count _ _, holds_count _ _, holds_dateTime _, holds_dateTime _, heta,
          holds_headers _ _⟩, ?_⟩, ?_⟩, ?_⟩, ?_⟩, ?_⟩, ?_⟩, ?_⟩
        · exact fieldsValid_optionalField fun i _ => Keywords.holds_orNull (holds_uuid i) hstring
        · exact fieldsValid_optionalField fun s _ => rfl
        · exact fieldsValid_optionalField fun s _ => rfl
        · exact fieldsValid_optionalField fun n _ =>
            Keywords.holds_orNull (holds_count _ _) (List.cons_ne_nil _ _)
        · exact fieldsValid_optionalField fun callback hc => ih callback hc (hcallback callback hc)
        · exact fieldsValid_optionalField fun n hn => holds_priority _ (hpriority n hn)
        · exact fieldsValid_optionalField fun s _ => rfl

end Written

/-! ## What is valid can be read -/

/-- The field is not there, or `null`. -/
def Absent (fields : List (String × Json)) (key : String) : Prop :=
  fields.lookup key = none ∨ fields.lookup key = some .null

/-- The optional fields that the message lacks are those that are absent from the value,
also in the callbacks. -/
inductive LacksAbsent : Json → TaskMessage → Prop where
  | obj {fields : List (String × Json)} {m : TaskMessage} :
      (m.eta = none ↔ Absent fields "eta") →
      (m.parentId = none ↔ Absent fields "parent_id") →
      (m.correlationId = none ↔ Absent fields "correlation_id") →
      (m.groupId = none ↔ Absent fields "group_id") →
      (m.groupTotal = none ↔ Absent fields "group_total") →
      (m.chordCallback = none ↔ Absent fields "chord_callback") →
      (m.priority = none ↔ Absent fields "priority") →
      (m.dedupKey = none ↔ Absent fields "dedup_key") →
      (∀ v callback, fields.lookup "chord_callback" = some v →
        m.chordCallback = some callback → LacksAbsent v callback) →
      LacksAbsent (.obj fields) m

section Valid

variable {α : Type} {F : TextFormats} {fields : List (String × Json)} {key : String} {v : Json}
  {k : Keywords} {read : Json → Option α}

theorem readString_of_holds (h : stringKeywords.holds F.toVocabulary v = true) :
    ∃ s, readString v = some s := by
  obtain ⟨s, rfl⟩ := Keywords.str_of_holds rfl h
  exact ⟨s, rfl⟩

theorem readUuid_of_holds (h : uuidKeywords.holds F.toVocabulary v = true) :
    ∃ id, F.readUuid v = some id := by
  obtain ⟨s, rfl⟩ := Keywords.str_of_holds rfl h
  exact F.uuid_reads s (Keywords.holds_iff.mp h).2.1

theorem readDateTime_of_holds (h : dateTimeKeywords.holds F.toVocabulary v = true) :
    ∃ t, F.readDateTime v = some t := by
  obtain ⟨s, rfl⟩ := Keywords.str_of_holds rfl h
  exact F.dateTime_reads s (Keywords.holds_iff.mp h).2.1

theorem readUInt32_of_holds (h : countKeywords.holds F.toVocabulary v = true)
    (hplain : plainInteger (2 ^ 32) v = true) : ∃ n, readUInt32 v = some n := by
  obtain ⟨n, rfl, hlt, hmin, -⟩ := Keywords.int_of_holds rfl h hplain
  have hnat : readNat (2 ^ 32) (.num (.int n)) = some n.toNat := if_pos ⟨hmin 0 rfl, hlt⟩
  exact ⟨UInt32.ofNat n.toNat, by rw [readUInt32, hnat]; rfl⟩

theorem readUInt8_of_holds
    (h : Keywords.holds F.toVocabulary { countKeywords with maximum := some 9 } v = true)
    (hplain : plainInteger (2 ^ 32) v = true) : ∃ n, readUInt8 v = some n := by
  obtain ⟨n, rfl, -, hmin, hmax⟩ := Keywords.int_of_holds rfl h hplain
  have hlow : 0 ≤ n := hmin 0 rfl
  have hhigh : n ≤ 9 := hmax 9 rfl
  have hnat : readNat (2 ^ 8) (.num (.int n)) = some n.toNat := if_pos ⟨hlow, by omega⟩
  exact ⟨UInt8.ofNat n.toNat, by rw [readUInt8, hnat]; rfl⟩

theorem readState_of_holds {names : List String}
    (hnames : ∀ s ∈ names, ∃ state, readState (.str s) = some state) (hne : names ≠ [])
    (h : Keywords.holds F.toVocabulary { stringKeywords with enum := names } v = true) :
    ∃ state, readState v = some state := by
  obtain ⟨s, rfl⟩ := Keywords.str_of_holds rfl h
  have henum := (Keywords.holds_iff.mp h).2.2.1
  have hmem : s ∈ names := by simpa [Keywords.enumHolds, hne] using henum
  exact hnames s hmem

theorem readEntries_of_strings (h : ∀ f ∈ fields, f.2.hasType F.toVocabulary .string = true) :
    ∃ headers, readEntries fields = some headers := by
  induction fields with
  | nil => exact ⟨∅, rfl⟩
  | cons f rest ih =>
      obtain ⟨key, v⟩ := f
      obtain ⟨headers, hrest⟩ := ih fun e he => h e (List.mem_cons_of_mem _ he)
      have hv : v.hasType F.toVocabulary .string = true := h (key, v) List.mem_cons_self
      cases v with
      | str s => exact ⟨headers.insert key s, by rw [readEntries, hrest]; rfl⟩
      | _ => cases hv

theorem readHeaders_of_holds
    (h : Keywords.holds F.toVocabulary
      { Keywords.any with types := [.object], values := some .string } v = true) :
    ∃ headers, readHeaders v = some headers := by
  obtain ⟨htype, -, -, -, hvalues⟩ := Keywords.holds_iff.mp h
  cases v with
  | obj fields => exact readEntries_of_strings (List.all_eq_true.mp hvalues)
  | _ => cases htype

/-- A field that the schema requires. -/
theorem required_of_valid (hvalid : messageSchema.valid F.toVocabulary (.obj fields) = true)
    (hkey : key ∈ messageSchema.required)
    (hk : messageSchema.properties.lookup key = some (.keywords k))
    (hread : ∀ v, fields.lookup key = some v → k.holds F.toVocabulary v = true →
      ∃ a, read v = some a) : ∃ a, required fields key read = some a := by
  obtain ⟨hhas, hfields⟩ := ObjectSchema.valid_obj.mp hvalid
  obtain ⟨v, hv⟩ := Option.isSome_iff_exists.mp (hhas key hkey)
  obtain ⟨a, ha⟩ := hread v hv (ObjectSchema.holds_of_valid hfields hk hv)
  exact ⟨a, required_of_lookup hv ha⟩

/-- A field whose value, if there is one, is `null` or can be read. -/
theorem optional_of_readable
    (hread : ∀ v, fields.lookup key = some v → v = .null ∨ ∃ a, read v = some a) :
    ∃ o, optional fields key read = some o ∧ (o = none ↔ Absent fields key) := by
  unfold optional Absent
  cases hv : fields.lookup key with
  | none => exact ⟨none, rfl, by simp⟩
  | some v =>
      rcases hread v hv with rfl | ⟨a, ha⟩
      · exact ⟨none, rfl, by simp⟩
      · by_cases hnull : v = .null
        · subst hnull
          exact ⟨none, rfl, by simp⟩
        · have hsome : nullable read v = some (some a) := by
            cases v with
            | null => exact absurd rfl hnull
            | _ => exact congrArg (Option.map some) ha
          exact ⟨some a, hsome, by simp [hnull]⟩

/-- A field that the schema allows to be `null`. -/
theorem optional_of_valid (hvalid : messageSchema.valid F.toVocabulary (.obj fields) = true)
    (hk : messageSchema.properties.lookup key = some (.keywords k.orNull))
    (hread : ∀ v, fields.lookup key = some v → k.holds F.toVocabulary v = true →
      ∃ a, read v = some a) :
    ∃ o, optional fields key read = some o ∧ (o = none ↔ Absent fields key) := by
  refine optional_of_readable fun v hv => ?_
  have hholds := ObjectSchema.holds_of_valid (ObjectSchema.valid_obj.mp hvalid).2 hk hv
  exact (Keywords.holds_of_orNull hholds).imp_right (hread v hv)

/-- Induction over the values of fields. -/
theorem fieldInduction {P : Json → Prop} (leaf : ∀ v, (∀ fields, v ≠ .obj fields) → P v)
    (obj : ∀ fields, (∀ key v, fields.lookup key = some v → P v) → P (.obj fields)) (v : Json) :
    P v := by
  match v with
  | .obj fields =>
      refine obj fields fun key w hw => ?_
      have hmem := List.sizeOf_lt_of_mem (ObjectSchema.mem_of_lookup hw)
      have hlt : sizeOf w < 1 + sizeOf fields := by
        simp only [Prod.mk.sizeOf_spec] at hmem
        omega
      exact fieldInduction leaf obj w
  | .null => exact leaf _ fun _ h => nomatch h
  | .bool _ => exact leaf _ fun _ h => nomatch h
  | .num _ => exact leaf _ fun _ h => nomatch h
  | .str _ => exact leaf _ fun _ h => nomatch h
  | .arr _ => exact leaf _ fun _ h => nomatch h
termination_by sizeOf v

/-- All fields but the callback. -/
theorem TaskMessage.ofFields_of_valid (callback : Option TaskMessage)
    (hvalid : messageSchema.valid F.toVocabulary (.obj fields) = true)
    (hplain : messageSchema.plain (2 ^ 32) (.obj fields) = true)
    (hcallback : callback = none ↔ Absent fields "chord_callback")
    (hbelow : ∀ v c, fields.lookup "chord_callback" = some v → callback = some c →
      LacksAbsent v c) :
    ∃ m, TaskMessage.ofFields F fields callback = some m ∧ LacksAbsent (.obj fields) m := by
  have hcount : ∀ key k, messageSchema.properties.lookup key = some (.keywords k) →
      k.types.contains .integer = true → ∀ v, fields.lookup key = some v →
        plainInteger (2 ^ 32) v = true := fun key k hkey hk v hv =>
    ObjectSchema.plain_of_lookup (by rwa [ObjectSchema.plain] at hplain) hkey hk hv
  -- the fields that are required
  obtain ⟨id, hid⟩ : ∃ a, required fields "id" F.readUuid = some a :=
    required_of_valid hvalid (by decide) rfl fun v _ h => readUuid_of_holds h
  obtain ⟨name, hname⟩ : ∃ a, required fields "task_name" readString = some a :=
    required_of_valid hvalid (by decide) rfl fun v _ h => readString_of_holds h
  obtain ⟨queue, hqueue⟩ : ∃ a, required fields "queue" readString = some a :=
    required_of_valid hvalid (by decide) rfl fun v _ h => readString_of_holds h
  obtain ⟨payload, hpayload⟩ : ∃ a, required fields "payload" some = some a :=
    required_of_valid hvalid (by decide) rfl fun v _ _ => ⟨v, rfl⟩
  obtain ⟨state, hstate⟩ : ∃ a, required fields "state" readState = some a := by
    refine required_of_valid hvalid (by decide) rfl fun v _ h =>
      readState_of_holds ?_ (List.cons_ne_nil _ _) h
    intro s hs
    simp only [List.mem_cons, List.not_mem_nil, or_false] at hs
    rcases hs with rfl | rfl | rfl | rfl | rfl | rfl | rfl | rfl <;> exact ⟨_, rfl⟩
  obtain ⟨retries, hretries⟩ : ∃ a, required fields "retries" readUInt32 = some a :=
    required_of_valid hvalid (by decide) rfl fun v hv h =>
      readUInt32_of_holds h (hcount _ _ rfl rfl v hv)
  obtain ⟨max, hmax⟩ : ∃ a, required fields "max_retries" readUInt32 = some a :=
    required_of_valid hvalid (by decide) rfl fun v hv h =>
      readUInt32_of_holds h (hcount _ _ rfl rfl v hv)
  obtain ⟨created, hcreated⟩ : ∃ a, required fields "created_at" F.readDateTime = some a :=
    required_of_valid hvalid (by decide) rfl fun v _ h => readDateTime_of_holds h
  obtain ⟨updated, hupdated⟩ : ∃ a, required fields "updated_at" F.readDateTime = some a :=
    required_of_valid hvalid (by decide) rfl fun v _ h => readDateTime_of_holds h
  obtain ⟨headers, hheaders⟩ : ∃ a, required fields "headers" readHeaders = some a :=
    required_of_valid hvalid (by decide) rfl fun v _ h => readHeaders_of_holds h
  -- and those that may be null
  obtain ⟨eta, heta, heta'⟩ : ∃ o, optional fields "eta" F.readDateTime = some o ∧
      (o = none ↔ Absent fields "eta") :=
    optional_of_valid hvalid rfl fun v _ h => readDateTime_of_holds h
  obtain ⟨parent, hparent, hparent'⟩ : ∃ o, optional fields "parent_id" F.readUuid = some o ∧
      (o = none ↔ Absent fields "parent_id") :=
    optional_of_valid hvalid rfl fun v _ h => readUuid_of_holds h
  obtain ⟨correlation, hcorrelation, hcorrelation'⟩ :
      ∃ o, optional fields "correlation_id" readString = some o ∧
        (o = none ↔ Absent fields "correlation_id") :=
    optional_of_valid hvalid rfl fun v _ h => readString_of_holds h
  obtain ⟨group, hgroup, hgroup'⟩ : ∃ o, optional fields "group_id" readString = some o ∧
      (o = none ↔ Absent fields "group_id") :=
    optional_of_valid hvalid rfl fun v _ h => readString_of_holds h
  obtain ⟨total, htotal, htotal'⟩ : ∃ o, optional fields "group_total" readUInt32 = some o ∧
      (o = none ↔ Absent fields "group_total") :=
    optional_of_valid hvalid rfl fun v hv h =>
      readUInt32_of_holds h (hcount _ _ rfl rfl v hv)
  obtain ⟨priority, hpriority, hpriority'⟩ : ∃ o, optional fields "priority" readUInt8 = some o ∧
      (o = none ↔ Absent fields "priority") :=
    optional_of_valid hvalid rfl fun v hv h =>
      readUInt8_of_holds h (hcount _ _ rfl rfl v hv)
  obtain ⟨dedup, hdedup, hdedup'⟩ : ∃ o, optional fields "dedup_key" readString = some o ∧
      (o = none ↔ Absent fields "dedup_key") :=
    optional_of_valid hvalid rfl fun v _ h => readString_of_holds h
  refine ⟨⟨id, name, queue, payload, state, retries, max, created, updated, eta, headers, parent,
    correlation, group, total, callback, priority, dedup⟩, ?_, .obj heta' hparent' hcorrelation'
    hgroup' htotal' hcallback hpriority' hdedup' hbelow⟩
  rw [TaskMessage.ofFields, hid, hname, hqueue, hpayload, hstate, hretries, hmax, hcreated,
    hupdated, heta, hheaders, hparent, hcorrelation, hgroup, htotal, hpriority, hdedup]
  rfl

/-- What is valid under the schema, with its integers written as integers below `2 ^ 32`,
can be read. -/
theorem TaskMessage.ofJson_of_valid (F : TextFormats) (v : Json)
    (hvalid : messageSchema.valid F.toVocabulary v = true)
    (hplain : messageSchema.plain (2 ^ 32) v = true) :
    ∃ m, TaskMessage.ofJson F v = some m ∧ LacksAbsent v m := by
  induction v using fieldInduction with
  | leaf v hleaf =>
      cases v with
      | obj fields => exact absurd rfl (hleaf fields)
      | _ => cases hvalid
  | obj fields ih =>
      have hfields := (ObjectSchema.valid_obj.mp hvalid).2
      have hbounded : messageSchema.fieldsPlain (2 ^ 32) fields = true := by
        rwa [ObjectSchema.plain] at hplain
      have hread : ∀ w, fields.lookup "chord_callback" = some w →
          ∃ c, TaskMessage.ofJson F w = some c ∧ LacksAbsent w c := fun w hw =>
        ih _ w hw (ObjectSchema.root_of_valid hfields rfl hw)
          (ObjectSchema.root_of_plain hbounded rfl hw)
      obtain ⟨callback, hcallback, habsent⟩ :
          ∃ o, optional fields "chord_callback" (TaskMessage.ofJson F) = some o ∧
            (o = none ↔ Absent fields "chord_callback") :=
        optional_of_readable fun w hw => .inr ((hread w hw).imp fun _ h => h.1)
      have hbelow : ∀ w c, fields.lookup "chord_callback" = some w → callback = some c →
          LacksAbsent w c := by
        intro w c hw hc
        obtain ⟨c', hc', hlacks⟩ := hread w hw
        rw [optional, hw, hc] at hcallback
        have hnonnull : nullable (TaskMessage.ofJson F) w = some (some c') := by
          cases w with
          | obj _ => exact congrArg (Option.map some) hc'
          | _ => cases hc'
        have hsame : c' = c := by
          have heq := hnonnull.symm.trans hcallback
          simpa using heq
        rw [← hsame]
        exact hlacks
      obtain ⟨m, hm, hlacks⟩ :=
        TaskMessage.ofFields_of_valid callback hvalid hplain habsent hbelow
      refine ⟨m, ?_, hlacks⟩
      rw [TaskMessage.ofJson, callbackOf_eq, hcallback]
      exact hm

end Valid

/-! ## The wire format -/

/-- Messages with priorities up to nine are written as valid values and read back; valid
values are read, and the fields they lack are lacking; signatures are read back. -/
theorem wire_format (F : TextFormats) :
    (∀ m : TaskMessage, m.PriorityInRange →
      messageSchema.valid F.toVocabulary (m.toJson F.rfc3339) = true ∧
        TaskMessage.ofJson F (m.toJson F.rfc3339) = some m) ∧
    (∀ v, messageSchema.valid F.toVocabulary v = true → messageSchema.plain (2 ^ 32) v = true →
      ∃ m, TaskMessage.ofJson F v = some m ∧ LacksAbsent v m) ∧
    ∀ sig : Signature, Signature.ofJson F (sig.toJson F.rfc3339) = some sig :=
  ⟨fun m h => ⟨m.valid_toJson F h, m.ofJson_toJson F⟩, TaskMessage.ofJson_of_valid F,
    Signature.ofJson_toJson F⟩

/-! ## Formats for concrete runs -/

/-- The value of a hexadecimal digit. -/
def hexValue (c : Char) : Nat := if c.isDigit then c.toNat - 48 else c.toNat - 87

/-- The number that hexadecimal digits write, hyphens apart. -/
def hexNumber (cs : List Char) : Nat :=
  (cs.filter (· ≠ '-')).foldl (fun n c => 16 * n + hexValue c) 0

/-- `Uuid::parse_str`, of the text that is printed. -/
def TaskId.parse (s : String) : Option TaskId :=
  let id : TaskId := ⟨BitVec.ofNat 128 (hexNumber s.toList)⟩
  if id.toText = s then some id else none

theorem hexValue_digitChar {n : Nat} (h : n < 16) :
    hexValue (Nat.digitChar n) = n ∧ Nat.digitChar n ≠ '-' := by
  have hall : ∀ n : Fin 16, hexValue (Nat.digitChar n.val) = n.val ∧ Nat.digitChar n.val ≠ '-' := by
    decide
  exact hall ⟨n, h⟩

/-- Without its hyphens, the text of an identifier is its digits. -/
theorem TaskId.digits_chars (id : TaskId) :
    id.chars.filter (· ≠ '-') = (List.range 32).map fun i => Nat.digitChar (id.nibble i) := by
  have hdigit : ∀ i, (Nat.digitChar (id.nibble i) ≠ '-') := fun i =>
    (hexValue_digitChar (id.nibble_lt i)).2
  have hone : ∀ i, (if i = 8 ∨ i = 12 ∨ i = 16 ∨ i = 20 then ['-', Nat.digitChar (id.nibble i)]
      else [Nat.digitChar (id.nibble i)]).filter (· ≠ '-') = [Nat.digitChar (id.nibble i)] := by
    intro i
    split <;> simp [hdigit i]
  rw [TaskId.chars, List.filter_flatMap]
  simp only [hone]
  exact List.flatMap_pure_eq_map _ _

/-- The leading digits of a number. -/
theorem foldl_nibbles (n k : Nat) (hk : k ≤ 32) :
    (List.range k).foldl (fun acc i => 16 * acc + n / 16 ^ (31 - i) % 16) (n / 16 ^ 32) =
      n / 16 ^ (32 - k) := by
  induction k with
  | zero => rfl
  | succ k ih =>
      rw [List.range_succ, List.foldl_append, ih (by omega), List.foldl_cons, List.foldl_nil]
      have hpow : 32 - k = (31 - k) + 1 := by omega
      have hpow' : 32 - (k + 1) = 31 - k := by omega
      rw [hpow, hpow', Nat.pow_succ, ← Nat.div_div_eq_div_mul]
      exact Nat.div_add_mod _ 16

theorem TaskId.parse_toText (id : TaskId) : TaskId.parse id.toText = some id := by
  have hlt : id.uuid.toNat < 16 ^ 32 := id.uuid.isLt
  have hstep : (fun acc i => 16 * acc + hexValue (Nat.digitChar (id.nibble i))) =
      fun acc i => 16 * acc + id.uuid.toNat / 16 ^ (31 - i) % 16 := by
    funext acc i
    rw [(hexValue_digitChar (id.nibble_lt i)).1]
    rfl
  have hnumber : hexNumber id.toText.toList = id.uuid.toNat := by
    have hfold := foldl_nibbles id.uuid.toNat 32 (Nat.le_refl 32)
    rw [Nat.div_eq_of_lt hlt, Nat.sub_self, Nat.pow_zero, Nat.div_one] at hfold
    rw [hexNumber, TaskId.toList_toText, id.digits_chars, List.foldl_map, hstep, hfold]
  have hid : (⟨BitVec.ofNat 128 (hexNumber id.toText.toList)⟩ : TaskId) = id := by
    rw [hnumber, BitVec.ofNat_toNat, BitVec.setWidth_eq]
  unfold TaskId.parse
  simp only [hid, if_true]

/-- The epoch is printed as it is; another time, in these runs, as its nanoseconds in
unary. -/
def epochText (t : DateTime) : String :=
  if t = ⟨0⟩ then "1970-01-01T00:00:00Z"
  else String.ofList (List.replicate t.nanos.natAbs (if 0 ≤ t.nanos then '+' else '-'))

def parseEpochText (s : String) : Option DateTime :=
  if s = "1970-01-01T00:00:00Z" then some ⟨0⟩
  else if s.toList.head? = some '-' then some ⟨-s.toList.length⟩ else some ⟨s.toList.length⟩

theorem parseEpochText_epochText (t : DateTime) : parseEpochText (epochText t) = some t := by
  obtain ⟨n⟩ := t
  unfold epochText
  split
  · rename_i h
    rw [h]
    rfl
  · rename_i h
    have hn : n ≠ 0 := fun h0 => h (by rw [h0])
    have hhead : ∀ c : Char, (List.replicate n.natAbs c).head? = some c := fun c => by
      rw [List.head?_replicate, if_neg (by omega)]
    have hne : ∀ c : Char, c ≠ '1' →
        String.ofList (List.replicate n.natAbs c) ≠ "1970-01-01T00:00:00Z" := by
      intro c hc heq
      have hfirst := congrArg (fun s => s.toList.head?) heq
      simp only [String.toList_ofList, hhead] at hfirst
      exact hc (Option.some.inj hfirst)
    unfold parseEpochText
    by_cases hsign : 0 ≤ n
    · rw [if_pos hsign, if_neg (hne '+' (by decide)), String.toList_ofList, hhead,
        if_neg (by decide), List.length_replicate]
      refine congrArg some (congrArg DateTime.mk ?_)
      show (n.natAbs : Int) = n
      omega
    · rw [if_neg hsign, if_neg (hne '-' (by decide)), String.toList_ofList, hhead, if_pos rfl,
        List.length_replicate]
      refine congrArg some (congrArg DateTime.mk ?_)
      show -(n.natAbs : Int) = n
      omega

/-- The formats in which the epoch is printed as it is. -/
def epochFormats : TextFormats where
  uuid s := (TaskId.parse s).isSome
  dateTime s := (parseEpochText s).isSome
  whole _ := none
  rfc3339 := epochText
  parseDateTime := parseEpochText
  parseUuid := TaskId.parse
  parse_rfc3339 := parseEpochText_epochText
  parse_toText := TaskId.parse_toText
  dateTime_rfc3339 t := by rw [parseEpochText_epochText]; rfl
  uuid_toText id := by rw [TaskId.parse_toText]; rfl
  dateTime_reads _ h := Option.isSome_iff_exists.mp h
  uuid_reads _ h := Option.isSome_iff_exists.mp h

/-- A member of a chord with an urgent callback. -/
def urgentChord : TaskMessage :=
  { plainMessage ⟨1⟩ with chordCallback := some { plainMessage ⟨2⟩ with priority := some 9 } }

/-- A message of the first version, without the fields of the later ones. -/
def oldMessage : Json :=
  .obj [("id", .str "01234567-89ab-cdef-0123-456789abcdef"), ("task_name", .str "send_email"),
    ("queue", .str "default"), ("payload", .obj [("to", .str "a@b.com")]),
    ("state", .str "pending"), ("retries", natJson 0), ("max_retries", natJson 3),
    ("created_at", .str "1970-01-01T00:00:00Z"), ("updated_at", .str "1970-01-01T00:00:00Z"),
    ("eta", .null), ("headers", .obj [])]

/-- The chord is written and read back, and the old message is read. -/
theorem wire_format_epoch :
    TaskMessage.ofJson epochFormats (urgentChord.toJson epochText) = some urgentChord ∧
      ∃ m, TaskMessage.ofJson epochFormats oldMessage = some m ∧ LacksAbsent oldMessage m := by
  obtain ⟨hwritten, hread, -⟩ := wire_format epochFormats
  refine ⟨(hwritten urgentChord ?_).2, hread oldMessage (by decide +kernel) (by decide +kernel)⟩
  have hcallback : ({ plainMessage ⟨2⟩ with priority := some 9 } : TaskMessage).PriorityInRange :=
    ⟨fun n hn => by cases hn; decide, trivial⟩
  exact ⟨fun n hn => (nomatch hn), hcallback⟩

end Kojin.Core
