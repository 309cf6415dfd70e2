/-
  Core/Wire.lean --- reading messages and signatures back (`kojin-core`: `message.rs`,
  `signature.rs`, `state.rs`).

  The readers follow the derived `Deserialize`: a required field must be there, an
  optional one may be absent or `null`, and fields with other names are passed over.  A
  value has each field once.  The derived reader of a struct takes an array of its fields
  in order too; that form is not modelled.

  How UUIDs and timestamps are read belongs to their libraries; `TextFormats` says what is
  used of it.
-/
import Kojin.Core.Message
import Kojin.Foundation.JsonSchema

set_option autoImplicit false

namespace Kojin.Core

open Kojin.Foundation

/-- The texts of UUIDs and timestamps.  What is printed has its format and is read back;
what has the format can be read. -/
structure TextFormats extends Vocabulary where
  rfc3339 : DateTime → String
  parseDateTime : String → Option DateTime
  parseUuid : String → Option TaskId
  parse_rfc3339 : ∀ t, parseDateTime (rfc3339 t) = some t
  parse_toText : ∀ id : TaskId, parseUuid id.toText = some id
  dateTime_rfc3339 : ∀ t, dateTime (rfc3339 t) = true
  uuid_toText : ∀ id : TaskId, uuid id.toText = true
  dateTime_reads : ∀ s, dateTime s = true → ∃ t, parseDateTime s = some t
  uuid_reads : ∀ s, uuid s = true → ∃ id, parseUuid s = some id

/-! ## The readers -/

section Readers

def readString : Json → Option String
  | .str s => some s
  | _ => none

/-- An unsigned integer below the bound. -/
def readNat (bound : Nat) : Json → Option Nat
  | .num (.int n) => if 0 ≤ n ∧ n < bound then some n.toNat else none
  | _ => none

def readUInt32 (v : Json) : Option UInt32 := (readNat (2 ^ 32) v).map UInt32.ofNat

def readUInt8 (v : Json) : Option UInt8 := (readNat (2 ^ 8) v).map UInt8.ofNat

/-- `Deserialize for TaskState` (`rename_all = "snake_case"`). -/
def readState : Json → Option TaskState
  | .str "pending" => some .pending
  | .str "received" => some .received
  | .str "started" => some .started
  | .str "success" => some .success
  | .str "failure" => some .failure
  | .str "retry" => some .retry
  | .str "revoked" => some .revoked
  | .str "dead_lettered" => some .deadLettered
  | _ => none

/-- The entries of a `HashMap<String, String>`. -/
def readEntries : List (String × Json) → Option Headers
  | [] => some ∅
  | (key, .str value) :: rest => (readEntries rest).map (·.insert key value)
  | _ => none

def readHeaders : Json → Option Headers
  | .obj fields => readEntries fields
  | _ => none

/-- A field that must be there. -/
def required {α : Type} (fields : List (String × Json)) (key : String)
    (read : Json → Option α) : Option α := (fields.lookup key).bind read

/-- `Deserialize for Option<T>`. -/
def nullable {α : Type} (read : Json → Option α) : Json → Option (Option α)
  | .null => some none
  | v => (read v).map some

/-- A field that may be absent. -/
def optional {α : Type} (fields : List (String × Json)) (key : String)
    (read : Json → Option α) : Option (Option α) :=
  match fields.lookup key with
  | none => some none
  | some v => nullable read v

variable (F : TextFormats)

def TextFormats.readUuid (v : Json) : Option TaskId := (readString v).bind F.parseUuid

def TextFormats.readDateTime (v : Json) : Option DateTime := (readString v).bind F.parseDateTime

/-- `Deserialize for TaskMessage`, but for the callback. -/
def TaskMessage.ofFields (fields : List (String × Json)) (chordCallback : Option TaskMessage) :
    Option TaskMessage := do
  let id ← required fields "id" F.readUuid
  let taskName ← required fields "task_name" readString
  let queue ← required fields "queue" readString
  let payload ← required fields "payload" some
  let state ← required fields "state" readState
  let retries ← required fields "retries" readUInt32
  let maxRetries ← required fields "max_retries" readUInt32
  let createdAt ← required fields "created_at" F.readDateTime
  let updatedAt ← required fields "updated_at" F.readDateTime
  let eta ← optional fields "eta" F.readDateTime
  let headers ← required fields "headers" readHeaders
  let parentId ← optional fields "parent_id" F.readUuid
  let correlationId ← optional fields "correlation_id" readString
  let groupId ← optional fields "group_id" readString
  let groupTotal ← optional fields "group_total" readUInt32
  let priority ← optional fields "priority" readUInt8
  let dedupKey ← optional fields "dedup_key" readString
  some ⟨id, taskName, queue, payload, state, retries, maxRetries, createdAt, updatedAt, eta,
    headers, parentId, correlationId, groupId, groupTotal, chordCallback, priority, dedupKey⟩

mutual

/-- `Deserialize for TaskMessage`. -/
def TaskMessage.ofJson : Json → Option TaskMessage
  | .obj fields => (callbackOf fields).bind (TaskMessage.ofFields F fields)
  | _ => none

/-- The field `chord_callback`. -/
def callbackOf : List (String × Json) → Option (Option TaskMessage)
  | [] => some none
  | (key, v) :: rest =>
      if key = "chord_callback" then
        match v with
        | .null => some none
        | v => (TaskMessage.ofJson v).map some
      else callbackOf rest

end

/-- `Deserialize for Signature`. -/
def Signature.ofJson : Json → Option Signature
  | .obj fields => do
      let taskName ← required fields "task_name" readString
      let queue ← required fields "queue" readString
      let payload ← required fields "payload" some
      let maxRetries ← required fields "max_retries" readUInt32
      let eta ← optional fields "eta" F.readDateTime
      let headers ← required fields "headers" readHeaders
      let priority ← optional fields "priority" readUInt8
      let dedupKey ← optional fields "dedup_key" readString
      some ⟨taskName, queue, payload, maxRetries, eta, headers, priority, dedupKey⟩
  | _ => none

end Readers

/-! ## Reading back what was written -/

section RoundTrip

variable {α : Type} {F : TextFormats} {fields : List (String × Json)} {key : String} {v : Json}

theorem required_of_lookup {read : Json → Option α} {a : α} (h : fields.lookup key = some v)
    (hread : read v = some a) : required fields key read = some a := by
  rw [required, h]
  exact hread

/-- A field that is left out when it is absent. -/
theorem optional_of_lookup {read : Json → Option α} {f : α → Json} {o : Option α}
    (h : fields.lookup key = o.map f) (hread : ∀ a, nullable read (f a) = some (some a)) :
    optional fields key read = some o := by
  unfold optional
  rw [h]
  cases o with
  | none => rfl
  | some a => exact hread a

/-- A field that is `null` when it is absent. -/
theorem optional_of_lookup_null {read : Json → Option α} {f : α → Json} {o : Option α}
    (h : fields.lookup key = some ((o.map f).getD .null))
    (hread : ∀ a, nullable read (f a) = some (some a)) : optional fields key read = some o := by
  unfold optional
  rw [h]
  cases o with
  | none => rfl
  | some a => exact hread a

@[simp] theorem readUuid_toText (id : TaskId) : F.readUuid (.str id.toText) = some id :=
  F.parse_toText id

@[simp] theorem readDateTime_rfc3339 (t : DateTime) :
    F.readDateTime (.str (F.rfc3339 t)) = some t := F.parse_rfc3339 t

theorem readNat_natJson {bound n : Nat} (h : n < bound) : readNat bound (natJson n) = some n := by
  have hint : 0 ≤ (n : Int) ∧ (n : Int) < bound := ⟨Int.natCast_nonneg n, by exact_mod_cast h⟩
  show (if 0 ≤ (n : Int) ∧ (n : Int) < bound then some (n : Int).toNat else none) = some n
  rw [if_pos hint, Int.toNat_natCast]

@[simp] theorem readUInt32_natJson (n : UInt32) : readUInt32 (natJson n.toNat) = some n := by
  rw [readUInt32, readNat_natJson n.toNat_lt, Option.map_some, UInt32.ofNat_toNat]

@[simp] theorem readUInt8_natJson (n : UInt8) : readUInt8 (natJson n.toNat) = some n := by
  rw [readUInt8, readNat_natJson n.toNat_lt, Option.map_some, UInt8.ofNat_toNat]

@[simp] theorem readState_toText (state : TaskState) : readState (.str state.toText) = some state := by
  cases state <;> rfl

theorem nullable_natJson {a : α} {read : Json → Option α} {n : Nat}
    (h : read (natJson n) = some a) : nullable read (natJson n) = some (some a) := by
  show (read (natJson n)).map some = _
  rw [h, Option.map_some]

/-- The entries of a table without repeated keys. -/
theorem readEntries_entries (l : List ((_ : String) × String)) (h : l.NodupKeys) :
    readEntries (l.map fun e => (e.1, .str e.2)) = some ⟨l, h⟩ := by
  induction l with
  | nil => rfl
  | cons e rest ih =>
      obtain ⟨key, value⟩ := e
      obtain ⟨hkey, hrest⟩ := List.nodupKeys_cons.mp h
      show (readEntries _).map _ = _
      rw [ih hrest, Option.map_some]
      refine congrArg some (AList.ext ?_)
      show (⟨key, value⟩ : (_ : String) × String) :: rest.kerase key = _
      rw [List.kerase_of_notMem_keys hkey]

@[simp] theorem readHeaders_headersJson (h : Headers) : readHeaders (headersJson h) = some h :=
  readEntries_entries h.entries h.nodupKeys

theorem lookup_optionalField (key key' : String) (f : α → Json) (o : Option α) :
    (optionalField key f o).lookup key' = if key' = key then o.map f else none := by
  cases o with
  | none => exact (ite_self none).symm
  | some a =>
      by_cases h : key' = key
      · simp [optionalField, h]
      · simp [optionalField, List.lookup_cons, beq_eq_false_iff_ne.mpr h, h]

/-- The fields of an encoded message. -/
def TaskMessage.jsonFields (rfc3339 : DateTime → String) (m : TaskMessage) :
    List (String × Json) :=
  [("id", .str m.id.toText), ("task_name", .str m.taskName), ("queue", .str m.queue),
   ("payload", m.payload), ("state", .str m.state.toText),
   ("retries", natJson m.retries.toNat), ("max_retries", natJson m.maxRetries.toNat),
   ("created_at", .str (rfc3339 m.createdAt)), ("updated_at", .str (rfc3339 m.updatedAt)),
   ("eta", (m.eta.map fun t => Json.str (rfc3339 t)).getD .null),
   ("headers", headersJson m.headers)] ++
  optionalField "parent_id" (fun i : TaskId => .str i.toText) m.parentId ++
  optionalField "correlation_id" Json.str m.correlationId ++
  optionalField "group_id" Json.str m.groupId ++
  optionalField "group_total" (fun n : UInt32 => natJson n.toNat) m.groupTotal ++
  optionalField "chord_callback" (TaskMessage.toJson rfc3339) m.chordCallback ++
  optionalField "priority" (fun n : UInt8 => natJson n.toNat) m.priority ++
  optionalField "dedup_key" Json.str m.dedupKey

theorem TaskMessage.toJson_eq (rfc3339 : DateTime → String) (m : TaskMessage) :
    m.toJson rfc3339 = .obj (m.jsonFields rfc3339) := by
  cases m with
  | mk id taskName queue payload state retries maxRetries createdAt updatedAt eta headers parentId
      correlationId groupId groupTotal chordCallback priority dedupKey =>
    rw [TaskMessage.toJson.eq_def]
    cases chordCallback <;> rfl

section Lookup

variable {rfc3339 : DateTime → String} {m : TaskMessage}

/-- The fields that may be left out. -/
theorem lookup_parentId : (m.jsonFields rfc3339).lookup "parent_id" =
    m.parentId.map fun i => .str i.toText := by
  simp [TaskMessage.jsonFields, List.lookup_append, List.lookup_cons, lookup_optionalField]

theorem lookup_correlationId : (m.jsonFields rfc3339).lookup "correlation_id" =
    m.correlationId.map Json.str := by
  simp [TaskMessage.jsonFields, List.lookup_append, List.lookup_cons, lookup_optionalField]

theorem lookup_groupId : (m.jsonFields rfc3339).lookup "group_id" = m.groupId.map Json.str := by
  simp [TaskMessage.jsonFields, List.lookup_append, List.lookup_cons, lookup_optionalField]

theorem lookup_groupTotal : (m.jsonFields rfc3339).lookup "group_total" =
    m.groupTotal.map fun n => natJson n.toNat := by
  simp [TaskMessage.jsonFields, List.lookup_append, List.lookup_cons, lookup_optionalField]

theorem lookup_chordCallback : (m.jsonFields rfc3339).lookup "chord_callback" =
    m.chordCallback.map (TaskMessage.toJson rfc3339) := by
  simp [TaskMessage.jsonFields, List.lookup_append, List.lookup_cons, lookup_optionalField]

theorem lookup_priority : (m.jsonFields rfc3339).lookup "priority" =
    m.priority.map fun n => natJson n.toNat := by
  simp [TaskMessage.jsonFields, List.lookup_append, List.lookup_cons, lookup_optionalField]

theorem lookup_dedupKey : (m.jsonFields rfc3339).lookup "dedup_key" =
    m.dedupKey.map Json.str := by
  simp [TaskMessage.jsonFields, List.lookup_append, List.lookup_cons, lookup_optionalField]

end Lookup

/-- All but the callback. -/
theorem TaskMessage.ofFields_jsonFields (m : TaskMessage) :
    TaskMessage.ofFields F (m.jsonFields F.rfc3339) m.chordCallback = some m := by
  -- the fields that are always there come first
  have hid : required (m.jsonFields F.rfc3339) "id" F.readUuid = some m.id :=
    required_of_lookup rfl (readUuid_toText m.id)
  have hname : required (m.jsonFields F.rfc3339) "task_name" readString = some m.taskName := rfl
  have hqueue : required (m.jsonFields F.rfc3339) "queue" readString = some m.queue := rfl
  have hpayload : required (m.jsonFields F.rfc3339) "payload" some = some m.payload := rfl
  have hstate : required (m.jsonFields F.rfc3339) "state" readState = some m.state :=
    required_of_lookup rfl (readState_toText m.state)
  have hretries : required (m.jsonFields F.rfc3339) "retries" readUInt32 = some m.retries :=
    required_of_lookup rfl (readUInt32_natJson m.retries)
  have hmax : required (m.jsonFields F.rfc3339) "max_retries" readUInt32 = some m.maxRetries :=
    required_of_lookup rfl (readUInt32_natJson m.maxRetries)
  have hcreated : required (m.jsonFields F.rfc3339) "created_at" F.readDateTime =
      some m.createdAt := required_of_lookup rfl (readDateTime_rfc3339 m.createdAt)
  have hupdated : required (m.jsonFields F.rfc3339) "updated_at" F.readDateTime =
      some m.updatedAt := required_of_lookup rfl (readDateTime_rfc3339 m.updatedAt)
  have heta : optional (m.jsonFields F.rfc3339) "eta" F.readDateTime = some m.eta :=
    optional_of_lookup_null rfl fun t => congrArg (Option.map some) (readDateTime_rfc3339 t)
  have hheaders : required (m.jsonFields F.rfc3339) "headers" readHeaders = some m.headers :=
    required_of_lookup rfl (readHeaders_headersJson m.headers)
  -- and then those that are left out when absent
  have hparent : optional (m.jsonFields F.rfc3339) "parent_id" F.readUuid = some m.parentId :=
    optional_of_lookup lookup_parentId fun i => congrArg (Option.map some) (readUuid_toText i)
  have hcorrelation : optional (m.jsonFields F.rfc3339) "correlation_id" readString =
      some m.correlationId := optional_of_lookup lookup_correlationId fun _ => rfl
  have hgroup : optional (m.jsonFields F.rfc3339) "group_id" readString = some m.groupId :=
    optional_of_lookup lookup_groupId fun _ => rfl
  have htotal : optional (m.jsonFields F.rfc3339) "group_total" readUInt32 = some m.groupTotal :=
    optional_of_lookup lookup_groupTotal fun n => nullable_natJson (readUInt32_natJson n)
  have hpriority : optional (m.jsonFields F.rfc3339) "priority" readUInt8 = some m.priority :=
    optional_of_lookup lookup_priority fun n => nullable_natJson (readUInt8_natJson n)
  have hdedup : optional (m.jsonFields F.rfc3339) "dedup_key" readString = some m.dedupKey :=
    optional_of_lookup lookup_dedupKey fun _ => rfl
  rw [TaskMessage.ofFields, hid, hname, hqueue, hpayload, hstate, hretries, hmax, hcreated,
    hupdated, heta, hheaders, hparent, hcorrelation, hgroup, htotal, hpriority, hdedup]
  cases m
  rfl

/-- The field of the callback is an optional one. -/
theorem callbackOf_eq (fields : List (String × Json)) :
    callbackOf F fields = optional fields "chord_callback" (TaskMessage.ofJson F) := by
  induction fields with
  | nil => rfl
  | cons f rest ih =>
      obtain ⟨key, v⟩ := f
      by_cases hkey : key = "chord_callback"
      · subst hkey
        rw [optional, List.lookup_cons_self]
        cases v <;> simp [callbackOf, nullable]
      · have hskip : callbackOf F ((key, v) :: rest) = callbackOf F rest := by
          cases v <;> simp [callbackOf, hkey]
        rw [hskip, ih, optional, optional, List.lookup_cons,
          beq_eq_false_iff_ne.mpr (Ne.symm hkey)]

end RoundTrip

/-- Induction over the callbacks. -/
theorem TaskMessage.callbackInduction {P : TaskMessage → Prop}
    (step : ∀ m, (∀ callback, m.chordCallback = some callback → P callback) → P m)
    (m : TaskMessage) : P m := by
  refine step m fun callback h => ?_
  have hlt : sizeOf callback < sizeOf m := by
    cases m
    subst h
    simp +arith
  exact TaskMessage.callbackInduction step callback
termination_by sizeOf m

/-- What is written is read back. -/
theorem TaskMessage.ofJson_toJson (F : TextFormats) (m : TaskMessage) :
    TaskMessage.ofJson F (m.toJson F.rfc3339) = some m := by
  induction m using TaskMessage.callbackInduction with
  | step m ih =>
      have hcallback : callbackOf F (m.jsonFields F.rfc3339) = some m.chordCallback := by
        rw [callbackOf_eq, optional, lookup_chordCallback]
        cases h : m.chordCallback with
        | none => rfl
        | some callback =>
            show nullable _ (callback.toJson F.rfc3339) = _
            rw [TaskMessage.toJson_eq]
            show ((TaskMessage.ofJson F _).map some) = _
            rw [← TaskMessage.toJson_eq, ih callback h]
            rfl
      rw [TaskMessage.toJson_eq, TaskMessage.ofJson, hcallback]
      exact m.ofFields_jsonFields

/-- The fields of an encoded signature. -/
def Signature.jsonFields (rfc3339 : DateTime → String) (sig : Signature) : List (String × Json) :=
  [("task_name", .str sig.taskName), ("queue", .str sig.queue), ("payload", sig.payload),
   ("max_retries", natJson sig.maxRetries.toNat),
   ("eta", (sig.eta.map fun t => Json.str (rfc3339 t)).getD .null),
   ("headers", headersJson sig.headers)] ++
  optionalField "priority" (fun n : UInt8 => natJson n.toNat) sig.priority ++
  optionalField "dedup_key" Json.str sig.dedupKey

/-- A signature is read back from its encoding. -/
theorem Signature.ofJson_toJson (F : TextFormats) (sig : Signature) :
    Signature.ofJson F (sig.toJson F.rfc3339) = some sig := by
  have hname : required (sig.jsonFields F.rfc3339) "task_name" readString = some sig.taskName := rfl
  have hqueue : required (sig.jsonFields F.rfc3339) "queue" readString = some sig.queue := rfl
  have hpayload : required (sig.jsonFields F.rfc3339) "payload" some = some sig.payload := rfl
  have hmax : required (sig.jsonFields F.rfc3339) "max_retries" readUInt32 = some sig.maxRetries :=
    required_of_lookup rfl (readUInt32_natJson sig.maxRetries)
  have heta : optional (sig.jsonFields F.rfc3339) "eta" F.readDateTime = some sig.eta :=
    optional_of_lookup_null rfl fun t => congrArg (Option.map some) (readDateTime_rfc3339 t)
  have hheaders : required (sig.jsonFields F.rfc3339) "headers" readHeaders = some sig.headers :=
    required_of_lookup rfl (readHeaders_headersJson sig.headers)
  have hlookup : (sig.jsonFields F.rfc3339).lookup "priority" =
      sig.priority.map fun n => natJson n.toNat := by
    simp [jsonFields, List.lookup_append, List.lookup_cons, lookup_optionalField]
  have hpriority : optional (sig.jsonFields F.rfc3339) "priority" readUInt8 = some sig.priority :=
    optional_of_lookup hlookup fun n => nullable_natJson (readUInt8_natJson n)
  have hlookup' : (sig.jsonFields F.rfc3339).lookup "dedup_key" = sig.dedupKey.map Json.str := by
    simp [jsonFields, List.lookup_append, List.lookup_cons, lookup_optionalField]
  have hdedup : optional (sig.jsonFields F.rfc3339) "dedup_key" readString = some sig.dedupKey :=
    optional_of_lookup hlookup' fun _ => rfl
  show Signature.ofJson F (.obj (sig.jsonFields F.rfc3339)) = _
  rw [Signature.ofJson, hname, hqueue, hpayload, hmax, heta, hheaders, hpriority, hdedup]
  rfl

end Kojin.Core
