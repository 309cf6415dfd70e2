/-
  Core/Message.lean --- task messages, signatures and their wire form
  (`kojin-core`: `message.rs`, `signature.rs`).

  A message may carry another message, its chord callback, and that one may carry
  a further one, so `TaskMessage` is a recursive type and its encoding a
  recursive function.  The optional fields of the second and later phases are
  left out of the encoding when absent (`skip_serializing_if`); `eta` is written
  as `null`.

  How a timestamp is printed belongs to the date library; `rfc3339` stands for
  it wherever an encoding needs one.
-/
import Kojin.Core.Basic
import Kojin.Foundation.Table

set_option autoImplicit false

namespace Kojin.Core

open Kojin.Foundation

/-- `HashMap<String, String>`: arbitrary headers. -/
abbrev Headers : Type := Table String String

/-! ## Task messages -/

/-- `TaskMessage`. -/
structure TaskMessage where
  id : TaskId
  taskName : String
  queue : String
  payload : Json
  state : TaskState
  retries : UInt32
  maxRetries : UInt32
  createdAt : DateTime
  updatedAt : DateTime
  eta : Option DateTime
  headers : Headers
  parentId : Option TaskId
  correlationId : Option String
  groupId : Option String
  groupTotal : Option UInt32
  chordCallback : Option TaskMessage
  priority : Option UInt8
  dedupKey : Option String

namespace TaskMessage

/-- `TaskMessage::new`, with the clock reading and the fresh identifier it takes. -/
def new (now : DateTime) (id : TaskId) (taskName queue : String) (payload : Json) :
    TaskMessage where
  id := id
  taskName := taskName
  queue := queue
  payload := payload
  state := .pending
  retries := 0
  maxRetries := 3
  createdAt := now
  updatedAt := now
  eta := none
  headers := ∅
  parentId := none
  correlationId := none
  groupId := none
  groupTotal := none
  chordCallback := none
  priority := none
  dedupKey := none

/-- `TaskMessage::with_max_retries`. -/
def withMaxRetries (m : TaskMessage) (maxRetries : UInt32) : TaskMessage :=
  { m with maxRetries := maxRetries }

/-- `headers.insert(key, value)`. -/
def insertHeader (m : TaskMessage) (key value : String) : TaskMessage :=
  { m with headers := m.headers.insert key value }

/-- Everything but the three fields a worker updates on its way through a retry. -/
def SameTask (m m₀ : TaskMessage) : Prop :=
  { m with state := m₀.state, retries := m₀.retries, updatedAt := m₀.updatedAt } = m₀

theorem SameTask.refl (m : TaskMessage) : m.SameTask m := by
  cases m
  rfl

theorem SameTask.maxRetries_eq {m m₀ : TaskMessage} (h : m.SameTask m₀) :
    m.maxRetries = m₀.maxRetries := by
  rw [← h]

theorem SameTask.taskName_eq {m m₀ : TaskMessage} (h : m.SameTask m₀) :
    m.taskName = m₀.taskName := by
  rw [← h]

theorem SameTask.payload_eq {m m₀ : TaskMessage} (h : m.SameTask m₀) :
    m.payload = m₀.payload := by
  rw [← h]

theorem SameTask.dedupKey_eq {m m₀ : TaskMessage} (h : m.SameTask m₀) :
    m.dedupKey = m₀.dedupKey := by
  rw [← h]

/-- Rewriting the three progress fields stays within the same task. -/
theorem SameTask.update {m m₀ : TaskMessage} (h : m.SameTask m₀) (state : TaskState)
    (retries : UInt32) (updatedAt : DateTime) :
    { m with state := state, retries := retries, updatedAt := updatedAt }.SameTask m₀ := h

end TaskMessage

/-- A message of queue `q` with the given identifier and nothing else, for concrete
runs. -/
def plainMessage (id : TaskId) : TaskMessage := TaskMessage.new ⟨0⟩ id "t" "q" .null

/-! ## Signatures -/

/-- `Signature`. -/
structure Signature where
  taskName : String
  queue : String
  payload : Json
  maxRetries : UInt32
  eta : Option DateTime
  headers : Headers
  priority : Option UInt8
  dedupKey : Option String

/-- The signature of a task of queue `q`, for concrete runs. -/
def plainSignature : Signature := ⟨"t", "q", .null, 0, none, ∅, none, none⟩

/-- `Signature::into_message`, with the clock reading and the fresh identifier
that `TaskMessage::new` takes. -/
def Signature.intoMessage (sig : Signature) (now : DateTime) (id : TaskId) : TaskMessage :=
  { (TaskMessage.new now id sig.taskName sig.queue sig.payload).withMaxRetries
      sig.maxRetries with
    eta := sig.eta
    headers := sig.headers
    priority := sig.priority
    dedupKey := sig.dedupKey }

@[simp] theorem Signature.intoMessage_id (sig : Signature) (now : DateTime) (id : TaskId) :
    (sig.intoMessage now id).id = id := rfl

@[simp] theorem Signature.intoMessage_retries (sig : Signature) (now : DateTime) (id : TaskId) :
    (sig.intoMessage now id).retries = 0 := rfl

@[simp] theorem Signature.intoMessage_groupId (sig : Signature) (now : DateTime) (id : TaskId) :
    (sig.intoMessage now id).groupId = none := rfl

@[simp] theorem Signature.intoMessage_chordCallback (sig : Signature) (now : DateTime)
    (id : TaskId) : (sig.intoMessage now id).chordCallback = none := rfl

/-! ## The wire form -/

section Wire

variable (rfc3339 : DateTime → String)

/-- An unsigned integer as a JSON number. -/
def natJson (n : Nat) : Json := .num (.int n)

/-- `HashMap<String, String>` as an object, in iteration order. -/
def headersJson (h : Headers) : Json :=
  .obj (h.entries.map fun e => (e.1, .str e.2))

/-- A field that `skip_serializing_if = "Option::is_none"` leaves out. -/
def optionalField {α : Type} (key : String) (f : α → Json) : Option α → List (String × Json)
  | none => []
  | some a => [(key, f a)]

/-- `Serialize for TaskMessage`, fields in declaration order. -/
def TaskMessage.toJson : TaskMessage → Json
  | ⟨id, taskName, queue, payload, state, retries, maxRetries, createdAt, updatedAt, eta,
      headers, parentId, correlationId, groupId, groupTotal, chordCallback, priority,
      dedupKey⟩ =>
    .obj (
      [("id", .str id.toText), ("task_name", .str taskName), ("queue", .str queue),
       ("payload", payload), ("state", .str state.toText),
       ("retries", natJson retries.toNat), ("max_retries", natJson maxRetries.toNat),
       ("created_at", .str (rfc3339 createdAt)), ("updated_at", .str (rfc3339 updatedAt)),
       ("eta", (eta.map fun t => Json.str (rfc3339 t)).getD .null),
       ("headers", headersJson headers)] ++
      optionalField "parent_id" (fun i : TaskId => .str i.toText) parentId ++
      optionalField "correlation_id" Json.str correlationId ++
      optionalField "group_id" Json.str groupId ++
      optionalField "group_total" (fun n : UInt32 => natJson n.toNat) groupTotal ++
      (match chordCallback with
        | none => []
        | some callback => [("chord_callback", callback.toJson)]) ++
      optionalField "priority" (fun n : UInt8 => natJson n.toNat) priority ++
      optionalField "dedup_key" Json.str dedupKey)

/-- `serde_json::to_string(&message)`. -/
def TaskMessage.encode (m : TaskMessage) : String := (m.toJson rfc3339).print

/-- `Serialize for Signature`. -/
def Signature.toJson (sig : Signature) : Json :=
  .obj (
    [("task_name", .str sig.taskName), ("queue", .str sig.queue), ("payload", sig.payload),
     ("max_retries", natJson sig.maxRetries.toNat),
     ("eta", (sig.eta.map fun t => Json.str (rfc3339 t)).getD .null),
     ("headers", headersJson sig.headers)] ++
    optionalField "priority" (fun n : UInt8 => natJson n.toNat) sig.priority ++
    optionalField "dedup_key" Json.str sig.dedupKey)

/-- `serde_json::to_string(&signatures)`. -/
def encodeSignatures (sigs : List Signature) : String :=
  (Json.arr (sigs.map (Signature.toJson rfc3339))).print

end Wire

/-! ## Identifiers on the wire -/

/-- The characters of an identifier need no escape. -/
theorem TaskId.escape_chars (id : TaskId) : ∀ c ∈ id.chars, escapeChar c = [c] := by
  have hdigit : ∀ n : Fin 16, escapeChar (Nat.digitChar n.val) = [Nat.digitChar n.val] := by decide
  have hnibble : ∀ i, escapeChar (Nat.digitChar (id.nibble i)) = [Nat.digitChar (id.nibble i)] :=
    fun i => hdigit ⟨id.nibble i, id.nibble_lt i⟩
  intro c hc
  obtain ⟨i, -, hi⟩ := List.mem_flatMap.mp hc
  split at hi
  · rcases List.mem_cons.mp hi with rfl | hi
    · decide
    · obtain rfl := List.mem_singleton.mp hi
      exact hnibble i
  · obtain rfl := List.mem_singleton.mp hi
    exact hnibble i

/-- An identifier is printed as it is, between quotes. -/
theorem TaskId.quoteChars_toText (id : TaskId) :
    quoteChars id.toText = '"' :: (id.chars ++ ['"']) := by
  have hflat : ∀ cs : List Char, (∀ c ∈ cs, escapeChar c = [c]) → cs.flatMap escapeChar = cs := by
    intro cs hcs
    induction cs with
    | nil => rfl
    | cons c cs ih =>
        rw [List.flatMap_cons, hcs c List.mem_cons_self,
          ih fun d hd => hcs d (List.mem_cons_of_mem c hd)]
        rfl
  rw [quoteChars, TaskId.toList_toText, hflat _ id.escape_chars]

/-- The characters before the identifier in an encoded message. -/
def idLead : List Char := ['{', '"', 'i', 'd', '"', ':', '"']

/-- An encoded message starts with its identifier. -/
theorem TaskMessage.encode_chars (rfc3339 : DateTime → String) (m : TaskMessage) :
    ∃ rest, (m.encode rfc3339).toList = idLead ++ m.id.chars ++ '"' :: rest := by
  rcases m with ⟨id, taskName, queue, payload, state, retries, maxRetries, createdAt, updatedAt,
    eta, headers, parentId, correlationId, groupId, groupTotal, chordCallback, priority, dedupKey⟩
  have hkey : quoteChars "id" = ['"', 'i', 'd', '"'] := by decide
  rw [TaskMessage.encode, Json.toList_print, TaskMessage.toJson.eq_def]
  simp only [Json.chars, List.cons_append, Json.fieldsChars, TaskId.quoteChars_toText, hkey,
    List.append_assoc, List.nil_append, idLead]
  exact ⟨_, rfl⟩

/-- The encoding of a message determines its identifier. -/
theorem TaskMessage.id_of_encode {rfc3339 : DateTime → String} {m m' : TaskMessage}
    (h : m.encode rfc3339 = m'.encode rfc3339) : m.id = m'.id := by
  obtain ⟨rest, hm⟩ := m.encode_chars rfc3339
  obtain ⟨rest', hm'⟩ := m'.encode_chars rfc3339
  rw [h, hm', List.append_assoc, List.append_assoc] at hm
  have hchars := List.append_inj_left (List.append_cancel_left hm)
    (by rw [TaskId.length_chars, TaskId.length_chars])
  exact TaskId.chars_injective hchars.symm

end Kojin.Core
