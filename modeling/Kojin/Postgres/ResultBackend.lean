/-
  Postgres/ResultBackend.lean --- results and groups in PostgreSQL
  (`kojin-postgres`: `result_backend.rs`).

  Every SQL statement is a step of its own, committed when it is done.  A method is
  one statement or several:

      store                    the clock, then an upsert into `kojin_results`
      init_group               one placeholder row for each member
      complete_group_member    an upsert into `kojin_groups`, then a COUNT
      get_group_results        a SELECT

  A row of a group is counted when it is completed, so a task that completes twice
  is counted once.

  No text with U+0000 is taken, neither as TEXT nor inside JSONB.  What else the
  server refuses, because it is too long, too deep or too early, and how JSONB
  stores what it takes, is left open.
-/
import Kojin.Core.System
import Kojin.Foundation.Loss
import Mathlib.Data.List.Dedup

set_option autoImplicit false

namespace Kojin.Postgres

open Kojin.Foundation Kojin.Core

/-! ## The server -/

/-- The statements of the backend, its clock, and a panic, after which nothing comes. -/
inductive Statement where
  | utcNow
  | panic
  | upsertResult (task : String) (result : Json) (expiresAt : DateTime)
  | insertPlaceholder (group task : String)
  | upsertMember (group task : String) (result : Json)
  | countMembers (group : String)
  | selectResults (group : String)

/-- The message of a failed statement. -/
abbrev SqlError : Type := String

/-- What they return. -/
abbrev Statement.Res : Statement → Type
  | .utcNow => DateTime
  | .panic => Unit
  | .upsertResult _ _ _ => Except SqlError Unit
  | .insertPlaceholder _ _ => Except SqlError Unit
  | .upsertMember _ _ _ => Except SqlError Unit
  | .countMembers _ => Except SqlError Nat
  | .selectResults _ => Except SqlError (List Json)

/-- The interface of the backend. -/
abbrev statements : Interface := ⟨Statement, Statement.Res⟩

/-- A row of `kojin_groups`, without its key. -/
structure GroupRow where
  result : Option Json
  completed : Bool

/-- The two tables, by their primary keys. -/
structure PgTables where
  results : Table String (Json × DateTime)
  groups : Table (String × String) GroupRow

/-- Whether a text contains U+0000. -/
def hasNul (text : String) : Bool := text.toList.contains (Char.ofNat 0)

mutual

/-- Whether a string or a key of a value contains it. -/
def jsonHasNul : Json → Bool
  | .str s => hasNul s
  | .arr items => itemsHaveNul items
  | .obj fields => fieldsHaveNul fields
  | _ => false

/-- The items of an array. -/
def itemsHaveNul : List Json → Bool
  | [] => false
  | v :: rest => jsonHasNul v || itemsHaveNul rest

/-- The fields of an object. -/
def fieldsHaveNul : List (String × Json) → Bool
  | [] => false
  | (k, v) :: rest => hasNul k || jsonHasNul v || fieldsHaveNul rest

end

/-- What the columns take: which group and task fit into the index of their primary key,
which times a TIMESTAMPTZ reaches, and how JSONB stores a value. -/
structure PgTypes where
  index : String → String → Except SqlError Unit
  timestamp : DateTime → Except SqlError Unit
  jsonb : Json → Except SqlError Json
  jsonb_nul : ∀ v, jsonHasNul v = true → ∃ e, jsonb v = .error e

/-- Columns that take what they can, and store it as it is. -/
def PgTypes.plain : PgTypes where
  index _ _ := .ok ()
  timestamp _ := .ok ()
  jsonb v :=
    if jsonHasNul v then .error "error returned from database: unsupported Unicode escape sequence"
    else .ok v
  jsonb_nul _ hv := ⟨_, if_pos hv⟩

/-- The error for a text with U+0000. -/
def nulRefused : SqlError :=
  "error returned from database: invalid byte sequence for encoding \"UTF8\": 0x00"

/-- What is bound to a TEXT parameter. -/
def bindText (text : String) : Except SqlError Unit :=
  if hasNul text then .error nulRefused else .ok ()

/-- The key of a row of `kojin_groups`. -/
def PgTypes.key (types : PgTypes) (group task : String) : Except SqlError Unit := do
  bindText group
  bindText task
  types.index group task

/-- The columns of a completed row: what is stored for its result. -/
def PgTypes.row (types : PgTypes) (group task : String) (result : Json) : Except SqlError Json := do
  types.key group task
  types.jsonb result

/-- The columns of a row of `kojin_results`: what is stored for its result. -/
def PgTypes.resultRow (types : PgTypes) (task : String) (result : Json) (expiresAt : DateTime) :
    Except SqlError Json := do
  bindText task
  types.timestamp expiresAt
  types.jsonb result

/-- What the outside decides about a statement: the clock, and what is lost of it. -/
structure PgOracle where
  now : DateTime
  failure : Option (Loss SqlError)

namespace PgTables

/-- The migrated database before its first use. -/
def empty : PgTables := ⟨∅, ∅⟩

/-- `INSERT INTO kojin_results ... ON CONFLICT (task_id) DO UPDATE`. -/
def upsertResult (s : PgTables) (task : String) (result : Json) (expiresAt : DateTime) : PgTables :=
  { s with results := s.results.insert task (result, expiresAt) }

/-- `INSERT INTO kojin_groups ... ON CONFLICT (group_id, task_id) DO NOTHING`. -/
def insertPlaceholder (s : PgTables) (group task : String) : PgTables :=
  match s.groups.lookup (group, task) with
  | some _ => s
  | none => { s with groups := s.groups.insert (group, task) ⟨none, false⟩ }

/-- `INSERT INTO kojin_groups ... ON CONFLICT (group_id, task_id) DO UPDATE`. -/
def upsertMember (s : PgTables) (group task : String) (result : Json) : PgTables :=
  { s with groups := s.groups.insert (group, task) ⟨some result, true⟩ }

/-- `WHERE group_id = $1 AND completed = TRUE AND result IS NOT NULL`. -/
def isCompleted (group : String) (e : (_ : String × String) × GroupRow) : Bool :=
  e.1.1 = group && e.2.completed && e.2.result.isSome

/-- The completed rows of a group. -/
def completed (s : PgTables) (group : String) : List ((_ : String × String) × GroupRow) :=
  s.groups.entries.filter (isCompleted group)

/-- `SELECT COUNT(*)` of the completed rows. -/
def countMembers (s : PgTables) (group : String) : Nat := (s.completed group).length

/-- `SELECT result` of the completed rows, `ORDER BY task_id`. -/
def selectResults (s : PgTables) (group : String) : List Json :=
  ((s.completed group).mergeSort fun e e' => e.1.2 ≤ e'.1.2).filterMap fun e => e.2.result

end PgTables

/-- A statement is refused and changes nothing, or it is carried out and committed. -/
def settle {α S : Type} (s : S) : Except SqlError (α × S) → Except SqlError α × S
  | .error e => (.error e, s)
  | .ok (a, s') => (.ok a, s')

/-- The server. -/
def server (types : PgTypes) : Service statements where
  State := PgTables
  Oracle := PgOracle
  respond o s
    | .utcNow => some (o.now, s)
    | .panic => none
    | .upsertResult task result expiresAt =>
        some (carried o.failure s (settle s
          ((types.resultRow task result expiresAt).map fun stored =>
            ((), s.upsertResult task stored expiresAt))))
    | .insertPlaceholder group task =>
        some (carried o.failure s (settle s
          ((types.key group task).map fun _ => ((), s.insertPlaceholder group task))))
    | .upsertMember group task result =>
        some (carried o.failure s (settle s
          ((types.row group task result).map fun stored =>
            ((), s.upsertMember group task stored))))
    | .countMembers group =>
        some (carried o.failure s (settle s
          ((bindText group).map fun _ => (s.countMembers group, s))))
    | .selectResults group =>
        some (carried o.failure s (settle s
          ((bindText group).map fun _ => (s.selectResults group, s))))

/-- The server as long as no answer is lost: a statement that fails is not carried out. -/
def firmServer (types : PgTypes) : Service statements where
  State := PgTables
  Oracle := DateTime × Option SqlError
  respond o s op := (server types).respond ⟨o.1, o.2.map .request⟩ s op

section Server

variable {types : PgTypes} {α β S : Type} {s s' : S} {x : Except SqlError β} {f : β → α × S}

/-- A statement that is refused changes nothing, and one that is not has been carried
out. -/
theorem settle_map {ans : Except SqlError α} (h : settle s (x.map f) = (ans, s')) :
    (∃ e, x = .error e ∧ ans = .error e ∧ s' = s) ∨
      ∃ b, x = .ok b ∧ ans = .ok (f b).1 ∧ s' = (f b).2 := by
  rcases x with e | b
  · cases h
    exact .inl ⟨e, rfl, rfl, rfl⟩
  · cases h
    exact .inr ⟨b, rfl, rfl, rfl⟩

/-- On the firm server a statement that is refused changes nothing, and one that is not has been
carried out. -/
theorem firm_settle_map {failure : Option SqlError} {ans : Except SqlError α}
    (h : carried (failure.map Loss.request) s (settle s (x.map f)) = (ans, s')) :
    ((∃ e, ans = .error e) ∧ s' = s) ∨ ∃ b, x = .ok b ∧ ans = .ok (f b).1 ∧ s' = (f b).2 := by
  cases failure with
  | some e =>
      obtain ⟨rfl, rfl⟩ := Prod.mk.inj h
      exact .inl ⟨⟨e, rfl⟩, rfl⟩
  | none =>
      rcases settle_map h with ⟨e, -, rfl, rfl⟩ | hdone
      · exact .inl ⟨⟨e, rfl⟩, rfl⟩
      · exact .inr hdone

/-- A statement that arrived and was not refused has been carried out, whatever its caller
hears; any other has changed nothing. -/
theorem settle_arrives {loss : Option (Loss SqlError)} {ans : Except SqlError α}
    (h : carried loss s (settle s (x.map f)) = (ans, s')) :
    (∃ b, arrives loss = true ∧ x = .ok b ∧ s' = (f b).2) ∨
      (s' = s ∧ ∀ b, arrives loss = true → x ≠ .ok b) := by
  rcases x with e | b
  · rcases carried_state h with rfl | rfl <;> exact .inr ⟨rfl, fun _ _ hx => by cases hx⟩
  · rcases carried_cases h with ⟨rfl, hdone⟩ | ⟨e, -, ⟨hlost, rfl⟩ | ⟨-, harrives, rfl⟩⟩
    · cases hdone
      exact .inl ⟨b, rfl, rfl, rfl⟩
    · exact .inr ⟨rfl, fun _ harrives => by simp [hlost] at harrives⟩
    · exact .inl ⟨b, harrives, rfl, rfl⟩

theorem bindText_eq_ok {text : String} : bindText text = .ok () ↔ hasNul text = false := by
  unfold bindText
  split <;> simp_all

theorem hasNul_of_key {group task : String} (h : types.key group task = .ok ()) :
    hasNul group = false := by
  unfold PgTypes.key at h
  cases hgroup : bindText group with
  | ok => exact bindText_eq_ok.mp hgroup
  | error e =>
      rw [hgroup] at h
      cases h

/-- What is taken has no U+0000, neither in the name of its group nor in the result. -/
theorem PgTypes.nul_of_row {group task : String} {result stored : Json}
    (h : types.row group task result = .ok stored) :
    hasNul group = false ∧ jsonHasNul result = false ∧ types.jsonb result = .ok stored := by
  unfold row at h
  cases hkey : types.key group task with
  | error e =>
      rw [hkey] at h
      cases h
  | ok =>
      rw [hkey] at h
      have hresult : types.jsonb result = .ok stored := h
      refine ⟨hasNul_of_key hkey, ?_, hresult⟩
      by_contra hnul
      obtain ⟨e, he⟩ := types.jsonb_nul result (by simpa using hnul)
      rw [he] at hresult
      cases hresult

/-- A result that is stored was taken by its JSONB column. -/
theorem PgTypes.jsonb_of_resultRow {task : String} {result stored : Json} {expiresAt : DateTime}
    (h : types.resultRow task result expiresAt = .ok stored) : types.jsonb result = .ok stored := by
  unfold resultRow at h
  cases hbind : bindText task with
  | error e =>
      rw [hbind] at h
      cases h
  | ok =>
      rw [hbind] at h
      cases htime : types.timestamp expiresAt with
      | error e =>
          have hrefused : (types.timestamp expiresAt >>= fun _ => types.jsonb result) = .ok stored :=
            h
          rw [htime] at hrefused
          cases hrefused
      | ok =>
          have htaken : (types.timestamp expiresAt >>= fun _ => types.jsonb result) = .ok stored :=
            h
          rw [htime] at htaken
          exact htaken

end Server

/-! ## The backend -/

/-- `PostgresResultBackend`: the lifetime of results, in whole seconds (`as_secs`). -/
structure PostgresResultBackend where
  ttl : UInt64

namespace PostgresResultBackend

/-- `backend_err`. -/
def backendErr (e : SqlError) : KojinError := .resultBackend e

/-- `self.ttl.as_secs() as i64`: from `2 ^ 63` on it is negative. -/
def ttlSecs (b : PostgresResultBackend) : Int := b.ttl.toInt64.toInt

/-- The first and the last time of `chrono`, in seconds. -/
def firstSecond : Int := -8334601228800
def lastSecond : Int := 8210266876799

/-- `now + Duration::seconds(secs)`.  Either of them panics when it leaves its range. -/
def expiresAt (now : DateTime) (secs : Int) : Option DateTime :=
  if secs.natAbs ≤ 9223372036854775 ∧ firstSecond * 1000000000 ≤ now.nanos + secs * 1000000000 ∧
      now.nanos + secs * 1000000000 < (lastSecond + 1) * 1000000000 then
    some ⟨now.nanos + secs * 1000000000⟩
  else none

/-- `PostgresResultBackend::store`, when the time is known. -/
def storeUntil (id : TaskId) (result : Json) : Option DateTime → Prog statements (TaskResult Unit)
  | none => do
      Prog.perform (I := statements) .panic
      pure (.ok ())
  | some expiresAt => do
      let answer ← Prog.perform (I := statements) (.upsertResult id.toText result expiresAt)
      pure (answer.mapError backendErr)

/-- `PostgresResultBackend::store`. -/
def store (b : PostgresResultBackend) (id : TaskId) (result : Json) :
    Prog statements (TaskResult Unit) := do
  let now ← Prog.perform (I := statements) .utcNow
  storeUntil id result (expiresAt now b.ttlSecs)

/-- The identifier of a placeholder row. -/
def placeholderId (group : String) (i : Nat) : String :=
  group ++ ":placeholder:" ++ toString i

/-- The loop of `init_group`, over the remaining numbers. -/
def insertPlaceholders (group : String) : List Nat → Prog statements (TaskResult Unit)
  | [] => pure (.ok ())
  | i :: rest => do
      match ← Prog.perform (I := statements) (.insertPlaceholder group (placeholderId group i)) with
      | .error e => pure (.error (backendErr e))
      | .ok _ => insertPlaceholders group rest

/-- `PostgresResultBackend::init_group`. -/
def initGroup (group : String) (total : UInt32) : Prog statements (TaskResult Unit) :=
  insertPlaceholders group (List.range total.toNat)

/-- `PostgresResultBackend::complete_group_member`; `as u32` keeps the low 32 bits of
the count. -/
def completeGroupMember (group : String) (task : TaskId) (result : Json) :
    Prog statements (TaskResult UInt32) := do
  match ← Prog.perform (I := statements) (.upsertMember group task.toText result) with
  | .error e => pure (.error (backendErr e))
  | .ok _ => do
      let count ← Prog.perform (I := statements) (.countMembers group)
      pure ((count.map UInt32.ofNat).mapError backendErr)

/-- `PostgresResultBackend::get_group_results`. -/
def getGroupResults (group : String) : Prog statements (TaskResult (List Json)) := do
  let rows ← Prog.perform (I := statements) (.selectResults group)
  pure (rows.mapError backendErr)

/-- `impl ResultBackend for PostgresResultBackend`. -/
def driver (b : PostgresResultBackend) : BackendDriver statements
  | .store id result => b.store id result
  | .initGroup group total => initGroup group total
  | .completeGroupMember group task result => completeGroupMember group task result
  | .getGroupResults group => getGroupResults group

end PostgresResultBackend

/-! ## What is counted -/

namespace PgTables

variable {s : PgTables} {group task : String}

/-- The tasks of the completed rows of a group. -/
def completedTasks (s : PgTables) (group : String) : List String :=
  (s.completed group).map fun e => e.1.2

theorem mem_completedTasks :
    task ∈ s.completedTasks group ↔
      ∃ row, s.groups.lookup (group, task) = some row ∧ row.completed = true ∧
        row.result.isSome = true := by
  simp only [completedTasks, completed, List.mem_map, List.mem_filter, isCompleted,
    Bool.and_eq_true, decide_eq_true_eq]
  constructor
  · rintro ⟨⟨⟨g, t⟩, row⟩, ⟨hmem, ⟨rfl, hcompleted⟩, hresult⟩, rfl⟩
    exact ⟨row, AList.mem_lookup_iff.mpr hmem, hcompleted, hresult⟩
  · rintro ⟨row, hlookup, hcompleted, hresult⟩
    exact ⟨⟨(group, task), row⟩,
      ⟨AList.mem_lookup_iff.mp hlookup, ⟨rfl, hcompleted⟩, hresult⟩, rfl⟩

/-- A task has one row in a group. -/
theorem nodup_completedTasks : (s.completedTasks group).Nodup := by
  have hkeys : (s.groups.entries.map Sigma.fst).Nodup := s.groups.nodupKeys
  have hnodup := (List.filter_sublist (l := s.groups.entries) (p := isCompleted group)).map
    Sigma.fst |>.nodup hkeys
  have hinj : ∀ e ∈ s.completed group, ∀ e' ∈ s.completed group, e.1.2 = e'.1.2 → e.1 = e'.1 := by
    intro e he e' he' htask
    have hgroup := (List.mem_filter.mp he).2
    have hgroup' := (List.mem_filter.mp he').2
    simp only [isCompleted, Bool.and_eq_true, decide_eq_true_eq] at hgroup hgroup'
    exact Prod.ext (hgroup.1.1.trans hgroup'.1.1.symm) htask
  have hmap : ((s.completed group).map fun e => e.1.2) =
      ((s.completed group).map Sigma.fst).map Prod.snd := by
    rw [List.map_map]
    rfl
  rw [completedTasks, hmap]
  refine List.Nodup.map_on ?_ hnodup
  intro k hk k' hk' htask
  obtain ⟨e, he, rfl⟩ := List.mem_map.mp hk
  obtain ⟨e', he', rfl⟩ := List.mem_map.mp hk'
  exact hinj e he e' he' htask

/-- The count is the number of different tasks that have completed. -/
theorem countMembers_eq {tasks : List String}
    (h : ∀ task, task ∈ s.completedTasks group ↔ task ∈ tasks) :
    s.countMembers group = tasks.dedup.length := by
  have hperm : (s.completedTasks group).Perm tasks.dedup := by
    rw [List.perm_ext_iff_of_nodup nodup_completedTasks (List.nodup_dedup tasks)]
    intro task
    rw [h, List.mem_dedup]
  rw [← hperm.length_eq, completedTasks, List.length_map]
  rfl

/-- Inserting a placeholder completes no task. -/
theorem completedTasks_insertPlaceholder {group' task' : String} :
    task ∈ (s.insertPlaceholder group' task').completedTasks group ↔
      task ∈ s.completedTasks group := by
  unfold insertPlaceholder
  split
  · rfl
  · rename_i hnone
    rw [mem_completedTasks, mem_completedTasks]
    by_cases hkey : (group, task) = (group', task')
    · obtain ⟨rfl, rfl⟩ := Prod.mk.inj hkey
      simp [hnone]
    · simp [AList.lookup_insert_ne hkey]

/-- An upsert completes its task. -/
theorem completedTasks_upsertMember {group' task' : String} {result : Json} :
    task ∈ (s.upsertMember group' task' result).completedTasks group ↔
      (group' = group ∧ task' = task) ∨ task ∈ s.completedTasks group := by
  unfold upsertMember
  rw [mem_completedTasks, mem_completedTasks]
  by_cases hkey : (group, task) = (group', task')
  · obtain ⟨rfl, rfl⟩ := Prod.mk.inj hkey
    simp
  · have hne : ¬ (group' = group ∧ task' = task) := fun h => hkey (by rw [h.1, h.2])
    simp [AList.lookup_insert_ne hkey, hne]

end PgTables

end Kojin.Postgres
