/-
  Postgres/GroupHistory.lean --- groups in a sequential history of the PostgreSQL
  backend (`kojin-postgres`: `result_backend.rs`).

  A row of a group is keyed by its task, so the completed rows of a group are the
  latest completions of its tasks, one for each, as far as the columns took them.
  Hence the count is the number of different tasks, and the rows are all the
  completions when no task completes twice.
-/
import Kojin.Core.GroupHistory
import Kojin.Postgres.ResultBackend

set_option autoImplicit false

namespace Kojin.Postgres

open Kojin.Foundation Kojin.Core

/-! ## The backend, method by method -/

/-- The backend when nothing is lost of a statement.  The clock is read when a result is
stored. -/
def PostgresResultBackend.service (b : PostgresResultBackend) (types : PgTypes) :
    Service resultBackendTrait where
  State := PgTables
  Oracle := DateTime
  respond now s op := (server types).eval ⟨now, none⟩ (b.driver op) s

namespace PgTables

variable {s : PgTables} {group text : String}

/-- The result in a completed row. -/
def completedResult (s : PgTables) (group text : String) : Option Json :=
  (s.groups.lookup (group, text)).bind fun row => if row.completed then row.result else none

theorem completedResult_insertPlaceholder (group' text' : String) :
    (s.insertPlaceholder group' text').completedResult group text =
      s.completedResult group text := by
  unfold insertPlaceholder
  split
  · rfl
  · rename_i hnone
    unfold completedResult
    by_cases hkey : (group, text) = (group', text')
    · rw [hkey, hnone]
      simp
    · rw [AList.lookup_insert_ne hkey]

theorem completedResult_upsertMember (group' text' : String) (result : Json) :
    (s.upsertMember group' text' result).completedResult group text =
      if (group, text) = (group', text') then some result else s.completedResult group text := by
  unfold upsertMember completedResult
  by_cases hkey : (group, text) = (group', text')
  · rw [if_pos hkey, hkey]
    simp
  · rw [if_neg hkey, AList.lookup_insert_ne hkey]

theorem mem_completedTasks_iff :
    text ∈ s.completedTasks group ↔ (s.completedResult group text).isSome = true := by
  rw [mem_completedTasks, completedResult]
  cases s.groups.lookup (group, text) with
  | none => simp
  | some row => cases hcompleted : row.completed <;> simp [hcompleted]

/-- The rows of a group, read off their keys. -/
theorem filterMap_completed :
    (s.completed group).filterMap (fun e => e.2.result) =
      (s.completedTasks group).filterMap (s.completedResult group) := by
  rw [completedTasks, List.filterMap_map]
  refine List.filterMap_congr fun e he => ?_
  obtain ⟨hmem, hcompleted⟩ := List.mem_filter.mp he
  simp only [isCompleted, Bool.and_eq_true, decide_eq_true_eq] at hcompleted
  have hkey : (group, e.1.2) = e.1 := Prod.ext hcompleted.1.1.symm rfl
  have hlookup : s.groups.lookup (group, e.1.2) = some e.2 := by
    rw [hkey]
    exact AList.mem_lookup_iff.mpr hmem
  rw [Function.comp_apply, completedResult, hlookup]
  simp [hcompleted.1.2]

/-- The order of the rows is that of their tasks. -/
theorem selectResults_perm :
    (s.selectResults group).Perm ((s.completedTasks group).filterMap (s.completedResult group)) := by
  rw [← filterMap_completed]
  exact (List.mergeSort_perm _ _).filterMap _

end PgTables

/-! ## The latest completions -/

/-- The latest result of a task in a group. -/
def latest (group : String) (task : TaskId) (calls : List ResultBackendOp) : Option Json :=
  ((completionsIn group calls).reverse.find? fun e => e.1 = task).map Prod.snd

section Latest

variable {group : String} {task : TaskId} {calls : List ResultBackendOp}

theorem latest_snoc (op : ResultBackendOp) :
    latest group task (calls ++ [op]) =
      ((op.completion group).filter fun e => e.1 = task).elim (latest group task calls)
        fun e => some e.2 := by
  rw [latest, completionsIn_snoc, List.reverse_append]
  cases hop : op.completion group with
  | none => rfl
  | some e =>
      by_cases he : e.1 = task
      · simp [Option.filter_some, he]
      · simp [Option.filter_some, he, latest]

theorem isSome_latest :
    (latest group task calls).isSome = true ↔ task ∈ (completionsIn group calls).map Prod.fst := by
  simp [latest]

/-- A task that completes once has that result. -/
theorem latest_of_nodup (hnodup : ((completionsIn group calls).map Prod.fst).Nodup)
    {e : TaskId × Json} (he : e ∈ completionsIn group calls) :
    latest group e.1 calls = some e.2 := by
  have hsome : (latest group e.1 calls).isSome = true :=
    isSome_latest.mpr (List.mem_map_of_mem he)
  obtain ⟨v, hv⟩ := Option.isSome_iff_exists.mp hsome
  obtain ⟨e', hfind, rfl⟩ := Option.map_eq_some_iff.mp hv
  have hmem : e' ∈ completionsIn group calls :=
    List.mem_reverse.mp (List.mem_of_find?_eq_some hfind)
  have htask : e'.1 = e.1 := by simpa using List.find?_some hfind
  rw [hv, List.inj_on_of_nodup_map hnodup hmem he htask]

end Latest

theorem toText_injective : Function.Injective TaskId.toText := by
  intro task task' h
  refine TaskId.chars_injective ?_
  rw [← TaskId.toList_toText, ← TaskId.toList_toText, h]

/-! ## Histories -/

/-- Whether the row of a completion is taken. -/
def PgTypes.taken (types : PgTypes) : ResultBackendOp → Bool
  | .completeGroupMember group task result => (types.row group task.toText result).isOk
  | _ => true

/-- The calls whose rows are taken. -/
def PgTypes.kept (types : PgTypes) (calls : List ResultBackendOp) : List ResultBackendOp :=
  calls.filter types.taken

/-- What JSONB gives back for a value that it takes. -/
def PgTypes.stored (types : PgTypes) (v : Json) : Json :=
  match types.jsonb v with
  | .ok stored => stored
  | .error _ => v

section Kept

variable {types : PgTypes} {calls : List ResultBackendOp}

theorem kept_snoc (op : ResultBackendOp) :
    types.kept (calls ++ [op]) = types.kept calls ++ if types.taken op then [op] else [] := by
  cases htaken : types.taken op <;> simp [PgTypes.kept, List.filter_append, htaken]

theorem kept_of_taken (h : ∀ op ∈ calls, types.taken op = true) : types.kept calls = calls :=
  List.filter_eq_self.mpr h

theorem stored_of_row {group task : String} {result stored : Json}
    (h : types.row group task result = .ok stored) : types.stored result = stored := by
  rw [PgTypes.stored, (PgTypes.nul_of_row h).2.2]

end Kept

namespace PostgresResultBackend

variable {b : PostgresResultBackend} {types : PgTypes} {calls : List ResultBackendOp}

/-- The completed rows are the latest completions of the tasks. -/
structure Tracks (types : PgTypes) (calls : List ResultBackendOp) (s : PgTables) : Prop where
  rows : ∀ group task,
    s.completedResult group task.toText = (latest group task (types.kept calls)).map types.stored
  tasks : ∀ group text, (s.completedResult group text).isSome = true →
    ∃ task : TaskId, task.toText = text

/-- What the calls answer after those made so far. -/
def Answers (types : PgTypes) (calls : List ResultBackendOp) :
    (op : ResultBackendOp) → op.Res → Prop
  | .store _ _, _ => True
  | .initGroup _ _, _ => True
  | .completeGroupMember group task result, r =>
      r = ((types.row group task.toText result).map fun _ => UInt32.ofNat
        ((completionsIn group (types.kept calls)).map Prod.fst ++ [task]).dedup.length).mapError
          backendErr
  | .getGroupResults group, r =>
      (∀ e, bindText group = .error e → r = .error (backendErr e)) ∧
        (bindText group = .ok () →
          ((completionsIn group (types.kept calls)).map Prod.fst).Nodup →
          ∃ results, r = .ok results ∧ results.Perm
            ((completionsIn group (types.kept calls)).map fun e => types.stored e.2))

theorem tracks_empty : Tracks types [] PgTables.empty :=
  ⟨fun _ _ => rfl, fun _ _ h => by cases h⟩

/-- The completed tasks of a group, as the history has them. -/
theorem Tracks.mem_completedTasks {s : PgTables} (h : Tracks types calls s) (group text : String) :
    text ∈ s.completedTasks group ↔
      text ∈ ((completionsIn group (types.kept calls)).map Prod.fst).map TaskId.toText := by
  rw [PgTables.mem_completedTasks_iff, List.mem_map]
  constructor
  · intro hsome
    obtain ⟨task, rfl⟩ := h.tasks group text hsome
    rw [h.rows group task, Option.isSome_map] at hsome
    exact ⟨task, isSome_latest.mp hsome, rfl⟩
  · rintro ⟨task, hmem, rfl⟩
    rw [h.rows group task, Option.isSome_map]
    exact isSome_latest.mpr hmem

/-- The count of a group. -/
theorem Tracks.countMembers {s : PgTables} (h : Tracks types calls s) (group : String) :
    s.countMembers group =
      ((completionsIn group (types.kept calls)).map Prod.fst).dedup.length := by
  rw [PgTables.countMembers_eq (h.mem_completedTasks group),
    List.dedup_map_of_injective toText_injective, List.length_map]

/-- The rows of a group whose tasks complete once. -/
theorem Tracks.selectResults {s : PgTables} (h : Tracks types calls s) {group : String}
    (hnodup : ((completionsIn group (types.kept calls)).map Prod.fst).Nodup) :
    (s.selectResults group).Perm
      ((completionsIn group (types.kept calls)).map fun e => types.stored e.2) := by
  have htasks : (s.completedTasks group).Perm
      (((completionsIn group (types.kept calls)).map Prod.fst).map TaskId.toText) := by
    rw [List.perm_ext_iff_of_nodup PgTables.nodup_completedTasks
      (hnodup.map toText_injective)]
    exact h.mem_completedTasks group
  have hresults : (((completionsIn group (types.kept calls)).map Prod.fst).map
      TaskId.toText).filterMap (s.completedResult group) =
        (completionsIn group (types.kept calls)).map fun e => types.stored e.2 := by
    rw [List.filterMap_map, List.filterMap_map, ← List.filterMap_eq_map]
    refine List.filterMap_congr fun e he => ?_
    rw [Function.comp_apply, Function.comp_apply, h.rows group e.1, latest_of_nodup hnodup he]
    rfl
  rw [← hresults]
  exact PgTables.selectResults_perm.trans (htasks.filterMap _)

/-- A call that leaves the completed rows alone, as its completion is not taken or it makes
none. -/
theorem Tracks.quiet {s s' : PgTables} {op : ResultBackendOp} (h : Tracks types calls s)
    (hop : types.taken op = true → ∀ group, op.completion group = none)
    (hrows : ∀ group text, s'.completedResult group text = s.completedResult group text) :
    Tracks types (calls ++ [op]) s' where
  rows := by
    intro group task
    rw [hrows, h.rows, kept_snoc]
    by_cases htaken : types.taken op = true
    · rw [if_pos htaken, latest_snoc, hop htaken group]
      rfl
    · rw [if_neg htaken, List.append_nil]
  tasks := by
    intro group text hsome
    rw [hrows] at hsome
    exact h.tasks group text hsome

/-- A completion that is taken. -/
theorem Tracks.upsert {s : PgTables} {group : String} {task : TaskId} {result stored : Json}
    (h : Tracks types calls s) (hrow : types.row group task.toText result = .ok stored) :
    Tracks types (calls ++ [.completeGroupMember group task result])
      (s.upsertMember group task.toText stored) where
  rows := by
    intro g t
    have htaken : types.taken (.completeGroupMember group task result) = true := by
      rw [PgTypes.taken, hrow]
      rfl
    rw [PgTables.completedResult_upsertMember, kept_snoc, if_pos htaken, latest_snoc]
    by_cases hkey : g = group ∧ t = task
    · obtain ⟨rfl, rfl⟩ := hkey
      simp [ResultBackendOp.completion, Option.filter_some, stored_of_row hrow]
    · have hne : ¬ ((g, t.toText) = (group, task.toText)) := by
        intro heq
        obtain ⟨hg, ht⟩ := Prod.mk.inj heq
        exact hkey ⟨hg, toText_injective ht⟩
      rw [if_neg hne, h.rows]
      by_cases hg : group = g
      · have ht : ¬ task = t := fun heq => hkey ⟨hg.symm, heq.symm⟩
        simp [ResultBackendOp.completion, Option.filter_some, hg, ht]
      · simp [ResultBackendOp.completion, hg]
  tasks := by
    intro g text hsome
    rw [PgTables.completedResult_upsertMember] at hsome
    by_cases hkey : (g, text) = (group, task.toText)
    · exact ⟨task, (Prod.mk.inj hkey).2.symm⟩
    · rw [if_neg hkey] at hsome
      exact h.tasks g text hsome

variable (types) in
/-- The loop of `init_group` completes no row. -/
theorem eval_insertPlaceholders (now : DateTime) (group : String) (numbers : List Nat)
    (s : PgTables) :
    ∃ r s', (server types).eval ⟨now, none⟩ (insertPlaceholders group numbers) s = some (r, s') ∧
      ∀ g text, s'.completedResult g text = s.completedResult g text := by
  induction numbers generalizing s with
  | nil => exact ⟨_, _, rfl, fun _ _ => rfl⟩
  | cons i numbers ih =>
      cases hkey : types.key group (placeholderId group i) with
      | error e =>
          have hrespond : (server types).respond ⟨now, none⟩ s
              (.insertPlaceholder group (placeholderId group i)) = some (.error e, s) := by
            simp [server, hkey, settle, Except.map]
          refine ⟨.error (backendErr e), s, ?_, fun _ _ => rfl⟩
          show ((server types).respond ⟨now, none⟩ s
            (.insertPlaceholder group (placeholderId group i))).bind _ = _
          rw [hrespond]
          rfl
      | ok =>
          have hrespond : (server types).respond ⟨now, none⟩ s
              (.insertPlaceholder group (placeholderId group i)) =
                some (.ok (), s.insertPlaceholder group (placeholderId group i)) := by
            simp [server, hkey, settle, Except.map]
          obtain ⟨r, s', heval, hsame⟩ := ih (s.insertPlaceholder group (placeholderId group i))
          refine ⟨r, s', ?_, fun g text => ?_⟩
          · show ((server types).respond ⟨now, none⟩ s
              (.insertPlaceholder group (placeholderId group i))).bind _ = _
            rw [hrespond]
            exact heval
          · rw [hsame, PgTables.completedResult_insertPlaceholder]

/-- A completion whose row is refused. -/
theorem eval_refused {now : DateTime} {s : PgTables} {group : String} {task : TaskId}
    {result : Json} {e : SqlError} (hrow : types.row group task.toText result = .error e) :
    (server types).eval ⟨now, none⟩ (completeGroupMember group task result) s =
      some (.error (backendErr e), s) := by
  have hrespond : (server types).respond ⟨now, none⟩ s
      (.upsertMember group task.toText result) = some (.error e, s) := by
    simp [server, hrow, settle, Except.map]
  show ((server types).respond ⟨now, none⟩ s (.upsertMember group task.toText result)).bind _ = _
  rw [hrespond]
  rfl

/-- A completion whose row is taken: it is counted, with the others. -/
theorem eval_taken {now : DateTime} {s : PgTables} {group : String} {task : TaskId}
    {result stored : Json} (hrow : types.row group task.toText result = .ok stored) :
    (server types).eval ⟨now, none⟩ (completeGroupMember group task result) s =
      some (.ok (UInt32.ofNat ((s.upsertMember group task.toText stored).countMembers group)),
        s.upsertMember group task.toText stored) := by
  have hgroup : bindText group = .ok () := bindText_eq_ok.mpr (PgTypes.nul_of_row hrow).1
  have hrespond : (server types).respond ⟨now, none⟩ s
      (.upsertMember group task.toText result) =
        some (.ok (), s.upsertMember group task.toText stored) := by
    simp [server, hrow, settle, Except.map]
  have hcount : (server types).respond ⟨now, none⟩ (s.upsertMember group task.toText stored)
      (.countMembers group) = some (.ok ((s.upsertMember group task.toText stored).countMembers
        group), s.upsertMember group task.toText stored) := by
    simp [server, hgroup, settle, Except.map]
  show ((server types).respond ⟨now, none⟩ s (.upsertMember group task.toText result)).bind _ = _
  rw [hrespond]
  show ((server types).respond ⟨now, none⟩ (s.upsertMember group task.toText stored)
    (.countMembers group)).bind (fun p =>
      some ((p.1.map UInt32.ofNat).mapError backendErr, p.2)) = _
  rw [hcount]
  rfl

/-- A question for the results. -/
theorem eval_getGroupResults (now : DateTime) (s : PgTables) (group : String) :
    (server types).eval ⟨now, none⟩ (getGroupResults group) s =
      some (((bindText group).map fun _ => s.selectResults group).mapError backendErr, s) := by
  show ((server types).respond ⟨now, none⟩ s (.selectResults group)).bind _ = _
  cases hgroup : bindText group with
  | error e =>
      have hrespond : (server types).respond ⟨now, none⟩ s (.selectResults group) =
          some (.error e, s) := by
        simp [server, hgroup, settle, Except.map]
      rw [hrespond]
      rfl
  | ok =>
      have hrespond : (server types).respond ⟨now, none⟩ s (.selectResults group) =
          some (.ok (s.selectResults group), s) := by
        simp [server, hgroup, settle, Except.map]
      rw [hrespond]
      rfl

/-- Storing a result completes no row. -/
theorem completedResult_of_store {now : DateTime} {s s' : PgTables} {id : TaskId} {result : Json}
    {r : TaskResult Unit} (h : (server types).eval ⟨now, none⟩ (b.store id result) s = some (r, s'))
    (group text : String) : s'.completedResult group text = s.completedResult group text := by
  have hrest : (server types).eval ⟨now, none⟩ (storeUntil id result (expiresAt now b.ttlSecs)) s =
      some (r, s') := h
  cases htime : expiresAt now b.ttlSecs with
  | none =>
      rw [htime] at hrest
      cases hrest
  | some t =>
      rw [htime] at hrest
      obtain ⟨⟨ans, s₂⟩, hupsert, hret⟩ := Option.bind_eq_some_iff.mp
        (show ((server types).respond ⟨now, none⟩ s (.upsertResult id.toText result t)).bind _ =
          some (r, s') from hrest)
      cases hret
      rcases settle_map (Option.some.inj hupsert) with ⟨e, -, -, rfl⟩ | ⟨stored, -, -, rfl⟩ <;> rfl

/-- One call. -/
theorem Tracks.respond {now : DateTime} {s s' : PgTables} {op : ResultBackendOp} {r : op.Res}
    (h : Tracks types calls s) (hrespond : (b.service types).respond now s op = some (r, s')) :
    Answers types calls op r ∧ Tracks types (calls ++ [op]) s' := by
  cases op with
  | store id result =>
      exact ⟨trivial, h.quiet (fun _ _ => rfl) fun group text =>
        completedResult_of_store hrespond group text⟩
  | initGroup group total =>
      obtain ⟨r', s₁, heval, hsame⟩ :=
        eval_insertPlaceholders types now group (List.range total.toNat) s
      have heq : some (r', s₁) = some (r, s') := heval.symm.trans hrespond
      cases heq
      exact ⟨trivial, h.quiet (fun _ _ => rfl) hsame⟩
  | completeGroupMember group task result =>
      have heval : (server types).eval ⟨now, none⟩ (completeGroupMember group task result) s =
          some (r, s') := hrespond
      cases hrow : types.row group task.toText result with
      | error e =>
          rw [eval_refused hrow] at heval
          cases heval
          refine ⟨?_, h.quiet (fun htaken => ?_) fun _ _ => rfl⟩
          · rw [Answers, hrow]
            rfl
          · rw [PgTypes.taken, hrow] at htaken
            cases htaken
      | ok stored =>
          rw [eval_taken hrow] at heval
          cases heval
          have hafter := h.upsert hrow
          refine ⟨?_, hafter⟩
          have hcount := hafter.countMembers group
          have htaken : types.taken (.completeGroupMember group task result) = true := by
            rw [PgTypes.taken, hrow]
            rfl
          rw [kept_snoc, if_pos htaken, tasks_complete] at hcount
          rw [Answers, hrow, hcount]
          rfl
  | getGroupResults group =>
      have heval : (server types).eval ⟨now, none⟩ (getGroupResults group) s = some (r, s') :=
        hrespond
      rw [eval_getGroupResults] at heval
      cases heval
      refine ⟨⟨fun e he => ?_, fun hok hnodup => ⟨_, ?_, h.selectResults hnodup⟩⟩,
        h.quiet (fun _ _ => rfl) fun _ _ => rfl⟩
      · rw [he]
        rfl
      · rw [hok]
        rfl

/-- Every call on groups is answered. -/
theorem answers_every (now : DateTime) (s : PgTables) {op : ResultBackendOp}
    (hop : op.group ≠ none) : ∃ p, (b.service types).respond now s op = some p := by
  cases op with
  | store id result => exact absurd rfl hop
  | initGroup group total =>
      obtain ⟨r, s', heval, -⟩ :=
        eval_insertPlaceholders types now group (List.range total.toNat) s
      exact ⟨_, heval⟩
  | completeGroupMember group task result =>
      cases hrow : types.row group task.toText result with
      | error e => exact ⟨_, eval_refused hrow⟩
      | ok stored => exact ⟨_, eval_taken hrow⟩
  | getGroupResults group => exact ⟨_, eval_getGroupResults now s group⟩

/-- What every history answers. -/
theorem answered {todo : List (DateTime × ResultBackendOp)}
    {history : List (Event resultBackendTrait)} {s : PgTables}
    (h : (b.service types).serve todo PgTables.empty = some (history, s)) :
    Answered (Answers types) [] history :=
  (Service.serve_answered (R := Tracks types) (fun _ _ _ _ _ _ hs => hs.respond) tracks_empty h).1

/-! ## Numbers -/

/-- What PostgreSQL needs of a completion: its row is taken, and there are fewer than `2 ^ 32`
of them. -/
def Taken (types : PgTypes) (calls : List ResultBackendOp) : ResultBackendOp → Prop
  | .completeGroupMember group task result =>
      types.taken (.completeGroupMember group task result) = true ∧
      membersDone group (calls ++ [.completeGroupMember group task result]) < 2 ^ 32
  | _ => True

/-- As long as its calls are like this, all rows are taken. -/
theorem kept_of_throughout (h : Throughout (Taken types) calls) : types.kept calls = calls := by
  induction calls using List.reverseRec with
  | nil => rfl
  | append_singleton calls op ih =>
      obtain ⟨hbefore, hlast⟩ := throughout_snoc.mp h
      have htaken : types.taken op = true := by
        cases op with
        | completeGroupMember group task result => exact hlast.1
        | _ => rfl
      rw [kept_snoc, ih hbefore, if_pos htaken]

/-- One completion: it is counted rightly exactly when its row is taken. -/
theorem counted_iff_taken (calls : List ResultBackendOp) (op : ResultBackendOp) (r : op.Res)
    (h : Throughout (Taken types) calls) (hanswer : Answers types calls op r) :
    Counted calls op r ↔ Taken types calls op := by
  cases op with
  | store id result => exact Iff.rfl
  | initGroup g total => exact Iff.rfl
  | getGroupResults g => exact Iff.rfl
  | completeGroupMember group task result =>
      have hr : r = _ := hanswer
      rw [kept_of_throughout h, ← tasks_complete calls group task result] at hr
      cases hrow : types.row group task.toText result with
      | error e =>
          rw [hrow] at hr
          constructor
          · rintro ⟨count, hcount, -⟩
            rw [hr] at hcount
            cases hcount
          · rintro ⟨htaken, -⟩
            rw [PgTypes.taken, hrow] at htaken
            cases htaken
      | ok stored =>
          rw [hrow] at hr
          constructor
          · rintro ⟨count, hcount, heq⟩
            refine ⟨?_, heq ▸ count.toNat_lt⟩
            rw [PgTypes.taken, hrow]
            rfl
          · rintro ⟨-, hlt⟩
            refine ⟨_, hr, ?_⟩
            rw [UInt32.toNat_ofNat']
            exact Nat.mod_eq_of_lt hlt

/-- When the PostgreSQL backend counts members. -/
theorem countsMembers_iff {todo : List (DateTime × ResultBackendOp)}
    {history : List (Event resultBackendTrait)} {s : PgTables}
    (h : (b.service types).serve todo PgTables.empty = some (history, s)) :
    CountsMembers history ↔ Throughout (Taken types) (callsOf history) :=
  (answered h).iff_throughout counted_iff_taken

end PostgresResultBackend

end Kojin.Postgres
