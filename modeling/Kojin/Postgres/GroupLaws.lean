/-
  Postgres/GroupLaws.lean --- the three result backends side by side.

  Two of them count the completions of a group and one counts the tasks that have
  completed, so they agree as long as no task completes twice.  `group_law_iff` says
  for each of them when its numbers are numbers of tasks.

  `backends_agree_iff` compares them in the histories in which a group is used as a
  workflow uses it, asked for the results of a group at any point:

      in memory    what was completed
      Redis        its text, read again
      PostgreSQL   its JSONB, unless a column refuses the name or the value

  so they agree exactly on what survives all of this.
-/
import Kojin.Postgres.GroupHistory
import Kojin.Redis.GroupHistory

set_option autoImplicit false

namespace Kojin.Postgres

open Kojin.Foundation Kojin.Core Kojin.Redis

variable {σ : Type} [LinearOrder σ]

/-! ## Numbers of tasks -/

/-- Every completion is answered with the number of different tasks that have completed, so
no number reaches the size of a group before as many members have. -/
structure GroupLaw (history : List (Event resultBackendTrait)) : Prop where
  counts : CountsMembers history
  notEarly : ∀ before group task result total after,
    history = before ++ ⟨.completeGroupMember group task result, .ok total⟩ :: after →
    total.toNat ≤ membersDone group (callsOf before ++ [.completeGroupMember group task result])

theorem groupLaw_iff {history : List (Event resultBackendTrait)} {P : Prop}
    (h : CountsMembers history ↔ P) : GroupLaw history ↔ P := by
  rw [← h]
  refine ⟨GroupLaw.counts, fun hcounts => ⟨hcounts, ?_⟩⟩
  rintro before group task result total after rfl
  exact hcounts.not_early

/-- When a group counts distinct members.  In memory exactly as long as every completion is
of a group that has been initialised, by a task that has not completed in it since, while every
other task has that ever completed in it; in Redis as long as no task completes twice in a group;
in PostgreSQL as long as the columns take the row of each completion.  Everywhere fewer than
`2 ^ 32` members have to complete in a group. -/
theorem group_law_iff {b : RedisResultBackend} {decode : RedisResultBackend.Decode}
    {queueOf : String → Except CommandError String} {pg : PostgresResultBackend}
    {types : PgTypes} {clock : Nat} {inMemory inRedis inPostgres : List (Event resultBackendTrait)}
    {todo : List (Unit × ResultBackendOp)} {s : MemoryResultBackend}
    (hmemory : MemoryResultBackend.service.serve todo .new = some (inMemory, s))
    {todo' : List (Nat × ResultBackendOp)} {r : Keyspace σ}
    (hredis : (b.answering σ decode queueOf).serve todo' (Keyspace.empty clock) =
      some (inRedis, r))
    {todo'' : List (DateTime × ResultBackendOp)} {t : PgTables}
    (hpostgres : (pg.service types).serve todo'' PgTables.empty = some (inPostgres, t)) :
    (GroupLaw inMemory ↔ Throughout MemoryResultBackend.Fresh (callsOf inMemory)) ∧
      (GroupLaw inRedis ↔ Throughout RedisResultBackend.New (callsOf inRedis)) ∧
      (GroupLaw inPostgres ↔
        Throughout (PostgresResultBackend.Taken types) (callsOf inPostgres)) :=
  ⟨groupLaw_iff (MemoryResultBackend.countsMembers_iff hmemory),
    groupLaw_iff (RedisResultBackend.countsMembers_iff hredis),
    groupLaw_iff (PostgresResultBackend.countsMembers_iff hpostgres)⟩

/-! ## Histories of given calls -/

/-- The calls of a history that were made. -/
theorem callsOf_serve {S : Service resultBackendTrait} {o : S.Oracle}
    {calls : List ResultBackendOp} {s s' : S.State} {history : List (Event resultBackendTrait)}
    (h : S.serve (calls.map (o, ·)) s = some (history, s')) : callsOf history = calls := by
  have hmap : (calls.map fun op => (o, op)).map Prod.snd = calls := by
    rw [List.map_map]
    exact List.map_id calls
  exact (Service.ops_serve h).trans hmap

/-- Every history of calls, in memory. -/
theorem exists_memory (calls : List ResultBackendOp) :
    ∃ history s, MemoryResultBackend.service.serve (calls.map ((), ·)) .new = some (history, s) ∧
      callsOf history = calls := by
  obtain ⟨⟨history, s⟩, h⟩ := Service.exists_serve (R := MemoryResultBackend.Tracks)
    (fun _ _ _ _ _ _ hs hr => (MemoryResultBackend.Tracks.respond hs hr).2)
    (calls.map ((), ·)) (fun _ _ _ s _ => MemoryResultBackend.answers_every () s _)
    MemoryResultBackend.tracks_new
  exact ⟨history, s, h, callsOf_serve h⟩

/-- In Redis, where no time passes. -/
theorem exists_redis (σ : Type) [LinearOrder σ] (b : RedisResultBackend)
    (decode : RedisResultBackend.Decode) (queueOf : String → Except CommandError String)
    (clock : Nat) (calls : List ResultBackendOp) :
    ∃ history r, (b.answering σ decode queueOf).serve (calls.map ((0 : Nat), ·))
      (Keyspace.empty clock) = some (history, r) ∧ callsOf history = calls := by
  obtain ⟨⟨history, r⟩, h⟩ := Service.exists_serve (S := b.answering σ decode queueOf)
    (R := RedisResultBackend.Tracks b)
    (fun _ _ _ _ _ _ hs hr => (RedisResultBackend.Tracks.respond hs hr).2)
    (calls.map ((0 : Nat), ·)) (fun _ _ _ r _ => RedisResultBackend.answers_every _ r _)
    (RedisResultBackend.tracks_empty clock)
  exact ⟨history, r, h, callsOf_serve h⟩

/-- In PostgreSQL, where no result is stored but in groups. -/
theorem exists_postgres (pg : PostgresResultBackend) (types : PgTypes)
    {calls : List ResultBackendOp} (hgroups : ∀ op ∈ calls, op.group ≠ none) :
    ∃ history t, (pg.service types).serve (calls.map ((⟨0⟩ : DateTime), ·)) PgTables.empty =
      some (history, t) ∧ callsOf history = calls := by
  obtain ⟨⟨history, t⟩, h⟩ := Service.exists_serve (S := pg.service types)
    (R := PostgresResultBackend.Tracks types)
    (fun _ _ _ _ _ _ hs hr => (PostgresResultBackend.Tracks.respond hs hr).2)
    (calls.map ((⟨0⟩ : DateTime), ·)) (fun call hcall _ s _ => by
      obtain ⟨op, hop, rfl⟩ := List.mem_map.mp hcall
      exact PostgresResultBackend.answers_every _ s (hgroups op hop))
    PostgresResultBackend.tracks_empty
  exact ⟨history, t, h, callsOf_serve h⟩

/-! ## A member that completes again -/

/-- The default lifetime, and a JSON library that reads back `null`. -/
def plainBackend : RedisResultBackend := ⟨⟨"kojin"⟩, 86400⟩
def nullDecode : RedisResultBackend.Decode := fun text =>
  if text = Json.print .null then .ok .null else .ok (.bool true)

/-- A group of two, and two completions in it. -/
def twoCompletions (task task' : TaskId) : List ResultBackendOp :=
  [.initGroup "g" 2, .completeGroupMember "g" task .null, .completeGroupMember "g" task' .null]

/-- What they are answered when the second one counts. -/
def bothCounted (task task' : TaskId) : List (Event resultBackendTrait) :=
  [⟨.initGroup "g" 2, .ok ()⟩, ⟨.completeGroupMember "g" task .null, .ok 1⟩,
    ⟨.completeGroupMember "g" task' .null, .ok 2⟩]

theorem serve_memory (task task' : TaskId) :
    ∃ s, MemoryResultBackend.service.serve ((twoCompletions task task').map ((), ·)) .new =
      some (bothCounted task task', s) := ⟨_, rfl⟩

set_option maxRecDepth 10000 in
theorem serve_redis (task task' : TaskId) :
    ∃ r, (plainBackend.answering Nat nullDecode fun _ => .ok "q").serve
      ((twoCompletions task task').map ((0 : Nat), ·)) (Keyspace.empty 0) =
        some (bothCounted task task', r) := ⟨_, rfl⟩


/-- A group that is initialised again after its first completion, and three completions. -/
def againCalls (first second third : TaskId) : List ResultBackendOp :=
  [.initGroup "g" 2, .completeGroupMember "g" first .null, .initGroup "g" 2,
    .completeGroupMember "g" second .null, .completeGroupMember "g" third .null]

theorem fresh_again : Throughout MemoryResultBackend.Fresh (againCalls ⟨1⟩ ⟨1⟩ ⟨2⟩) := by
  show Throughout _ ([] ++ [_] ++ [_] ++ [_] ++ [_] ++ [_])
  simp only [throughout_snoc, throughout_nil, true_and]
  have hfew : ∀ calls : List ResultBackendOp, calls.length ≤ 5 → membersDone "g" calls < 2 ^ 32 :=
    fun calls hle => ((membersDone_le "g" calls).trans hle).trans_lt (by decide)
  exact ⟨⟨⟨⟨trivial, ⟨[], rfl, by simp, by simp [completionsIn, ResultBackendOp.completion]⟩,
        hfew _ (by decide)⟩, trivial⟩,
      ⟨[], rfl, by simp, by simp [completionsIn, ResultBackendOp.completion]⟩, hfew _ (by decide)⟩,
    ⟨[(⟨1⟩, .null)], rfl, by simp, by simp [completionsIn, ResultBackendOp.completion]⟩,
    hfew _ (by decide)⟩

theorem new_two : Throughout RedisResultBackend.New (twoCompletions ⟨1⟩ ⟨2⟩) := by
  show Throughout _ ([] ++ [_] ++ [_] ++ [_])
  simp only [throughout_snoc, throughout_nil, true_and]
  have hfew : ∀ calls : List ResultBackendOp, calls.length ≤ 3 → membersDone "g" calls < 2 ^ 32 :=
    fun calls hle => ((membersDone_le "g" calls).trans hle).trans_lt (by decide)
  exact ⟨⟨trivial, by simp [completionsIn, ResultBackendOp.completion], hfew _ (by decide)⟩,
    by simp [completionsIn, ResultBackendOp.completion], hfew _ (by decide)⟩

theorem taken_again :
    Throughout (PostgresResultBackend.Taken .plain) (againCalls ⟨1⟩ ⟨1⟩ ⟨2⟩) := by
  show Throughout _ ([] ++ [_] ++ [_] ++ [_] ++ [_] ++ [_])
  simp only [throughout_snoc, throughout_nil, true_and]
  have hfew : ∀ calls : List ResultBackendOp, calls.length ≤ 5 → membersDone "g" calls < 2 ^ 32 :=
    fun calls hle => ((membersDone_le "g" calls).trans hle).trans_lt (by decide)
  exact ⟨⟨⟨⟨trivial, by decide, hfew _ (by decide)⟩, trivial⟩, by decide, hfew _ (by decide)⟩,
    by decide, hfew _ (by decide)⟩

/-- A member that completes before and after its group is initialised again, in memory and in
PostgreSQL, and two members in Redis. -/
theorem group_law_iff_again : ∃ inMemory inRedis inPostgres,
    callsOf inMemory = againCalls ⟨1⟩ ⟨1⟩ ⟨2⟩ ∧ callsOf inRedis = twoCompletions ⟨1⟩ ⟨2⟩ ∧
      callsOf inPostgres = againCalls ⟨1⟩ ⟨1⟩ ⟨2⟩ ∧
      GroupLaw inMemory ∧ GroupLaw inRedis ∧ GroupLaw inPostgres := by
  obtain ⟨inMemory, s, hmemory, hcalls⟩ := exists_memory (againCalls ⟨1⟩ ⟨1⟩ ⟨2⟩)
  obtain ⟨inRedis, r, hredis, hcalls'⟩ := exists_redis Nat plainBackend nullDecode
    (fun _ => .ok "q") 0 (twoCompletions ⟨1⟩ ⟨2⟩)
  have hgroups : ∀ op ∈ againCalls ⟨1⟩ ⟨1⟩ ⟨2⟩, op.group ≠ none := by
    simp [againCalls, ResultBackendOp.group]
  obtain ⟨inPostgres, t, hpostgres, hcalls''⟩ := exists_postgres ⟨86400⟩ .plain hgroups
  have hlaws := group_law_iff hmemory hredis hpostgres
  rw [hcalls, hcalls', hcalls''] at hlaws
  exact ⟨inMemory, inRedis, inPostgres, hcalls, hcalls', hcalls'', hlaws.1.mpr fresh_again,
    hlaws.2.1.mpr new_two, hlaws.2.2.mpr taken_again⟩

/-- A member that completes twice is counted twice, in memory and in Redis: the
group of two is full with one member. -/
theorem repeat_counted :
    (∃ s, MemoryResultBackend.service.serve ((twoCompletions ⟨1⟩ ⟨1⟩).map ((), ·)) .new =
      some (bothCounted ⟨1⟩ ⟨1⟩, s)) ∧
    (∃ r, (plainBackend.answering Nat nullDecode fun _ => .ok "q").serve
      ((twoCompletions ⟨1⟩ ⟨1⟩).map ((0 : Nat), ·)) (Keyspace.empty 0) =
        some (bothCounted ⟨1⟩ ⟨1⟩, r)) ∧
    ¬ GroupLaw (bothCounted ⟨1⟩ ⟨1⟩) := by
  refine ⟨serve_memory ⟨1⟩ ⟨1⟩, serve_redis ⟨1⟩ ⟨1⟩, fun hlaw => ?_⟩
  have hcount := hlaw.notEarly _ "g" ⟨1⟩ .null 2 []
    (show bothCounted ⟨1⟩ ⟨1⟩ = [⟨.initGroup "g" 2, .ok ()⟩,
      ⟨.completeGroupMember "g" ⟨1⟩ .null, .ok 1⟩] ++ [_] from rfl)
  simp [membersDone, completionsIn, List.filterMap_cons, callOf, ResultBackendOp.completion]
    at hcount

/-! ## Groups used as workflows use them -/

/-- A group is initialised before any other call names it, and only initialised groups
are named. -/
def Announced (before : List ResultBackendOp) : ResultBackendOp → Prop
  | .store _ _ => False
  | .initGroup group _ => ∀ op ∈ before, op.group ≠ some group
  | .completeGroupMember group _ _ => ∃ total, .initGroup group total ∈ before
  | .getGroupResults group => ∃ total, .initGroup group total ∈ before

/-- The task that a call completes. -/
def completedTask : ResultBackendOp → Option TaskId
  | .completeGroupMember _ task _ => some task
  | _ => none

/-- The tasks that complete in a history, in any group. -/
def completedIn (calls : List ResultBackendOp) : List TaskId := calls.filterMap completedTask

theorem completedIn_append (calls calls' : List ResultBackendOp) :
    completedIn (calls ++ calls') = completedIn calls ++ completedIn calls' :=
  List.filterMap_append

theorem completedIn_cons (op : ResultBackendOp) (calls : List ResultBackendOp) :
    completedIn (op :: calls) = (completedTask op).toList ++ completedIn calls := by
  cases op <;> rfl

/-- Each group is initialised once, before it is used, and every completed task is
another one. -/
structure Proper (calls : List ResultBackendOp) : Prop where
  announced : Throughout Announced calls
  distinct : (completedIn calls).Nodup

section Proper

variable {calls before : List ResultBackendOp} {group : String}

theorem Proper.left (h : Proper calls) (hbefore : before <+: calls) : Proper before where
  announced first op hfirst := h.announced first op (hfirst.trans hbefore)
  distinct := by
    obtain ⟨rest, rfl⟩ := hbefore
    have hdistinct := h.distinct
    rw [completedIn_append] at hdistinct
    exact hdistinct.of_append_left

/-- Asking for the results of a group. -/
theorem Proper.ask (h : Proper calls) {total : UInt32} (hinit : .initGroup group total ∈ calls) :
    Proper (calls ++ [.getGroupResults group]) where
  announced := throughout_snoc.mpr ⟨h.announced, total, hinit⟩
  distinct := by
    rw [completedIn_append, completedIn_cons]
    simpa [completedTask, completedIn] using h.distinct

/-- All calls are about groups. -/
theorem Proper.groups (h : Proper calls) : ∀ op ∈ calls, op.group ≠ none := by
  intro op hop
  obtain ⟨first, rest, rfl⟩ := List.append_of_mem hop
  have hannounced := h.announced first op ⟨rest, by simp⟩
  cases op with
  | store id result => exact hannounced.elim
  | _ => exact Option.some_ne_none _

theorem completionsIn_eq_nil (h : ∀ op ∈ calls, op.group ≠ some group) :
    completionsIn group calls = [] := by
  refine List.filterMap_eq_nil_iff.mpr fun op hop => ?_
  cases op with
  | completeGroupMember g task result =>
      have hg : ¬ g = group := fun heq => h _ hop (congrArg some heq)
      simp [ResultBackendOp.completion, hg]
  | _ => rfl

/-- In memory a group holds what has completed in it. -/
theorem sinceInit_of_announced (h : Throughout Announced calls) :
    (sinceInit group calls = none ∧ ∀ total, .initGroup group total ∉ calls) ∨
      sinceInit group calls = some (completionsIn group calls) := by
  induction calls using List.reverseRec with
  | nil => exact .inl ⟨rfl, fun _ => List.not_mem_nil⟩
  | append_singleton calls op ih =>
      obtain ⟨hbefore, hannounced⟩ := throughout_snoc.mp h
      have hcases := ih hbefore
      rw [sinceInit_snoc, completionsIn_snoc]
      cases op with
      | store id result => exact hannounced.elim
      | getGroupResults g =>
          simpa [ResultBackendOp.track, ResultBackendOp.completion] using hcases
      | initGroup g total =>
          by_cases hg : g = group
          · subst hg
            simp [ResultBackendOp.track, ResultBackendOp.completion,
              completionsIn_eq_nil hannounced]
          · simpa [ResultBackendOp.track, ResultBackendOp.completion, hg, Ne.symm hg] using hcases
      | completeGroupMember g task result =>
          by_cases hg : g = group
          · subst hg
            obtain ⟨total, hinit⟩ := hannounced
            rcases hcases with ⟨-, hno⟩ | hsome
            · exact absurd hinit (hno total)
            · simp [ResultBackendOp.track, ResultBackendOp.completion, hsome]
          · simpa [ResultBackendOp.track, ResultBackendOp.completion, hg] using hcases

theorem Proper.sinceInit (h : Proper calls) {total : UInt32}
    (hinit : .initGroup group total ∈ calls) :
    sinceInit group calls = some (completionsIn group calls) :=
  (sinceInit_of_announced h.announced).resolve_left fun hno => hno.2 total hinit

/-- The tasks of one group are among them. -/
theorem completionsIn_sublist :
    ((completionsIn group calls).map Prod.fst).Sublist (completedIn calls) := by
  induction calls with
  | nil => exact .slnil
  | cons op calls ih =>
      rw [completionsIn_cons, List.map_append, completedIn_cons]
      cases op with
      | completeGroupMember g task result =>
          by_cases hg : g = group
          · simpa [completedTask, ResultBackendOp.completion, hg] using ih
          · simpa [completedTask, ResultBackendOp.completion, hg] using ih.cons task
      | _ => simpa [completedTask, ResultBackendOp.completion] using ih

theorem Proper.nodup (h : Proper calls) (group : String) :
    ((completionsIn group calls).map Prod.fst).Nodup := h.distinct.sublist completionsIn_sublist

end Proper

/-! ## What the backends answer then -/

/-- Two answers to one call: the same number, or the same results in another order. -/
inductive Alike : Event resultBackendTrait → Event resultBackendTrait → Prop where
  | init (group : String) (total : UInt32) (r r' : TaskResult Unit) :
      Alike ⟨.initGroup group total, r⟩ ⟨.initGroup group total, r'⟩
  | complete (group : String) (task : TaskId) (result : Json) (count : UInt32) :
      Alike ⟨.completeGroupMember group task result, .ok count⟩
        ⟨.completeGroupMember group task result, .ok count⟩
  | results (group : String) {results results' : List Json} (h : results.Perm results') :
      Alike ⟨.getGroupResults group, .ok results⟩ ⟨.getGroupResults group, .ok results'⟩

/-- A completion is answered with the next number of its group. -/
def Numbered (calls : List ResultBackendOp) : (op : ResultBackendOp) → op.Res → Prop
  | .completeGroupMember group _ _, r => ∃ count, r = .ok count ∧
      count.toNat = (completionsIn group calls).length + 1
  | _, _ => True

/-- Three histories of the same calls in which the numbers and the results agree, and the
numbers are 1, 2, 3 and so on in each group. -/
structure Agree (inMemory inRedis inPostgres : List (Event resultBackendTrait)) : Prop where
  redis : List.Forall₂ Alike inMemory inRedis
  postgres : List.Forall₂ Alike inMemory inPostgres
  numbered : Answered Numbered [] inMemory

/-- The answer that all three backends give, as long as everything survives. -/
def Expected (calls : List ResultBackendOp) : (op : ResultBackendOp) → op.Res → Prop
  | .store _ _, _ => False
  | .initGroup _ _, _ => True
  | .completeGroupMember group _ _, r =>
      r = .ok (UInt32.ofNat ((completionsIn group calls).length + 1))
  | .getGroupResults group, r =>
      ∃ results, r = .ok results ∧ results.Perm ((completionsIn group calls).map Prod.snd)

/-- What survives the way through Redis and PostgreSQL: the text of every result is read as the
result, its row is taken and JSONB gives the result back; no name of a group has U+0000; and
fewer than `2 ^ 32` members complete in a group. -/
structure Survives (decode : RedisResultBackend.Decode) (types : PgTypes)
    (calls : List ResultBackendOp) : Prop where
  text : ∀ group task result, .completeGroupMember group task result ∈ calls →
    decode result.print = .ok result
  row : ∀ group task result, .completeGroupMember group task result ∈ calls →
    types.row group task.toText result = .ok result
  name : ∀ group total, .initGroup group total ∈ calls → bindText group = .ok ()
  few : ∀ group, (completionsIn group calls).length < 2 ^ 32

section Expected

variable {decode : RedisResultBackend.Decode} {types : PgTypes}
  {history : List (Event resultBackendTrait)} {calls before : List ResultBackendOp}
  {group : String}

theorem Survives.left (h : Survives decode types calls) (hbefore : before <+: calls) :
    Survives decode types before where
  text group task result hmem := h.text group task result (hbefore.subset hmem)
  row group task result hmem := h.row group task result (hbefore.subset hmem)
  name group total hmem := h.name group total (hbefore.subset hmem)
  few group := by
    obtain ⟨rest, rfl⟩ := hbefore
    have hlength := h.few group
    rw [completionsIn, List.filterMap_append, List.length_append] at hlength
    exact (Nat.le_add_right _ _).trans_lt hlength

/-- Asking for the results changes nothing of this. -/
theorem Survives.ask (h : Survives decode types calls) (group : String) :
    Survives decode types (calls ++ [.getGroupResults group]) where
  text g task result hmem := h.text g task result (by simpa using hmem)
  row g task result hmem := h.row g task result (by simpa using hmem)
  name g total hmem := h.name g total (by simpa using hmem)
  few g := by
    rw [completionsIn_snoc]
    simpa [ResultBackendOp.completion] using h.few g

/-- A group is initialised whose name is taken. -/
theorem Survives.init (h : Survives decode types calls) {total : UInt32}
    (hname : bindText group = .ok ()) :
    Survives decode types (calls ++ [.initGroup group total]) where
  text g task result hmem := h.text g task result (by simpa using hmem)
  row g task result hmem := h.row g task result (by simpa using hmem)
  name g n hmem := by
    rcases List.mem_append.mp hmem with hmem | hmem
    · exact h.name g n hmem
    · cases List.mem_singleton.mp hmem
      exact hname
  few g := by
    rw [completionsIn_snoc]
    simpa [ResultBackendOp.completion] using h.few g

/-- A member completes whose result survives. -/
theorem Survives.complete (h : Survives decode types calls) {task : TaskId} {result : Json}
    (hlast : decode result.print = .ok result ∧ types.row group task.toText result = .ok result ∧
      (completionsIn group calls).length + 1 < 2 ^ 32) :
    Survives decode types (calls ++ [.completeGroupMember group task result]) where
  text g t v hmem := by
    rcases List.mem_append.mp hmem with hmem | hmem
    · exact h.text g t v hmem
    · cases List.mem_singleton.mp hmem
      exact hlast.1
  row g t v hmem := by
    rcases List.mem_append.mp hmem with hmem | hmem
    · exact h.row g t v hmem
    · cases List.mem_singleton.mp hmem
      exact hlast.2.1
  name g total hmem := h.name g total (by simpa using hmem)
  few g := by
    by_cases hg : group = g
    · subst hg
      rw [length_complete]
      exact hlast.2.2
    · rw [completionsIn_snoc]
      simpa [ResultBackendOp.completion, hg] using h.few g

/-- A completion of a group is one of the calls. -/
theorem mem_of_completion {e : TaskId × Json} (he : e ∈ completionsIn group calls) :
    .completeGroupMember group e.1 e.2 ∈ calls := by
  obtain ⟨op, hop, heq⟩ := List.mem_filterMap.mp he
  cases op with
  | completeGroupMember g task result =>
      by_cases hg : g = group
      · simp only [ResultBackendOp.completion, hg, if_true, Option.some.injEq] at heq
        subst heq hg
        exact hop
      · simp [ResultBackendOp.completion, hg] at heq
  | _ => cases heq

/-- What survives is taken and comes back. -/
theorem Survives.kept (h : Survives decode types calls) : types.kept calls = calls := by
  refine kept_of_taken fun op hop => ?_
  cases op with
  | completeGroupMember g task result =>
      rw [PgTypes.taken, h.row g task result hop]
      rfl
  | _ => rfl

theorem Survives.stored (h : Survives decode types calls) :
    (completionsIn group calls).map (fun e => types.stored e.2) =
      (completionsIn group calls).map Prod.snd :=
  List.map_congr_left fun _ he => stored_of_row (h.row _ _ _ (mem_of_completion he))

theorem Survives.texts (h : Survives decode types calls) :
    ((completionsIn group calls).map (Json.print ∘ Prod.snd)).mapM
      (fun s => (decode s).mapError KojinError.serialization) =
        .ok ((completionsIn group calls).map Prod.snd) := by
  rw [← List.map_map]
  refine RedisResultBackend.decode_results fun x hx => ?_
  obtain ⟨e, he, rfl⟩ := List.mem_map.mp hx
  exact h.text _ _ _ (mem_of_completion he)

theorem expected_memory (hproper : Proper (callsOf history))
    (h : Answered MemoryResultBackend.Answers [] history) : Answered Expected [] history := by
  refine h.mono fun before op r hbefore hanswer => ?_
  have hannounced : Announced before op := hproper.announced before op hbefore
  have hbefore' : Proper before :=
    hproper.left ((List.prefix_append before [op]).trans hbefore)
  cases op with
  | store id result => exact hannounced.elim
  | initGroup group total => trivial
  | completeGroupMember group task result =>
      obtain ⟨total, hinit⟩ := hannounced
      have hr : r = _ := hanswer
      rw [hbefore'.sinceInit hinit] at hr
      exact hr
  | getGroupResults group =>
      obtain ⟨total, hinit⟩ := hannounced
      have hr : r = _ := hanswer
      rw [hbefore'.sinceInit hinit] at hr
      exact ⟨_, hr, .refl _⟩

theorem expected_redis (hproper : Proper (callsOf history))
    (hsurvives : Survives decode types (callsOf history))
    (h : Answered (RedisResultBackend.Answers decode) [] history) :
    Answered Expected [] history := by
  refine h.mono fun before op r hbefore hanswer => ?_
  have hannounced : Announced before op := hproper.announced before op hbefore
  have hbefore' : Survives decode types before :=
    hsurvives.left ((List.prefix_append before [op]).trans hbefore)
  cases op with
  | store id result => exact hannounced.elim
  | initGroup group total => trivial
  | completeGroupMember group task result =>
      exact hanswer (by have := hbefore'.few group; omega)
  | getGroupResults group =>
      exact ⟨_, (hanswer (by have := hbefore'.few group; omega)).trans hbefore'.texts, .refl _⟩

theorem expected_postgres (hproper : Proper (callsOf history))
    (hsurvives : Survives decode types (callsOf history))
    (h : Answered (PostgresResultBackend.Answers types) [] history) :
    Answered Expected [] history := by
  refine h.mono fun before op r hbefore hanswer => ?_
  have hannounced : Announced before op := hproper.announced before op hbefore
  have hshort : before <+: callsOf history := (List.prefix_append before [op]).trans hbefore
  have hbefore' : Survives decode types before := hsurvives.left hshort
  cases op with
  | store id result => exact hannounced.elim
  | initGroup group total => trivial
  | completeGroupMember group task result =>
      have hnodup : ((completionsIn group before).map Prod.fst ++ [task]).Nodup :=
        tasks_complete before group task result ▸ (hproper.left hbefore).nodup group
      have hr : r = _ := hanswer
      have hmem : .completeGroupMember group task result ∈ callsOf history :=
        hbefore.subset (List.mem_append.mpr (.inr List.mem_cons_self))
      rw [hsurvives.row group task result hmem, hbefore'.kept, hnodup.dedup,
        List.length_append, List.length_map, List.length_singleton] at hr
      exact hr
  | getGroupResults group =>
      obtain ⟨total, hinit⟩ := hannounced
      have hnodup := (hproper.left hshort).nodup group
      rw [← hbefore'.kept] at hnodup
      obtain ⟨results, hr, hperm⟩ := hanswer.2 (hbefore'.name group total hinit) hnodup
      rw [hbefore'.kept, hbefore'.stored] at hperm
      exact ⟨results, hr, hperm⟩

/-- Two answers that are both as expected. -/
theorem alike_of_expected (calls : List ResultBackendOp) (op : ResultBackendOp) (r r' : op.Res)
    (h : Expected calls op r) (h' : Expected calls op r') : Alike ⟨op, r⟩ ⟨op, r'⟩ := by
  cases op with
  | store id result => exact h.elim
  | initGroup group total => exact .init group total r r'
  | completeGroupMember group task result =>
      obtain rfl : r = _ := h
      obtain rfl : r' = _ := h'
      exact .complete group task result _
  | getGroupResults group =>
      obtain ⟨results, rfl, hperm⟩ := h
      obtain ⟨results', rfl, hperm'⟩ := h'
      exact .results group (hperm.trans hperm'.symm)

/-- Answers that are as expected are numbered. -/
theorem numbered_of_expected (hsurvives : Survives decode types (callsOf history))
    (h : Answered Expected [] history) : Answered Numbered [] history := by
  refine h.mono fun before op r hbefore hexpected => ?_
  cases op with
  | completeGroupMember group task result =>
      have hfew : (completionsIn group before).length + 1 < 2 ^ 32 :=
        lt_of_eq_of_lt (length_complete before group task result).symm
          ((hsurvives.left hbefore).few group)
      refine ⟨_, hexpected, ?_⟩
      rw [UInt32.toNat_ofNat']
      exact Nat.mod_eq_of_lt hfew
  | _ => trivial

end Expected

/-! ## Agreement -/

section Agreement

variable (σ) (b : RedisResultBackend) (decode : RedisResultBackend.Decode)
  (queueOf : String → Except CommandError String) (pg : PostgresResultBackend) (types : PgTypes)
  (clock : Nat)

/-- Three histories of these calls, however long the commands of Redis take and whatever the
clock reads. -/
structure Histories (calls : List ResultBackendOp)
    (inMemory inRedis inPostgres : List (Event resultBackendTrait)) : Prop where
  memory : ∃ todo s, MemoryResultBackend.service.serve todo .new = some (inMemory, s) ∧
    callsOf inMemory = calls
  redis : ∃ todo r, (b.answering σ decode queueOf).serve todo (Keyspace.empty clock) =
    some (inRedis, r) ∧ callsOf inRedis = calls
  postgres : ∃ todo t, (pg.service types).serve todo PgTables.empty = some (inPostgres, t) ∧
    callsOf inPostgres = calls

/-- At every point of these calls, and whichever group is asked for its results then, the
histories agree. -/
def AgreeThroughout (calls : List ResultBackendOp) : Prop :=
  ∀ before group total, before <+: calls → .initGroup group total ∈ before →
    ∀ inMemory inRedis inPostgres,
      Histories σ b decode queueOf pg types clock (before ++ [.getGroupResults group])
        inMemory inRedis inPostgres →
      Agree inMemory inRedis inPostgres

variable {σ b decode queueOf pg types clock} {calls : List ResultBackendOp}
  {inMemory inRedis inPostgres : List (Event resultBackendTrait)}

theorem Histories.answered (h : Histories σ b decode queueOf pg types clock calls
    inMemory inRedis inPostgres) :
    Answered MemoryResultBackend.Answers [] inMemory ∧
      Answered (RedisResultBackend.Answers decode) [] inRedis ∧
      Answered (PostgresResultBackend.Answers types) [] inPostgres := by
  obtain ⟨todo, s, hmemory, -⟩ := h.memory
  obtain ⟨todo', r, hredis, -⟩ := h.redis
  obtain ⟨todo'', t, hpostgres, -⟩ := h.postgres
  exact ⟨MemoryResultBackend.answered hmemory, RedisResultBackend.answered hredis,
    PostgresResultBackend.answered hpostgres⟩

theorem Histories.callsOf_eq (h : Histories σ b decode queueOf pg types clock calls
    inMemory inRedis inPostgres) :
    callsOf inMemory = calls ∧ callsOf inRedis = calls ∧ callsOf inPostgres = calls :=
  ⟨h.memory.choose_spec.choose_spec.2, h.redis.choose_spec.choose_spec.2,
    h.postgres.choose_spec.choose_spec.2⟩

variable (σ b decode queueOf pg types clock) in
/-- There are such histories. -/
theorem exists_histories (hproper : Proper calls) : ∃ inMemory inRedis inPostgres,
    Histories σ b decode queueOf pg types clock calls inMemory inRedis inPostgres := by
  obtain ⟨inMemory, s, hmemory, hcalls⟩ := exists_memory calls
  obtain ⟨inRedis, r, hredis, hcalls'⟩ := exists_redis σ b decode queueOf clock calls
  obtain ⟨inPostgres, t, hpostgres, hcalls''⟩ := exists_postgres pg types hproper.groups
  exact ⟨inMemory, inRedis, inPostgres, ⟨⟨_, s, hmemory, hcalls⟩, ⟨_, r, hredis, hcalls'⟩,
    ⟨_, t, hpostgres, hcalls''⟩⟩⟩

/-- Histories of calls that survive agree. -/
theorem agree_of_survives (hproper : Proper calls) (hsurvives : Survives decode types calls)
    (h : Histories σ b decode queueOf pg types clock calls inMemory inRedis inPostgres) :
    Agree inMemory inRedis inPostgres := by
  obtain ⟨hmemory, hredis, hpostgres⟩ := h.answered
  obtain ⟨hcalls, hcalls', hcalls''⟩ := h.callsOf_eq
  have hexpected := expected_memory (hcalls ▸ hproper) hmemory
  have hexpected' := expected_redis (hcalls' ▸ hproper) (hcalls' ▸ hsurvives) hredis
  have hexpected'' := expected_postgres (hcalls'' ▸ hproper) (hcalls'' ▸ hsurvives) hpostgres
  exact ⟨hexpected.forall₂ alike_of_expected hexpected' (hcalls.trans hcalls'.symm),
    hexpected.forall₂ alike_of_expected hexpected'' (hcalls.trans hcalls''.symm),
    numbered_of_expected (hcalls ▸ hsurvives) hexpected⟩

/-- The last answer of a history. -/
theorem answered_last {A : List ResultBackendOp → (op : ResultBackendOp) → op.Res → Prop}
    {history : List (Event resultBackendTrait)} {op : ResultBackendOp} (h : Answered A [] history)
    (hcalls : callsOf history = calls ++ [op]) :
    ∃ front r, history = front ++ [⟨op, r⟩] ∧ callsOf front = calls ∧ Answered A [] front ∧
      A calls op r := by
  rcases List.eq_nil_or_concat' history with rfl | ⟨front, e, rfl⟩
  · simp at hcalls
  · rw [callsOf_append] at hcalls
    obtain ⟨rfl, hop⟩ := List.append_inj' hcalls rfl
    obtain ⟨op', r⟩ := e
    cases hop
    obtain ⟨hfront, hlast⟩ := answered_snoc.mp h
    exact ⟨front, r, rfl, rfl, hfront, hlast⟩

/-- Lists that are related element by element, but for their last elements. -/
theorem forall₂_snoc {α β : Type} {R : α → β → Prop} {xs : List α} {ys : List β} {x : α} {y : β}
    (h : List.Forall₂ R (xs ++ [x]) (ys ++ [y])) : List.Forall₂ R xs ys ∧ R x y := by
  have hlength : xs.length = ys.length := by simpa using h.length_eq
  have hfront := List.forall₂_take xs.length h
  have hback := List.forall₂_drop xs.length h
  rw [List.take_left, hlength, List.take_left] at hfront
  rw [List.drop_left, hlength, List.drop_left] at hback
  exact ⟨hfront, (List.forall₂_cons.mp hback).1⟩

/-- Results that are the same but for their order, and all the same but for the last. -/
theorem eq_of_perm_snoc {α : Type} {xs ys zs : List α} {x y : α} (h : zs.Perm (xs ++ [x]))
    (h' : ys.Perm (xs ++ [y])) (heq : zs.Perm ys) : x = y := by
  have hperm := h.symm.trans (heq.trans h')
  have hlast := (List.perm_append_left_iff xs).mp hperm
  exact List.singleton_injective (List.perm_singleton.mp hlast)

/-- The results of a group after one more completion. -/
theorem results_snoc (calls : List ResultBackendOp) (group : String) (task : TaskId)
    (result : Json) :
    completionsIn group (calls ++ [.completeGroupMember group task result]) =
      completionsIn group calls ++ [(task, result)] := by
  rw [completionsIn_snoc]
  simp [ResultBackendOp.completion]

/-- Texts that are all read, the last one included. -/
theorem read_last {texts : List String} {text : String} {vs results : List Json}
    (hread : texts.mapM (fun s => (decode s).mapError KojinError.serialization) = .ok vs)
    (hall : (texts ++ [text]).mapM (fun s => (decode s).mapError KojinError.serialization) =
      .ok results) : ∃ v, decode text = .ok v ∧ results = vs ++ [v] := by
  rw [List.mapM_append, hread] at hall
  cases hlast : decode text with
  | error e =>
      simp only [List.mapM_cons, hlast] at hall
      cases hall
  | ok v =>
      simp only [List.mapM_cons, hlast] at hall
      cases hall
      exact ⟨v, rfl, rfl⟩

/-- If the histories agree on the results of a group, its name is taken. -/
theorem name_of_agree {group : String}
    (h : Histories σ b decode queueOf pg types clock (calls ++ [.getGroupResults group])
      inMemory inRedis inPostgres)
    (hagree : Agree inMemory inRedis inPostgres) : bindText group = .ok () := by
  obtain ⟨hmemory, -, hpostgres⟩ := h.answered
  obtain ⟨hcalls, -, hcalls''⟩ := h.callsOf_eq
  obtain ⟨m, r, rfl, -, -, -⟩ := answered_last hmemory hcalls
  obtain ⟨m'', r'', rfl, -, -, hlast''⟩ := answered_last hpostgres hcalls''
  obtain ⟨-, hresults⟩ := forall₂_snoc hagree.postgres
  cases hresults
  cases hname : bindText group with
  | ok => rfl
  | error e =>
      have hr := hlast''.1 e hname
      cases hr

section Last

variable {group : String} {task : TaskId} {result : Json} {results results' : List Json}

/-- In memory the results of a group are those completed so far. -/
theorem memory_results (hproper : Proper (calls ++ [.completeGroupMember group task result]))
    (h : MemoryResultBackend.Answers (calls ++ [.completeGroupMember group task result])
      (.getGroupResults group) (.ok results)) :
    results = (completionsIn group calls).map Prod.snd ++ [result] := by
  obtain ⟨total, hinit⟩ := (throughout_snoc.mp hproper.announced).2
  have hr : Except.ok results = _ := h
  rw [hproper.sinceInit (List.mem_append.mpr (.inl hinit)), results_snoc] at hr
  exact (Except.ok.inj hr).trans List.map_append

/-- If Redis has the same results, the last one was read as it was completed. -/
theorem text_of_perm (hbefore : Survives decode types calls)
    (h : RedisResultBackend.Answers decode (calls ++ [.completeGroupMember group task result])
      (.getGroupResults group) (.ok results'))
    (hperm : ((completionsIn group calls).map Prod.snd ++ [result]).Perm results')
    (hfew : (completionsIn group calls).length + 1 < 2 ^ 32) : decode result.print = .ok result := by
  have hr : Except.ok results' = _ := h (by rw [length_complete]; omega)
  rw [results_snoc, List.map_append] at hr
  obtain ⟨v, hv, rfl⟩ := read_last hbefore.texts hr.symm
  have hsame : result = v := eq_of_perm_snoc (.refl _) (.refl _) hperm
  exact hsame ▸ hv

/-- If PostgreSQL has the same results, JSONB gave back the last one. -/
theorem row_of_perm (hproper : Proper (calls ++ [.completeGroupMember group task result]))
    (hbefore : Survives decode types calls) {stored : Json}
    (hrow : types.row group task.toText result = .ok stored)
    (h : PostgresResultBackend.Answers types (calls ++ [.completeGroupMember group task result])
      (.getGroupResults group) (.ok results'))
    (hperm : ((completionsIn group calls).map Prod.snd ++ [result]).Perm results') :
    stored = result := by
  have htaken : types.taken (.completeGroupMember group task result) = true := by
    rw [PgTypes.taken, hrow]
    rfl
  have hkept : types.kept (calls ++ [.completeGroupMember group task result]) =
      calls ++ [.completeGroupMember group task result] := by
    rw [kept_snoc, if_pos htaken, hbefore.kept]
  have hnodup := hproper.nodup group
  rw [← hkept] at hnodup
  obtain ⟨rs, hrs, hsame⟩ := h.2 (bindText_eq_ok.mpr (PgTypes.nul_of_row hrow).1) hnodup
  cases hrs
  rw [hkept, results_snoc, List.map_append, hbefore.stored] at hsame
  exact (eq_of_perm_snoc (.refl _) hsame hperm |>.trans (stored_of_row hrow)).symm

/-- One completion survives if the histories agree after it, and the calls before it have
survived. -/
theorem survives_completion
    (hproper : Proper (calls ++ [.completeGroupMember group task result]))
    (hbefore : Survives decode types calls)
    (h : Histories σ b decode queueOf pg types clock
      (calls ++ [.completeGroupMember group task result] ++ [.getGroupResults group])
      inMemory inRedis inPostgres)
    (hagree : Agree inMemory inRedis inPostgres) :
    decode result.print = .ok result ∧ types.row group task.toText result = .ok result ∧
      (completionsIn group calls).length + 1 < 2 ^ 32 := by
  obtain ⟨hmemory, hredis, hpostgres⟩ := h.answered
  obtain ⟨hcalls, hcalls', hcalls''⟩ := h.callsOf_eq
  -- the last two answers of each history, and how they are related
  obtain ⟨m, r₂, rfl, hm, hmemory', hlast⟩ := answered_last hmemory hcalls
  obtain ⟨front, r₁, rfl, hfront, -, -⟩ := answered_last hmemory' hm
  obtain ⟨m', r₂', rfl, hm', hredis', hlast'⟩ := answered_last hredis hcalls'
  obtain ⟨m'', r₂'', rfl, hm'', hpostgres', hlast''⟩ := answered_last hpostgres hcalls''
  obtain ⟨front'', r₁'', rfl, -, -, hcount''⟩ := answered_last hpostgres' hm''
  obtain ⟨-, hresults⟩ := forall₂_snoc hagree.redis
  obtain ⟨hrest'', hresults''⟩ := forall₂_snoc hagree.postgres
  obtain ⟨-, hcounts''⟩ := forall₂_snoc hrest''
  -- the number that is answered to the completion
  obtain ⟨count, hcount, hnumber⟩ := (answered_snoc.mp (answered_snoc.mp hagree.numbered).1).2
  have hfew : (completionsIn group calls).length + 1 < 2 ^ 32 := by
    have hn : count.toNat = (completionsIn group (callsOf front)).length + 1 := hnumber
    rw [hfront] at hn
    exact hn ▸ count.toNat_lt
  have hstored : ∃ stored, types.row group task.toText result = .ok stored := by
    cases hrow : types.row group task.toText result with
    | ok stored => exact ⟨stored, rfl⟩
    | error e =>
        cases hcounts''
        have hr : Except.ok _ = _ := hcount''
        rw [hrow] at hr
        cases hr
  obtain ⟨stored, hrow⟩ := hstored
  cases hresults with
  | results _ hperm =>
  cases hresults'' with
  | results _ hperm'' =>
  obtain rfl := memory_results hproper hlast
  exact ⟨text_of_perm hbefore hlast' hperm hfew,
    (row_of_perm hproper hbefore hrow hlast'' hperm'') ▸ hrow, hfew⟩

end Last

/-- The backends agree.  On groups that are initialised once before use, with tasks that
complete once, they give every completion the same number, 1, 2, 3 and so on in each group, and
have the same results of every group at every point, up to order, exactly as long as everything
survives: the text of each result is read as the result, its row is taken and JSONB gives it
back, the names of the groups are without U+0000, and no group has `2 ^ 32` members. -/
theorem backends_agree_iff (hproper : Proper calls) :
    AgreeThroughout σ b decode queueOf pg types clock calls ↔ Survives decode types calls := by
  constructor
  · intro hagree
    induction calls using List.reverseRec with
    | nil =>
        exact ⟨fun _ _ _ h => (List.not_mem_nil h).elim, fun _ _ _ h => (List.not_mem_nil h).elim,
          fun _ _ h => (List.not_mem_nil h).elim, fun _ => Nat.two_pow_pos 32⟩
    | append_singleton calls op ih =>
        have hbefore : Survives decode types calls := by
          refine ih (hproper.left (List.prefix_append calls [op])) ?_
          intro before group total hsub
          exact hagree before group total (hsub.trans (List.prefix_append calls [op]))
        have hannounced := (throughout_snoc.mp hproper.announced).2
        cases op with
        | store id result => exact hannounced.elim
        | getGroupResults group => exact hbefore.ask group
        | initGroup group total =>
            have hinit : .initGroup group total ∈ calls ++ [.initGroup group total] :=
              List.mem_append.mpr (.inr List.mem_cons_self)
            obtain ⟨m, m', m'', h⟩ := exists_histories σ b decode queueOf pg types clock
              (hproper.ask hinit)
            exact hbefore.init (name_of_agree h (hagree _ group total (List.prefix_refl _) hinit
              m m' m'' h))
        | completeGroupMember group task result =>
            obtain ⟨total, hmem⟩ := hannounced
            have hinit : .initGroup group total ∈
                calls ++ [.completeGroupMember group task result] :=
              List.mem_append.mpr (.inl hmem)
            obtain ⟨m, m', m'', h⟩ := exists_histories σ b decode queueOf pg types clock
              (hproper.ask hinit)
            exact hbefore.complete (survives_completion hproper hbefore h
              (hagree _ group total (List.prefix_refl _) hinit m m' m'' h))
  · intro hsurvives before group total hsub hinit m m' m'' h
    exact agree_of_survives ((hproper.left hsub).ask hinit) ((hsurvives.left hsub).ask group)
      h

end Agreement

/-! ## Two groups, and a name that PostgreSQL refuses -/

/-- Two groups with confusable names; the completions of one are not in the order of its
tasks, and one result is `null`. -/
def mixedCalls : List ResultBackendOp :=
  [.initGroup "g" 2, .initGroup "g:results" 1, .completeGroupMember "g" ⟨2⟩ .null,
    .completeGroupMember "g:results" ⟨3⟩ (.bool true), .completeGroupMember "g" ⟨1⟩ (.bool true)]

theorem mixedCalls_proper : Proper mixedCalls where
  announced := by
    show Throughout _ ([] ++ [_] ++ [_] ++ [_] ++ [_] ++ [_])
    simp only [throughout_snoc, throughout_nil, true_and]
    simp [Announced, ResultBackendOp.group]
  distinct := by simp [completedIn, completedTask, mixedCalls, List.filterMap_cons]

theorem mixedCalls_survives : Survives nullDecode .plain mixedCalls where
  text group task result hmem := by
    simp only [mixedCalls, List.mem_cons, ResultBackendOp.completeGroupMember.injEq, reduceCtorEq,
      false_or, List.not_mem_nil, or_false] at hmem
    rcases hmem with ⟨-, -, rfl⟩ | ⟨-, -, rfl⟩ | ⟨-, -, rfl⟩ <;> rfl
  row group task result hmem := by
    simp only [mixedCalls, List.mem_cons, ResultBackendOp.completeGroupMember.injEq, reduceCtorEq,
      false_or, List.not_mem_nil, or_false] at hmem
    rcases hmem with ⟨rfl, rfl, rfl⟩ | ⟨rfl, rfl, rfl⟩ | ⟨rfl, rfl, rfl⟩ <;> rfl
  name group total hmem := by
    simp only [mixedCalls, List.mem_cons, ResultBackendOp.initGroup.injEq, reduceCtorEq,
      List.not_mem_nil, or_false] at hmem
    rcases hmem with ⟨rfl, -⟩ | ⟨rfl, -⟩ <;> rfl
  few group := by
    have hle : (completionsIn group mixedCalls).length ≤ mixedCalls.length :=
      List.length_filterMap_le _ _
    exact hle.trans_lt (by decide)

/-- The backends agree on these groups, and there are such histories. -/
theorem backends_agree_iff_mixed :
    ∃ inMemory inRedis inPostgres, callsOf inMemory = mixedCalls ++ [.getGroupResults "g"] ∧
      callsOf inRedis = mixedCalls ++ [.getGroupResults "g"] ∧
      callsOf inPostgres = mixedCalls ++ [.getGroupResults "g"] ∧
      Agree inMemory inRedis inPostgres := by
  have hinit : .initGroup "g" 2 ∈ mixedCalls := List.mem_cons_self
  obtain ⟨m, m', m'', h⟩ := exists_histories Nat plainBackend nullDecode (fun _ => .ok "q")
    ⟨86400⟩ .plain 0 (mixedCalls_proper.ask hinit)
  have hagree : AgreeThroughout Nat plainBackend nullDecode (fun _ => .ok "q") ⟨86400⟩ .plain 0
      mixedCalls := (backends_agree_iff mixedCalls_proper).mpr mixedCalls_survives
  obtain ⟨hcalls, hcalls', hcalls''⟩ := h.callsOf_eq
  exact ⟨m, m', m'', hcalls, hcalls', hcalls'',
    hagree mixedCalls "g" 2 (List.prefix_refl _) hinit m m' m'' h⟩

/-- The name of a group, with U+0000 in it. -/
def nulName : String := String.ofList ['g', Char.ofNat 0]

/-- A group of one, and its completion. -/
def nulCalls : List ResultBackendOp :=
  [.initGroup nulName 1, .completeGroupMember nulName ⟨1⟩ .null]

theorem nulCalls_proper : Proper nulCalls where
  announced := by
    show Throughout _ ([] ++ [_] ++ [_])
    simp only [throughout_snoc, throughout_nil, true_and]
    simp [Announced]
  distinct := by simp [completedIn, completedTask, nulCalls, List.filterMap_cons]

/-- A group with U+0000 in its name.  It is initialised once and its one member completes;
the member is the first in memory and in Redis, and PostgreSQL refuses it. -/
theorem nul_group_refused :
    Proper nulCalls ∧
    (∃ s, MemoryResultBackend.service.serve (nulCalls.map ((), ·)) .new =
      some ([⟨.initGroup nulName 1, .ok ()⟩,
        ⟨.completeGroupMember nulName ⟨1⟩ .null, .ok 1⟩], s)) ∧
    (∃ t, ((⟨86400⟩ : PostgresResultBackend).service .plain).serve (nulCalls.map (⟨0⟩, ·))
      PgTables.empty = some ([⟨.initGroup nulName 1, .error (.resultBackend nulRefused)⟩,
        ⟨.completeGroupMember nulName ⟨1⟩ .null, .error (.resultBackend nulRefused)⟩], t)) ∧
    ¬ AgreeThroughout Nat plainBackend nullDecode (fun _ => .ok "q") ⟨86400⟩ .plain 0 nulCalls := by
  refine ⟨nulCalls_proper, ⟨_, rfl⟩, ⟨_, rfl⟩, fun hagree => ?_⟩
  have hinit : .initGroup nulName 1 ∈ nulCalls := List.mem_cons_self
  obtain ⟨m, m', m'', h⟩ := exists_histories Nat plainBackend nullDecode (fun _ => .ok "q")
    ⟨86400⟩ .plain 0 (nulCalls_proper.ask hinit)
  have hname := name_of_agree h
    (hagree nulCalls nulName 1 (List.prefix_refl _) hinit m m' m'' h)
  have hnul : hasNul nulName = true := by decide
  rw [bindText_eq_ok, hnul] at hname
  cases hname

end Kojin.Postgres
