/-
  Core/Cron.lean --- periodic tasks (`kojin-core`: `cron.rs`).

  A poll of `scheduler_loop` reads the clock once and visits the entries in order.  An
  entry is due when the first occurrence after its last run is not in the future; then
  its task is enqueued, and the time of the poll becomes its last run, whether or not
  the broker took the message.  An entry without a last run looks back one second.

  Last runs are kept by the name of the entry.  `CronEntry.alone` is what an entry does
  that shares its name with no other: its own last run is all it depends on.

  How long the loop sleeps between two polls shows in the next reading of the clock
  only, so a run is its readings, and it may be cancelled after any number of polls.
  Its record says for which occurrence each entry fired at each poll, and the messages
  it enqueues are one for each of these firings, in their order.
-/
import Kojin.Core.Worker
import Mathlib.Data.List.ReduceOption

set_option autoImplicit false

namespace Kojin.Core

open Kojin.Foundation

/-! ## Schedules -/

/-- `cron::Schedule`: the instants it names, and `after(t).next()`, the first of them
that is later than `t`. -/
structure Schedule where
  Occurs : DateTime → Prop
  next : DateTime → Option DateTime
  occurs_of_next : ∀ {t o}, next t = some o → Occurs o
  later_of_next : ∀ {t o}, next t = some o → t.nanos < o.nanos
  first_of_next : ∀ {t o o'}, next t = some o → Occurs o' → t.nanos < o'.nanos →
    o.nanos ≤ o'.nanos
  next_isSome : ∀ {t o}, Occurs o → t.nanos < o.nanos → (next t).isSome = true

/-- `CronEntry`. -/
structure CronEntry where
  name : String
  schedule : Schedule
  signature : Signature

/-- `CronRegistry`. -/
structure CronRegistry where
  entries : List CronEntry

namespace CronRegistry

/-- `CronRegistry::new`. -/
def new : CronRegistry := ⟨[]⟩

/-- `CronRegistry::add`. -/
def add (registry : CronRegistry) (entry : CronEntry) : CronRegistry :=
  ⟨registry.entries ++ [entry]⟩

end CronRegistry

/-- `last_runs`. -/
abbrev LastRuns : Type := Table String DateTime

/-- `now - chrono::Duration::seconds(1)`. -/
def DateTime.secondBefore (now : DateTime) : DateTime := ⟨now.nanos - 1000000000⟩

namespace CronEntry

/-- The occurrence an entry fires for at this reading of the clock, given its last
run. -/
def dueSince (entry : CronEntry) (now : DateTime) (last : Option DateTime) : Option DateTime :=
  match entry.schedule.next (last.getD now.secondBefore) with
  | some next => if next.nanos ≤ now.nanos then some next else none
  | none => none

/-- The occurrence an entry fires for, with the last run looked up under its name. -/
def due (entry : CronEntry) (now : DateTime) (runs : LastRuns) : Option DateTime :=
  entry.dueSince now (runs.lookup entry.name)

end CronEntry

/-! ## The loop -/

/-- What one poll did: when it was, and for which occurrence each entry fired. -/
structure PollRecord where
  now : DateTime
  fired : List (Option DateTime)

/-- `entry.signature.clone().into_message()`, and `enqueue`; an error is logged. -/
def enqueueDue (entry : CronEntry) : Prog traits Unit := do
  let created ← runtime .utcNow
  let id ← runtime .newTaskId
  let _ ← broker (.enqueue (entry.signature.intoMessage created id))
  pure ()

/-- The body of the loop over the entries. -/
def visit (now : DateTime) (entry : CronEntry) (runs : LastRuns) :
    Prog traits (Option DateTime × LastRuns) :=
  match entry.due now runs with
  | some next => do
      enqueueDue entry
      pure (some next, runs.insert entry.name now)
  | none => pure (none, runs)

/-- The loop over the entries. -/
def visitAll (now : DateTime) :
    List CronEntry → LastRuns → Prog traits (List (Option DateTime) × LastRuns)
  | [], runs => pure ([], runs)
  | entry :: rest, runs => do
      let p ← visit now entry runs
      let q ← visitAll now rest p.2
      pure (p.1 :: q.1, q.2)

/-- `scheduler_loop`, cancelled after this many polls. -/
def schedulerLoop (registry : CronRegistry) : Nat → LastRuns → Prog traits (List PollRecord)
  | 0, _ => pure []
  | n + 1, runs => do
      let now ← runtime .utcNow
      let p ← visitAll now registry.entries runs
      let records ← schedulerLoop registry n p.2
      pure (⟨now, p.1⟩ :: records)

/-! ## What a run does -/

/-- The last runs after a visit. -/
def LastRuns.visited (now : DateTime) (runs : LastRuns) (entry : CronEntry) : LastRuns :=
  match entry.due now runs with
  | some _ => runs.insert entry.name now
  | none => runs

/-- The last runs after a poll. -/
def LastRuns.polled (now : DateTime) (runs : LastRuns) (entries : List CronEntry) : LastRuns :=
  entries.foldl (LastRuns.visited now) runs

/-- For which occurrences the entries fire at one poll. -/
def firings (now : DateTime) : List CronEntry → LastRuns → List (Option DateTime)
  | [], _ => []
  | entry :: rest, runs => entry.due now runs :: firings now rest (runs.visited now entry)

namespace CronRegistry

/-- The polls of a run, by the readings of the clock. -/
def history (registry : CronRegistry) : LastRuns → List DateTime → List PollRecord
  | _, [] => []
  | runs, now :: rest =>
      ⟨now, firings now registry.entries runs⟩
        :: registry.history (runs.polled now registry.entries) rest

/-- For which occurrence an entry fires at each poll of a run. -/
def firedBy (records : List PollRecord) (i : Nat) : List (Option DateTime) :=
  records.map fun record => (record.fired[i]?).join

end CronRegistry

section Traces

variable {registry : CronRegistry} {now : DateTime}

/-- What is due at a visit, and the last runs after it, whatever the broker answers. -/
theorem trace_visit {entry : CronEntry} {runs : LastRuns} {tr : List (Event traits)}
    {p : Option DateTime × LastRuns} (h : (visit now entry runs).Trace tr p) :
    p = (entry.due now runs, runs.visited now entry) := by
  unfold visit at h
  unfold LastRuns.visited
  cases hdue : entry.due now runs with
  | none =>
      rw [hdue] at h
      exact (Prog.trace_ret_iff.mp h).2
  | some next =>
      rw [hdue] at h
      obtain ⟨tr₁, tr₂, u, -, -, hlast⟩ := Prog.trace_bind_iff.mp h
      exact (Prog.trace_ret_iff.mp hlast).2

theorem trace_visitAll {entries : List CronEntry} {runs : LastRuns} {tr : List (Event traits)}
    {p : List (Option DateTime) × LastRuns} (h : (visitAll now entries runs).Trace tr p) :
    p = (firings now entries runs, runs.polled now entries) := by
  induction entries generalizing runs tr p with
  | nil => exact (Prog.trace_ret_iff.mp h).2
  | cons entry rest ih =>
      obtain ⟨tr₁, tr₂, q, -, hfirst, hrest⟩ := Prog.trace_bind_iff.mp h
      obtain ⟨tr₃, tr₄, q', -, hothers, hlast⟩ := Prog.trace_bind_iff.mp hrest
      rw [trace_visit hfirst] at hothers hlast
      rw [ih hothers] at hlast
      exact (Prog.trace_ret_iff.mp hlast).2

/-- What the loop records is the history of its readings of the clock, whatever the
broker answers. -/
theorem trace_schedulerLoop {n : Nat} {runs : LastRuns} {tr : List (Event traits)}
    {records : List PollRecord} (h : (schedulerLoop registry n runs).Trace tr records) :
    records = registry.history runs (records.map PollRecord.now) := by
  induction n generalizing runs tr records with
  | zero =>
      rw [(Prog.trace_ret_iff.mp h).2]
      rfl
  | succ n ih =>
      obtain ⟨clock, rest, now, -, -, hpoll⟩ := Prog.trace_bind_iff.mp h
      obtain ⟨tr₁, tr₂, p, -, hvisits, hrest⟩ := Prog.trace_bind_iff.mp hpoll
      obtain ⟨tr₃, tr₄, later, -, hlater, hlast⟩ := Prog.trace_bind_iff.mp hrest
      have hp := trace_visitAll hvisits
      rw [hp] at hlater hlast
      rw [(Prog.trace_ret_iff.mp hlast).2]
      show _ = _ :: _
      rw [← ih hlater]

/-- The polls of a run are read off the clock. -/
theorem now_history (registry : CronRegistry) (runs : LastRuns) (times : List DateTime) :
    (registry.history runs times).map PollRecord.now = times := by
  induction times generalizing runs with
  | nil => rfl
  | cons now rest ih => exact congrArg (now :: ·) (ih _)

/-! ### What it enqueues -/

/-- The message a call enqueues. -/
def enqueuedMessage : Event traits → Option TaskMessage
  | ⟨.broker (.enqueue m), _⟩ => some m
  | _ => none

/-- A message is one of this entry: made from its signature, with an identifier and a time of its
own. -/
def CronEntry.Makes (firing : CronEntry × DateTime) (m : TaskMessage) : Prop :=
  ∃ created id, m = firing.1.signature.intoMessage created id

/-- The entries that fire, each with its occurrence. -/
def firingsOf (entries : List CronEntry) (fired : List (Option DateTime)) :
    List (CronEntry × DateTime) :=
  (entries.zip fired).filterMap fun p => p.2.map (p.1, ·)

/-- A visit enqueues one message of the entry if it is due, and none if it is not. -/
theorem enqueued_visit {entry : CronEntry} {runs : LastRuns} {tr : List (Event traits)}
    {p : Option DateTime × LastRuns} (h : (visit now entry runs).Trace tr p) :
    List.Forall₂ CronEntry.Makes (p.1.map (entry, ·)).toList (tr.filterMap enqueuedMessage) := by
  unfold visit at h
  cases hdue : entry.due now runs with
  | none =>
      rw [hdue] at h
      obtain ⟨rfl, rfl⟩ := Prog.trace_ret_iff.mp h
      exact .nil
  | some next =>
      rw [hdue] at h
      obtain ⟨created, tr₁, rfl, h₁⟩ := Prog.trace_call_iff.mp
        (show (Prog.call (I := traits) (.runtime .utcNow) _).Trace tr p from h)
      obtain ⟨id, tr₂, rfl, h₂⟩ := Prog.trace_call_iff.mp
        (show (Prog.call (I := traits) (.runtime .newTaskId) _).Trace tr₁ p from h₁)
      obtain ⟨answer, tr₃, rfl, h₃⟩ := Prog.trace_call_iff.mp
        (show (Prog.call (I := traits)
          (.broker (.enqueue (entry.signature.intoMessage created id))) _).Trace tr₂ p from h₂)
      obtain ⟨rfl, rfl⟩ := Prog.trace_ret_iff.mp h₃
      exact .cons ⟨created, id, rfl⟩ .nil

/-- A poll enqueues one message for each entry that fires, in their order. -/
theorem enqueued_visitAll {entries : List CronEntry} {runs : LastRuns} {tr : List (Event traits)}
    {p : List (Option DateTime) × LastRuns} (h : (visitAll now entries runs).Trace tr p) :
    List.Forall₂ CronEntry.Makes (firingsOf entries p.1) (tr.filterMap enqueuedMessage) := by
  induction entries generalizing runs tr p with
  | nil =>
      obtain ⟨rfl, rfl⟩ := Prog.trace_ret_iff.mp h
      exact .nil
  | cons entry rest ih =>
      obtain ⟨tr₁, tr₂, q, rfl, hfirst, hrest⟩ := Prog.trace_bind_iff.mp h
      obtain ⟨tr₃, tr₄, q', rfl, hothers, hlast⟩ := Prog.trace_bind_iff.mp hrest
      obtain ⟨rfl, rfl⟩ := Prog.trace_ret_iff.mp hlast
      have hsplit : firingsOf (entry :: rest) (q.1 :: q'.1) =
          (q.1.map (entry, ·)).toList ++ firingsOf rest q'.1 := by
        cases q.1 <;> rfl
      rw [hsplit, List.append_nil, List.filterMap_append]
      exact List.rel_append (enqueued_visit hfirst) (ih hothers)

/-- What the loop enqueues: one message for each firing it records, in the order of the polls and
of the entries. -/
theorem enqueued_schedulerLoop {n : Nat} {runs : LastRuns} {tr : List (Event traits)}
    {records : List PollRecord} (h : (schedulerLoop registry n runs).Trace tr records) :
    List.Forall₂ CronEntry.Makes
      (records.flatMap fun record => firingsOf registry.entries record.fired)
      (tr.filterMap enqueuedMessage) := by
  induction n generalizing runs tr records with
  | zero =>
      obtain ⟨rfl, rfl⟩ := Prog.trace_ret_iff.mp h
      exact .nil
  | succ n ih =>
      obtain ⟨now, rest, rfl, hpoll⟩ := Prog.trace_call_iff.mp
        (show (Prog.call (I := traits) (.runtime .utcNow) _).Trace tr records from h)
      obtain ⟨tr₁, tr₂, p, rfl, hvisits, hrest⟩ := Prog.trace_bind_iff.mp
        (show (visitAll now registry.entries runs >>= _).Trace rest records from hpoll)
      obtain ⟨tr₃, tr₄, later, rfl, hlater, hlast⟩ := Prog.trace_bind_iff.mp hrest
      obtain ⟨rfl, rfl⟩ := Prog.trace_ret_iff.mp hlast
      show List.Forall₂ _ (firingsOf registry.entries p.1 ++ _)
        ((tr₁ ++ (tr₃ ++ [])).filterMap enqueuedMessage)
      rw [List.append_nil, List.filterMap_append]
      exact List.rel_append (enqueued_visitAll hvisits) (ih hlater)

/-! ### Runs there are -/

/-- A visit is possible whatever the broker answers. -/
theorem exists_trace_visit (now : DateTime) (entry : CronEntry) (runs : LastRuns)
    (answer : TaskResult Unit) :
    ∃ tr, (visit now entry runs).Trace tr (entry.due now runs, runs.visited now entry) := by
  unfold visit LastRuns.visited
  cases entry.due now runs with
  | none => exact ⟨[], .ret _⟩
  | some next =>
      refine ⟨[⟨.runtime .utcNow, now⟩, ⟨.runtime .newTaskId, ⟨0⟩⟩,
        ⟨.broker (.enqueue (entry.signature.intoMessage now ⟨0⟩)), answer⟩], ?_⟩
      exact .call (I := traits) (.call (I := traits) (.call (I := traits) (.ret _)))

theorem exists_trace_visitAll (now : DateTime) (entries : List CronEntry) (runs : LastRuns)
    (answer : TaskResult Unit) :
    ∃ tr, (visitAll now entries runs).Trace tr
      (firings now entries runs, runs.polled now entries) := by
  induction entries generalizing runs with
  | nil => exact ⟨[], .ret _⟩
  | cons entry rest ih =>
      obtain ⟨tr₁, hvisit⟩ := exists_trace_visit now entry runs answer
      obtain ⟨tr₂, hrest⟩ := ih (runs.visited now entry)
      refine ⟨tr₁ ++ (tr₂ ++ []), Prog.trace_bind_iff.mpr ⟨_, _, _, rfl, hvisit, ?_⟩⟩
      exact Prog.trace_bind_iff.mpr ⟨_, _, _, rfl, hrest, .ret _⟩

/-- Any readings of the clock are possible. -/
theorem exists_trace_schedulerLoop (registry : CronRegistry) (runs : LastRuns)
    (times : List DateTime) (answer : TaskResult Unit) :
    ∃ tr, (schedulerLoop registry times.length runs).Trace tr (registry.history runs times) := by
  induction times generalizing runs with
  | nil => exact ⟨[], .ret _⟩
  | cons now rest ih =>
      obtain ⟨tr₁, hvisits⟩ :=
        exists_trace_visitAll now registry.entries runs answer
      obtain ⟨tr₂, hrest⟩ := ih (runs.polled now registry.entries)
      refine ⟨⟨.runtime .utcNow, now⟩ :: (tr₁ ++ (tr₂ ++ [])), .call (I := traits) ?_⟩
      refine Prog.trace_bind_iff.mpr ⟨[], _, now, rfl, .ret now, ?_⟩
      refine Prog.trace_bind_iff.mpr ⟨_, _, _, rfl, hvisits, ?_⟩
      exact Prog.trace_bind_iff.mpr ⟨_, _, _, rfl, hrest, .ret _⟩

end Traces

/-! ## An entry on its own -/

namespace CronEntry

variable {entry : CronEntry} {now : DateTime} {last : Option DateTime}

/-- The last run of an entry after a poll. -/
def lastAfter (entry : CronEntry) (last : Option DateTime) (now : DateTime) : Option DateTime :=
  if (entry.dueSince now last).isSome then some now else last

/-- What an entry fires for, poll by poll, as far as its own last run decides. -/
def alone (entry : CronEntry) : Option DateTime → List DateTime → List (Option DateTime)
  | _, [] => []
  | last, now :: rest =>
      entry.dueSince now last :: entry.alone (entry.lastAfter last now) rest

/-- The last run of an entry after some polls. -/
def lastOf (entry : CronEntry) (last : Option DateTime) (times : List DateTime) :
    Option DateTime :=
  times.foldl entry.lastAfter last

/-- The schedule names no instant. -/
def Barren (entry : CronEntry) : Prop := ∀ o, ¬ entry.schedule.Occurs o

/-- What an entry fires for is an occurrence after its last run, and not in the
future. -/
theorem dueSince_eq_some {o : DateTime} (h : entry.dueSince now last = some o) :
    entry.schedule.Occurs o ∧ (last.getD now.secondBefore).nanos < o.nanos ∧
      o.nanos ≤ now.nanos := by
  unfold dueSince at h
  split at h
  · rename_i next hnext
    split at h
    · rename_i hle
      cases h
      exact ⟨entry.schedule.occurs_of_next hnext, entry.schedule.later_of_next hnext, hle⟩
    · cases h
  · cases h

/-- An entry fires exactly if there is such an occurrence. -/
theorem dueSince_isSome_iff :
    (entry.dueSince now last).isSome = true ↔
      ∃ o, entry.schedule.Occurs o ∧ (last.getD now.secondBefore).nanos < o.nanos ∧
        o.nanos ≤ now.nanos := by
  constructor
  · intro h
    obtain ⟨o, ho⟩ := Option.isSome_iff_exists.mp h
    exact ⟨o, dueSince_eq_some ho⟩
  · rintro ⟨o, hoccurs, hlater, hle⟩
    obtain ⟨next, hnext⟩ := Option.isSome_iff_exists.mp (entry.schedule.next_isSome hoccurs hlater)
    have hfirst := entry.schedule.first_of_next hnext hoccurs hlater
    unfold dueSince
    rw [hnext]
    simp only
    rw [if_pos (hfirst.trans hle)]
    rfl

theorem Barren.dueSince_eq_none (h : entry.Barren) (now : DateTime) (last : Option DateTime) :
    entry.dueSince now last = none := by
  cases hdue : entry.dueSince now last with
  | none => rfl
  | some o => exact absurd (dueSince_eq_some hdue).1 (h o)

/-! ### Its occurrences increase -/

/-- What an entry fires for is later than its last run, and increases from poll to
poll. -/
theorem alone_increases (entry : CronEntry) (last : Option DateTime) (times : List DateTime) :
    (∀ o ∈ (entry.alone last times).reduceOption, ∀ t ∈ last, t.nanos < o.nanos) ∧
      (entry.alone last times).reduceOption.Pairwise fun o o' => o.nanos < o'.nanos := by
  induction times generalizing last with
  | nil => exact ⟨fun _ ho => (nomatch ho), .nil⟩
  | cons now rest ih =>
      rw [alone]
      cases hdue : entry.dueSince now last with
      | none =>
          have hlast : entry.lastAfter last now = last := by
            unfold lastAfter
            rw [hdue]
            rfl
          rw [hlast, List.reduceOption_cons_of_none]
          exact ih last
      | some o =>
          obtain ⟨-, hlater, hle⟩ := dueSince_eq_some hdue
          have hlast : entry.lastAfter last now = some now := by
            unfold lastAfter
            rw [hdue]
            rfl
          obtain ⟨hrest, hincreases⟩ := ih (some now)
          rw [hlast, List.reduceOption_cons_of_some]
          refine ⟨fun o' ho' t ht => ?_, List.pairwise_cons.mpr ⟨fun o' ho' => ?_, hincreases⟩⟩
          · have hfirst : t.nanos < o.nanos := by
              rw [Option.mem_def.mp ht] at hlater
              exact hlater
            rcases List.mem_cons.mp ho' with rfl | ho'
            · exact hfirst
            · exact hfirst.trans (hle.trans_lt (hrest o' ho' now rfl))
          · exact hle.trans_lt (hrest o' ho' now rfl)

end CronEntry

/-! ## An entry in its registry -/

namespace CronEntry

variable {entry : CronEntry} {now : DateTime}

theorem lookup_visited_self (runs : LastRuns) :
    (runs.visited now entry).lookup entry.name = entry.lastAfter (runs.lookup entry.name) now := by
  unfold LastRuns.visited lastAfter due
  cases entry.dueSince now (runs.lookup entry.name) with
  | none => rfl
  | some o => exact AList.lookup_insert runs

/-- A visit changes the last run of its own name only, and only if it fires. -/
theorem lookup_visited_other (runs : LastRuns) {name : String}
    (h : entry.name = name → entry.Barren) :
    (runs.visited now entry).lookup name = runs.lookup name := by
  unfold LastRuns.visited due
  by_cases hname : entry.name = name
  · rw [(h hname).dueSince_eq_none]
  · cases entry.dueSince now (runs.lookup entry.name) with
    | none => rfl
    | some o => exact AList.lookup_insert_ne (Ne.symm hname)

theorem lookup_polled_other (now : DateTime) {entries : List CronEntry} {name : String}
    (h : ∀ e ∈ entries, e.name = name → e.Barren) (runs : LastRuns) :
    (runs.polled now entries).lookup name = runs.lookup name := by
  induction entries generalizing runs with
  | nil => rfl
  | cons e rest ih =>
      show (LastRuns.polled now (runs.visited now e) rest).lookup name = _
      rw [ih (fun e' he' => h e' (List.mem_cons_of_mem _ he')),
        lookup_visited_other runs (h e List.mem_cons_self)]

theorem length_firings (now : DateTime) (entries : List CronEntry) (runs : LastRuns) :
    (firings now entries runs).length = entries.length := by
  induction entries generalizing runs with
  | nil => rfl
  | cons e rest ih =>
      rw [firings, List.length_cons, List.length_cons, ih]

theorem firings_append (before after : List CronEntry) (runs : LastRuns) :
    firings now (before ++ after) runs
      = firings now before runs ++ firings now after (runs.polled now before) := by
  induction before generalizing runs with
  | nil => rfl
  | cons e rest ih =>
      rw [List.cons_append, firings, firings, ih]
      rfl

variable {before after : List CronEntry}

/-- What an entry does at a poll when no other one of its name can fire. -/
theorem firings_alone (now : DateTime)
    (h : ∀ e ∈ before ++ after, e.name = entry.name → e.Barren)
    (runs : LastRuns) :
    ((firings now (before ++ entry :: after) runs)[before.length]?).join
        = entry.dueSince now (runs.lookup entry.name) ∧
      (runs.polled now (before ++ entry :: after)).lookup entry.name
        = entry.lastAfter (runs.lookup entry.name) now := by
  have hbefore := lookup_polled_other now
    (fun e he => h e (List.mem_append_left _ he)) runs
  have hafter := lookup_polled_other now
    (fun e he => h e (List.mem_append_right _ he))
  constructor
  · rw [firings_append, List.getElem?_append_right (by rw [length_firings]), length_firings,
      Nat.sub_self, firings, List.getElem?_cons_zero, Option.join_some, due, hbefore]
  · unfold LastRuns.polled at hbefore hafter ⊢
    rw [List.foldl_append, List.foldl_cons, hafter, lookup_visited_self, hbefore]

/-- What it does in a whole run. -/
theorem firedBy_alone (h : ∀ e ∈ before ++ after, e.name = entry.name → e.Barren)
    (runs : LastRuns) (times : List DateTime) :
    CronRegistry.firedBy (CronRegistry.history ⟨before ++ entry :: after⟩ runs times) before.length
      = entry.alone (runs.lookup entry.name) times := by
  induction times generalizing runs with
  | nil => rfl
  | cons now rest ih =>
      obtain ⟨hfired, hlast⟩ := firings_alone now h runs
      rw [CronRegistry.history, alone, ← hlast, ← ih, ← hfired]
      rfl

end CronEntry

section Registry

variable {registry : CronRegistry} {i : Nat} {entry : CronEntry}

/-- No other entry of the name of this one can fire. -/
def CronRegistry.Sole (registry : CronRegistry) (i : Nat) (entry : CronEntry) : Prop :=
  ∀ (j : Nat) (e : CronEntry), j ≠ i → registry.entries[j]? = some e → e.name = entry.name →
    e.Barren

/-- The entries before and after it. -/
theorem CronRegistry.Sole.split (h : registry.Sole i entry)
    (hi : registry.entries[i]? = some entry) :
    ∃ before after, registry = ⟨before ++ entry :: after⟩ ∧ before.length = i ∧
      ∀ e ∈ before ++ after, e.name = entry.name → e.Barren := by
  obtain ⟨entries⟩ := registry
  obtain ⟨hlt, hget⟩ := List.getElem?_eq_some_iff.mp hi
  refine ⟨entries.take i, entries.drop (i + 1), ?_, List.length_take_of_le (Nat.le_of_lt hlt), ?_⟩
  · rw [← hget, List.getElem_cons_drop, List.take_append_drop]
  · intro e he hname
    rcases List.mem_append.mp he with he | he
    · obtain ⟨j, hj⟩ := List.mem_iff_getElem?.mp he
      rw [List.getElem?_take] at hj
      split at hj
      · rename_i hji
        exact h j e (Nat.ne_of_lt hji) hj hname
      · cases hj
    · obtain ⟨j, hj⟩ := List.mem_iff_getElem?.mp he
      rw [List.getElem?_drop] at hj
      exact h (i + 1 + j) e (by omega) hj hname

/-- In a registry such an entry fires as it would on its own. -/
theorem CronRegistry.Sole.firedBy (h : registry.Sole i entry)
    (hi : registry.entries[i]? = some entry) (times : List DateTime) :
    CronRegistry.firedBy (registry.history ∅ times) i = entry.alone none times := by
  obtain ⟨before, after, rfl, rfl, hothers⟩ := h.split hi
  exact CronEntry.firedBy_alone hothers ∅ times

/-- Where names are distinct every entry is on its own. -/
theorem CronRegistry.sole_of_nodup (h : (registry.entries.map CronEntry.name).Nodup)
    (hi : registry.entries[i]? = some entry) : registry.Sole i entry := by
  intro j e hji hj hname
  obtain ⟨hjlt, -⟩ := List.getElem?_eq_some_iff.mp hj
  refine absurd ((List.getElem?_inj (by rwa [List.length_map]) h).mp ?_) hji
  rw [List.getElem?_map, List.getElem?_map, hj, hi, Option.map_some, Option.map_some, hname]

/-- What an entry fires for is decided by the clock and some last runs. -/
theorem firings_getElem (now : DateTime) {entries : List CronEntry} (runs : LastRuns)
    (hi : entries[i]? = some entry) :
    ∃ runs', (firings now entries runs)[i]? = some (entry.due now runs') := by
  induction entries generalizing runs i with
  | nil => cases hi
  | cons e rest ih =>
      cases i with
      | zero =>
          cases hi
          exact ⟨runs, rfl⟩
      | succ i => exact ih _ hi

theorem fired_of_mem_history {runs : LastRuns} {times : List DateTime} {record : PollRecord}
    (h : record ∈ registry.history runs times) :
    ∃ runs', record.fired = firings record.now registry.entries runs' := by
  induction times generalizing runs with
  | nil => cases h
  | cons now rest ih =>
      rcases List.mem_cons.mp h with rfl | h
      · exact ⟨runs, rfl⟩
      · exact ih h

end Registry

/-! ## No occurrence twice -/

/-- No occurrence fires an entry twice, whatever the clock reads and whatever the broker
answers, and the messages enqueued are one for each firing. -/
theorem fires_no_occurrence_twice {registry : CronRegistry} {n : Nat} {tr : List (Event traits)}
    {records : List PollRecord} {i : Nat} {entry : CronEntry}
    (hnames : (registry.entries.map CronEntry.name).Nodup)
    (h : (schedulerLoop registry n ∅).Trace tr records)
    (hi : registry.entries[i]? = some entry) :
    List.Forall₂ CronEntry.Makes
        (records.flatMap fun record => firingsOf registry.entries record.fired)
        (tr.filterMap enqueuedMessage) ∧
      (∀ record ∈ records, record.fired.length = registry.entries.length ∧
        ∀ o, (record.fired[i]?).join = some o →
          entry.schedule.Occurs o ∧ o.nanos ≤ record.now.nanos) ∧
      ((CronRegistry.firedBy records i).reduceOption.Pairwise fun o o' => o.nanos < o'.nanos) ∧
      ∀ o, (CronRegistry.firedBy records i).count (some o) ≤ 1 := by
  have hrecords := trace_schedulerLoop h
  have hincreases : (CronRegistry.firedBy records i).reduceOption.Pairwise
      fun o o' => o.nanos < o'.nanos := by
    rw [hrecords, (CronRegistry.sole_of_nodup hnames hi).firedBy hi]
    exact (entry.alone_increases none _).2
  refine ⟨enqueued_schedulerLoop h, fun record hrecord => ?_, hincreases, fun o => ?_⟩
  · rw [hrecords] at hrecord
    obtain ⟨runs, hfired⟩ := fired_of_mem_history hrecord
    rw [hfired]
    refine ⟨CronEntry.length_firings _ _ _, fun o ho => ?_⟩
    obtain ⟨runs', hdue⟩ := firings_getElem record.now runs hi
    rw [hdue, Option.join_some] at ho
    obtain ⟨hoccurs, -, hle⟩ := CronEntry.dueSince_eq_some ho
    exact ⟨hoccurs, hle⟩
  · have hnodup : (CronRegistry.firedBy records i).reduceOption.Nodup :=
      hincreases.imp fun hlt heq => absurd hlt (by rw [heq]; exact lt_irrefl _)
    have hcount := List.nodup_iff_count_le_one.mp hnodup o
    rw [List.reduceOption, List.count_filterMap] at hcount
    exact hcount

/-! ## A concrete schedule -/

/-- Every full minute: `0 * * * * * *`. -/
def everyMinute : Schedule where
  Occurs o := 60000000000 ∣ o.nanos
  next t := some ⟨(t.nanos / 60000000000 + 1) * 60000000000⟩
  occurs_of_next h := by
    cases h
    exact Dvd.intro_left _ rfl
  later_of_next {t o} h := by
    cases h
    show t.nanos < (t.nanos / 60000000000 + 1) * 60000000000
    omega
  first_of_next {t o o'} h hoccurs hlater := by
    cases h
    obtain ⟨k, hk⟩ := hoccurs
    show (t.nanos / 60000000000 + 1) * 60000000000 ≤ o'.nanos
    omega
  next_isSome _ _ := rfl

/-- An entry that fires every minute. -/
def minutely (name : String) : CronEntry := ⟨name, everyMinute, plainSignature⟩

/-- A registry with one such entry. -/
def oneMinutely : CronRegistry := CronRegistry.new.add (minutely "m")

/-- Four polls, two of them within one minute. -/
def fourPolls : List DateTime :=
  [⟨59000000000⟩, ⟨60200000000⟩, ⟨61200000000⟩, ⟨120900000000⟩]

/-- The entry fires at the second and at the last of them, over a broker that refuses its
messages, and two messages are enqueued. -/
theorem fires_no_occurrence_twice_minutely :
    ∃ tr, (schedulerLoop oneMinutely 4 ∅).Trace tr (oneMinutely.history ∅ fourPolls) ∧
      CronRegistry.firedBy (oneMinutely.history ∅ fourPolls) 0 =
        [none, some ⟨60000000000⟩, none, some ⟨120000000000⟩] ∧
      (tr.filterMap enqueuedMessage).length = 2 ∧
      ∀ o, (CronRegistry.firedBy (oneMinutely.history ∅ fourPolls) 0).count (some o) ≤ 1 := by
  obtain ⟨tr, htrace⟩ := exists_trace_schedulerLoop oneMinutely ∅ fourPolls
    (.error (.broker "down"))
  have hentry : oneMinutely.entries[0]? = some (minutely "m") := rfl
  obtain ⟨henqueued, -, -, honce⟩ := fires_no_occurrence_twice (by decide) htrace hentry
  exact ⟨tr, htrace, by decide, henqueued.length_eq.symm, honce⟩

/-! ## Missed occurrences -/

namespace CronEntry

variable {entry : CronEntry}

/-- What an entry does at one poll depends on the polls before it through its last run. -/
theorem alone_getElem {last : Option DateTime} {times : List DateTime} {k : Nat} {now : DateTime}
    (hk : times[k]? = some now) :
    (entry.alone last times)[k]? = some (entry.dueSince now (entry.lastOf last (times.take k))) := by
  induction times generalizing last k with
  | nil => cases hk
  | cons t rest ih =>
      cases k with
      | zero =>
          cases hk
          rfl
      | succ k => exact ih hk

/-- A last run is the time of a poll. -/
theorem mem_of_lastOf {last : Option DateTime} {times : List DateTime} {t : DateTime}
    (h : entry.lastOf last times = some t) : last = some t ∨ t ∈ times := by
  induction times generalizing last with
  | nil => exact .inl h
  | cons now rest ih =>
      rcases ih h with hlast | hmem
      · unfold lastAfter at hlast
        split at hlast
        · cases hlast
          exact .inr List.mem_cons_self
        · exact .inl hlast
      · exact .inr (List.mem_cons_of_mem _ hmem)

end CronEntry

/-- The polls become later. -/
def Increasing (times : List DateTime) : Prop := times.Pairwise fun t t' => t.nanos < t'.nanos

/-- Every poll before this one is no later than the one before it. -/
theorem Increasing.le_prev {times : List DateTime} (h : Increasing times) {k : Nat}
    {prev t : DateTime} (hprev : times[k]? = some prev) (ht : t ∈ times.take (k + 1)) :
    t.nanos ≤ prev.nanos := by
  obtain ⟨j, hj⟩ := List.mem_iff_getElem?.mp ht
  rw [List.getElem?_take] at hj
  split at hj
  · rename_i hjk
    rcases Nat.lt_succ_iff_lt_or_eq.mp hjk with hlt | rfl
    · obtain ⟨hjlt, rfl⟩ := List.getElem?_eq_some_iff.mp hj
      obtain ⟨hklt, rfl⟩ := List.getElem?_eq_some_iff.mp hprev
      exact Int.le_of_lt (List.pairwise_iff_getElem.mp h j k hjlt hklt hlt)
    · rw [hprev] at hj
      cases hj
      exact le_refl _
  · cases hj

namespace CronEntry

variable {entry : CronEntry}

/-- An entry has a last run once an occurrence lies in the second before a poll. -/
theorem lastOf_isSome_iff {last : Option DateTime} {times : List DateTime} :
    (entry.lastOf last times).isSome = true ↔
      last.isSome = true ∨ ∃ t ∈ times, (entry.dueSince t none).isSome = true := by
  induction times generalizing last with
  | nil => simp [lastOf]
  | cons now rest ih =>
      have hcons : entry.lastOf last (now :: rest) = entry.lastOf (entry.lastAfter last now) rest :=
        rfl
      rw [hcons, ih]
      cases last with
      | some t =>
          have hkept : (entry.lastAfter (some t) now).isSome = true := by
            unfold lastAfter
            split <;> rfl
          simp [hkept]
      | none =>
          have hfirst : (entry.lastAfter none now).isSome = (entry.dueSince now none).isSome := by
            unfold lastAfter
            cases (entry.dueSince now none).isSome <;> rfl
          simp [hfirst]

end CronEntry

/-- An occurrence lies in the second that ends now. -/
def CronEntry.InLastSecond (entry : CronEntry) (now : DateTime) : Prop :=
  ∃ o, entry.schedule.Occurs o ∧ now.secondBefore.nanos < o.nanos ∧ o.nanos ≤ now.nanos

/-- An occurrence between two polls fires its entry exactly if some poll up to then has had an
occurrence in the second before it. -/
theorem fires_for_occurrence_iff {registry : CronRegistry} {n : Nat} {tr : List (Event traits)}
    {records : List PollRecord} {i : Nat} {entry : CronEntry}
    (hnames : (registry.entries.map CronEntry.name).Nodup)
    (h : (schedulerLoop registry n ∅).Trace tr records)
    (hi : registry.entries[i]? = some entry) (hinc : Increasing (records.map PollRecord.now))
    {k : Nat} {prev record : PollRecord} {o : DateTime} (hprev : records[k]? = some prev)
    (hrecord : records[k + 1]? = some record) (ho : entry.schedule.Occurs o)
    (hafter : prev.now.nanos < o.nanos) (hbefore : o.nanos ≤ record.now.nanos) :
    (∃ o', (record.fired[i]?).join = some o') ↔
      ∃ earlier ∈ records.take (k + 2), entry.InLastSecond earlier.now := by
  have hrecords := trace_schedulerLoop h
  have hprev' : (records.map PollRecord.now)[k]? = some prev.now := by
    rw [List.getElem?_map, hprev]
    rfl
  have hnow : (records.map PollRecord.now)[k + 1]? = some record.now := by
    rw [List.getElem?_map, hrecord]
    rfl
  have hfired : (record.fired[i]?).join = entry.dueSince record.now
      (entry.lastOf none ((records.map PollRecord.now).take (k + 1))) := by
    have hat : (CronRegistry.firedBy records i)[k + 1]? = some (record.fired[i]?).join := by
      rw [CronRegistry.firedBy, List.getElem?_map, hrecord]
      rfl
    rw [hrecords, (CronRegistry.sole_of_nodup hnames hi).firedBy hi,
      CronEntry.alone_getElem hnow] at hat
    exact (Option.some.inj hat).symm
  have hpolls : (∃ earlier ∈ records.take (k + 2), entry.InLastSecond earlier.now) ↔
      (entry.lastOf none ((records.map PollRecord.now).take (k + 1))).isSome = true ∨
        entry.InLastSecond record.now := by
    rw [CronEntry.lastOf_isSome_iff]
    have hsplit : records.take (k + 2) = records.take (k + 1) ++ [record] := by
      rw [List.take_add_one, hrecord]
      rfl
    simp only [hsplit, List.mem_append, List.mem_singleton, ← List.map_take, List.mem_map,
      CronEntry.dueSince_isSome_iff, CronEntry.InLastSecond]
    simp only [Option.isSome_none, Bool.false_eq_true, false_or, Option.getD_none]
    constructor
    · rintro ⟨earlier, hmem | rfl, hoccurs⟩
      · exact .inl ⟨earlier.now, ⟨earlier, hmem, rfl⟩, hoccurs⟩
      · exact .inr hoccurs
    · rintro (⟨t, ⟨earlier, hmem, rfl⟩, hoccurs⟩ | hoccurs)
      · exact ⟨earlier, .inl hmem, hoccurs⟩
      · exact ⟨record, .inr rfl, hoccurs⟩
  rw [hfired, hpolls, ← Option.isSome_iff_exists, CronEntry.dueSince_isSome_iff]
  cases hlast : entry.lastOf none ((records.map PollRecord.now).take (k + 1)) with
  | none => simp [CronEntry.InLastSecond]
  | some t =>
      have hmem := (CronEntry.mem_of_lastOf hlast).resolve_left nofun
      have hle := hinc.le_prev hprev' hmem
      exact ⟨fun _ => .inl rfl, fun _ => ⟨o, ho, hle.trans_lt hafter, hbefore⟩⟩

/-- Three polls: the entry fires at the second, and so it does at the third, although its
occurrence is almost two seconds ago. -/
def latePolls : List DateTime := [⟨59500000000⟩, ⟨60500000000⟩, ⟨121900000000⟩]

/-- An entry that has fired before misses nothing. -/
theorem fires_for_occurrence_iff_minutely :
    ∃ tr record, (schedulerLoop oneMinutely 3 ∅).Trace tr (oneMinutely.history ∅ latePolls) ∧
      (oneMinutely.history ∅ latePolls)[2]? = some record ∧
      ((∃ o', (record.fired[0]?).join = some o') ↔
        ∃ earlier ∈ (oneMinutely.history ∅ latePolls).take 3,
          (minutely "m").InLastSecond earlier.now) := by
  obtain ⟨tr, htrace⟩ := exists_trace_schedulerLoop oneMinutely ∅ latePolls (.ok ())
  have hentry : oneMinutely.entries[0]? = some (minutely "m") := rfl
  have hinc : Increasing ((oneMinutely.history ∅ latePolls).map PollRecord.now) := by
    unfold Increasing
    decide
  have hoccurs : everyMinute.Occurs ⟨120000000000⟩ := ⟨2, rfl⟩
  exact ⟨tr, _, htrace, rfl, fires_for_occurrence_iff (by decide) htrace hentry hinc rfl rfl hoccurs
    (by decide) (by decide)⟩

/-- The readings of two polls, one second and one millisecond apart. -/
def unluckyPolls : List DateTime := [⟨59999500000⟩, ⟨61000500000⟩]

/-- A full minute is missed that falls into the first half of that millisecond. -/
theorem occurrence_missed :
    (oneMinutely.entries.map CronEntry.name).Nodup ∧ Increasing unluckyPolls ∧
      everyMinute.Occurs ⟨60000000000⟩ ∧
      ∃ tr, (schedulerLoop oneMinutely 2 ∅).Trace tr (oneMinutely.history ∅ unluckyPolls) ∧
        CronRegistry.firedBy (oneMinutely.history ∅ unluckyPolls) 0 = [none, none] := by
  obtain ⟨tr, htrace⟩ := exists_trace_schedulerLoop oneMinutely ∅ unluckyPolls (.ok ())
  exact ⟨by decide, by unfold Increasing; decide, ⟨1, rfl⟩, tr, htrace, by decide⟩

/-! ## Entries of one name -/

section SameName

variable {now : DateTime} {entries : List CronEntry} {runs : LastRuns} {name : String}

/-- Nothing is due by a clock that has not passed the last run. -/
theorem CronEntry.due_of_run {entry : CronEntry} {last : DateTime}
    (hlast : runs.lookup entry.name = some last) (hnow : now.nanos ≤ last.nanos) :
    entry.due now runs = none := by
  unfold CronEntry.due
  rw [hlast]
  refine Option.not_isSome_iff_eq_none.mp fun hdue => ?_
  obtain ⟨o, -, hlater, hle⟩ := CronEntry.dueSince_isSome_iff.mp hdue
  exact absurd (lt_of_lt_of_le hlater (hle.trans hnow)) (lt_irrefl _)

/-- No entry of a name fires by a clock that has not passed its last run. -/
theorem firings_of_run {last : DateTime} (hlast : runs.lookup name = some last)
    (hnow : now.nanos ≤ last.nanos) :
    (runs.polled now entries).lookup name = some last ∧
      ∀ (i : Nat) (entry : CronEntry), entries[i]? = some entry → entry.name = name →
        (firings now entries runs)[i]? = some none := by
  induction entries generalizing runs with
  | nil => exact ⟨hlast, fun i entry hi => (nomatch hi)⟩
  | cons e rest ih =>
      have hvisited : (runs.visited now e).lookup name = some last := by
        unfold LastRuns.visited
        by_cases hname : e.name = name
        · subst hname
          rw [CronEntry.due_of_run hlast hnow]
          exact hlast
        · cases e.due now runs with
          | none => exact hlast
          | some o => rwa [AList.lookup_insert_ne (Ne.symm hname)]
      obtain ⟨hpolled, hothers⟩ := ih hvisited
      refine ⟨hpolled, fun i entry hi hname => ?_⟩
      cases i with
      | zero =>
          cases hi
          subst hname
          rw [firings, List.getElem?_cons_zero, CronEntry.due_of_run hlast hnow]
      | succ i => exact hothers i entry hi hname

theorem lookup_visited_of_due {entry : CronEntry} {o : DateTime}
    (h : entry.due now runs = some o) :
    (runs.visited now entry).lookup entry.name = some now := by
  unfold LastRuns.visited
  rw [h]
  exact AList.lookup_insert runs

/-- An entry that fires leaves the time of the poll under its name. -/
theorem lookup_polled_of_fired {j : Nat} {entry : CronEntry} {o : DateTime}
    (hj : entries[j]? = some entry) (hfired : (firings now entries runs)[j]? = some (some o)) :
    (runs.polled now entries).lookup entry.name = some now := by
  induction entries generalizing runs j with
  | nil => cases hj
  | cons e rest ih =>
      cases j with
      | zero =>
          cases hj
          exact (firings_of_run (lookup_visited_of_due (Option.some.inj hfired)) (le_refl _)).1
      | succ j => exact ih hj hfired

/-- Of two entries of one name only one fires at a poll. -/
theorem fires_alone {i j : Nat} {e e' : CronEntry} {o : DateTime} (hij : i ≠ j)
    (hi : entries[i]? = some e) (hj : entries[j]? = some e') (hname : e.name = e'.name)
    (hfired : (firings now entries runs)[j]? = some (some o)) :
    (firings now entries runs)[i]? = some none := by
  induction entries generalizing runs i j with
  | nil => cases hi
  | cons first rest ih =>
      cases i with
      | zero =>
          cases j with
          | zero => exact absurd rfl hij
          | succ j =>
              cases hi
              cases hdue : e.due now runs with
              | none => rw [firings, List.getElem?_cons_zero, hdue]
              | some o' =>
                  have hrun := lookup_visited_of_due hdue
                  have hnone := (firings_of_run hrun (le_refl _)).2 j e' hj hname.symm
                  rw [firings, List.getElem?_cons_succ, hnone] at hfired
                  cases hfired
      | succ i =>
          cases j with
          | zero =>
              cases hj
              have hrun := lookup_visited_of_due (Option.some.inj hfired)
              exact (firings_of_run hrun (le_refl _)).2 i e hi hname
          | succ j => exact ih (fun heq => hij (by rw [heq])) hi hj hfired

end SameName

/-! ## Independence -/

/-- Every entry fires at the polls at which it fires in a registry of its own, when the clock
reads the same. -/
def CronRegistry.Independent (registry : CronRegistry) : Prop :=
  ∀ (n : Nat) (tr tr' : List (Event traits)) (records records' : List PollRecord) (i : Nat)
    (entry : CronEntry), registry.entries[i]? = some entry →
    (schedulerLoop registry n ∅).Trace tr records →
    (schedulerLoop (CronRegistry.new.add entry) n ∅).Trace tr' records' →
    records.map PollRecord.now = records'.map PollRecord.now →
      (firedBy records i).map Option.isSome = (firedBy records' 0).map Option.isSome

/-- The loop adds nothing to the histories of the clock. -/
theorem independent_iff_history (registry : CronRegistry) :
    registry.Independent ↔ ∀ (times : List DateTime) (i : Nat) (entry : CronEntry),
      registry.entries[i]? = some entry →
        (CronRegistry.firedBy (registry.history ∅ times) i).map Option.isSome
          = (CronRegistry.firedBy ((CronRegistry.new.add entry).history ∅ times) 0).map
              Option.isSome := by
  constructor
  · intro h times i entry hi
    obtain ⟨tr, htrace⟩ := exists_trace_schedulerLoop registry ∅ times (.ok ())
    obtain ⟨tr', htrace'⟩ := exists_trace_schedulerLoop (CronRegistry.new.add entry) ∅ times
      (.ok ())
    refine h times.length tr tr' _ _ i entry hi htrace htrace' ?_
    rw [now_history, now_history]
  · intro h n tr tr' records records' i entry hi htrace htrace' hnow
    rw [trace_schedulerLoop htrace, trace_schedulerLoop htrace', ← hnow]
    exact h _ i entry hi

section Independence

variable {registry : CronRegistry} {i : Nat} {entry : CronEntry}

/-- In a registry of its own. -/
theorem firedBy_only (entry : CronEntry) (times : List DateTime) :
    CronRegistry.firedBy ((CronRegistry.new.add entry).history ∅ times) 0
      = entry.alone none times :=
  CronEntry.firedBy_alone (fun _ he => absurd he List.not_mem_nil) ∅ times

/-- An entry without occurrences never fires. -/
theorem firedBy_barren (h : entry.Barren) (hi : registry.entries[i]? = some entry)
    (runs : LastRuns) (times : List DateTime) :
    CronRegistry.firedBy (registry.history runs times) i = times.map fun _ => none := by
  induction times generalizing runs with
  | nil => rfl
  | cons now rest ih =>
      obtain ⟨runs', hdue⟩ := firings_getElem now runs hi
      unfold CronRegistry.history
      show ((firings now registry.entries runs)[i]?).join :: _ = _
      rw [hdue, Option.join_some, CronEntry.due, h.dueSince_eq_none]
      exact congrArg (none :: ·) (ih _)

theorem alone_barren (h : entry.Barren) (times : List DateTime) :
    entry.alone none times = times.map fun _ => none := by
  rw [← firedBy_only]
  exact firedBy_barren h rfl ∅ times

/-- An entry fires at an occurrence if it has no last run. -/
theorem dueSince_occurrence {o : DateTime} (ho : entry.schedule.Occurs o) :
    (entry.dueSince o none).isSome = true := by
  refine CronEntry.dueSince_isSome_iff.mpr ⟨o, ho, ?_, le_refl _⟩
  show o.nanos - 1000000000 < o.nanos
  omega

/-- Two entries of one name that both have occurrences are not independent: let the
later occurrence come first. -/
theorem not_independent {j : Nat} {e : CronEntry} {o o' : DateTime} (hij : i ≠ j)
    (hi : registry.entries[i]? = some entry) (hj : registry.entries[j]? = some e)
    (hname : entry.name = e.name) (ho : entry.schedule.Occurs o) (ho' : e.schedule.Occurs o')
    (hle : o.nanos ≤ o'.nanos) : ¬ registry.Independent := by
  rw [independent_iff_history]
  intro h
  have hsolo := h [o', o] j e hj
  have hother := h [o', o] i entry hi
  rw [firedBy_only] at hsolo hother
  simp only [CronRegistry.history, CronRegistry.firedBy, CronEntry.alone, List.map_cons,
    List.map_nil, List.cons.injEq, and_true] at hsolo hother
  -- the second entry fires at the first poll, so the first one does not
  have hfires : ∃ o'', (firings o' registry.entries ∅)[j]? = some (some o'') := by
    have hsome := hsolo.1
    rw [dueSince_occurrence ho'] at hsome
    obtain ⟨o'', hjoin⟩ := Option.isSome_iff_exists.mp hsome
    exact ⟨o'', Option.join_eq_some_iff.mp hjoin⟩
  obtain ⟨o'', hfired⟩ := hfires
  have hquiet : (entry.dueSince o' none).isSome = false := by
    rw [← hother.1, fires_alone hij hi hj hname hfired]
    rfl
  -- at the second poll it would on its own, but finds the later last run
  have hlast : entry.lastAfter none o' = none := by
    unfold CronEntry.lastAfter
    rw [hquiet]
    rfl
  have hrun := lookup_polled_of_fired hj hfired
  rw [← hname] at hrun
  have hnone := (firings_of_run hrun hle).2 i entry hi rfl
  have hsecond := hother.2
  rw [hnone, hlast, dueSince_occurrence ho] at hsecond
  cases hsecond

/-- The entries of a registry are independent exactly if no two of them that have occurrences
share a name. -/
theorem independent_iff (registry : CronRegistry) :
    registry.Independent ↔
      ∀ (i j : Nat) (e e' : CronEntry), i ≠ j → registry.entries[i]? = some e →
        registry.entries[j]? = some e' → e.name = e'.name → e.Barren ∨ e'.Barren := by
  constructor
  · intro h i j e e' hij hi hj hname
    by_contra hboth
    obtain ⟨hbarren, hbarren'⟩ := not_or.mp hboth
    obtain ⟨o, ho⟩ := not_forall_not.mp hbarren
    obtain ⟨o', ho'⟩ := not_forall_not.mp hbarren'
    rcases le_total o.nanos o'.nanos with hle | hle
    · exact not_independent hij hi hj hname ho ho' hle h
    · exact not_independent (Ne.symm hij) hj hi hname.symm ho' ho hle h
  · rw [independent_iff_history]
    intro h times i entry hi
    rw [firedBy_only]
    by_cases hbarren : entry.Barren
    · rw [firedBy_barren hbarren hi, alone_barren hbarren]
    · have hsole : registry.Sole i entry := fun j e hji hj hname =>
        (h i j entry e (Ne.symm hji) hi hj hname.symm).resolve_left hbarren
      rw [hsole.firedBy hi]

end Independence

/-- Two entries of one name. -/
def twoMinutely : CronRegistry := (CronRegistry.new.add (minutely "m")).add (minutely "m")

/-- The second of two entries of one name does not fire, although it would on its own. -/
theorem entries_interfere :
    CronRegistry.firedBy (twoMinutely.history ∅ [⟨60500000000⟩]) 1 = [none] ∧
      CronRegistry.firedBy ((CronRegistry.new.add (minutely "m")).history ∅ [⟨60500000000⟩]) 0
        = [some ⟨60000000000⟩] ∧
      ¬ twoMinutely.Independent := by
  have hjoint : CronRegistry.firedBy (twoMinutely.history ∅ [⟨60500000000⟩]) 1 = [none] := by
    decide
  have halone : CronRegistry.firedBy ((CronRegistry.new.add (minutely "m")).history ∅
      [⟨60500000000⟩]) 0 = [some ⟨60000000000⟩] := by decide
  refine ⟨hjoint, halone, fun h => ?_⟩
  have hsame := (independent_iff_history twoMinutely).mp h [⟨60500000000⟩] 1 (minutely "m") rfl
  rw [hjoint, halone] at hsame
  cases hsame

end Kojin.Core
