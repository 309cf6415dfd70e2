/-
  Redis/ResultBackend.lean --- results and groups in Redis (`kojin-redis`:
  `result_backend.rs`).

  Every method is one command, so the backend answers method by method.  A group
  is a counter and a list of printed results; the counter and the push are one
  script.  Neither key expires, unlike the total the group is announced with.

  `groupBackend` is the statement that this is enough for a chord: the backend
  holds exactly the results that were completed, as long as the JSON library
  reads back what it printed.
-/
import Kojin.Core.GroupBackend
import Kojin.Redis.Commands
import Kojin.Redis.Keys

set_option autoImplicit false

namespace Kojin.Redis

open Kojin.Foundation Kojin.Core

/-- `RedisResultBackend`: its keys and the lifetime of results, in seconds. -/
structure RedisResultBackend where
  keys : KeyBuilder
  ttl : Nat

variable {σ : Type} [LinearOrder σ]

namespace RedisResultBackend

/-- `backend_err`. -/
def backendErr (e : CommandError) : KojinError := .resultBackend e

/-- How `serde_json` reads a value. -/
abbrev Decode : Type := String → Except String Json

/-- `RedisResultBackend::store`. -/
def store (b : RedisResultBackend) (id : TaskId) (result : Json) : Attempt σ Unit := do
  command backendErr .conn
  command backendErr (.setEx (b.keys.result id.toText) (.text result.print) b.ttl)

/-- `RedisResultBackend::init_group`. -/
def initGroup (b : RedisResultBackend) (group : String) (total : UInt32) : Attempt σ Unit := do
  command backendErr .conn
  command backendErr (.setEx (b.keys.groupTotal group) (.int total.toNat) b.ttl)

/-- `RedisResultBackend::complete_group_member`.  The client library keeps the low
32 bits of the count. -/
def completeGroupMember (b : RedisResultBackend) (group : String) (result : Json) :
    Attempt σ UInt32 := do
  command backendErr .conn
  let count ← command backendErr
    (.groupComplete (b.keys.groupCompleted group) (b.keys.groupResults group) result.print)
  pure (UInt32.ofNat count.toNat)

/-- `RedisResultBackend::get_group_results`. -/
def getGroupResults (b : RedisResultBackend) (decode : Decode) (group : String) :
    Attempt σ (List Json) := do
  command backendErr .conn
  let items ← command backendErr (.lrange (b.keys.groupResults group) 0 (-1))
  decoded (items.mapM fun s => (decode s).mapError .serialization)

/-- `impl ResultBackend for RedisResultBackend`. -/
def driver (b : RedisResultBackend) (decode : Decode) : BackendDriver (commands σ)
  | .store id result => (b.store id result).run
  | .initGroup group total => (b.initGroup group total).run
  | .completeGroupMember group _ result => (b.completeGroupMember group result).run
  | .getGroupResults group => (b.getGroupResults decode group).run

/-- The backend on a server where no command fails, method by method. -/
def service (σ : Type) [LinearOrder σ] (b : RedisResultBackend) (decode : Decode)
    (queueOf : String → Except CommandError String) : Service resultBackendTrait where
  State := Keyspace σ
  Oracle := Nat
  respond elapsed r op := (steadyServer queueOf).eval elapsed (b.driver decode op) r

/-! ## Groups -/

section Groups

variable {b : RedisResultBackend} {decode : Decode}
  {queueOf : String → Except CommandError String}

/-- A method takes a connection and sends its command. -/
theorem eval_method {α : Type} {dt : Nat} {r : Keyspace σ} {op : RedisOp σ}
    {f : op.Ans → Attempt σ α} {out : TaskResult α × Keyspace σ}
    (h : (steadyServer queueOf).eval dt
      (ExceptT.run (do command backendErr .conn; let a ← command backendErr op; f a)) r =
        some out) :
    ∃ a r', perform queueOf ((r.advance dt).advance dt) op = (.ok a, r') ∧
      (steadyServer queueOf).eval dt (f a).run r' = some out := by
  obtain ⟨⟨⟩, r₁, hconn, hrest⟩ := eval_bind_cases h
  cases hconn
  exact eval_bind_cases hrest

/-- A method that returns what its command answers. -/
theorem eval_last {dt : Nat} {r : Keyspace σ} {op : RedisOp σ}
    {out : TaskResult op.Ans × Keyspace σ}
    (h : (steadyServer queueOf).eval dt
      (ExceptT.run (do command backendErr .conn; command backendErr op)) r = some out) :
    ∃ a r', perform queueOf ((r.advance dt).advance dt) op = (.ok a, r') ∧ out = (.ok a, r') := by
  obtain ⟨⟨⟩, r₁, hconn, hrest⟩ := eval_bind_cases h
  cases hconn
  exact eval_command_cases hrest

/-- What the counter of a group is when so many members have completed. -/
def counter (n : Nat) : Option (Entry σ) := if n = 0 then none else some ⟨.int n, none⟩

/-- What its list of results is. -/
def resultList (rs : List Json) : Option (Entry σ) :=
  if rs = [] then none else some ⟨.list (rs.map Json.print), none⟩

/-- The keys of a group, when it holds the results `rs`. -/
structure HoldsGroup (b : RedisResultBackend) (r : Keyspace σ) (group : String)
    (rs : List Json) : Prop where
  completed : r.keys (b.keys.groupCompleted group) = counter rs.length
  results : r.keys (b.keys.groupResults group) = resultList rs

/-- Only the two keys of the group matter. -/
theorem HoldsGroup.congr {r r' : Keyspace σ} {group : String} {rs : List Json}
    (h : HoldsGroup b r group rs)
    (hcompleted : r'.keys (b.keys.groupCompleted group) = r.keys (b.keys.groupCompleted group))
    (hresults : r'.keys (b.keys.groupResults group) = r.keys (b.keys.groupResults group)) :
    HoldsGroup b r' group rs :=
  ⟨hcompleted.trans h.completed, hresults.trans h.results⟩

theorem HoldsGroup.lasting_completed {r : Keyspace σ} {group : String} {rs : List Json}
    (h : HoldsGroup b r group rs) : r.Lasting (b.keys.groupCompleted group) := by
  intro e he
  rw [h.completed, counter] at he
  split at he <;> cases he
  rfl

theorem HoldsGroup.lasting_results {r : Keyspace σ} {group : String} {rs : List Json}
    (h : HoldsGroup b r group rs) : r.Lasting (b.keys.groupResults group) := by
  intro e he
  rw [h.results, resultList] at he
  split at he <;> cases he
  rfl

/-- The results of a group, as a list command sees them. -/
theorem HoldsGroup.list? {r : Keyspace σ} {group : String} {rs : List Json}
    (h : HoldsGroup b r group rs) :
    r.list? (b.keys.groupResults group) = .ok (rs.map Json.print) := by
  unfold Keyspace.list?
  rw [Keyspace.get_of_lasting h.lasting_results, h.results, resultList]
  by_cases hrs : rs = []
  · rw [if_pos hrs, hrs]
    rfl
  · rw [if_neg hrs]
    rfl

/-- The next completion. -/
theorem HoldsGroup.complete {r r' : Keyspace σ} {group : String} {rs : List Json}
    {result : Json} {count : Int} (h : HoldsGroup b r group rs)
    (hperform : groupCompleteScript (b.keys.groupCompleted group) (b.keys.groupResults group)
      result.print r = (.ok count, r')) :
    count = (rs.length + 1 : Nat) ∧ HoldsGroup b r' group (rs ++ [result]) := by
  obtain ⟨items, rfl, hitems, hcount⟩ := groupCompleteScript_cases hperform
  have hne := b.keys.groupCompleted_ne_groupResults group group
  -- writing the counter leaves the list alone
  have hkeep : (r.write (b.keys.groupCompleted group) (.int count)).keys
      (b.keys.groupResults group) = r.keys (b.keys.groupResults group) :=
    r.keys_write_ne hne.symm _
  have hlasting : (r.write (b.keys.groupCompleted group) (.int count)).Lasting
      (b.keys.groupResults group) := by
    intro e he
    exact h.lasting_results e (hkeep ▸ he)
  have hlist : items = rs.map Json.print := by
    have hold := h.list?
    unfold Keyspace.list? at hitems hold
    rw [Keyspace.get_of_lasting hlasting, hkeep,
      ← Keyspace.get_of_lasting h.lasting_results, hold] at hitems
    exact (Except.ok.inj hitems).symm
  have hn : count = (rs.length + 1 : Nat) := by
    have hget := Keyspace.get_of_lasting h.lasting_completed
    rw [h.completed, counter] at hget
    rcases hcount with ⟨hnone, rfl⟩ | ⟨n, hsome, rfl⟩
    · rw [hnone] at hget
      split at hget
      · rename_i hzero
        rw [hzero]
        rfl
      · cases hget
    · rw [hsome] at hget
      split at hget
      · cases hget
      · cases hget
        rfl
  refine ⟨hn, ?_, ?_⟩
  · rw [Keyspace.keys_writeList_ne _ hne, Keyspace.keys_write_of_lasting h.lasting_completed,
      counter, List.length_append, hn, if_neg (by simp)]
    rfl
  · have hnil : items ++ [result.print] ≠ [] := by simp
    rw [Keyspace.keys_writeList_of_lasting hlasting hnil, resultList, if_neg (by simp), hlist,
      List.map_append]
    rfl

/-- What a key of a group holds is not a matter of time. -/
theorem HoldsGroup.advance {r : Keyspace σ} {group : String} {rs : List Json}
    (h : HoldsGroup b r group rs) (dt : Nat) :
    HoldsGroup b ((r.advance dt).advance dt) group rs := ⟨h.completed, h.results⟩

/-- Setting a key that belongs to no group. -/
theorem HoldsGroup.setEx {r r' : Keyspace σ} {group key : String} {v : Value σ} {secs : Nat}
    {rs : List Json} (h : HoldsGroup b r group rs)
    (hcompleted : b.keys.groupCompleted group ≠ key) (hresults : b.keys.groupResults group ≠ key)
    (hperform : perform queueOf r (.setEx key v secs) = (.ok (), r')) :
    HoldsGroup b r' group rs := by
  have hset : commit r ((r.setEx key v secs).map ((), ·)) = (.ok (), r') := hperform
  cases hcase : r.setEx key v secs with
  | error e =>
      rw [hcase] at hset
      cases hset
  | ok r₁ =>
      rw [hcase] at hset
      cases hset
      obtain rfl := Keyspace.setEx_cases hcase
      exact h.congr (r.keys_store_ne hcompleted v secs) (r.keys_store_ne hresults v secs)

/-- The completion of a member of another group. -/
theorem HoldsGroup.other {r r' : Keyspace σ} {group group' result : String} {count : Int}
    {rs : List Json} (h : HoldsGroup b r group rs) (hne : group ≠ group')
    (hperform : groupCompleteScript (b.keys.groupCompleted group') (b.keys.groupResults group')
      result r = (.ok count, r')) : HoldsGroup b r' group rs := by
  obtain ⟨items, rfl, -, -⟩ := groupCompleteScript_cases hperform
  have hcompleted := b.keys.groupCompleted_ne_groupResults
  have hcompleted' : b.keys.groupCompleted group ≠ b.keys.groupCompleted group' :=
    fun heq => hne (b.keys.groupCompleted_inj heq)
  have hresults' : b.keys.groupResults group ≠ b.keys.groupResults group' :=
    fun heq => hne (b.keys.groupResults_inj heq)
  refine h.congr ?_ ?_
  · rw [Keyspace.keys_writeList_ne _ (hcompleted group group'), Keyspace.keys_write_ne _ hcompleted']
  · rw [Keyspace.keys_writeList_ne _ hresults',
      Keyspace.keys_write_ne _ (hcompleted group' group).symm]

/-- Results that are read back one by one are read back together. -/
theorem decode_results {rs : List Json} (h : ∀ x ∈ rs, decode x.print = .ok x) :
    (rs.map Json.print).mapM (fun s => (decode s).mapError KojinError.serialization) =
      Except.ok rs := by
  induction rs with
  | nil => rfl
  | cons x rs ih =>
      have hx := h x List.mem_cons_self
      have hrs := ih fun y hy => h y (List.mem_cons_of_mem x hy)
      rw [List.map_cons, List.mapM_cons, hx, hrs]
      rfl

/-- The Redis backend keeps the groups of a chord. -/
def groupBackend (b : RedisResultBackend) (decode : Decode)
    (queueOf : String → Except CommandError String) :
    GroupBackend (b.service σ decode queueOf) where
  Untouched r group := HoldsGroup b r group []
  Holds r group rs := HoldsGroup b r group rs
  Faithful v := decode v.print = .ok v
  init := by
    intro dt r r' group total answer hholds h
    obtain ⟨⟨⟩, r₁, hperform, heval⟩ := eval_last h
    cases heval
    exact ⟨rfl, (hholds.advance dt).setEx (b.keys.groupCompleted_ne_groupTotal group group)
      (b.keys.groupResults_ne_groupTotal group group) hperform⟩
  complete := by
    intro dt r r' group task result answer rs hholds hlt h
    obtain ⟨count, r₁, hperform, heval⟩ := eval_method h
    obtain ⟨rfl, hcomplete⟩ := (hholds.advance dt).complete hperform
    cases heval
    exact ⟨rfl, hcomplete⟩
  results := by
    intro dt r r' group answer rs hholds hfaithful h
    obtain ⟨items, r₁, hperform, heval⟩ := eval_method h
    have hrange : ((r.advance dt).advance dt).lrange (b.keys.groupResults group) 0 (-1) =
        .ok (rs.map Json.print) := by
      rw [Keyspace.lrange_all]
      exact (hholds.advance dt).list?
    have hitems : (((r.advance dt).advance dt).lrange (b.keys.groupResults group) 0 (-1),
        (r.advance dt).advance dt) = (Except.ok items, r₁) := hperform
    rw [hrange] at hitems
    cases hitems
    have hdecoded : some ((rs.map Json.print).mapM
        (fun s => (decode s).mapError KojinError.serialization), (r.advance dt).advance dt) =
        some (answer, r') := heval
    rw [decode_results hfaithful] at hdecoded
    cases hdecoded
    exact ⟨rfl, hholds.advance dt⟩
  frame := by
    intro dt r r' group op answer hne h
    have hframe : ∀ rs, HoldsGroup b r group rs → HoldsGroup b r' group rs := by
      intro rs hholds
      cases op with
      | store id result =>
          obtain ⟨⟨⟩, r₁, hperform, heval⟩ := eval_last h
          cases heval
          exact (hholds.advance dt).setEx (b.keys.groupCompleted_ne_result group _)
            (b.keys.groupResults_ne_result group _) hperform
      | initGroup group' total =>
          obtain ⟨⟨⟩, r₁, hperform, heval⟩ := eval_last h
          cases heval
          exact (hholds.advance dt).setEx (b.keys.groupCompleted_ne_groupTotal group group')
            (b.keys.groupResults_ne_groupTotal group group') hperform
      | completeGroupMember group' task result =>
          obtain ⟨count, r₁, hperform, heval⟩ := eval_method h
          cases heval
          exact (hholds.advance dt).other (fun heq => hne (congrArg some heq.symm)) hperform
      | getGroupResults group' =>
          obtain ⟨items, r₁, hperform, heval⟩ := eval_method h
          obtain rfl : (r.advance dt).advance dt = r₁ := congrArg Prod.snd hperform
          cases heval
          exact hholds.advance dt
    exact ⟨hframe [], hframe⟩

end Groups

end RedisResultBackend

end Kojin.Redis
