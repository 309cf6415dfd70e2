/-
  Redis/GroupHistory.lean --- groups in a sequential history of the Redis backend
  (`kojin-redis`: `result_backend.rs`).

  The counter and the list of a group are never reset, so they hold every completion
  of the group there has been, whatever else the history did, up to the largest number
  that a counter of Redis can hold.  A command that fails is answered with its error,
  as `init_group` is when the lifetime cannot be set.
-/
import Kojin.Core.GroupHistory
import Kojin.Redis.ResultBackend

set_option autoImplicit false

namespace Kojin.Redis

open Kojin.Foundation Kojin.Core

namespace RedisResultBackend

variable {σ : Type} [LinearOrder σ] {b : RedisResultBackend} {decode : Decode}
  {queueOf : String → Except CommandError String} {calls : List ResultBackendOp}
  {r r' : Keyspace σ} {group : String} {rs : List Json}

/-- The backend when nothing is lost of a command. -/
def answering (σ : Type) [LinearOrder σ] (b : RedisResultBackend) (decode : Decode)
    (queueOf : String → Except CommandError String) : Service resultBackendTrait where
  State := Keyspace σ
  Oracle := Nat
  respond elapsed r op := (server queueOf).eval ⟨elapsed, none⟩ (b.driver decode op) r

/-! ## One command -/

/-- A method takes a connection and goes on. -/
theorem eval_conn {α : Type} (queueOf : String → Except CommandError String) (dt : Nat)
    (p : Attempt σ α) (r : Keyspace σ) :
    (server queueOf).eval ⟨dt, none⟩ (ExceptT.run (do command backendErr .conn; p)) r =
      (server queueOf).eval ⟨dt, none⟩ p.run (r.advance dt) := by
  have hconn : (server queueOf).respond ⟨dt, none⟩ r .conn = some (.ok (), r.advance dt) :=
    server_respond_of rfl rfl
  show ((server queueOf).respond ⟨dt, none⟩ r .conn).bind _ = _
  rw [hconn]
  rfl

/-- A method takes a connection and sends its command; its answer is what comes of the
command's. -/
theorem eval_answering {α : Type} (queueOf : String → Except CommandError String) (dt : Nat)
    (op : RedisOp σ) (hop : ∀ r : Keyspace σ, op.waits r = false) (f : op.Ans → Attempt σ α)
    (r : Keyspace σ) :
    (server queueOf).eval ⟨dt, none⟩
        (ExceptT.run (do command backendErr .conn; let a ← command backendErr op; f a)) r =
      match perform queueOf ((r.advance dt).advance dt) op with
      | (.ok a, r') => (server queueOf).eval ⟨dt, none⟩ (f a).run r'
      | (.error e, r') => some (.error (backendErr e), r') := by
  have hrespond : (server queueOf).respond ⟨dt, none⟩ (r.advance dt) op =
      some (perform queueOf ((r.advance dt).advance dt) op) :=
    server_respond_of rfl (hop _)
  rw [eval_conn]
  show ((server queueOf).respond ⟨dt, none⟩ (r.advance dt) op).bind _ = _
  rw [hrespond]
  cases hperform : perform queueOf ((r.advance dt).advance dt) op with
  | mk ans r' => cases ans <;> rfl

/-- A method that takes a connection and returns what its command answers. -/
theorem eval_answering_last (queueOf : String → Except CommandError String) (dt : Nat)
    (op : RedisOp σ) (hop : ∀ r : Keyspace σ, op.waits r = false) (r : Keyspace σ) :
    (server queueOf).eval ⟨dt, none⟩
        (ExceptT.run (do command backendErr .conn; command backendErr op)) r =
      some ((perform queueOf ((r.advance dt).advance dt) op).1.mapError backendErr,
        (perform queueOf ((r.advance dt).advance dt) op).2) := by
  have hrespond : (server queueOf).respond ⟨dt, none⟩ (r.advance dt) op =
      some (perform queueOf ((r.advance dt).advance dt) op) :=
    server_respond_of rfl (hop _)
  rw [eval_conn]
  show ((server queueOf).respond ⟨dt, none⟩ (r.advance dt) op).bind _ = _
  rw [hrespond]
  rfl

/-- Setting a key that belongs to no group, whether it is set or not. -/
theorem HoldsGroup.setEx_any {key : String} {v : Value σ} {secs : Nat}
    {ans : Except CommandError Unit} (h : HoldsGroup b r group rs)
    (hcompleted : b.keys.groupCompleted group ≠ key) (hresults : b.keys.groupResults group ≠ key)
    (hperform : perform queueOf r (.setEx key v secs) = (ans, r')) : HoldsGroup b r' group rs := by
  cases ans with
  | ok u => exact h.setEx hcompleted hresults hperform
  | error e =>
      have hset : commit r ((r.setEx key v secs).map ((), ·)) = (.error e, r') := hperform
      cases hcase : r.setEx key v secs with
      | ok r₁ =>
          rw [hcase] at hset
          cases hset
      | error e' =>
          rw [hcase] at hset
          cases hset
          exact h

/-- The completion of a member of another group, whether it is counted or not. -/
theorem HoldsGroup.other_any {group' result : String} {ans : Except CommandError Int}
    (h : HoldsGroup b r group rs) (hne : group ≠ group')
    (hperform : groupCompleteScript (b.keys.groupCompleted group') (b.keys.groupResults group')
      result r = (ans, r')) : HoldsGroup b r' group rs := by
  cases ans with
  | ok count => exact h.other hne hperform
  | error e =>
      unfold groupCompleteScript at hperform
      split at hperform
      · cases hperform
        exact h
      · rename_i count r₁ hincr
        split at hperform
        · cases hperform
          obtain ⟨rfl, -⟩ := Keyspace.incr_cases hincr
          exact h.congr
            (r.keys_write_ne (fun heq => hne (b.keys.groupCompleted_inj heq)) _)
            (r.keys_write_ne (b.keys.groupCompleted_ne_groupResults group' group).symm _)
        · cases hperform

/-- The next completion is counted, as long as the counter has a next number. -/
theorem HoldsGroup.complete_ok (h : HoldsGroup b r group rs) (hlt : rs.length + 1 < 2 ^ 63)
    (result : Json) : ∃ r', groupCompleteScript (b.keys.groupCompleted group)
      (b.keys.groupResults group) result.print r = (.ok (rs.length + 1 : Nat), r') := by
  have hget : r.get (b.keys.groupCompleted group) =
      if rs.length = 0 then none else some (.int rs.length) := by
    rw [Keyspace.get_of_lasting h.lasting_completed, h.completed, counter]
    split <;> rfl
  have hincr : r.incr (b.keys.groupCompleted group) = .ok ((rs.length + 1 : Nat),
      r.write (b.keys.groupCompleted group) (.int (rs.length + 1 : Nat))) := by
    unfold Keyspace.incr
    rw [hget]
    split
    · rename_i hnone
      have hzero : rs.length = 0 := by
        by_contra hne
        rw [if_neg hne] at hnone
        cases hnone
      rw [hzero]
      rfl
    · rename_i n hsome
      have hn : n = rs.length := by
        split at hsome
        · cases hsome
        · cases hsome
          rfl
      rw [hn, if_pos (by exact_mod_cast hlt)]
      rfl
    · rename_i hsome
      split at hsome <;> cases hsome
    · rename_i v hne hnone hsome
      split at hsome
      · cases hsome
      · cases hsome
        exact absurd rfl (hne _)
  have hkeep : (r.write (b.keys.groupCompleted group) (.int (rs.length + 1 : Nat))).keys
      (b.keys.groupResults group) = r.keys (b.keys.groupResults group) :=
    r.keys_write_ne (b.keys.groupCompleted_ne_groupResults group group).symm _
  have hlasting : (r.write (b.keys.groupCompleted group) (.int (rs.length + 1 : Nat))).Lasting
      (b.keys.groupResults group) := by
    intro e he
    exact h.lasting_results e (hkeep ▸ he)
  have hlist : (r.write (b.keys.groupCompleted group) (.int (rs.length + 1 : Nat))).list?
      (b.keys.groupResults group) = .ok (rs.map Json.print) := by
    rw [← h.list?]
    unfold Keyspace.list?
    rw [Keyspace.get_of_lasting hlasting, hkeep, Keyspace.get_of_lasting h.lasting_results]
  have hpush : (r.write (b.keys.groupCompleted group) (.int (rs.length + 1 : Nat))).rpush
      (b.keys.groupResults group) result.print =
        .ok ((r.write (b.keys.groupCompleted group) (.int (rs.length + 1 : Nat))).writeList
          (b.keys.groupResults group) (rs.map Json.print ++ [result.print])) := by
    rw [Keyspace.rpush, hlist]
    rfl
  exact ⟨_, by simp only [groupCompleteScript, hincr, hpush]; rfl⟩

/-! ## Histories -/

/-- Every group holds all its completions, as far as they can be counted. -/
def Tracks (b : RedisResultBackend) (calls : List ResultBackendOp) (r : Keyspace σ) : Prop :=
  ∀ group, (completionsIn group calls).length < 2 ^ 63 →
    HoldsGroup b r group ((completionsIn group calls).map Prod.snd)

/-- What the calls answer after those made so far. -/
def Answers (decode : Decode) (calls : List ResultBackendOp) :
    (op : ResultBackendOp) → op.Res → Prop
  | .store _ _, _ => True
  | .initGroup _ _, _ => True
  | .completeGroupMember group _ _, r => (completionsIn group calls).length + 1 < 2 ^ 63 →
      r = .ok (UInt32.ofNat ((completionsIn group calls).length + 1))
  | .getGroupResults group, r => (completionsIn group calls).length < 2 ^ 63 →
      r = ((completionsIn group calls).map (Json.print ∘ Prod.snd)).mapM fun s =>
        (decode s).mapError .serialization

theorem tracks_empty (clock : Nat) : Tracks b [] (Keyspace.empty clock : Keyspace σ) :=
  fun _ _ => ⟨rfl, rfl⟩

/-- A call that is no completion. -/
theorem Tracks.quiet {op : ResultBackendOp} (h : Tracks b calls r)
    (hop : ∀ group, op.completion group = none)
    (hkeep : ∀ group rs, HoldsGroup b r group rs → HoldsGroup b r' group rs) :
    Tracks b (calls ++ [op]) r' := by
  intro group hlt
  rw [completionsIn_snoc, hop group, Option.toList_none, List.append_nil] at hlt ⊢
  exact hkeep group _ (h group hlt)

/-- A completion. -/
theorem Tracks.complete {group : String} (task : TaskId) {result : Json}
    {ans : Except CommandError Int} (h : Tracks b calls r)
    (hperform : groupCompleteScript (b.keys.groupCompleted group) (b.keys.groupResults group)
      result.print r = (ans, r')) :
    ((completionsIn group calls).length + 1 < 2 ^ 63 →
      ans = .ok ((completionsIn group calls).length + 1 : Nat)) ∧
    Tracks b (calls ++ [.completeGroupMember group task result]) r' := by
  have hnext : (completionsIn group calls).length + 1 < 2 ^ 63 →
      ans = .ok ((completionsIn group calls).length + 1 : Nat) ∧
        HoldsGroup b r' group ((completionsIn group calls).map Prod.snd ++ [result]) := by
    intro hlt
    have hholds := h group (Nat.lt_of_succ_lt hlt)
    obtain ⟨r₁, hok⟩ := hholds.complete_ok (by simpa using hlt) result
    have heq := hok.symm.trans hperform
    cases heq
    rw [List.length_map] at hok ⊢
    exact ⟨rfl, (hholds.complete hok).2⟩
  refine ⟨fun hlt => (hnext hlt).1, fun g hlt => ?_⟩
  rw [completionsIn_snoc] at hlt ⊢
  by_cases hg : group = g
  · subst hg
    simp only [ResultBackendOp.completion, if_true, Option.toList_some, List.length_append,
      List.length_singleton, List.map_append, List.map_cons, List.map_nil] at hlt ⊢
    exact (hnext hlt).2
  · simp only [ResultBackendOp.completion, if_neg hg, Option.toList_none, List.append_nil] at hlt ⊢
    exact (h g hlt).other_any (Ne.symm hg) hperform

/-- One call. -/
theorem Tracks.respond {dt : Nat} {op : ResultBackendOp} {answer : op.Res} (h : Tracks b calls r)
    (hrespond : (b.answering σ decode queueOf).respond dt r op = some (answer, r')) :
    Answers decode calls op answer ∧ Tracks b (calls ++ [op]) r' := by
  have htick : Tracks b calls ((r.advance dt).advance dt) :=
    fun group hlt => (h group hlt).advance dt
  cases op with
  | store id result =>
      have heval := (eval_answering_last queueOf dt (.setEx (b.keys.result id.toText)
        (.text result.print) b.ttl) (fun _ => rfl) r).symm.trans hrespond
      obtain ⟨⟨ans, r₁⟩, hperform⟩ : ∃ p, perform queueOf ((r.advance dt).advance dt)
          (.setEx (b.keys.result id.toText) (.text result.print) b.ttl) = p := ⟨_, rfl⟩
      rw [hperform] at heval
      cases heval
      exact ⟨trivial, htick.quiet (fun _ => rfl) fun group rs hholds =>
        hholds.setEx_any (b.keys.groupCompleted_ne_result group _)
          (b.keys.groupResults_ne_result group _) hperform⟩
  | initGroup g total =>
      have heval := (eval_answering_last queueOf dt (.setEx (b.keys.groupTotal g)
        (.int total.toNat) b.ttl) (fun _ => rfl) r).symm.trans hrespond
      obtain ⟨⟨ans, r₁⟩, hperform⟩ : ∃ p, perform queueOf ((r.advance dt).advance dt)
          (.setEx (b.keys.groupTotal g) (.int total.toNat) b.ttl) = p := ⟨_, rfl⟩
      rw [hperform] at heval
      cases heval
      exact ⟨trivial, htick.quiet (fun _ => rfl) fun group rs hholds =>
        hholds.setEx_any (b.keys.groupCompleted_ne_groupTotal group g)
          (b.keys.groupResults_ne_groupTotal group g) hperform⟩
  | completeGroupMember g task result =>
      have heval := (eval_answering queueOf dt
        (.groupComplete (b.keys.groupCompleted g) (b.keys.groupResults g) result.print)
        (fun _ => rfl) (fun count => pure (UInt32.ofNat count.toNat)) r).symm.trans hrespond
      split at heval
      · rename_i count r₁ hperform
        obtain ⟨hcount, htracks⟩ := htick.complete task hperform
        cases heval
        refine ⟨fun hlt => ?_, htracks⟩
        cases hcount hlt
        rfl
      · rename_i e r₁ hperform
        obtain ⟨hcount, htracks⟩ := htick.complete task hperform
        cases heval
        refine ⟨fun hlt => ?_, htracks⟩
        cases hcount hlt
  | getGroupResults g =>
      have heval := (eval_answering queueOf dt (.lrange (b.keys.groupResults g) 0 (-1)) (fun _ => rfl)
        (fun items => decoded (items.mapM fun s => (decode s).mapError .serialization))
        r).symm.trans hrespond
      obtain ⟨ans, hans⟩ : ∃ ans, perform queueOf ((r.advance dt).advance dt)
          (.lrange (b.keys.groupResults g) 0 (-1)) = (ans, (r.advance dt).advance dt) := ⟨_, rfl⟩
      rw [hans] at heval
      have hstate : (r.advance dt).advance dt = r' := by
        cases ans with
        | ok items =>
            cases heval
            rfl
        | error e =>
            cases heval
            rfl
      refine ⟨fun hlt => ?_, hstate ▸ htick.quiet (fun _ => rfl) fun _ _ hholds => hholds⟩
      have hrange : ((r.advance dt).advance dt).lrange (b.keys.groupResults g) 0 (-1) =
          .ok (((completionsIn g calls).map Prod.snd).map Json.print) := by
        rw [Keyspace.lrange_all]
        exact (htick g hlt).list?
      obtain rfl : ans = .ok (((completionsIn g calls).map Prod.snd).map Json.print) :=
        (congrArg Prod.fst hans).symm.trans hrange
      rw [List.map_map] at heval
      cases heval
      rfl

/-- Every call is answered. -/
theorem answers_every (dt : Nat) (r : Keyspace σ) (op : ResultBackendOp) :
    ∃ p, (b.answering σ decode queueOf).respond dt r op = some p := by
  cases op with
  | store id result =>
      exact ⟨_, eval_answering_last queueOf dt
        (.setEx (b.keys.result id.toText) (.text result.print) b.ttl) (fun _ => rfl) r⟩
  | initGroup group total =>
      exact ⟨_, eval_answering_last queueOf dt
        (.setEx (b.keys.groupTotal group) (.int total.toNat) b.ttl) (fun _ => rfl) r⟩
  | completeGroupMember group task result =>
      have heval := eval_answering queueOf dt
        (.groupComplete (b.keys.groupCompleted group) (b.keys.groupResults group) result.print)
        (fun _ => rfl) (fun count => pure (UInt32.ofNat count.toNat)) r
      split at heval <;> exact ⟨_, heval⟩
  | getGroupResults group =>
      have heval := eval_answering queueOf dt
        (.lrange (b.keys.groupResults group) 0 (-1)) (fun _ => rfl)
        (fun items => decoded (items.mapM fun s => (decode s).mapError .serialization)) r
      split at heval <;> exact ⟨_, heval⟩

/-- What every history answers. -/
theorem answered {clock : Nat} {todo : List (Nat × ResultBackendOp)}
    {history : List (Event resultBackendTrait)}
    (h : (b.answering σ decode queueOf).serve todo (Keyspace.empty clock) = some (history, r)) :
    Answered (Answers decode) [] history :=
  (Service.serve_answered (R := Tracks b) (fun _ _ _ _ _ _ hs => hs.respond) (tracks_empty clock)
    h).1

/-! ## Numbers -/

/-- What Redis needs of a completion: the task has not completed in the group before, and
there are fewer than `2 ^ 32` of them. -/
def New (calls : List ResultBackendOp) : ResultBackendOp → Prop
  | .completeGroupMember group task result =>
      task ∉ (completionsIn group calls).map Prod.fst ∧
      membersDone group (calls ++ [.completeGroupMember group task result]) < 2 ^ 32
  | _ => True

/-- As long as its calls are like this, no task completes twice. -/
theorem nodup_of_new (h : Throughout New calls) (group : String) :
    ((completionsIn group calls).map Prod.fst).Nodup := by
  induction calls using List.reverseRec with
  | nil => exact List.nodup_nil
  | append_singleton calls op ih =>
      obtain ⟨hbefore, hlast⟩ := throughout_snoc.mp h
      rw [completionsIn_snoc, List.map_append]
      cases op with
      | completeGroupMember g task result =>
          by_cases hg : g = group
          · subst hg
            simp only [ResultBackendOp.completion, if_true, Option.toList_some, List.map_cons,
              List.map_nil]
            exact (ih hbefore).append (List.nodup_singleton task) (by simpa using hlast.1)
          · simpa [ResultBackendOp.completion, hg] using ih hbefore
      | _ => simpa [ResultBackendOp.completion] using ih hbefore

/-- As long as its calls are like this, there are no more completions than a number of 32 bits can
count. -/
theorem length_lt_of_new (h : Throughout New calls) (group : String) :
    (completionsIn group calls).length < 2 ^ 32 := by
  induction calls using List.reverseRec with
  | nil => exact Nat.two_pow_pos 32
  | append_singleton calls op ih =>
      obtain ⟨hbefore, hlast⟩ := throughout_snoc.mp h
      rw [completionsIn_snoc, List.length_append]
      cases op with
      | completeGroupMember g task result =>
          by_cases hg : g = group
          · subst hg
            obtain ⟨hnew, hlt⟩ := hlast
            rw [membersDone_of_new (nodup_of_new hbefore g) hnew] at hlt
            simpa [ResultBackendOp.completion] using hlt
          · simpa [ResultBackendOp.completion, hg] using ih hbefore
      | _ => simpa [ResultBackendOp.completion] using ih hbefore

/-- One completion: it is counted rightly exactly when its task is new. -/
theorem counted_iff_new (calls : List ResultBackendOp) (op : ResultBackendOp) (r : op.Res)
    (h : Throughout New calls) (hanswer : Answers decode calls op r) :
    Counted calls op r ↔ New calls op := by
  cases op with
  | store id result => exact Iff.rfl
  | initGroup g total => exact Iff.rfl
  | getGroupResults g => exact Iff.rfl
  | completeGroupMember group task result =>
      have hlength := length_lt_of_new h group
      have hr : r = .ok (UInt32.ofNat ((completionsIn group calls).length + 1)) :=
        hanswer (by omega)
      have hcounted : Counted calls (.completeGroupMember group task result) r ↔
          ((completionsIn group calls).length + 1) % 2 ^ 32 =
            membersDone group (calls ++ [.completeGroupMember group task result]) := by
        rw [Counted, hr]
        constructor
        · rintro ⟨count, hcount, heq⟩
          cases hcount
          rw [← heq, UInt32.toNat_ofNat']
        · intro heq
          exact ⟨_, rfl, by rw [UInt32.toNat_ofNat', heq]⟩
      rw [hcounted]
      constructor
      · intro hcount
        refine ⟨fun hold => ?_, hcount ▸ Nat.mod_lt _ (by decide)⟩
        have hsame : membersDone group (calls ++ [.completeGroupMember group task result]) =
            (completionsIn group calls).length := by
          rw [membersDone_of_old hold, membersDone, (nodup_of_new h group).dedup, List.length_map]
        have hpos : 0 < ((completionsIn group calls).map Prod.fst).length :=
          List.length_pos_of_mem hold
        rw [List.length_map] at hpos
        omega
      · rintro ⟨hnew, hlt⟩
        rw [membersDone_of_new (nodup_of_new h group) hnew] at hlt ⊢
        exact Nat.mod_eq_of_lt hlt

/-- When the Redis backend counts members. -/
theorem countsMembers_iff {clock : Nat} {todo : List (Nat × ResultBackendOp)}
    {history : List (Event resultBackendTrait)}
    (h : (b.answering σ decode queueOf).serve todo (Keyspace.empty clock) = some (history, r)) :
    CountsMembers history ↔ Throughout New (callsOf history) :=
  (answered h).iff_throughout counted_iff_new

end RedisResultBackend

end Kojin.Redis
