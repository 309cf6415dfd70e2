/-
  Redis/GroupSize.lean --- the size of a group and what was pushed for it
  (`kojin-core`: `canvas.rs`, over `kojin-redis`: `RedisBroker::enqueue`).

  A submission announces a group with the number of its signatures and enqueues
  one message per signature.  The broker may answer an enqueue with `Ok` and push
  nothing, because the dedup key of the message is claimed; then the group waits
  for a member that does not exist.

  Other clients use the same server.  `group_size_iff` says when both numbers agree,
  by the keyspace that each SET NX of the submission finds.
-/
import Kojin.Core.Canvas
import Kojin.Core.MemoryResultBackend
import Kojin.Redis.Nack

set_option autoImplicit false

namespace Kojin.Redis

open Kojin.Foundation Kojin.Core

variable {σ : Type} [LinearOrder σ] {R : Interface}

/-! ## Pushes and claims -/

/-- What a command pushed to which list. -/
def pushOf : Event (system (commands σ) R) → Option (String × String)
  | ⟨.broker (.lpush key text), .ok _⟩ => some (key, text)
  | _ => none

/-- What a command claimed, and whether it was granted. -/
def claimOf : Event (system (commands σ) R) → Option (String × Bool)
  | ⟨.broker (.setNxEx key _ _), .ok set⟩ => some (key, set)
  | _ => none

/-- Everything a history pushed, in order. -/
def lpushes (tr : List (Event (system (commands σ) R))) : List (String × String) :=
  tr.filterMap pushOf

/-- Everything a history claimed, in order. -/
def claims (tr : List (Event (system (commands σ) R))) : List (String × Bool) :=
  tr.filterMap claimOf

/-- How many claims were refused. -/
def refusals (claims : List (String × Bool)) : Nat := claims.countP fun c => !c.2

@[simp] theorem lpushes_append (tr tr' : List (Event (system (commands σ) R))) :
    lpushes (tr ++ tr') = lpushes tr ++ lpushes tr' := List.filterMap_append

@[simp] theorem claims_append (tr tr' : List (Event (system (commands σ) R))) :
    claims (tr ++ tr') = claims tr ++ claims tr' := List.filterMap_append

@[simp] theorem refusals_append (cs cs' : List (String × Bool)) :
    refusals (cs ++ cs') = refusals cs + refusals cs' := List.countP_append

/-- No command of the broker failed. -/
def Unfailing (tr : List (Event (system (commands σ) R))) : Prop :=
  ∀ (op : RedisOp σ) (ans : Except CommandError op.Ans),
    (⟨.broker op, ans⟩ : Event (system (commands σ) R)) ∈ tr → ∃ a, ans = .ok a

theorem Unfailing.left {tr tr' : List (Event (system (commands σ) R))}
    (h : Unfailing (tr ++ tr')) : Unfailing tr :=
  fun op ans hmem => h op ans (List.mem_append.mpr (.inl hmem))

theorem Unfailing.right {tr tr' : List (Event (system (commands σ) R))}
    (h : Unfailing (tr ++ tr')) : Unfailing tr' :=
  fun op ans hmem => h op ans (List.mem_append.mpr (.inr hmem))

theorem Unfailing.tail {e : Event (system (commands σ) R)}
    {tr : List (Event (system (commands σ) R))} (h : Unfailing (e :: tr)) : Unfailing tr :=
  fun op ans hmem => h op ans (List.mem_cons_of_mem e hmem)

theorem Unfailing.smooth {tr : List (Event (commands σ))}
    (h : Unfailing (tr.map (brokerEvent (R := R)))) : Smooth tr := by
  intro e he
  exact h e.op e.res (List.mem_map.mpr ⟨e, he, rfl⟩)

/-- The backend pushes nothing and claims nothing. -/
theorem lpushes_backend (tr : List (Event R)) :
    lpushes (tr.map (backendEvent (B := commands σ))) = [] ∧
      claims (tr.map (backendEvent (B := commands σ))) = [] := by
  induction tr with
  | nil => exact ⟨rfl, rfl⟩
  | cons e tr ih => exact ih

/-! ## A server with other clients -/

variable (σ) in
/-- What the outside decides about a command: what the other clients have done to the
keyspace in the meantime, and how the command travels. -/
structure Turn where
  others : Keyspace σ → Keyspace σ
  transit : Transit

/-- The keyspace that a command finds when it arrives. -/
def Turn.found (turn : Turn σ) (r : Keyspace σ) : Keyspace σ :=
  (turn.others r).advance turn.transit.elapsed

/-- A server that other clients use as well. -/
abbrev sharedServer (queueOf : String → Except CommandError String) : Service (commands σ) where
  State := Keyspace σ
  Oracle := Turn σ
  respond turn r op := (server queueOf).respond turn.transit (turn.others r) op

section Claims

variable {queueOf : String → Except CommandError String} {T : Service R}

/-- A claim of a call, with the keyspace it finds. -/
def claimMet : SystemOracle (sharedServer (σ := σ) queueOf) T × (Keyspace σ × T.State) ×
    (system (commands σ) R).Op → Option (String × Keyspace σ)
  | (o, s, .broker (.setNxEx key _ _)) => some (key, o.broker.found s.1)
  | _ => none

/-- The claims of a run: each dedup key, with the keyspace that its SET NX finds. -/
def claimsMet {α : Type} (os : List (SystemOracle (sharedServer (σ := σ) queueOf) T))
    (p : Prog (system (commands σ) R) α) (s : Keyspace σ × T.State) :
    List (String × Keyspace σ) :=
  ((systemService (sharedServer queueOf) T).met os p s).filterMap claimMet

/-- A claim is granted exactly if its key is free in the keyspace it finds. -/
def granted (x : String × Keyspace σ) : String × Bool := (x.1, (x.2.get x.1).isNone)

/-- SET NX succeeds exactly if its key is free. -/
theorem granted_of_setNxEx {r r' : Keyspace σ} {key : String} {v : Value σ} {secs : Nat}
    {set : Bool} (h : r.setNxEx key v secs = .ok (set, r')) : set = (r.get key).isNone := by
  obtain ⟨-, ⟨rfl, hfree, -⟩ | ⟨rfl, hheld, -⟩⟩ := Keyspace.setNxEx_cases h
  · simp [hfree]
  · simp [Option.isNone_iff_eq_none.not.mpr hheld]

/-- The claims of a run in which no command fails are answered by the keyspaces they
find. -/
theorem claims_eq_of_run {α : Type}
    {os : List (SystemOracle (sharedServer (σ := σ) queueOf) T)}
    {p : Prog (system (commands σ) R) α} {s s' : Keyspace σ × T.State}
    {tr : List (Event (system (commands σ) R))} {a : α}
    (h : (systemService (sharedServer queueOf) T).run os p s = some (tr, a, s'))
    (hsmooth : Unfailing tr) : claims tr = (claimsMet os p s).map granted := by
  induction p generalizing os s tr with
  | ret b =>
      obtain ⟨rfl, -, -⟩ := Service.run_ret_iff.mp h
      cases os <;> rfl
  | call op k ih =>
      obtain ⟨o, rest, res, s₁, tail, rfl, hrespond, rfl, hrun⟩ := Service.run_call_iff.mp h
      have htail := ih res hrun hsmooth.tail
      have hmet : claimsMet (o :: rest) (.call op k) s =
          [(o, s, op)].filterMap claimMet ++ claimsMet rest (k res) s₁ :=
        (congrArg (List.filterMap claimMet) (Service.met_call hrespond)).trans
          (List.filterMap_append (l := [(o, s, op)]))
      refine Eq.trans ?_ (congrArg (List.map granted) hmet).symm
      rw [List.map_append, ← htail]
      refine (claims_append [⟨op, res⟩] tail).trans (congrArg (· ++ claims tail) ?_)
      -- only SET NX claims anything
      cases op with
      | runtime _ => rfl
      | backend _ => rfl
      | broker op =>
          obtain ⟨set, rfl⟩ := hsmooth op res List.mem_cons_self
          cases op with
          | setNxEx key value secs =>
              obtain ⟨⟨ans, r₁⟩, hserver, heq⟩ := Option.map_eq_some_iff.mp hrespond
              cases heq
              rcases server_respond hserver with ⟨_, hset, -, hperform⟩ | ⟨_, herror, -⟩
              swap
              · cases herror
              cases hset
              have hanswer := granted_of_setNxEx (commit_ok hperform)
              exact congrArg (fun set => [(key, set)]) hanswer
          | _ => rfl

/-- How many claims are refused is how many find their key taken. -/
theorem refusals_map_granted (xs : List (String × Keyspace σ)) :
    refusals (xs.map granted) = xs.countP fun x => (x.2.get x.1).isSome := by
  unfold refusals
  rw [List.countP_map]
  congr 1
  funext x
  simp [granted]

end Claims

namespace RedisBroker

variable {b : RedisBroker} {codec : RedisCodec σ} {backend : BackendDriver R}

/-- A message on its way to its queue. -/
def wire (b : RedisBroker) (codec : RedisCodec σ) (m : TaskMessage) : String × String :=
  (b.keys.queue m.queue, m.encode codec.rfc3339)

/-- The dedup keys of a list of signatures, as they stand in the keyspace. -/
def dedupKeys (b : RedisBroker) (sigs : List Signature) : List String :=
  (sigs.filterMap (·.dedupKey)).map b.keys.dedup

/-- An enqueue without a failing command either pushes the message, or claims its
dedup key, is refused, and pushes nothing; both ways it returns `Ok`. -/
theorem enqueue_counts {m : TaskMessage} {tr : List (Event (commands σ))} {out : TaskResult Unit}
    (h : Prog.Trace (b.enqueue codec m).run tr out) (hsmooth : Smooth tr) :
    (claims (tr.map (brokerEvent (R := R)))).map Prod.fst = m.dedupKey.toList.map b.keys.dedup ∧
      ((lpushes (tr.map (brokerEvent (R := R))) = [b.wire codec m] ∧
          refusals (claims (tr.map (brokerEvent (R := R)))) = 0) ∨
        (lpushes (tr.map (brokerEvent (R := R))) = [] ∧
          refusals (claims (tr.map (brokerEvent (R := R)))) = 1)) := by
  have hpush : ∀ {tail : List (Event (commands σ))}, Smooth tail →
      Prog.Trace (command brokerErr
        (.lpush (b.keys.queue m.queue) (m.encode codec.rfc3339))).run tail out →
      lpushes (tail.map (brokerEvent (R := R))) = [b.wire codec m] ∧
        claims (tail.map (brokerEvent (R := R))) = [] := by
    intro tail hall htail
    obtain ⟨ans, rfl, -⟩ := trace_last htail
    obtain ⟨a, rfl⟩ : ∃ a : Unit, ans = .ok a := hall _ List.mem_cons_self
    exact ⟨rfl, rfl⟩
  rcases trace_command h with ⟨⟨⟩, tail, rfl, h₁⟩ | ⟨e, rfl, -⟩
  swap
  · exact absurd hsmooth (not_smooth List.mem_cons_self)
  cases hkey : m.dedupKey with
  | none =>
      rw [hkey] at h₁
      obtain ⟨hpushed, hclaimed⟩ := hpush hsmooth.tail h₁
      have hclaims : claims ((⟨.conn, .ok ()⟩ :: tail).map (brokerEvent (R := R))) = [] := hclaimed
      rw [hclaims]
      exact ⟨rfl, .inl ⟨hpushed, rfl⟩⟩
  | some key =>
      rw [hkey] at h₁
      obtain ⟨ans, tail₁, rfl, h₂⟩ := Prog.trace_call_iff.mp
        (show Prog.Trace (I := commands σ)
          (.call (.setNxEx (b.keys.dedup key) (.int 1) b.dedupTtl) _) tail out from h₁)
      obtain ⟨set, rfl⟩ : ∃ set : Bool, ans = .ok set := hsmooth.tail _ List.mem_cons_self
      have hclaims : claims ((⟨.conn, .ok ()⟩ ::
          ⟨.setNxEx (b.keys.dedup key) (.int 1) b.dedupTtl, .ok set⟩ :: tail₁).map
            (brokerEvent (R := R))) =
          (b.keys.dedup key, set) :: claims (tail₁.map (brokerEvent (R := R))) := rfl
      rw [hclaims]
      cases set with
      | true =>
          obtain ⟨hpushed, hclaimed⟩ := hpush hsmooth.tail.tail h₂
          rw [hclaimed]
          exact ⟨rfl, .inl ⟨hpushed, rfl⟩⟩
      | false =>
          obtain ⟨rfl, -⟩ := Prog.trace_ret_iff.mp
            (show Prog.Trace (.ret (.ok ())) tail₁ out from h₂)
          exact ⟨rfl, .inr ⟨rfl, rfl⟩⟩

/-- A call of the traits, and what stands for it. -/
theorem realizes_cons {op : traits.Op} {r : traits.Res op} {tr₀ : List (Event traits)}
    {tr : List (Event (system (commands σ) R))}
    (h : Prog.Realizes (drive (b.driver codec) backend) (⟨op, r⟩ :: tr₀) tr) :
    ∃ part rest, tr = part ++ rest ∧ Prog.Trace (drive (b.driver codec) backend op) part r ∧
      Prog.Realizes (drive (b.driver codec) backend) tr₀ rest := by
  cases h with
  | cons hpart hrest => exact ⟨_, _, rfl, hpart, hrest⟩

/-- The runtime and the backend push nothing and claim nothing. -/
theorem realizes_quiet {op : traits.Op} {r : traits.Res op} {tr₀ : List (Event traits)}
    {tr : List (Event (system (commands σ) R))}
    (h : Prog.Realizes (drive (b.driver codec) backend) (⟨op, r⟩ :: tr₀) tr)
    (hop : ∀ o, op ≠ .broker o) :
    ∃ part rest, tr = part ++ rest ∧ lpushes part = [] ∧ claims part = [] ∧
      Prog.Realizes (drive (b.driver codec) backend) tr₀ rest := by
  obtain ⟨part, rest, rfl, hpart, hrest⟩ := realizes_cons h
  refine ⟨part, rest, rfl, ?_⟩
  cases op with
  | runtime op =>
      obtain ⟨r', tail, rfl, htail⟩ := Prog.trace_call_iff.mp hpart
      obtain ⟨rfl, -⟩ := Prog.trace_ret_iff.mp htail
      exact ⟨rfl, rfl, hrest⟩
  | broker o => exact absurd rfl (hop o)
  | backend op =>
      obtain ⟨events, -, rfl⟩ := trace_onBackend hpart
      obtain ⟨hpushes, hclaims⟩ := @lpushes_backend σ _ R events
      exact ⟨hpushes, hclaims, hrest⟩

/-- What a submission pushes and claims for a list of signatures: it claims the dedup
key of each that has one, and pushes one message for each, less the refused ones. -/
theorem enqueueEach_counts {make : Canvas.Make} {sigs : List Signature} {ids : List TaskId}
    {tr₀ : List (Event traits)} {tr : List (Event (system (commands σ) R))}
    (hmake : ∀ sig now id, (make sig now id).dedupKey = sig.dedupKey)
    (h : Prog.Trace (Canvas.enqueueEach make sigs) tr₀ (.ok ids))
    (hreal : Prog.Realizes (drive (b.driver codec) backend) tr₀ tr) (hsmooth : Unfailing tr) :
    (claims tr).map Prod.fst = b.dedupKeys sigs ∧
      ∃ ms : List TaskMessage, lpushes tr = ms.map (b.wire codec) ∧
        (∀ m ∈ ms, ∃ sig ∈ sigs, ∃ now id, m = make sig now id) ∧
        ms.length + refusals (claims tr) = sigs.length := by
  induction sigs generalizing ids tr₀ tr with
  | nil =>
      obtain ⟨rfl, -⟩ := Prog.trace_ret_iff.mp h
      cases hreal
      exact ⟨rfl, [], rfl, fun m hm => (nomatch hm), rfl⟩
  | cons sig rest ih =>
      obtain ⟨now, id, r, tail, rfl, hcases⟩ := Canvas.enqueueEach_trace h
      rcases hcases with ⟨e, -, -, herror⟩ | ⟨rfl, out, htail, hout⟩
      · cases herror
      obtain ⟨part₁, rest₁, rfl, hpush₁, hclaim₁, hreal₁⟩ :=
        realizes_quiet hreal fun _ heq => nomatch heq
      obtain ⟨part₂, rest₂, rfl, hpush₂, hclaim₂, hreal₂⟩ :=
        realizes_quiet hreal₁ fun _ heq => nomatch heq
      obtain ⟨part₃, rest₃, rfl, hpart₃, hreal₃⟩ := realizes_cons hreal₂
      obtain ⟨events, henqueue, rfl⟩ := trace_onBroker hpart₃
      obtain ⟨hkeys, hcounts⟩ :=
        @enqueue_counts σ _ R b codec _ _ _ henqueue hsmooth.right.right.left.smooth
      cases out with
      | error e => cases hout
      | ok ids =>
          obtain ⟨hkeys', ms, hpushes, hmade, hcount⟩ := ih htail hreal₃ hsmooth.right.right.right
          have hmade' : ∀ m ∈ ms, ∃ s ∈ sig :: rest, ∃ now id, m = make s now id := by
            intro m hm
            obtain ⟨s, hs, hmake⟩ := hmade m hm
            exact ⟨s, List.mem_cons_of_mem _ hs, hmake⟩
          simp only [lpushes_append, claims_append, refusals_append, hpush₁, hpush₂, hclaim₁,
            hclaim₂, hpushes, List.nil_append, List.length_cons, List.map_append]
          refine ⟨?_, ?_⟩
          · rw [hkeys, hkeys', hmake, dedupKeys, dedupKeys, List.filterMap_cons]
            cases sig.dedupKey <;> rfl
          rcases hcounts with ⟨hpushed, hrefused⟩ | ⟨hpushed, hrefused⟩
          · refine ⟨make sig now id :: ms, congrArg (· ++ ms.map (b.wire codec)) hpushed, ?_, ?_⟩
            · intro m hm
              rcases List.mem_cons.mp hm with rfl | hm
              · exact ⟨sig, List.mem_cons_self, now, id, rfl⟩
              · exact hmade' m hm
            · rw [List.length_cons, hrefused]
              omega
          · refine ⟨ms, congrArg (· ++ ms.map (b.wire codec)) hpushed, hmade', ?_⟩
            rw [hrefused]
            omega

/-! ## A whole submission -/

/-- A group, or a chord when there is a callback. -/
def parallel (members : List Canvas) : Option Canvas → Canvas
  | none => .group members
  | some callback => .chord members callback

/-- The submission comes to its members: a callback, if there is one, has a first
task. -/
def Opens : Option Canvas → Prop
  | none => True
  | some callback => Canvas.flattenChain [callback] ≠ []

instance : (callback : Option Canvas) → Decidable (Opens callback)
  | none => inferInstanceAs (Decidable True)
  | some callback =>
      match h : Canvas.flattenChain [callback] with
      | [] => isFalse fun hopens => hopens h
      | _ :: _ => isTrue fun hnil => nomatch hnil.symm.trans h

/-- The calls of a submission once the group is announced. -/
def feed (workflow group : TaskId) (sigs : List Signature) :
    Option Canvas → Prog traits (TaskResult (List TaskId))
  | none => Canvas.enqueueEach
      (Canvas.member workflow.toText group.toText (Canvas.groupTotal sigs) none) sigs
  | some callback =>
      Canvas.applyChord workflow.toText group.toText sigs (Canvas.flattenChain [callback])

/-- What a submission of a group does when it returns `Ok`: it draws its
identifiers, announces the group, and enqueues the members. -/
theorem apply_parallel_trace {c : Codec} {members : List Canvas} {callback : Option Canvas}
    {tr : List (Event traits)} {handle : WorkflowHandle}
    (h : Prog.Trace ((parallel members callback).apply c) tr (.ok handle)) :
    ∃ workflow group tail ids, tr = ⟨.runtime .newUuid, workflow⟩ ::
        ⟨.runtime .newUuid, group⟩ :: ⟨.backend (.initGroup group.toText
          (Canvas.groupTotal (Canvas.flattenGroup members))), .ok ()⟩ :: tail ∧
      Prog.Trace (feed workflow group (Canvas.flattenGroup members) callback) tail (.ok ids) := by
  obtain ⟨workflow, tr₁, rfl, h₁⟩ := Prog.trace_call_iff.mp h
  obtain ⟨tr₂, tr₃, out, rfl, h₂, h₃⟩ := Prog.trace_bind_iff.mp
    (show Prog.Trace ((parallel members callback).applyInner c workflow.toText >>= fun ids =>
      (.ret (ids.map (⟨workflow.toText, ·⟩)) : Prog traits _)) tr₁ (.ok handle) from h₁)
  obtain ⟨rfl, hout⟩ := Prog.trace_ret_iff.mp h₃
  rw [List.append_nil]
  cases out with
  | error e => cases hout
  | ok ids =>
      cases callback with
      | none =>
          obtain ⟨group, tr₃, rfl, h₃⟩ := Prog.trace_call_iff.mp h₂
          obtain ⟨r, tail, rfl, h₄⟩ := Prog.trace_call_iff.mp h₃
          cases r with
          | error e =>
              obtain ⟨-, herror⟩ := Prog.trace_ret_iff.mp h₄
              cases herror
          | ok _ => exact ⟨workflow, group, tail, ids, rfl, h₄⟩
      | some last =>
          obtain ⟨group, tr₃, rfl, h₃⟩ := Prog.trace_call_iff.mp h₂
          obtain ⟨r, tail, rfl, h₄⟩ := Prog.trace_call_iff.mp h₃
          cases r with
          | error e =>
              obtain ⟨-, herror⟩ := Prog.trace_ret_iff.mp h₄
              cases herror
          | ok _ => exact ⟨workflow, group, tail, ids, rfl, h₄⟩

/-- What the members of a submission claim and push. -/
theorem feed_counts {workflow group : TaskId} {sigs : List Signature} {callback : Option Canvas}
    {ids : List TaskId} {tr₀ : List (Event traits)} {tr : List (Event (system (commands σ) R))}
    (h : Prog.Trace (feed workflow group sigs callback) tr₀ (.ok ids))
    (hreal : Prog.Realizes (drive (b.driver codec) backend) tr₀ tr) (hsmooth : Unfailing tr) :
    (claims tr).map Prod.fst = (if Opens callback then b.dedupKeys sigs else []) ∧
      ∃ ms : List TaskMessage, lpushes tr = ms.map (b.wire codec) ∧
        (∀ m ∈ ms, m.groupId = some group.toText ∧
          m.groupTotal = some (Canvas.groupTotal sigs)) ∧
        ms.length + (if Opens callback then refusals (claims tr) else sigs.length) =
          sigs.length := by
  -- whatever the callback, the members are made alike
  have hmembers : ∀ {last : Option TaskMessage} {tr₀ : List (Event traits)}
      {tr : List (Event (system (commands σ) R))},
      Prog.Trace (Canvas.enqueueEach (Canvas.member workflow.toText group.toText
        (Canvas.groupTotal sigs) last) sigs) tr₀ (.ok ids) →
      Prog.Realizes (drive (b.driver codec) backend) tr₀ tr → Unfailing tr →
      (claims tr).map Prod.fst = b.dedupKeys sigs ∧
        ∃ ms : List TaskMessage, lpushes tr = ms.map (b.wire codec) ∧
          (∀ m ∈ ms, m.groupId = some group.toText ∧
            m.groupTotal = some (Canvas.groupTotal sigs)) ∧
          ms.length + refusals (claims tr) = sigs.length := by
    intro last tr₀ tr htr hreal hsmooth
    obtain ⟨hkeys, ms, hpushes, hmade, hcount⟩ :=
      enqueueEach_counts (fun _ _ _ => rfl) htr hreal hsmooth
    refine ⟨hkeys, ms, hpushes, fun m hm => ?_, hcount⟩
    obtain ⟨sig, -, now, id, rfl⟩ := hmade m hm
    exact ⟨rfl, rfl⟩
  cases callback with
  | none =>
      simp only [if_pos (show Opens none from trivial)]
      exact hmembers h hreal hsmooth
  | some callback =>
      cases hflat : Canvas.flattenChain [callback] with
      | nil =>
          rw [feed, hflat] at h
          obtain ⟨rfl, -⟩ := Prog.trace_ret_iff.mp h
          cases hreal
          simp only [if_neg (show ¬ Opens (some callback) from fun hopens => hopens hflat)]
          exact ⟨rfl, [], rfl, fun m hm => (nomatch hm), Nat.zero_add _⟩
      | cons first others =>
          rw [feed, hflat] at h
          have hopens : Opens (some callback) := by
            rw [Opens, hflat]
            exact List.cons_ne_nil first others
          obtain ⟨now, tr₁, rfl, h₁⟩ := Prog.trace_call_iff.mp h
          obtain ⟨id, tr₂, rfl, h₂⟩ := Prog.trace_call_iff.mp h₁
          obtain ⟨part₁, rest₁, rfl, hpush₁, hclaim₁, hreal₁⟩ :=
            realizes_quiet hreal fun _ heq => nomatch heq
          obtain ⟨part₂, rest₂, rfl, hpush₂, hclaim₂, hreal₂⟩ :=
            realizes_quiet hreal₁ fun _ heq => nomatch heq
          simp only [if_pos hopens, lpushes_append, claims_append, hpush₁, hpush₂, hclaim₁,
            hclaim₂, List.nil_append]
          exact hmembers h₂ hreal₂ hsmooth.right.right

/-- What a submission that returned `Ok` announced, claimed and pushed. -/
theorem apply_counts {c : Codec} {sigs : List Signature} {callback : Option Canvas}
    {tr₀ : List (Event traits)} {tr : List (Event (system (commands σ) R))}
    {handle : WorkflowHandle}
    (h : Prog.Trace ((parallel (sigs.map .single) callback).apply c) tr₀ (.ok handle))
    (hreal : Prog.Realizes (drive (b.driver codec) backend) tr₀ tr) (hsmooth : Unfailing tr) :
    (claims tr).map Prod.fst = (if Opens callback then b.dedupKeys sigs else []) ∧
      ∃ (group : TaskId) (ms : List TaskMessage),
        ⟨.backend (.initGroup group.toText (Canvas.groupTotal sigs)), .ok ()⟩ ∈ tr₀ ∧
        lpushes tr = ms.map (b.wire codec) ∧
        (∀ m ∈ ms, m.groupId = some group.toText ∧
          m.groupTotal = some (Canvas.groupTotal sigs)) ∧
        ms.length + (if Opens callback then refusals (claims tr) else sigs.length) =
          sigs.length := by
  obtain ⟨workflow, group, tail, ids, rfl, hfeed⟩ := apply_parallel_trace h
  rw [Canvas.flattenGroup_map_single] at hfeed hreal ⊢
  obtain ⟨part₁, rest₁, rfl, hpush₁, hclaim₁, hreal₁⟩ :=
    realizes_quiet hreal fun _ heq => nomatch heq
  obtain ⟨part₂, rest₂, rfl, hpush₂, hclaim₂, hreal₂⟩ :=
    realizes_quiet hreal₁ fun _ heq => nomatch heq
  obtain ⟨part₃, rest₃, rfl, hpush₃, hclaim₃, hreal₃⟩ :=
    realizes_quiet hreal₂ fun _ heq => nomatch heq
  obtain ⟨hkeys, ms, hpushes, hmade, hcount⟩ := feed_counts hfeed hreal₃ hsmooth.right.right.right
  simp only [lpushes_append, claims_append, hpush₁, hpush₂, hpush₃, hclaim₁, hclaim₂, hclaim₃,
    List.nil_append]
  exact ⟨hkeys, group, ms, by simp, hpushes, hmade, hcount⟩

/-- When a group has the size it was announced with.  Other clients use the server as
they like.  A submission of a group or chord of single tasks that returns `Ok`, without
a failing command, claims the dedup keys of its signatures, in order, and all that it
pushes carries the identifier and the announced total of its group.  With fewer than
2^32 signatures their number is that total exactly if every claim finds its key free,
and the submission comes to its members at all, unless there are none.  With more, the
total was cut to 32 bits, and as many messages must have been held back. -/
theorem group_size_iff {c : Codec} {sigs : List Signature} {callback : Option Canvas}
    {queueOf : String → Except CommandError String} {T : Service R}
    {os : List (SystemOracle (sharedServer (σ := σ) queueOf) T)}
    {s s' : Keyspace σ × T.State} {tr : List (Event (system (commands σ) R))}
    {handle : WorkflowHandle}
    (h : (systemService (sharedServer queueOf) T).run os (link (b.driver codec) backend
      ((parallel (sigs.map .single) callback).apply c)) s = some (tr, .ok handle, s'))
    (hsmooth : Unfailing tr) :
    ∃ (tr₀ : List (Event traits)) (group : TaskId) (ms : List TaskMessage)
      (found : List (String × Keyspace σ)),
      Prog.Realizes (drive (b.driver codec) backend) tr₀ tr ∧
      ⟨.backend (.initGroup group.toText (Canvas.groupTotal sigs)), .ok ()⟩ ∈ tr₀ ∧
      lpushes tr = ms.map (b.wire codec) ∧
      (∀ m ∈ ms, m.groupId = some group.toText ∧
        m.groupTotal = some (Canvas.groupTotal sigs)) ∧
      found = claimsMet os (link (b.driver codec) backend
        ((parallel (sigs.map .single) callback).apply c)) s ∧
      found.map Prod.fst = (if Opens callback then b.dedupKeys sigs else []) ∧
      (sigs.length < 2 ^ 32 → (ms.length = (Canvas.groupTotal sigs).toNat ↔
        (sigs = [] ∨ Opens callback) ∧ ∀ x ∈ found, x.2.get x.1 = none)) ∧
      (2 ^ 32 ≤ sigs.length → (ms.length = (Canvas.groupTotal sigs).toNat ↔
        (if Opens callback then found.countP fun x => (x.2.get x.1).isSome else sigs.length) =
          sigs.length - sigs.length % 2 ^ 32)) := by
  obtain ⟨tr₀, htr, hreal⟩ := (Service.trace_of_run h).of_interp
  obtain ⟨hkeys, group, ms, hinit, hpushes, hmade, hcount⟩ := apply_counts htr hreal hsmooth
  have htotal : (Canvas.groupTotal sigs).toNat = sigs.length % 2 ^ 32 := UInt32.toNat_ofNat'
  rw [claims_eq_of_run h hsmooth] at hkeys hcount
  rw [refusals_map_granted] at hcount
  rw [List.map_map] at hkeys
  refine ⟨tr₀, group, ms, _, hreal, hinit, hpushes, hmade, rfl, hkeys, fun hsmall => ?_,
    fun hlarge => ?_⟩
  · rw [htotal, Nat.mod_eq_of_lt hsmall]
    by_cases hopens : Opens callback
    · -- the count of the taken keys is zero exactly if all are free
      rw [if_pos hopens] at hcount
      have hzero : ms.length = sigs.length ↔
          (claimsMet os (link (b.driver codec) backend
            ((parallel (sigs.map .single) callback).apply c)) s).countP
              (fun x => (x.2.get x.1).isSome) = 0 := by
        omega
      rw [hzero, List.countP_eq_zero]
      simp [hopens]
    · rw [if_neg hopens] at hcount hkeys
      have hnone := List.map_eq_nil_iff.mp hkeys
      simp only [hopens, or_false, hnone, List.not_mem_nil, false_implies, implies_true, and_true]
      rw [← List.length_eq_zero_iff]
      omega
  · rw [htotal]
    have hle := Nat.mod_le sigs.length (2 ^ 32)
    split_ifs at hcount ⊢ <;> omega

/-! ## With and without a dedup key -/

/-- The `n`-th moment of a run: identifiers are drawn in order, commands arrive, and no
other client does anything. -/
def moment (n : Nat) : SystemOracle (sharedServer (σ := Nat) fun _ => .ok "q")
    MemoryResultBackend.service := ⟨drawing ⟨BitVec.ofNat 128 n⟩, ⟨id, ⟨0, none⟩⟩, ()⟩

/-- The submission of a group or chord. -/
def submission (sigs : List Signature) (callback : Option Canvas) :
    Prog (system (commands Nat) resultBackendTrait) (TaskResult WorkflowHandle) :=
  link (plainBroker.driver plainCodec) directBackend
    ((parallel (sigs.map .single) callback).apply blankCodec)

/-- Submit it. -/
def submitted (sigs : List Signature) (callback : Option Canvas) (r : Keyspace Nat) :
    Option (List (Event (system (commands Nat) resultBackendTrait)) ×
      TaskResult WorkflowHandle × Keyspace Nat × MemoryResultBackend) :=
  (systemService (sharedServer (σ := Nat) fun _ => .ok "q") MemoryResultBackend.service).run
    ((List.range 24).map moment) (submission sigs callback) (r, MemoryResultBackend.new)

/-- A signature with a dedup key. -/
def keyedSignature (key : String) : Signature := { plainSignature with dedupKey := some key }

/-- A keyspace in which the key `k` was claimed for a second, two seconds ago. -/
def expiredClaim : Keyspace Nat :=
  ((Keyspace.empty 0).store (plainBroker.keys.dedup "k") (.int 1) 1).advance 2000

/-- A group of three, two of them with dedup keys, one of which was in use before. -/
theorem group_size_three :
    ∃ tr handle s, submitted [keyedSignature "k", plainSignature, keyedSignature "l"] none
        expiredClaim = some (tr, .ok handle, s) ∧ (lpushes tr).length = 3 := by
  have hrun : ∃ handle s text text' text'',
      submitted [keyedSignature "k", plainSignature, keyedSignature "l"] none expiredClaim =
      some ([⟨.runtime .newUuid, ⟨0⟩⟩, ⟨.runtime .newUuid, ⟨1⟩⟩,
        ⟨.backend (.initGroup (TaskId.toText ⟨1⟩) 3), .ok ()⟩, ⟨.runtime .utcNow, ⟨0⟩⟩,
        ⟨.runtime .newTaskId, ⟨4⟩⟩, ⟨.broker .conn, .ok ()⟩,
        ⟨.broker (.setNxEx (plainBroker.keys.dedup "k") (.int 1) 300), .ok true⟩,
        ⟨.broker (.lpush (plainBroker.keys.queue "q") text), .ok ()⟩, ⟨.runtime .utcNow, ⟨0⟩⟩,
        ⟨.runtime .newTaskId, ⟨9⟩⟩, ⟨.broker .conn, .ok ()⟩,
        ⟨.broker (.lpush (plainBroker.keys.queue "q") text'), .ok ()⟩, ⟨.runtime .utcNow, ⟨0⟩⟩,
        ⟨.runtime .newTaskId, ⟨13⟩⟩, ⟨.broker .conn, .ok ()⟩,
        ⟨.broker (.setNxEx (plainBroker.keys.dedup "l") (.int 1) 300), .ok true⟩,
        ⟨.broker (.lpush (plainBroker.keys.queue "q") text''), .ok ()⟩], .ok handle, s) :=
    ⟨_, _, _, _, _, rfl⟩
  obtain ⟨handle, s, text, text', text'', hrun⟩ := hrun
  refine ⟨_, handle, s, hrun, ?_⟩
  obtain ⟨tr₀, group, ms, found, -, -, hpushes, -, hfound, -, hsmall, -⟩ :=
    group_size_iff hrun (by
      intro op ans hmem
      simp only [List.mem_cons, List.not_mem_nil, or_false] at hmem
      rcases hmem with h | h | h | h | h | h | h | h | h | h | h | h | h | h | h | h | h <;> cases h
      all_goals exact ⟨_, rfl⟩)
  have hfree : (claimsMet (T := MemoryResultBackend.service) ((List.range 24).map moment)
      (submission [keyedSignature "k", plainSignature, keyedSignature "l"] none)
      (expiredClaim, MemoryResultBackend.new)).all (fun x => (x.2.get x.1).isNone) = true := rfl
  rw [hpushes, List.length_map]
  refine (hsmall (by decide)).mpr ⟨.inr trivial, fun x hx => ?_⟩
  rw [hfound] at hx
  exact Option.isNone_iff_eq_none.mp (List.all_eq_true.mp hfree x hx)

/-- Two members with one dedup key: no command fails, the submission returns `Ok`, the
group is announced with two members, and one message is pushed. -/
theorem shared_key_shrinks_group :
    ∃ tr handle s, submitted [keyedSignature "k", keyedSignature "k"] none (Keyspace.empty 0) =
        some (tr, .ok handle, s) ∧
      Unfailing tr ∧
      (∃ group, ⟨.backend (.initGroup group 2), .ok ()⟩ ∈ tr) ∧ (lpushes tr).length = 1 := by
  have hrun : ∃ handle s text,
      submitted [keyedSignature "k", keyedSignature "k"] none (Keyspace.empty 0) =
      some ([⟨.runtime .newUuid, ⟨0⟩⟩, ⟨.runtime .newUuid, ⟨1⟩⟩,
        ⟨.backend (.initGroup (TaskId.toText ⟨1⟩) 2), .ok ()⟩, ⟨.runtime .utcNow, ⟨0⟩⟩,
        ⟨.runtime .newTaskId, ⟨4⟩⟩, ⟨.broker .conn, .ok ()⟩,
        ⟨.broker (.setNxEx (plainBroker.keys.dedup "k") (.int 1) 300), .ok true⟩,
        ⟨.broker (.lpush (plainBroker.keys.queue "q") text), .ok ()⟩, ⟨.runtime .utcNow, ⟨0⟩⟩,
        ⟨.runtime .newTaskId, ⟨9⟩⟩, ⟨.broker .conn, .ok ()⟩,
        ⟨.broker (.setNxEx (plainBroker.keys.dedup "k") (.int 1) 300), .ok false⟩],
        .ok handle, s) :=
    ⟨_, _, _, rfl⟩
  obtain ⟨handle, s, text, hrun⟩ := hrun
  refine ⟨_, handle, s, hrun, ?_, ⟨TaskId.toText ⟨1⟩, ?_⟩, rfl⟩
  · intro op ans hmem
    simp only [List.mem_cons, List.not_mem_nil, or_false] at hmem
    rcases hmem with h | h | h | h | h | h | h | h | h | h | h | h <;> cases h
    all_goals exact ⟨_, rfl⟩
  · exact List.mem_cons_of_mem _ (List.mem_cons_of_mem _ List.mem_cons_self)

end RedisBroker

end Kojin.Redis
