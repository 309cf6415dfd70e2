/-
  Redis/Dedup.lean --- deduplication among producers (`kojin-redis`:
  `RedisBroker::enqueue`).

  Any number of producers enqueue at the same time.  Each claims the dedup key of
  its message and then pushes the message; between the two the others run, time
  passes, and commands fail.  A producer whose claim is refused returns `Ok` and
  relies on the holder of the key to have pushed.

  The site of the producers keeps a journal: every answer with the reading of the
  server's clock, and what every call returned.  `dedup_sound` says what the
  journal holds for a call that returned `Ok`, as long as no claim or push of a
  message with a dedup key fails and no claim is refused on behalf of a holder that
  has still to push.
-/
import Kojin.Redis.Nack

set_option autoImplicit false

namespace Kojin.Redis

open Kojin.Foundation Kojin.Core

variable {σ : Type} [LinearOrder σ]

/-! ## The producers -/

/-- One call of `enqueue`. -/
structure Request where
  number : Nat
  message : TaskMessage

variable (σ) in
/-- What a producer does: a command on behalf of a call, and the call's return. -/
inductive ProducerOp where
  | redis (call : Request) (op : RedisOp σ)
  | report (call : Request) (out : TaskResult Unit)

/-- The answers. -/
abbrev ProducerOp.Res : ProducerOp σ → Type
  | .redis _ op => Except CommandError op.Ans
  | .report _ _ => Unit

variable (σ) in
/-- The interface of the site. -/
abbrev producers : Interface := ⟨ProducerOp σ, ProducerOp.Res⟩

variable (σ) in
/-- What has happened, with the clock reading at which it did. -/
abbrev Journal : Type := List (Nat × Event (producers σ))

variable (σ) in
/-- The server, the journal, and the number of the next call. -/
structure Site where
  store : Keyspace σ
  journal : Journal σ
  next : Nat

/-- From outside: a producer calls `enqueue`, or time passes. -/
inductive Arrival where
  | begin (m : TaskMessage)
  | wait (millis : Nat)

namespace RedisBroker

variable (b : RedisBroker) (codec : RedisCodec σ)
  (queueOf : String → Except CommandError String)

/-- A producer: call `enqueue` and return what it returns. -/
def producer (call : Request) : Prog (producers σ) Unit := do
  let out ← (b.enqueue codec call.message).run.interp fun op =>
    Prog.perform (I := producers σ) (.redis call op)
  Prog.perform (I := producers σ) (.report call out)

/-- The producers' site.  The oracle says what is lost of a command. -/
def site : Machine (producers σ) where
  State := Site σ
  Oracle := Option (Loss CommandError)
  respond lost s
    | .redis call op =>
        ((server queueOf).respond ⟨0, lost⟩ s.store op).map fun p =>
          (p.1, { s with
            store := p.2
            journal := s.journal ++ [(s.store.clock, ⟨.redis call op, p.1⟩)] })
    | .report call out =>
        some ((), { s with
          journal := s.journal ++ [(s.store.clock, ⟨.report call out, ()⟩)] })
  Stimulus := Arrival
  accept
    | .begin m, s => some ({ s with next := s.next + 1 }, [b.producer codec ⟨s.next, m⟩])
    | .wait millis, s => some ({ s with store := s.store.advance millis }, [])

/-! ## What the journal says -/

/-- The call claimed its dedup key at this time, and this is the answer. -/
def claimed (call : Request) (key : String) (ans : Except CommandError Bool) :
    Event (producers σ) :=
  ⟨.redis call (.setNxEx (b.keys.dedup key) (.int 1) b.dedupTtl), ans⟩

/-- The call pushed its message. -/
def pushed (call : Request) : Event (producers σ) :=
  ⟨.redis call (.lpush (b.keys.queue call.message.queue) (call.message.encode codec.rfc3339)),
    .ok ()⟩

/-- The message of the call was pushed; or the claim was refused, and another call
had pushed a message with the same dedup key within the lifetime of such a key. -/
def Sound (call : Request) (journal : Journal σ) : Prop :=
  (∃ t, (t, b.pushed codec call) ∈ journal) ∨
    ∃ key other t t', call.message.dedupKey = some key ∧ other.message.dedupKey = some key ∧
      other ≠ call ∧ (t, b.claimed call key (.ok false)) ∈ journal ∧
      (t', b.pushed codec other) ∈ journal ∧ t' ≤ t ∧ t < t' + 1000 * b.dedupTtl

variable (σ) in
/-- A command of the call failed. -/
def Failed (call : Request) (journal : Journal σ) : Prop :=
  ∃ t op e, (t, (⟨.redis call op, .error e⟩ : Event (producers σ))) ∈ journal

variable {b codec queueOf}

theorem Sound.append {call : Request} {journal : Journal σ} (h : b.Sound codec call journal)
    (more : Journal σ) : b.Sound codec call (journal ++ more) := by
  rcases h with ⟨t, ht⟩ | ⟨key, other, t, t', hkey, hother, hne, hclaim, hpush, hle, hlt⟩
  · exact .inl ⟨t, List.mem_append.mpr (.inl ht)⟩
  · exact .inr ⟨key, other, t, t', hkey, hother, hne, List.mem_append.mpr (.inl hclaim),
      List.mem_append.mpr (.inl hpush), hle, hlt⟩

theorem Failed.append {call : Request} {journal : Journal σ} (h : Failed σ call journal)
    (more : Journal σ) : Failed σ call (journal ++ more) := by
  obtain ⟨t, op, e, hmem⟩ := h
  exact ⟨t, op, e, List.mem_append.mpr (.inl hmem)⟩

/-! ## The stages of a call -/

/-- How far a producer has come. -/
inductive Producing where
  | connecting (call : Request)
  | claiming (call : Request) (key : String)
  | pushing (call : Request)
  | reporting (call : Request) (out : TaskResult Unit)
  | over

/-- The stage after the connection. -/
def connected (call : Request) : Producing :=
  match call.message.dedupKey with
  | none => .pushing call
  | some key => .claiming call key

/-- The stage after the claim: only a claim that was granted leads to a push. -/
def answered (call : Request) : Except CommandError Bool → Producing
  | .ok true => .pushing call
  | .ok false => .reporting call (.ok ())
  | .error _ => .reporting call (.ok ())

variable (b codec) in
/-- Which command leads from which stage to which. -/
inductive Producing.Step :
    Producing → (op : (producers σ).Op) → (producers σ).Res op → Producing → Prop where
  | connect (call : Request) :
      Step (.connecting call) (.redis call .conn) (.ok ()) (connected call)
  | refuse (call : Request) (e : CommandError) :
      Step (.connecting call) (.redis call .conn) (.error e)
        (.reporting call (.error (brokerErr e)))
  | claim (call : Request) (key : String) (ans : Except CommandError Bool) :
      call.message.dedupKey = some key →
      Step (.claiming call key)
        (.redis call (.setNxEx (b.keys.dedup key) (.int 1) b.dedupTtl)) ans (answered call ans)
  | push (call : Request) :
      Step (.pushing call) (.redis call (.lpush (b.keys.queue call.message.queue)
        (call.message.encode codec.rfc3339))) (.ok ()) (.reporting call (.ok ()))
  | lose (call : Request) (e : CommandError) :
      Step (.pushing call) (.redis call (.lpush (b.keys.queue call.message.queue)
        (call.message.encode codec.rfc3339))) (.error e)
        (.reporting call (.error (brokerErr e)))
  | report (call : Request) (out : TaskResult Unit) :
      Step (.reporting call out) (.report call out) () .over

variable (b codec) in
/-- The protocol of a producer. -/
abbrev production : Protocol (producers σ) :=
  ⟨Producing, Producing.Step b codec, fun t => t = .over⟩

/-- The push, and the report. -/
theorem push_follows (call : Request) :
    ((command brokerErr (.lpush (b.keys.queue call.message.queue)
      (call.message.encode codec.rfc3339)) : Attempt σ Unit).run.interp (fun op =>
        Prog.perform (I := producers σ) (.redis call op)) >>= fun out =>
          Prog.perform (I := producers σ) (.report call out)).Follows (b.production codec)
      (.pushing call) := by
  intro ans
  cases ans with
  | ok a => exact ⟨_, .push call, fun _ => ⟨_, .report call _, rfl⟩⟩
  | error e => exact ⟨_, .lose call e, fun _ => ⟨_, .report call _, rfl⟩⟩

/-- A producer follows the protocol. -/
theorem producer_follows (call : Request) :
    (b.producer codec call).Follows (b.production codec) (.connecting call) := by
  intro ans
  cases ans with
  | error e => exact ⟨_, .refuse call e, fun _ => ⟨_, .report call _, rfl⟩⟩
  | ok a =>
      refine ⟨connected call, .connect call, ?_⟩
      unfold connected
      cases hkey : call.message.dedupKey with
      | none => exact push_follows call
      | some key =>
          intro ans
          refine ⟨answered call ans, .claim call key ans hkey, ?_⟩
          cases ans with
          | error e => exact fun _ => ⟨_, .report call _, rfl⟩
          | ok set =>
              cases set with
              | true => exact push_follows call
              | false => exact fun _ => ⟨_, .report call _, rfl⟩

/-! ## The invariant -/

variable (b) in
/-- The call was granted its claim less than a lifetime ago. -/
def Holds (call : Request) (s : Site σ) : Prop :=
  ∃ key t, call.message.dedupKey = some key ∧ (t, b.claimed call key (.ok true)) ∈ s.journal ∧
    s.store.clock < t + 1000 * b.dedupTtl

variable (b codec) in
/-- What the site knows about a claimed dedup key: its holder has pushed since, or
is about to push. -/
def Covered (s : Site σ) (stages : List Producing) (key : String) (t : Nat) : Prop :=
  (∃ call t', call.message.dedupKey = some key ∧ (t', b.pushed codec call) ∈ s.journal ∧
      t ≤ t' ∧ t' ≤ s.store.clock) ∨
    ∃ call, .pushing call ∈ stages ∧ call.message.dedupKey = some key ∧
      (t, b.claimed call key (.ok true)) ∈ s.journal

variable (b codec) in
/-- What a call may return, given the journal. -/
def Backed (call : Request) (journal : Journal σ) : TaskResult Unit → Prop
  | .ok _ => b.Sound codec call journal
  | .error _ => Failed σ call journal

variable (b codec) in
/-- The invariant of the site. -/
structure Deduplicated (s : Site σ) (stages : List Producing) : Prop where
  past : ∀ x ∈ s.journal, x.1 ≤ s.store.clock
  keys : ∀ key e, s.store.keys (b.keys.dedup key) = some e →
    ∃ t, e.expiry = some (t + 1000 * b.dedupTtl) ∧ b.Covered codec s stages key t
  keyed : ∀ call key, .claiming call key ∈ stages → call.message.dedupKey = some key
  reporting : ∀ call out, .reporting call out ∈ stages → b.Backed codec call s.journal out
  reported : ∀ t call out, (t, (⟨.report call out, ()⟩ : Event (producers σ))) ∈ s.journal →
    b.Backed codec call s.journal out

theorem Backed.append {call : Request} {journal : Journal σ} {out : TaskResult Unit}
    (h : b.Backed codec call journal out) (more : Journal σ) :
    b.Backed codec call (journal ++ more) out := by
  cases out with
  | ok _ => exact Sound.append h more
  | error _ => exact Failed.append h more

variable (b codec queueOf) in
/-- The condition on a step.  A command of a keyed call that fails is the
connection; and a claim is refused only while no holder of the key has still to
push. -/
structure Settled (c : (b.site codec queueOf).Staged (b.production codec))
    (l : (b.site codec queueOf).Label) : Prop where
  answered : ∀ call op e, l = .call ⟨.redis call op, .error e⟩ →
    call.message.dedupKey = none ∨ op = .conn
  refused : ∀ call key, l = .call (b.claimed call key (.ok false)) →
    ∀ holder, .pushing holder ∈ c.stages → holder.message.dedupKey = some key →
      ¬ b.Holds holder c.state

/-! ## One step -/

section Step

variable {s s' : Site σ} {before after : List Producing} {t t' : Producing}
  {ev : Event (producers σ)} {call : Request} {key : String}

/-- A stage of the pool after a step is the new one, or was there before. -/
theorem mem_stages {u : Producing} (h : u ∈ before ++ t' :: after) :
    u = t' ∨ u ∈ before ++ t :: after := by
  simp only [List.mem_append, List.mem_cons] at h ⊢
  tauto

/-- A key stays covered when a call that is not its holder moves on. -/
theorem Covered.step {key : String} {at₀ : Nat}
    (h : b.Covered codec s (before ++ t :: after) key at₀)
    (hjournal : s'.journal = s.journal ++ [(s.store.clock, ev)])
    (hclock : s'.store.clock = s.store.clock)
    (hholder : ∀ call, t = .pushing call → call.message.dedupKey = some key →
      ev = b.pushed codec call)
    (hpast : ∀ x ∈ s.journal, x.1 ≤ s.store.clock) :
    b.Covered codec s' (before ++ t' :: after) key at₀ := by
  have hmem : ∀ {x}, x ∈ s.journal → x ∈ s'.journal := by
    intro x hx
    rw [hjournal]
    exact List.mem_append.mpr (.inl hx)
  rcases h with ⟨call, t₁, hkey, hpush, hle, hnow⟩ | ⟨call, hstage, hkey, hclaim⟩
  · refine .inl ⟨call, t₁, hkey, hmem hpush, hle, ?_⟩
    rw [hclock]
    exact hnow
  · by_cases heq : t = .pushing call
    · -- the holder itself: what it did is its push
      refine .inl ⟨call, s.store.clock, hkey, ?_, hpast _ hclaim, hclock ▸ Nat.le_refl _⟩
      rw [hjournal, hholder call heq hkey]
      exact List.mem_append.mpr (.inr List.mem_cons_self)
    · refine .inr ⟨call, ?_, hkey, hmem hclaim⟩
      simp only [List.mem_append, List.mem_cons] at hstage ⊢
      rcases hstage with hstage | hstage | hstage
      · exact .inl hstage
      · exact absurd hstage.symm heq
      · exact .inr (.inr hstage)

/-- What a step has to bring along: the dedup keys are covered, and what the call
may return is backed. -/
theorem Deduplicated.record (h : b.Deduplicated codec s (before ++ t :: after))
    (hjournal : s'.journal = s.journal ++ [(s.store.clock, ev)])
    (hclock : s'.store.clock = s.store.clock)
    (hkeys : ∀ key e, s'.store.keys (b.keys.dedup key) = some e →
      ∃ at₀, e.expiry = some (at₀ + 1000 * b.dedupTtl) ∧
        b.Covered codec s' (before ++ t' :: after) key at₀)
    (hkeyed : ∀ call key, t' = .claiming call key → call.message.dedupKey = some key)
    (hreporting : ∀ call out, t' = .reporting call out → b.Backed codec call s'.journal out)
    (hreported : ∀ call out, ev = ⟨.report call out, ()⟩ →
      b.Backed codec call s'.journal out) :
    b.Deduplicated codec s' (before ++ t' :: after) where
  past x hx := by
    rw [hclock]
    rw [hjournal, List.mem_append, List.mem_singleton] at hx
    rcases hx with hx | rfl
    · exact h.past x hx
    · exact Nat.le_refl _
  keys := hkeys
  keyed call key hmem := by
    rcases mem_stages hmem with heq | hmem
    · exact hkeyed call key heq.symm
    · exact h.keyed call key hmem
  reporting call out hmem := by
    rcases mem_stages hmem with heq | hmem
    · exact hreporting call out heq.symm
    · rw [hjournal]
      exact (h.reporting call out hmem).append _
  reported at₁ call out hmem := by
    rw [hjournal, List.mem_append, List.mem_singleton] at hmem
    rcases hmem with hmem | hmem
    · rw [hjournal]
      exact (h.reported at₁ call out hmem).append _
    · exact hreported call out (Prod.mk.inj hmem).2.symm

/-- A step that leaves the dedup keys alone, by a call that holds none of them, or
that pushes. -/
theorem Deduplicated.pass (h : b.Deduplicated codec s (before ++ t :: after))
    (hjournal : s'.journal = s.journal ++ [(s.store.clock, ev)])
    (hclock : s'.store.clock = s.store.clock)
    (hsame : ∀ key, s'.store.keys (b.keys.dedup key) = s.store.keys (b.keys.dedup key))
    (hholder : ∀ call key, t = .pushing call → call.message.dedupKey = some key →
      ev = b.pushed codec call)
    (hkeyed : ∀ call key, t' = .claiming call key → call.message.dedupKey = some key)
    (hreporting : ∀ call out, t' = .reporting call out → b.Backed codec call s'.journal out)
    (hreported : ∀ call out, ev = ⟨.report call out, ()⟩ →
      b.Backed codec call s'.journal out) :
    b.Deduplicated codec s' (before ++ t' :: after) := by
  refine h.record hjournal hclock ?_ hkeyed hreporting hreported
  intro key e he
  rw [hsame] at he
  obtain ⟨at₀, hexpiry, hcovered⟩ := h.keys key e he
  exact ⟨at₀, hexpiry, hcovered.step hjournal hclock (fun call => hholder call key) h.past⟩

/-- The claim of a key that is held is refused, and its holder has pushed within the
lifetime of the key. -/
theorem Deduplicated.refused (h : b.Deduplicated codec s (before ++ .claiming call key :: after))
    (hheld : s.store.get (b.keys.dedup key) ≠ none)
    (hsettled : ∀ holder, .pushing holder ∈ before ++ .claiming call key :: after →
      holder.message.dedupKey = some key → ¬ b.Holds holder s) :
    b.Sound codec call (s.journal ++ [(s.store.clock, b.claimed call key (.ok false))]) := by
  have hkey : call.message.dedupKey = some key :=
    h.keyed call key (List.mem_append.mpr (.inr List.mem_cons_self))
  obtain ⟨e, he, halive⟩ := Keyspace.entry_of_get hheld
  obtain ⟨at₀, hexpiry, hcovered⟩ := h.keys key e he
  have hlive : s.store.clock < at₀ + 1000 * b.dedupTtl := by
    rw [Keyspace.Entry.alive, hexpiry] at halive
    exact of_decide_eq_true halive
  rcases hcovered with ⟨other, t₁, hother, hpush, hle, hnow⟩ | ⟨holder, hstage, hholder, hclaim⟩
  · by_cases heq : other = call
    · subst heq
      exact .inl ⟨t₁, List.mem_append.mpr (.inl hpush)⟩
    · refine .inr ⟨key, other, s.store.clock, t₁, hkey, hother, heq, ?_, ?_, hnow, ?_⟩
      · exact List.mem_append.mpr (.inr List.mem_cons_self)
      · exact List.mem_append.mpr (.inl hpush)
      · omega
  · exact absurd ⟨key, at₀, hholder, hclaim, hlive⟩ (hsettled holder hstage hholder)

/-- A claim that is granted puts the key under its holder. -/
theorem Deduplicated.granted (h : b.Deduplicated codec s (before ++ .claiming call key :: after))
    (hjournal : s'.journal = s.journal ++ [(s.store.clock, b.claimed call key (.ok true))])
    (hstore : s'.store = s.store.store (b.keys.dedup key) (.int 1) b.dedupTtl) :
    b.Deduplicated codec s' (before ++ .pushing call :: after) := by
  have hclock : s'.store.clock = s.store.clock := by
    rw [hstore]
    rfl
  have hkey : call.message.dedupKey = some key :=
    h.keyed call key (List.mem_append.mpr (.inr List.mem_cons_self))
  refine h.record hjournal hclock ?_ (fun _ _ heq => nomatch heq) (fun _ _ heq => nomatch heq)
    (fun _ _ heq => nomatch heq)
  intro key' e he
  by_cases hkeys : b.keys.dedup key' = b.keys.dedup key
  · obtain rfl := b.keys.dedup_inj hkeys
    rw [hstore, Keyspace.keys_store_self] at he
    cases he
    refine ⟨s.store.clock, rfl, .inr ⟨call, ?_, hkey, ?_⟩⟩
    · exact List.mem_append.mpr (.inr List.mem_cons_self)
    · rw [hjournal]
      exact List.mem_append.mpr (.inr List.mem_cons_self)
  · rw [hstore, Keyspace.keys_store_ne _ hkeys] at he
    obtain ⟨at₀, hexpiry, hcovered⟩ := h.keys key' e he
    exact ⟨at₀, hexpiry, hcovered.step hjournal hclock (fun _ heq => nomatch heq) h.past⟩

end Step

/-- What the site answers to a command: what the server does with it, written to the
journal. -/
theorem site_redis {lost : Option (Loss CommandError)} {s s' : Site σ} {call : Request}
    {op : RedisOp σ} {ans : Except CommandError op.Ans}
    (h : (b.site codec queueOf).respond lost s (.redis call op) = some (ans, s')) :
    s'.journal = s.journal ++ [(s.store.clock, ⟨.redis call op, ans⟩)] ∧
      ((∃ a, ans = .ok a ∧ perform queueOf s.store op = (.ok a, s'.store)) ∨
        ∃ e, ans = .error e ∧ s'.store = left queueOf ⟨0, lost⟩ s.store op) := by
  obtain ⟨⟨ans', r⟩, hrespond, heq⟩ := Option.map_eq_some_iff.mp h
  cases heq
  refine ⟨rfl, ?_⟩
  rcases server_respond hrespond with ⟨a, rfl, -, hperform⟩ | ⟨e, rfl, -, hleft⟩
  · exact .inl ⟨a, rfl, hperform⟩
  · exact .inr ⟨e, rfl, hleft⟩

/-- A call whose command has failed. -/
theorem failed_last {journal journal' : Journal σ} {t : Nat} {call : Request} {op : RedisOp σ}
    {e : CommandError} (h : journal' = journal ++ [(t, ⟨.redis call op, .error e⟩)]) :
    Failed σ call journal' := by
  rw [h]
  exact ⟨t, op, e, List.mem_append.mpr (.inr List.mem_cons_self)⟩

section Cases

variable {s s' : Site σ} {before after : List Producing} {call : Request} {key : String}
  {e : CommandError} {lost : Option (Loss CommandError)}

/-- A connection that is made. -/
theorem Deduplicated.connect (h : b.Deduplicated codec s (before ++ .connecting call :: after))
    (hrespond : (b.site codec queueOf).respond lost s (.redis call .conn) = some (.ok (), s')) :
    b.Deduplicated codec s' (before ++ connected call :: after) := by
  obtain ⟨hjournal, ⟨a, -, hperform⟩ | ⟨e, he, -⟩⟩ := site_redis hrespond
  swap
  · cases he
  obtain hstore : s.store = s'.store := (Prod.mk.inj hperform).2
  refine h.pass hjournal (by rw [hstore]) (fun _ => by rw [hstore]) (fun _ _ heq => nomatch heq)
    ?_ ?_ (fun _ _ heq => nomatch heq)
  · intro call' key heq
    unfold connected at heq
    split at heq
    · cases heq
    · cases heq
      assumption
  · intro call' out heq
    unfold connected at heq
    split at heq <;> cases heq

/-- A connection that fails. -/
theorem Deduplicated.refuse (h : b.Deduplicated codec s (before ++ .connecting call :: after))
    (hrespond : (b.site codec queueOf).respond lost s (.redis call .conn) = some (.error e, s')) :
    b.Deduplicated codec s'
      (before ++ .reporting call (.error (brokerErr e)) :: after) := by
  obtain ⟨hjournal, ⟨a, ha, -⟩ | ⟨_, -, hleft⟩⟩ := site_redis hrespond
  · cases ha
  have hstore : s'.store = s.store := hleft.trans (left_of_reads fun _ => rfl)
  refine h.pass hjournal (by rw [hstore]) (fun _ => by rw [hstore]) (fun _ _ heq => nomatch heq)
    (fun _ _ heq => nomatch heq) ?_ (fun _ _ heq => nomatch heq)
  intro call' out heq
  cases heq
  exact failed_last hjournal

/-- A claim that is answered. -/
theorem Deduplicated.claim (h : b.Deduplicated codec s (before ++ .claiming call key :: after))
    {set : Bool}
    (hsettled : set = false → ∀ holder, .pushing holder ∈ before ++ .claiming call key :: after →
      holder.message.dedupKey = some key → ¬ b.Holds holder s)
    (hrespond : (b.site codec queueOf).respond lost s
      (.redis call (.setNxEx (b.keys.dedup key) (.int 1) b.dedupTtl)) = some (.ok set, s')) :
    b.Deduplicated codec s' (before ++ answered call (.ok set) :: after) := by
  obtain ⟨hjournal, ⟨set', hset, hperform⟩ | ⟨e, he, -⟩⟩ := site_redis hrespond
  swap
  · cases he
  cases hset
  obtain ⟨-, ⟨rfl, -, hstore⟩ | ⟨rfl, hheld, hstore⟩⟩ := Keyspace.setNxEx_cases (commit_ok hperform)
  · exact h.granted hjournal hstore
  · have hsound := h.refused hheld (hsettled rfl)
    refine h.pass hjournal (by rw [hstore]) (fun _ => by rw [hstore])
      (fun _ _ heq => nomatch heq) (fun _ _ heq => nomatch heq) ?_ (fun _ _ heq => nomatch heq)
    intro call' out heq
    cases heq
    rw [hjournal]
    exact hsound

/-- A push that succeeds. -/
theorem Deduplicated.push (h : b.Deduplicated codec s (before ++ .pushing call :: after))
    (hrespond : (b.site codec queueOf).respond lost s (.redis call (.lpush
      (b.keys.queue call.message.queue) (call.message.encode codec.rfc3339))) =
        some (.ok (), s')) :
    b.Deduplicated codec s' (before ++ .reporting call (.ok ()) :: after) := by
  obtain ⟨hjournal, ⟨a, -, hperform⟩ | ⟨e, he, -⟩⟩ := site_redis hrespond
  swap
  · cases he
  obtain ⟨xs, -, hstore⟩ := perform_lpush hperform
  refine h.pass hjournal (by rw [hstore, Keyspace.clock_writeList]) (fun key => ?_)
    (fun call' _ heq _ => ?_) (fun _ _ heq => nomatch heq) ?_ (fun _ _ heq => nomatch heq)
  · rw [hstore, Keyspace.keys_writeList_ne _ (b.keys.queue_ne_dedup _ _).symm]
  · cases heq
    rfl
  · intro call' out heq
    cases heq
    refine .inl ⟨s.store.clock, ?_⟩
    rw [hjournal]
    exact List.mem_append.mpr (.inr List.mem_cons_self)

/-- A push that fails, of a message without a dedup key; it may have pushed. -/
theorem Deduplicated.lose (h : b.Deduplicated codec s (before ++ .pushing call :: after))
    (hplain : call.message.dedupKey = none)
    (hrespond : (b.site codec queueOf).respond lost s (.redis call (.lpush
      (b.keys.queue call.message.queue) (call.message.encode codec.rfc3339))) =
        some (.error e, s')) :
    b.Deduplicated codec s'
      (before ++ .reporting call (.error (brokerErr e)) :: after) := by
  obtain ⟨hjournal, ⟨a, ha, -⟩ | ⟨_, -, hstore⟩⟩ := site_redis hrespond
  · cases ha
  obtain ⟨hkeys, hclock⟩ := left_lpush queueOf ⟨0, lost⟩ s.store
    (b.keys.queue call.message.queue) (call.message.encode codec.rfc3339)
  refine h.pass hjournal (by rw [hstore, hclock]; rfl) (fun key => ?_)
    (fun call' key heq hkey => ?_) (fun _ _ heq => nomatch heq) ?_ (fun _ _ heq => nomatch heq)
  · rw [hstore, hkeys _ (b.keys.queue_ne_dedup _ _).symm]
  · cases heq
    rw [hplain] at hkey
    cases hkey
  · intro call' out heq
    cases heq
    exact failed_last hjournal

/-- A call returns. -/
theorem Deduplicated.report {out : TaskResult Unit}
    (h : b.Deduplicated codec s (before ++ .reporting call out :: after))
    (hrespond : (b.site codec queueOf).respond lost s (.report call out) = some ((), s')) :
    b.Deduplicated codec s' (before ++ .over :: after) := by
  cases hrespond
  refine h.pass rfl rfl (fun _ => rfl) (fun _ _ heq => nomatch heq)
    (fun _ _ heq => nomatch heq) (fun _ _ heq => nomatch heq) ?_
  intro call' out' heq
  cases heq
  refine (h.reporting call out ?_).append _
  exact List.mem_append.mpr (.inr List.mem_cons_self)

end Cases

/-- The stages a stimulus starts. -/
def arrived : Arrival → Site σ → List Producing
  | .begin m, s => [.connecting ⟨s.next, m⟩]
  | .wait _, _ => []

/-- Another producer arrives. -/
theorem Deduplicated.arrive {s : Site σ} {stages : List Producing}
    (h : b.Deduplicated codec s stages) (call : Request) :
    b.Deduplicated codec { s with next := s.next + 1 } (stages ++ [.connecting call]) := by
  have hmem : ∀ {u}, u ∈ stages ++ [.connecting call] → u ≠ .connecting call → u ∈ stages := by
    intro u hu hne
    rcases List.mem_append.mp hu with hu | hu
    · exact hu
    · exact absurd (List.mem_singleton.mp hu) hne
  constructor
  · exact h.past
  · intro key e he
    obtain ⟨t, hexpiry, hpush | ⟨holder, hstage, hkey, hclaim⟩⟩ := h.keys key e he
    · exact ⟨t, hexpiry, .inl hpush⟩
    · exact ⟨t, hexpiry, .inr ⟨holder, List.mem_append.mpr (.inl hstage), hkey, hclaim⟩⟩
  · exact fun call' key hstage => h.keyed call' key (hmem hstage fun heq => nomatch heq)
  · exact fun call' out hstage => h.reporting call' out (hmem hstage fun heq => nomatch heq)
  · exact h.reported

/-- Time passes. -/
theorem Deduplicated.wait {s : Site σ} {stages : List Producing}
    (h : b.Deduplicated codec s stages) (millis : Nat) :
    b.Deduplicated codec { s with store := s.store.advance millis } stages := by
  constructor
  · exact fun x hx => (h.past x hx).trans (Nat.le_add_right _ _)
  · intro key e he
    obtain ⟨t, hexpiry, ⟨call, t', hkey, hpush, hle, hnow⟩ | hholder⟩ := h.keys key e he
    · exact ⟨t, hexpiry, .inl ⟨call, t', hkey, hpush, hle, hnow.trans (Nat.le_add_right _ _)⟩⟩
    · exact ⟨t, hexpiry, .inr hholder⟩
  · exact h.keyed
  · exact h.reporting
  · exact h.reported

/-- One step keeps the invariant, if it is settled. -/
theorem Deduplicated.step {s s' : Site σ} {stages stages' : List Producing}
    {l : (b.site codec queueOf).Label} (h : b.Deduplicated codec s stages)
    (hsettled : b.Settled codec queueOf ⟨s, stages⟩ l)
    (hstep : (b.site codec queueOf).StagedStep (b.production codec) arrived ⟨s, stages⟩ l
      ⟨s', stages'⟩) :
    b.Deduplicated codec s' stages' := by
  have hplain : ∀ {call op e}, l = .call ⟨.redis call op, .error e⟩ → op ≠ .conn →
      call.message.dedupKey = none := by
    intro call op e heq hne
    exact (hsettled.answered call op e heq).resolve_right hne
  cases hstep with
  | env x _ haccept =>
      cases x with
      | begin m =>
          cases haccept
          exact h.arrive _
      | wait millis =>
          cases haccept
          rw [arrived, List.append_nil]
          exact h.wait millis
  | call lost before after hrespond hstep =>
      cases hstep with
      | connect call => exact h.connect hrespond
      | refuse call e => exact h.refuse hrespond
      | claim call key ans hkey =>
          cases ans with
          | error e =>
              have hnone := hplain rfl (fun heq => nomatch heq)
              rw [hkey] at hnone
              cases hnone
          | ok set =>
              refine h.claim (fun hset => ?_) hrespond
              subst hset
              exact hsettled.refused call key rfl
      | push call => exact h.push hrespond
      | lose call e => exact h.lose (hplain rfl fun heq => nomatch heq) hrespond
      | report call out => exact h.report hrespond

/-! ## Every run -/

variable (b codec queueOf) in
/-- The condition on a step of the producers: a command of a keyed call that fails is
the connection; and a claim is refused only while no call that holds the key has
still to push. -/
structure SettledStep (c : (b.site codec queueOf).Config) (l : (b.site codec queueOf).Label) :
    Prop where
  answered : ∀ call op e, l = .call ⟨.redis call op, .error e⟩ →
    call.message.dedupKey = none ∨ op = .conn
  refused : ∀ call key, l = .call (b.claimed call key (.ok false)) →
    ∀ holder queue text k, .call (.redis holder (.lpush queue text)) k ∈ c.threads →
      holder.message.dedupKey = some key → ¬ b.Holds holder c.state

/-- A program at the stage of a push is about to push. -/
theorem pending_of_follows {p : Prog (producers σ) Unit} {call : Request}
    (h : p.Follows (b.production codec) (.pushing call)) :
    ∃ k, p = .call (.redis call (.lpush (b.keys.queue call.message.queue)
      (call.message.encode codec.rfc3339))) k := by
  cases p with
  | ret a => exact nomatch (show Producing.pushing call = .over from h)
  | call op k =>
      cases op with
      | redis other op =>
          obtain ⟨t', hstep, -⟩ := h (.error "")
          cases hstep
          exact ⟨k, rfl⟩
      | report other out =>
          obtain ⟨t', hstep, -⟩ := h ()
          cases hstep

theorem SettledStep.staged {c : (b.site codec queueOf).Config} {stages : List Producing}
    {l : (b.site codec queueOf).Label}
    (hall : List.Forall₂ (Prog.Follows (b.production codec)) c.threads stages)
    (h : b.SettledStep codec queueOf c l) : b.Settled codec queueOf ⟨c.state, stages⟩ l where
  answered := h.answered
  refused call key heq holder hstage hkey := by
    obtain ⟨p, hp, hfollows⟩ := Machine.exists_of_forall₂ hall hstage
    obtain ⟨k, rfl⟩ := pending_of_follows hfollows
    exact h.refused call key heq holder _ _ k hp hkey

/-- The invariant holds in every run over stages. -/
theorem deduplicated_of_staged {r : Keyspace σ}
    (hfree : ∀ key, r.keys (b.keys.dedup key) = none)
    {tr : List (b.site codec queueOf).Label}
    {c : (b.site codec queueOf).Staged (b.production codec)}
    (h : Machine.StagedReachIf (b.Settled codec queueOf) arrived ⟨⟨r, [], 0⟩, []⟩ tr c) :
    b.Deduplicated codec c.state c.stages := by
  induction h with
  | start =>
      constructor
      · exact fun x hx => nomatch hx
      · intro key e he
        rw [hfree] at he
        cases he
      · exact fun _ _ hmem => nomatch hmem
      · exact fun _ _ hmem => nomatch hmem
      · exact fun _ _ _ hmem => nomatch hmem
  | step _ hsettled hstep ih => exact ih.step hsettled hstep

theorem deduplicated_of_reach {r : Keyspace σ}
    (hfree : ∀ key, r.keys (b.keys.dedup key) = none)
    {tr : List (b.site codec queueOf).Label} {c : (b.site codec queueOf).Config}
    (h : Machine.ReachIf (b.SettledStep codec queueOf) ⟨⟨r, [], 0⟩, []⟩ tr c) :
    ∃ stages, b.Deduplicated codec c.state stages := by
  have hentry : ∀ x s s' new, (b.site codec queueOf).accept x s = some (s', new) →
      List.Forall₂ (Prog.Follows (b.production codec)) new (arrived x s) := by
    intro x s s' new haccept
    cases x with
    | begin m =>
        cases haccept
        exact .cons (producer_follows _) .nil
    | wait millis =>
        cases haccept
        exact .nil
  obtain ⟨stages, hstaged, -⟩ := h.staged hentry
    (fun _ _ _ hall hgood => SettledStep.staged hall hgood) .nil
  exact ⟨stages, deduplicated_of_staged hfree hstaged⟩

/-- When deduplication is sound: in every run of any number of producers whose
steps are all settled, a call that returned `Ok` has pushed its message or was
refused while another call had pushed one with the same key within the lifetime of
the key; and a call none of whose commands failed is such a call. -/
theorem dedup_sound {r : Keyspace σ} (hfree : ∀ key, r.keys (b.keys.dedup key) = none)
    {tr : List (b.site codec queueOf).Label} {c : (b.site codec queueOf).Config}
    (h : Machine.ReachIf (b.SettledStep codec queueOf) ⟨⟨r, [], 0⟩, []⟩ tr c) {t : Nat}
    {call : Request} {out : TaskResult Unit}
    (hreport : (t, (⟨.report call out, ()⟩ : Event (producers σ))) ∈ c.state.journal) :
    (out = .ok () → b.Sound codec call c.state.journal) ∧
      (¬ Failed σ call c.state.journal → out = .ok () ∧ b.Sound codec call c.state.journal) := by
  obtain ⟨stages, hinv⟩ := deduplicated_of_reach hfree h
  have hbacked := hinv.reported t call out hreport
  cases out with
  | ok a => exact ⟨fun _ => hbacked, fun _ => ⟨rfl, hbacked⟩⟩
  | error e => exact ⟨fun heq => (nomatch heq), fun hnot => absurd hbacked hnot⟩

/-- A claim that is refused. -/
def refusing : (op : RedisOp σ) → Except CommandError op.Ans → Bool
  | .setNxEx _ _ _, .ok set => !set
  | _, _ => false

/-- A program that is about to push. -/
def pushes : Prog (producers σ) Unit → Bool
  | .call (.redis _ (.lpush _ _)) _ => true
  | _ => false

/-- A test for the condition: the step fails no command, and refuses no claim while a
push is still to come. -/
def settles (c : (b.site codec queueOf).Config) : (b.site codec queueOf).Label → Bool
  | .call ⟨.redis _ op, ans⟩ =>
      ans.toBool && !(refusing op ans && c.threads.any pushes)
  | _ => true

theorem settledStep_of_settles {c : (b.site codec queueOf).Config}
    {l : (b.site codec queueOf).Label} (h : settles c l = true) :
    b.SettledStep codec queueOf c l where
  answered call op e heq := by
    subst heq
    cases h
  refused call key heq holder queue text k hmem _ := by
    subst heq
    have hpush : c.threads.any pushes = true := List.any_eq_true.mpr ⟨_, hmem, rfl⟩
    simp [settles, claimed, refusing, hpush] at h

/-- Another task with the same dedup key. -/
def rivalTask : TaskMessage := { plainMessage ⟨2⟩ with dedupKey := some "k" }

/-- Two producers connect; the first claims the key and pushes, and a second later the
claim of the other one is refused. -/
def rivalSchedule : List (plainBroker.site plainCodec fun _ => .ok "q").Move :=
  [.env (.begin dedupTask), .env (.begin rivalTask), .run 0 none, .run 1 none, .run 0 none,
    .run 0 none, .env (.wait 1000), .run 1 none, .run 1 none, .run 0 none]

/-- The second of two producers returns `Ok` without a push. -/
theorem dedup_sound_rival :
    ∃ tr c, Machine.ReachIf (plainBroker.SettledStep plainCodec fun _ => .ok "q")
        ⟨⟨Keyspace.empty 0, [], 0⟩, []⟩ tr c ∧
      (1000, plainBroker.claimed ⟨1, rivalTask⟩ "k" (.ok false)) ∈ c.state.journal ∧
      plainBroker.Sound plainCodec ⟨1, rivalTask⟩ c.state.journal := by
  have hplay : ∃ tr c, Machine.Config.playAll (M := plainBroker.site plainCodec fun _ => .ok "q")
        ⟨⟨Keyspace.empty 0, [], 0⟩, []⟩ rivalSchedule = some (tr, c) ∧
      c.state.journal = [(0, ⟨.redis ⟨0, dedupTask⟩ .conn, .ok ()⟩),
        (0, ⟨.redis ⟨1, rivalTask⟩ .conn, .ok ()⟩),
        (0, plainBroker.claimed ⟨0, dedupTask⟩ "k" (.ok true)),
        (0, plainBroker.pushed plainCodec ⟨0, dedupTask⟩),
        (1000, plainBroker.claimed ⟨1, rivalTask⟩ "k" (.ok false)),
        (1000, ⟨.report ⟨1, rivalTask⟩ (.ok ()), ()⟩),
        (1000, ⟨.report ⟨0, dedupTask⟩ (.ok ()), ()⟩)] :=
    ⟨_, _, rfl, rfl⟩
  obtain ⟨tr, c, hplay, hjournal⟩ := hplay
  have hkeeps : Machine.Config.keeps (M := plainBroker.site plainCodec fun _ => .ok "q") settles
      ⟨⟨Keyspace.empty 0, [], 0⟩, []⟩ rivalSchedule = true := rfl
  have hreach := Machine.Config.reachIf_of_keeps (fun _ _ => settledStep_of_settles) hplay hkeeps
  have hreport : (1000, ⟨.report ⟨1, rivalTask⟩ (.ok ()), ()⟩) ∈ c.state.journal := by
    simp [hjournal]
  exact ⟨tr, c, hreach, by simp [hjournal], (dedup_sound (fun _ => rfl) hreach hreport).1 rfl⟩

/-- A lost push leaves the key claimed: the first call returns an error, the
second call of the same message returns `Ok` although nothing was ever pushed. -/
theorem lost_push_claims :
    ∃ tr c, Machine.Reach (M := plainBroker.site plainCodec fun _ => .ok "q")
        ⟨⟨Keyspace.empty 0, [], 0⟩, []⟩ tr c ∧
      (∃ t e, (t, (⟨.report ⟨0, dedupTask⟩ (.error e), ()⟩ : Event (producers Nat))) ∈
        c.state.journal) ∧
      (∃ t, (t, (⟨.report ⟨1, dedupTask⟩ (.ok ()), ()⟩ : Event (producers Nat))) ∈
        c.state.journal) ∧
      ¬ Failed Nat ⟨1, dedupTask⟩ c.state.journal ∧
      ¬ plainBroker.Sound plainCodec ⟨1, dedupTask⟩ c.state.journal := by
  have hplay : ∃ c tr, Machine.Config.playAll (M := plainBroker.site plainCodec fun _ => .ok "q")
      ⟨⟨Keyspace.empty 0, [], 0⟩, []⟩
      [.env (.begin dedupTask), .run 0 none, .run 0 none, .run 0 (some (.request "broken pipe")),
        .run 0 none, .env (.begin dedupTask), .run 1 none, .run 1 none, .run 1 none] =
        some (tr, c) ∧
      c.state.journal = [(0, ⟨.redis ⟨0, dedupTask⟩ .conn, .ok ()⟩),
        (0, plainBroker.claimed ⟨0, dedupTask⟩ "k" (.ok true)),
        (0, ⟨.redis ⟨0, dedupTask⟩ (.lpush (plainBroker.keys.queue "q")
          (dedupTask.encode fun _ => "")), .error "broken pipe"⟩),
        (0, ⟨.report ⟨0, dedupTask⟩ (.error (.broker "broken pipe")), ()⟩),
        (0, ⟨.redis ⟨1, dedupTask⟩ .conn, .ok ()⟩),
        (0, plainBroker.claimed ⟨1, dedupTask⟩ "k" (.ok false)),
        (0, ⟨.report ⟨1, dedupTask⟩ (.ok ()), ()⟩)] :=
    ⟨_, _, rfl, rfl⟩
  obtain ⟨c, tr, hplay, hjournal⟩ := hplay
  refine ⟨tr, c, Machine.Config.reach_of_playAll hplay, ?_⟩
  rw [hjournal]
  refine ⟨⟨0, .broker "broken pipe", by simp⟩, ⟨0, by simp⟩, ?_, ?_⟩
  · rintro ⟨t, op, e, hmem⟩
    simp only [List.mem_cons, List.not_mem_nil, or_false] at hmem
    rcases hmem with h | h | h | h | h | h | h <;> cases h
  · rintro (⟨t, hmem⟩ | ⟨key, other, t, t', -, -, -, -, hmem, -⟩)
    all_goals
      simp only [List.mem_cons, List.not_mem_nil, or_false] at hmem
      rcases hmem with h | h | h | h | h | h | h <;> cases h

end RedisBroker

end Kojin.Redis
