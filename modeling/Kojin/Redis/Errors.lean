/-
  Redis/Errors.lean --- what a call that failed has left behind (`kojin-redis`:
  `dequeue`, `nack`, `dead_letter`).

  Each of the three takes an entry out of a list and has something left to do
  afterwards: `dequeue` decodes it, `nack` and `dead_letter` push it to another
  list.  When that last part fails, or the answer to any of it is lost, the call
  returns an error and the entry stays where it is, in the processing list, in the
  other list or nowhere.

      dequeueChanges      the BLMOVE from the first queue with an entry arrives
      nackChanges         the LREM arrives and has something to remove, or the LPUSH
      deadLetterChanges   arrives

  `error_atomic_iff` says that the lists are as before exactly when no command that
  changes one reached the server.
-/
import Kojin.Redis.Calls

set_option autoImplicit false

namespace Kojin.Redis

open Kojin.Foundation Kojin.Core

namespace RedisBroker

variable {σ : Type} [LinearOrder σ]

/-! ## The lists -/

/-- The key of a queue, of a dead-letter queue, or of the worker's processing list. -/
def IsList (b : RedisBroker) (key : String) : Prop :=
  (∃ name, key = b.keys.queue name) ∨ (∃ name, key = b.keys.dlq name) ∨
    key = b.keys.processing b.workerId

/-- The keys of the lists hold lists, or nothing, and do not expire. -/
structure Listed (b : RedisBroker) (r : Keyspace σ) : Prop where
  lasting : ∀ key, b.IsList key → r.Lasting key
  list : ∀ key, b.IsList key → ∃ xs, r.list? key = .ok xs

/-- Every list has the entries it had. -/
def SameLists (b : RedisBroker) (r r' : Keyspace σ) : Prop :=
  ∀ key, b.IsList key → r'.keys key = r.keys key

variable {b : RedisBroker} {codec : RedisCodec σ} {m : TaskMessage} {id : TaskId}
  {queueOf : String → Except CommandError String} {os : List Transit} {r r' : Keyspace σ}
  {tr : List (Event (commands σ))} {out : TaskResult Unit} {xs ys : List String}

theorem isList_processing (b : RedisBroker) : b.IsList (b.keys.processing b.workerId) :=
  .inr (.inr rfl)

theorem isList_queue (b : RedisBroker) (name : String) : b.IsList (b.keys.queue name) :=
  .inl ⟨name, rfl⟩

theorem isList_dlq (b : RedisBroker) (name : String) : b.IsList (b.keys.dlq name) :=
  .inr (.inl ⟨name, rfl⟩)

theorem IsList.ne_dedup {key : String} (h : b.IsList key) (k : String) :
    key ≠ b.keys.dedup k := by
  rcases h with ⟨name, rfl⟩ | ⟨name, rfl⟩ | rfl
  · exact b.keys.queue_ne_dedup name k
  · exact b.keys.dlq_ne_dedup name k
  · exact (b.keys.dedup_ne_processing k b.workerId).symm

theorem Listed.advance (h : b.Listed r) (t : Nat) : b.Listed (r.advance t) where
  lasting key hkey := h.lasting key hkey
  list key hkey := by
    obtain ⟨xs, hxs⟩ := h.list key hkey
    exact ⟨xs, (Keyspace.list?_advance_of_lasting (h.lasting key hkey) t).trans hxs⟩

theorem Listed.acked (h : b.Listed r) (hlist : r.list? (b.keys.processing b.workerId) = .ok xs) :
    b.Listed (b.acked id xs r) where
  lasting key hkey := by
    by_cases hne : key = b.keys.processing b.workerId
    · subst hne
      unfold RedisBroker.acked
      split
      · exact Keyspace.lasting_writeList (h.lasting _ hkey) _
      · exact h.lasting _ hkey
    · intro e he
      rw [keys_acked_ne hne] at he
      exact h.lasting key hkey e he
  list key hkey := by
    by_cases hne : key = b.keys.processing b.workerId
    · subst hne
      exact ⟨_, list?_acked hlist⟩
    · obtain ⟨ys, hys⟩ := h.list key hkey
      exact ⟨ys, (Keyspace.list?_of_keys (h.lasting key hkey) (keys_acked_ne hne)).trans hys⟩

/-! ## Taking an entry -/

/-- An acknowledgement changes the processing list exactly if it finds an entry. -/
theorem keys_acked_iff (hlasting : r.Lasting (b.keys.processing b.workerId))
    (hlist : r.list? (b.keys.processing b.workerId) = .ok xs) :
    (b.acked id xs r).keys (b.keys.processing b.workerId) =
        r.keys (b.keys.processing b.workerId) ↔ (xs.find? (mentions id)).isSome = false := by
  constructor
  · intro hkeys
    have hsame := (Keyspace.list?_of_keys hlasting hkeys).trans hlist
    rw [list?_acked hlist] at hsame
    have herase : xs.eraseP (mentions id) = xs := Except.ok.inj hsame
    cases hfind : (xs.find? (mentions id)).isSome with
    | false => rfl
    | true =>
        obtain ⟨x, hx, hmention⟩ := List.find?_isSome.mp hfind
        have hlength := List.length_eraseP_of_mem hx hmention
        rw [herase] at hlength
        have hpos := List.length_pos_of_mem hx
        omega
  · intro hnone
    rw [acked, if_neg (by rw [hnone]; exact Bool.false_ne_true)]

/-- A moved entry changes the list it is moved to. -/
theorem keys_moved_ne {source target item : String} {items others : List String}
    (hlasting : r.Lasting target) (hothers : r.list? target = .ok others) :
    ((r.writeList source items).writeList target (item :: others)).keys target ≠
      r.keys target := by
  intro hkeys
  have hsame := Keyspace.list?_of_keys hlasting hkeys
  rw [Keyspace.list?_writeList, hothers] at hsame
  exact List.cons_ne_self item others (Except.ok.inj hsame)

/-- The entries the worker holds. -/
def held (b : RedisBroker) (r : Keyspace σ) : List String :=
  r.items (b.keys.processing b.workerId)

/-- The queue has an entry. -/
def full (b : RedisBroker) (r : Keyspace σ) (name : String) : Bool :=
  !(r.items (b.keys.queue name)).isEmpty

/-- Every BLMOVE before the one from the first of these queues with an entry comes
through, and that one arrives. -/
def takesFrom (b : RedisBroker) (r : Keyspace σ) (queues : List String) (os : List Transit) :
    Bool := (queues.findIdx? (b.full r)).any (reaches os)

/-- `dequeue` moves an entry. -/
def dequeueChanges (b : RedisBroker) (r : Keyspace σ) (queues : List String)
    (os : List Transit) : Bool :=
  (queues.findIdx? (b.full r)).any fun i => reaches os (i + 1)

/-- `nack` removes an entry or pushes one. -/
def nackChanges (b : RedisBroker) (r : Keyspace σ) (m : TaskMessage) (os : List Transit) : Bool :=
  (b.held r).any (mentions m.id) && reaches os 2 ||
    reaches os (ackCommands m.id (b.held r) + claimCommands m)

/-- `dead_letter` removes an entry or pushes one.  It has taken a connection first. -/
def deadLetterChanges (b : RedisBroker) (r : Keyspace σ) (m : TaskMessage) (os : List Transit) :
    Bool :=
  (b.held r).any (mentions m.id) && reaches os 3 || reaches os (ackCommands m.id (b.held r) + 1)

theorem Listed.items_advance (h : b.Listed r) (t : Nat) {key : String} (hkey : b.IsList key) :
    (r.advance t).items key = r.items key := by
  unfold Keyspace.items
  rw [Keyspace.list?_advance_of_lasting (h.lasting key hkey)]

theorem Listed.held_advance (h : b.Listed r) (t : Nat) : b.held (r.advance t) = b.held r :=
  h.items_advance t b.isList_processing

theorem Listed.full_advance (h : b.Listed r) (t : Nat) : b.full (r.advance t) = b.full r := by
  funext name
  unfold full
  rw [h.items_advance t (b.isList_queue name)]

/-- The first queue has an entry, or it is passed over. -/
theorem takesFrom_cons (name : String) (names : List String) (o : Transit) (os : List Transit) :
    b.takesFrom r (name :: names) (o :: os) =
      if b.full r name then arrives o.failure
      else o.failure.isNone && b.takesFrom r names os := by
  unfold takesFrom
  rw [List.findIdx?_cons]
  split
  · simp
  · cases names.findIdx? (b.full r) with
    | none => simp
    | some i => simp

variable (queueOf) in
/-- What BLMOVE does to a queue without an entry, and to one that has one. -/
theorem perform_blmove (hlists : b.Listed r) (name : String) (timeout : Nat) :
    (b.full r name = false ∧
      perform queueOf r (.blmove (b.keys.queue name) (b.keys.processing b.workerId) timeout) =
        (.ok none, r)) ∨
      (b.full r name = true ∧ ∃ item r₁,
        perform queueOf r (.blmove (b.keys.queue name) (b.keys.processing b.workerId) timeout) =
          (.ok (some item), r₁) ∧
        r₁.keys (b.keys.processing b.workerId) ≠ r.keys (b.keys.processing b.workerId)) := by
  obtain ⟨items, hsource⟩ := hlists.list _ (b.isList_queue name)
  obtain ⟨others, htarget⟩ := hlists.list _ b.isList_processing
  have hmove := Keyspace.lmove_of_list? (b.keys.queue_ne_processing name b.workerId).symm
    hsource htarget
  simp only [full, Keyspace.items_of_list? hsource, perform, hmove]
  rcases List.eq_nil_or_concat items with rfl | ⟨init, item, rfl⟩
  · exact .inl ⟨rfl, rfl⟩
  · rw [List.concat_eq_append, List.getLast?_concat]
    exact .inr ⟨by simp, item, _, rfl, keys_moved_ne (hlists.lasting _ b.isList_processing) htarget⟩

/-- What follows a moved entry only decodes it. -/
theorem run_decoded {x : Except KojinError TaskMessage} {out : TaskResult (Option TaskMessage)}
    (h : (server queueOf).run os (ExceptT.run (decoded x >>= fun m' =>
      (pure (some m') : Attempt σ (Option TaskMessage)))) r = some (tr, out, r')) : r' = r := by
  cases x with
  | error e =>
      exact (Service.run_ret_iff.mp
        (show (server queueOf).run os (.ret (.error e)) r = some (tr, out, r') from h)).2.2
  | ok m' =>
      exact (Service.run_ret_iff.mp
        (show (server queueOf).run os (.ret (.ok (some m'))) r = some (tr, out, r') from h)).2.2

/-- The loop of `dequeue` takes an entry exactly if the BLMOVE from the first queue that
has one arrives, and otherwise it changes nothing. -/
theorem run_dequeueFrom {names : List String} {timeout : Nat}
    {out : TaskResult (Option TaskMessage)} (hlists : b.Listed r)
    (h : (server queueOf).run os (b.dequeueFrom codec timeout names).run r = some (tr, out, r')) :
    (b.takesFrom r names os = false ∧ r'.keys = r.keys) ∨
      (b.takesFrom r names os = true ∧ r'.keys (b.keys.processing b.workerId) ≠
        r.keys (b.keys.processing b.workerId)) := by
  induction names generalizing os r tr with
  | nil =>
      obtain ⟨rfl, -, rfl⟩ := Service.run_ret_iff.mp
        (show (server queueOf).run os (.ret (.ok none)) r = some (tr, out, r') from h)
      exact .inl ⟨rfl, rfl⟩
  | cons name names ih =>
      obtain ⟨o, rest, rfl, h₁⟩ := run_command h
      have hlater := hlists.advance o.elapsed
      rw [takesFrom_cons, ← hlists.full_advance o.elapsed]
      rcases perform_blmove queueOf hlater name timeout with
        ⟨hempty, hkept⟩ | ⟨hfull, item, r₂, htaken, hchanged⟩
      · rw [hempty, if_neg Bool.false_ne_true]
        rcases h₁ with ⟨entry, r₁, tail, hfine, hperform, rfl, h₁⟩ | ⟨e, rfl, -, herror, rfl⟩
        · rw [hkept] at hperform
          obtain ⟨hentry, rfl⟩ := Prod.mk.inj hperform
          cases hentry
          have hrest := ih hlater h₁
          rw [hfine, takesFrom, ← hlists.full_advance o.elapsed]
          exact hrest
        · have hlost : o.failure ≠ none := by
            intro hnone
            have hok := herror hnone
            rw [hkept] at hok
            cases hok
          refine .inl ⟨?_, ?_⟩
          · simp [Option.isNone_iff_eq_none, hlost]
          · unfold left
            rw [hkept, ite_self]
            rfl
      · rw [hfull, if_pos rfl]
        rcases h₁ with ⟨entry, r₁, tail, hfine, hperform, rfl, h₁⟩ | ⟨e, rfl, -, -, rfl⟩
        · rw [htaken] at hperform
          obtain ⟨hentry, rfl⟩ := Prod.mk.inj hperform
          cases hentry
          obtain rfl := run_decoded (x := (codec.decodeMessage item).mapError .serialization) h₁
          exact .inr ⟨by rw [hfine]; rfl, hchanged⟩
        · unfold left
          rw [htaken]
          split
          · rename_i harrives
            exact .inr ⟨harrives, hchanged⟩
          · rename_i harrives
            exact .inl ⟨by simpa using harrives, rfl⟩

theorem run_dequeue {queues : List String} {timeout : Nat} {out : TaskResult (Option TaskMessage)}
    (hlists : b.Listed r)
    (h : (server queueOf).run os (b.dequeue codec queues timeout).run r = some (tr, out, r')) :
    b.SameLists r r' ↔ b.dequeueChanges r queues os = false := by
  have hkeys : (b.dequeueChanges r queues os = false ∧ r'.keys = r.keys) ∨
      (b.dequeueChanges r queues os = true ∧ r'.keys (b.keys.processing b.workerId) ≠
        r.keys (b.keys.processing b.workerId)) := by
    obtain ⟨o, rest, rfl, ⟨tail, hfine, rfl, h₁⟩ | ⟨e, rfl, -, hlost, rfl⟩⟩ := run_conn h
    · have hrest := run_dequeueFrom (hlists.advance o.elapsed) h₁
      rw [takesFrom, hlists.full_advance] at hrest
      simp only [dequeueChanges, reaches_succ, hfine, Option.isNone_none, Bool.true_and]
      exact hrest
    · refine .inl ⟨?_, rfl⟩
      simp [dequeueChanges, reaches_of_lost rest hlost]
  rcases hkeys with ⟨hnot, hkeys⟩ | ⟨hchanges, hchanged⟩
  · refine iff_of_true (fun key _ => ?_) hnot
    rw [hkeys]
  · refine iff_of_false (fun hsame => hchanged (hsame _ b.isList_processing)) ?_
    simp [hchanges]

/-- What is pushed in the second part of `nack` and of `dead_letter`, when it fails: one
list changes, exactly if the push arrives, and the other lists are as before. -/
def Pushes (b : RedisBroker) (queueOf : String → Except CommandError String)
    (p : Attempt σ Unit) (key : String) (n : Nat) : Prop :=
  ∀ (os : List Transit) (r r' : Keyspace σ) (tr : List (Event (commands σ))) (e : KojinError),
    b.Listed r → (server queueOf).run os p.run r = some (tr, .error e, r') →
    (∀ key', b.IsList key' → key' ≠ key → r'.keys key' = r.keys key') ∧
      ((reaches os n = true ∧ r'.keys key ≠ r.keys key) ∨
        (reaches os n = false ∧ r'.keys key = r.keys key))

/-- A pushed text changes its list. -/
theorem keys_pushed_ne {key text : String} (hlasting : r.Lasting key)
    (hlist : r.list? key = .ok ys) (hpushed : r'.list? key = .ok (text :: ys)) :
    r'.keys key ≠ r.keys key := by
  intro hkeys
  have hsame := (Keyspace.list?_of_keys hlasting hkeys).trans hlist
  rw [hpushed] at hsame
  exact List.cons_ne_self text ys (Except.ok.inj hsame)

theorem pushes_enqueue (m : TaskMessage) :
    b.Pushes queueOf (b.enqueue codec m) (b.keys.queue m.queue) (claimCommands m) := by
  intro os r r' tr e hlists h
  obtain ⟨ys, hlist⟩ := hlists.list _ (b.isList_queue m.queue)
  have hlasting := hlists.lasting _ (b.isList_queue m.queue)
  obtain ⟨hother, ⟨he, -⟩ | ⟨-, -, hqueue⟩⟩ := run_enqueue hlasting hlist h
  · cases he
  · refine ⟨fun key hkey hne => hother key hkey.ne_dedup hne, ?_⟩
    exact hqueue.imp_left fun hpush => ⟨hpush.1, keys_pushed_ne hlasting hlist hpush.2⟩

theorem pushes_dlq (name text : String) :
    b.Pushes queueOf (command brokerErr (.lpush (b.keys.dlq name) text) : Attempt σ Unit)
      (b.keys.dlq name) 0 := by
  intro os r r' tr e hlists h
  obtain ⟨ys, hlist⟩ := hlists.list _ (b.isList_dlq name)
  have hlasting := hlists.lasting _ (b.isList_dlq name)
  obtain ⟨hother, ⟨he, -⟩ | ⟨-, -, hdlq⟩⟩ := run_push hlasting hlist h
  · cases he
  · refine ⟨fun key _ hne => hother key hne, ?_⟩
    exact hdlq.imp_left fun hpush => ⟨hpush.1, keys_pushed_ne hlasting hlist hpush.2⟩

/-- An acknowledgement changes the processing list if it removes an entry. -/
theorem not_sameLists_acked (hlists : b.Listed r)
    (hlist : r.list? (b.keys.processing b.workerId) = .ok xs) (t : Nat)
    (hfound : (xs.find? (mentions id)).isSome = true)
    (hkeys : r'.keys (b.keys.processing b.workerId) =
      (b.acked id xs (r.advance t)).keys (b.keys.processing b.workerId)) : ¬ b.SameLists r r' := by
  intro hsame
  have hlasting := hlists.lasting _ b.isList_processing
  have hnone := (keys_acked_iff (r := r.advance t) hlasting
    ((Keyspace.list?_advance_of_lasting hlasting t).trans hlist)).mp
      (hkeys.symm.trans (hsame _ b.isList_processing))
  rw [hfound] at hnone
  cases hnone

/-- An acknowledgement and a push, when one of them fails: the lists are as before exactly
if neither changed one. -/
theorem run_ack_then {f : Unit → Attempt σ Unit} {e : KojinError} {key : String} {n : Nat}
    (hlists : b.Listed r) (hkey : b.IsList key) (hne : key ≠ b.keys.processing b.workerId)
    (hf : b.Pushes queueOf (f ()) key n)
    (h : (server queueOf).run os (b.ack id >>= f).run r = some (tr, .error e, r')) :
    b.SameLists r r' ↔ ((b.held r).any (mentions id) && reaches os 2 ||
      reaches os (ackCommands id (b.held r) + n)) = false := by
  obtain ⟨xs, hlist⟩ := hlists.list _ b.isList_processing
  have hlasting := hlists.lasting _ b.isList_processing
  have hheld : b.held r = xs := Keyspace.items_of_list? hlist
  obtain ⟨tr₁, tr₂, out₁, r₁, rfl, hack, hrest⟩ := run_then h
  rw [hheld, ← List.isSome_find?]
  rcases run_ack hlasting hlist hack with
    ⟨rfl, hlength, ⟨done, rest, rfl, hdone, hfine⟩, hstate⟩ | ⟨⟨e', rfl⟩, -, hnot, hack'⟩
  · rcases hrest with ⟨-, hrest⟩ | ⟨e', he, -⟩
    swap
    · cases he
    have hdrop : (done ++ rest).drop tr₁.length = rest := by
      rw [hlength, ← hdone, List.drop_left]
    have hrest : (server queueOf).run rest (f ()).run r₁ = some (tr₂, .error e, r') :=
      (congrArg (fun os => (server queueOf).run os (f ()).run r₁) hdrop).symm.trans hrest
    rw [← hdone, reaches_append hfine]
    have hlist' := (Keyspace.list?_advance_of_lasting hlasting
      (elapsed (done ++ rest) (ackCommands id xs))).trans hlist
    have hlater : b.Listed r₁ := by
      rw [hstate]
      exact (hlists.advance _).acked hlist'
    obtain ⟨hsame, hpush⟩ := hf rest r₁ r' tr₂ e hlater hrest
    cases hfound : (xs.find? (mentions id)).isSome with
    | true =>
        have hthree : done.length = 2 + 1 := by
          rw [hdone, ackCommands, hfound]
          rfl
        have hreach : reaches (done ++ rest) 2 = true := by
          obtain ⟨o₁, o₂, o₃, hdone'⟩ := List.length_eq_three.mp hthree
          rw [hdone'] at hfine ⊢
          simp [hfine o₁ (by simp), hfine o₂ (by simp), hfine o₃ (by simp)]
        rw [hreach]
        refine iff_of_false ?_ (by simp)
        refine not_sameLists_acked hlists hlist
          (elapsed (done ++ rest) (ackCommands id xs)) hfound ?_
        rw [hsame _ b.isList_processing hne.symm, hstate]
    | false =>
        have hkept : r₁.keys = r.keys := by
          rw [hstate, acked, hfound, if_neg Bool.false_ne_true]
          rfl
        rw [hkept] at hpush hsame
        rw [Bool.false_and, Bool.false_or]
        rcases hpush with ⟨hreach, hchanged⟩ | ⟨hreach, hkeys⟩
        · rw [hreach]
          exact iff_of_false (fun hall => hchanged (hall key hkey)) (by simp)
        · refine iff_of_true (fun key' hkey' => ?_) hreach
          by_cases hname : key' = key
          · rw [hname]
            exact hkeys
          · exact hsame key' hkey' hname
  · rcases hrest with ⟨he, -⟩ | ⟨e, -, rfl, -, rfl⟩
    · cases he
    rw [hnot _ (Nat.le_add_right _ n), Bool.or_false]
    rcases hack' with ⟨hfound, hreach, t, hstate⟩ | ⟨hnone, hkeys⟩
    · rw [hfound, hreach]
      exact iff_of_false (not_sameLists_acked hlists hlist t hfound (by rw [hstate])) (by simp)
    · refine iff_of_true (fun key' _ => ?_) hnone
      rw [hkeys]

theorem run_nack {e : KojinError} (hlists : b.Listed r)
    (h : (server queueOf).run os (b.nack codec m).run r = some (tr, .error e, r')) :
    b.SameLists r r' ↔ b.nackChanges r m os = false :=
  run_ack_then hlists (b.isList_queue m.queue) (b.keys.queue_ne_processing _ _)
    (pushes_enqueue m) h

theorem run_deadLetter {e : KojinError} (hlists : b.Listed r)
    (h : (server queueOf).run os (b.deadLetter codec m).run r = some (tr, .error e, r')) :
    b.SameLists r r' ↔ b.deadLetterChanges r m os = false := by
  obtain ⟨o, rest, rfl, ⟨tail, hfine, rfl, h₁⟩ | ⟨e', rfl, -, hlost, rfl⟩⟩ := run_conn h
  · have hrest := run_ack_then (hlists.advance o.elapsed) (b.isList_dlq m.queue)
      (b.keys.dlq_ne_processing _ _) (pushes_dlq _ _) h₁
    rw [hlists.held_advance, Nat.add_zero] at hrest
    rw [deadLetterChanges, reaches_succ, reaches_succ, hfine]
    exact hrest
  · refine iff_of_true (fun key _ => rfl) ?_
    rw [deadLetterChanges, reaches_of_lost rest hlost (by decide),
      reaches_of_lost rest hlost (Nat.succ_pos _), Bool.and_false, Bool.or_false]

/-! ## Atomic on error -/

/-- When a failed call has left the lists as they were.  For each of the three
calls that settle or hand out an entry, wherever a command or its answer is lost: exactly
when no command that changes a list has reached the server. -/
theorem error_atomic_iff (b : RedisBroker) (codec : RedisCodec σ)
    (queueOf : String → Except CommandError String) (os : List Transit) {r : Keyspace σ}
    (hlists : b.Listed r) :
    (∀ queues timeout tr e r',
      (server queueOf).run os (b.dequeue codec queues timeout).run r = some (tr, .error e, r') →
      (b.SameLists r r' ↔ b.dequeueChanges r queues os = false)) ∧
    (∀ m tr e r', (server queueOf).run os (b.nack codec m).run r = some (tr, .error e, r') →
      (b.SameLists r r' ↔ b.nackChanges r m os = false)) ∧
    (∀ m tr e r', (server queueOf).run os (b.deadLetter codec m).run r = some (tr, .error e, r') →
      (b.SameLists r r' ↔ b.deadLetterChanges r m os = false)) :=
  ⟨fun _ _ _ _ _ h => run_dequeue hlists h, fun _ _ _ _ h => run_nack hlists h,
    fun _ _ _ _ h => run_deadLetter hlists h⟩

/-- A queue with an entry that is not a message, as other producers can push one. -/
def foreignStore : Keyspace Nat :=
  (Keyspace.empty 0).writeList (plainBroker.keys.queue "q") ["oops"]

/-- Nothing else is in the store. -/
theorem keys_foreignStore {key : String} (h : key ≠ plainBroker.keys.queue "q") :
    foreignStore.keys key = none := Keyspace.keys_writeList_ne _ h _

theorem listed_foreignStore : plainBroker.Listed foreignStore where
  lasting key _ := by
    by_cases hname : key = plainBroker.keys.queue "q"
    · rw [hname]
      exact Keyspace.lasting_writeList (Keyspace.lasting_empty 0 _) _
    · intro e he
      rw [keys_foreignStore hname] at he
      cases he
  list key _ := by
    by_cases hname : key = plainBroker.keys.queue "q"
    · rw [hname]
      exact ⟨_, Keyspace.list?_writeList _ _ _⟩
    · exact ⟨[], Keyspace.list?_writeList_ne _ hname _⟩

/-- A codec that reads no message. -/
def blindCodec : RedisCodec Nat := ⟨fun _ => "", fun _ => .error "not a message", Int.toNat⟩

/-- A `dequeue` whose BLMOVE breaks off: the entry is where it was if the command did not
arrive, and in the processing list if it did. -/
theorem error_atomic_broken :
    (∃ tr r', (server fun _ => .ok "q").run [⟨0, none⟩, ⟨0, some (.request "broken pipe")⟩]
        (plainBroker.dequeue blindCodec ["q"] 1).run foreignStore =
          some (tr, .error (.broker "broken pipe"), r') ∧ plainBroker.SameLists foreignStore r') ∧
      ∃ tr r', (server fun _ => .ok "q").run [⟨0, none⟩, ⟨0, some (.answer "broken pipe")⟩]
        (plainBroker.dequeue blindCodec ["q"] 1).run foreignStore =
          some (tr, .error (.broker "broken pipe"), r') ∧ ¬ plainBroker.SameLists foreignStore r' := by
  refine ⟨⟨_, _, rfl, ?_⟩, _, _, rfl, ?_⟩
  · exact ((error_atomic_iff plainBroker blindCodec (fun _ => .ok "q")
      [⟨0, none⟩, ⟨0, some (.request "broken pipe")⟩] listed_foreignStore).1 ["q"] 1 _ _ _ rfl).mpr rfl
  · intro hsame
    have hnot := ((error_atomic_iff plainBroker blindCodec (fun _ => .ok "q")
      [⟨0, none⟩, ⟨0, some (.answer "broken pipe")⟩] listed_foreignStore).1 ["q"] 1 _ _ _ rfl).mp hsame
    cases hnot

/-- A `dequeue` that cannot decode the entry has already taken it. -/
theorem dequeue_error_moves :
    ∃ tr r', (server fun _ => .ok "q").run [⟨0, none⟩, ⟨0, none⟩]
        (plainBroker.dequeue blindCodec ["q"] 1).run foreignStore =
          some (tr, .error (.serialization "not a message"), r') ∧
      foreignStore.items (plainBroker.keys.queue "q") = ["oops"] ∧
      r'.items (plainBroker.keys.queue "q") = [] ∧
      ¬ plainBroker.SameLists foreignStore r' := by
  refine ⟨_, _, rfl, rfl, rfl, ?_⟩
  intro hsame
  have hqueue := hsame _ (plainBroker.isList_queue "q")
  cases hqueue

end RedisBroker

end Kojin.Redis
