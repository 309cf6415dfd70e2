/-
  Amqp/Startup.lean --- brokers that start while others do (`kojin-amqp`: `topology.rs`,
  `broker.rs`).

  Nothing that is declared goes away, so a broker may rely on what it has declared.
  Every name belongs to one key, so what another broker declares cannot be in the way,
  except for the priorities of a queue.
-/
import Kojin.Amqp.Topology

set_option autoImplicit false

namespace Kojin.Amqp

open Kojin.Foundation Kojin.Core
open AmqpBroker (dlqName)

variable {N : Exchanges} {plugin : Bool} {t t' : Topology}

/-! ## Names -/

theorem queueName_inj {n n' : String} : queueName n = queueName n' ↔ n = n' :=
  ⟨fun h => String.append_right_inj _ |>.mp h, fun h => h ▸ rfl⟩

theorem queueName_ne_dlqName (n n' : String) : queueName n ≠ dlqName n' := by
  intro h
  have hchars := congrArg (fun s : String => s.toList[6]?) h
  simp [queueName, dlqName] at hchars

namespace Exchanges

theorem exchange_ne_dlx (N : Exchanges) : N.exchange ≠ N.dlxExchange := by
  have h := N.distinct
  simp only [List.nodup_cons, List.mem_cons, not_or] at h
  exact h.1.1

theorem exchange_ne_delayed (N : Exchanges) : N.exchange ≠ N.delayedExchange := by
  have h := N.distinct
  simp only [List.nodup_cons, List.mem_cons, not_or] at h
  exact h.1.2.1

theorem dlx_ne_delayed (N : Exchanges) : N.dlxExchange ≠ N.delayedExchange := by
  have h := N.distinct
  simp only [List.nodup_cons, List.mem_cons, not_or] at h
  exact h.2.1.1

end Exchanges

namespace Topology

/-! ## What stays -/

/-- Nothing went away. -/
structure Grown (t t' : Topology) : Prop where
  exchanges : ∀ n k, t.exchanges n = some k → t'.exchanges n = some k
  queues : ∀ n a, t.queues n = some a → t'.queues n = some a
  bindings : t.bindings ⊆ t'.bindings
  consumers : t.consumers ⊆ t'.consumers

theorem Grown.refl (t : Topology) : Grown t t :=
  ⟨fun _ _ h => h, fun _ _ h => h, fun _ h => h, fun _ h => h⟩

theorem Grown.trans {t₁ t₂ t₃ : Topology} (h : Grown t₁ t₂) (h' : Grown t₂ t₃) : Grown t₁ t₃ where
  exchanges n k hk := h'.exchanges n k (h.exchanges n k hk)
  queues n a ha := h'.queues n a (h.queues n a ha)
  bindings _ hb := h'.bindings (h.bindings hb)
  consumers _ hq := h'.consumers (h.consumers hq)

theorem update_keeps {α : Type} {f : String → Option α} {n : String} (hn : f n = none) (a : α) :
    ∀ n' a', f n' = some a' → Function.update f n (some a) n' = some a' := by
  intro n' a' h
  rw [Function.update_of_ne, h]
  rintro rfl
  rw [hn] at h
  cases h

/-- The server takes nothing back. -/
theorem grown_perform (plugin : Bool) (t : Topology) (op : SetupOp) :
    Grown t (t.perform plugin op).2 := by
  cases op with
  | connect => exact .refl t
  | createChannel => exact .refl t
  | basicQos n => exact .refl t
  | exchangeDeclare name kind =>
      simp only [perform]
      split
      · exact .refl t
      · split
        · split <;> exact .refl t
        · rename_i hnone
          exact { Grown.refl t with exchanges := update_keeps hnone kind }
  | queueDeclare name args =>
      simp only [perform]
      split
      · split <;> exact .refl t
      · rename_i hnone
        exact { Grown.refl t with queues := update_keeps hnone args }
  | queueBind b =>
      simp only [perform]
      split
      · exact { Grown.refl t with bindings := fun _ => List.mem_insert_of_mem }
      · exact .refl t
  | basicConsume queue =>
      simp only [perform]
      split
      · exact { Grown.refl t with consumers := fun _ hq => List.mem_append.mpr (.inl hq) }
      · exact .refl t

/-- An answer, which may have been lost. -/
theorem respond_cases {o : SetupOracle} {op : SetupOp} {r : Except Refusal Unit}
    (h : (setupServer plugin).respond o t op = some (r, t')) :
    ((∃ reason, r = .error (.lost reason)) ∧ (t' = t ∨ t' = (t.perform plugin op).2)) ∨
      t.perform plugin op = (r, t') := by
  simp only [setupServer] at h
  split at h
  · cases h
    exact .inl ⟨⟨_, rfl⟩, .inl rfl⟩
  · split at h
    · cases h
      exact .inl ⟨⟨_, rfl⟩, .inr rfl⟩
    · exact .inr (Option.some.inj h)

/-! ## What is put in place -/

/-- A queue and its dead letters are reached. -/
structure Placed (N : Exchanges) (t : Topology) (n : String) : Prop where
  queue : ∃ maxPriority, t.queues (queueName n) = some ⟨some (N.dlxExchange, n), maxPriority⟩
  bound : ⟨queueName n, N.exchange, n⟩ ∈ t.bindings
  dlqBound : ⟨dlqName n, N.dlxExchange, n⟩ ∈ t.bindings

theorem Placed.grown {n : String} (h : Placed N t n) (hle : Grown t t') : Placed N t' n := by
  obtain ⟨maxPriority, hqueue⟩ := h.queue
  exact ⟨⟨maxPriority, hle.queues _ _ hqueue⟩, hle.bindings h.bound, hle.bindings h.dlqBound⟩

/-- What may be there: every name has its own use. -/
structure Sound (N : Exchanges) (t : Topology) : Prop where
  exchange : ∀ k, t.exchanges N.exchange = some k → k = .direct
  dlxExchange : ∀ k, t.exchanges N.dlxExchange = some k → k = .direct
  delayedExchange : ∀ k, t.exchanges N.delayedExchange = some k → k = .delayedMessage
  queue : ∀ n a, t.queues (queueName n) = some a → a.deadLetter = some (N.dlxExchange, n)
  dlq : ∀ n a, t.queues (dlqName n) = some a → a = ⟨none, none⟩
  bound : ∀ b ∈ t.bindings, b.exchange = N.exchange ∨ b.exchange = N.delayedExchange →
    b.queue = queueName b.routingKey
  dlqBound : ∀ b ∈ t.bindings, b.exchange = N.dlxExchange → b.queue = dlqName b.routingKey
  consumers : ∀ q ∈ t.consumers, ∃ n, q = queueName n ∧ Placed N t n

/-- The requests that a broker makes, each where what it needs is there. -/
inductive Allowed (N : Exchanges) (t : Topology) : SetupOp → Prop where
  | connect : Allowed N t .connect
  | createChannel : Allowed N t .createChannel
  | basicQos (n : UInt16) : Allowed N t (.basicQos n)
  | exchange : Allowed N t (.exchangeDeclare N.exchange .direct)
  | dlxExchange : Allowed N t (.exchangeDeclare N.dlxExchange .direct)
  | delayedExchange : Allowed N t (.exchangeDeclare N.delayedExchange .delayedMessage)
  | dlq (n : String) : Allowed N t (.queueDeclare (dlqName n) ⟨none, none⟩)
  | queue (n : String) (maxPriority : Option UInt16) :
      Allowed N t (.queueDeclare (queueName n) ⟨some (N.dlxExchange, n), maxPriority⟩)
  | dlqBind {n : String} : (t.exchanges N.dlxExchange).isSome → (t.queues (dlqName n)).isSome →
      Allowed N t (.queueBind ⟨dlqName n, N.dlxExchange, n⟩)
  | queueBind {n : String} : (t.exchanges N.exchange).isSome → (t.queues (queueName n)).isSome →
      Allowed N t (.queueBind ⟨queueName n, N.exchange, n⟩)
  | delayedBind {n : String} : (t.queues (queueName n)).isSome →
      Allowed N t (.queueBind ⟨queueName n, N.delayedExchange, n⟩)
  | consume {n : String} : Placed N t n → Allowed N t (.basicConsume (queueName n))

/-- The consumers of a sound topology have what they need wherever more is declared. -/
theorem Sound.consumers_of_grown (h : Sound N t) (hle : Grown t t') :
    ∀ q ∈ t.consumers, ∃ n, q = queueName n ∧ Placed N t' n := by
  intro q hq
  obtain ⟨n, hn, hplaced⟩ := h.consumers q hq
  exact ⟨n, hn, hplaced.grown hle⟩

/-- What is found after an entry has been added. -/
theorem update_cases {α : Type} {f : String → Option α} {n x : String} {a b : α}
    (h : Function.update f n (some a) x = some b) : x = n ∧ b = a ∨ f x = some b := by
  rw [Function.update_apply] at h
  split at h
  · rename_i hx
    exact .inl ⟨hx, (Option.some.inj h).symm⟩
  · exact .inr h

/-- An exchange is declared. -/
theorem Sound.exchangeDeclare {name : String} {kind : ExchangeKind} (h : Sound N t)
    (hexchange : N.exchange = name → kind = .direct)
    (hdlx : N.dlxExchange = name → kind = .direct)
    (hdelayed : N.delayedExchange = name → kind = .delayedMessage) :
    Sound N (t.perform plugin (.exchangeDeclare name kind)).2 := by
  have hgrown := grown_perform plugin t (.exchangeDeclare name kind)
  simp only [Topology.perform] at hgrown ⊢
  split at hgrown
  · rename_i hplugin
    rw [if_pos hplugin]
    exact h
  · rename_i hplugin
    rw [if_neg hplugin]
    cases hfound : t.exchanges name with
    | some kind' =>
        dsimp only
        split <;> exact h
    | none =>
        rw [hfound] at hgrown
        refine { h with exchange := ?_, dlxExchange := ?_, delayedExchange := ?_,
                        consumers := h.consumers_of_grown hgrown }
        · intro k hk
          rcases update_cases hk with ⟨hx, rfl⟩ | hold
          · exact hexchange hx
          · exact h.exchange k hold
        · intro k hk
          rcases update_cases hk with ⟨hx, rfl⟩ | hold
          · exact hdlx hx
          · exact h.dlxExchange k hold
        · intro k hk
          rcases update_cases hk with ⟨hx, rfl⟩ | hold
          · exact hdelayed hx
          · exact h.delayedExchange k hold

/-- A queue is declared. -/
theorem Sound.queueDeclare {name : String} {args : QueueArgs} (h : Sound N t)
    (hqueue : ∀ n, queueName n = name → args.deadLetter = some (N.dlxExchange, n))
    (hdlq : ∀ n, dlqName n = name → args = ⟨none, none⟩) :
    Sound N (t.perform plugin (.queueDeclare name args)).2 := by
  have hgrown := grown_perform plugin t (.queueDeclare name args)
  simp only [Topology.perform] at hgrown ⊢
  cases hfound : t.queues name with
  | some args' =>
      dsimp only
      split <;> exact h
  | none =>
      rw [hfound] at hgrown
      refine { h with queue := ?_, dlq := ?_, consumers := h.consumers_of_grown hgrown }
      · intro n a ha
        rcases update_cases ha with ⟨hx, rfl⟩ | hold
        · exact hqueue n hx
        · exact h.queue n a hold
      · intro n a ha
        rcases update_cases ha with ⟨hx, rfl⟩ | hold
        · exact hdlq n hx
        · exact h.dlq n a hold

/-- A queue is bound. -/
theorem Sound.queueBind {b : Binding} (h : Sound N t)
    (hbound : b.exchange = N.exchange ∨ b.exchange = N.delayedExchange →
      b.queue = queueName b.routingKey)
    (hdlq : b.exchange = N.dlxExchange → b.queue = dlqName b.routingKey) :
    Sound N (t.perform plugin (.queueBind b)).2 := by
  have hgrown := grown_perform plugin t (.queueBind b)
  simp only [Topology.perform] at hgrown ⊢
  split
  · rename_i hthere
    rw [if_pos hthere] at hgrown
    refine { h with bound := ?_, dlqBound := ?_, consumers := h.consumers_of_grown hgrown }
    · intro b' hb'
      rcases List.mem_insert_iff.mp hb' with rfl | hb'
      · exact hbound
      · exact h.bound b' hb'
    · intro b' hb'
      rcases List.mem_insert_iff.mp hb' with rfl | hb'
      · exact hdlq
      · exact h.dlqBound b' hb'
  · exact h

/-- The requests of a broker keep every name to its use. -/
theorem Sound.perform {op : SetupOp} (h : Sound N t) (hop : Allowed N t op) :
    Sound N (t.perform plugin op).2 := by
  cases hop with
  | connect => exact h
  | createChannel => exact h
  | basicQos n => exact h
  | exchange =>
      exact h.exchangeDeclare (fun _ => rfl) (fun _ => rfl)
        fun heq => absurd heq.symm N.exchange_ne_delayed
  | dlxExchange =>
      exact h.exchangeDeclare (fun _ => rfl) (fun _ => rfl)
        fun heq => absurd heq.symm N.dlx_ne_delayed
  | delayedExchange =>
      exact h.exchangeDeclare (fun heq => absurd heq N.exchange_ne_delayed)
        (fun heq => absurd heq N.dlx_ne_delayed) fun _ => rfl
  | dlq n =>
      exact h.queueDeclare (fun n' heq => absurd heq (queueName_ne_dlqName n' n)) fun _ _ => rfl
  | queue n maxPriority =>
      refine h.queueDeclare (fun n' heq => ?_) fun n' heq =>
        absurd heq.symm (queueName_ne_dlqName n n')
      rw [queueName_inj.mp heq]
  | dlqBind hexchange hqueue =>
      refine h.queueBind (fun heq => ?_) fun _ => rfl
      rcases heq with heq | heq
      · exact absurd heq.symm N.exchange_ne_dlx
      · exact absurd heq N.dlx_ne_delayed
  | queueBind hexchange hqueue =>
      exact h.queueBind (fun _ => rfl) fun heq => absurd heq N.exchange_ne_dlx
  | delayedBind hqueue =>
      exact h.queueBind (fun _ => rfl) fun heq => absurd heq.symm N.dlx_ne_delayed
  | @consume n hplaced =>
      have hgrown := grown_perform plugin t (.basicConsume (queueName n))
      simp only [Topology.perform] at hgrown ⊢
      split
      · rename_i hthere
        rw [if_pos hthere] at hgrown
        refine { h with consumers := fun q hq => ?_ }
        rcases List.mem_append.mp hq with hq | hq
        · exact h.consumers_of_grown hgrown q hq
        · exact ⟨n, List.mem_singleton.mp hq, hplaced.grown hgrown⟩
      · exact h

theorem Allowed.consume_cases {queue : String} (h : Allowed N t (.basicConsume queue)) :
    ∃ n, queue = queueName n ∧ Placed N t n := by
  cases h with
  | consume hplaced => exact ⟨_, rfl, hplaced⟩

/-- A refusal that a broker has to expect: another one, or an earlier one, gave the queue
another priority, or the delayed exchange is not there. -/
def Expected (N : Exchanges) (plugin : Bool) (t : Topology) (op : SetupOp) (e : Refusal) : Prop :=
  (∃ n maxPriority maxPriority', op = .queueDeclare (queueName n) ⟨some (N.dlxExchange, n), maxPriority⟩ ∧
      t.queues (queueName n) = some ⟨some (N.dlxExchange, n), maxPriority'⟩ ∧
      maxPriority' ≠ maxPriority ∧ e = .preconditionFailed) ∨
    (op = .exchangeDeclare N.delayedExchange .delayedMessage ∧ plugin = false ∧
      e = .commandInvalid) ∨
    ∃ n, op = .queueBind ⟨queueName n, N.delayedExchange, n⟩ ∧
      t.exchanges N.delayedExchange = none ∧ e = .notFound

/-- An exchange that is declared again. -/
theorem exchangeDeclare_ok {name : String} {kind : ExchangeKind}
    (hkind : ∀ k, t.exchanges name = some k → k = kind) {r : Except Refusal Unit}
    (h : t.perform plugin (.exchangeDeclare name kind) = (r, t')) :
    r = .ok () ∨ kind = .delayedMessage ∧ plugin = false ∧ r = .error .commandInvalid := by
  simp only [Topology.perform] at h
  split at h
  · rename_i hplugin
    cases h
    exact .inr ⟨hplugin.1, hplugin.2, rfl⟩
  · cases hfound : t.exchanges name with
    | some kind' =>
        rw [hfound] at h
        dsimp only at h
        rw [if_pos (hkind kind' hfound)] at h
        cases h
        exact .inl rfl
    | none =>
        rw [hfound] at h
        cases h
        exact .inl rfl

/-- A binding of a queue that is there. -/
theorem queueBind_ok {b : Binding} (hqueue : (t.queues b.queue).isSome) {e : Refusal}
    (h : t.perform plugin (.queueBind b) = (.error e, t')) :
    t.exchanges b.exchange = none ∧ e = .notFound := by
  simp only [Topology.perform] at h
  split at h
  · cases h
  · rename_i hmissing
    cases h
    refine ⟨?_, rfl⟩
    by_contra hexchange
    exact hmissing ⟨Option.isSome_iff_ne_none.mpr hexchange, hqueue⟩

/-- Why the server refuses a request. -/
theorem expected_of_refused {op : SetupOp} {e : Refusal} (h : Sound N t) (hop : Allowed N t op)
    (hrefused : t.perform plugin op = (.error e, t')) : Expected N plugin t op e := by
  cases hop with
  | connect => cases hrefused
  | createChannel => cases hrefused
  | basicQos n => cases hrefused
  | exchange =>
      rcases exchangeDeclare_ok h.exchange hrefused with hok | ⟨hkind, -⟩
      · cases hok
      · cases hkind
  | dlxExchange =>
      rcases exchangeDeclare_ok h.dlxExchange hrefused with hok | ⟨hkind, -⟩
      · cases hok
      · cases hkind
  | delayedExchange =>
      rcases exchangeDeclare_ok h.delayedExchange hrefused with hok | ⟨-, hplugin, he⟩
      · cases hok
      · exact .inr (.inl ⟨rfl, hplugin, Except.error.inj he⟩)
  | dlq n =>
      simp only [Topology.perform] at hrefused
      cases hfound : t.queues (dlqName n) with
      | none =>
          rw [hfound] at hrefused
          cases hrefused
      | some args =>
          rw [hfound] at hrefused
          dsimp only at hrefused
          rw [if_pos (h.dlq n args hfound)] at hrefused
          cases hrefused
  | queue n maxPriority =>
      simp only [Topology.perform] at hrefused
      cases hfound : t.queues (queueName n) with
      | none =>
          rw [hfound] at hrefused
          cases hrefused
      | some args =>
          rw [hfound] at hrefused
          dsimp only at hrefused
          split at hrefused
          · cases hrefused
          · rename_i hne
            cases hrefused
            obtain ⟨deadLetter, maxPriority'⟩ := args
            obtain rfl : deadLetter = _ := h.queue n _ hfound
            refine .inl ⟨n, maxPriority, maxPriority', rfl, hfound, fun heq => ?_, rfl⟩
            exact hne (by rw [heq])
  | dlqBind hexchange hqueue =>
      obtain ⟨hmissing, -⟩ := queueBind_ok hqueue hrefused
      dsimp only at hmissing
      rw [hmissing] at hexchange
      cases hexchange
  | queueBind hexchange hqueue =>
      obtain ⟨hmissing, -⟩ := queueBind_ok hqueue hrefused
      dsimp only at hmissing
      rw [hmissing] at hexchange
      cases hexchange
  | @delayedBind n hqueue =>
      obtain ⟨hmissing, rfl⟩ := queueBind_ok hqueue hrefused
      exact .inr (.inr ⟨n, rfl, hmissing, rfl⟩)
  | consume hplaced =>
      obtain ⟨maxPriority, hqueue⟩ := hplaced.queue
      simp only [Topology.perform, hqueue] at hrefused
      cases hrefused

/-! ## Where texts go -/

/-- The one element that a filter leaves. -/
theorem filter_eq_singleton {α : Type} {l : List α} {p : α → Bool} {x : α} (hl : l.Nodup)
    (hx : x ∈ l) (hpx : p x = true) (hp : ∀ y ∈ l, p y = true → y = x) : l.filter p = [x] := by
  refine List.perm_singleton.mp ((List.perm_ext_iff_of_nodup (hl.filter p)
    (List.nodup_singleton x)).mpr fun y => ?_)
  rw [List.mem_filter, List.mem_singleton]
  constructor
  · rintro ⟨hy, hpy⟩
    exact hp y hy hpy
  · rintro rfl
    exact ⟨hx, hpx⟩

/-- An exchange all of whose bindings under a key are of one queue. -/
theorem route_eq {exchange routingKey queue : String}
    (hbound : ∀ b ∈ t.bindings, b.exchange = exchange → b.routingKey = routingKey → b.queue = queue) :
    t.route exchange routingKey =
      if (⟨queue, exchange, routingKey⟩ : Binding) ∈ t.bindings then [queue] else [] := by
  have honly : ∀ b ∈ t.bindings, b.exchange = exchange ∧ b.routingKey = routingKey →
      b = ⟨queue, exchange, routingKey⟩ := by
    rintro ⟨queue', exchange', routingKey'⟩ hb ⟨rfl, rfl⟩
    obtain rfl : queue' = queue := hbound _ hb rfl rfl
    rfl
  unfold route
  split
  · rename_i hmem
    rw [filter_eq_singleton t.nodup hmem (by simp) fun b hb hpb =>
      honly b hb (of_decide_eq_true hpb)]
    rfl
  · rename_i hmem
    rw [List.map_eq_nil_iff, List.filter_eq_nil_iff]
    intro b hb hpb
    exact hmem (honly b hb (of_decide_eq_true hpb) ▸ hb)

/-- The direct exchange reaches the queue of the key, or nothing. -/
theorem Sound.route_exchange (h : Sound N t) (n : String) :
    t.route N.exchange n =
      if (⟨queueName n, N.exchange, n⟩ : Binding) ∈ t.bindings then [queueName n] else [] :=
  route_eq fun b hb hexchange hkey => by rw [h.bound b hb (.inl hexchange), hkey]

/-- The delayed exchange reaches the queue of the key, or nothing. -/
theorem Sound.route_delayed (h : Sound N t) (n : String) :
    t.route N.delayedExchange n =
      if (⟨queueName n, N.delayedExchange, n⟩ : Binding) ∈ t.bindings then [queueName n] else [] :=
  route_eq fun b hb hexchange hkey => by rw [h.bound b hb (.inr hexchange), hkey]

/-- The dead-letter exchange reaches the dead-letter queue of the key, or nothing. -/
theorem Sound.route_dlx (h : Sound N t) (n : String) :
    t.route N.dlxExchange n =
      if (⟨dlqName n, N.dlxExchange, n⟩ : Binding) ∈ t.bindings then [dlqName n] else [] :=
  route_eq fun b hb hexchange hkey => by rw [h.dlqBound b hb hexchange, hkey]

/-- Texts of a queue that is in place arrive there, and its dead letters where they belong. -/
theorem Placed.routes {n : String} (hsound : Sound N t) (h : Placed N t n) :
    t.route N.exchange n = [queueName n] ∧ t.deadLetters (queueName n) = [dlqName n] := by
  obtain ⟨maxPriority, hqueue⟩ := h.queue
  refine ⟨by rw [hsound.route_exchange, if_pos h.bound], ?_⟩
  simp only [deadLetters, hqueue, Option.bind_some]
  rw [hsound.route_dlx, if_pos h.dlqBound]

/-! ## A broker relies on what it declared -/

/-- The direct exchanges are declared. -/
structure Ready (N : Exchanges) (t : Topology) : Prop where
  exchange : (t.exchanges N.exchange).isSome
  dlxExchange : (t.exchanges N.dlxExchange).isSome

theorem isSome_exchange_grown {name : String} (hle : Grown t t')
    (h : (t.exchanges name).isSome) : (t'.exchanges name).isSome := by
  obtain ⟨kind, hkind⟩ := Option.isSome_iff_exists.mp h
  rw [hle.exchanges name kind hkind]
  rfl

theorem isSome_queue_grown {name : String} (hle : Grown t t') (h : (t.queues name).isSome) :
    (t'.queues name).isSome := by
  obtain ⟨args, hargs⟩ := Option.isSome_iff_exists.mp h
  rw [hle.queues name args hargs]
  rfl

theorem Ready.grown (h : Ready N t) (hle : Grown t t') : Ready N t' :=
  ⟨isSome_exchange_grown hle h.exchange, isSome_exchange_grown hle h.dlxExchange⟩

theorem grown_respond {o : SetupOracle} {op : SetupOp} {r : Except Refusal Unit}
    (h : (setupServer plugin).respond o t op = some (r, t')) : Grown t t' := by
  rcases respond_cases h with ⟨-, rfl | rfl⟩ | hperform
  · exact .refl t'
  · exact grown_perform plugin t op
  · have hgrown := grown_perform plugin t op
    rw [hperform] at hgrown
    exact hgrown

theorem exchange_of_declared {name : String} {kind : ExchangeKind}
    (h : t.perform plugin (.exchangeDeclare name kind) = (.ok (), t')) :
    (t'.exchanges name).isSome := by
  simp only [Topology.perform] at h
  split at h
  · cases h
  · cases hfound : t.exchanges name with
    | some kind' =>
        rw [hfound] at h
        dsimp only at h
        split at h <;> cases h
        rw [hfound]
        rfl
    | none =>
        rw [hfound] at h
        cases h
        show (Function.update t.exchanges name (some kind) name).isSome
        rw [Function.update_self]
        rfl

theorem queue_of_declared {name : String} {args : QueueArgs}
    (h : t.perform plugin (.queueDeclare name args) = (.ok (), t')) :
    t'.queues name = some args := by
  simp only [Topology.perform] at h
  cases hfound : t.queues name with
  | some args' =>
      rw [hfound] at h
      dsimp only at h
      split at h
      · rename_i heq
        cases h
        rw [hfound, heq]
      · cases h
  | none =>
      rw [hfound] at h
      cases h
      exact Function.update_self ..

theorem binding_of_bound {b : Binding} (h : t.perform plugin (.queueBind b) = (.ok (), t')) :
    b ∈ t'.bindings := by
  simp only [Topology.perform] at h
  split at h
  · cases h
    exact List.mem_insert_self
  · cases h

end Topology

open Kojin.Amqp.Topology

/-- The requests of a program are allowed where they are made, and `Q` holds if it
returns. -/
def Setup.Safe {α : Type} (N : Exchanges) (plugin : Bool) (p : Setup α) (Q : α → Topology → Prop)
    (t : Topology) : Prop :=
  Prog.Guarded (setupServer plugin) Grown (Allowed N) (fun r t' => ∀ a, r = .ok a → Q a t') p.run t

section Safe

variable {α β : Type} {Q : α → Topology → Prop} {R : β → Topology → Prop}

theorem Setup.Safe.bind {p : Setup α} {f : α → Setup β} (h : p.Safe N plugin Q t)
    (hf : ∀ a t', Q a t' → (f a).Safe N plugin R t') : (p >>= f).Safe N plugin R t := by
  refine Prog.Guarded.bind h fun r t' hr => ?_
  cases r with
  | ok a => exact hf a t' (hr a rfl)
  | error e =>
      intro b hb
      cases hb

theorem Setup.Safe.weaken {R : α → Topology → Prop} {p : Setup α} (h : p.Safe N plugin Q t)
    (hQ : ∀ a t', Q a t' → R a t') : p.Safe N plugin R t :=
  Prog.Guarded.weaken (fun _ t' hr a ha => hQ a t' (hr a ha)) h

/-- What is there stays there. -/
theorem Setup.Safe.frame {F : Topology → Prop} (hF : ∀ t₁ t₂, Grown t₁ t₂ → F t₁ → F t₂)
    {p : Setup α} (h : p.Safe N plugin Q t) (ht : F t) :
    p.Safe N plugin (fun a t' => Q a t' ∧ F t') t := by
  have hframe := Prog.Guarded.frame hF (fun _ _ _ _ _ hr => grown_respond hr) h ht
  exact hframe.weaken fun r t' hr a ha => ⟨hr.1 a ha, hr.2⟩

/-- A request, and what follows from its success. -/
theorem safe_request {op : SetupOp} {Q : Topology → Prop}
    (hallowed : ∀ t₁, Grown t t₁ → Allowed N t₁ op)
    (hQ : ∀ t₁ t₂, Grown t t₁ → t₁.perform plugin op = (.ok (), t₂) → Q t₂) :
    (request op).Safe N plugin (fun _ => Q) t := by
  intro t₁ hle
  refine ⟨hallowed t₁ hle, fun o r t₂ hr a ha => ?_⟩
  rcases respond_cases hr with ⟨⟨reason, rfl⟩, -⟩ | hperform
  · cases ha
  · cases r with
    | ok u => exact hQ t₁ t₂ hle hperform
    | error e => cases ha

/-- A request whose failure is ignored. -/
theorem safe_ignored {op : SetupOp} (hallowed : ∀ t₁, Grown t t₁ → Allowed N t₁ op) :
    (ignored op).Safe N plugin (fun _ _ => True) t :=
  fun t₁ hle => ⟨hallowed t₁ hle, fun _ _ _ _ _ _ => trivial⟩

end Safe

namespace Exchanges

variable {x : Startup}

theorem safe_probe (N : Exchanges) (x : Startup) (t : Topology) :
    (N.config x).probe.Safe N plugin (fun _ _ => True) t := by
  intro t₁ _
  refine ⟨.connect, fun o r t₂ _ => ?_⟩
  cases r with
  | error e => exact fun _ _ => trivial
  | ok u =>
      intro t₃ _
      refine ⟨.createChannel, fun o r t₄ _ => ?_⟩
      cases r with
      | error e => exact fun _ _ => trivial
      | ok u => exact safe_ignored fun _ _ => .delayedExchange

/-- A queue and its dead letters are put in place. -/
theorem safe_declareQueuePair (N : Exchanges) (x : Startup) (hready : Ready N t) (n : String) :
    ((N.config x).declareQueuePair n).Safe N plugin (fun _ t' => Placed N t' n) t := by
  refine ((safe_request (Q := fun t' => (t'.queues (dlqName n)).isSome) (fun _ _ => .dlq n)
    fun t₁ t₂ _ h => ?_).frame (fun _ _ hle h => Ready.grown h hle) hready).bind ?_
  · rw [queue_of_declared h]
    rfl
  rintro - t₁ ⟨hdlq, hready⟩
  refine ((safe_request (Q := fun t' => (⟨dlqName n, N.dlxExchange, n⟩ : Binding) ∈ t'.bindings)
    (fun t₂ hle => .dlqBind (hready.grown hle).dlxExchange (isSome_queue_grown hle hdlq))
    fun t₂ t₃ _ h => binding_of_bound h).frame (fun _ _ hle h => Ready.grown h hle) hready).bind ?_
  rintro - t₂ ⟨hdlqBound, hready⟩
  let args := (N.config x).queueArgs n
  refine ((safe_request (Q := fun t' => t'.queues (queueName n) = some args)
    (fun _ _ => .queue n args.maxPriority) fun t₃ t₄ _ h => queue_of_declared h).frame
    (F := fun t' => Ready N t' ∧ (⟨dlqName n, N.dlxExchange, n⟩ : Binding) ∈ t'.bindings)
    (fun _ _ hle h => ⟨h.1.grown hle, hle.bindings h.2⟩) ⟨hready, hdlqBound⟩).bind ?_
  rintro - t₃ ⟨hqueue, hready, hdlqBound⟩
  have hthere : ∀ t₄, Grown t₃ t₄ → (t₄.queues (queueName n)).isSome := fun t₄ hle => by
    rw [hle.queues _ _ hqueue]
    rfl
  refine ((safe_request (Q := fun t' => (⟨queueName n, N.exchange, n⟩ : Binding) ∈ t'.bindings)
    (fun t₄ hle => .queueBind (hready.grown hle).exchange (hthere t₄ hle))
    fun t₄ t₅ _ h => binding_of_bound h).frame
    (F := fun t' => t'.queues (queueName n) = some args ∧
      (⟨dlqName n, N.dlxExchange, n⟩ : Binding) ∈ t'.bindings)
    (fun _ _ hle h => ⟨hle.queues _ _ h.1, hle.bindings h.2⟩) ⟨hqueue, hdlqBound⟩).bind ?_
  rintro - t₄ ⟨hbound, hqueue, hdlqBound⟩
  have hplaced : Placed N t₄ n := ⟨⟨args.maxPriority, hqueue⟩, hbound, hdlqBound⟩
  -- the rest is on a channel of its own
  refine ((safe_request (Q := fun _ => True) (fun _ _ => .createChannel)
    fun _ _ _ _ => trivial).frame (fun _ _ hle h => Placed.grown h hle) hplaced).bind ?_
  rintro - t₅ ⟨-, hplaced⟩
  refine ((safe_ignored fun t₆ hle => .delayedBind ?_).frame
    (fun _ _ hle h => Placed.grown h hle) hplaced).weaken fun _ _ h => h.2
  obtain ⟨maxPriority, hqueue⟩ := (hplaced.grown hle).queue
  rw [hqueue]
  rfl

theorem safe_declareQueuePairs (N : Exchanges) (x : Startup) {queues : List String} :
    ∀ {t : Topology}, Ready N t → ((N.config x).declareQueuePairs queues).Safe N plugin
      (fun _ t' => ∀ n ∈ queues, Placed N t' n) t := by
  induction queues with
  | nil => exact fun _ _ _ n hn => (List.not_mem_nil hn).elim
  | cons name names ih =>
      intro t hready
      refine ((N.safe_declareQueuePair x hready name).frame
        (fun _ _ hle h => Ready.grown h hle) hready).bind ?_
      rintro - t₁ ⟨hplaced, hready⟩
      refine ((ih hready).frame (fun _ _ hle h => Placed.grown h hle) hplaced).weaken ?_
      rintro - t₂ ⟨hplaceds, hplaced⟩ n hn
      rcases List.mem_cons.mp hn with rfl | hn
      · exact hplaced
      · exact hplaceds n hn

/-- `declare_topology` puts its queues in place. -/
theorem safe_declareTopology (N : Exchanges) (x : Startup) (t : Topology) (queues : List String) :
    ((N.config x).declareTopology queues).Safe N plugin
      (fun _ t' => ∀ n ∈ queues, Placed N t' n) t := by
  refine (safe_request (Q := fun t' => (t'.exchanges N.exchange).isSome) (fun _ _ => .exchange)
    fun t₁ t₂ _ h => exchange_of_declared h).bind fun _ t₁ hexchange => ?_
  refine ((safe_request (Q := fun t' => (t'.exchanges N.dlxExchange).isSome)
    (fun _ _ => .dlxExchange) fun t₁ t₂ _ h => exchange_of_declared h).frame
    (fun _ _ hle h => isSome_exchange_grown hle h) hexchange).bind ?_
  rintro - t₂ ⟨hdlx, hexchange⟩
  refine ((N.safe_probe x t₂).frame (fun _ _ hle h => Ready.grown h hle) ⟨hexchange, hdlx⟩).bind ?_
  rintro - t₃ ⟨-, hready⟩
  exact N.safe_declareQueuePairs x hready

/-- A consumer of a queue that is in place. -/
theorem safe_ensureConsumer (N : Exchanges) (x : Startup) (consuming : List String) {n : String}
    (h : Placed N t n) :
    ((N.config x).ensureConsumer consuming n).Safe N plugin (fun _ _ => True) t := by
  unfold AmqpConfig.ensureConsumer
  split
  · exact fun _ _ => trivial
  refine ((safe_request (Q := fun _ => True) (fun _ _ => .createChannel)
    fun _ _ _ _ => trivial).frame (fun _ _ hle h => Placed.grown h hle) h).bind ?_
  rintro - t₁ ⟨-, h⟩
  refine ((safe_request (Q := fun _ => True) (fun _ _ => .basicQos _)
    fun _ _ _ _ => trivial).frame (fun _ _ hle h => Placed.grown h hle) h).bind ?_
  rintro - t₂ ⟨-, h⟩
  exact (safe_request (Q := fun _ => True) (fun t₃ hle => .consume (h.grown hle))
    fun _ _ _ _ => trivial).bind fun _ _ _ _ _ => trivial

theorem safe_ensureConsumers (N : Exchanges) (x : Startup) {queues : List String} :
    ∀ {consuming : List String} {t : Topology}, (∀ n ∈ queues, Placed N t n) →
      ((N.config x).ensureConsumers consuming queues).Safe N plugin (fun _ _ => True) t := by
  induction queues with
  | nil => exact fun _ _ _ => trivial
  | cons queue queues ih =>
      intro consuming t h
      refine ((N.safe_ensureConsumer x consuming (h queue List.mem_cons_self)).frame
        (F := fun t' => ∀ n ∈ queues, Placed N t' n)
        (fun _ _ hle h n hn => (h n hn).grown hle) fun n hn =>
          h n (List.mem_cons_of_mem _ hn)).bind ?_
      rintro consuming t₁ ⟨-, h⟩
      exact ih h

/-- `AmqpBroker::new`. -/
theorem safe_new (N : Exchanges) (x : Startup) (t : Topology) :
    ((N.config x).new x.queues).Safe N plugin (fun _ _ => True) t := by
  refine (safe_request (Q := fun _ => True) (fun _ _ => .connect)
    fun _ _ _ _ => trivial).bind fun _ t₁ _ => ?_
  refine (safe_request (Q := fun _ => True) (fun _ _ => .createChannel)
    fun _ _ _ _ => trivial).bind fun _ t₂ _ => ?_
  refine (safe_request (Q := fun _ => True) (fun _ _ => .createChannel)
    fun _ _ _ _ => trivial).bind fun _ t₃ _ => ?_
  refine (N.safe_declareTopology x t₃ x.queues).bind fun _ t₄ hplaced => ?_
  split
  · exact fun _ h => by cases h
  · exact N.safe_ensureConsumers x hplaced

end Exchanges

/-! ## Every run -/

theorem sound_empty (N : Exchanges) : Sound N .empty where
  exchange _ h := by cases h
  dlxExchange _ h := by cases h
  delayedExchange _ h := by cases h
  queue _ _ h := by cases h
  dlq _ _ h := by cases h
  bound _ h := (List.not_mem_nil h).elim
  dlqBound _ h := (List.not_mem_nil h).elim
  consumers _ h := (List.not_mem_nil h).elim

theorem growing {t₀ : Topology} (h₀ : Sound N t₀) {tr : List (setupMachine N plugin).Label}
    {c : (setupMachine N plugin).Config} (h : (setupMachine N plugin).Reach ⟨t₀, []⟩ tr c) :
    Sound N c.state ∧ Grown t₀ c.state ∧ ∀ p ∈ c.threads,
      p.Guarded (setupServer plugin) Grown (Allowed N) (fun _ _ => True) c.state := by
  have hall := Machine.Reach.growing (M := setupMachine N plugin) (G := Allowed N) (J := Sound N)
    (show ∀ t, Grown t t from Grown.refl) (fun _ _ _ => Grown.trans) ?_ ?_
    (fun p hp => (List.not_mem_nil hp).elim) h₀ h
  · exact hall
  · intro o t op r t' hsound hop hr
    refine ⟨?_, grown_respond hr⟩
    rcases respond_cases hr with ⟨-, rfl | rfl⟩ | hperform
    · exact hsound
    · exact hsound.perform hop
    · have hkept : Sound N (t.perform plugin op).2 := hsound.perform hop
      rw [hperform] at hkept
      exact hkept
  · intro x t t' new hsound haccept
    cases haccept
    refine ⟨hsound, .refl t, fun p hp => ?_⟩
    rw [List.mem_singleton.mp hp]
    exact Prog.Guarded.bind (N.safe_new x t) fun _ _ _ => trivial

/-- Brokers start in any number and in every order, with any requests or answers lost.
Nothing that was declared goes away; nobody consumes from a queue, or is about to, before
the direct exchange sends its texts there and nowhere else and its dead letters go to its
dead-letter queue and nowhere else; no exchange reaches any other queue; and the server
refuses a request only for other priorities or for want of the delayed exchange. -/
theorem startup {t₀ : Topology} (h₀ : Sound N t₀) {tr : List (setupMachine N plugin).Label}
    {c : (setupMachine N plugin).Config} (h : (setupMachine N plugin).Reach ⟨t₀, []⟩ tr c) :
    Grown t₀ c.state ∧
    (∀ queue, (queue ∈ Topology.consumers c.state ∨
        ∃ k, .call (.basicConsume queue) k ∈ c.threads) →
      ∃ n, queue = queueName n ∧ Topology.route c.state N.exchange n = [queueName n] ∧
        Topology.deadLetters c.state (queueName n) = [dlqName n]) ∧
    (∀ n, Topology.route c.state N.exchange n ⊆ [queueName n] ∧
      Topology.route c.state N.delayedExchange n ⊆ [queueName n] ∧
      Topology.route c.state N.dlxExchange n ⊆ [dlqName n]) ∧
    ∀ op k, .call op k ∈ c.threads → ∀ e t',
      Topology.perform plugin c.state op = (.error e, t') → Expected N plugin c.state op e := by
  obtain ⟨hsound, hgrown, hguarded⟩ := growing h₀ h
  have hallowed : ∀ op k, .call op k ∈ c.threads → Allowed N c.state op :=
    fun op k hmem => (hguarded _ hmem c.state (.refl c.state)).1
  refine ⟨hgrown, fun queue hqueue => ?_, fun n => ?_, fun op k hmem e t' hrefused =>
    expected_of_refused hsound (hallowed op k hmem) hrefused⟩
  · obtain ⟨n, rfl, hplaced⟩ : ∃ n, queue = queueName n ∧ Placed N c.state n := by
      rcases hqueue with hqueue | ⟨k, hmem⟩
      · exact hsound.consumers queue hqueue
      · obtain ⟨n, rfl, hplaced⟩ := (hallowed _ k hmem).consume_cases
        exact ⟨n, rfl, hplaced⟩
    exact ⟨n, rfl, hplaced.routes hsound⟩
  · rw [hsound.route_exchange, hsound.route_delayed, hsound.route_dlx]
    refine ⟨?_, ?_, ?_⟩ <;> split <;> simp

/-! ## What the model of the broker takes for granted -/

/-- The broker that publishes to the names whose queues are bound. -/
def Topology.broker (N : Exchanges) (t : Topology) : AmqpBroker where
  exchange := N.exchange
  delayedExchange := N.delayedExchange
  queues := (t.bindings.filter fun b => b.exchange = N.exchange).map Binding.routingKey

/-- A text in the queue of a name, and one in its dead-letter queue. -/
def inQueue (e : String × String) : String × String := (queueName e.1, e.2)

def inDlq (e : String × String) : String × String := (dlqName e.1, e.2)

/-- A text at the queues it is sent to. -/
def sentTo (queues : List String) (body : String) : List (String × String) :=
  queues.map fun queue => (queue, body)

theorem Topology.Sound.mem_broker_queues (h : Sound N t) {n : String} :
    n ∈ (t.broker N).queues ↔ (⟨queueName n, N.exchange, n⟩ : Binding) ∈ t.bindings := by
  constructor
  · intro hn
    obtain ⟨b, hb, rfl⟩ := List.mem_map.mp hn
    obtain ⟨hb, hexchange⟩ := List.mem_filter.mp hb
    have hexchange' : b.exchange = N.exchange := of_decide_eq_true hexchange
    rw [← h.bound b hb (.inl hexchange'), ← hexchange']
    exact hb
  · intro hb
    exact List.mem_map.mpr ⟨_, List.mem_filter.mpr ⟨hb, by simp⟩, rfl⟩

/-- The abstract server does what the bindings do.  After any run of brokers that
start: a text that is published to the direct exchange, or to the delayed one where it is
bound for every queue, becomes ready or delayed for exactly the queues that the bindings
name, and a text rejected from a queue that is consumed becomes a dead letter in exactly the
queues that its arguments and the bindings name. -/
theorem bindings_refine {t₀ : Topology} (h₀ : Sound N t₀)
    {tr : List (setupMachine N plugin).Label} {c : (setupMachine N plugin).Config}
    (h : (setupMachine N plugin).Reach ⟨t₀, []⟩ tr c) (s : AmqpState) :
    (∀ r : PublishRequest, r.exchange = N.exchange →
      (s.publish (Topology.broker N c.state) r).ready.map inQueue =
        s.ready.map inQueue ++
          sentTo (Topology.route c.state r.exchange r.routingKey) r.body) ∧
    (∀ r : PublishRequest, r.exchange = N.delayedExchange →
      (∀ n, (⟨queueName n, N.delayedExchange, n⟩ : Binding) ∈ Topology.bindings c.state ↔
        (⟨queueName n, N.exchange, n⟩ : Binding) ∈ Topology.bindings c.state) →
      (s.publish (Topology.broker N c.state) r).delayed.map inQueue =
        s.delayed.map inQueue ++
          sentTo (Topology.route c.state r.exchange r.routingKey) r.body) ∧
    ∀ d body, s.unacked.find? (AmqpState.isAt d) = some (d, body) →
      queueName d.1 ∈ Topology.consumers c.state →
      (s.reject d false).dlq.map inDlq =
        s.dlq.map inDlq ++ sentTo (Topology.deadLetters c.state (queueName d.1)) body := by
  obtain ⟨hsound, -, -⟩ := growing h₀ h
  refine ⟨fun r hexchange => ?_, fun r hexchange hdelayed => ?_, fun d body hfound hconsumed => ?_⟩
  · have hne : r.exchange ≠ (Topology.broker N c.state).delayedExchange := by
      rw [hexchange]
      exact N.exchange_ne_delayed
    have hsame : r.exchange = (Topology.broker N c.state).exchange := hexchange
    rw [hexchange, hsound.route_exchange]
    by_cases hbound : (⟨queueName r.routingKey, N.exchange, r.routingKey⟩ : Binding) ∈
        Topology.bindings c.state
    · rw [if_pos hbound, AmqpState.publish, if_pos (hsound.mem_broker_queues.mpr hbound),
        if_neg hne, if_pos hsame, List.map_append]
      rfl
    · rw [if_neg hbound, AmqpState.publish,
        if_neg fun hmem => hbound (hsound.mem_broker_queues.mp hmem)]
      exact (List.append_nil _).symm
  · have hsame : r.exchange = (Topology.broker N c.state).delayedExchange := hexchange
    rw [hexchange, hsound.route_delayed]
    by_cases hbound : (⟨queueName r.routingKey, N.delayedExchange, r.routingKey⟩ : Binding) ∈
        Topology.bindings c.state
    · have hqueue := hsound.mem_broker_queues.mpr ((hdelayed r.routingKey).mp hbound)
      rw [if_pos hbound, AmqpState.publish, if_pos hqueue, if_pos hsame, List.map_append]
      rfl
    · have hqueue : r.routingKey ∉ (Topology.broker N c.state).queues := fun hmem =>
        hbound ((hdelayed r.routingKey).mpr (hsound.mem_broker_queues.mp hmem))
      rw [if_neg hbound, AmqpState.publish, if_neg hqueue]
      exact (List.append_nil _).symm
  · obtain ⟨n, hn, hplaced⟩ := hsound.consumers _ hconsumed
    obtain rfl : d.1 = n := queueName_inj.mp hn
    rw [(hplaced.routes hsound).2, AmqpState.reject, hfound]
    dsimp only
    rw [if_neg Bool.false_ne_true, List.map_append]
    rfl

/-! ## Two brokers start -/

/-- The default names. -/
def defaults : Exchanges := ⟨"kojin.direct", "kojin.dlx", "kojin.delayed", by decide⟩

/-- Nothing is lost. -/
def arrives : SetupOracle := ⟨none, none⟩

/-- Two brokers of one queue that disagree about its priorities, in turns; the second is
refused. -/
def twoBrokers : List (setupMachine defaults true).Move :=
  [.env ⟨10, 0, ["q"]⟩, .env ⟨10, 5, ["q"]⟩] ++
    (List.replicate 11 [.run 0 arrives, .run 1 arrives]).flatten ++
    List.replicate 6 (.run 0 arrives)

theorem twoBrokers_play : (Machine.Config.playAll (M := setupMachine defaults true)
    ⟨.empty, []⟩ twoBrokers).isSome = true := by
  decide +kernel

theorem startup_two : ∃ c : (setupMachine defaults true).Config,
    Topology.consumers c.state = ["kojin.queue.q"] ∧
    (∃ n, "kojin.queue.q" = queueName n ∧
      Topology.route c.state "kojin.direct" n = [queueName n] ∧
      Topology.deadLetters c.state (queueName n) = [dlqName n]) ∧
    Topology.route c.state "kojin.delayed" "q" = ["kojin.queue.q"] := by
  obtain ⟨-, hconsumers, -⟩ := startup (sound_empty defaults)
    (Machine.Config.reach_of_get twoBrokers_play)
  have hone : Topology.consumers ((Machine.Config.playAll (M := setupMachine defaults true)
      ⟨.empty, []⟩ twoBrokers).get twoBrokers_play).2.state = ["kojin.queue.q"] := by
    decide +kernel
  refine ⟨_, hone, hconsumers "kojin.queue.q" (.inl ?_), by decide +kernel⟩
  rw [hone]
  exact List.mem_cons_self

/-- A text for the queue, and one that is rejected. -/
def oneUnacked : AmqpState :=
  AmqpState.empty.deliver 0 "q" "text"

theorem bindings_refine_two : ∃ c : (setupMachine defaults true).Config,
    (AmqpState.publish (Topology.broker defaults c.state) oneUnacked
        ⟨"kojin.direct", "q", "body", none, none⟩).ready.map inQueue = [("kojin.queue.q", "body")] ∧
    (oneUnacked.reject ("q", 1) false).dlq.map inDlq = [("kojin.dlq.q", "text")] := by
  obtain ⟨hdirect, -, hdead⟩ := bindings_refine (sound_empty defaults)
    (Machine.Config.reach_of_get twoBrokers_play) oneUnacked
  refine ⟨((Machine.Config.playAll (M := setupMachine defaults true)
    ⟨.empty, []⟩ twoBrokers).get twoBrokers_play).2, ?_, ?_⟩
  · rw [hdirect ⟨"kojin.direct", "q", "body", none, none⟩ rfl]
    decide +kernel
  · rw [hdead ("q", 1) "text" (by decide +kernel) (by decide +kernel)]
    decide +kernel

end Kojin.Amqp
