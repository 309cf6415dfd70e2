/-
  Redis/Custody.lean --- where an entry is, whatever the clients of a deployment do
  (`kojin-redis`: `broker.rs`).

  An entry is pushed to the left of a queue and taken from its right, into the processing
  list of the worker that takes it; `ack` removes it from there.  In between, other
  clients run, commands get lost and workers die.  The lists are a depot all the same:

      queue q        what was pushed, in order, is what was taken, in order, followed by
                     what is there
      processing w   what was taken by the worker is there, or it was removed from there
      dlq q          everything that was ever pushed is there

  So a queue is first in, first out for all its workers together, nothing is delivered
  to two of them, and a dead letter is never lost.  `poll_scheduled` pushes the members
  that are due, up to the first whose queue it cannot read.

  A command whose answer is lost may have moved an entry all the same, so what moved is
  seen from the lists before and after it, and not from what the client hears.
-/
import Kojin.Foundation.Depot
import Kojin.Redis.Namespace

set_option autoImplicit false

namespace Kojin.Redis

open Kojin.Foundation Kojin.Core

variable {σ : Type} [LinearOrder σ]

/-! ## What moves -/

/-- Entries move between lists, which are known by their keys. -/
abbrev EntryMotion : Type := Motion String String String

/-- What a poll pushes of the members that are due, each to its queue: all of them, up to
the first whose queue it cannot read. -/
def duePushes (queueOf : String → Except CommandError String) (keyPrefix : String) :
    List String → List EntryMotion
  | [] => []
  | text :: texts =>
      match queueOf text with
      | .error _ => []
      | .ok q => .pushed (queueKey keyPrefix q) text :: duePushes queueOf keyPrefix texts

/-- The members that a poll finds due. -/
def dueMembers (r : Keyspace σ) (key : String) (now : σ) : List String :=
  match r.zset? key with
  | .ok set => set.rangeByScore now 100
  | .error _ => []

/-- The list under a key has more entries than before. -/
def grew (r r' : Keyspace σ) (key : String) : Bool := (r.items key).length < (r'.items key).length

/-- A push to a list that has more entries than before. -/
def happened (r r' : Keyspace σ) : EntryMotion → Bool
  | .pushed key _ => grew r r' key
  | _ => false

/-- What a command moved, from the store before it and the store after it. -/
def motions (queueOf : String → Except CommandError String) (r r' : Keyspace σ) :
    ClientOp σ → List EntryMotion
  | .base (.lpush key item) => if grew r r' key then [.pushed key item] else []
  | .base (.blmove source target _) =>
      if grew r' r source then (r.items source).getLast?.toList.map (.taken source target ·)
      else []
  | .base (.lrem key item) => if grew r' r key then [.removed key item] else []
  | .base (.pollScheduled key now keyPrefix) =>
      let pushes := duePushes queueOf keyPrefix (dueMembers r key now)
      if pushes.any (happened r r') then pushes else []
  | _ => []

/-- What a step of the machine moved. -/
def moves {queueOf : String → Except CommandError String} {D : Deployment σ}
    (r : (D.machine queueOf).State) (l : (D.machine queueOf).Label)
    (r' : (D.machine queueOf).State) : List EntryMotion :=
  match l with
  | .call e => motions queueOf r r' e.op
  | .env _ => []

theorem grew_iff {r r' : Keyspace σ} {key : String} :
    grew r r' key = true ↔ (r.items key).length < (r'.items key).length := decide_eq_true_iff

theorem grew_of_eq {r r' : Keyspace σ} {key : String} (h : r'.items key = r.items key) :
    grew r r' key = false ∧ grew r' r key = false := by
  simp [grew, h]

namespace Deployment

variable {D : Deployment σ} {queueOf : String → Except CommandError String}
  {order : List String} {ms : List EntryMotion} {r r' : Keyspace σ}
  {d : Depot String String String}

/-! ## The store is a depot -/

/-- The key of a queue. -/
def IsQueue (D : Deployment σ) (key : String) : Prop := ∃ q, key = D.keys.queue q

/-- The key of a list that entries are pushed to. -/
def IsSource (D : Deployment σ) (key : String) : Prop :=
  ∃ q, key = D.keys.queue q ∨ key = D.keys.dlq q

/-- The key of a processing list. -/
def IsHolder (D : Deployment σ) (key : String) : Prop := ∃ w, key = D.keys.processing w

omit [LinearOrder σ] in
theorem IsSource.ne {source holder : String} (h : D.IsSource source) (h' : D.IsHolder holder) :
    source ≠ holder := by
  obtain ⟨w, rfl⟩ := h'
  obtain ⟨q, rfl | rfl⟩ := h
  · exact D.keys.queue_ne_processing q w
  · exact D.keys.dlq_ne_processing q w

omit [LinearOrder σ] in
theorem IsSource.list {key : String} (h : D.IsSource key) :
    ∃ x good, key = D.keys.key x ∧ D.kind x = .list good := by
  obtain ⟨q, rfl | rfl⟩ := h
  · exact ⟨.queue q, _, rfl, rfl⟩
  · exact ⟨.dlq q, _, rfl, rfl⟩

omit [LinearOrder σ] in
theorem IsHolder.list {key : String} (h : D.IsHolder key) :
    ∃ x good, key = D.keys.key x ∧ D.kind x = .list good := by
  obtain ⟨w, rfl⟩ := h
  exact ⟨.processing w, _, rfl, rfl⟩

/-- The depot has what the lists of the store have. -/
structure Agrees (D : Deployment σ) (d : Depot String String String) (r : Keyspace σ) : Prop where
  source : ∀ key, D.IsSource key → d.queue key = r.items key
  holder : ∀ key, D.IsHolder key → d.held key = r.items key

theorem items_writeList (r : Keyspace σ) (key key' : String) (items : List String) :
    (r.writeList key items).items key' = if key' = key then items else r.items key' := by
  split
  · rename_i heq
    rw [heq]
    exact Keyspace.items_of_list? (r.list?_writeList key items)
  · rename_i hne
    exact Keyspace.items_congr (r.get_writeList_ne hne items)

/-- The list under a key of the deployment. -/
theorem list?_items {key : String} (ht : D.schema.Typed r)
    (hkey : ∃ x good, key = D.keys.key x ∧ D.kind x = .list good) :
    r.list? key = .ok (r.items key) := by
  obtain ⟨x, good, rfl, hkind⟩ := hkey
  obtain ⟨items, hlist, -⟩ := ht.list? hkind
  have hlist' : r.list? (D.keys.key x) = .ok items := hlist
  rw [hlist', Keyspace.items_of_list? hlist']

/-- Lists that are not written to. -/
theorem Agrees.same (h : D.Agrees d r)
    (hsame : ∀ key, (∃ x good, key = D.keys.key x ∧ D.kind x = .list good) →
      r'.items key = r.items key) : D.Agrees d r' where
  source key hkey := by rw [hsame key hkey.list, h.source key hkey]
  holder key hkey := by rw [hsame key hkey.list, h.holder key hkey]

theorem items_advance (ht : D.schema.Typed r) {x : KeyObject} {good : String → Prop}
    (hkind : D.kind x = .list good) (millis : Nat) :
    (r.advance millis).items (D.keys.key x) = r.items (D.keys.key x) := by
  have hlasting : r.Lasting (D.keys.key x) := ht.lasting_list hkind
  unfold Keyspace.items
  rw [Keyspace.list?_advance_of_lasting hlasting]

theorem Agrees.advance (h : D.Agrees d r) (ht : D.schema.Typed r) (millis : Nat) :
    D.Agrees d (r.advance millis) := by
  refine h.same fun key hkey => ?_
  obtain ⟨x, good, rfl, hkind⟩ := hkey
  exact items_advance ht hkind millis

/-- A push. -/
theorem Agrees.push (h : D.Agrees d r) {key : String} (hkey : D.IsSource key) (text : String) :
    ∃ d', Depot.Step d (.pushed key text) d' ∧
      D.Agrees d' (r.writeList key (text :: r.items key)) := by
  refine ⟨_, .pushed d key text, fun key' hkey' => ?_, fun key' hkey' => ?_⟩
  · simp only [items_writeList, Function.update_apply]
    split
    · rw [h.source key hkey]
    · exact h.source key' hkey'
  · rw [items_writeList, if_neg (hkey.ne hkey').symm]
    exact h.holder key' hkey'

/-- A worker takes the oldest entry of a queue. -/
theorem Agrees.take (h : D.Agrees d r) {source target text : String} {rest : List String}
    (hsource : D.IsSource source) (htarget : D.IsHolder target)
    (hlast : r.items source = rest ++ [text]) :
    ∃ d', Depot.Step d (.taken source target text) d' ∧
      D.Agrees d' ((r.writeList source rest).writeList target (text :: r.items target)) := by
  have hqueue : d.queue source = rest ++ [text] := by rw [h.source source hsource, hlast]
  refine ⟨_, .taken d target hqueue, fun key hkey => ?_, fun key hkey => ?_⟩
  · simp only [items_writeList, if_neg (hkey.ne htarget), Function.update_apply]
    split
    · rfl
    · exact h.source key hkey
  · simp only [items_writeList, Function.update_apply]
    split
    · rw [h.holder target htarget]
    · rw [if_neg (hsource.ne hkey).symm]
      exact h.holder key hkey

/-- An entry is removed from a processing list. -/
theorem Agrees.remove (h : D.Agrees d r) {key text : String} (hkey : D.IsHolder key)
    (hmem : text ∈ r.items key) :
    ∃ d', Depot.Step d (.removed key text) d' ∧
      D.Agrees d' (r.writeList key ((r.items key).erase text)) := by
  have hheld : text ∈ d.held key := by
    rw [h.holder key hkey]
    exact hmem
  refine ⟨_, .removed d hheld, fun key' hkey' => ?_, fun key' hkey' => ?_⟩
  · rw [items_writeList, if_neg (hkey'.ne hkey)]
    exact h.source key' hkey'
  · simp only [items_writeList, Function.update_apply]
    split
    · rw [h.holder key hkey]
    · exact h.holder key' hkey'

omit [LinearOrder σ] in
/-- A poll pushes to queues. -/
theorem isQueue_of_duePushes {texts : List String} {key text : String}
    (h : .pushed key text ∈ duePushes queueOf D.keys.keyPrefix texts) : D.IsQueue key := by
  induction texts with
  | nil => exact (List.not_mem_nil h).elim
  | cons x xs ih =>
      cases hq : queueOf x with
      | error e => simp [duePushes, hq] at h
      | ok q =>
          rw [duePushes, hq] at h
          rcases List.mem_cons.mp h with heq | h
          · exact ⟨q, (Motion.pushed.inj heq).1⟩
          · exact ih h

theorem dueMembers_advance (ht : D.schema.Typed r) (now : σ) (millis : Nat) :
    dueMembers (r.advance millis) D.keys.scheduled now = dueMembers r D.keys.scheduled now := by
  have hlasting : r.Lasting (D.schema.key .scheduled) := ht.lasting_zset rfl
  have hlater : (r.advance millis).Lasting (D.schema.key .scheduled) := hlasting
  have hget : (r.advance millis).get D.keys.scheduled = r.get D.keys.scheduled :=
    (Keyspace.get_of_lasting hlater).trans (Keyspace.get_of_lasting hlasting).symm
  unfold dueMembers Keyspace.zset?
  rw [hget]

/-! ## One command -/

/-- The motions led to what the lists hold, and entries are taken from queues alone. -/
structure Kept (D : Deployment σ) (ms : List EntryMotion) (r : Keyspace σ) : Prop where
  typed : D.schema.Typed r
  run : ∃ d, Depot.Run Depot.empty ms d ∧ D.Agrees d r
  taken : ∀ source target text, .taken source target text ∈ ms → D.IsQueue source

/-- One motion more. -/
theorem Kept.motion (h : D.Kept ms r) (ht : D.schema.Typed r') {m : EntryMotion}
    (hfrom : ∀ source target text, m = .taken source target text → D.IsQueue source)
    (hstep : ∀ d, D.Agrees d r → ∃ d', Depot.Step d m d' ∧ D.Agrees d' r') :
    D.Kept (ms ++ [m]) r' := by
  obtain ⟨d, hrun, hagrees⟩ := h.run
  obtain ⟨d', hd, hagrees'⟩ := hstep d hagrees
  refine ⟨ht, ⟨d', hrun.step hd, hagrees'⟩, fun source target text hm => ?_⟩
  rcases List.mem_append.mp hm with hm | hm
  · exact h.taken source target text hm
  · exact hfrom source target text (List.mem_singleton.mp hm).symm

/-- Nothing moved. -/
theorem Kept.still (h : D.Kept ms r) (ht : D.schema.Typed r')
    (hsame : ∀ key, D.IsSource key ∨ D.IsHolder key → r'.items key = r.items key) :
    D.Kept (ms ++ []) r' := by
  rw [List.append_nil]
  obtain ⟨d, hrun, hagrees⟩ := h.run
  refine ⟨ht, ⟨d, hrun, fun key hkey => ?_, fun key hkey => ?_⟩, h.taken⟩
  · rw [hsame key (.inl hkey)]
    exact hagrees.source key hkey
  · rw [hsame key (.inr hkey)]
    exact hagrees.holder key hkey

/-- The pushes of a poll, and what they do to the lists. -/
theorem Kept.pushDue (hreads : D.ReadsQueue queueOf) {texts : List String}
    {a : Except CommandError Unit} (htexts : ∀ text ∈ texts, D.IsMessage text) :
    ∀ {ms r r'}, D.Kept ms r → pushDue queueOf D.keys.keyPrefix texts r = (a, r') →
      D.Kept (ms ++ duePushes queueOf D.keys.keyPrefix texts) r' ∧
        (∀ key, (r.items key).length ≤ (r'.items key).length) ∧
        ∀ m ∈ duePushes queueOf D.keys.keyPrefix texts, happened r r' m = true := by
  induction texts with
  | nil =>
      intro ms r r' h hpush
      cases hpush
      exact ⟨by simpa [duePushes] using h, fun _ => le_rfl, by simp [duePushes]⟩
  | cons text texts ih =>
      intro ms r r' h hpush
      obtain ⟨m, rfl⟩ := htexts text List.mem_cons_self
      rcases pushDue_cons hpush with ⟨hnot, -, rfl⟩ | ⟨q, ys, hq, hys, hrest⟩
      · -- the queue cannot be read, for the list could be pushed to
        have herror : duePushes queueOf D.keys.keyPrefix (m.encode D.codec.rfc3339 :: texts) =
            [] := by
          cases hq : queueOf (m.encode D.codec.rfc3339) with
          | error e => simp [duePushes, hq]
          | ok q =>
              obtain ⟨items, hlist, -⟩ := h.typed.list? (x := .queue q) rfl
              exact absurd ⟨q, hq, items, hlist⟩ hnot
        rw [herror]
        exact ⟨by simpa using h, fun _ => le_rfl, fun _ hm => (List.not_mem_nil hm).elim⟩
      · obtain rfl := hreads m q hq
        have hkey : D.IsSource (D.keys.queue m.queue) := ⟨m.queue, .inl rfl⟩
        have hlist : r.items (D.keys.queue m.queue) = ys := Keyspace.items_of_list? hys
        have ht : D.schema.Typed (r.writeList (D.keys.queue m.queue)
            (m.encode D.codec.rfc3339 :: ys)) := by
          obtain ⟨old, hold, hgood⟩ := h.typed.list? (x := .queue m.queue) rfl
          obtain rfl : ys = old := Except.ok.inj (hys.symm.trans hold)
          have hwrite := h.typed.sets_writeList (x := .queue m.queue) rfl
            (m.encode D.codec.rfc3339 :: ys) fun i hi => by
              rcases List.mem_cons.mp hi with rfl | hi
              · exact ⟨m, rfl, rfl⟩
              · exact hgood i hi
          exact h.typed.sets hwrite
        have hfirst : D.Kept (ms ++ [.pushed (D.keys.queue m.queue) (m.encode D.codec.rfc3339)])
            (r.writeList (D.keys.queue m.queue) (m.encode D.codec.rfc3339 :: ys)) := by
          refine h.motion ht (fun _ _ _ heq => (by cases heq)) fun d hd => ?_
          rw [← hlist]
          exact hd.push hkey _
        obtain ⟨hkept, hmore, hhappened⟩ :=
          ih (fun x hx => htexts x (List.mem_cons_of_mem _ hx)) hfirst hrest
        have hone : ∀ key, (r.items key).length ≤ ((r.writeList (D.keys.queue m.queue)
            (m.encode D.codec.rfc3339 :: ys)).items key).length := by
          intro key
          rw [items_writeList]
          split
          · rename_i heq
            rw [heq, hlist]
            exact Nat.le_succ _
          · exact le_rfl
        have hpushes : duePushes queueOf D.keys.keyPrefix (m.encode D.codec.rfc3339 :: texts) =
            .pushed (D.keys.queue m.queue) (m.encode D.codec.rfc3339) ::
              duePushes queueOf D.keys.keyPrefix texts := by
          rw [duePushes, hq]
          rfl
        rw [hpushes]
        refine ⟨by simpa using hkept, fun key => (hone key).trans (hmore key), fun m' hm' => ?_⟩
        rcases List.mem_cons.mp hm' with rfl | hm'
        · refine grew_iff.mpr (lt_of_lt_of_le ?_ (hmore (D.keys.queue m.queue)))
          rw [items_writeList, if_pos rfl, hlist]
          exact Nat.lt_succ_self _
        · have hlater := hhappened m' hm'
          cases m' with
          | pushed key' text' =>
              exact grew_iff.mpr (lt_of_le_of_lt (hone key') (grew_iff.mp hlater))
          | taken _ _ _ => exact hlater
          | removed _ _ => exact hlater

/-- A poll. -/
theorem Kept.poll (h : D.Kept ms r) (hreads : D.ReadsQueue queueOf) {now : σ}
    {answer : Except CommandError Nat} (ht : D.schema.Typed r')
    (hpoll : pollScheduledScript queueOf D.keys.scheduled now D.keys.keyPrefix r = (answer, r')) :
    D.Kept (ms ++ motions queueOf r r' (.base (.pollScheduled D.keys.scheduled now
      D.keys.keyPrefix))) r' := by
  obtain ⟨set, hset, hmembers⟩ := h.typed.zset? (x := .scheduled) rfl
  have hset' : r.zset? D.keys.scheduled = .ok set := hset
  have hmembers' : dueMembers r D.keys.scheduled now = (set.upTo now).take 100 := by
    rw [dueMembers, hset']
    rfl
  have hdue : ∀ text ∈ (set.upTo now).take 100, D.IsMessage text := fun text htext =>
    hmembers text (SortedSet.mem_members_of_upTo (List.mem_of_mem_take htext))
  -- what the script pushed is what is noted of it
  have hnoted : ∀ {r₁ : Keyspace σ},
      (∀ m ∈ duePushes queueOf D.keys.keyPrefix ((set.upTo now).take 100),
        happened r r₁ m = true) →
      motions queueOf r r₁ (.base (.pollScheduled D.keys.scheduled now D.keys.keyPrefix)) =
        duePushes queueOf D.keys.keyPrefix ((set.upTo now).take 100) := by
    intro r₁ hall
    simp only [motions, hmembers']
    split
    · rfl
    · rename_i hnone
      cases hpushes : duePushes queueOf D.keys.keyPrefix ((set.upTo now).take 100) with
      | nil => rfl
      | cons m rest =>
          rw [hpushes] at hall hnone
          exact absurd (List.any_eq_true.mpr ⟨m, List.mem_cons_self, hall m List.mem_cons_self⟩)
            hnone
  rcases poll_cases hset' hpoll with ⟨hnil, -, rfl⟩ | ⟨-, r₁, hpush, -, rfl⟩ | ⟨-, e, hpush, -⟩
  · rw [hnoted (by simp [hnil, duePushes]), hnil]
    exact h.still ht fun _ _ => rfl
  · obtain ⟨hkept, -, hhappened⟩ := Kept.pushDue hreads hdue h hpush
    have hrest : ∀ key, key ≠ D.keys.scheduled →
        (r₁.writeZset D.keys.scheduled (set.removeByScore now)).items key = r₁.items key :=
      fun key hkey => Keyspace.items_congr (r₁.get_writeZset_ne hkey _)
    have hsame : ∀ key, D.IsSource key ∨ D.IsHolder key →
        (r₁.writeZset D.keys.scheduled (set.removeByScore now)).items key = r₁.items key := by
      intro key hkey
      refine hrest key fun heq => ?_
      rcases hkey with ⟨q, rfl | rfl⟩ | ⟨w, rfl⟩
      · exact D.keys.queue_ne_scheduled q heq
      · cases key_injective D.keys (show D.keys.key (.dlq q) = D.keys.key .scheduled from heq)
      · cases key_injective D.keys
          (show D.keys.key (.processing w) = D.keys.key .scheduled from heq)
    rw [hnoted, ← List.append_nil (ms ++ _)]
    · exact hkept.still ht hsame
    · intro m hm
      have hpushed := hhappened m hm
      cases m with
      | pushed key text =>
          obtain ⟨q, hq⟩ : ∃ q, key = D.keys.queue q := isQueue_of_duePushes hm
          have hlonger := grew_iff.mp hpushed
          rw [← hsame key (.inl ⟨q, .inl hq⟩)] at hlonger
          exact grew_iff.mpr hlonger
      | taken _ _ _ => exact hpushed
      | removed _ _ => exact hpushed
  · obtain ⟨hkept, -, hhappened⟩ := Kept.pushDue hreads hdue h hpush
    rw [hnoted hhappened]
    exact hkept

/-- A command that is not one of those that move entries. -/
def Idle : ClientOp σ → Prop
  | .base (.lpush _ _) => False
  | .base (.blmove _ _ _) => False
  | .base (.lrem _ _) => False
  | .base (.pollScheduled _ _ _) => False
  | _ => True

theorem not_writer_of_idle {op : ClientOp σ} (h : Idle op) :
    (∀ q, ¬ D.Writer op (.queue q)) ∧ (∀ q, ¬ D.Writer op (.dlq q)) ∧
      ∀ w, ¬ D.Writer op (.processing w) := by
  refine ⟨fun q hq => ?_, fun q hq => ?_, fun w hw => ?_⟩
  · rcases hq with ⟨item, rfl⟩ | ⟨w, timeout, rfl⟩ | ⟨now, rfl⟩ <;> exact h
  · obtain ⟨item, rfl⟩ := hq
    exact h
  · rcases hw with ⟨q, timeout, rfl⟩ | ⟨item, rfl⟩ <;> exact h

theorem motions_of_idle {op : ClientOp σ} (h : Idle op) : motions queueOf r r' op = [] := by
  cases op with
  | base op =>
      cases op with
      | lpush key item => exact h.elim
      | blmove source target timeout => exact h.elim
      | lrem key item => exact h.elim
      | pollScheduled key now keyPrefix => exact h.elim
      | _ => rfl
  | _ => rfl

/-- A command that is not one of those that move entries leaves the lists as they are. -/
theorem items_of_idle (ht : D.schema.Typed r)
    (hscheduled : D.keys.scheduled.replace ":scheduled" "" = D.keys.keyPrefix) {op : ClientOp σ}
    (hop : D.Proper op) {answer : Except CommandError op.Ans} (hidle : Idle op)
    (hperform : performClient queueOf order r op = (answer, r')) {key : String}
    (hkey : D.IsSource key ∨ D.IsHolder key) : r'.items key = r.items key := by
  have hsame : ∀ {x good}, D.kind x = .list good → ¬ D.Writer op x →
      r'.items (D.keys.key x) = r.items (D.keys.key x) := by
    intro x good hkind hx
    have hlasting : r.Lasting (D.keys.key x) := ht.lasting_list hkind
    unfold Keyspace.items
    rw [Keyspace.list?_of_keys hlasting (keys_of_not_writer hscheduled hop hperform hx)]
  obtain ⟨hqueue, hdlq, hprocessing⟩ := not_writer_of_idle (D := D) hidle
  rcases hkey with ⟨q, rfl | rfl⟩ | ⟨w, rfl⟩
  · exact hsame (x := .queue q) rfl (hqueue q)
  · exact hsame (x := .dlq q) rfl (hdlq q)
  · exact hsame (x := .processing w) rfl (hprocessing w)

/-- A push. -/
theorem Kept.lpush (h : D.Kept ms r) {key item : String} {answer : Except CommandError Unit}
    (ht : D.schema.Typed r') (hsource : D.IsSource key)
    (hperform : perform queueOf r (.lpush key item) = (answer, r')) :
    D.Kept (ms ++ motions queueOf r r' (.base (.lpush key item))) r' := by
  have hpush : commit r ((r.lpush key item).map ((), ·)) = (answer, r') := hperform
  rw [Keyspace.lpush_of_list? (list?_items h.typed hsource.list)] at hpush
  cases hpush
  have hgrew : grew r (r.writeList key (item :: r.items key)) key = true := by
    rw [grew_iff, items_writeList, if_pos rfl]
    exact Nat.lt_succ_self _
  simp only [motions, hgrew, if_true]
  refine h.motion ht (fun _ _ _ heq => ?_) fun d hd => hd.push hsource item
  cases heq

/-- A move from a queue to a processing list. -/
theorem Kept.blmove (h : D.Kept ms r) {queue workerId : String} {timeout : Nat}
    {answer : Except CommandError (Option String)} (ht : D.schema.Typed r')
    (hperform : perform queueOf r
      (.blmove (D.keys.queue queue) (D.keys.processing workerId) timeout) = (answer, r')) :
    D.Kept (ms ++ motions queueOf r r'
      (.base (.blmove (D.keys.queue queue) (D.keys.processing workerId) timeout))) r' := by
  have hsource : D.IsSource (D.keys.queue queue) := ⟨queue, .inl rfl⟩
  have htarget : D.IsHolder (D.keys.processing workerId) := ⟨workerId, rfl⟩
  have hstill : motions queueOf r r
      (.base (.blmove (D.keys.queue queue) (D.keys.processing workerId) timeout)) = [] := by
    simp [motions, grew]
  rcases commit_cases hperform with ⟨entry, -, hmove⟩ | ⟨e, -, -, rfl⟩
  swap
  · rw [hstill]
    exact h.still ht fun _ _ => rfl
  rcases Keyspace.lmove_cases hmove with ⟨-, rfl⟩ | ⟨xs, x, ys, -, hlist, hlast, hothers, rfl⟩
  · rw [hstill]
    exact h.still ht fun _ _ => rfl
  have hitems : r.items (D.keys.queue queue) = xs := Keyspace.items_of_list? hlist
  have hsplit : xs.dropLast ++ [x] = xs := List.dropLast_append_getLast? x hlast
  have hgrew : grew ((r.writeList (D.keys.queue queue) xs.dropLast).writeList
      (D.keys.processing workerId) (x :: ys)) r (D.keys.queue queue) = true := by
    rw [grew_iff, items_writeList, if_neg (hsource.ne htarget), items_writeList, if_pos rfl,
      hitems]
    conv_rhs => rw [← hsplit]
    simp
  have hnoted : motions queueOf r ((r.writeList (D.keys.queue queue) xs.dropLast).writeList
      (D.keys.processing workerId) (x :: ys))
      (.base (.blmove (D.keys.queue queue) (D.keys.processing workerId) timeout)) =
        [.taken (D.keys.queue queue) (D.keys.processing workerId) x] := by
    have hlast' : xs.getLast? = some x := hlast
    simp only [motions, hgrew, if_true, hitems, hlast']
    rfl
  rw [hnoted]
  refine h.motion ht (fun _ _ _ heq => ?_) fun d hd => ?_
  · cases heq
    exact ⟨queue, rfl⟩
  rw [Keyspace.list?_writeList_ne _ (hsource.ne htarget).symm] at hothers
  rw [← Keyspace.items_of_list? hothers]
  refine hd.take hsource htarget ?_
  rw [hitems, hsplit]

/-- A removal from a processing list. -/
theorem Kept.lrem (h : D.Kept ms r) {workerId item : String} {answer : Except CommandError Unit}
    (ht : D.schema.Typed r')
    (hperform : perform queueOf r (.lrem (D.keys.processing workerId) item) = (answer, r')) :
    D.Kept (ms ++ motions queueOf r r' (.base (.lrem (D.keys.processing workerId) item))) r' := by
  have hholder : D.IsHolder (D.keys.processing workerId) := ⟨workerId, rfl⟩
  have hrem : commit r ((r.lrem (D.keys.processing workerId) item).map ((), ·)) =
      (answer, r') := hperform
  rw [Keyspace.lrem_of_list? (list?_items h.typed hholder.list)] at hrem
  cases hrem
  by_cases hmem : item ∈ r.items (D.keys.processing workerId)
  · have hgrew : grew (r.writeList (D.keys.processing workerId)
        ((r.items (D.keys.processing workerId)).erase item)) r (D.keys.processing workerId) =
          true := by
      rw [grew_iff, items_writeList, if_pos rfl, List.length_erase_of_mem hmem]
      exact Nat.sub_lt (List.length_pos_of_mem hmem) Nat.one_pos
    simp only [motions, hgrew, if_true]
    refine h.motion ht (fun _ _ _ heq => ?_) fun d hd => hd.remove hholder hmem
    cases heq
  · rw [List.erase_of_not_mem hmem] at ht ⊢
    have hsame : ∀ key, (r.writeList (D.keys.processing workerId)
        (r.items (D.keys.processing workerId))).items key = r.items key := by
      intro key
      rw [items_writeList]
      split
      · rename_i heq
        rw [heq]
      · rfl
    have hnone : motions queueOf r (r.writeList (D.keys.processing workerId)
        (r.items (D.keys.processing workerId)))
        (.base (.lrem (D.keys.processing workerId) item)) = [] := by
      simp [motions, grew, hsame]
    rw [hnone]
    exact h.still ht fun key _ => hsame key

/-- One command, carried out. -/
theorem Kept.perform (h : D.Kept ms r) (hreads : D.ReadsQueue queueOf)
    (hscheduled : D.keys.scheduled.replace ":scheduled" "" = D.keys.keyPrefix) {op : ClientOp σ}
    (hop : D.Proper op) {answer : Except CommandError op.Ans}
    (hperform : performClient queueOf order r op = (answer, r')) :
    D.Kept (ms ++ motions queueOf r r' op) r' := by
  have ht := (keeps_performClient hreads hscheduled hop h.typed hperform).typed
  by_cases hidle : Idle op
  · rw [motions_of_idle hidle]
    exact h.still ht fun key hkey => items_of_idle h.typed hscheduled hop hidle hperform hkey
  · cases op with
    | get key => exact absurd trivial hidle
    | del key => exact absurd trivial hidle
    | keys pattern => exact absurd trivial hidle
    | base op =>
        cases op with
        | lpush key item =>
            obtain ⟨m, -, hkey⟩ := hop
            exact h.lpush ht ⟨m.queue, hkey⟩ hperform
        | blmove source target timeout =>
            obtain ⟨q, w, rfl, rfl⟩ := hop
            exact h.blmove ht hperform
        | lrem key item =>
            obtain ⟨w, rfl⟩ := hop
            exact h.lrem ht hperform
        | pollScheduled key now keyPrefix =>
            obtain ⟨rfl, rfl⟩ := hop
            have hpoll : pollScheduledScript queueOf D.keys.scheduled now
                (D.keys.scheduled.replace ":scheduled" "") r = (answer, r') := hperform
            rw [hscheduled] at hpoll ⊢
            exact h.poll hreads ht hpoll
        | _ => exact absurd trivial hidle

/-! ## Every run -/

/-- What is noted of a command depends on the lists and on the members that are due. -/
theorem motions_congr (hscheduled : D.keys.scheduled.replace ":scheduled" "" = D.keys.keyPrefix)
    {r₁ : Keyspace σ} {op : ClientOp σ} (hop : D.Proper op)
    (hsame : ∀ key, D.IsSource key ∨ D.IsHolder key → r₁.items key = r.items key)
    (hdue : ∀ now, dueMembers r₁ D.keys.scheduled now = dueMembers r D.keys.scheduled now) :
    motions queueOf r₁ r' op = motions queueOf r r' op := by
  have hgrew : ∀ key, D.IsSource key ∨ D.IsHolder key →
      grew r₁ r' key = grew r r' key ∧ grew r' r₁ key = grew r' r key := by
    intro key hkey
    simp [grew, hsame key hkey]
  cases op with
  | base op =>
      cases op with
      | lpush key item =>
          obtain ⟨m, -, hkey⟩ := hop
          simp only [motions, (hgrew key (.inl ⟨m.queue, hkey⟩)).1]
      | blmove source target timeout =>
          obtain ⟨q, w, rfl, rfl⟩ := hop
          have hkey : D.IsSource (D.keys.queue q) := ⟨q, .inl rfl⟩
          simp only [motions, (hgrew _ (.inl hkey)).2, hsame _ (.inl hkey)]
      | lrem key item =>
          obtain ⟨w, rfl⟩ := hop
          simp only [motions, (hgrew _ (.inr ⟨w, rfl⟩)).2]
      | pollScheduled key now keyPrefix =>
          obtain ⟨rfl, rfl⟩ := hop
          rw [hscheduled]
          have hhappened : ∀ m ∈ duePushes queueOf D.keys.keyPrefix
              (dueMembers r D.keys.scheduled now), happened r₁ r' m = happened r r' m := by
            intro m hm
            cases m with
            | pushed key text =>
                obtain ⟨q, hq⟩ : ∃ q, key = D.keys.queue q := isQueue_of_duePushes hm
                exact (hgrew key (.inl ⟨q, .inl hq⟩)).1
            | taken _ _ _ => rfl
            | removed _ _ => rfl
          have hany : (duePushes queueOf D.keys.keyPrefix (dueMembers r D.keys.scheduled now)).any
                (happened r₁ r') =
              (duePushes queueOf D.keys.keyPrefix (dueMembers r D.keys.scheduled now)).any
                (happened r r') := by
            rw [Bool.eq_iff_iff, List.any_eq_true, List.any_eq_true]
            exact exists_congr fun m => and_congr_right fun hm => by rw [hhappened m hm]
          simp only [motions, hdue, hany]
      | _ => rfl
  | _ => rfl

/-- A command that did not arrive moved nothing. -/
theorem motions_same (hscheduled : D.keys.scheduled.replace ":scheduled" "" = D.keys.keyPrefix)
    {op : ClientOp σ} (hop : D.Proper op)
    (hsame : ∀ key, D.IsSource key ∨ D.IsHolder key → r'.items key = r.items key) :
    motions queueOf r r' op = [] := by
  have hgrew : ∀ key, D.IsSource key ∨ D.IsHolder key →
      grew r r' key = false ∧ grew r' r key = false := fun key hkey => grew_of_eq (hsame key hkey)
  cases op with
  | base op =>
      cases op with
      | lpush key item =>
          obtain ⟨m, -, hkey⟩ := hop
          simp [motions, (hgrew key (.inl ⟨m.queue, hkey⟩)).1]
      | blmove source target timeout =>
          obtain ⟨q, w, rfl, rfl⟩ := hop
          simp [motions, (hgrew _ (.inl ⟨q, .inl rfl⟩)).2]
      | lrem key item =>
          obtain ⟨w, rfl⟩ := hop
          simp [motions, (hgrew _ (.inr ⟨w, rfl⟩)).2]
      | pollScheduled key now keyPrefix =>
          obtain ⟨rfl, rfl⟩ := hop
          rw [hscheduled]
          have hnone : ∀ m ∈ duePushes queueOf D.keys.keyPrefix
              (dueMembers r D.keys.scheduled now), ¬ happened r r' m = true := by
            intro m hm
            cases m with
            | pushed key text =>
                obtain ⟨q, hq⟩ : ∃ q, key = D.keys.queue q := isQueue_of_duePushes hm
                rw [happened, (hgrew key (.inl ⟨q, .inl hq⟩)).1]
                simp
            | taken _ _ _ => simp [happened]
            | removed _ _ => simp [happened]
          simp only [motions]
          rw [if_neg]
          rw [List.any_eq_true]
          rintro ⟨m, hm, hhappened⟩
          exact hnone m hm hhappened
      | _ => rfl
  | _ => rfl

theorem Kept.respond (h : D.Kept ms r) (hreads : D.ReadsQueue queueOf)
    (hscheduled : D.keys.scheduled.replace ":scheduled" "" = D.keys.keyPrefix) {o : ClientOracle}
    {op : ClientOp σ} (hop : D.Proper op) {answer : Except CommandError op.Ans}
    (hrespond : (clientServer queueOf).respond o r op = some (answer, r')) :
    D.Kept (ms ++ motions queueOf r r' op) r' := by
  have hitems : ∀ key, D.IsSource key ∨ D.IsHolder key →
      (r.advance o.elapsed).items key = r.items key := by
    intro key hkey
    obtain ⟨x, good, rfl, hkind⟩ := hkey.elim IsSource.list IsHolder.list
    exact items_advance h.typed hkind o.elapsed
  have hlater : D.Kept ms (r.advance o.elapsed) := by
    obtain ⟨d, hrun, hagrees⟩ := h.run
    exact ⟨h.typed, ⟨d, hrun, hagrees.advance h.typed _⟩, h.taken⟩
  rcases clientServer_respond hrespond with ⟨rfl, -⟩ | ⟨done, hperform, -⟩
  · rw [motions_same hscheduled hop hitems, List.append_nil]
    exact hlater
  · rw [← motions_congr hscheduled hop hitems fun now => dueMembers_advance h.typed now _]
    exact hlater.perform hreads hscheduled hop hperform

/-- Custody.  In every run of any number of brokers, workers, backends and readers of a
deployment whose prefix does not contain `:scheduled`, with any delays, and any commands
and answers lost, every list balances: what was pushed to a queue, by `enqueue` or by
`poll_scheduled`, in order, is what all the workers took from it, in order, and then what
is there; what a worker took it holds, or it removed it; and a dead letter stays where it
was pushed. -/
theorem custody (hreads : D.ReadsQueue queueOf)
    (hscheduled : ¬ ":scheduled".toList <:+: D.keys.keyPrefix.toList) {r₀ : Keyspace σ}
    (hfresh : ∀ x, r₀.keys (D.keys.key x) = none) {c : (D.machine queueOf).Config}
    (h : Machine.Observed moves ⟨r₀, []⟩ ms c) :
    (∀ q, ms.filterMap (Depot.pushTo (D.keys.queue q)) =
      ms.filterMap (Depot.takeFrom (D.keys.queue q)) ++
        (Keyspace.items c.state (D.keys.queue q)).reverse) ∧
    (∀ w, (ms.filterMap (Depot.takeTo (D.keys.processing w))).Perm
      (Keyspace.items c.state (D.keys.processing w) ++
        ms.filterMap (Depot.removeFrom (D.keys.processing w)))) ∧
    ∀ q, ms.filterMap (Depot.pushTo (D.keys.dlq q)) =
      (Keyspace.items c.state (D.keys.dlq q)).reverse := by
  have hpoll := (pollPrefix_eq_iff D.keys).mpr hscheduled
  have hstart : D.Kept [] r₀ := by
    have hitems : ∀ x good, D.kind x = .list good → r₀.items (D.keys.key x) = [] := by
      intro x good _
      refine Keyspace.items_of_list? ?_
      rw [Keyspace.list?, Keyspace.get, Keyspace.live, hfresh x]
      rfl
    refine ⟨(sound_fresh hfresh).typed, ⟨.empty, .start, fun key hkey => ?_,
      fun key hkey => ?_⟩, fun _ _ _ hm => (List.not_mem_nil hm).elim⟩
    · obtain ⟨x, good, rfl, hkind⟩ := hkey.list
      exact (hitems x good hkind).symm
    · obtain ⟨x, good, rfl, hkind⟩ := hkey.list
      exact (hitems x good hkind).symm
  have hkept : D.Kept ms c.state := by
    refine (h.rule (C := D.Proper) (J := D.Kept) proper_entry ?_ ?_
      (fun p hp => (List.not_mem_nil hp).elim) hstart).1
    · intro ms call s s' new hs haccept
      cases haccept
      have hnone : @moves _ _ queueOf D s (.env call) s = [] := rfl
      rw [hnone, List.append_nil]
      exact hs
    · intro ms o s op answer s' hs hop hrespond
      exact hs.respond hreads hpoll hop hrespond
  obtain ⟨d, hrun, hagrees⟩ := hkept.run
  refine ⟨fun q => ?_, fun w => ?_, fun q => ?_⟩
  · rw [hrun.queue_eq, hagrees.source _ ⟨q, .inl rfl⟩]
  · have hheld := hrun.held_perm (D.keys.processing w)
    rw [hagrees.holder _ ⟨w, rfl⟩] at hheld
    exact hheld
  · -- nothing is taken from a dead-letter list
    have htaken : ms.filterMap (Depot.takeFrom (D.keys.dlq q)) = [] := by
      rw [List.filterMap_eq_nil_iff]
      intro m hm
      cases m with
      | pushed key text => rfl
      | removed key text => rfl
      | taken source target text =>
          obtain ⟨q', rfl⟩ := hkept.taken source target text hm
          exact if_neg (D.keys.queue_ne_dlq q' q)
    rw [hrun.queue_eq, htaken, List.nil_append, hagrees.source _ ⟨q, .inr rfl⟩]

/-! ## A push that its caller does not hear of -/

/-- A producer sends a message and gets an error, but the message was pushed, and a
worker takes it. -/
def unheardPush : List (plain.machine plainQueue).Move :=
  [.env (.broker "p" 300 (.enqueue (plainMessage ⟨1⟩))), .env (.dequeue "w" ["q"] 1),
    .run 0 atOnce, .run 1 atOnce, .run 0 ⟨⟨0, some (.answer "connection reset")⟩, []⟩,
    .run 1 atOnce]

theorem unheardPush_moves : (Machine.Config.notesOf (M := plain.machine plainQueue) moves
    ⟨Keyspace.empty 0, []⟩ unheardPush).isSome = true := by
  decide +kernel

/-- The worker holds what was pushed, and the queue is empty. -/
theorem custody_unheard : ∃ (ms : List EntryMotion) (c : (plain.machine plainQueue).Config),
    ms = [.pushed "kojin:queue:q" plainText,
      .taken "kojin:queue:q" "kojin:processing:w" plainText] ∧
    (Keyspace.items c.state (plain.keys.queue "q")).reverse = [] ∧
    [plainText].Perm (Keyspace.items c.state (plain.keys.processing "w")) := by
  have hobserved := Machine.Config.observed_of_get unheardPush_moves
  obtain ⟨hqueues, hworkers, -⟩ := custody plain_reads (by decide) (fun _ => rfl) hobserved
  have hmoved : ((Machine.Config.notesOf (M := plain.machine plainQueue) moves
      ⟨Keyspace.empty 0, []⟩ unheardPush).get unheardPush_moves).1 =
      [.pushed "kojin:queue:q" plainText,
        .taken "kojin:queue:q" "kojin:processing:w" plainText] := by
    decide +kernel
  have hqueue := hqueues "q"
  have hheld := hworkers "w"
  rw [hmoved] at hqueue hheld
  have hremoved : [(.pushed "kojin:queue:q" plainText : EntryMotion),
      .taken "kojin:queue:q" "kojin:processing:w" plainText].filterMap
      (Depot.removeFrom (plain.keys.processing "w")) = [] := rfl
  rw [hremoved, List.append_nil] at hheld
  have hall : [plainText] ++ [] = [plainText] ++ (Keyspace.items
      ((Machine.Config.notesOf (M := plain.machine plainQueue) moves
        ⟨Keyspace.empty 0, []⟩ unheardPush).get unheardPush_moves).2.state
      (plain.keys.queue "q")).reverse := hqueue
  exact ⟨_, _, hmoved, (List.append_cancel_left hall).symm, hheld⟩

end Deployment

end Kojin.Redis
