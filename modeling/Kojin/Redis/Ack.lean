/-
  Redis/Ack.lean --- which entry an acknowledgement removes (`kojin-redis`:
  `RedisBroker::ack`).

  The entry is found by searching the text of the entries for the text of the
  identifier.  A text that the crate printed contains the identifier of its message
  near its start; but the identifier may also stand in another message, as the
  parent, in a header, in the payload, or inside a chord callback.  And other
  producers may print their messages differently, an identifier in upper case for
  one, or push what is no message at all.

  `ack_right_iff` is about any entries, and about what they decode to: the
  acknowledgement settles the right message exactly when the first entry that
  mentions the identifier is one of its message, or when there is no entry of its
  message and what mentions the identifier first is none of another.
-/
import Kojin.Redis.Broker

set_option autoImplicit false

namespace Kojin.Redis

open Kojin.Foundation Kojin.Core

namespace RedisBroker

variable {σ : Type} [LinearOrder σ]

/-! ## What the commands do -/

/-- Removing the first entry that is equal to the first match removes the first
match. -/
theorem erase_find {p : String → Bool} {xs : List String} {x : String}
    (h : xs.find? p = some x) : xs.erase x = xs.eraseP p := by
  induction xs with
  | nil => cases h
  | cons y xs ih =>
      by_cases hy : p y = true
      · rw [List.find?_cons_of_pos hy] at h
        cases h
        rw [List.erase_cons_head, List.eraseP_cons_of_pos hy]
      · rw [List.find?_cons_of_neg hy] at h
        have hne : y ≠ x := by
          rintro rfl
          exact hy (List.find?_some h)
        rw [List.erase_cons_tail (by simpa using hne), List.eraseP_cons_of_neg hy, ih h]

/-- The store after an acknowledgement that found the entries `xs`. -/
def acked (b : RedisBroker) (id : TaskId) (xs : List String) (r : Keyspace σ) : Keyspace σ :=
  if (xs.find? (mentions id)).isSome then
    r.writeList (b.keys.processing b.workerId) (xs.eraseP (mentions id))
  else r

/-- How many commands it sends. -/
def ackCommands (id : TaskId) (xs : List String) : Nat :=
  if (xs.find? (mentions id)).isSome then 3 else 2

variable {b : RedisBroker} {queueOf : String → Except CommandError String} {dt : Nat}
  {r : Keyspace σ} {id : TaskId} {xs : List String}

/-- What `ack` does, on a server where no command fails. -/
theorem eval_ack (hlasting : r.Lasting (b.keys.processing b.workerId))
    (hlist : r.list? (b.keys.processing b.workerId) = .ok xs) :
    (steadyServer queueOf).eval dt (b.ack id).run r =
      some (.ok (), b.acked id xs (r.advance (ackCommands id xs * dt))) := by
  have hat : ∀ t, (r.advance t).list? (b.keys.processing b.workerId) = .ok xs := fun t =>
    (Keyspace.list?_advance_of_lasting hlasting t).trans hlist
  have hrange : perform queueOf ((r.advance dt).advance dt)
      (.lrange (b.keys.processing b.workerId) 0 (-1)) = (.ok xs, r.advance (dt + dt)) := by
    show (((r.advance dt).advance dt).lrange _ 0 (-1), (r.advance dt).advance dt) = _
    rw [Keyspace.lrange_all, Keyspace.advance_advance, hat]
  refine eval_bind_of () rfl rfl (eval_bind_of xs rfl hrange ?_)
  cases hfind : xs.find? (mentions id) with
  | none =>
      have hacked : b.acked id xs (r.advance (ackCommands id xs * dt)) = r.advance (dt + dt) := by
        rw [acked, ackCommands, hfind, ← Nat.two_mul]
        rfl
      rw [hacked]
      rfl
  | some item =>
      have hacked : b.acked id xs (r.advance (ackCommands id xs * dt)) =
          (r.advance (dt + dt + dt)).writeList (b.keys.processing b.workerId)
            (xs.erase item) := by
        rw [acked, ackCommands, hfind, erase_find hfind, ← Nat.two_mul, ← Nat.succ_mul]
        rfl
      have hrem : perform queueOf ((r.advance (dt + dt)).advance dt)
          (.lrem (b.keys.processing b.workerId) item) =
            (.ok (), b.acked id xs (r.advance (ackCommands id xs * dt))) := by
        rw [hacked]
        show commit _ (((r.advance (dt + dt)).advance dt).lrem _ item |>.map ((), ·)) = _
        rw [Keyspace.advance_advance, Keyspace.lrem_of_list? (hat _)]
        rfl
      exact eval_command_of (.lrem (b.keys.processing b.workerId) item) () rfl hrem

/-- The processing list afterwards. -/
theorem list?_acked (hlist : r.list? (b.keys.processing b.workerId) = .ok xs) :
    (b.acked id xs r).list? (b.keys.processing b.workerId) = .ok (xs.eraseP (mentions id)) := by
  unfold acked
  split
  · exact Keyspace.list?_writeList r _ _
  · rename_i hnone
    have hnot : ∀ x ∈ xs, ¬ mentions id x = true := by
      intro x hx hmention
      exact hnone (List.find?_isSome.mpr ⟨x, hx, hmention⟩)
    rw [List.eraseP_of_forall_not hnot]
    exact hlist

/-! ## Which entry -/

/-- Every message mentions its own identifier. -/
theorem mentions_self (rfc3339 : DateTime → String) (m : TaskMessage) :
    mentions m.id (m.encode rfc3339) = true := by
  obtain ⟨rest, hchars⟩ := m.encode_chars rfc3339
  refine decide_eq_true ⟨idLead, '"' :: rest, ?_⟩
  rw [hchars]

section Right

variable (decode : String → Except String TaskMessage) (id : TaskId) (xs : List String)

/-- The entry is a message with this identifier. -/
def Own (item : String) : Prop := ∃ m, decode item = .ok m ∧ m.id = id

/-- The entry is a message with another identifier. -/
def Foreign (item : String) : Prop := ∃ m, decode item = .ok m ∧ m.id ≠ id

/-- The right entry is gone and no other: one of a message with this identifier if
there is one, and none of a message with another identifier. -/
def AckRight (entries : List String) : Prop :=
  ((∃ item ∈ xs, Own decode id item) → ∃ before item after, xs = before ++ item :: after ∧
    Own decode id item ∧ entries = before ++ after) ∧
  ∀ item, Foreign decode id item → entries.count item = xs.count item

/-- The first entry that mentions the identifier is one of its message; or no entry is,
and the first that mentions it, if there is one, is no message. -/
def FirstMentionOwn : Prop :=
  (∃ item, xs.find? (mentions id) = some item ∧ Own decode id item) ∨
    ((∀ item ∈ xs, ¬ Own decode id item) ∧
      ∀ item, xs.find? (mentions id) = some item → ¬ Foreign decode id item)

variable {decode id xs}

omit [LinearOrder σ] in
/-- No entry is of both kinds. -/
theorem Foreign.not_own {item : String} (h : Foreign decode id item) : ¬ Own decode id item := by
  obtain ⟨m, hm, hne⟩ := h
  rintro ⟨m', hm', hid⟩
  rw [hm] at hm'
  cases hm'
  exact hne hid

omit [LinearOrder σ] in
/-- A list without one of its elements has another one as often as before. -/
theorem count_without {before after : List String} {item other : String} (h : item ≠ other) :
    (before ++ after).count other = (before ++ item :: after).count other := by
  simp [List.count_cons_of_ne h]

/-- Nothing is removed when nothing mentions the identifier. -/
theorem ackRight_kept (hfind : xs.find? (mentions id) = none) :
    AckRight decode id xs xs ↔ FirstMentionOwn decode id xs := by
  constructor
  · intro hright
    refine .inr ⟨fun item hitem hown => ?_, fun item hitem => ?_⟩
    · obtain ⟨before, own, after, hsplit, -, hentries⟩ := hright.1 ⟨item, hitem, hown⟩
      have hlength := congrArg List.length (hsplit.symm.trans hentries)
      simp at hlength
    · rw [hfind] at hitem
      cases hitem
  · rintro (⟨item, hitem, -⟩ | ⟨hnone, -⟩)
    · rw [hfind] at hitem
      cases hitem
    · refine ⟨?_, fun _ _ => rfl⟩
      rintro ⟨item, hitem, hown⟩
      exact absurd hown (hnone item hitem)

/-- When the first entry that mentions the identifier is removed, its kind decides. -/
theorem ackRight_removed {before after : List String} {item : String}
    (hfind : (before ++ item :: after).find? (mentions id) = some item) :
    AckRight decode id (before ++ item :: after) (before ++ after) ↔
      FirstMentionOwn decode id (before ++ item :: after) := by
  have hless : (before ++ after).count item + 1 = (before ++ item :: after).count item := by
    simp [Nat.add_assoc]
  constructor
  · intro hright
    by_cases hown : Own decode id item
    · exact .inl ⟨item, hfind, hown⟩
    · refine .inr ⟨fun other hother hothers => ?_, fun first hfirst hforeign => ?_⟩
      · -- the entry of the message would have to be the removed one
        obtain ⟨before', own, after', hsplit, howns, hentries⟩ := hright.1 ⟨other, hother, hothers⟩
        have hne : own ≠ item := by
          rintro rfl
          exact hown howns
        have hsame := @count_without before' after' own item hne
        rw [← hentries, ← hsplit] at hsame
        omega
      · rw [hfind] at hfirst
        cases hfirst
        have hsame := hright.2 item hforeign
        omega
  · rintro (⟨first, hfirst, hown⟩ | ⟨hnone, hforeign⟩)
    · rw [hfind] at hfirst
      cases hfirst
      refine ⟨fun _ => ⟨before, item, after, rfl, hown, rfl⟩, fun other hother => ?_⟩
      refine count_without ?_
      rintro rfl
      exact hother.not_own hown
    · refine ⟨?_, fun other hother => count_without ?_⟩
      · rintro ⟨other, hother, hown⟩
        exact absurd hown (hnone other hother)
      · rintro rfl
        exact hforeign item hfind hother

theorem ackRight_eraseP_iff :
    AckRight decode id xs (xs.eraseP (mentions id)) ↔ FirstMentionOwn decode id xs := by
  cases hfind : xs.find? (mentions id) with
  | none =>
      have hnone := List.find?_eq_none.mp hfind
      rw [List.eraseP_of_forall_not hnone]
      exact ackRight_kept hfind
  | some item =>
      obtain ⟨hmention, before, after, rfl, hbefore⟩ := List.find?_eq_some_iff_append.mp hfind
      have hnot : ∀ x ∈ before, ¬ mentions id x = true := by
        intro x hx
        simpa using hbefore x hx
      rw [List.eraseP_append_right _ hnot, List.eraseP_cons_of_pos hmention]
      exact ackRight_removed hfind

/-- When `ack` settles the right message, whatever the processing list holds. -/
theorem ack_right_iff (queueOf : String → Except CommandError String) (dt : Nat)
    (codec : RedisCodec σ) (hlasting : r.Lasting (b.keys.processing b.workerId))
    (hlist : r.list? (b.keys.processing b.workerId) = .ok xs) :
    ∃ r' entries, (steadyServer queueOf).eval dt (b.ack id).run r = some (.ok (), r') ∧
      r'.list? (b.keys.processing b.workerId) = .ok entries ∧
      (AckRight codec.decodeMessage id xs entries ↔ FirstMentionOwn codec.decodeMessage id xs) := by
  refine ⟨_, _, eval_ack hlasting hlist, list?_acked ?_, ackRight_eraseP_iff⟩
  exact (Keyspace.list?_advance_of_lasting hlasting _).trans hlist

end Right

/-! ## A child and its parent -/

/-- A broker of the worker `w`. -/
def plainBroker : RedisBroker := ⟨⟨"kojin"⟩, "w", 300⟩

/-- A store in which the worker `w` holds these entries, the last one it took first. -/
def heldStore (xs : List String) : Keyspace Nat :=
  (Keyspace.empty 0).writeList (plainBroker.keys.processing plainBroker.workerId) xs

theorem heldStore_lasting (xs : List String) :
    (heldStore xs).Lasting (plainBroker.keys.processing plainBroker.workerId) :=
  Keyspace.lasting_writeList (Keyspace.lasting_empty 0 _) _

theorem heldStore_list (xs : List String) :
    (heldStore xs).list? (plainBroker.keys.processing plainBroker.workerId) = .ok xs :=
  Keyspace.list?_writeList _ _ _

/-- A task and another one that names it as its parent. -/
def parentTask : TaskMessage := plainMessage ⟨1⟩
def childTask : TaskMessage := { plainMessage ⟨2⟩ with parentId := some ⟨1⟩ }

/-- The texts of the parent and of the child. -/
def parentText : String := parentTask.encode fun _ => ""
def childText : String := childTask.encode fun _ => ""

/-- A codec that reads these two. -/
def familyCodec : RedisCodec Nat :=
  ⟨fun _ => "", fun text =>
    if text = parentText then .ok parentTask
    else if text = childText then .ok childTask
    else .error "not a message", Int.toNat⟩

theorem parentText_own : Own familyCodec.decodeMessage ⟨1⟩ parentText := by
  refine ⟨parentTask, ?_, rfl⟩
  simp only [familyCodec, if_true]

theorem childText_foreign : Foreign familyCodec.decodeMessage ⟨1⟩ childText := by
  have hne : childText ≠ parentText := by
    intro heq
    have hid : childTask.id = parentTask.id := TaskMessage.id_of_encode heq
    exact absurd hid (by decide)
  refine ⟨childTask, ?_, by decide⟩
  simp only [familyCodec, if_neg hne, if_true]

theorem childText_mentions : mentions ⟨1⟩ childText = true := by
  have hchars : TaskId.chars ⟨1⟩ <:+: (childTask.toJson fun _ => "").chars := by decide +kernel
  rw [mentions, childText, TaskMessage.encode, Json.toList_print]
  exact decide_eq_true hchars

/-- The parent was taken last, after a text that is no message and after its child:
acknowledging it settles it. -/
theorem ack_right_parent :
    ∃ r' entries, (steadyServer (fun _ => .ok "q")).eval (0 : Nat) (plainBroker.ack ⟨1⟩).run
        (heldStore ["oops", parentText, childText]) = some (.ok (), r') ∧
      r'.list? (plainBroker.keys.processing plainBroker.workerId) = .ok entries ∧
      AckRight familyCodec.decodeMessage ⟨1⟩ ["oops", parentText, childText] entries := by
  have hoops : ¬ mentions ⟨1⟩ "oops" = true := by decide +kernel
  have hown : FirstMentionOwn familyCodec.decodeMessage ⟨1⟩ ["oops", parentText, childText] := by
    refine .inl ⟨parentText, ?_, parentText_own⟩
    rw [List.find?_cons_of_neg hoops]
    exact List.find?_cons_of_pos (mentions_self (fun _ => "") parentTask)
  refine Exists.imp (fun r' => Exists.imp fun entries h => ⟨h.1, h.2.1, h.2.2.mpr hown⟩)
    (ack_right_iff (fun _ => .ok "q") 0 familyCodec
      (heldStore_lasting ["oops", parentText, childText])
      (heldStore_list ["oops", parentText, childText]))

/-- Acknowledging the parent removes the child, when the child was taken last. -/
theorem ack_removes_child :
    ∃ r', (steadyServer (fun _ => .ok "q")).eval (0 : Nat) (plainBroker.ack ⟨1⟩).run
        (heldStore [childText, parentText]) = some (.ok (), r') ∧
      r'.list? (plainBroker.keys.processing plainBroker.workerId) = .ok [parentText] ∧
      ¬ AckRight familyCodec.decodeMessage ⟨1⟩ [childText, parentText] [parentText] := by
  have hlasting := heldStore_lasting [childText, parentText]
  have hlist := heldStore_list [childText, parentText]
  have herase : [childText, parentText].eraseP (mentions ⟨1⟩) = [parentText] :=
    List.eraseP_cons_of_pos childText_mentions
  refine ⟨_, eval_ack hlasting hlist, ?_, ?_⟩
  · have hlater := (Keyspace.list?_advance_of_lasting hlasting
      (ackCommands ⟨1⟩ [childText, parentText] * 0)).trans hlist
    exact (list?_acked hlater).trans (congrArg Except.ok herase)
  · intro hright
    have hcount := hright.2 childText childText_foreign
    rw [List.count_cons_self] at hcount
    omega

end RedisBroker

end Kojin.Redis
