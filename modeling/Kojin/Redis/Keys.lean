/-
  Redis/Keys.lean --- the names of the Redis keys (`kojin-redis`: `keys.rs`).

  Every key starts with the configured prefix and a segment that says what it is.
  The names of queues, workers, groups and so on follow unescaped, and may contain
  colons and segments.

      prefix ':' segment                    scheduled
      prefix ':' segment ':' name           queue, processing, dlq, msg, result, dedup
      prefix ':' segment ':' name ':' end   group, with total, completed, results

  The first segment has no colon of its own, and the three ends differ in their last
  character, so a key can be read back: `key_injective`.
-/
import Mathlib.Data.String.Basic

set_option autoImplicit false

namespace Kojin.Redis

/-- `KeyBuilder`. -/
structure KeyBuilder where
  keyPrefix : String
  deriving DecidableEq, Repr

namespace KeyBuilder

variable (kb : KeyBuilder)

/-- `KeyBuilder::queue`. -/
def queue (name : String) : String := kb.keyPrefix ++ ":queue:" ++ name

/-- `KeyBuilder::processing`. -/
def processing (workerId : String) : String := kb.keyPrefix ++ ":processing:" ++ workerId

/-- `KeyBuilder::scheduled`. -/
def scheduled : String := kb.keyPrefix ++ ":scheduled"

/-- `KeyBuilder::dlq`. -/
def dlq (name : String) : String := kb.keyPrefix ++ ":dlq:" ++ name

/-- `KeyBuilder::message`. -/
def message (id : String) : String := kb.keyPrefix ++ ":msg:" ++ id

/-- `KeyBuilder::result`. -/
def result (id : String) : String := kb.keyPrefix ++ ":result:" ++ id

/-- `KeyBuilder::group_total`. -/
def groupTotal (group : String) : String := kb.keyPrefix ++ ":group:" ++ group ++ ":total"

/-- `KeyBuilder::group_completed`. -/
def groupCompleted (group : String) : String := kb.keyPrefix ++ ":group:" ++ group ++ ":completed"

/-- `KeyBuilder::group_results`. -/
def groupResults (group : String) : String := kb.keyPrefix ++ ":group:" ++ group ++ ":results"

/-- `KeyBuilder::dedup`. -/
def dedup (key : String) : String := kb.keyPrefix ++ ":dedup:" ++ key

/-! ## Keys apart -/

/-- Keys are compared behind their common prefix. -/
theorem apart {a b : String} (h : a.toList ≠ b.toList) :
    kb.keyPrefix ++ a ≠ kb.keyPrefix ++ b := by
  intro heq
  exact h (congrArg String.toList ((String.append_right_inj _).mp heq))

theorem queue_ne_processing (name workerId : String) :
    kb.queue name ≠ kb.processing workerId := by
  rw [queue, processing, String.append_assoc, String.append_assoc]
  exact kb.apart (by simp)

theorem queue_ne_dedup (name key : String) : kb.queue name ≠ kb.dedup key := by
  rw [queue, dedup, String.append_assoc, String.append_assoc]
  exact kb.apart (by simp)

theorem dedup_ne_processing (key workerId : String) : kb.dedup key ≠ kb.processing workerId := by
  rw [dedup, processing, String.append_assoc, String.append_assoc]
  exact kb.apart (by simp)

theorem dlq_ne_processing (name workerId : String) : kb.dlq name ≠ kb.processing workerId := by
  rw [dlq, processing, String.append_assoc, String.append_assoc]
  exact kb.apart (by simp)

theorem dlq_ne_dedup (name key : String) : kb.dlq name ≠ kb.dedup key := by
  rw [dlq, dedup, String.append_assoc, String.append_assoc]
  exact kb.apart (by simp)

theorem queue_ne_scheduled (name : String) : kb.queue name ≠ kb.scheduled := by
  rw [queue, scheduled, String.append_assoc]
  exact kb.apart (by simp)

theorem queue_ne_dlq (name name' : String) : kb.queue name ≠ kb.dlq name' := by
  rw [queue, dlq, String.append_assoc, String.append_assoc]
  exact kb.apart (by simp)

theorem queue_inj {name name' : String} (h : kb.queue name = kb.queue name') : name = name' :=
  (String.append_right_inj _).mp h

theorem dlq_inj {name name' : String} (h : kb.dlq name = kb.dlq name') : name = name' :=
  (String.append_right_inj _).mp h

theorem dedup_inj {key key' : String} (h : kb.dedup key = kb.dedup key') : key = key' :=
  (String.append_right_inj _).mp h

/-- Two keys that end in different characters. -/
theorem ne_of_last {a b c d : String} (h : b.toList.getLast? ≠ d.toList.getLast?)
    (hb : b.toList ≠ []) (hd : d.toList ≠ []) : a ++ b ≠ c ++ d := by
  intro heq
  have hlist := congrArg (fun s => s.toList.getLast?) heq
  simp only [String.toList_append, List.getLast?_append_of_ne_nil _ hb,
    List.getLast?_append_of_ne_nil _ hd] at hlist
  exact h hlist

theorem groupCompleted_ne_groupResults (g g' : String) :
    kb.groupCompleted g ≠ kb.groupResults g' :=
  ne_of_last (by decide) (by decide) (by decide)

theorem groupCompleted_ne_groupTotal (g g' : String) :
    kb.groupCompleted g ≠ kb.groupTotal g' :=
  ne_of_last (by decide) (by decide) (by decide)

theorem groupResults_ne_groupTotal (g g' : String) : kb.groupResults g ≠ kb.groupTotal g' :=
  ne_of_last (by decide) (by decide) (by decide)

theorem groupCompleted_ne_result (g id : String) : kb.groupCompleted g ≠ kb.result id := by
  rw [groupCompleted, result, String.append_assoc, String.append_assoc, String.append_assoc]
  exact kb.apart (by simp)

theorem groupResults_ne_result (g id : String) : kb.groupResults g ≠ kb.result id := by
  rw [groupResults, result, String.append_assoc, String.append_assoc, String.append_assoc]
  exact kb.apart (by simp)

theorem groupCompleted_inj {g g' : String} (h : kb.groupCompleted g = kb.groupCompleted g') :
    g = g' :=
  (String.append_right_inj _).mp ((String.append_left_inj _).mp h)

theorem groupResults_inj {g g' : String} (h : kb.groupResults g = kb.groupResults g') :
    g = g' :=
  (String.append_right_inj _).mp ((String.append_left_inj _).mp h)

end KeyBuilder

/-! ## The namespace -/

/-- What a key stands for. -/
inductive KeyObject where
  | queue (name : String)
  | processing (workerId : String)
  | scheduled
  | dlq (name : String)
  | message (id : String)
  | result (id : String)
  | groupTotal (group : String)
  | groupCompleted (group : String)
  | groupResults (group : String)
  | dedup (key : String)

/-- The key of an object. -/
def KeyBuilder.key (kb : KeyBuilder) : KeyObject → String
  | .queue name => kb.queue name
  | .processing workerId => kb.processing workerId
  | .scheduled => kb.scheduled
  | .dlq name => kb.dlq name
  | .message id => kb.message id
  | .result id => kb.result id
  | .groupTotal group => kb.groupTotal group
  | .groupCompleted group => kb.groupCompleted group
  | .groupResults group => kb.groupResults group
  | .dedup key => kb.dedup key

namespace KeyObject

/-- The segment behind the prefix. -/
def segment : KeyObject → String
  | queue _ => "queue"
  | processing _ => "processing"
  | scheduled => "scheduled"
  | dlq _ => "dlq"
  | message _ => "msg"
  | result _ => "result"
  | groupTotal _ => "group"
  | groupCompleted _ => "group"
  | groupResults _ => "group"
  | dedup _ => "dedup"

/-- What follows the segment. -/
def rest : KeyObject → String
  | queue name => ":" ++ name
  | processing workerId => ":" ++ workerId
  | scheduled => ""
  | dlq name => ":" ++ name
  | message id => ":" ++ id
  | result id => ":" ++ id
  | groupTotal group => ":" ++ group ++ ":total"
  | groupCompleted group => ":" ++ group ++ ":completed"
  | groupResults group => ":" ++ group ++ ":results"
  | dedup key => ":" ++ key

/-- The text of a key. -/
theorem toList_key (kb : KeyBuilder) (x : KeyObject) :
    (kb.key x).toList = kb.keyPrefix.toList ++ ':' :: (x.segment.toList ++ x.rest.toList) := by
  cases x <;>
    simp [KeyBuilder.key, segment, rest, KeyBuilder.queue, KeyBuilder.processing,
      KeyBuilder.scheduled, KeyBuilder.dlq, KeyBuilder.message, KeyBuilder.result,
      KeyBuilder.groupTotal, KeyBuilder.groupCompleted, KeyBuilder.groupResults, KeyBuilder.dedup]

/-- The segment ends at the next colon. -/
theorem segment_of_text (x : KeyObject) :
    (x.segment.toList ++ x.rest.toList).takeWhile (· ≠ ':') = x.segment.toList := by
  cases x <;> simp [segment, rest]

/-- Objects with the same segment and the same text behind it are the same. -/
theorem eq_of_rest {x y : KeyObject} (hsegment : x.segment = y.segment) (hrest : x.rest = y.rest) :
    x = y := by
  have hname : ∀ {a b : String}, ":" ++ a = ":" ++ b → a = b :=
    fun h => (String.append_right_inj _).mp h
  have hend : ∀ {a b c : String}, a ++ c = b ++ c → a = b :=
    fun h => (String.append_left_inj _).mp h
  cases x with
  | queue name =>
      cases y with
      | queue name' => rw [hname hrest]
      | _ => simp [segment] at hsegment
  | processing workerId =>
      cases y with
      | processing workerId' => rw [hname hrest]
      | _ => simp [segment] at hsegment
  | scheduled =>
      cases y with
      | scheduled => rfl
      | _ => simp [segment] at hsegment
  | dlq name =>
      cases y with
      | dlq name' => rw [hname hrest]
      | _ => simp [segment] at hsegment
  | message id =>
      cases y with
      | message id' => rw [hname hrest]
      | _ => simp [segment] at hsegment
  | result id =>
      cases y with
      | result id' => rw [hname hrest]
      | _ => simp [segment] at hsegment
  | groupTotal group =>
      cases y with
      | groupTotal group' => rw [hname (hend hrest)]
      | groupCompleted group' =>
          exact absurd hrest (KeyBuilder.ne_of_last (by decide) (by decide) (by decide))
      | groupResults group' =>
          exact absurd hrest (KeyBuilder.ne_of_last (by decide) (by decide) (by decide))
      | _ => simp [segment] at hsegment
  | groupCompleted group =>
      cases y with
      | groupCompleted group' => rw [hname (hend hrest)]
      | groupTotal group' =>
          exact absurd hrest (KeyBuilder.ne_of_last (by decide) (by decide) (by decide))
      | groupResults group' =>
          exact absurd hrest (KeyBuilder.ne_of_last (by decide) (by decide) (by decide))
      | _ => simp [segment] at hsegment
  | groupResults group =>
      cases y with
      | groupResults group' => rw [hname (hend hrest)]
      | groupTotal group' =>
          exact absurd hrest (KeyBuilder.ne_of_last (by decide) (by decide) (by decide))
      | groupCompleted group' =>
          exact absurd hrest (KeyBuilder.ne_of_last (by decide) (by decide) (by decide))
      | _ => simp [segment] at hsegment
  | dedup key =>
      cases y with
      | dedup key' => rw [hname hrest]
      | _ => simp [segment] at hsegment

end KeyObject

/-- No two objects share a key, whatever the prefix and the names. -/
theorem key_injective (kb : KeyBuilder) : Function.Injective kb.key := by
  intro x y h
  have htext := congrArg String.toList h
  rw [KeyObject.toList_key, KeyObject.toList_key] at htext
  have hbehind := List.tail_eq_of_cons_eq (List.append_cancel_left htext)
  have hsegment : x.segment.toList = y.segment.toList := by
    rw [← x.segment_of_text, ← y.segment_of_text, hbehind]
  rw [hsegment] at hbehind
  exact KeyObject.eq_of_rest (String.toList_inj.mp hsegment)
    (String.toList_inj.mp (List.append_cancel_left hbehind))

/-- Names that look like ends. -/
theorem key_injective_colons :
    (KeyBuilder.mk "kojin").key (.groupTotal "a:completed") ≠
      (KeyBuilder.mk "kojin").key (.groupCompleted "a:total") :=
  fun h => by cases key_injective _ h

end Kojin.Redis
