/-
  Core/ContentDedup.lean --- the deduplication key made of a message's content
  (`kojin-core`: `message.rs`).

  The key is the hash of the task's name, a colon and the compact text of the payload.  The
  name may have colons and quotes, and so may the payload.
-/
import Kojin.Core.Message
import Kojin.Foundation.JsonUnique

set_option autoImplicit false

namespace Kojin.Core

open Kojin.Foundation

/-! ## The key -/

/-- `fnv1a_64`. -/
def fnv1a64 (data : ByteArray) : UInt64 :=
  data.data.toList.foldl (fun hash byte => (hash ^^^ byte.toUInt64) * 0x100000001b3)
    0xcbf29ce484222325

example : fnv1a64 "a".toUTF8 = 0xaf63dc4c8601ec8c := by decide

/-- `{:x}` of a `u64`. -/
def lowerHex (n : UInt64) : String := String.ofList (Nat.toDigits 16 n.toNat)

theorem lowerHex_inj {m n : UInt64} (h : lowerHex m = lowerHex n) : m = n := by
  have hdigits : Nat.toDigits 16 m.toNat = Nat.toDigits 16 n.toNat := String.ofList_injective h
  exact UInt64.toNat_inj.mp (toDigits_inj (by decide) (by decide) hdigits)

/-- The text that is hashed. -/
def contentText (taskName : String) (payload : Json) : String :=
  taskName ++ ":" ++ payload.print

namespace TaskMessage

/-- `TaskMessage::with_content_dedup`. -/
def withContentDedup (m : TaskMessage) : TaskMessage :=
  let input := contentText m.taskName m.payload
  { m with dedupKey := some ("content:" ++ lowerHex (fnv1a64 input.toUTF8)) }

end TaskMessage

/-! ## What is hashed -/

/-- The text that is hashed has one name and one printed payload. -/
theorem contentText_inj {n₁ n₂ : String} {p₁ p₂ : Json}
    (h : (contentText n₁ p₁).toUTF8 = (contentText n₂ p₂).toUTF8) :
    n₁ = n₂ ∧ p₁.print = p₂.print := by
  have hchars : ∀ n p, (contentText n p).toList = n.toList ++ ':' :: p.chars := by
    intro n p
    rw [contentText, String.toList_append, String.toList_append, Json.toList_print,
      List.append_assoc]
    rfl
  have htext : contentText n₁ p₁ = contentText n₂ p₂ := String.toByteArray_inj.mp h
  have heq : n₁.toList ++ ':' :: p₁.chars = n₂.toList ++ ':' :: p₂.chars := by
    rw [← hchars, htext, hchars]
  obtain ⟨hname, hpayload⟩ :=
    TextPlace.Returns.append_colon_inj (returns_chars p₁) (returns_chars p₂) heq
  exact ⟨String.toList_inj.mp hname, congrArg String.ofList hpayload⟩

/-- Two inputs of one hash. -/
def Collide (data data' : ByteArray) : Prop := data ≠ data' ∧ fnv1a64 data = fnv1a64 data'

/-- The keys are equal exactly if the hashes are. -/
theorem dedupKey_eq_iff {m₁ m₂ : TaskMessage} :
    m₁.withContentDedup.dedupKey = m₂.withContentDedup.dedupKey ↔
      fnv1a64 (contentText m₁.taskName m₁.payload).toUTF8 =
        fnv1a64 (contentText m₂.taskName m₂.payload).toUTF8 := by
  constructor
  · intro hkey
    exact lowerHex_inj (String.append_right_inj _ |>.mp (Option.some.inj hkey))
  · intro hhash
    rw [TaskMessage.withContentDedup, TaskMessage.withContentDedup, hhash]

/-- The content key is unambiguous: the text that is hashed has one name and one
payload, so messages of different names or payloads share a key only where the hash
function collides on their texts. -/
theorem content_dedup_unambiguous :
    (∀ (n₁ n₂ : String) (p₁ p₂ : Json),
      (contentText n₁ p₁).toUTF8 = (contentText n₂ p₂).toUTF8 ↔
        n₁ = n₂ ∧ p₁.print = p₂.print) ∧
    ∀ m₁ m₂ : TaskMessage,
      m₁.withContentDedup.dedupKey = m₂.withContentDedup.dedupKey ↔
        (m₁.taskName = m₂.taskName ∧ m₁.payload = m₂.payload) ∨
          Collide (contentText m₁.taskName m₁.payload).toUTF8
            (contentText m₂.taskName m₂.payload).toUTF8 := by
  refine ⟨fun n₁ n₂ p₁ p₂ => ⟨contentText_inj, ?_⟩, fun m₁ m₂ => ?_⟩
  · rintro ⟨hname, hprint⟩
    rw [contentText, contentText, hname, hprint]
  rw [dedupKey_eq_iff]
  constructor
  · intro hhash
    by_cases htext : (contentText m₁.taskName m₁.payload).toUTF8 =
        (contentText m₂.taskName m₂.payload).toUTF8
    · obtain ⟨hname, hprint⟩ := contentText_inj htext
      exact .inl ⟨hname, Json.print_inj hprint⟩
    · exact .inr ⟨htext, hhash⟩
  · rintro (⟨hname, hpayload⟩ | ⟨-, hhash⟩)
    · rw [hname, hpayload]
    · exact hhash

end Kojin.Core
