/-
  Core/QueueWeight.lean --- weighted queues (`kojin-core`: `queue_weight.rs`).

  `build_weighted_order` writes the name of a queue down as often as its weight says.  A
  call of `dequeue` scans such a list from its beginning and stops at the first queue that
  is not empty:

      order     high high high high high high low
      call 1    high
      ...       high
      call 7    high

  So a repetition is never reached, and while the first queue has messages it is the only
  one that is served.
-/
import Kojin.Core.MemorySystem

set_option autoImplicit false

namespace Kojin.Core

/-! ## Weights -/

/-- `QueueWeight`. -/
inductive QueueWeight where
  | high
  | medium
  | low
  deriving DecidableEq, Repr

/-- `QueueWeight::weight`. -/
def QueueWeight.weight : QueueWeight → UInt32
  | .high => 6
  | .medium => 3
  | .low => 1

/-- `WeightedQueue`. -/
structure WeightedQueue where
  name : String
  weight : QueueWeight
  deriving DecidableEq, Repr

/-- `build_weighted_order`. -/
def buildWeightedOrder : List WeightedQueue → List String
  | [] => []
  | wq :: wqs => List.replicate wq.weight.weight.toNat wq.name ++ buildWeightedOrder wqs

/-- The sum of the weights. -/
def totalWeight (queues : List WeightedQueue) : Nat :=
  (queues.map fun wq => wq.weight.weight.toNat).sum

theorem QueueWeight.weight_pos (w : QueueWeight) : 0 < w.weight.toNat := by
  cases w <;> decide

/-- The order begins with the first queue. -/
theorem head_buildWeightedOrder (wq : WeightedQueue) (wqs : List WeightedQueue) :
    ∃ order, buildWeightedOrder (wq :: wqs) = wq.name :: order := by
  obtain ⟨n, hn⟩ := Nat.exists_eq_add_of_lt wq.weight.weight_pos
  refine ⟨List.replicate n wq.name ++ buildWeightedOrder wqs, ?_⟩
  rw [buildWeightedOrder, hn, Nat.zero_add, List.replicate_succ, List.cons_append]

namespace MemoryBroker

variable {b b' b'' : MemoryBroker} {names order : List String} {m : TaskMessage}

/-! ## Calls while no queue is empty -/

/-- None of the queues is empty. -/
def AllNonempty (names : List String) (b : MemoryBroker) : Prop :=
  ∀ name ∈ names, 0 < b.queueLen name

/-- What others do between two calls: a section of theirs, or a scan. -/
inductive Meanwhile : MemoryBroker → MemoryBroker → Prop where
  | section (b : MemoryBroker) (s : Section) : Meanwhile b (b.run s)
  | scan {b b' : MemoryBroker} {others : List String} {m : TaskMessage} :
      b.tryDequeue others = some (m, b') → Meanwhile b b'

/-- Calls of `dequeue order`, one after another, while none of the queues `names` is
empty; `served` are the queues that gave up their front messages. -/
inductive Calls (names order : List String) (b : MemoryBroker) :
    List String → MemoryBroker → Prop where
  | start : AllNonempty names b → Calls names order b [] b
  | meanwhile {served : List String} {b' b'' : MemoryBroker} :
      Calls names order b served b' → Meanwhile b' b'' → AllNonempty names b'' →
      Calls names order b served b''
  | call {served : List String} {b' b'' : MemoryBroker} {m : TaskMessage} {name : String}
      {ms : List TaskMessage} :
      Calls names order b served b' → b'.tryDequeue order = some (m, b'') →
      b'.queues.lookup name = some (m :: ms) → b''.queues.lookup name = some ms →
      AllNonempty names b'' → Calls names order b (served ++ [name]) b''

/-- In as many calls as the weights add up to, every queue is served by its weight. -/
def ServesByWeight (queues : List WeightedQueue) : Prop :=
  ∀ b b' served, Calls (queues.map (·.name)) (buildWeightedOrder queues) b served b' →
    served.length = totalWeight queues →
    ∀ wq ∈ queues, served.count wq.name = wq.weight.weight.toNat

theorem Calls.allNonempty {served : List String} (h : Calls names order b served b') :
    AllNonempty names b' := by
  cases h <;> assumption

theorem queueLen_pos_iff {name : String} :
    0 < b.queueLen name ↔ ∃ m ms, b.queues.lookup name = some (m :: ms) := by
  rw [queueLen]
  constructor
  · intro hpos
    cases hlookup : b.queues.lookup name with
    | none => simp [hlookup] at hpos
    | some ms =>
        cases ms with
        | nil => simp [hlookup] at hpos
        | cons m ms => exact ⟨m, ms, rfl⟩
  · rintro ⟨m, ms, hlookup⟩
    simp [hlookup]

/-- A scan whose first queue is not empty serves that one. -/
theorem tryDequeue_front {name : String} {ms : List TaskMessage}
    (h : b.queues.lookup name = some (m :: ms)) :
    b.tryDequeue (name :: order) = some (m, { b with
      queues := b.queues.insert name ms
      processing := b.processing.insert m.id m }) := by
  rw [tryDequeue, h]

/-- The queue that gave up its front message is the one the scan stopped at. -/
theorem served_first {name first : String} {ms : List TaskMessage}
    (hpos : 0 < b.queueLen first) (hscan : b.tryDequeue (first :: order) = some (m, b'))
    (hbefore : b.queues.lookup name = some (m :: ms)) (hafter : b'.queues.lookup name = some ms) :
    name = first := by
  obtain ⟨m', ms', hfirst⟩ := queueLen_pos_iff.mp hpos
  rw [tryDequeue_front hfirst] at hscan
  cases hscan
  by_contra hne
  rw [AList.lookup_insert_ne hne, hbefore] at hafter
  exact absurd (Option.some.inj hafter) (List.cons_ne_self m ms)

/-- Every call serves the first queue. -/
theorem served_of_calls {first : String} {served : List String} (hmem : first ∈ names)
    (h : Calls names (first :: order) b served b') :
    served = List.replicate served.length first := by
  induction h with
  | start => rfl
  | meanwhile _ _ _ ih => exact ih
  | call hcalls hscan hbefore hafter _ ih =>
      rw [served_first (hcalls.allNonempty first hmem) hscan hbefore hafter,
        List.length_append, List.length_singleton, List.replicate_add, ← ih]
      rfl

/-! ## There are such calls -/

theorem queueLen_enqueue_self (b : MemoryBroker) (m : TaskMessage) :
    (b.enqueue m).queueLen m.queue = b.queueLen m.queue + 1 := by
  rw [queueLen, queueLen, enqueue, AList.lookup_insert]
  cases b.queues.lookup m.queue with
  | none => rfl
  | some ms => exact List.length_append

theorem queueLen_enqueue_le (b : MemoryBroker) (m : TaskMessage) (name : String) :
    b.queueLen name ≤ (b.enqueue m).queueLen name := by
  by_cases hname : name = m.queue
  · rw [hname, queueLen_enqueue_self]
    exact Nat.le_succ _
  · rw [queueLen, queueLen, enqueue, AList.lookup_insert_ne hname]

/-- A message of the given queue. -/
def messageOf (name : String) : TaskMessage := { plainMessage ⟨1⟩ with queue := name }

/-- A broker with a message in every queue. -/
theorem exists_allNonempty (names : List String) : ∃ b, AllNonempty names b := by
  induction names with
  | nil => exact ⟨new, fun _ h => by cases h⟩
  | cons name names ih =>
      obtain ⟨b, hb⟩ := ih
      refine ⟨b.enqueue (messageOf name), ?_⟩
      intro name' hmem
      rcases List.mem_cons.mp hmem with rfl | hrest
      · have hlen := queueLen_enqueue_self b (messageOf name')
        exact lt_of_lt_of_eq (Nat.succ_pos _) hlen.symm
      · exact lt_of_lt_of_le (hb name' hrest) (queueLen_enqueue_le b _ name')

/-- One more call: the first queue is given a message first. -/
theorem Calls.again {first : String} {served : List String}
    (h : Calls names (first :: order) b served b') (hmem : first ∈ names) :
    ∃ b'', Calls names (first :: order) b (served ++ [first]) b'' := by
  have hfull : AllNonempty names (b'.enqueue (messageOf first)) := fun name hname =>
    lt_of_lt_of_le (h.allNonempty name hname) (queueLen_enqueue_le b' _ name)
  have hgiven : Calls names (first :: order) b served (b'.enqueue (messageOf first)) :=
    h.meanwhile (.section b' (.enqueue (messageOf first))) hfull
  obtain ⟨m, ms, hlookup⟩ := queueLen_pos_iff.mp (hfull first hmem)
  refine ⟨_, hgiven.call (tryDequeue_front hlookup) hlookup (AList.lookup_insert _) ?_⟩
  intro name hname
  by_cases hfirst : name = first
  · -- it had a message before it was given one
    subst hfirst
    have hlen := queueLen_enqueue_self b' (messageOf name)
    have hpos := h.allNonempty name hname
    have hbefore : (b'.enqueue (messageOf name)).queueLen name = ms.length + 1 := by
      rw [queueLen, hlookup]
      rfl
    rw [queueLen, AList.lookup_insert]
    have heq : ms.length + 1 = b'.queueLen name + 1 := hbefore.symm.trans hlen
    show 0 < ms.length
    omega
  · rw [queueLen, AList.lookup_insert_ne hfirst]
    exact hfull name hname

theorem exists_calls {first : String} (hmem : first ∈ names) (order : List String) (n : Nat) :
    ∃ b served b', Calls names (first :: order) b served b' ∧ served.length = n := by
  obtain ⟨b, hb⟩ := exists_allNonempty names
  refine ⟨b, ?_⟩
  induction n with
  | zero => exact ⟨[], b, .start hb, rfl⟩
  | succ n ih =>
      obtain ⟨served, b', hcalls, hlength⟩ := ih
      obtain ⟨b'', hagain⟩ := hcalls.again hmem
      exact ⟨_, b'', hagain, by rw [List.length_append, hlength, List.length_singleton]⟩

/-- When every queue is served by its weight: when there is at most one queue. -/
theorem serves_by_weight_iff {queues : List WeightedQueue}
    (hnames : (queues.map (·.name)).Nodup) : ServesByWeight queues ↔ queues.length ≤ 1 := by
  cases queues with
  | nil => exact iff_of_true (fun _ _ _ _ _ wq hmem => by cases hmem) (Nat.zero_le 1)
  | cons wq wqs =>
      obtain ⟨order, horder⟩ := head_buildWeightedOrder wq wqs
      have hfirst : wq.name ∈ (wq :: wqs).map (·.name) := List.mem_cons_self
      constructor
      · intro hserves
        by_contra hlong
        -- the second queue gets nothing
        obtain ⟨second, hsecond⟩ : ∃ second, second ∈ wqs := by
          cases wqs with
          | nil => exact absurd (Nat.le_refl 1) hlong
          | cons second _ => exact ⟨second, List.mem_cons_self⟩
        obtain ⟨b, served, b', hcalls, hlength⟩ :=
          exists_calls hfirst order (totalWeight (wq :: wqs))
        rw [← horder] at hcalls
        have hcount := hserves b b' served hcalls hlength second (List.mem_cons_of_mem _ hsecond)
        rw [horder] at hcalls
        have hne : wq.name ≠ second.name := fun heq =>
          (List.nodup_cons.mp hnames).1 (List.mem_map.mpr ⟨second, hsecond, heq.symm⟩)
        rw [served_of_calls hfirst hcalls, List.count_replicate,
          if_neg (by simpa using hne)] at hcount
        exact absurd hcount (Nat.ne_of_lt second.weight.weight_pos)
      · intro hshort b b' served hcalls hlength wq' hmem
        obtain rfl : wqs = [] := List.length_eq_zero_iff.mp (by simpa using hshort)
        obtain rfl : wq' = wq := by simpa using hmem
        rw [horder] at hcalls
        rw [served_of_calls hfirst hcalls, List.count_replicate_self, hlength]
        simp [totalWeight]

/-- One queue is served by its weight. -/
theorem serves_by_weight_one : ServesByWeight [⟨"high", .high⟩] :=
  (serves_by_weight_iff (by decide)).mpr (by decide)

/-- Of two queues the second gets nothing: the weights are 6 and 1, and all seven
calls take a message from the first. -/
theorem second_queue_starves :
    (∃ b b', Calls ["high", "low"] (buildWeightedOrder [⟨"high", .high⟩, ⟨"low", .low⟩]) b
      (List.replicate 7 "high") b') ∧
    totalWeight [⟨"high", .high⟩, ⟨"low", .low⟩] = 7 ∧
    (List.replicate 7 "high").count "low" ≠ QueueWeight.low.weight.toNat ∧
    ¬ ServesByWeight [⟨"high", .high⟩, ⟨"low", .low⟩] := by
  have hfirst : "high" ∈ ["high", "low"] := List.mem_cons_self
  obtain ⟨order, horder⟩ := head_buildWeightedOrder ⟨"high", .high⟩ [⟨"low", .low⟩]
  obtain ⟨b, served, b', hcalls, hlength⟩ := exists_calls hfirst order 7
  have hserved := served_of_calls hfirst hcalls
  rw [hlength] at hserved
  rw [hserved, ← horder] at hcalls
  refine ⟨⟨b, b', hcalls⟩, by decide, by decide, ?_⟩
  intro hserves
  exact absurd (hserves b b' _ hcalls (by decide) ⟨"low", .low⟩ (by decide)) (by decide)

end MemoryBroker

end Kojin.Core
