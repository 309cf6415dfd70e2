/-
  Redis/Chord.lean --- chords over the in-memory and the Redis result backend.

  Both backends keep a group as a chord needs it (`GroupBackend`), so the theorem
  about chords is one theorem about both.

  The total of a group is the number of its members as a `u32`.  The theorem is
  about chords for which the two agree.  With `2 ^ 32 + 1` members the total is 1
  and the first member to complete enqueues the callback.
-/
import Kojin.Core.Chord
import Kojin.Redis.ResultBackend

set_option autoImplicit false

namespace Kojin.Redis

open Kojin.Foundation Kojin.Core

/-- The result backends whose group operations are atomic. -/
inductive ChordBackend where
  | memory
  | redis (b : RedisResultBackend) (decode : RedisResultBackend.Decode)
      (queueOf : String → Except CommandError String)

namespace ChordBackend

/-- The backend, method by method. -/
def service : ChordBackend → Service resultBackendTrait
  | .memory => MemoryResultBackend.service
  | .redis b decode queueOf => b.service Int decode queueOf

/-- How it keeps groups. -/
def groups : (be : ChordBackend) → GroupBackend be.service
  | .memory => MemoryResultBackend.groupBackend
  | .redis b decode queueOf => b.groupBackend decode queueOf

/-- Workers and one client that submits a chord, over the in-memory broker. -/
def chordStart (be : ChordBackend) (codec : Codec) (s₀ : be.service.State)
    (sigs : List Signature) (callback : Signature) :
    (memorySystem be.service codec).Config :=
  memoryStart be.service codec s₀ [.chord (sigs.map .single) (.single callback)]

/-- The identifiers of a history are its own: see `Fresh`. -/
def OwnIds (be : ChordBackend) {codec : Codec}
    (tr : List (memorySystem be.service codec).Label) : Prop :=
  Fresh (fun group => ∃ u ∈ uuids tr, u.toText = group) (· ∈ drawn tr) tr

/-- Exactly-once chords, below `2 ^ 32` members. -/
theorem chord_exactly_once (be : ChordBackend) {codec : Codec} {s₀ : be.service.State}
    {sigs : List Signature} {callback : Signature}
    {tr : List (memorySystem be.service codec).Label} {c : (memorySystem be.service codec).Config}
    (hpos : 1 ≤ sigs.length) (hn : sigs.length < 2 ^ 32)
    (hreach : (memorySystem be.service codec).Reach (be.chordStart codec s₀ sigs callback) tr c)
    (hids : be.OwnIds tr) (huntouched : ∀ u ∈ uuids tr, be.groups.Untouched s₀ u.toText)
    (hfaithful : ∀ group, ∀ p ∈ successes group tr, be.groups.Faithful p.2)
    {m cb : TaskMessage} {group : TaskId} (hm : m ∈ sent tr) (hgroup : group ∈ uuids tr)
    (hmember : m.groupId = some group.toText) (hcallback : m.chordCallback = some cb) :
    ChordOnce sigs.length group.toText cb tr := by
  obtain ⟨rs, hroles, -⟩ := reach_roles hreach
  have hunderway := underway_of_reach hroles hpos hn hids (B := be.groups)
    (fun g ⟨u, hu, hg⟩ => hg ▸ huntouched u hu) hfaithful
  exact chordOnce_of_underway hunderway hm hmember ⟨group, hgroup, rfl⟩ hcallback

/-! ## One member more than the counter can hold -/

/-- Workers and a client over the in-memory backend. -/
abbrev memoryMachine : Machine memoryInterface := memorySystem (service .memory) blankCodec

/-- The first member of a chord, as the client sends it. -/
def firstMember (total : UInt32) : TaskMessage :=
  Canvas.member (TaskId.toText ⟨1⟩) (TaskId.toText ⟨2⟩) total
    (some (plainSignature.intoMessage ⟨0⟩ ⟨3⟩)) plainSignature ⟨0⟩ ⟨4⟩

/-- The client draws its identifiers, announces the group, makes the callback and
sends its first member. -/
def opening : List memoryMachine.Move :=
  [⟨1⟩, ⟨2⟩, ⟨0⟩, ⟨0⟩, ⟨3⟩, ⟨0⟩, ⟨4⟩, ⟨0⟩].map fun id => .run 0 ⟨drawing id, (), ()⟩

/-- The history of `opening`, for a group with the given total. -/
def openingHistory (total : UInt32) : List memoryMachine.Label :=
  [.call ⟨.runtime .newUuid, (⟨1⟩ : TaskId)⟩, .call ⟨.runtime .newUuid, (⟨2⟩ : TaskId)⟩,
    .call ⟨.backend (.initGroup (TaskId.toText ⟨2⟩) total), .ok ()⟩,
    .call ⟨.runtime .utcNow, (⟨0⟩ : DateTime)⟩, .call ⟨.runtime .newTaskId, (⟨3⟩ : TaskId)⟩,
    .call ⟨.runtime .utcNow, (⟨0⟩ : DateTime)⟩, .call ⟨.runtime .newTaskId, (⟨4⟩ : TaskId)⟩,
    .call ⟨.broker (.enqueue (firstMember total)), ()⟩]

/-- What the client leaves in the broker and the backend. -/
def openingState (total : UInt32) : MemoryBroker × MemoryResultBackend :=
  (MemoryBroker.new.enqueue (firstMember total),
    MemoryResultBackend.new.initGroup (TaskId.toText ⟨2⟩) total)

/-- The client opens every chord that way, whatever it has to send afterwards. -/
theorem opening_plays (rest : List Signature) : ∃ p,
    (chordStart .memory blankCodec MemoryResultBackend.new (plainSignature :: rest)
      plainSignature).playAll opening =
    some (openingHistory
      (Canvas.groupTotal (Canvas.flattenGroup ((plainSignature :: rest).map .single))),
      ⟨openingState
      (Canvas.groupTotal (Canvas.flattenGroup ((plainSignature :: rest).map .single))), [p]⟩) :=
  ⟨_, rfl⟩

/-- A worker takes the member and executes it to the end. -/
def execution : List memoryMachine.Move :=
  .env (.poll ⟨["t"], [], true⟩ ["q"]) :: List.replicate 10 (.run 0 ⟨stillRuntime, (), ()⟩)

/-- The pool without the client, in a group whose total is 1. -/
def executionStart : memoryMachine.Config := ⟨openingState 1, []⟩

theorem execution_plays : (executionStart.playAll execution).isSome = true := by
  decide +kernel

/-- The client sends its first member, and a worker executes it. -/
def chordHistory : List memoryMachine.Label :=
  openingHistory 1 ++ ((executionStart.playAll execution).get execution_plays).1

/-- Every chord whose total is 1 has this history. -/
theorem reach_chordHistory (rest : List Signature)
    (h : Canvas.groupTotal (plainSignature :: rest) = 1) :
    ∃ c, memoryMachine.Reach (chordStart .memory blankCodec MemoryResultBackend.new
      (plainSignature :: rest) plainSignature) chordHistory c := by
  obtain ⟨p, hopening⟩ := opening_plays rest
  rw [Canvas.flattenGroup_map_single, h] at hopening
  have hexecution := Machine.Config.reach_of_playAll (Option.some_get execution_plays).symm
  exact ⟨_, (Machine.Config.reach_of_playAll hopening).trans (hexecution.park p)⟩

/-- What a history of one client and its workers consists of. -/
def isOwn : memoryMachine.Label → Bool
  | .env (.enqueue _) => false
  | .env (.backend _ _) => false
  | .env (.poll w _) => w.hasBackend
  | .call _ => true

theorem ownIds_of_isOwn {tr : List memoryMachine.Label} (hown : tr.all isOwn = true)
    (hnodup : (drawn tr).Nodup) : OwnIds .memory tr where
  ownGroups u hu := ⟨u, hu, rfl⟩
  ownIds _ hi := hi
  nodup := hnodup
  producers _ hm := absurd (List.all_eq_true.mp hown _ hm) Bool.false_ne_true
  users _ _ _ hop := absurd (List.all_eq_true.mp hown _ hop) Bool.false_ne_true
  equipped _ _ hw := List.all_eq_true.mp hown _ hw

theorem chordHistory_ownIds : OwnIds .memory chordHistory :=
  ownIds_of_isOwn (by decide +kernel) (by decide +kernel)

/-- A client is about to submit a chord of two members. -/
def pairStart : memoryMachine.Config :=
  chordStart .memory blankCodec MemoryResultBackend.new [plainSignature, plainSignature]
    plainSignature

/-- The client sends both members; two workers take them and go on in turns, and the second
finds the group complete. -/
def pairMoves : List memoryMachine.Move :=
  opening ++ [⟨0⟩, ⟨5⟩, ⟨0⟩].map (fun id => .run 0 ⟨drawing id, (), ()⟩) ++
    List.replicate 2 (.env (.poll ⟨["t"], [], true⟩ ["q"])) ++
    (List.replicate 7 [.run 1 ⟨stillRuntime, (), ()⟩, .run 2 ⟨stillRuntime, (), ()⟩]).flatten ++
    List.replicate 3 (.run 2 ⟨stillRuntime, (), ()⟩)

theorem pairMoves_plays : (pairStart.playAll pairMoves).isSome = true := by
  decide +kernel

/-- The history of `pairMoves`. -/
def pairHistory : List memoryMachine.Label :=
  ((pairStart.playAll pairMoves).get pairMoves_plays).1

theorem pairHistory_ownIds : OwnIds .memory pairHistory :=
  ownIds_of_isOwn (by decide +kernel) (by decide +kernel)

/-- A chord of two members: its callback has been enqueued, once. -/
theorem chord_exactly_once_pair :
    (members (TaskId.toText ⟨2⟩) pairHistory).length = 2 ∧
      (callbacks ⟨3⟩ pairHistory).length = 1 ∧
      ∃ c, memoryMachine.Reach pairStart pairHistory c ∧
        ChordOnce 2 (TaskId.toText ⟨2⟩) (plainSignature.intoMessage ⟨0⟩ ⟨3⟩) pairHistory := by
  have hreach := Machine.Config.reach_of_get pairMoves_plays
  have hsent : firstMember 2 ∈ sent pairHistory := List.mem_of_mem_head? rfl
  have hdrawn : (⟨2⟩ : TaskId) ∈ uuids pairHistory := by decide +kernel
  have honce : ChordOnce [plainSignature, plainSignature].length (TaskId.toText ⟨2⟩)
      (plainSignature.intoMessage ⟨0⟩ ⟨3⟩) pairHistory :=
    chord_exactly_once .memory (by decide) (by decide) hreach pairHistory_ownIds
      (fun _ _ => rfl) (fun _ _ _ => trivial) hsent hdrawn rfl rfl
  exact ⟨by decide +kernel, by decide +kernel, _, hreach, honce⟩

/-- With `2 ^ 32 + 1` members the callback is enqueued after the first one. -/
theorem truncated_chord_fires_early :
    ∃ c, memoryMachine.Reach (chordStart .memory blankCodec MemoryResultBackend.new
        (plainSignature :: List.replicate (2 ^ 32) plainSignature) plainSignature)
        chordHistory c ∧
      OwnIds .memory chordHistory ∧
      (members (TaskId.toText ⟨2⟩) chordHistory).length = 1 ∧
      (callbacks ⟨3⟩ chordHistory).length = 1 ∧
      ¬ ChordOnce (plainSignature :: List.replicate (2 ^ 32) plainSignature).length
        (TaskId.toText ⟨2⟩) (plainSignature.intoMessage ⟨0⟩ ⟨3⟩) chordHistory := by
  have htotal : Canvas.groupTotal (plainSignature :: List.replicate (2 ^ 32) plainSignature) = 1 := by
    rw [Canvas.groupTotal, List.length_cons, List.length_replicate]
    rfl
  obtain ⟨c, hreach⟩ := reach_chordHistory _ htotal
  have hmembers : (members (TaskId.toText ⟨2⟩) chordHistory).length = 1 := by decide +kernel
  have hfired : (callbacks ⟨3⟩ chordHistory).length = 1 := by decide +kernel
  refine ⟨c, hreach, chordHistory_ownIds, hmembers, hfired, ?_⟩
  intro honce
  have hne : callbacks ⟨3⟩ chordHistory ≠ [] := by
    intro hnil
    rw [hnil] at hfired
    cases hfired
  have hall := (honce.after hne).1
  rw [hmembers, List.length_cons, List.length_replicate] at hall
  exact absurd hall (by decide)

end ChordBackend

end Kojin.Redis
