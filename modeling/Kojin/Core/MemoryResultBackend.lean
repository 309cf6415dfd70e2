/-
  Core/MemoryResultBackend.lean --- the in-memory result backend (`kojin-core`:
  `memory_result_backend.rs`).

  Two maps, each behind its own mutex.  Every method locks one of them once, so a
  method is one step.
-/
import Kojin.Core.System

set_option autoImplicit false

namespace Kojin.Core

open Kojin.Foundation

/-- `GroupState`. -/
structure GroupState where
  total : UInt32
  completed : UInt32
  results : List Json

/-- `MemoryResultBackend`. -/
structure MemoryResultBackend where
  results : Table String Json
  groups : Table String GroupState

namespace MemoryResultBackend

/-- `MemoryResultBackend::new`. -/
def new : MemoryResultBackend := ⟨∅, ∅⟩

/-- `store`. -/
def store (s : MemoryResultBackend) (id : TaskId) (result : Json) : MemoryResultBackend :=
  { s with results := s.results.insert id.toText result }

/-- `init_group`: any earlier state of the group is overwritten. -/
def initGroup (s : MemoryResultBackend) (group : String) (total : UInt32) :
    MemoryResultBackend :=
  { s with groups := s.groups.insert group ⟨total, 0, []⟩ }

/-- The error for a group that was never initialised. -/
def groupNotFound (group : String) : KojinError := .resultBackend ("group not found: " ++ group)

/-- `complete_group_member`.  The counter is a `u32`. -/
def completeGroupMember (s : MemoryResultBackend) (group : String) (result : Json) :
    TaskResult UInt32 × MemoryResultBackend :=
  match s.groups.lookup group with
  | none => (.error (groupNotFound group), s)
  | some g =>
      let g' : GroupState :=
        { g with completed := g.completed + 1, results := g.results ++ [result] }
      (.ok g'.completed, { s with groups := s.groups.insert group g' })

/-- `get_group_results`. -/
def getGroupResults (s : MemoryResultBackend) (group : String) : TaskResult (List Json) :=
  match s.groups.lookup group with
  | none => .error (groupNotFound group)
  | some g => .ok g.results

/-- Every method is one lock-protected step and always answers. -/
def service : Service resultBackendTrait where
  State := MemoryResultBackend
  Oracle := Unit
  respond _ s
    | .store id result => some (.ok (), s.store id result)
    | .initGroup group total => some (.ok (), s.initGroup group total)
    | .completeGroupMember group _ result => some (s.completeGroupMember group result)
    | .getGroupResults group => some (s.getGroupResults group, s)

end MemoryResultBackend

end Kojin.Core
