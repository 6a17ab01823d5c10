import Mathlib.Data.Int.Notation
import Intentd.KeyedTables

/-!
# Task notes

The notes of a workspace, some of which are tasks. Notes are told apart by their ids.
-/
namespace Intentd.TaskNotes

open List

inductive TaskStatus
  | notStarted | waiting | discussionNeeded | blocked | inProgress | reviewRequired | complete
  | cancelled
  deriving DecidableEq

structure TaskMetadata where
  status : TaskStatus := .notStarted
  peerOrder : Option ℤ := none
  dependsOn : List String := []
  conflictsWith : List String := []
  deriving DecidableEq

structure Note where
  id : String
  parentId : Option String
  createdAt : String
  task : Option TaskMetadata
  deriving DecidableEq

/-- The notes of a workspace, as the store lists them. -/
structure Workspace where
  notes : List Note
  nodup : (notes.map Note.id).Nodup

namespace Workspace

variable {w : Workspace} {m n : Note}

theorem eq_of_id (hm : m ∈ w.notes) (hn : n ∈ w.notes) (h : m.id = n.id) : m = n :=
  inj_on_of_nodup_map w.nodup hm hn h

end Workspace

end Intentd.TaskNotes
