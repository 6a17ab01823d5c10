import Intentd.KeyedTables

/-!
# Delegation groups

A parent that delegates and waits for all children has one group open. A delegation finds or
opens it and enrols its child in a second step; the end of the parent's turn seals it; each
child's completion or deletion is recorded in it; and when all are, one delivery claims it,
wakes the parent, settles it in the store and removes it. A wake that fails gives the claim
back. A child or a whole group may be cancelled meanwhile.

The groups live in a registry, under one lock. What is to be stored goes through a lane, a
queue of writes that one worker executes in order; the writes of a critical section are
queued inside it. Restore passes read the stored groups, and add those that the registry
does not have in a later step. A restart drains the lane and reads everything again.

Store writes succeed and parents stay. The watches that carry completions to the groups are
not in the model: any child may be recorded at any time. Besides the state there is what
happened so far: the ids that were given, those of groups that were removed, and everything
that was recorded.
-/
namespace Intentd.DelegationGroups
open KeyedTables

structure Event where
  id : String
  eventType : String
  deriving DecidableEq, Repr

structure DelegationGroup where
  groupId : String
  workspaceId : String
  parentAgentId : String
  expectedAgentIds : List String
  completedAgentIds : List String
  deletedAgentIds : List String
  sealed : Bool
  delivered : Bool
  eventSummaries : List String
  rawEvents : List Event
  deriving DecidableEq, Repr

open DelegationGroup

namespace DelegationGroup

variable (g : DelegationGroup)
variable (child : String)

def isRecorded : Bool :=
  child ∈ g.completedAgentIds || child ∈ g.deletedAgentIds

def isGroupComplete : Bool :=
  !g.expectedAgentIds.isEmpty && g.expectedAgentIds.all g.isRecorded

/-- Whether it still takes children. -/
def isOpen (parent : String) : Bool := g.parentAgentId = parent && !g.sealed && !g.delivered

def enroll : DelegationGroup :=
  if child ∈ g.expectedAgentIds then g
  else { g with expectedAgentIds := g.expectedAgentIds ++ [child] }

def record (deleted : Bool) (summary : String) (event : Event) : DelegationGroup :=
  { g with
    completedAgentIds := if deleted then g.completedAgentIds else g.completedAgentIds ++ [child]
    deletedAgentIds := if deleted then g.deletedAgentIds ++ [child] else g.deletedAgentIds
    eventSummaries := g.eventSummaries ++ [summary]
    rawEvents := g.rawEvents ++ [event] }

def withoutChild : DelegationGroup :=
  { g with
    expectedAgentIds := g.expectedAgentIds.filter (· ≠ child)
    completedAgentIds := g.completedAgentIds.filter (· ≠ child)
    deletedAgentIds := g.deletedAgentIds.filter (· ≠ child) }

end DelegationGroup

/-- A write in the lane. A settlement belongs to a delivery, which waits for it. -/
inductive GroupPersistOp where
  | upsert (g : DelegationGroup)
  | delete (groupId : String)
  | settle (groupId : String) (delivery : ℕ)

namespace GroupPersistOp

def groupId : GroupPersistOp → String
  | upsert g => g.groupId
  | delete id => id
  | settle id _ => id

/-- `upsert_delegation_group` keeps what the conflict clause does not set. -/
def overwrite (row g : DelegationGroup) : DelegationGroup :=
  { g with
    groupId := row.groupId, workspaceId := row.workspaceId, parentAgentId := row.parentAgentId }

def apply (rows : List DelegationGroup) : GroupPersistOp → List DelegationGroup
  | upsert g => put DelegationGroup.groupId overwrite g rows
  | delete id => erase DelegationGroup.groupId id rows
  | settle id _ => erase DelegationGroup.groupId id rows

end GroupPersistOp

/-- Where a delivery is in `try_fire_group`. -/
inductive Stage where
  | claimed
  | settling
  | settled
  | over
  deriving DecidableEq, Repr

structure Delivery where
  group : DelegationGroup
  stage : Stage

structure Recording where
  groupId : String
  child : String
  deleted : Bool
  summary : String
  event : Event

structure System where
  groups : List DelegationGroup
  lane : List GroupPersistOp
  rows : List DelegationGroup
  found : List String
  deliveries : List Delivery
  /-- The parents and groups of scoped cancels that have queued their first delete. -/
  cancelling : List (String × String)
  reads : List (List DelegationGroup)
  used : List String
  gone : List String
  log : List Recording

def System.initial : System := ⟨[], [], [], [], [], [], [], [], [], []⟩

inductive Label where
  | delegate (parent workspace fresh : String)
  | enroll (groupId child : String)
  | sealGroup (parent : String)
  | record (groupId child : String) (deleted : Bool) (summary : String) (event : Event)
  | claim (groupId : String)
  | wakeFails (delivery : ℕ)
  | wakeSucceeds (delivery : ℕ)
  | finalize (delivery : ℕ)
  | beginCancel (parent groupId : String)
  | finishCancel (parent groupId : String)
  | cancelParent (parent : String)
  | cancelChild (groupId child : String)
  | read (workspace : String)
  | restore (pass : ℕ)
  | persist
  | restart

namespace System

variable (s : System)

def changeAndPersist (groupId : String) (f : DelegationGroup → DelegationGroup) : System :=
  match s.groups.find? fun g => g.groupId = groupId with
  | none => s
  | some g =>
    { s with
      groups := modifyFirst (fun g => g.groupId = groupId) f s.groups
      lane := s.lane ++ [.upsert (f g)] }

/-- `get_or_create_delegation_group`, with the id that a new group would get. -/
def getOrCreateDelegationGroup (parent workspace fresh : String) : Option System :=
  match s.groups.find? (·.isOpen parent) with
  | some g => some { s with found := g.groupId :: s.found }
  | none =>
    if fresh ∈ s.used then none
    else some { s with
      groups := s.groups ++ [⟨fresh, workspace, parent, [], [], [], false, false, [], []⟩]
      found := fresh :: s.found
      used := fresh :: s.used }

def enrollChildInGroup (groupId child : String) : System :=
  s.changeAndPersist groupId (·.enroll child)

def sealGroupForParent (parent : String) : System :=
  match s.groups.find? (·.isOpen parent) with
  | none => s
  | some g =>
    { s with
      groups := modifyFirst (·.isOpen parent) ({ · with sealed := true }) s.groups
      lane := s.lane ++ [.upsert { g with sealed := true }] }

def recordGroupChildCompletion (groupId child : String) (deleted : Bool) (summary : String)
    (event : Event) : System :=
  match s.groups.find? fun g => g.groupId = groupId with
  | none => s
  | some g =>
    if child ∉ g.expectedAgentIds then s
    else if g.isRecorded child then s
    else
      { s.changeAndPersist groupId (·.record child deleted summary event) with
        log := s.log ++ [⟨groupId, child, deleted, summary, event⟩] }

def takeGroupIfReady (groupId : String) : Option System := do
  let g ← s.groups.find? fun g => g.groupId = groupId
  if g.sealed && !g.delivered && g.isGroupComplete then
    return { s with
      groups := modifyFirst (fun g => g.groupId = groupId) ({ · with delivered := true }) s.groups
      deliveries := s.deliveries ++ [⟨{ g with delivered := true }, .claimed⟩] }
  else none

def releaseGroupDelivery (groupId : String) : List DelegationGroup :=
  modifyFirst (fun g => g.groupId = groupId) ({ · with delivered := false }) s.groups

def setStage (i : ℕ) (d : Delivery) (stage : Stage) : List Delivery :=
  s.deliveries.set i { d with stage := stage }

def wakeFails (i : ℕ) : Option System := do
  let d ← s.deliveries[i]?
  if d.stage = .claimed then
    return { s with
      groups := s.releaseGroupDelivery d.group.groupId, deliveries := s.setStage i d .over }
  else none

/-- `settle_delegation_group_persisted` -/
def wakeSucceeds (i : ℕ) : Option System := do
  let d ← s.deliveries[i]?
  if d.stage = .claimed then
    return { s with
      lane := s.lane ++ [.settle d.group.groupId i], deliveries := s.setStage i d .settling }
  else none

def finalizeGroupDelivery (i : ℕ) : Option System := do
  let d ← s.deliveries[i]?
  if d.stage = .settled then
    return { s with
      groups := erase groupId d.group.groupId s.groups
      deliveries := s.setStage i d .over
      gone := d.group.groupId :: s.gone }
  else none

/-- `delete_delegation_group_persisted` of a scoped cancel. -/
def beginCancel (parent groupId : String) : Option System :=
  if s.groups.any fun g => g.groupId = groupId && g.parentAgentId = parent then
    some { s with
      lane := s.lane ++ [.delete groupId], cancelling := (parent, groupId) :: s.cancelling }
  else none

def removeGroupWithWatches (parent groupId : String) : Option System :=
  if (parent, groupId) ∈ s.cancelling then
    let cancelling := s.cancelling.erase (parent, groupId)
    if s.groups.any fun g => g.groupId = groupId && g.parentAgentId = parent then
      some { s with
        groups := s.groups.eraseP fun g => g.groupId = groupId && g.parentAgentId = parent
        lane := s.lane ++ [.delete groupId]
        cancelling := cancelling
        gone := groupId :: s.gone }
    else some { s with cancelling := cancelling }
  else none

def removeGroupsForParent (parent : String) : System :=
  let removed := (s.groups.filter fun g => g.parentAgentId = parent).map groupId
  { s with
    groups := s.groups.filter fun g => g.parentAgentId ≠ parent
    lane := s.lane ++ removed.map .delete
    gone := removed ++ s.gone }

def removeChildFromGroup (groupId child : String) : System :=
  match s.groups.find? fun g => g.groupId = groupId with
  | none => s
  | some g =>
    if (g.withoutChild child).expectedAgentIds.isEmpty then
      { s with
        groups := s.groups.eraseP fun g => g.groupId = groupId
        lane := s.lane ++ [.delete groupId]
        gone := groupId :: s.gone }
    else if g.delivered then
      { s with
        groups := modifyFirst (fun g => g.groupId = groupId) (·.withoutChild child) s.groups }
    else s.changeAndPersist groupId (·.withoutChild child)

def listUndeliveredGroups (workspace : String) : List DelegationGroup :=
  s.rows.filter fun row => row.workspaceId = workspace && !row.delivered

/-- The locked part of `restore_delegation_groups`. -/
def restoreGroups (groups : List DelegationGroup) : List DelegationGroup → List DelegationGroup
  | [] => groups
  | row :: rows =>
    if groups.any fun g => g.groupId = row.groupId then restoreGroups groups rows
    else restoreGroups (groups ++ [{ row with sealed := true }]) rows

def persist : Option System :=
  match s.lane with
  | [] => none
  | op :: lane =>
    let done : System := { s with lane := lane, rows := op.apply s.rows }
    match op with
    | .settle _ i =>
      match s.deliveries[i]? with
      | some d =>
        if d.stage = .settling then some { done with deliveries := s.setStage i d .settled }
        else some done
      | none => some done
    | _ => some done

/-- A clean restart: the lane is drained, everything else is gone, and every stored group is
restored before anything else happens. -/
def restart : Option System :=
  if s.lane.isEmpty then
    some { s with
      groups := restoreGroups [] (s.rows.filter (!·.delivered))
      found := []
      deliveries := []
      cancelling := []
      reads := [] }
  else none

end System

def next (s : System) : Label → Option System
  | .delegate parent workspace fresh => s.getOrCreateDelegationGroup parent workspace fresh
  | .enroll id child => if id ∈ s.found then some (s.enrollChildInGroup id child) else none
  | .sealGroup parent => some (s.sealGroupForParent parent)
  | .record id child deleted summary event =>
    some (s.recordGroupChildCompletion id child deleted summary event)
  | .claim id => s.takeGroupIfReady id
  | .wakeFails i => s.wakeFails i
  | .wakeSucceeds i => s.wakeSucceeds i
  | .finalize i => s.finalizeGroupDelivery i
  | .beginCancel parent id => s.beginCancel parent id
  | .finishCancel parent id => s.removeGroupWithWatches parent id
  | .cancelParent parent => some (s.removeGroupsForParent parent)
  | .cancelChild id child => some (s.removeChildFromGroup id child)
  | .read workspace => some { s with reads := s.reads ++ [s.listUndeliveredGroups workspace] }
  | .restore pass => s.reads[pass]?.map fun rows =>
    { s with groups := System.restoreGroups s.groups rows }
  | .persist => s.persist
  | .restart => s.restart

def Step (s : System) (l : Label) (t : System) : Prop := next s l = some t

/-- No step comes between two that belong together: a child is enrolled in a group that is
not sealed meanwhile, only a child that is not recorded is cancelled, and what a restore
pass has read is in the registry, or still stored with no write to it in the lane. -/
def Unraced (s : System) : Label → Prop
  | .enroll id _ => ∀ g ∈ s.groups, g.groupId = id → g.sealed = false
  | .cancelChild id child => ∀ g ∈ s.groups, g.groupId = id → g.isRecorded child = false
  | .restore pass => ∀ rows, s.reads[pass]? = some rows → ∀ row ∈ rows,
      row.groupId ∈ s.groups.map groupId ∨
        row.groupId ∈ s.rows.map groupId ∧ ∀ op ∈ s.lane, op.groupId ≠ row.groupId
  | _ => True

instance (s : System) : (l : Label) → Decidable (Unraced s l)
  | .enroll id _ => inferInstanceAs (Decidable (∀ g ∈ s.groups, g.groupId = id → g.sealed = false))
  | .cancelChild id child =>
    inferInstanceAs (Decidable (∀ g ∈ s.groups, g.groupId = id → g.isRecorded child = false))
  | .restore pass => inferInstanceAs (Decidable (∀ rows ∈ s.reads[pass]?, ∀ row ∈ rows,
      row.groupId ∈ s.groups.map groupId ∨
        row.groupId ∈ s.rows.map groupId ∧ ∀ op ∈ s.lane, op.groupId ≠ row.groupId))
  | .delegate .. | .sealGroup _ | .record .. | .claim _ | .wakeFails _ | .wakeSucceeds _
  | .finalize _ | .beginCancel .. | .finishCancel .. | .cancelParent _ | .read _ | .persist
  | .restart => .isTrue trivial

/-- A step without a race, as a function. -/
def unracedNext (s : System) (l : Label) : Option System := if Unraced s l then next s l else none

theorem step_of_unracedNext {s t : System} {l : Label} (h : unracedNext s l = some t) :
    Step s l t ∧ Unraced s l := by
  rw [unracedNext, Option.ite_none_right_eq_some] at h
  exact ⟨h.2, h.1⟩

/-- A group has of every child that was recorded in it one summary and one event, in the
order of recording, and no child was recorded twice or without being expected. -/
structure Recorded (log : List Recording) (g : DelegationGroup) : Prop where
  once : ((log.filter (·.groupId = g.groupId)).map Recording.child).Nodup
  expected : ∀ r ∈ log, r.groupId = g.groupId → r.child ∈ g.expectedAgentIds
  completed : g.completedAgentIds =
    ((log.filter (·.groupId = g.groupId)).filter (!·.deleted)).map Recording.child
  deleted : g.deletedAgentIds =
    ((log.filter (·.groupId = g.groupId)).filter (·.deleted)).map Recording.child
  summaries : g.eventSummaries = (log.filter (·.groupId = g.groupId)).map Recording.summary
  events : g.rawEvents = (log.filter (·.groupId = g.groupId)).map Recording.event

/-- The row of a group. A restore pass seals the group, and leaves the row as it is. -/
structure SameRow (g row : DelegationGroup) : Prop where
  groupId : row.groupId = g.groupId
  workspaceId : row.workspaceId = g.workspaceId
  parentAgentId : row.parentAgentId = g.parentAgentId
  expected : row.expectedAgentIds = g.expectedAgentIds
  completed : row.completedAgentIds = g.completedAgentIds
  deleted : row.deletedAgentIds = g.deletedAgentIds
  summaries : row.eventSummaries = g.eventSummaries
  events : row.rawEvents = g.rawEvents
  sealed : row.sealed = true → g.sealed = true
  delivered : row.delivered = false

def isStorable (g : DelegationGroup) : Bool := !g.expectedAgentIds.isEmpty || g.sealed

/-- The stored groups are those of the registry that are to be stored. -/
structure Mirrors (s : System) : Prop where
  once : (s.rows.map groupId).Nodup
  known : ∀ row ∈ s.rows, ∃ g ∈ s.groups, isStorable g = true ∧ SameRow g row
  stored : ∀ g ∈ s.groups, isStorable g = true → ∃ row ∈ s.rows, SameRow g row

/-- The store mirrors the registry when no write and no delivery is on its way. -/
def Stored (s : System) : Prop := s.lane = [] → (∀ d ∈ s.deliveries, d.stage = .over) → Mirrors s

/-- No group of the registry is in the middle of a scoped cancel, which deletes its row first. -/
def NoneCancelling (s : System) : Prop :=
  ∀ g ∈ s.groups, (g.parentAgentId, g.groupId) ∉ s.cancelling

structure Settles (s : System) : Prop where
  exclusive : ((s.deliveries.filter (·.stage ≠ .over)).map (·.group.groupId)).Nodup
  ready : ∀ d ∈ s.deliveries, d.group.sealed = true ∧
    ∀ child ∈ d.group.expectedAgentIds, d.group.isRecorded child = true
  recorded : ∀ g ∈ s.groups, Recorded s.log g
  gone : ∀ id ∈ s.gone, id ∉ s.groups.map groupId

/-- No step gives a child to a group that is sealed. -/
def KeepsSealed (s t : System) : Prop :=
  ∀ g ∈ s.groups, g.sealed = true → ∀ g' ∈ t.groups, g'.groupId = g.groupId →
    g'.expectedAgentIds ⊆ g.expectedAgentIds

end Intentd.DelegationGroups
