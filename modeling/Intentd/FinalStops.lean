import Mathlib.Data.Finset.Erase
import Intentd.QueuedStops

/-!
# The final stops of one agent

A final stop has a record in the store until the machine acknowledged it or it is past
its bound. Acknowledgements, loads, binds and requests are tasks that test what head
keeps, wait on the store and then go on; the deletion of a record is one step and the
task going on after it another, and any other task may act in between. A store call
may fail, which leaves the record as it was.

An acknowledgement on a link that speaks final stops drops the record first and then
claims the settling. On an older link it claims the settling at once, and a task of its
own drops the record once the grace is over. The ids of stops are never drawn twice.
-/
namespace Intentd.FinalStops
open QueuedStops

structure Tuning where
  finalStopBound : ℕ
  legacyPushGrace : ℕ
  deriving DecidableEq, Repr

/-- A stored final stop. A timestamp that does not parse is `none`. -/
structure FinalStopRecord where
  stopId : ℕ
  requestedAt : Option ℕ
  deriving DecidableEq, Repr

/-- An unreadable timestamp counts as expired. -/
def expired (record : FinalStopRecord) (bound now : ℕ) : Bool :=
  match record.requestedAt with
  | none => true
  | some requested => (bound : ℤ) ≤ (now : ℤ) - requested

inductive Task where
  | idle
  /-- A request, or a bind that finds the agent running, has the id to queue. -/
  | requested (stopId : ℕ) (durable : Bool)
  | bindListed (record : Option FinalStopRecord)
  | bindRequested (stopId : ℕ) (durable : Bool)
  | ackDropping (stopId : ℕ)
  | ackDropped (stopId : ℕ) (dropped : Bool)
  | ackSettled (stopId : ℕ)
  | graceSleeping (stopId wakeAt : ℕ)
  | graceDropping (stopId : ℕ)
  | graceDropped (stopId : ℕ)
  | loadListed (record : Option FinalStopRecord)
  /-- A load drops a record past its bound, or one whose stop is settled. -/
  | loadDropping (stopId : ℕ) (pastBound : Bool)
  | loadDropped (stopId : ℕ) (settles : Bool)
  deriving DecidableEq, Repr

structure System where
  head : Shared
  now : ℕ
  record : Option FinalStopRecord
  tasks : ℕ → Task
  sent : List QueuedStop
  used : List ℕ
  settles : List ℕ
  graceEnds : ℕ → Option ℕ

/-- A process starts with whatever final stop is recorded. -/
def System.initial (record : Option FinalStopRecord) : System where
  head := .initial
  now := 0
  record := record
  tasks := fun _ => .idle
  sent := []
  used := (record.map FinalStopRecord.stopId).toList
  settles := []
  graceEnds := fun _ => none

inductive Label where
  | tick (elapsed : ℕ)
  | queueStop (newId : ℕ)
  | send
  | request (task newId : ℕ) (ok : Bool)
  | bindList (task : ℕ)
  | bindRequest (task newId : ℕ) (ok : Bool)
  /-- The ack of a stop; `grace` is the task that waits out its grace, if any. -/
  | ack (task grace : ℕ) (stop : QueuedStop) (speaksFinal : Bool)
  | list (task : ℕ)
  | check (task : ℕ)
  | wake (task : ℕ)
  | commit (task : ℕ) (ok : Bool)
  | resume (task : ℕ)
  deriving DecidableEq, Repr

namespace System

variable (s : System)

def setTask (k : ℕ) (task : Task) : System :=
  { s with tasks := Function.update s.tasks k task }

/-- The settling step of a final stop runs if its claim succeeds. -/
def settle (claim : Bool × Shared) (stopId : ℕ) : System :=
  { s with
    head := claim.2
    settles := if claim.1 then s.settles ++ [stopId] else s.settles }

/-- `record_final_stop`: the stored record, which an earlier one prevails over. -/
def recorded (newId : ℕ) : FinalStopRecord := s.record.getD ⟨newId, some s.now⟩

def hasRecord (stopId : ℕ) : Bool := s.record.any fun record => record.stopId = stopId

/-- `finish_final_stop` of the store, which may fail. -/
def dropRecord (stopId : ℕ) (ok : Bool) : System :=
  if ok ∧ s.hasRecord stopId then { s with record := none } else s

/-- The id to queue, once the record is written or could not be. -/
def requestWith (newId : ℕ) (ok : Bool) (next : ℕ → Bool → Task) (k : ℕ) : System :=
  if ok then
    { s.setTask k (next (s.recorded newId).stopId true) with
      record := some (s.recorded newId)
      used := newId :: s.used }
  else { s.setTask k (next newId false) with used := newId :: s.used }

end System

variable (tuning : Tuning)
variable (s : System)

/-- What an ack of `stop` does up to its first wait. -/
def ackStep (k grace : ℕ) (stop : QueuedStop) (speaksFinal : Bool) : System :=
  if stop.durable then
    if stop.finalStop ∧ speaksFinal then s.setTask k (.ackDropping stop.stopId)
    else
      let claim := s.head.claimFinalSettleWith stop.stopId false true
      let settled := (s.settle claim stop.stopId).setTask k (.ackSettled stop.stopId)
      if claim.1 then
        { settled.setTask grace (.graceSleeping stop.stopId (s.now + tuning.legacyPushGrace)) with
          graceEnds :=
            Function.update s.graceEnds stop.stopId (some (s.now + tuning.legacyPushGrace)) }
      else settled
  else if stop.finalStop then
    (s.settle (s.head.claimFinalSettle stop.stopId false) stop.stopId).setTask k
      (.ackSettled stop.stopId)
  else s.setTask k (.ackSettled stop.stopId)

/-- What a load does with the record it listed. A stop in its grace is left alone. -/
def checkStep (k : ℕ) : Option FinalStopRecord → System
  | none => s.setTask k .idle
  | some record =>
    if record.stopId ∈ s.head.inGrace then s.setTask k .idle
    else if record.stopId ∈ s.head.settledFinals then
      s.setTask k (.loadDropping record.stopId false)
    else if expired record tuning.finalStopBound s.now then
      s.setTask k (.loadDropping record.stopId true)
    else
      { s.setTask k .idle with
        head := (s.head.queueFinalStopUnless record.stopId true true).2 }

def commitStep (k : ℕ) (ok : Bool) : System :=
  match s.tasks k with
  | .ackDropping i => (s.dropRecord i ok).setTask k (.ackDropped i (ok && s.hasRecord i))
  | .loadDropping i pastBound =>
    (s.dropRecord i ok).setTask k (.loadDropped i (ok && s.hasRecord i && pastBound))
  | .graceDropping i => (s.dropRecord i ok).setTask k (.graceDropped i)
  | _ => s

def resumeStep (k : ℕ) : System :=
  match s.tasks k with
  | .requested i durable =>
    { s.setTask k .idle with head := (s.head.queueFinalStopUnless i durable true).2 }
  | .bindListed (some record) =>
    { s.setTask k .idle with head := s.head.queueFinalStop record.stopId true }
  | .bindListed none => s.setTask k .idle
  | .bindRequested i durable => { s.setTask k .idle with head := s.head.queueFinalStop i durable }
  | .ackDropped i dropped =>
    if dropped then
      (s.settle (s.head.claimFinalSettle i false) i).setTask k (.ackSettled i)
    else s.setTask k (.ackSettled i)
  | .ackSettled i => { s.setTask k .idle with head := s.head.confirmStop i }
  | .graceDropped i =>
    { s.setTask k .idle with head := { s.head with inGrace := s.head.inGrace.erase i } }
  | .loadDropped i true => (s.settle (s.head.claimFinalSettle i true) i).setTask k .idle
  | .loadDropped _ false => s.setTask k .idle
  | _ => s

def Task.isDropping : Task → Bool
  | .ackDropping _ | .loadDropping _ _ | .graceDropping _ => true
  | _ => false

def Task.isResumable : Task → Bool
  | .requested _ _ | .bindListed _ | .bindRequested _ _ | .ackDropped _ _ | .ackSettled _
  | .graceDropped _ | .loadDropped _ _ => true
  | _ => false

def Enabled : Label → Prop
  | .tick _ => True
  | .queueStop newId => newId ∉ s.used
  | .send => s.head.stops.isSome
  | .request k newId _ | .bindRequest k newId _ => s.tasks k = .idle ∧ newId ∉ s.used
  | .bindList k | .list k => s.tasks k = .idle
  | .ack k grace stop _ => s.tasks k = .idle ∧ s.tasks grace = .idle ∧ k ≠ grace ∧ stop ∈ s.sent
  | .check k => ∃ record, s.tasks k = .loadListed record
  | .wake k => ∃ i wakeAt, s.tasks k = .graceSleeping i wakeAt ∧ wakeAt ≤ s.now
  | .commit k _ => (s.tasks k).isDropping
  | .resume k => (s.tasks k).isResumable

def next : Label → System
  | .tick elapsed => { s with now := s.now + elapsed }
  | .queueStop newId => { s with head := (s.head.queueStop newId).2, used := newId :: s.used }
  | .send => { s with sent := s.head.stops.toList ++ s.sent }
  | .request k newId ok => s.requestWith newId ok .requested k
  | .bindRequest k newId ok => s.requestWith newId ok .bindRequested k
  | .bindList k => s.setTask k (.bindListed s.record)
  | .ack k grace stop speaksFinal => ackStep tuning s k grace stop speaksFinal
  | .list k => s.setTask k (.loadListed s.record)
  | .check k =>
    match s.tasks k with
    | .loadListed record => checkStep tuning s k record
    | _ => s
  | .wake k =>
    match s.tasks k with
    | .graceSleeping i _ => s.setTask k (.graceDropping i)
    | _ => s
  | .commit k ok => commitStep s k ok
  | .resume k => resumeStep s k

def Step (l : Label) (t : System) : Prop := Enabled s l ∧ t = next tuning s l

theorem Step.of_enabled (l : Label) (h : Enabled s l) : Step tuning s l (next tuning s l) :=
  ⟨h, rfl⟩

/-- A bind found the agent running and queues its final stop in this step. -/
def BindQueues (l : Label) : Prop :=
  ∃ k, l = .resume k ∧
    ((∃ record, s.tasks k = .bindListed record) ∨ ∃ i durable, s.tasks k = .bindRequested i durable)

/-- The record of stop `i` is dropped in this step. -/
def Drops (t : System) (i : ℕ) : Prop := s.hasRecord i ∧ t.record = none

/-- The stop whose record an ack or a load waits for the store to drop. -/
def Task.drops : Task → Option ℕ
  | .ackDropping i | .loadDropping i _ => some i
  | _ => none

def DropUnderWay (i : ℕ) : Prop := ∃ k, (s.tasks k).drops = some i

/-- No ack on an older link claims a stop whose record is being dropped, and no ack on a
link that speaks final stops comes while the stop is in its grace. -/
def Undisturbed : Label → Prop
  | .ack _ _ stop speaksFinal =>
    stop.durable →
      if stop.finalStop ∧ speaksFinal then stop.stopId ∉ s.head.inGrace
      else stop.stopId ∉ s.head.settledFinals → ¬ DropUnderWay s stop.stopId
  | _ => True

end Intentd.FinalStops
