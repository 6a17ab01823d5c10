import Mathlib.Tactic.Common

/-!
# Undoable deletes and their owners

A delete with a grace delay is an attempt. The schedule that finds no attempt under its
key inserts a preparing entry, begins a guard in the store, spawns the timer task and
only then arms the entry, all outside the map lock but for the two insertions. Every
other call for the key works on that attempt: a schedule joins it, a cancel, a cascade
or an immediate delete waits until it is prepared and then tries to take it.

Callers and timers are tasks on several threads. A step is what a task does between two
points where another may act: a region under the map lock, a publication, an abort. A
caller may be dropped wherever it awaits; the preparation owner then removes its own
entry and publishes that the attempt was abandoned. Attempts, guards and timer tasks are
told apart by numbers that are never drawn twice, as allocations held by an `Arc` are.
-/
namespace Intentd.OwnedDeletes
open Function

def maxUndoDelayMs : ℕ := 60000

def clampUndoDelayMs (ms : ℕ) : ℕ := min ms maxUndoDelayMs

inductive PendingDeleteSubject where
  | workspace (id : String)
  | agent (workspaceId agentId : String)
  deriving DecidableEq, Repr

inductive OwnedKey where
  | workspace (id : String)
  | agent (id : String)
  deriving DecidableEq, Repr

inductive RepositoryLifecycleKey where
  | workspace (id : String)
  | agent (id : String)
  deriving DecidableEq, Repr

def PendingDeleteSubject.key : PendingDeleteSubject → OwnedKey
  | .workspace id => .workspace id
  | .agent _ agentId => .agent agentId

def PendingDeleteSubject.lifecycleKey : PendingDeleteSubject → RepositoryLifecycleKey
  | .workspace id => .workspace id
  | .agent _ agentId => .agent agentId

structure RepositoryPendingDeleteGuard where
  id : ℕ
  key : RepositoryLifecycleKey
  deriving DecidableEq, Repr

structure PendingDeleteClaim where
  subject : PendingDeleteSubject
  guard : RepositoryPendingDeleteGuard
  deriving DecidableEq, Repr

inductive PreparationStatus where
  | preparing
  | armed (deleteAt : ℕ)
  | abandoned
  deriving DecidableEq, Repr

structure Attempt where
  subject : PendingDeleteSubject
  ready : PreparationStatus
  deriving DecidableEq, Repr

structure OwnedArmed where
  attempt : ℕ
  deleteAt : ℕ
  guard : Option RepositoryPendingDeleteGuard
  handle : ℕ
  deriving DecidableEq, Repr

inductive OwnedEntry where
  | preparing (attempt : ℕ)
  | armed (entry : OwnedArmed)
  deriving DecidableEq, Repr

def OwnedEntry.attempt : OwnedEntry → ℕ
  | .preparing attempt => attempt
  | .armed entry => entry.attempt

def OwnedEntry.handle : OwnedEntry → Option ℕ
  | .preparing _ => none
  | .armed entry => some entry.handle

inductive Error where
  | invalidParams (message : String)
  | internal (message : String)
  | store
  deriving DecidableEq, Repr

def Error.differentSubject : Error :=
  .invalidParams "pending deletion has a different original subject"

def Error.didNotArm : Error := .internal "original pending deletion did not arm"

def Error.admissionClosed : Error := .internal "pending deletion admission closed"

/-- What a call returned. The attempt is the one the call worked on. -/
inductive Outcome where
  | failed (error : Error)
  | scheduled (attempt deleteAt : ℕ) (newlyArmed : Bool)
  /-- A joined schedule whose attempt was abandoned. -/
  | joinFailed (attempt : ℕ) (error : Error)
  | claimed (attempt : Option ℕ) (claim : PendingDeleteClaim)
  | nothing
  | cancelled (attempt : ℕ)
  | notCancelled
  deriving DecidableEq, Repr

structure Owner where
  attempt : ℕ
  guard : Option RepositoryPendingDeleteGuard
  timer : Option ℕ
  armed : Bool
  deriving DecidableEq, Repr

inductive Purpose where
  | cascade
  | cancel
  | immediate
  deriving DecidableEq, Repr

/-- Where a caller stands. A call that was dropped finishes without an outcome. -/
inductive Phase where
  | idle
  | joined (attempt : ℕ)
  | beginning (owner : Owner) (delayMs : ℕ)
  | guarded (owner : Owner) (delayMs : ℕ)
  | spawned (owner : Owner) (delayMs : ℕ)
  | assertionFailed (owner : Owner)
  /-- The caller still has the sender that starts this timer. -/
  | inserted (owner : Owner) (timer deleteAt timerDeadline : ℕ)
  | published (owner : Owner) (timer deleteAt timerDeadline : ℕ)
  | dropping (owner : Owner) (outcome : Option Outcome)
  | abandoning (owner : Owner) (removed : Option OwnedEntry) (outcome : Option Outcome)
  | waiting (purpose : Purpose) (subject : PendingDeleteSubject) (attempt : ℕ)
  | taking (purpose : Purpose) (subject : PendingDeleteSubject) (attempt : ℕ)
  | took (purpose : Purpose) (attempt : ℕ) (claim : PendingDeleteClaim) (handle : ℕ)
  | settling (attempt : ℕ) (claim : PendingDeleteClaim)
  | opening (subject : PendingDeleteSubject)
  | finished (outcome : Option Outcome)
  deriving DecidableEq, Repr

/-- What is left of a caller that is dropped, or panics, where it awaits. -/
def Phase.dropped : Phase → Option Phase
  | .beginning owner _ => some (.dropping owner none)
  | .joined _ | .waiting _ _ _ | .settling _ _ | .opening _ => some (.finished none)
  | _ => none

inductive TimerPhase where
  | awaitingStart
  | sleeping (deadline : ℕ)
  | fired
  | claimed (claim : PendingDeleteClaim)
  | deleting (claim : PendingDeleteClaim)
  | ended
  deriving DecidableEq, Repr

def TimerPhase.awaits : TimerPhase → Bool
  | .awaitingStart | .sleeping _ | .deleting _ => true
  | .fired | .claimed _ | .ended => false

/-- A timer task, with the deadline its start channel was sent. An abort only takes
effect where the task awaits. -/
structure DeleteTimer where
  attempt : ℕ
  phase : TimerPhase
  start : Option ℕ
  aborted : Bool
  deriving DecidableEq, Repr

inductive Holder where
  | timer (t : ℕ)
  | caller (c : ℕ)
  deriving DecidableEq, Repr

/-- What happened to an attempt: it was armed, its guard was handed out, its deletion
closure ran, its preparation was abandoned. -/
inductive Event where
  | armed (deleteAt : ℕ) (guard : RepositoryPendingDeleteGuard)
  | handed (holder : Holder) (claim : PendingDeleteClaim)
  | ran (claim : PendingDeleteClaim)
  | abandoned
  deriving DecidableEq, Repr

structure System where
  entries : OwnedKey → Option OwnedEntry
  attempts : ℕ → Attempt
  nextAttempt : ℕ
  /-- The attempt a guard was begun for; an immediate delete begins one for none. -/
  begun : ℕ → Option ℕ
  nextGuard : ℕ
  timers : ℕ → Option DeleteTimer
  nextTimer : ℕ
  callers : ℕ → Phase
  closed : Bool
  wallMs : ℕ
  monotonicMs : ℕ
  events : ℕ → List Event

def System.initial : System where
  entries := fun _ => none
  attempts := fun _ => ⟨.workspace "", .preparing⟩
  nextAttempt := 0
  begun := fun _ => none
  nextGuard := 0
  timers := fun _ => none
  nextTimer := 0
  callers := fun _ => .idle
  closed := false
  wallMs := 0
  monotonicMs := 0
  events := fun _ => []

variable {phase : Phase} {timer : DeleteTimer}

namespace System

variable (s : System)

def key (attempt : ℕ) : OwnedKey := (s.attempts attempt).subject.key

variable (c : ℕ)

def setCaller (phase : Phase) : System :=
  { s with callers := Function.update s.callers c phase }

def setTimer (t : ℕ) (timer : DeleteTimer) : System :=
  { s with timers := Function.update s.timers t (some timer) }

variable {s} in
theorem setCaller_self {c : ℕ} : (s.setCaller c phase).callers c = phase :=
  update_self ..

variable {s} in
theorem setCaller_of_ne {c c' : ℕ} (h : c' ≠ c) : (s.setCaller c phase).callers c' = s.callers c' :=
  update_of_ne h ..

variable {s} in
theorem setTimer_self {t : ℕ} : (s.setTimer t timer).timers t = some timer :=
  update_self ..

variable {s} in
theorem setTimer_of_ne {t t' : ℕ} (h : t' ≠ t) : (s.setTimer t timer).timers t' = s.timers t' :=
  update_of_ne h ..

def setEntry (key : OwnedKey) (entry : Option OwnedEntry) : System :=
  { s with entries := Function.update s.entries key entry }

def sendReplace (attempt : ℕ) (ready : PreparationStatus) : System :=
  { s with
    attempts := Function.update s.attempts attempt { s.attempts attempt with ready := ready } }

variable {s} in
theorem sendReplace_self {attempt : ℕ} {ready : PreparationStatus} :
    (s.sendReplace attempt ready).attempts attempt = ⟨(s.attempts attempt).subject, ready⟩ :=
  update_self ..

def record (attempt : ℕ) (event : Event) : System :=
  { s with events := Function.update s.events attempt (s.events attempt ++ [event]) }

def modifyTimer (t : ℕ) (f : DeleteTimer → DeleteTimer) : System :=
  { s with timers := Function.update s.timers t ((s.timers t).map f) }

def abort (t : ℕ) : System := s.modifyTimer t ({ · with aborted := true })

/-- `take_armed`: the claim and the timer's handle, if the entry under the attempt's key
is armed, is this attempt's and still has its guard. -/
def takeArmed (attempt : ℕ) : Option (PendingDeleteClaim × ℕ) :=
  match s.entries (s.key attempt) with
  | some (.armed armed) =>
    if armed.attempt = attempt then
      armed.guard.map fun guard => (⟨(s.attempts attempt).subject, guard⟩, armed.handle)
    else none
  | _ => none

/-- The entry of a taken attempt is gone, and its guard is the holder's. -/
def handOut (attempt : ℕ) (holder : Holder) (claim : PendingDeleteClaim) : System :=
  (s.setEntry (s.key attempt) none).record attempt (.handed holder claim)

/-- The first lock region of `schedule_owned`. -/
def scheduleOwned (subject : PendingDeleteSubject) (delayMs : ℕ) : System :=
  match s.entries subject.key with
  | some entry =>
    if (s.attempts entry.attempt).subject = subject then s.setCaller c (.joined entry.attempt)
    else s.setCaller c (.finished (some (.failed .differentSubject)))
  | none =>
    { (s.setEntry subject.key (some (.preparing s.nextAttempt))).setCaller c
        (.beginning ⟨s.nextAttempt, none, none, false⟩ delayMs) with
      attempts := Function.update s.attempts s.nextAttempt ⟨subject, .preparing⟩
      nextAttempt := s.nextAttempt + 1 }

/-- A take that found nothing: an immediate delete begins a guard of its own. -/
def tookNothing (purpose : Purpose) (subject : PendingDeleteSubject) : System :=
  match purpose with
  | .cascade => s.setCaller c (.finished (some .nothing))
  | .cancel => s.setCaller c (.finished (some .notCancelled))
  | .immediate => s.setCaller c (.opening subject)

/-- `original_attempt`, which every take starts with. -/
def originalAttempt (purpose : Purpose) (subject : PendingDeleteSubject) : System :=
  match s.entries subject.key with
  | some entry =>
    if (s.attempts entry.attempt).subject = subject then
      s.setCaller c (.waiting purpose subject entry.attempt)
    else s.setCaller c (.finished (some (.failed .differentSubject)))
  | none => s.tookNothing c purpose subject

/-- The store's answer to `begin_repository_pending_delete`. -/
def beginGuard (attempt : Option ℕ) : System :=
  { s with begun := Function.update s.begun s.nextGuard attempt, nextGuard := s.nextGuard + 1 }

def addTimer (attempt : ℕ) : System :=
  { s.setTimer s.nextTimer ⟨attempt, .awaitingStart, none, false⟩ with
    nextTimer := s.nextTimer + 1 }

/-- A timer task is spawned unless the delivery tasks are closed. -/
def spawnTimer (owner : Owner) (delayMs : ℕ) : System :=
  if s.closed then s.setCaller c (.dropping owner (some (.failed .admissionClosed)))
  else
    (s.addTimer owner.attempt).setCaller c
      (.spawned { owner with timer := some s.nextTimer } delayMs)

/-- The second lock region of `schedule_owned`. The assertion is that the entry is still
this attempt's; the timer was put in the owner just before. -/
def arm (owner : Owner) (delayMs : ℕ) : System :=
  match (s.entries (s.key owner.attempt)).map OwnedEntry.attempt, owner.timer with
  | some attempt, some handle =>
    if attempt = owner.attempt then
      let deleteAt := s.wallMs + clampUndoDelayMs delayMs
      let armed := (s.setEntry (s.key owner.attempt)
          (some (.armed ⟨owner.attempt, deleteAt, owner.guard, handle⟩))).setCaller c
        (.inserted { owner with guard := none, timer := none } handle deleteAt
          (s.monotonicMs + clampUndoDelayMs delayMs))
      match owner.guard with
      | some guard => armed.record owner.attempt (.armed deleteAt guard)
      | none => armed
    else s.setCaller c (.assertionFailed owner)
  | _, _ => s.setCaller c (.assertionFailed owner)

/-- The deadline is sent to the timer; one that was aborted meanwhile no longer reads it. -/
def startTimer (t deadline : ℕ) : System := s.modifyTimer t ({ · with start := some deadline })

/-- The lock region of `PreparationOwner::drop`. -/
def dropOwner (owner : Owner) (outcome : Option Outcome) : System :=
  if owner.armed then s.setCaller c (.finished outcome)
  else
    match s.entries (s.key owner.attempt) with
    | some entry =>
      if entry.attempt = owner.attempt then
        (s.setEntry (s.key owner.attempt) none).setCaller c (.abandoning owner (some entry) outcome)
      else s.setCaller c (.abandoning owner none outcome)
    | none => s.setCaller c (.abandoning owner none outcome)

/-- The rest of `PreparationOwner::drop`. -/
def abandon (owner : Owner) (removed : Option OwnedEntry) (outcome : Option Outcome) : System :=
  let handles := (removed.bind OwnedEntry.handle).toList ++ owner.timer.toList
  ((handles.foldl abort s).sendReplace owner.attempt .abandoned).record owner.attempt .abandoned
    |>.setCaller c (.finished outcome)

/-- A caller tries to take the attempt it waited for. -/
def takeFor (purpose : Purpose) (subject : PendingDeleteSubject) (attempt : ℕ) : System :=
  match s.takeArmed attempt with
  | some (claim, handle) =>
    (s.handOut attempt (.caller c) claim).setCaller c (.took purpose attempt claim handle)
  | none => s.tookNothing c purpose subject

/-- What a caller goes on with once it aborted the timer. -/
def afterTake (purpose : Purpose) (attempt : ℕ) (claim : PendingDeleteClaim) : Phase :=
  match purpose with
  | .cancel => .settling attempt claim
  | .cascade | .immediate => .finished (some (.claimed (some attempt) claim))

/-- A timer tries to take its own attempt, unless the registry is gone. -/
def timerClaim (t : ℕ) (timer : DeleteTimer) (alive : Bool) : System :=
  match if alive then s.takeArmed timer.attempt else none with
  | some (claim, _) =>
    (s.handOut timer.attempt (.timer t) claim).setTimer t { timer with phase := .claimed claim }
  | none => s.setTimer t { timer with phase := .ended }

end System

/-- What a joined schedule returns for the status it was woken by. -/
def joinedOutcome (attempt : ℕ) : PreparationStatus → Outcome
  | .armed deleteAt => .scheduled attempt deleteAt false
  | .preparing | .abandoned => .joinFailed attempt .didNotArm

inductive Step (s : System) : System → Prop
  | tick (wallMs elapsed : ℕ) :
      Step s { s with wallMs := wallMs, monotonicMs := s.monotonicMs + elapsed }
  | close : Step s { s with closed := true }
  | schedule {c : ℕ} (subject : PendingDeleteSubject) (delayMs : ℕ) (hc : s.callers c = .idle) :
      Step s (s.scheduleOwned c subject delayMs)
  | take {c : ℕ} (purpose : Purpose) (subject : PendingDeleteSubject) (hc : s.callers c = .idle) :
      Step s (s.originalAttempt c purpose subject)
  | joined {c attempt : ℕ} (hc : s.callers c = .joined attempt)
      (hready : (s.attempts attempt).ready ≠ .preparing) :
      Step s (s.setCaller c (.finished (some (joinedOutcome attempt (s.attempts attempt).ready))))
  | prepared {c attempt deleteAt : ℕ} {purpose : Purpose} {subject : PendingDeleteSubject}
      (hc : s.callers c = .waiting purpose subject attempt)
      (hready : (s.attempts attempt).ready = .armed deleteAt) :
      Step s (s.setCaller c (.taking purpose subject attempt))
  | notPrepared {c attempt : ℕ} {purpose : Purpose} {subject : PendingDeleteSubject}
      (hc : s.callers c = .waiting purpose subject attempt)
      (hready : (s.attempts attempt).ready = .abandoned) :
      Step s (s.tookNothing c purpose subject)
  | begin {c delayMs : ℕ} {owner : Owner} (hc : s.callers c = .beginning owner delayMs) :
      Step s ((s.beginGuard (some owner.attempt)).setCaller c (.guarded { owner with
          guard := some ⟨s.nextGuard, (s.attempts owner.attempt).subject.lifecycleKey⟩ } delayMs))
  | beginFails {c delayMs : ℕ} {owner : Owner} (hc : s.callers c = .beginning owner delayMs) :
      Step s (s.setCaller c (.dropping owner (some (.failed .store))))
  | spawn {c delayMs : ℕ} {owner : Owner} (hc : s.callers c = .guarded owner delayMs) :
      Step s (s.spawnTimer c owner delayMs)
  | arm {c delayMs : ℕ} {owner : Owner} (hc : s.callers c = .spawned owner delayMs) :
      Step s (s.arm c owner delayMs)
  | publish {c timer deleteAt deadline : ℕ} {owner : Owner}
      (hc : s.callers c = .inserted owner timer deleteAt deadline) :
      Step s ((s.sendReplace owner.attempt (.armed deleteAt)).setCaller c
        (.published owner timer deleteAt deadline))
  | start {c timer deleteAt deadline : ℕ} {owner : Owner}
      (hc : s.callers c = .published owner timer deleteAt deadline) :
      Step s ((s.startTimer timer deadline).setCaller c
        (.dropping { owner with armed := true } (some (.scheduled owner.attempt deleteAt true))))
  | drop {c : ℕ} {phase : Phase} (hc : (s.callers c).dropped = some phase) :
      Step s (s.setCaller c phase)
  | dropOwner {c : ℕ} {owner : Owner} {outcome : Option Outcome}
      (hc : s.callers c = .dropping owner outcome) : Step s (s.dropOwner c owner outcome)
  | abandon {c : ℕ} {owner : Owner} {removed : Option OwnedEntry} {outcome : Option Outcome}
      (hc : s.callers c = .abandoning owner removed outcome) :
      Step s (s.abandon c owner removed outcome)
  | takeFor {c attempt : ℕ} {purpose : Purpose} {subject : PendingDeleteSubject}
      (hc : s.callers c = .taking purpose subject attempt) :
      Step s (s.takeFor c purpose subject attempt)
  | abortTimer {c attempt handle : ℕ} {purpose : Purpose} {claim : PendingDeleteClaim}
      (hc : s.callers c = .took purpose attempt claim handle) :
      Step s ((s.abort handle).setCaller c (System.afterTake purpose attempt claim))
  | settle {c attempt : ℕ} {claim : PendingDeleteClaim}
      (hc : s.callers c = .settling attempt claim) :
      Step s (s.setCaller c (.finished (some (.cancelled attempt))))
  | settleFails {c attempt : ℕ} {claim : PendingDeleteClaim}
      (hc : s.callers c = .settling attempt claim) :
      Step s (s.setCaller c (.finished (some (.failed .store))))
  | opened {c : ℕ} {subject : PendingDeleteSubject} (hc : s.callers c = .opening subject) :
      Step s ((s.beginGuard none).setCaller c
        (.finished (some (.claimed none ⟨subject, ⟨s.nextGuard, subject.lifecycleKey⟩⟩))))
  | openFails {c : ℕ} {subject : PendingDeleteSubject} (hc : s.callers c = .opening subject) :
      Step s (s.setCaller c (.finished (some (.failed .store))))
  | timerStarts {t deadline : ℕ} {timer : DeleteTimer} (ht : s.timers t = some timer)
      (hphase : timer.phase = .awaitingStart) (hstart : timer.start = some deadline)
      (habort : timer.aborted = false) :
      Step s (s.setTimer t { timer with phase := .sleeping deadline })
  | timerFires {t deadline : ℕ} {timer : DeleteTimer} (ht : s.timers t = some timer)
      (hphase : timer.phase = .sleeping deadline) (hdue : deadline ≤ s.monotonicMs)
      (hopen : s.closed = false) (habort : timer.aborted = false) :
      Step s (s.setTimer t { timer with phase := .fired })
  | timerClaims {t : ℕ} {timer : DeleteTimer} (alive : Bool) (ht : s.timers t = some timer)
      (hphase : timer.phase = .fired) : Step s (s.timerClaim t timer alive)
  | timerDeletes {t : ℕ} {timer : DeleteTimer} {claim : PendingDeleteClaim}
      (ht : s.timers t = some timer) (hphase : timer.phase = .claimed claim) :
      Step s ((s.record timer.attempt (.ran claim)).setTimer t
        { timer with phase := .deleting claim })
  /-- The delivery tasks closed, the closure returned, or the task was dropped. -/
  | timerEnds {t : ℕ} {timer : DeleteTimer} (ht : s.timers t = some timer)
      (hphase : timer.phase.awaits = true) : Step s (s.setTimer t { timer with phase := .ended })

end Intentd.OwnedDeletes
