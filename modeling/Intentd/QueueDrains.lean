import Intentd.MessageQueue

/-!
# Drains that store rows

The queue of one agent once more, with what a drain does to the entries it popped: it
annotates them, appends their user rows to the transcript, hands entries back under their
own ids or all of them as one new entry, and drops its guard. A drain may go on without
its guard (the turn runs) and still hand its entries back as one new entry when the turn
fails; and it may be gone at any time, right after an append that committed included.

Once the drains are frozen, nothing is popped and nothing leaves the draining list.

The rows of monitor wakes have a path of their own and are not in the model, and neither is
the marker that takes the place of a text too large for the provider.
-/
namespace Intentd.QueueDrains
open JsonValues QueuedMessages

/-- A user row: the queue entry its metadata names, its turn, and whose text it has. -/
structure Row where
  queuedMessageId : String
  turnId : String
  submissions : List Submission

structure Drain where
  ids : List String
  guarded : Bool
  inHand : List QueuedMessage

structure System where
  live : List QueuedMessage
  draining : List QueuedMessage
  lastOrder : ℕ
  drains : List Drain
  transcript : List Row
  /-- `draining_shutdown` -/
  frozen : Bool
  expectationFailed : Bool

def System.initial : System := ⟨[], [], 0, [], [], false, false⟩

def System.held (s : System) : List QueuedMessage := s.live ++ s.drains.flatMap Drain.inHand

/-- What a drain writes on an entry; nothing of it touches the author. -/
structure Annotation where
  content : String → String
  messageMetadata : Option Json → Option Json
  keeps_author : ∀ metadata,
    liftFromPrincipalId (messageMetadata metadata) = liftFromPrincipalId metadata
  requeuedAfterFailure : Bool → Bool

def Annotation.on (a : Annotation) (m : QueuedMessage) : QueuedMessage :=
  { m with
    content := a.content m.content
    messageMetadata := a.messageMetadata m.messageMetadata
    requeuedAfterFailure := a.requeuedAfterFailure m.requeuedAfterFailure }

/-- The payload of a retry, made from the options of the failed turn. -/
structure Retry where
  id : String
  id_ne : id ≠ ""
  content : String
  deliveryGroups : Option (List QueuedDeliveryGroup)
  imageBlocks : Option Json
  fileBlocks : Option Json
  messageMetadata : Option Json
  prepend : QueuedPrepend
  /-- The author each source resolves to. -/
  author : QueuedMessage → Json

def recoverySources (author : QueuedMessage → Json) (entries : List QueuedMessage) :
    List RecoverySource :=
  RecoverySource.normalize <| entries.flatMap fun m =>
    if m.recoverySources.isEmpty then
      [⟨m.id, if m.correlationOrderKnown then some m.submissionIds else none,
        author m, m.userOrigin⟩]
    else m.recoverySources

/-- The new entry of `publish_error_status_and_requeue`. One entry leaves its ids, several
leave their sources. -/
def Retry.entry (r : Retry) (first : QueuedMessage) (rest : List QueuedMessage) :
    QueuedMessage where
  monitorTurn := false
  deliveryGroups := r.deliveryGroups
  prependDeliveryGroups := r.deliveryGroups.map fun _ => []
  id := r.id
  turnId := first.turnId
  mergedSubmissionIds := if rest.isEmpty then first.submissionIds else []
  recoverySources :=
    if rest.isEmpty then first.recoverySources else recoverySources r.author (first :: rest)
  submissionOrder := if rest.isEmpty then first.submissionOrder else 0
  correlationOrderKnown := rest.isEmpty && first.correlationOrderKnown
  provisional := false
  content := r.content
  imageBlocks := r.imageBlocks
  fileBlocks := r.fileBlocks
  persisted := (first :: rest).all (·.persisted)
  requeuedAfterFailure := true
  messageMetadata := r.messageMetadata
  prependContent := r.prepend.content
  prependImageBlocks := r.prepend.imageBlocks
  prependFileBlocks := r.prepend.fileBlocks
  interruptPriority := first.interruptPriority
  userOrigin := (first :: rest).any (·.userOrigin)
  submissions := (first :: rest).flatMap QueuedMessage.submissions

inductive Label where
  | enqueue (r : Request)
  | otherAgent
  | pop (p : Pop)
  | annotate (drain : ℕ) (id : String) (a : Annotation)
  /-- The row of an entry commits. A drain that is not told was cancelled meanwhile. -/
  | append (drain : ℕ) (id turnId : String) (told : Bool)
  | handBackBatch (drain : ℕ) (chosen : String → Bool)
  | handBack (drain : ℕ) (id : String)
  | handBackNew (drain : ℕ) (r : Retry)
  | drop (drain : ℕ)
  | leave (drain : ℕ)
  | merge (drain other : ℕ)
  | freeze

namespace System

variable (s : System)

def enqueue (r : Request) : System :=
  let enqueued := enqueueMessageWithId s.live s.draining s.lastOrder r
  { s with live := enqueued.queue, lastOrder := enqueued.lastOrder }

def pop (p : Pop) : Option System :=
  if s.frozen then none
  else (p.run s.live).map fun r =>
    { s with
      live := r.2
      draining := s.draining ++ registered r.1
      drains := s.drains ++ [⟨r.1.map QueuedMessage.id, true, r.1⟩] }

def restore (live : Option (List QueuedMessage)) : System :=
  match live with
  | some live => { s with live := live }
  | none => { s with expectationFailed := true }

variable (d : ℕ)

def updateInHand (drain : Drain) (id : String) (f : QueuedMessage → QueuedMessage) : System :=
  { s with
    drains := s.drains.set d
      { drain with inHand := drain.inHand.map fun m => if m.id = id then f m else m } }

def annotate (id : String) (a : Annotation) : Option System :=
  s.drains[d]?.map fun drain => s.updateInHand d drain id a.on

/-- `DrainingGuard::drop` -/
def retire (drain : Drain) : List QueuedMessage :=
  if drain.guarded && !s.frozen then s.draining.filter fun m => m.id ∉ drain.ids else s.draining

def drop : Option System :=
  s.drains[d]?.map fun drain =>
    { s with
      draining := s.retire drain
      drains := s.drains.set d { drain with guarded := false } }

def leave : Option System :=
  s.drains[d]?.map fun drain =>
    { s with draining := s.retire drain, drains := s.drains.eraseIdx d }

def commitQueueHistory (id : String) : List QueuedMessage :=
  s.draining.map fun m =>
    if m.matchesSubmission id then { m with provisional := false, persisted := true } else m

/-- `persist_user` of an entry without a row. -/
def append (id turnId : String) (told : Bool) : Option System := do
  let drain ← s.drains[d]?
  let m ← drain.inHand.find? (·.id = id)
  if m.persisted then none
  else
    let stored : System := { s with transcript := s.transcript ++ [⟨m.id, turnId, m.submissions⟩] }
    if told then
      some ({ stored with draining := s.commitQueueHistory id }.updateInHand d drain id
        ({ · with persisted := true }))
    else stored.leave d

def handBackBatch (chosen : String → Bool) : Option System :=
  s.drains[d]?.map fun drain =>
    { s with
      drains := s.drains.set d
        { drain with inHand := drain.inHand.filter fun m => !chosen m.id } }.restore
      (requeueFrontBatch s.live s.draining (drain.inHand.filter fun m => chosen m.id))

def handBack (id : String) : Option System := do
  let drain ← s.drains[d]?
  let (m, rest) ← removeFirst (·.id = id) drain.inHand
  return { s with drains := s.drains.set d { drain with inHand := rest } }.restore
    ((requeueFront s.live s.draining m).map Prod.fst)

/-- All a drain has in hand comes back as one new entry under a fresh id, with the metadata
of the first. Several entries are one turn, which starts when all of them have their row. -/
def handBackNew (r : Retry) : Option System := do
  let drain ← s.drains[d]?
  match drain.inHand with
  | [] => none
  | first :: rest =>
    if (s.held ++ s.draining).any (·.matchesSubmission r.id) then none
    else if liftFromPrincipalId r.messageMetadata ≠ liftFromPrincipalId first.messageMetadata then
      none
    else if !rest.isEmpty && !(first :: rest).all (·.persisted) then none
    else
      return { s with drains := s.drains.set d { drain with inHand := [] } }.restore
        ((requeueFront s.live s.draining (r.entry first rest)).map Prod.fst)

/-- `DrainingGuard::merge` -/
def merge (other : ℕ) : Option System := do
  let drain ← s.drains[d]?
  let rest := s.drains.eraseIdx d
  let folded ← rest[other]?
  if drain.guarded && folded.guarded then
    return { s with
      drains := rest.set other ⟨drain.ids ++ folded.ids, true, drain.inHand ++ folded.inHand⟩ }
  else none

end System

def next (s : System) : Label → Option System
  | .enqueue r => some (s.enqueue r)
  | .otherAgent => some { s with lastOrder := s.lastOrder + 1 }
  | .pop p => s.pop p
  | .annotate d id a => s.annotate d id a
  | .append d id turnId told => s.append d id turnId told
  | .handBackBatch d chosen => s.handBackBatch d chosen
  | .handBack d id => s.handBack d id
  | .handBackNew d r => s.handBackNew d r
  | .drop d => s.drop d
  | .leave d => s.leave d
  | .merge d other => s.merge d other
  | .freeze => some { s with frozen := true }

def Step (s : System) (l : Label) (t : System) : Prop := next s l = some t

/-- Whether an entry is taken for another one: it has its id among its own, or its turn. -/
def sameEntry (m d : QueuedMessage) : Bool := m.matchesSubmission d.id || d.turnId = m.turnId

/-- A pop takes no entry that is the same as one of the draining list, nobody submits an id
again that a running turn has, and a retry of several entries is not one of retries. -/
def Undisturbed (s : System) : Label → Prop
  | .pop p => ∀ r, p.run s.live = some r → ∀ m ∈ r.1, ∀ d ∈ s.draining, sameEntry m d = false
  | .enqueue r => ∀ drain ∈ s.drains, drain.guarded = false →
      ∀ m ∈ drain.inHand, m.matchesSubmission r.id = false
  | .handBackNew d _ => ∀ drain, s.drains[d]? = some drain → 2 ≤ drain.inHand.length →
      ∀ m ∈ drain.inHand, m.recoverySources = []
  | _ => True

end Intentd.QueueDrains
