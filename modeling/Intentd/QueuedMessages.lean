import Mathlib.Data.List.Sort
import Intentd.JsonValues
import Intentd.UnicodeText

/-!
# Queued messages and how they merge

An entry of an agent's send queue, the questions the daemon asks about it, and the merge
of two pending entries of one human author. An entry also carries the submissions whose
text it holds; nothing in the code reads that list, it is what statements about lost and
doubled messages are about.

An entry under edit or under a debounce hold is not in the model: the operations here
neither edit nor hold. Times are left out, and with them the latest submission time a
merge keeps.
-/
namespace Intentd.QueuedMessages
open JsonValues UnicodeText

section Metadata

def fromPrincipalIdKey : String := "fromPrincipalId"
def humanAuthorKey : String := "humanAuthor"
def mergedMessageMetadataKey : String := "mergedMessageMetadata"

variable (metadata : Option Json)

def stringField (key : String) : Option String :=
  metadata.bind (·.strField key)

def liftFromPrincipalId : Option String :=
  (stringField metadata fromPrincipalIdKey).filter (· ≠ "")

/-- The daemon's stamp goes before what the client says. -/
def isHumanAuthoredMetadata : Bool :=
  if (liftFromPrincipalId metadata).isSome then true
  else if (metadata.bind Json.asObj).isNone then true
  else
    match stringField metadata "type" with
    | some kind => kind = "question_answers"
    | none =>
      if (stringField metadata "fromAgentId").any (!isBlank ·) then false
      else stringField metadata "source" ≠ some "system"

def historicalHumanAuthor : Option Json :=
  metadata.bind (·.get humanAuthorKey)

/-- Imported human instructions have attribution, but no local admission. -/
def isUnboundHistoricalHuman : Bool :=
  (liftFromPrincipalId metadata).isNone && (historicalHumanAuthor metadata).isSome

def isDiscussion : Bool :=
  stringField metadata "type" = some "discussion_message"

def monitorId (metadata : Option Json) : Option String :=
  if stringField metadata "type" = some "script_monitor_wake" then stringField metadata "monitorId"
  else none

/-- The original metadata of merged submissions is collected under a reserved key. -/
def mergeQueueMetadata (existing incoming : Option Json) : Option Json :=
  match existing with
  | some (.obj metadata) =>
    match (Fields.get mergedMessageMetadataKey metadata).getD (.arr [.obj metadata]) with
    | .arr contributions =>
      let added := ((incoming.bind (·.get mergedMessageMetadataKey)).bind Json.asArr).getD
        [incoming.getD .null]
      some (.obj (Fields.insert mergedMessageMetadataKey (.arr (contributions ++ added)) metadata))
    | other => some (.obj (Fields.insert mergedMessageMetadataKey other metadata))
  | other => other

/-- `HumanAuthor::to_wire` of a stored snapshot; one that does not decode is all unknown. -/
def historicalAuthorWire (raw : Json) : Json :=
  let known := ["login", "displayName", "avatarUrl", "identity", "sourcePrincipalId"]
  let optional (key : String) : Option Json :=
    match raw.get key with
    | none | some .null => some .null
    | some (.str s) => some (.str s)
    | some _ => none
  let identity : Option (Option Json) :=
    match raw.get "identity" with
    | none | some .null => some none
    | some v =>
      match v.strField "provider", v.strField "host", v.strField "externalUserId" with
      | some provider, some host, some user =>
        some (some (.obj [("provider", .str provider), ("host", .str host),
          ("externalUserId", .str user)]))
      | _, _, _ => none
  match raw.asObj, optional "login", optional "displayName", optional "avatarUrl", identity,
      optional "sourcePrincipalId" with
  | some fields, some login, some displayName, some avatarUrl, some identity, some _ =>
    if fields.all (·.1 ∈ known) then
      .obj ([("principalId", .null), ("login", login), ("displayName", displayName),
        ("avatarUrl", avatarUrl)] ++ (identity.map fun v => ("identity", v)).toList)
    else .obj [("principalId", .null), ("login", .null), ("displayName", .null),
      ("avatarUrl", .null)]
  | _, _, _, _, _, _ =>
    .obj [("principalId", .null), ("login", .null), ("displayName", .null), ("avatarUrl", .null)]

end Metadata

/-- A submission that was accepted, told from every other by its order. -/
structure Submission where
  order : ℕ
  id : String
  content : String
  principal : Option String
  deriving DecidableEq, Repr

structure RecoverySource where
  messageId : String
  submissionIds : Option (List String)
  author : Json
  userOrigin : Bool
  deriving Repr

structure QueuedDeliveryGroup where
  sourceId : Option String
  isPrepend : Bool
  content : String
  imageBlocks : Option Json
  fileBlocks : Option Json
  deriving Repr

structure QueuedMessage where
  monitorTurn : Bool
  deliveryGroups : Option (List QueuedDeliveryGroup)
  prependDeliveryGroups : Option (List QueuedDeliveryGroup)
  id : String
  turnId : String
  mergedSubmissionIds : List String
  recoverySources : List RecoverySource
  submissionOrder : ℕ
  correlationOrderKnown : Bool
  provisional : Bool
  content : String
  imageBlocks : Option Json
  fileBlocks : Option Json
  persisted : Bool
  requeuedAfterFailure : Bool
  messageMetadata : Option Json
  prependContent : Option String
  prependImageBlocks : Option Json
  prependFileBlocks : Option Json
  interruptPriority : Bool
  userOrigin : Bool
  submissions : List Submission
  deriving Repr

def hasBlocks (blocks : Option Json) : Bool :=
  (blocks.bind Json.asArr).any (!·.isEmpty)

def QueuedDeliveryGroup.hasAttachments (group : QueuedDeliveryGroup) : Bool :=
  hasBlocks group.imageBlocks || hasBlocks group.fileBlocks

def mergeBlockArrays : Option Json → Option Json → Option Json
  | some (.arr a), some (.arr b) => some (.arr (a ++ b))
  | some a, _ => some a
  | none, second => second

namespace RecoverySource

/-- Whether two sources are one: the same message, origin and author. -/
def isSame (a b : RecoverySource) : Bool :=
  a.messageId = b.messageId && a.userOrigin == b.userOrigin &&
    match a.author.strField "principalId", b.author.strField "principalId" with
    | some p, some q => p = q
    | _, _ => a.author.same b.author

/-- One more source: joined to the first one that is the same, or added. -/
def add (source : RecoverySource) : List RecoverySource → List RecoverySource
  | [] => [source]
  | first :: rest =>
    if first.isSame source then
      { first with
        submissionIds := match first.submissionIds, source.submissionIds with
          | some ids, some incoming =>
            some (incoming.foldl (fun ids id => if id ∈ ids then ids else ids ++ [id]) ids)
          | _, _ => none } :: rest
    else first :: add source rest

def normalize (sources : List RecoverySource) : List RecoverySource :=
  sources.foldl (fun result source => add source result) []

end RecoverySource

namespace QueuedMessage

variable (m : QueuedMessage)

def matchesSubmission (id : String) : Bool :=
  m.id = id || id ∈ m.mergedSubmissionIds || m.recoverySources.any fun source =>
      source.messageId = id || source.submissionIds.any (id ∈ ·)

def isHumanQueueEntry : Bool :=
  isHumanAuthoredMetadata m.messageMetadata || isUnboundHistoricalHuman m.messageMetadata

def hasAttachments : Bool :=
  [m.imageBlocks, m.fileBlocks, m.prependImageBlocks, m.prependFileBlocks].any hasBlocks ||
    m.deliveryGroups.any (·.any QueuedDeliveryGroup.hasAttachments) ||
    m.prependDeliveryGroups.any (·.any QueuedDeliveryGroup.hasAttachments)

def canMergePending (incoming : QueuedMessage) : Bool :=
  !isDiscussion m.messageMetadata && !isDiscussion incoming.messageMetadata &&
  !m.persisted && !incoming.persisted && !m.hasAttachments && !incoming.hasAttachments &&
  m.isHumanQueueEntry && incoming.isHumanQueueEntry &&
  !isUnboundHistoricalHuman m.messageMetadata &&
  !isUnboundHistoricalHuman incoming.messageMetadata &&
  (liftFromPrincipalId m.messageMetadata).any fun author =>
    liftFromPrincipalId incoming.messageMetadata = some author

/-- The ids of a merged entry, each once, its own last. -/
def submissionIds : List String :=
  let ids := (m.mergedSubmissionIds.filter (· ≠ "")).foldl
    (fun seen id => if id ∈ seen then seen else seen ++ [id]) []
  if m.id ∈ ids then ids else ids ++ [m.id]

/-- The sources an entry stands for when it is merged with one that has some. -/
def recoverySource : List RecoverySource :=
  if m.recoverySources.isEmpty then
    let author := match historicalHumanAuthor m.messageMetadata with
      | some raw => historicalAuthorWire raw
      | none =>
        if m.isHumanQueueEntry then
          .obj [("principalId", ((liftFromPrincipalId m.messageMetadata).map Json.str).getD .null),
            ("login", .null), ("displayName", .null), ("avatarUrl", .null)]
        else .null
    [⟨m.id, if m.correlationOrderKnown then some m.submissionIds else none, author, m.userOrigin⟩]
  else m.recoverySources

def appendPending (incoming : QueuedMessage) : QueuedMessage :=
  { m with
    recoverySources :=
      if m.recoverySources.isEmpty && incoming.recoverySources.isEmpty then m.recoverySources
      else RecoverySource.normalize (m.recoverySource ++ incoming.recoverySource)
    correlationOrderKnown := m.correlationOrderKnown || incoming.correlationOrderKnown
    submissionOrder := max m.submissionOrder incoming.submissionOrder
    content := m.content ++ "\n\n" ++ incoming.content
    mergedSubmissionIds := m.mergedSubmissionIds ++ incoming.submissionIds
    imageBlocks := mergeBlockArrays m.imageBlocks incoming.imageBlocks
    fileBlocks := mergeBlockArrays m.fileBlocks incoming.fileBlocks
    messageMetadata := mergeQueueMetadata m.messageMetadata incoming.messageMetadata
    prependContent := match m.prependContent, incoming.prependContent with
      | some existing, some text => some (existing ++ "\n\n" ++ text)
      | none, text => text
      | existing, none => existing
    prependImageBlocks := mergeBlockArrays m.prependImageBlocks incoming.prependImageBlocks
    prependFileBlocks := mergeBlockArrays m.prependFileBlocks incoming.prependFileBlocks
    userOrigin := m.userOrigin || incoming.userOrigin
    submissions := m.submissions ++ incoming.submissions }

/-- Neither under edit nor held here, so only an import waits for its owner. -/
def readyToSend : Bool := !isUnboundHistoricalHuman m.messageMetadata

end QueuedMessage

structure QueuedPrepend where
  deliveryGroups : Option (List QueuedDeliveryGroup) := none
  content : Option String := none
  imageBlocks : Option Json := none
  fileBlocks : Option Json := none

/-- The arguments of an enqueue. Ids pass `validate_submission_id` or are drawn. -/
structure Request where
  id : String
  id_ne : id ≠ ""
  content : String
  imageBlocks : Option Json := none
  fileBlocks : Option Json := none
  messageMetadata : Option Json := none
  prepend : QueuedPrepend := {}
  interrupt : Bool := false
  userOrigin : Bool := true
  monitorTurn : Bool := false

def Request.submission (r : Request) (order : ℕ) : Submission :=
  ⟨order, r.id, r.content, liftFromPrincipalId r.messageMetadata⟩

def Request.entry (r : Request) (order : ℕ) : QueuedMessage where
  monitorTurn := r.monitorTurn
  deliveryGroups := none
  prependDeliveryGroups := r.prepend.deliveryGroups
  id := r.id
  turnId := r.id
  mergedSubmissionIds := []
  recoverySources := []
  submissionOrder := order
  correlationOrderKnown := true
  provisional := false
  content := r.content
  imageBlocks := r.imageBlocks
  fileBlocks := r.fileBlocks
  persisted := false
  requeuedAfterFailure := false
  messageMetadata := r.messageMetadata
  prependContent := r.prepend.content
  prependImageBlocks := r.prepend.imageBlocks
  prependFileBlocks := r.prepend.fileBlocks
  interruptPriority := r.interrupt
  userOrigin := r.userOrigin
  submissions := [r.submission order]

/-- The later of two entries, the second one if they tie (`max_by_key`). -/
def laterEntry (best : Option (QueuedMessage × ℕ)) (next : QueuedMessage × ℕ) :
    Option (QueuedMessage × ℕ) :=
  match best with
  | some b => if b.1.submissionOrder ≤ next.1.submissionOrder then some next else some b
  | none => some next

variable (queue : List QueuedMessage)

/-- The human entry of the latest submission, and where it stands. -/
def latestHuman : Option (QueuedMessage × ℕ) :=
  (queue.zipIdx.filter (·.1.isHumanQueueEntry)).foldl laterEntry none

/-- A popped human entry that is later than `order` and may still come back. -/
def provisionalBarrier (draining : List QueuedMessage) (order : ℕ) : Bool :=
  draining.any fun entry =>
    entry.provisional && entry.isHumanQueueEntry && decide (order < entry.submissionOrder)

structure Enqueued where
  queue : List QueuedMessage
  lastOrder : ℕ
  entry : QueuedMessage
  position : ℕ
  /-- Whether this was a new submission, not a retry of one that is held. -/
  accepted : Bool

def insertQueued (lastOrder : ℕ) (queued : QueuedMessage) : Enqueued :=
  if queued.interruptPriority then
    let index := (queue.takeWhile (·.interruptPriority)).length
    ⟨queue.insertIdx index queued, lastOrder, queued, index, true⟩
  else ⟨queue ++ [queued], lastOrder, queued, queue.length, true⟩

/-- `enqueue_message_with_id_locked`. -/
def enqueueMessageWithId (draining : List QueuedMessage) (lastOrder : ℕ) (r : Request) : Enqueued :=
  match queue.zipIdx.find? (·.1.matchesSubmission r.id) with
  | some (existing, position) => ⟨queue, lastOrder, existing, position, false⟩
  | none =>
    match draining.zipIdx.find? (·.1.matchesSubmission r.id) with
    | some (existing, position) => ⟨queue, lastOrder, existing, position, false⟩
    | none =>
      let queued := r.entry (lastOrder + 1)
      match latestHuman queue with
      | some (previous, position) =>
        if !provisionalBarrier draining previous.submissionOrder &&
          previous.canMergePending queued then
          ⟨queue.modify position (·.appendPending queued), lastOrder + 1,
            previous.appendPending queued, position, true⟩
        else insertQueued queue (lastOrder + 1) queued
      | none => insertQueued queue (lastOrder + 1) queued

/-- The popped human entries that may come back and are not back yet. -/
def barriers (draining : List QueuedMessage) : List QueuedMessage :=
  draining.filter fun m =>
    m.provisional && m.isHumanQueueEntry && !queue.any (·.matchesSubmission m.id)

/-- The human entries of a queue, by name, and the popped ones that are not back, in the
order of their submissions. -/
def arrivals (draining : List QueuedMessage) : List (ℕ × Option String) :=
  List.insertionSort (fun a b => a.1 ≤ b.1)
    ((queue.filter (·.isHumanQueueEntry)).map (fun m => (m.submissionOrder, some m.id)) ++
      (barriers queue draining).map (fun m => (m.submissionOrder, none)))

/-- The loop of `coalesce_pending_queue`: an entry is merged into the one before it in
the order of arrival, unless a popped one is between. `none` is a failed expectation. -/
def coalesceArrivals :
    List (ℕ × Option String) → Option String → List QueuedMessage → Option (List QueuedMessage)
  | [], _, queue => some queue
  | (_, none) :: rest, _, queue => coalesceArrivals rest none queue
  | (_, some id) :: rest, previous, queue =>
    match queue.findIdx? (·.id = id) with
    | none => none
    | some index =>
      match previous.bind fun previous => queue.findIdx? (·.id = previous) with
      | none => coalesceArrivals rest (some id) queue
      | some older =>
        match queue[older]?, queue[index]? with
        | some target, some incoming =>
          if target.canMergePending incoming then
            let shifted := if index < older then older - 1 else older
            if shifted < (queue.eraseIdx index).length then
              coalesceArrivals rest previous
                ((queue.eraseIdx index).modify shifted (·.appendPending incoming))
            else none
          else coalesceArrivals rest (some id) queue
        | _, _ => none

def coalescePendingQueue (draining : List QueuedMessage) : Option (List QueuedMessage) :=
  coalesceArrivals (arrivals queue draining) none queue

def requeueFrontBatch (draining messages : List QueuedMessage) : Option (List QueuedMessage) :=
  if messages.isEmpty then some queue else coalescePendingQueue (messages ++ queue) draining

/-- `requeue_front`, which looks the restored entry up again. -/
def requeueFront (draining : List QueuedMessage) (message : QueuedMessage) :
    Option (List QueuedMessage × QueuedMessage × ℕ) := do
  let restored ← coalescePendingQueue (message :: queue) draining
  let (entry, position) ← restored.zipIdx.find? (·.1.matchesSubmission message.id)
  return (restored, entry, position)

/-- The first element with a property, and the rest. -/
def removeFirst {α : Type} (p : α → Bool) : List α → Option (α × List α)
  | [] => none
  | a :: rest => if p a then some (a, rest) else (removeFirst p rest).map fun r => (r.1, a :: r.2)

/-- The ways entries leave the live queue. A gate and the export block are whatever the
surroundings answer. -/
inductive Pop where
  | message (blocked : QueuedMessage → Bool)
  | userOrigin
  | readyBatch (requireUserOrigin : Bool) (minReady : ℕ)
  | byId (id : String) (gate : QueuedMessage → Bool) (destinationOwner : Bool)
  | byIds (ids : List String) (gate : QueuedMessage → Bool)

/-- Entries that only their own delivery route may take. -/
def isRouted (m : QueuedMessage) : Bool :=
  isDiscussion m.messageMetadata || m.monitorTurn || (monitorId m.messageMetadata).isSome

def popFirst (p : QueuedMessage → Bool) (queue : List QueuedMessage) :
    Option (List QueuedMessage × List QueuedMessage) :=
  (removeFirst p queue).map fun r => ([r.1], r.2)

/-- The popped entries and the queue that is left. -/
def Pop.run : Pop → List QueuedMessage → Option (List QueuedMessage × List QueuedMessage)
  | .message blocked, queue => popFirst (fun m => m.readyToSend && !blocked m) queue
  | .userOrigin, queue => popFirst (fun m => m.readyToSend && m.userOrigin) queue
  | .readyBatch requireUserOrigin minReady, queue =>
    if queue.any (fun m => m.readyToSend && isRouted m) then none
    else if requireUserOrigin && !queue.any (fun m => m.readyToSend && m.userOrigin) then none
    else if (queue.filter (·.readyToSend)).length < minReady then none
    else some (queue.filter (·.readyToSend), queue.filter (!·.readyToSend))
  | .byId id gate destinationOwner, queue => do
      let (found, rest) ← removeFirst (·.matchesSubmission id) queue
      if found.monitorTurn || isDiscussion found.messageMetadata then none
      else if !gate found then none
      else if isUnboundHistoricalHuman found.messageMetadata && !destinationOwner then none
      else some ([found], rest)
  | .byIds ids gate, queue =>
    let entries := queue.filter (·.id ∈ ids)
    if ids.isEmpty || !decide ids.Nodup || ids.any isBlank then none
    else if entries.length ≠ ids.length then none
    else if entries.any (fun m => !gate m || !m.readyToSend || isRouted m) then none
    else some (entries, queue.filter (·.id ∉ ids))

/-- The copies of popped entries in the draining list. -/
def registered (entries : List QueuedMessage) : List QueuedMessage :=
  entries.map fun entry => { entry with provisional := !entry.persisted }

end Intentd.QueuedMessages
