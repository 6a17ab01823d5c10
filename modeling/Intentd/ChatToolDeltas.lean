import Intentd.ChatConflation
import Intentd.ToolBlocks

/-!
# Deltas of tool calls

The mapper of a chat subscription makes the blocks of a tool call from its event, under the
ids that the event names, and remembers every block it sent. Texts are remembered as markers;
their text and media are kept apart and put together again when a block is asked for.

`slim` is the preview that a slim subscription gets of a tool's input or output, and
`rebuild` the parser of proposals that were collapsed into a text.
-/
namespace Intentd.ChatConflation
open JsonValues ToolBlocks

/-- The items that an event attaches, with the ids of their blocks. -/
def attachedBlocks (rebuild : Json → Option Resource) (data : Json) (status : String) :
    List (String × Json) :=
  let registered := (data.get "registeredAttachments").bind Json.asArr
  if status = "completed" ∨ (registered.getD []).isEmpty = false then
    let items := registered.getD ((data.get "output").bind (liftProposalResource rebuild)).toList
    let ids := (((data.get "proposalBlockIds").bind Json.asArr).getD []).filterMap Json.asStr
    (items.zip ids).map fun attached =>
      (attached.2, buildProposalResourceBlock attached.2 attached.1)
  else []

def resultBlocks (slim : Json → Json) (data : Json) (toolCallId status : String) :
    List (String × Json) :=
  match data.get "output", data.strField "resultBlockId" with
  | some output, some resultId =>
    [(resultId, slim (toolResultBlock resultId toolCallId output (status = "error")))]
  | _, _ => []

/-- The blocks of a tool event, under their ids. -/
def toolBlocks (rebuild : Json → Option Resource) (slim : Json → Json) (data : Json)
    (blockId toolCallId : String) : List (String × Json) :=
  let status := (data.strField "status").getD "started"
  (blockId, slim (buildToolUseBlock blockId ((data.strField "toolName").getD "")
    ((data.strField "title").getD "") ((data.get "input").getD .null) toolCallId
    ((data.strField "toolKind").getD "") status)) ::
  if status = "completed" ∨ status = "error" then
    resultBlocks slim data toolCallId status ++ attachedBlocks rebuild data status
  else []

namespace ChatDeltaState

/-- A mapper for a new subscription, which gets blocks as they are. -/
def new (agentId : String) (encoding : DeltaEncoding) : ChatDeltaState where
  agentId := agentId
  encoding := encoding
  bound := id
  bound_id := strField_id
  textAcc := fun _ => none
  snapshotText := fun _ => none
  mediaAcc := fun _ => none
  seenIds := []
  emittedIds := []
  messageId := none
  liveBlocks := []

/-- Send blocks one after the other: the entities of those that are new, the entities of the
others, and the state. -/
def sendBlocks (messageId : String) : List (String × Json) → ChatDeltaState →
    (List Json × List Json) × ChatDeltaState
  | [], st => (([], []), st)
  | (id, block) :: blocks, st =>
    let noted := st.noteBlock id
    let sent := sendBlocks messageId blocks (noted.2.rememberBlock id block)
    (if noted.1 then (st.entity messageId block :: sent.1.1, sent.1.2)
      else (sent.1.1, st.entity messageId block :: sent.1.2), sent.2)

def toolDelta (rebuild : Json → Option Resource) (slim : Json → Json) (st : ChatDeltaState)
    (data : Json) : Option Json × ChatDeltaState :=
  match data.strField "blockId", data.strField "messageId" with
  | some blockId, some messageId =>
    let st := { st with messageId := some messageId }
    match data.strField "toolCallId" with
    | none => (none, st)
    | some toolCallId =>
      let sent := sendBlocks messageId (toolBlocks rebuild slim data blockId toolCallId) st
      (some (.obj [("added", .arr sent.1.1), ("updated", .arr sent.1.2), ("removedIds", .arr [])]),
        sent.2)
  | _, _ => (none, st)

variable (st : ChatDeltaState)

/-- A remembered block put together again: a text marker gets its text and media. -/
def rebuilt (id : String) (block : Json) : Json :=
  match block.strField "type" with
  | some blockType =>
    if (block.get "text").isNone ∧ (blockType = "text" ∨ blockType = "thinking") then
      st.bound (withMedia
        (.obj [("type", .str blockType), ("id", .str id), ("text", .str ((st.textAcc id).getD ""))])
        (st.mediaAcc id))
    else block
  | none => block

/-- The blocks of the best-effort terminal frame, under their ids. -/
def bestEffortBlocks : Fields :=
  st.liveBlocks.map fun live => (live.1, st.rebuilt live.1 live.2)

def liveBlock (id : String) : Option Json := Fields.get id st.bestEffortBlocks

theorem liveBlock_eq (id : String) :
    st.liveBlock id = (Fields.get id st.liveBlocks).map (st.rebuilt id) := by
  unfold liveBlock bestEffortBlocks
  induction st.liveBlocks with
  | nil => rfl
  | cons live rest ih =>
    rw [List.map_cons, Fields.get, Fields.get]
    split_ifs with hid
    · rw [Option.map_some, ← hid]
    · exact ih

end ChatDeltaState

end Intentd.ChatConflation
