import Intentd.ImageReferences
import Intentd.ToolBlocks

/-!
# The recorder of a turn

The updates of a session are recorded into the blocks of one message. Text and thoughts are
collected in a buffer, which becomes a block when something else comes; a tool call has one
`tool_use` block that later updates patch in place, one `tool_result` block and the blocks of
its proposals. A block is named by the message and its index.

Every update that is recorded is also published as an event, which names the blocks it made
or changed. An update of a tool that is not known yet and has no name is dropped.

Which attachments the registry hands out for a call is given with the update, and so are the
image files that a chunk's references resolve to. Bodies large enough to be staged during the
turn are not in the model, and what is kept about calls only to decide on stalls and on the
registry is left out.
-/
namespace Intentd.TurnRecorder
open JsonValues UnicodeText ImageReferences ToolBlocks

inductive ToolKind where
  | file | terminal | search | note | git | other

def ToolKind.word : ToolKind → String
  | file => "file"
  | terminal => "terminal"
  | search => "search"
  | note => "note"
  | git => "git"
  | other => "other"

inductive ToolStatus where
  | started | completed | error
  deriving DecidableEq

namespace ToolStatus

def word : ToolStatus → String
  | started => "started"
  | completed => "completed"
  | error => "error"

def ofWord (w : String) : Option ToolStatus :=
  if w = "completed" then some completed
  else if w = "error" then some error
  else if w = "started" then some started
  else none

end ToolStatus

/-- A `tool_call` or `tool_call_update`. A field that is missing is empty, or null. -/
structure MappedToolCall where
  toolCallId : String
  toolName : String
  title : String
  toolKind : ToolKind
  input : Json
  output : Option Json
  status : ToolStatus
  keepsStatus : Bool

/-- A content block that is not text. -/
structure ContentObject where
  fields : Fields
  not_text : (Json.obj fields).strField "type" ≠ some "text"
  not_thinking : (Json.obj fields).strField "type" ≠ some "thinking"

abbrev Dimensions := ℕ × ℕ

def dimensionsJson (d : Dimensions) : Json :=
  .obj [("width", .num d.1.repr), ("height", .num d.2.repr)]

/-- The entries of the `media` sidecar, sorted by source. -/
abbrev Media := List (String × Dimensions)

namespace Media

def insert (src : String) (d : Dimensions) : Media → Media
  | [] => [(src, d)]
  | (k, v) :: rest =>
    if k = src then (src, d) :: rest
    else if src < k then (src, d) :: (k, v) :: rest
    else (k, v) :: insert src d rest

def fields (media : Media) : Fields := media.map fun entry => (entry.1, dimensionsJson entry.2)

end Media

inductive Update where
  /-- A chunk of text or thought, with the images that can be found now. -/
  | chunk (text : String) (thought : Bool) (files : String → Option Dimensions)
  | content (c : ContentObject)
  | tool (tc : MappedToolCall) (registered : List Resource)

inductive Event where
  /-- `chat:stream:delta` -/
  | streamDelta (data : Json)
  | toolCall (data : Json)

structure Transcript where
  messageId : String
  blocks : List Json
  text : String
  pendingThought : Bool
  toolUseIndex : String → Option ℕ
  toolResultIndex : String → Option ℕ
  proposalIndex : String → Option ℕ
  probe : Bool
  probeCache : String → Option (Option Dimensions)
  pendingMedia : Media
  mediaScanPos : ℕ
  mediaRefsSeen : ℕ

def maxImageRefsPerBlock : ℕ := 32

structure RecordedToolBlocks where
  useIndex : ℕ
  resultIndex : Option ℕ
  proposalIndices : List ℕ

def textType (thought : Bool) : String := if thought then "thinking" else "text"

namespace Transcript

def new (messageId : String) (probe : Bool) : Transcript where
  messageId := messageId
  blocks := []
  text := ""
  pendingThought := false
  toolUseIndex := fun _ => none
  toolResultIndex := fun _ => none
  proposalIndex := fun _ => none
  probe := probe
  probeCache := fun _ => none
  pendingMedia := []
  mediaScanPos := 0
  mediaRefsSeen := 0

variable (t : Transcript)

def blockId (index : ℕ) : String := t.messageId ++ ":" ++ index.repr

def pendingBlock : Json :=
  .obj ([("type", .str (textType t.pendingThought)), ("id", .str (t.blockId t.blocks.length)),
    ("text", .str t.text)] ++
    if t.pendingMedia.isEmpty then [] else [("media", .obj t.pendingMedia.fields)])

def snapshotBlocks : List Json := if t.text = "" then t.blocks else t.blocks ++ [t.pendingBlock]

def flushText : Transcript :=
  { t with
    blocks := t.snapshotBlocks
    text := ""
    pendingThought := false
    pendingMedia := []
    mediaScanPos := 0
    mediaRefsSeen := 0 }

def intoBlocks : List Json := t.flushText.blocks

/-- Append a chunk to the buffer. A switch between text and thought closes the open block. -/
def pushChunk (chunk : String) (thought : Bool) : Transcript :=
  let t := if thought = t.pendingThought then t else { t.flushText with pendingThought := thought }
  { t with text := t.text ++ chunk }

/-- Close the open block and append one that is made from its id. -/
def append (block : String → Json) : Transcript :=
  { t.flushText with
    blocks := t.snapshotBlocks ++ [block (t.blockId t.snapshotBlocks.length)] }

def pushBlock (content : Json) : Transcript := t.append fun id => content.insert "id" (.str id)

/-- Probe references that are new. Returns what was resolved. -/
def probeRefs (files : String → Option Dimensions) : List String → Transcript → Fields →
    Fields × Transcript
  | [], t, found => (found, t)
  | src :: refs, t, found =>
    if maxImageRefsPerBlock ≤ t.mediaRefsSeen then (found, t)
    else
      let seen := { t with mediaRefsSeen := t.mediaRefsSeen + 1 }
      if t.pendingMedia.any fun entry => entry.1 = src then probeRefs files refs seen found
      else
        let dims := (t.probeCache src).getD (files src)
        let cached := { seen with probeCache := Function.update t.probeCache src (some dims) }
        match dims with
        | none => probeRefs files refs cached found
        | some d =>
          probeRefs files refs { cached with pendingMedia := t.pendingMedia.insert src d }
            (Fields.insert src (dimensionsJson d) found)

def probeNewImages (files : String → Option Dimensions) : Option Fields × Transcript :=
  if !t.probe || t.pendingThought || maxImageRefsPerBlock ≤ t.mediaRefsSeen then (none, t)
  else
    let scanned := scanImageRefs t.text t.mediaScanPos
    let probed := probeRefs files scanned.1 { t with mediaScanPos := scanned.2 } []
    (if probed.1.isEmpty then none else some probed.1, probed.2)

def acpTitle (block : Json) : Option String :=
  (block.get "input").bind fun input => input.strField "_acpTitle"

variable (tc : MappedToolCall)

/-- What an update changes in the `tool_use` block of its call: what it has replaces what the
block has. -/
def patchToolUse (block : Json) : Json :=
  let named := if tc.title ≠ "" ∧ isBlank tc.toolName = false then
    block.insert "name" (.str tc.toolName) else block
  let patched :=
    if tc.input.isNull then
      if tc.title = "" then named
      else
        match named.get "inputTruncated", named.get "input" with
        | some (.bool true), _ => named
        | _, some (.obj input) =>
          named.insert "input" (.obj (Fields.insert "_acpTitle" (.str tc.title) input))
        | _, _ => named
    else
      let title := if tc.title = "" then (acpTitle named).getD "" else tc.title
      ((named.insert "input" (attachAcpTitle tc.input title)).remove "inputTruncated").remove
        "inputBytes"
  match patched.get "metadata" with
  | some (.obj fields) =>
    patched.insert "metadata" (.obj (Fields.insert "status" (.str tc.status.word) fields))
  | _ => patched

def patchToolResult (output : Json) (isError : Bool) (block : Json) : Json :=
  ((((block.insert "output" output).insert "is_error" (.bool isError)).remove
    "outputTruncated").remove
    "outputBytes")

/-- The `tool_use` block of an update. An unknown call without a name has none. -/
def recordUse : Option (Transcript × ℕ) :=
  match t.toolUseIndex tc.toolCallId with
  | some i => some ({ t with blocks := t.blocks.modify i (patchToolUse tc) }, i)
  | none =>
    if isBlank tc.toolName then none
    else
      let appended := t.append fun id => buildToolUseBlock id tc.toolName tc.title tc.input
        tc.toolCallId tc.toolKind.word tc.status.word
      some ({ appended with
        toolUseIndex :=
          Function.update t.toolUseIndex tc.toolCallId (some t.snapshotBlocks.length) },
        t.snapshotBlocks.length)

/-- The `tool_result` block of a call that ended with an output. -/
def recordResult : Transcript × Option ℕ :=
  match tc.output with
  | none => (t, none)
  | some output =>
    if tc.status = .started then (t, none)
    else
      let isError : Bool := tc.status = .error
      match t.toolResultIndex tc.toolCallId with
      | some i => ({ t with blocks := t.blocks.modify i (patchToolResult output isError) }, some i)
      | none =>
        let appended := t.append fun id => toolResultBlock id tc.toolCallId output isError
        ({ appended with
          toolResultIndex :=
            Function.update t.toolResultIndex tc.toolCallId (some t.snapshotBlocks.length) },
          some t.snapshotBlocks.length)

variable (toolCallId : String)

/-- The block of one item. The first item of a call has one place, the others are appended. -/
def recordProposal (first : Bool) (item : Json) : Transcript × ℕ :=
  match if first then t.proposalIndex toolCallId else none with
  | some i =>
    ({ t with blocks := t.blocks.set i (buildProposalResourceBlock (t.blockId i) item) }, i)
  | none =>
    let appended := t.append fun id => buildProposalResourceBlock id item
    ({ appended with
      proposalIndex := if first then
          Function.update t.proposalIndex toolCallId (some t.snapshotBlocks.length)
        else t.proposalIndex }, t.snapshotBlocks.length)

def recordProposals (toolCallId : String) : Bool → List Json → Transcript → Transcript × List ℕ
  | _, [], t => (t, [])
  | first, item :: items, t =>
    let recorded := t.recordProposal toolCallId first item
    let rest := recordProposals toolCallId false items recorded.1
    (rest.1, recorded.2 :: rest.2)

/-- The items that an update attaches: the registered ones, or the proposal in the output of
a call that succeeded. -/
def attachments (rebuild : Json → Option Resource) (status : ToolStatus) (output : Option Json)
    (registered : List Json) : List Json :=
  if status = .started then []
  else if registered.isEmpty then
    if status = .completed then (output.bind (liftProposalResource rebuild)).toList else []
  else registered

def recordTool (rebuild : Json → Option Resource) (tc : MappedToolCall) (registered : List Json) :
    Option (Transcript × RecordedToolBlocks) :=
  (t.recordUse tc).map fun used =>
    let resulted := used.1.recordResult tc
    let proposed := recordProposals tc.toolCallId true
      (attachments rebuild tc.status tc.output registered) resulted.1
    (proposed.1, ⟨used.2, resulted.2, proposed.2⟩)

def toolUseBlock : Option Json :=
  (t.toolUseIndex toolCallId).bind fun i => t.blocks[i]?

def toolStatusFor : Option ToolStatus :=
  ((t.toolUseBlock toolCallId).bind fun block => block.get "metadata").bind fun fields =>
    (fields.strField "status").bind ToolStatus.ofWord

def toolNameFor : Option String :=
  (t.toolUseBlock toolCallId).bind fun block => block.strField "name"

end Transcript

/-- The fields of a `chat:stream:delta` that every chunk has. -/
def chunkFields (agentId : String) (t : Transcript) (content : Json) (index : ℕ)
    (blockType : String) : Fields :=
  [("agentId", .str agentId), ("content", content), ("messageId", .str t.messageId),
    ("blockIndex", .num index.repr), ("blockId", .str (t.blockId index)),
      ("blockType", .str blockType)]

/-- Name, title, kind and input of a call. One that was known is described by its block. -/
structure ToolDescription where
  toolName : String
  title : String
  toolKind : String
  input : Json

def describe (tc : MappedToolCall) (known : Bool) (block : Json) : ToolDescription :=
  if known then
    { toolName := (block.strField "name").getD tc.toolName
      title := (Transcript.acpTitle block).getD tc.title
      toolKind := (((block.get "metadata").getD .null).strField "toolKind").getD tc.toolKind.word
      input := (block.get "input").getD .null }
  else ⟨tc.toolName, tc.title, tc.toolKind.word, tc.input⟩

def toolFields (agentId : String) (t : Transcript) (tc : MappedToolCall) (known : Bool)
    (registered : List Json) (recorded : RecordedToolBlocks) : Fields :=
  let d := describe tc known ((t.blocks[recorded.useIndex]?).getD .null)
  [("agentId", .str agentId), ("toolName", .str d.toolName), ("title", .str d.title),
    ("toolKind", .str d.toolKind), ("toolCallId", .str tc.toolCallId), ("input", d.input),
    ("status", .str tc.status.word),
    ("messageId", .str t.messageId), ("blockIndex", .num recorded.useIndex.repr),
    ("blockId", .str (t.blockId recorded.useIndex))] ++ (match tc.output with
    | some output => [("output", output)]
    | none => []) ++
  (match recorded.resultIndex with
    | some i => [("resultBlockIndex", .num i.repr), ("resultBlockId", .str (t.blockId i))]
    | none => []) ++
  (if recorded.proposalIndices.isEmpty then []
    else [("proposalBlockIds", .arr (recorded.proposalIndices.map fun i => .str (t.blockId i)))]) ++
  (if registered.isEmpty then [] else [("registeredAttachments", .arr registered)])

section Route

variable (rebuild : Json → Option Resource) (agentId : String) (t : Transcript)

def routeChunk (chunk : String) (thought : Bool) (files : String → Option Dimensions) :
    Transcript × Option Event :=
  let pushed := t.pushChunk chunk thought
  let probed := pushed.probeNewImages files
  (probed.2, some (.streamDelta (.obj
    (chunkFields agentId pushed (.str chunk) pushed.blocks.length (textType thought) ++
      [("textOffset", .num (pushed.text.utf8ByteSize - chunk.utf8ByteSize).repr)] ++
      match probed.1 with
      | some media => [("media", .obj media)]
      | none => []))))

def routeContent (c : ContentObject) : Transcript × Option Event :=
  let pushed := t.pushBlock (.obj c.fields)
  (pushed,
    some (.streamDelta (.obj (chunkFields agentId pushed (.obj c.fields) t.snapshotBlocks.length
      (((Json.obj c.fields).strField "type").getD "unknown")))))

def routeTool (tc : MappedToolCall) (claimed : List Resource) : Transcript × Option Event :=
  let status := if tc.keepsStatus then (t.toolStatusFor tc.toolCallId).getD tc.status else tc.status
  let tc := { tc with status := status }
  let known := (t.toolNameFor tc.toolCallId).isSome
  let registered := if tc.status = .started then [] else claimed.map Resource.item
  match t.recordTool rebuild tc registered with
  | none => (t, none)
  | some (t, recorded) =>
    (t, some (.toolCall (.obj (toolFields agentId t tc known registered recorded))))

def route : Update → Transcript × Option Event
  | .chunk text thought files => routeChunk agentId t text thought files
  | .content c => routeContent agentId t c
  | .tool tc registered => routeTool rebuild agentId t tc registered

end Route

end Intentd.TurnRecorder
