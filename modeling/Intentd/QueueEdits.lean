import Intentd.LabelledRuns
import Intentd.QueuedMessages

/-!
# Edits of a queued message

An editor holds an entry with the draft it has read and saves a later draft. What the queue puts
before or behind the entry in between is kept with it and joined to the saved draft. A hold takes
over what arrived after its draft was read, provided that the draft is still the first part of the
entry's text, and that nothing is left of an earlier edit.
-/
namespace Intentd.QueueEdits
open JsonValues QueuedMessages LabelledRuns List

structure Entry extends QueuedMessage where
  editing : Bool := false
  editAppended : String := ""
  editPrepended : String := ""
  editingMessageId : Option String := none

/-- A call of `agent.editQueuedMessage`, with what is looked up for its caller. -/
structure Edit where
  messageId : String
  content : String
  editing : Option Bool
  gate : QueuedMessage → Except String Unit := fun _ => .ok ()
  /-- The metadata a caller of the wire leaves on an entry. -/
  restamp : Option (Option Json → Except String (Option Json)) := none
  preamble : Option String := none

def stripPrefix (text part : String) : Option String :=
  (text.toList.dropPrefix? part.toList).map String.ofList

def stripSuffix (text part : String) : Option String :=
  (text.toList.dropSuffix? part.toList).map String.ofList

def prependCollaboratorPreamble (content preamble : String) : String :=
  if (stripPrefix content (preamble ++ "\n\n")).isSome then content
  else preamble ++ "\n\n" ++ content

namespace Entry

variable (e : Entry)

def appendPending (incoming : Entry) : Entry :=
  let merged :=
    { e with toQueuedMessage := e.toQueuedMessage.appendPending incoming.toQueuedMessage }
  if incoming.editing && !e.editing then
    { merged with
      editingMessageId := some (incoming.editingMessageId.getD incoming.id)
      editPrepended := e.content ++ "\n\n" ++ incoming.editPrepended
      editAppended := incoming.editAppended
      editing := true }
  else if e.editing then
    { merged with editAppended := e.editAppended ++ ("\n\n" ++ incoming.content) }
  else merged

/-- A new text leaves no saved groups; their attachments stay. -/
def setContent (content : String) : Entry :=
  match e.deliveryGroups with
  | some groups =>
    if content = e.content then e
    else
      let all := e.prependDeliveryGroups.getD [] ++ groups
      { e with
        content := content
        deliveryGroups := none
        prependDeliveryGroups := none
        imageBlocks :=
          all.foldl (fun blocks group => mergeBlockArrays blocks group.imageBlocks) none
        fileBlocks := all.foldl (fun blocks group => mergeBlockArrays blocks group.fileBlocks) none
        prependContent := none
        prependImageBlocks := none
        prependFileBlocks := none }
  | none => { e with content := content }

/-- The text and the bookkeeping an accepted call leaves. -/
def redraft (content : String) (editing : Option Bool) : Entry :=
  let joined :=
    if content = e.content then content else e.editPrepended ++ content ++ e.editAppended
  if e.editing && editing ≠ some false then e.setContent joined
  else if !e.editing && editing = some true then
    match stripPrefix e.content content with
    | some suffix =>
      if (stripPrefix suffix "\n\n").isSome then { e with editAppended := suffix }
      else e.setContent content
    | none => e.setContent content
  else { e.setContent joined with editAppended := "", editPrepended := "" }

def humanAuthored : Bool := e.userOrigin || (liftFromPrincipalId e.messageMetadata).isSome

/-- The draft of a call as it is stored. -/
def annotated (c : Edit) : String :=
  match c.preamble with
  | some preamble =>
    if e.humanAuthored then prependCollaboratorPreamble c.content preamble else c.content
  | none => c.content

def edit (c : Edit) : Except String Entry := do
  c.gate e.toQueuedMessage
  if isDiscussion e.messageMetadata then
    .error "discussion requests are immutable; use discussion.stopAgent to cancel"
  else if c.messageId ≠ (if e.editing then e.editingMessageId.getD e.id else e.id) then
    .error "queued edit conflict: this draft was combined into another queued message; refresh before editing"
  else
    let metadata ← match c.restamp with
      | some restamp => if e.humanAuthored then restamp e.messageMetadata else .ok e.messageMetadata
      | none => .ok e.messageMetadata
    if e.editing && c.editing = some true && (e.editPrepended ≠ "" || e.editAppended ≠ "") &&
        (stripPrefix e.content e.editPrepended).bind (stripSuffix · e.editAppended) ≠
          some (e.annotated c) then
      .error "queued edit conflict: this message received more text while another draft was held; finish that edit before starting another"
    else
      .ok { e.redraft (e.annotated c) c.editing with
        messageMetadata := metadata
        editing := c.editing.getD e.editing
        editingMessageId := match c.editing with
          | none => e.editingMessageId
          | some true => if e.editing then e.editingMessageId else some e.id
          | some false => none }

end Entry

inductive Event
  | edit (c : Edit)
  | arrive (m : QueuedMessage)
  | handBack (older : Entry)

/-- What happens to an entry under edit, other than the save. -/
inductive Step (e : Entry) : Event → Entry → Prop
  | refused {c : Edit} {message : String} (h : e.edit c = .error message) : Step e (.edit c) e
  | updated {c : Edit} {t : Entry} (hc : c.editing ≠ some false) (h : e.edit c = .ok t) :
      Step e (.edit c) t
  | arrived (m : QueuedMessage) : Step e (.arrive m) (e.appendPending { toQueuedMessage := m })
  | handedBack {older : Entry} (h : older.editing = false) : Step e (.handBack older)
      (older.appendPending e)

/-- Texts joined behind another, each after a blank line. -/
def behind : List String → String
  | [] => ""
  | text :: texts => "\n\n" ++ text ++ behind texts

theorem behind_append (texts newer : List String) :
    behind (texts ++ newer) = behind texts ++ behind newer := by
  induction texts with
  | nil => simp [behind]
  | cons text texts ih => simp [behind, ih, String.append_assoc]

/-- The texts that came before an entry, the one that came last first. -/
def before (texts : List String) : String :=
  texts.foldl (fun text next => next ++ "\n\n" ++ text) ""

def arrivals (events : List Event) : List String :=
  events.filterMap fun | .arrive m => some m.content | _ => none

def handBacks (events : List Event) : List String :=
  events.filterMap fun | .handBack older => some older.content | _ => none

/-- The bookkeeping of an entry under edit is what came before and behind it. -/
structure Held (e : Entry) (older newer : List String) : Prop where
  editing : e.editing = true
  prepended : e.editPrepended = before older
  appended : e.editAppended = behind newer

variable {e t : Entry} {c : Edit} {older newer : List String} {events : List Event}

theorem setContent_keeps (e : Entry) (content : String) : (e.setContent content).content = content ∧
    (e.setContent content).editPrepended = e.editPrepended ∧
    (e.setContent content).editAppended = e.editAppended := by
  fun_cases Entry.setContent e content <;> simp_all

theorem edit_ok (h : e.edit c = .ok t) : ∃ metadata editingMessageId,
    t = { e.redraft (e.annotated c) c.editing with
      messageMetadata := metadata
      editing := c.editing.getD e.editing
      editingMessageId := editingMessageId } := by
  simp only [Entry.edit, bind, Except.bind] at h
  grind

theorem Held.edit (h : Held e older newer) (hc : c.editing ≠ some false) (hok : e.edit c = .ok t) :
    Held t older newer := by
  obtain ⟨_, _, rfl⟩ := edit_ok hok
  refine ⟨?_, ?_, ?_⟩
  · match he : c.editing with
    | none => exact h.editing
    | some true => rfl
    | some false => exact absurd he hc
  · simp [Entry.redraft, h.editing, hc, setContent_keeps, h.prepended]
  · simp [Entry.redraft, h.editing, hc, setContent_keeps, h.appended]

theorem Held.step {event : Event} (h : Held e older newer) (hs : Step e event t) :
    Held t (older ++ handBacks [event]) (newer ++ arrivals [event]) := by
  cases hs with
  | refused => simpa [handBacks, arrivals] using h
  | updated hc hok => simpa [handBacks, arrivals] using h.edit hc hok
  | arrived m =>
    constructor <;> simp [Entry.appendPending, handBacks, arrivals, behind_append, behind,
      h.editing, h.prepended, h.appended]
  | handedBack hf =>
    constructor <;> simp [Entry.appendPending, handBacks, arrivals, before, h.editing, hf,
      h.prepended, h.appended]

theorem Held.run (h : Held e older newer) (hrun : Run Step e events t) :
    Held t (older ++ handBacks events) (newer ++ arrivals events) := by
  induction hrun with
  | nil => simpa [handBacks, arrivals] using h
  | snoc _ hs ih => simpa [handBacks, arrivals] using ih.step hs

theorem stripPrefix_append (part text : String) : stripPrefix (part ++ text) part = some text := by
  simp [stripPrefix, dropPrefix?_append_of_beq]

theorem Held.hold (hf : e.editing = false ∧ e.editPrepended = "" ∧ e.editAppended = "")
    (hr : e.content = c.content ++ behind newer) (hp : e.annotated c = c.content)
    (hc : c.editing = some true) (hok : e.edit c = .ok t) : Held t [] newer := by
  obtain ⟨_, _, rfl⟩ := edit_ok hok
  have he : stripPrefix "" "\n\n" = none := rfl
  have hs : stripPrefix e.content c.content = some (behind newer) := hr ▸ stripPrefix_append ..
  refine ⟨by simp [hc], ?_, ?_⟩ <;> cases newer <;> simp [Entry.redraft, hp, hc, hf, hs,
    behind, String.append_assoc, stripPrefix_append, he, setContent_keeps, before]

/-- A save keeps what came before its draft and what arrived since the draft was read. -/
theorem save_keeps_texts (e : Entry) (hold save : Edit) (newer : List String)
    {held last saved : Entry} (hf : e.editing = false ∧ e.editPrepended = "" ∧ e.editAppended = "")
    (hr : e.content = hold.content ++ behind newer)
    (hp : e.annotated hold = hold.content ∧ last.annotated save = save.content)
    (hho : hold.editing = some true) (hh : e.edit hold = .ok held)
    (hrun : Run Step held events last)
    (hsa : save.editing = some false) (hd : save.content ≠ last.content)
    (hs : last.edit save = .ok saved) :
    saved.content = before (handBacks events) ++ save.content ++
      behind (newer ++ arrivals events) := by
  have h := (Held.hold hf hr hp.1 hho hh).run hrun
  obtain ⟨_, _, rfl⟩ := edit_ok hs
  simp [Entry.redraft, hp, hsa, hd, setContent_keeps, h.prepended, h.appended]

def queued (content : String) : Entry where
  toQueuedMessage := ({ id := "edited", id_ne := by decide, content := content } : Request).entry 1

def draft (content : String) (editing : Bool) (preamble : Option String) : Edit :=
  { messageId := "edited", content := content, editing := some editing, preamble := preamble }

/-- One text arrives before the hold and one under it, and a message comes back in front. -/
theorem save_keeps_texts_around :
    ∃ held last saved, (queued "a\n\nb").edit (draft "a" true none) = .ok held ∧
    Run Step held [.arrive (queued "c").toQueuedMessage, .handBack (queued "z")] last ∧
    last.edit (draft "d" false none) = .ok saved ∧ saved.content = "z\n\nd\n\nb\n\nc" := by
  have hrun (held : Entry) : Run Step held [.arrive (queued "c").toQueuedMessage,
      .handBack (queued "z")] _ :=
    (Run.nil.snoc (.arrived _)).snoc (.handedBack rfl)
  exact ⟨_, _, _, rfl, hrun _, rfl,
    save_keeps_texts (queued "a\n\nb") (draft "a" true none) (draft "d" false none) ["b"]
    ⟨rfl, rfl, rfl⟩ (by decide) ⟨rfl, rfl⟩ rfl rfl (hrun _) rfl (by decide) rfl⟩

/-- A queue that moves to another agent keeps the bookkeeping of an edit that is over, and a new
sender preamble hides that the draft was read from the entry. -/
theorem edits_lose_texts :
    let saved (e : Entry) (hold save : Edit) :=
      ((e.edit hold).bind (·.edit save)).toOption.map (·.content)
    saved { queued "a\n\nb" with editAppended := "\n\nb" } (draft "a\n\nb" true none)
        (draft "c\n\nb" false none) = some "c\n\nb\n\nb" ∧
      saved (queued "p\n\na\n\nb") (draft "p\n\na" true (some "q"))
        (draft "p\n\nc" false (some "q")) = some "q\n\np\n\nc" := by
  decide

end Intentd.QueueEdits
