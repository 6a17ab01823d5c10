import Intentd.StreamTracking

/-!
# The live stream of a turn

The events that the recorder publishes are mapped to deltas by a chat subscription, and a
client reads the deltas. Every update keeps the three together: a chunk grows the open text, a
tool event makes the blocks that were recorded for it.
-/
namespace Intentd.TurnStream
open JsonValues ToolBlocks MachineWords ChatConflation ChatReader TurnRecorder Option
  List Transcript

/-- The recorder, the mapper and the client after the updates of a turn. -/
structure Turn where
  recorder : Transcript
  mapper : ChatDeltaState
  client : Reader

variable (rebuild : Json → Option Resource) (agentId : String)

def Turn.new (messageId : String) (probe : Bool) : Turn :=
  ⟨.new messageId probe, .new agentId .full, ChatReader.empty⟩

/-- One update: it is recorded, its event is mapped, and the client reads the delta. -/
def Turn.update (turn : Turn) (update : Update) : Turn :=
  let routed := route rebuild agentId turn.recorder update
  match routed.2 with
  | none => { turn with recorder := routed.1 }
  | some event =>
    let mapped := mapEvent rebuild id turn.mapper event
    ⟨routed.1, mapped.2, read turn.client mapped.1.toList⟩

def Turn.run (turn : Turn) (updates : List Update) : Turn :=
  updates.foldl (Turn.update rebuild agentId) turn

def stored (t : Transcript) (id : String) : Option Json :=
  t.intoBlocks.find? fun block => block.strField "id" = some id

variable {data : Json}

section Tools

variable (t : Transcript) (tc : MappedToolCall) (known : Bool) (registered : List Json)
  (recorded : RecordedToolBlocks)

theorem get_toolFields :
    let data := Json.obj (toolFields agentId t tc known registered recorded)
    data.get "output" = tc.output ∧
      data.strField "resultBlockId" = recorded.resultIndex.map t.blockId ∧
      (((data.get "proposalBlockIds").bind Json.asArr).getD []).filterMap Json.asStr =
        recorded.proposalIndices.map t.blockId ∧
      (data.get "registeredAttachments").bind Json.asArr =
        if registered.isEmpty then none else some registered := by
  have hstr : (recorded.proposalIndices.map fun i => Json.str (t.blockId i)).filterMap Json.asStr =
      recorded.proposalIndices.map t.blockId := by
    rw [filterMap_map]
    exact congrFun filterMap_eq_map' _
  obtain ⟨useIndex, resultIndex, proposalIndices⟩ := recorded
  obtain ⟨toolCallId, toolName, title, toolKind, input, output, status, keepsStatus⟩ := tc
  -- Each optional part is there or not, and has names of its own.
  cases output <;> cases resultIndex <;> cases proposalIndices <;> cases registered <;>
    simp_all [toolFields, Json.strField, Json.get, Fields.get, Json.asArr, Json.asStr]

variable {t tc recorded}

theorem word_eq_error (status : ToolStatus) : status.word = "error" ↔ status = .error := by
  cases status <;> simp [ToolStatus.word]

theorem word_eq_completed (status : ToolStatus) :
    status.word = "completed" ↔ status = .completed := by
  cases status <;> simp [ToolStatus.word]

theorem resultBlocks_eq (ho : data.get "output" = tc.output)
    (hid : data.strField "resultBlockId" = recorded.resultIndex.map t.blockId)
    (hr : recorded.resultIndex = none ↔ tc.output = none ∨ tc.status = .started) :
    resultBlocks id data tc.toolCallId tc.status.word = resultPart t tc recorded.resultIndex := by
  unfold resultBlocks resultPart
  rw [ho, hid]
  cases ho : tc.output with
  | none =>
    rw [hr.mpr (.inl ho)]
  | some output =>
    cases recorded.resultIndex with
    | none => rfl
    | some i => simp [word_eq_error]

theorem attachedBlocks_eq (he : tc.status ≠ .started) (ho : data.get "output" = tc.output)
    (hids : (((data.get "proposalBlockIds").bind Json.asArr).getD []).filterMap Json.asStr =
      recorded.proposalIndices.map t.blockId)
    (hr : (data.get "registeredAttachments").bind Json.asArr =
      if registered.isEmpty then none else some registered) :
    attachedBlocks rebuild data tc.status.word =
      proposalPart t (attachments rebuild tc.status tc.output registered)
        recorded.proposalIndices := by
  unfold attachedBlocks proposalPart attachments
  rw [hr, ho, hids, if_neg he]
  cases registered with
  | nil =>
    simp only [isEmpty_nil, if_true, word_eq_completed, getD_none]
    by_cases hc : tc.status = .completed
    · rw [if_pos (.inl hc), if_pos hc, zip_map_right, List.map_map]
      rfl
    · rw [if_neg (by simp [hc]), if_neg hc]
      rfl
  | cons item items =>
    simp only [isEmpty_cons, Bool.false_eq_true, if_false, getD_some, or_true, if_true]
    rw [zip_map_right, List.map_map]
    rfl

theorem toolBlocks_toolFields
    (hre : recorded.resultIndex = none ↔ tc.output = none ∨ tc.status = .started) :
    toolBlocks rebuild id (.obj (toolFields agentId t tc known registered recorded))
        (t.blockId recorded.useIndex) tc.toolCallId = (t.blockId recorded.useIndex,
        (describe tc known ((t.blocks[recorded.useIndex]?).getD .null)).block
          (t.blockId recorded.useIndex) tc.toolCallId tc.status.word) ::
      (resultPart t tc recorded.resultIndex ++
        proposalPart t (attachments rebuild tc.status tc.output registered)
          recorded.proposalIndices) := by
  obtain ⟨ho, hres, hids, hr⟩ := get_toolFields agentId t tc known registered recorded
  generalize hd : Json.obj (toolFields agentId t tc known registered recorded) = data at *
  have hst : (data.strField "status").getD "started" = tc.status.word := by
    rw [← hd]
    rfl
  unfold toolBlocks
  rw [hst]
  refine congrArg₂ List.cons ?_ ?_
  · rw [← hd]
    rfl
  · by_cases hs : tc.status = .started
    · rw [hre.mpr (.inr hs), hs]
      simp [ToolStatus.word, resultPart, proposalPart, attachments]
    · have he : tc.status.word = "completed" ∨ tc.status.word = "error" := by
        cases htc : tc.status with
        | started => exact absurd htc hs
        | completed => exact .inl rfl
        | error => exact .inr rfl
      rw [if_pos he, resultBlocks_eq ho hres hre,
        attachedBlocks_eq rebuild registered hs ho hids hr]

end Tools

/-- A tool update is dropped, or recorded with its status and attachments and published. -/
theorem route_tool_cases (t : Transcript) (tc : MappedToolCall) (claimed : List Resource) :
    route rebuild agentId t (.tool tc claimed) = (t, none) ∨
      ∃ (tc' : MappedToolCall) (registered : List Json) (t' : Transcript)
        (recorded : RecordedToolBlocks),
        (∀ item ∈ registered, item.strField "type" = some "resource") ∧
        t.recordTool rebuild tc' registered = some (t', recorded) ∧
        route rebuild agentId t (.tool tc claimed) =
          (t', some (.toolCall (.obj (toolFields agentId t' tc'
          (t.toolNameFor tc'.toolCallId).isSome registered recorded)))) := by
  rw [route, routeTool]
  generalize hs : (if tc.keepsStatus then
    (t.toolStatusFor tc.toolCallId).getD tc.status else tc.status) = status
  generalize hr : (if status = .started then [] else claimed.map Resource.item) = registered
  cases hre : t.recordTool rebuild { tc with status := status } registered with
  | none => exact .inl rfl
  | some result =>
    refine .inr ⟨{ tc with status := status }, registered, result.1, result.2,
      fun item hit => ?_, hre, rfl⟩
    rw [← hr] at hit
    split_ifs at hit
    · cases hit
    · obtain ⟨resource, -, rfl⟩ := mem_map.mp hit
      rfl

structure Turn.Sound (turn : Turn) : Prop where
  recorder : TurnRecorder.Sound turn.recorder
  tracks : Tracks turn.recorder turn.mapper turn.client

/-- What an update does to a turn: all three stay together and no block moves. -/
structure Turn.Goes (turn turn' : Turn) : Prop where
  sound : turn'.Sound
  places : KeepsPlaces turn.recorder turn'.recorder
  messageId : turn'.recorder.messageId = turn.recorder.messageId

section Updates

variable {rebuild agentId} {turn : Turn} {t' t : Transcript}

theorem update_of_event {update : Update} {event : Event}
    (h : route rebuild agentId turn.recorder update = (t', some event)) :
    turn.update rebuild agentId update = ⟨t', (mapEvent rebuild id turn.mapper event).2,
      read turn.client (mapEvent rebuild id turn.mapper event).1.toList⟩ := by
  rw [Turn.update, h]

theorem tool_goes (h : turn.Sound) (tc : MappedToolCall) (claimed : List Resource) :
    turn.Goes (turn.update rebuild agentId (.tool tc claimed)) := by
  rcases route_tool_cases rebuild agentId turn.recorder tc claimed with hdr |
    ⟨tc', registered, t', recorded, hre, hrec, hro⟩
  · rw [Turn.update, hdr]
    exact ⟨⟨h.recorder, h.tracks⟩, .refl _, rfl⟩
  · rw [update_of_event hro]
    obtain ⟨block, hch, hso, hblo, hde, hres, -⟩ :=
      recordTool_records h.recorder hre hrec
    have hids : ∀ j, t'.blockId j = turn.recorder.blockId j := by
      intro j
      rw [blockId, hch.messageId]
      rfl
    have hbl := toolBlocks_toolFields rebuild agentId (t := t')
      (turn.recorder.toolNameFor tc'.toolCallId).isSome registered hres
    rw [hblo, getD_some, hids, hde] at hbl
    simp only [resultPart, proposalPart, hids] at hbl hch
    rw [← hbl, ← hids] at hch
    obtain ⟨htr, hpl⟩ :=
      (h.tracks.setMessageId (some t'.messageId)).sendBlocks t'.messageId hch
    refine ⟨⟨hso, ?_⟩, hch.keepsPlaces, hch.messageId⟩
    rwa [← apply_sendBlocks t'.messageId hpl] at htr

theorem chunk_goes (h : turn.Sound) (chunk : String) (thought : Bool)
    (files : String → Option Dimensions) :
    turn.Goes (turn.update rebuild agentId (.chunk chunk thought files)) := by
  generalize ht : opened turn.recorder thought = t
  have hso : TurnRecorder.Sound t := ht ▸ opened_sound h.recorder thought
  have htr : Tracks t turn.mapper turn.client := ht ▸ h.tracks.opened h.recorder thought
  have hth : t.pendingThought = thought := ht ▸ opened_pendingThought turn.recorder thought
  have hsn : t.snapshotBlocks = turn.recorder.snapshotBlocks :=
    ht ▸ opened_snapshotBlocks turn.recorder thought
  have hch := probeNewImages_chunked hso chunk files
  have hro : route rebuild agentId turn.recorder (.chunk chunk thought files) =
      routeChunk agentId turn.recorder chunk thought files := rfl
  rw [routeChunk, pushChunk_eq, ht] at hro
  dsimp only at hch hro
  generalize hpr : probeNewImages { t with text := t.text ++ chunk } files = probed at hch hro
  rw [update_of_event hro]
  have hpl : KeepsPlaces turn.recorder probed.2 := by
    have hke := hch.keepsPlaces
    rwa [KeepsPlaces, hsn] at hke
  have hme : probed.2.messageId = turn.recorder.messageId := by
    rw [hch.frame, ← ht]
    unfold opened
    split_ifs <;> rfl
  refine ⟨⟨hch.sound, ?_⟩, hpl, hme⟩
  generalize hda : Json.obj _ = data
  have hmed : (data.get "media").bind Json.asObj = probed.1 := by
    rw [← hda]
    cases probed.1 <;> rfl
  have hof : (data.get "textOffset").bind asU64 = parseU64 t.text.utf8ByteSize.repr := by
    have hsiz : (t.text ++ chunk).utf8ByteSize - chunk.utf8ByteSize = t.text.utf8ByteSize := by
      rw [String.utf8ByteSize_append]
      omega
    rw [← hsiz, ← hda]
    rfl
  have hacc : (turn.mapper.textAcc (t.blockId t.blocks.length)).getD
      ((turn.mapper.snapshotText (t.blockId t.blocks.length)).getD "") = t.text := by
    rw [htr.fresh]
    exact htr.text
  have hfi : data.strField "blockId" = some (t.blockId t.blocks.length) ∧
      data.strField "messageId" = some t.messageId ∧ data.get "content" = some (.str chunk) ∧
      data.strField "blockType" = some (textType thought) := by
    rw [← hda]
    exact ⟨rfl, rfl, rfl, rfl⟩
  obtain ⟨hsi, hgr⟩ :=
    chunkDelta_text hfi.1 hfi.2.1 hfi.2.2.1 hfi.2.2.2 hacc
  rw [hof] at hsi hgr
  rcases newText_offset t.text chunk with ⟨hnew, hne⟩ | ⟨hem, hno⟩
  · have hde := hgr hnew
    rw [hmed] at hde
    rw [mapEvent, hde, read_singleDelta]
    have hbl : ChatDeltaState.withMedia (turn.mapper.textBlock (textType thought)
        (t.blockId t.blocks.length) (t.text ++ chunk) chunk) probed.1 =
        textWith (textType thought) (t.blockId t.blocks.length) (t.text ++ chunk) probed.1 := by
      rw [ChatDeltaState.textBlock, htr.full]
      rw [htr.whole]
      rfl
    rw [hbl, upsert_textWith, htr.client_media hso rfl, ← hth]
    exact htr.grow hch hne rfl (grown_grows ..)
  · rw [mapEvent, hsi hno]
    subst hem
    exact htr.silent hch _ rfl

theorem content_goes (h : turn.Sound) (c : ContentObject) :
    turn.Goes (turn.update rebuild agentId (.content c)) := by
  generalize hi : turn.recorder.snapshotBlocks.length = i
  generalize hbl : (Json.obj c.fields).insert "id" (.str (turn.recorder.blockId i)) = block
  have hput : Puts turn.recorder i block (turn.recorder.pushBlock (.obj c.fields)) := by
    subst hi hbl
    exact .appended rfl rfl ⟨rfl, rfl, rfl, rfl, rfl, rfl, rfl⟩
  have hid : block.strField "id" = some (turn.recorder.blockId i) := by
    rw [← hbl]
    exact Json.strField_eq_some.mpr (Fields.get_insert_self _)
  have hty : block.strField "type" = (Json.obj c.fields).strField "type" := by
    rw [← hbl, Json.strField, Json.get_insert_ne (by decide)]
    rfl
  have hpl : Plain block := by
    rw [Plain, hty]
    exact ⟨c.not_text, c.not_thinking⟩
  have hsou := h.recorder.pushBlock c.fields
  have hplac : KeepsPlaces turn.recorder (turn.recorder.pushBlock (.obj c.fields)) := by
    intro j old hold
    refine ⟨old, ?_, .inl rfl⟩
    rcases hput.snapshotBlocks with ⟨hlt, -⟩ | ⟨-, hap⟩
    · have hle : turn.recorder.blocks.length ≤ turn.recorder.snapshotBlocks.length := by
        unfold snapshotBlocks
        split_ifs <;> simp
      omega
    · exact getElem?_append_of_some hold
  have hro : route rebuild agentId turn.recorder (.content c) =
      routeContent agentId turn.recorder c := rfl
  rw [routeContent, hi] at hro
  rw [update_of_event hro]
  refine ⟨⟨hsou, ?_⟩, hplac, hput.messageId⟩
  have hki : ¬ (((Json.obj c.fields).strField "type").getD "unknown" = "text" ∨
      ((Json.obj c.fields).strField "type").getD "unknown" = "thinking") := by
    rw [← hty]
    cases hso : block.strField "type" with
    | none => simp
    | some blockType =>
      rintro (rfl | rfl)
      · exact hpl.1 hso
      · exact hpl.2 hso
  generalize hda : Json.obj (chunkFields ..) = data
  have hfi : data.strField "blockId" = some (turn.recorder.blockId i) ∧
      data.strField "messageId" = some turn.recorder.messageId ∧
      data.get "content" = some (.obj c.fields) ∧
      data.strField "blockType" = some (((Json.obj c.fields).strField "type").getD "unknown") := by
    rw [← hda]
    exact ⟨rfl, rfl, rfl, rfl⟩
  have hma : turn.mapper.chunkBlock data (turn.recorder.blockId i)
      (((Json.obj c.fields).strField "type").getD "unknown") (.obj c.fields) =
      (some block, turn.mapper.rememberBlock (turn.recorder.blockId i) block) := by
    rw [ChatDeltaState.chunkBlock, if_neg hki, ← hbl]
    rfl
  rw [mapEvent, ChatDeltaState.chunkDelta, hfi.1, hfi.2.1, hfi.2.2.1, hfi.2.2.2]
  dsimp only [getD_some]
  rw [hma]
  have hpla : Placed (turn.recorder.blockId i, block) := ⟨hpl, hid⟩
  rw [read_singleDelta, upsert_plain _ hpla]
  exact h.tracks.put hput hpl ⟨rfl, rfl, rfl, rfl, rfl, rfl⟩

theorem update_goes (h : turn.Sound) (update : Update) :
    turn.Goes (turn.update rebuild agentId update) := by
  cases update with
  | chunk text thought files => exact chunk_goes h text thought files
  | content c => exact content_goes h c
  | tool tc registered => exact tool_goes h tc registered

theorem run_goes (h : turn.Sound) (updates : List Update) :
    turn.Goes (turn.run rebuild agentId updates) := by
  induction updates generalizing turn with
  | nil => exact ⟨h, .refl _, rfl⟩
  | cons update updates ih =>
    have hone : turn.Goes (turn.update rebuild agentId update) := update_goes h update
    have hr := ih hone.sound
    exact ⟨hr.sound, hone.places.trans hr.places, hr.messageId.trans hone.messageId⟩

theorem stored_blockId (h : TurnRecorder.Sound t) (i : ℕ) :
    stored t (t.blockId i) = t.snapshotBlocks[i]? := by
  change t.snapshotBlocks.find? _ = _
  cases hf : t.snapshotBlocks.find? fun block => block.strField "id" = some (t.blockId i) with
  | some block =>
    have hid := find?_some hf
    obtain ⟨j, hj⟩ := mem_iff_getElem?.mp (mem_of_find?_eq_some hf)
    have hij := (h.snapshot_ids hj).symm.trans (of_decide_eq_true hid)
    rw [some_inj, blockId_inj] at hij
    rw [← hij, hj]
  | none =>
    cases hget : t.snapshotBlocks[i]? with
    | none => rfl
    | some block =>
      have hnot := find?_eq_none.mp hf block (mem_of_getElem? hget)
      exact absurd (decide_eq_true (h.snapshot_ids hget)) hnot

theorem stored_other (h : TurnRecorder.Sound t) {id : String} (hid : ∀ i, id ≠ t.blockId i) :
    stored t id = none := by
  refine find?_eq_none.mpr fun block hb hf => ?_
  obtain ⟨i, hi⟩ := mem_iff_getElem?.mp hb
  have heq := (h.snapshot_ids (t := t) hi).symm.trans (of_decide_eq_true hf)
  exact hid i (some_inj.mp heq).symm

theorem Turn.Sound.stored (h : turn.Sound) (id : String) :
    Option.Rel Json.Equal (stored turn.recorder id) (turn.mapper.liveBlock id) := by
  by_cases hid : ∃ i, id = turn.recorder.blockId i
  · obtain ⟨i, rfl⟩ := hid
    rw [stored_blockId h.recorder]
    exact h.tracks.live i
  · rw [not_exists] at hid
    rw [stored_other h.recorder hid, h.tracks.others id hid]
    exact .none

end Updates

/-- The updates of a turn, whatever they are: under every id the mapper of a full-text
subscription that started empty has the block that is stored, and so has a client that read its
deltas. The blocks are named by the message and their index, and none ever moves. -/
theorem live_stream_matches_store (messageId : String) (probe : Bool) (updates : List Update) :
    let turn := (Turn.new agentId messageId probe).run rebuild agentId updates
    (∀ id, Option.Rel Json.Equal (stored turn.recorder id) (turn.mapper.liveBlock id)) ∧
      (∀ id, turn.client id = turn.mapper.liveBlock id) ∧
      (∀ (i : ℕ) block, turn.recorder.intoBlocks[i]? = some block →
        block.strField "id" = some (messageId ++ ":" ++ i.repr)) ∧
      ∀ more, KeepsPlaces turn.recorder (turn.run rebuild agentId more).recorder := by
  intro turn
  have hnew : (Turn.new agentId messageId probe).Sound :=
    ⟨.new messageId probe, .new agentId messageId probe⟩
  have hrun : (Turn.new agentId messageId probe).Goes turn := run_goes hnew updates
  refine ⟨hrun.sound.stored, hrun.sound.tracks.client, fun i block hget => ?_,
    fun more => (run_goes hrun.sound more).places⟩
  have hid := hrun.sound.recorder.snapshot_ids hget
  rwa [blockId, hrun.messageId] at hid

end Intentd.TurnStream
