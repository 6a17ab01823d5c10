import Intentd.ChatSeeding
import Intentd.StreamTracking
import Mathlib.Data.List.Sort

/-!
# The end of a turn

When a turn ends its message is stored, and the mapper reads the newest page again. The
terminal delta sends every block of the stored message and removes what was sent live and is
not among them. If the page cannot be read the blocks that the mapper remembers are sent
instead. Then the mapper forgets the turn.

The message is the one that the mapper learned from the snapshot or from the events; only if
it learned none is it the one that the terminal event names.
-/
namespace Intentd.ChatConflation
open JsonValues

def rowField (row : Json) (key : String) : Option Json := (row.get key).filter fun v => !v.isNull

/-- The entity of a block in a terminal delta: `row` is the stored row, if it was read. -/
def terminalEntity (agentId messageId : String) (row : Option Json) (block : Json) : Json :=
  .obj ([("agentId", .str agentId), ("messageId", .str messageId), ("role", .str "assistant")] ++
    (match (row.bind fun row => row.get "seq").bind asU64 with
      | some seq => [("messageSeq", .num seq.repr)]
      | none => []) ++
    (match row.bind fun row => row.strField "timestamp" with
      | some timestamp => [("timestamp", .str timestamp)]
      | none => []) ++
    [("streamingComplete", .bool true), ("block", block)] ++
    (match row.bind fun row => rowField row "metadata" with
      | some metadata => [("metadata", metadata)]
      | none => []))

def named (block : Json) : Option (String × Json) := (block.strField "id").map fun id => (id, block)

def rowOf (messageId : String) (rows : List Json) : Option Json :=
  rows.find? fun row => row.strField "id" = some messageId

namespace ChatDeltaState

variable (st : ChatDeltaState)

/-- The terminal delta of a page that was read. -/
def terminalDelta (messageId : String) (rows : List Json) : Json :=
  let row := rowOf messageId rows
  let stored := ((row.map contentBlocks).getD []).filterMap named
  let entities := fun sent : List (String × Json) =>
    sent.map fun s => terminalEntity st.agentId messageId row s.2
  .obj [("added", .arr (entities (stored.filter fun s => !st.seenIds.contains s.1))),
    ("updated", .arr (entities (stored.filter fun s => st.seenIds.contains s.1))), ("removedIds",
      .arr (((st.emittedIds.filter fun id => !(stored.map Prod.fst).contains id).insertionSort
      (· ≤ ·)).map .str))]

/-- The terminal delta when the page could not be read. -/
def bestEffortTerminal (messageId : String) : Json :=
  .obj [("added", .arr []), ("updated", .arr (st.bestEffortBlocks.map fun live =>
      terminalEntity st.agentId messageId none live.2)), ("removedIds", .arr [])]

/-- `page` is what the page read gave, at the second try at the latest. -/
def reconcile (page : Option Json) : Option Json :=
  st.messageId.map fun messageId =>
    match page.bind messageRows with
    | none => st.bestEffortTerminal messageId
    | some rows => st.terminalDelta messageId rows

/-- The terminal event: the delta and the mapper for the turns to come. -/
def finalize (data : Json) (page : Option Json) : Option Json × ChatDeltaState :=
  let st := { st with messageId := st.messageId.or (data.strField "messageId") }
  (st.reconcile page, { st with
      textAcc := fun _ => none
      mediaAcc := fun _ => none
      seenIds := []
      emittedIds := []
      messageId := none
      liveBlocks := [] })

end ChatDeltaState

end Intentd.ChatConflation

namespace Intentd.ChatTerminal
open JsonValues ToolBlocks ChatConflation ChatReader TurnRecorder TurnStream
open List hiding take

abbrev Preview := { f : Json → Json // ∀ block, (f block).strField "id" = block.strField "id" }

structure Live where
  mapper : ChatDeltaState
  client : Reader

variable (rebuild : Json → Option Resource) (slim : Preview)

def Live.event (live : Live) (event : Event) : Live :=
  let mapped := mapEvent rebuild slim.1 live.mapper event
  ⟨mapped.2, read live.client mapped.1.toList⟩

def Live.run (live : Live) (events : List Event) : Live :=
  events.foldl (Live.event rebuild slim) live

/-- The end of the turn: the client reads the terminal delta. -/
def Live.finish (live : Live) (data : Json) (page : Option Json) : Reader :=
  read live.client (live.mapper.finalize data page).1.toList

def rowsOf (messageId : String) (snapshot : Json) : List Json :=
  ((messageRows snapshot).getD []).filter fun row => row.strField "id" = some messageId

/-- A subscription after its snapshot. The client is looked at for one message. -/
def Live.start (st : ChatDeltaState) (messageId : String) (snapshot : Json) : Live :=
  ⟨st.seedFromSnapshot snapshot, ofRows (rowsOf messageId snapshot)⟩

/-! ## What a delta touches -/

variable {r : Reader} {id : String}

theorem upsert_of_ne {entity : Json} (h : (blockOf entity).strField "id" ≠ some id) :
    upsert r entity id = r id := by
  unfold upsert
  cases hown : (blockOf entity).strField "id" with
  | none => rfl
  | some own =>
    have hne : id ≠ own := fun heq => h (heq.symm ▸ hown)
    exact Function.update_of_ne hne ..

theorem foldl_upsert_of_ne {entities : List Json}
    (h : ∀ entity ∈ entities, (blockOf entity).strField "id" ≠ some id) :
    entities.foldl upsert r id = r id := by
  induction entities generalizing r with
  | nil => rfl
  | cons entity rest ih =>
    obtain ⟨hf, hr⟩ := forall_mem_cons.mp h
    rw [foldl_cons, ih hr, upsert_of_ne hf]

theorem foldl_place (sent : List (String × Json)) :
    sent.foldl place r id = ((sent.filter fun s => s.1 = id).getLast?.map Prod.snd).or (r id) := by
  induction sent using List.reverseRecOn with
  | nil => rfl
  | append_singleton sent s ih =>
    rw [foldl_append, filter_append, foldl_cons, foldl_nil, place, Function.update_apply]
    by_cases hs : id = s.1
    · rw [if_pos hs, filter_cons_of_pos (by simp [hs]), filter_nil, List.getLast?_append]
      rfl
    · rw [if_neg hs, ih, filter_cons_of_neg (by simpa using Ne.symm hs), filter_nil, append_nil]

theorem foldl_place_isSome (sent : List (String × Json)) :
    (sent.foldl place empty id).isSome ↔ id ∈ sent.map Prod.fst := by
  rw [foldl_place]
  cases hl : (sent.filter fun s => s.1 = id).getLast? with
  | none =>
    rw [List.getLast?_eq_none_iff, filter_eq_nil_iff] at hl
    refine ⟨fun h => (Bool.false_ne_true h).elim, fun h => ?_⟩
    obtain ⟨s, hs, hid⟩ := mem_map.mp h
    exact absurd (decide_eq_true hid) (hl s hs)
  | some s =>
    obtain ⟨hs, hid⟩ := mem_filter.mp (mem_of_getLast? hl)
    exact ⟨fun _ => mem_map.mpr ⟨s, hs, of_decide_eq_true hid⟩, fun _ => rfl⟩

theorem foldl_take_eq (blocks : List Json) :
    blocks.foldl take r = (blocks.filterMap named).foldl place r := by
  induction blocks generalizing r with
  | nil => rfl
  | cons block rest ih =>
    rw [foldl_cons, ih, filterMap_cons, take, named]
    cases block.strField "id" <;> rfl

/-! ## The terminal delta -/

variable {messageId : String} {rows : List Json} {row : Json}

section Terminal

variable {st : ChatDeltaState}

theorem upsert_terminal (agentId messageId : String) (row : Option Json) {s : String × Json}
    (hs : s.2.strField "id" = some s.1) :
    upsert r (terminalEntity agentId messageId row s.2) = place r s := by
  generalize he : terminalEntity agentId messageId row s.2 = entity
  have hf : entity.get "block" = some s.2 ∧ entity.get "streamingComplete" = some (.bool true) := by
    rw [← he, terminalEntity]
    cases (row.bind fun row => row.get "seq").bind asU64 <;>
      cases row.bind fun row => row.strField "timestamp" <;> exact ⟨rfl, rfl⟩
  have hb : blockOf entity = s.2 := by rw [blockOf, hf.1, Option.getD_some]
  unfold upsert blockAfter
  rw [hb, hs, hf.2]
  rfl

theorem foldl_upsert_terminal (agentId messageId : String) (row : Option Json)
    {sent : List (String × Json)} (hse : ∀ s ∈ sent, s.2.strField "id" = some s.1) :
    (sent.map fun s => terminalEntity agentId messageId row s.2).foldl upsert r =
      sent.foldl place r := by
  induction sent generalizing r with
  | nil => rfl
  | cons s rest ih =>
    obtain ⟨hs, hr⟩ := forall_mem_cons.mp hse
    rw [map_cons, foldl_cons, foldl_cons, upsert_terminal agentId messageId row hs, ih hr]

/-- Blocks that were seen are listed after the others; under every id that is the order in
which they are stored. -/
theorem foldl_place_parts (sent : List (String × Json)) (seen : String → Bool) :
    ((sent.filter fun s => !seen s.1) ++ sent.filter fun s => seen s.1).foldl place r =
      sent.foldl place r := by
  funext id
  have hp : ∀ flag : Bool, (sent.filter fun s => seen s.1 == flag).filter (fun s => s.1 = id) =
      if seen id = flag then sent.filter fun s => s.1 = id else [] := by
    intro flag
    rw [filter_filter]
    split_ifs with hfl
    · refine filter_congr fun s _ => ?_
      by_cases hs : s.1 = id
      · simp [hs, hfl]
      · simp [hs]
    · refine filter_eq_nil_iff.mpr fun s _ => ?_
      by_cases hs : s.1 = id
      · simp [hs, hfl]
      · simp [hs]
  have hf := hp false
  have ht := hp true
  simp only [beq_false, beq_true] at hf ht
  rw [foldl_place, foldl_place, filter_append, hf, ht]
  cases seen id <;> simp

theorem read_terminalDelta (hrow : rowOf messageId rows = some row) (id : String) :
    apply r (st.terminalDelta messageId rows) id =
      if id ∈ st.emittedIds ∧ ofRows [row] id = none then none
      else (ofRows [row] id).or (r id) := by
  generalize hst : (contentBlocks row).filterMap named = stored
  have hids : ∀ s ∈ stored, s.2.strField "id" = some s.1 := by
    intro s hs
    rw [← hst] at hs
    obtain ⟨block, -, hbl⟩ := mem_filterMap.mp hs
    obtain ⟨own, hown, rfl⟩ := Option.map_eq_some_iff.mp hbl
    exact hown
  have hb : ofRows [row] = stored.foldl place empty := by
    rw [ofRows, flatMap_singleton, foldl_take_eq, hst]
  have hn : ofRows [row] id = none ↔ id ∉ stored.map Prod.fst := by
    rw [← foldl_place_isSome, hb, Option.not_isSome_iff_eq_none]
  have ha : apply r (st.terminalDelta messageId rows) id =
      if id ∈ (((st.emittedIds.filter fun id => !(stored.map Prod.fst).contains id).insertionSort
        (· ≤ ·)).map Json.str).filterMap Json.asStr then none
      else stored.foldl place r id := by
    have hp : ((stored.filter fun s => !st.seenIds.contains s.1) ++
        stored.filter fun s => st.seenIds.contains s.1).foldl place r = stored.foldl place r :=
      foldl_place_parts stored st.seenIds.contains
    have hse : ∀ s ∈ (stored.filter fun s => !st.seenIds.contains s.1) ++
        stored.filter fun s => st.seenIds.contains s.1, s.2.strField "id" = some s.1 := by
      intro s hs
      refine hids s ?_
      rcases mem_append.mp hs with hs | hs <;> exact (mem_filter.mp hs).1
    rw [← hp, ← foldl_upsert_terminal st.agentId messageId (some row) hse,
      map_append, ChatDeltaState.terminalDelta, hrow, ← hst]
    rfl
  have hr : id ∈ (((st.emittedIds.filter fun id => !(stored.map Prod.fst).contains id).insertionSort
      (· ≤ ·)).map Json.str).filterMap Json.asStr ↔
      id ∈ st.emittedIds ∧ ofRows [row] id = none := by
    have hstr : ∀ ids : List String, (ids.map Json.str).filterMap Json.asStr = ids := by
      intro ids
      rw [filterMap_map]
      exact filterMap_some
    rw [hstr, mem_insertionSort, mem_filter, hn]
    simp
  simp only [ha, hr]
  refine if_congr Iff.rfl rfl ?_
  rw [foldl_place, hb, foldl_place (r := empty), empty, Option.or_none]

end Terminal

/-! ## The live events -/

/-- What an event leaves: only blocks that are noted as sent are touched. -/
structure Touches (live live' : Live) : Prop where
  emitted : ∀ id ∈ live.mapper.emittedIds, id ∈ live'.mapper.emittedIds
  client : ∀ id, id ∉ live'.mapper.emittedIds → live'.client id = live.client id

section Events

variable {live : Live}

theorem chunkBlock_emittedIds (st : ChatDeltaState) (data content : Json)
    (blockId blockType : String) :
    (st.chunkBlock data blockId blockType content).2.emittedIds = st.emittedIds := by
  unfold ChatDeltaState.chunkBlock
  split_ifs
  · unfold ChatDeltaState.textChunk
    dsimp only
    split <;> rfl
  · split <;> rfl

theorem chunk_touches (data : Json) :
    Touches live ⟨(live.mapper.chunkDelta data).2,
      read live.client (live.mapper.chunkDelta data).1.toList⟩ := by
  unfold ChatDeltaState.chunkDelta
  split
  · rename_i blockId messageId content hid hm hc
    have hf := chunkBlock_emittedIds live.mapper data content blockId
      ((data.strField "blockType").getD "text")
    cases hb : live.mapper.chunkBlock data blockId ((data.strField "blockType").getD "text")
      content with
    | mk block st =>
      rw [hb] at hf
      cases block with
      | none => exact ⟨fun id hmem => hf.symm ▸ hmem, fun _ _ => rfl⟩
      | some block =>
        have hown := ChatDeltaState.chunkBlock_id hb
        refine ⟨fun id hmem => mem_insert_of_mem (hf.symm ▸ hmem), fun id hnot => ?_⟩
        rw [read_singleDelta]
        refine upsert_of_ne ?_
        change block.strField "id" ≠ some id
        rw [hown]
        intro heq
        cases heq
        exact hnot mem_insert_self
  · exact ⟨fun _ hmem => hmem, fun _ _ => rfl⟩

theorem toolBlocks_id (data : Json) (blockId toolCallId : String) :
    ∀ s ∈ toolBlocks rebuild slim.1 data blockId toolCallId, ∀ id, s.2.strField "id" = some id →
      id = s.1 := by
  have hsl : ∀ (own : String) (block : Json), block.strField "id" = some own →
      ∀ id, (slim.1 block).strField "id" = some id → id = own := by
    intro own block hown id hid
    rw [slim.2, hown] at hid
    exact (Option.some.inj hid).symm
  refine forall_mem_cons.mpr ⟨hsl _ _ rfl, fun s hs => ?_⟩
  split_ifs at hs
  · rcases mem_append.mp hs with hs | hs
    · unfold resultBlocks at hs
      split at hs
      · cases mem_singleton.mp hs
        exact hsl _ _ rfl
      · cases hs
    · unfold attachedBlocks at hs
      dsimp only at hs
      split_ifs at hs
      · obtain ⟨attached, -, rfl⟩ := mem_map.mp hs
        intro id hid
        unfold buildProposalResourceBlock at hid
        cases hit : attached.1 with
        | obj fields =>
          rw [hit, Json.insert, Json.strField, Json.get, Fields.get_insert_self] at hid
          exact (Option.some.inj hid).symm
        | _ =>
          rw [hit] at hid
          cases hid
      · cases hs
  · cases hs

theorem sendBlocks_emittedIds (messageId : String) (blocks : List (String × Json))
    (st : ChatDeltaState) :
    (∀ id ∈ st.emittedIds, id ∈ (st.sendBlocks messageId blocks).2.emittedIds) ∧
      ∀ s ∈ blocks, s.1 ∈ (st.sendBlocks messageId blocks).2.emittedIds := by
  induction blocks generalizing st with
  | nil => exact ⟨fun _ h => h, by simp⟩
  | cons head rest ih =>
    obtain ⟨hold, hnew⟩ := ih ((st.noteBlock head.1).2.rememberBlock head.1 head.2)
    refine ⟨fun id hmem => hold id (mem_insert_of_mem hmem), forall_mem_cons.mpr ⟨?_, hnew⟩⟩
    exact hold head.1 mem_insert_self

theorem tool_touches (data : Json) : Touches live ⟨(live.mapper.toolDelta rebuild slim.1 data).2,
      read live.client (live.mapper.toolDelta rebuild slim.1 data).1.toList⟩ := by
  unfold ChatDeltaState.toolDelta
  split
  · rename_i blockId messageId hid hm
    dsimp only
    split
    · exact ⟨fun _ hmem => hmem, fun _ _ => rfl⟩
    · rename_i toolCallId hc
      generalize hst : ({ live.mapper with messageId := some messageId } : ChatDeltaState) = st
      obtain ⟨hold, hnew⟩ := sendBlocks_emittedIds messageId
        (toolBlocks rebuild slim.1 data blockId toolCallId) st
      obtain ⟨added, updated, hse, -, hmem, -⟩ := sendBlocks_parts messageId
        (toolBlocks rebuild slim.1 data blockId toolCallId) st
      refine ⟨fun id hid => hold id (hst ▸ hid), fun id hnot => ?_⟩
      generalize st.sendBlocks messageId (toolBlocks rebuild slim.1 data blockId toolCallId) = sent
        at hold hnew hse hnot
      have he : ∀ entity ∈ sent.1.1 ++ sent.1.2, (blockOf entity).strField "id" ≠ some id := by
        rw [hse, ← map_append]
        intro entity hen hown
        obtain ⟨s, hs, rfl⟩ := mem_map.mp hen
        have hs := hmem s hs
        exact hnot (toolBlocks_id rebuild slim data blockId toolCallId s hs id hown ▸ hnew s hs)
      exact foldl_upsert_of_ne he
  · exact ⟨fun _ hmem => hmem, fun _ _ => rfl⟩

theorem event_touches (event : Event) : Touches live (live.event rebuild slim event) := by
  cases event with
  | streamDelta data => exact chunk_touches data
  | toolCall data => exact tool_touches rebuild slim data

theorem run_touches (events : List Event) : Touches live (live.run rebuild slim events) := by
  induction events generalizing live with
  | nil => exact ⟨fun _ h => h, fun _ _ => rfl⟩
  | cons event events ih =>
    have hone : Touches live (live.event rebuild slim event) := event_touches rebuild slim event
    have hr : Touches (live.event rebuild slim event) _ := ih
    refine ⟨fun id hmem => hr.emitted id (hone.emitted id hmem), fun id hnot => ?_⟩
    exact (hr.client id hnot).trans (hone.client id fun hmem => hnot (hr.emitted id hmem))

end Events

/-! ## The snapshot -/

theorem foldl_seedBlock_emittedIds (blocks : List Json) (st : ChatDeltaState) :
    (∀ id ∈ st.emittedIds, id ∈ (blocks.foldl ChatDeltaState.seedBlock st).emittedIds) ∧
      ∀ block ∈ blocks, ∀ id, block.strField "id" = some id →
        id ∈ (blocks.foldl ChatDeltaState.seedBlock st).emittedIds := by
  induction blocks generalizing st with
  | nil => exact ⟨fun _ h => h, by simp⟩
  | cons head rest ih =>
    have hh : (∀ id ∈ st.emittedIds, id ∈ (st.seedBlock head).emittedIds) ∧
        ∀ id, head.strField "id" = some id → id ∈ (st.seedBlock head).emittedIds := by
      unfold ChatDeltaState.seedBlock
      cases hid : head.strField "id" with
      | none => exact ⟨fun _ h => h, nofun⟩
      | some own =>
        have hn : (st.seedNamed own head).emittedIds = st.emittedIds.insert own := by
          unfold ChatDeltaState.seedNamed
          split_ifs <;> rfl
        rw [hn]
        refine ⟨fun id hmem => mem_insert_of_mem hmem, fun id heq => ?_⟩
        cases heq
        exact mem_insert_self
    obtain ⟨hold, hnew⟩ := ih (st.seedBlock head)
    refine ⟨fun id hmem => hold id (hh.1 id hmem), forall_mem_cons.mpr ⟨fun id hid => ?_, hnew⟩⟩
    exact hold id (hh.2 id hid)

theorem seed_notes_streaming (st : ChatDeltaState) {snapshot : Json}
    (hr : messageRows snapshot = some rows)
    (hrow : streamingRow rows = some (row, messageId)) {block : Json}
    (hb : block ∈ contentBlocks row)
    (hid : block.strField "id" = some id) : id ∈ (st.seedFromSnapshot snapshot).emittedIds := by
  have hs := (foldl_seedBlock_emittedIds (contentBlocks row)
    { rows.foldl ChatDeltaState.seedHistoryMessage { st with snapshotText := fun _ => none } with
      messageId := some messageId }).2 block hb id hid
  unfold ChatDeltaState.seedFromSnapshot
  rw [hr]
  dsimp only
  rw [hrow]
  dsimp only [ChatDeltaState.seedStreaming]
  split_ifs <;> exact hs

/-- Every turn, every snapshot and every events before its end: if the mapper has learned no
message or the one that ends, and the page has that message, then after the terminal delta the
client has the stored blocks and no other, unless the snapshot had the message in a row that
was not in flight, with a block that is neither stored nor was sent. -/
theorem terminal_delta_heals (st : ChatDeltaState) (messageId : String) (snapshot : Json)
    (events : List Event) (data page : Json) {rows : List Json} {row : Json}
    (hpage : messageRows page = some rows) (hrow : rowOf messageId rows = some row)
    (hlearned : let live := (Live.start st messageId snapshot).run rebuild slim events
      live.mapper.messageId = some messageId ∨
        live.mapper.messageId = none ∧ data.strField "messageId" = some messageId) :
    let live := (Live.start st messageId snapshot).run rebuild slim events
    (∀ id, live.finish data (some page) id = ofRows [row] id) ↔
        ∀ settled ∈ rowsOf messageId snapshot,
        streamingRow ((messageRows snapshot).getD []) ≠ some (settled, messageId) →
        ∀ block ∈ contentBlocks settled, ∀ id, block.strField "id" = some id →
          id ∈ live.mapper.emittedIds ∨ (ofRows [row] id).isSome := by
  intro live
  have hto : Touches (Live.start st messageId snapshot) live := run_touches rebuild slim events
  have hfi : ∀ id, live.finish data (some page) id =
      if id ∈ live.mapper.emittedIds ∧ ofRows [row] id = none then none
      else (ofRows [row] id).or (live.client id) := by
    intro id
    have hme : live.mapper.messageId.or (data.strField "messageId") = some messageId := by
      rcases hlearned with hlearned | ⟨hno, hda⟩
      · rw [hlearned]
        rfl
      · rw [hno, hda]
        rfl
    rw [Live.finish, ChatDeltaState.finalize, hme, ChatDeltaState.reconcile,
      Option.bind_some, hpage]
    exact read_terminalDelta hrow id
  -- A block that no event touched is in a row of the snapshot.
  have hsn : ∀ id, id ∉ live.mapper.emittedIds → ∀ block, live.client id = some block →
      ∃ settled ∈ rowsOf messageId snapshot, block ∈ contentBlocks settled ∧
        block.strField "id" = some id := by
    intro id hnot block hbl
    rw [hto.client id hnot] at hbl
    rcases foldl_take_eq_some hbl with ⟨hmem, hid⟩ | hemp
    · obtain ⟨settled, hse, hmem⟩ := mem_flatMap.mp hmem
      exact ⟨settled, hse, hmem, hid⟩
    · cases hemp
  constructor
  · intro hhea settled hse _ block hbl id hid
    by_contra hle
    rw [not_or, Option.not_isSome_iff_eq_none] at hle
    have hhe : (live.client id).isSome := by
      rw [hto.client id hle.1]
      exact foldl_take_isSome.mpr (.inl ⟨block, mem_flatMap.mpr ⟨settled, hse, hbl⟩, hid⟩)
    have hgo := hhea id
    rw [hfi, if_neg (fun h => hle.1 h.1), hle.2, Option.none_or] at hgo
    rw [hgo] at hhe
    cases hhe
  · intro hsto id
    rw [hfi]
    cases hrowI : ofRows [row] id with
    | some block => rw [if_neg (by simp), Option.some_or]
    | none =>
      split_ifs with hem
      · rfl
      · have hnot : id ∉ live.mapper.emittedIds := fun h => hem ⟨h, rfl⟩
        cases hcl : live.client id with
        | none => rfl
        | some block =>
          obtain ⟨settled, hse, hbl, hid⟩ := hsn id hnot block hcl
          by_cases hst : streamingRow ((messageRows snapshot).getD []) = some (settled, messageId)
          · cases hro : messageRows snapshot with
            | none =>
              rw [hro] at hst
              cases hst
            | some known =>
              rw [hro, Option.getD_some] at hst
              exact absurd (hto.emitted id (seed_notes_streaming st hro hst hbl hid)) hnot
          · rcases hsto settled hse hst block hbl id hid with hem | hso
            · exact absurd hem hnot
            · rw [hrowI] at hso
              cases hso

def textJson (id text : String) : Json :=
  .obj [("type", .str "text"), ("id", .str id), ("text", .str text)]

def textRow (messageId id text : String) (streaming : Bool) : Json :=
  .obj [("id", .str messageId), ("role", .str "assistant"),
    ("contentBlocks", .arr [textJson id text]), ("isStreaming", .bool streaming)]

def pageOf (row : Json) : Json := .obj [("messages", .arr [row])]

def endOf (messageId : String) : Json := .obj [("messageId", .str messageId)]

def asIs : Preview := ⟨fun block => block, fun _ => rfl⟩

/-- A turn in flight when the snapshot was read, with a block that is not stored in the end. -/
theorem terminal_delta_heals_resumed :
    let live :=
      (Live.start (.start "a" .full asIs) "m1" (pageOf (textRow "m1" "m1:1" "Wor" true))).run
      (fun _ => none) asIs [.streamDelta (.obj [("blockId", .str "m1:1"), ("messageId", .str "m1"),
        ("blockType", .str "text"), ("content", .str "king"), ("textOffset", .num "3")])]
    ∀ id, live.finish (endOf "m1") (some (pageOf (textRow "m1" "m1:0" "Done" false))) id =
      ofRows [textRow "m1" "m1:0" "Done" false] id := by
  refine (terminal_delta_heals (fun _ => none) asIs (.start "a" .full asIs) "m1"
    (pageOf (textRow "m1" "m1:1" "Wor" true)) _ (endOf "m1")
      (pageOf (textRow "m1" "m1:0" "Done" false))
    rfl rfl (.inl rfl)).mpr fun settled hs hnot => ?_
  obtain rfl := mem_singleton.mp hs
  exact absurd rfl hnot

/-- A turn `m1` that ended while the snapshot was read, with the next turn in flight: the terminal
delta is that of `m2`. It does not send the stored block of `m1`, and removes the one of `m2`. -/
theorem end_reads_next_turn :
    let live :=
      (Live.start (.start "a" .full asIs) "m1" (pageOf (textRow "m2" "m2:0" "Next" true))).run
      (fun _ => none) asIs []
    let page := pageOf (textRow "m1" "m1:0" "Done" false)
    rowOf "m1" ((messageRows page).getD []) = some (textRow "m1" "m1:0" "Done" false) ∧ ¬ (∀ id,
        live.finish (endOf "m1") (some page) id = ofRows [textRow "m1" "m1:0" "Done" false] id) ∧
      (live.mapper.finalize (endOf "m1") (some page)).1.map (listField · "removedIds") =
        some [.str "m2:0"] := by
  refine ⟨rfl, fun hh => ?_, rfl⟩
  cases hh "m1:0"

end Intentd.ChatTerminal
