import Intentd.ChatReader

/-!
# Seeding from a snapshot

A subscription starts with a snapshot: the newest rows of the conversation and, if a turn is
in flight, a row for it. The mapper takes from the snapshot what it needs to go on from there.
The text of every block is kept, because chunks that were queued before the snapshot was read
may be in it. The blocks of the row in flight count as sent, and their texts and media are
what the next chunk continues.

A client that got the snapshot has the blocks of its rows.
-/
namespace Intentd.ChatConflation
open JsonValues

def messageRows (page : Json) : Option (List Json) := (page.get "messages").bind Json.asArr

def contentBlocks (row : Json) : List Json := ((row.get "contentBlocks").bind Json.asArr).getD []

def isTextual (block : Json) : Bool := block.strField "type" ∈ [some "text", some "thinking"]

def isStreaming (row : Json) : Bool :=
  match row.get "isStreaming" with
  | some (.bool flag) => flag
  | _ => false

/-- The first row that is streaming, if it has an id. -/
def streamingRow (rows : List Json) : Option (Json × String) :=
  (rows.find? isStreaming).bind fun row => (row.strField "id").map fun id => (row, id)

theorem streamingRow_eq_some {rows : List Json} {row : Json} {messageId : String}
    (h : streamingRow rows = some (row, messageId)) :
    row ∈ rows ∧ isStreaming row = true ∧ row.strField "id" = some messageId := by
  obtain ⟨found, hf, hfo⟩ := Option.bind_eq_some_iff.mp h
  obtain ⟨id, hid, heq⟩ := Option.map_eq_some_iff.mp hfo
  cases heq
  exact ⟨List.mem_of_find?_eq_some hf, List.find?_some hf, hid⟩

namespace ChatDeltaState

/-- A mapper for a new subscription. `bound` is what its projection does to a live text. -/
def start (agentId : String) (encoding : DeltaEncoding)
    (bound : { f : Json → Json // ∀ block, (f block).strField "id" = block.strField "id" }) :
    ChatDeltaState :=
  { new agentId encoding with bound := bound.1, bound_id := bound.2 }

variable (st : ChatDeltaState)

def seedHistoryBlock (block : Json) : ChatDeltaState :=
  if isTextual block then
    match block.strField "id", block.strField "text" with
    | some id, some text =>
      { st with snapshotText := Function.update st.snapshotText id (some text) }
    | _, _ => st
  else st

def seedHistoryMessage (row : Json) : ChatDeltaState :=
  (contentBlocks row).foldl seedHistoryBlock st

def seedNamed (id : String) (block : Json) : ChatDeltaState :=
  let noted := (st.noteBlock id).2
  if isTextual block then
    let marked := noted.rememberBlock id
      (.obj [("type", .str ((block.strField "type").getD "")), ("id", .str id)])
    { marked with
      textAcc := match block.strField "text" with
        | some text => Function.update st.textAcc id (some text)
        | none => st.textAcc
      mediaAcc := match (block.get "media").bind Json.asObj with
        | some media => Function.update st.mediaAcc id (some media)
        | none => st.mediaAcc }
  else noted.rememberBlock id block

def seedBlock (block : Json) : ChatDeltaState :=
  match block.strField "id" with
  | none => st
  | some id => st.seedNamed id block

/-- The row in flight. One without blocks gets a marker under the id of its first block. -/
def seedStreaming (row : Json) (messageId : String) : ChatDeltaState :=
  let seeded := (contentBlocks row).foldl seedBlock { st with messageId := some messageId }
  if (contentBlocks row).any fun block => (block.strField "id").isSome then seeded
  else seeded.rememberBlock (messageId ++ ":0")
    (.obj [("type", .str "text"), ("id", .str (messageId ++ ":0"))])

def seedFromSnapshot (snapshot : Json) : ChatDeltaState :=
  match messageRows snapshot with
  | none => st
  | some rows =>
    let known := rows.foldl seedHistoryMessage { st with snapshotText := fun _ => none }
    match streamingRow rows with
    | none => known
    | some (row, messageId) => known.seedStreaming row messageId

/-- The text that the next chunk of a block continues. -/
def heldText (id : String) : String :=
  (st.textAcc id).getD ((st.snapshotText id).getD "")

def chunkDeltas : List Json → ChatDeltaState → List Json × ChatDeltaState
  | [], st => ([], st)
  | data :: events, st =>
    let mapped := st.chunkDelta data
    let rest := chunkDeltas events mapped.2
    (mapped.1.toList ++ rest.1, rest.2)

end ChatDeltaState

end Intentd.ChatConflation

namespace Intentd.ChatReader
open JsonValues ChatConflation

def take (r : Reader) (block : Json) : Reader :=
  match block.strField "id" with
  | some id => Function.update r id (some block)
  | none => r

def ofRows (rows : List Json) : Reader := (rows.flatMap contentBlocks).foldl take empty

def ofSnapshot (snapshot : Json) : Reader := ofRows ((messageRows snapshot).getD [])

def textOf (r : Reader) (id : String) : String := ((r id).bind (·.strField "text")).getD ""

theorem take_apply (r : Reader) (block : Json) (id : String) :
    take r block id = if block.strField "id" = some id then some block else r id := by
  unfold take
  cases hid : block.strField "id" with
  | none => simp
  | some own =>
    by_cases h : id = own
    · subst h
      simp
    · simp [h, Ne.symm h]

variable {blocks : List Json} {r : Reader} {id : String}

/-- A block that is among the rows is held under its id, and only such blocks are held. -/
theorem foldl_take_eq_some {block : Json} (h : blocks.foldl take r id = some block) :
    (block ∈ blocks ∧ block.strField "id" = some id) ∨ r id = some block := by
  induction blocks generalizing r with
  | nil => exact .inr h
  | cons first rest ih =>
    rcases ih h with ⟨hmem, hid⟩ | hf
    · exact .inl ⟨List.mem_cons_of_mem _ hmem, hid⟩
    · rw [take_apply] at hf
      split_ifs at hf with hown
      · cases hf
        exact .inl ⟨List.mem_cons_self, hown⟩
      · exact .inr hf

theorem foldl_take_isSome : (blocks.foldl take r id).isSome ↔
      (∃ block ∈ blocks, block.strField "id" = some id) ∨ (r id).isSome := by
  induction blocks generalizing r with
  | nil => simp
  | cons first rest ih =>
    rw [List.foldl_cons, ih, take_apply]
    by_cases hown : first.strField "id" = some id <;> simp [hown]

end Intentd.ChatReader
