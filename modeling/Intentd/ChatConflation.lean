import Intentd.ConflationBuffer

/-!
# Conflation of chat deltas

A chunk delta upserts one block. In the full-text encoding every delta carries
the whole text, so a merge takes the newer entity; in the incremental encoding it
carries a fragment, so a merge appends it to the pending one. Either way the
bucket of the first pending delta is kept. The `media` sidecar carries only what
a chunk resolved in both encodings, so a merge joins the two maps. The join is
one function: the entries already in the block win.

`chunkDelta` is the mapper that makes the deltas from the events of one turn.
-/
namespace Intentd.ChatConflation
open JsonValues ConflationBuffer MachineWords

structure ChatItem where
  added : Bool
  entity : Json

def blockOf (entity : Json) : Json := (entity.get "block").getD .null

/-- The fragment of an incremental entity. Only text blocks have one: other blocks
carry what the provider sent. -/
def textDeltaOf (entity : Json) : Option String :=
  if (blockOf entity).strField "type" ∈ [some "text", some "thinking"] then
    (blockOf entity).strField "textDelta"
  else none

def mediaOf (entity : Json) : Option Fields := ((blockOf entity).get "media").bind Json.asObj

def chatTextConcatCapBytes : ℕ := 256 * 1024

/-- Add the entries of `media` whose keys are not there yet. -/
def orInsertAll (acc media : Fields) : Fields :=
  media.foldl (fun acc entry => Fields.orInsert entry.1 entry.2 acc) acc

/-- Join media entries into a block. Entries already there win. -/
def unionMediaInto (entity : Json) (media : Fields) : Json :=
  match blockOf entity with
  | .obj block =>
    match Fields.get "media" block with
    | some (.obj acc) =>
      entity.insert "block" (.obj (Fields.insert "media" (.obj (orInsertAll acc media)) block))
    | _ => entity.insert "block" (.obj (Fields.insert "media" (.obj media) block))
  | _ => entity

/-- The entity with a fragment appended to its own. -/
def pushText (entity : Json) (acc add : String) : Json :=
  entity.insert "block" ((blockOf entity).insert "textDelta" (.str (acc ++ add)))

namespace ChatItem

def blockId (item : ChatItem) : Option String := (blockOf item.entity).strField "id"

def joinMedia (entity : Json) : Option Fields → Json
  | some media => unionMediaInto entity media
  | none => entity

def merge (pending newer : ChatItem) : Merge ChatItem :=
  match textDeltaOf pending.entity, textDeltaOf newer.entity with
  | some acc, some add =>
    if chatTextConcatCapBytes < acc.utf8ByteSize + add.utf8ByteSize then .refused newer
    else
      .merged { pending with
        entity := joinMedia (pushText pending.entity acc add) (mediaOf newer.entity) }
  | none, none =>
    .merged { pending with entity := joinMedia newer.entity (mediaOf pending.entity) }
  | _, _ => .refused newer

def cost (item : ChatItem) : ℕ := approxSize item.entity

end ChatItem

instance : Conflate ChatItem := ⟨fun pending newer => some (pending.merge newer), ChatItem.cost⟩

/-- The one entity a delta upserts, with its bucket. -/
def upsertOf (delta : Json) : Option (Bool × Json) :=
  match (delta.get "removedIds").bind Json.asArr, (delta.get "added").bind Json.asArr,
      (delta.get "updated").bind Json.asArr with
  | some [], some [entity], some [] => some (true, entity)
  | some [], some [], some [entity] => some (false, entity)
  | _, _, _ => none

/-- The item of a delta that upserts one block; any other delta is a barrier. -/
def fromDelta (delta : Json) : Option (Key × ChatItem) := do
  let (added, entity) ← upsertOf delta
  let block ← entity.get "block"
  let id ← block.strField "id"
  some (.chatBlock id, ⟨added, entity⟩)

def singleDelta (added : Bool) (entity : Json) : Json :=
  if added then .obj [("added", .arr [entity]), ("updated", .arr []), ("removedIds", .arr [])]
  else .obj [("added", .arr []), ("updated", .arr [entity]), ("removedIds", .arr [])]

def ChatItem.intoDelta (item : ChatItem) : Json := singleDelta item.added item.entity

/-! ## The mapper of one subscription -/

inductive DeltaEncoding where
  | full
  | incremental
  deriving DecidableEq, Repr

theorem strField_id (block : Json) : (id block).strField "id" = block.strField "id" := rfl

/-- What the mapper keeps about a turn. `bound` is the preview that a slim
subscription gets of a long live text. -/
structure ChatDeltaState where
  agentId : String
  encoding : DeltaEncoding
  bound : Json → Json
  bound_id : ∀ block : Json, (bound block).strField "id" = block.strField "id"
  textAcc : String → Option String
  snapshotText : String → Option String
  mediaAcc : String → Option Fields
  seenIds : List String
  emittedIds : List String
  messageId : Option String
  liveBlocks : List (String × Json)

/-- The rest of a text from a byte position on a character boundary. -/
def dropBytes : ℕ → List Char → Option (List Char)
  | 0, chars => some chars
  | _ + 1, [] => none
  | n + 1, c :: chars => if c.utf8Size ≤ n + 1 then dropBytes (n + 1 - c.utf8Size) chars else none

/-- Merge entries into a map, later ones replacing earlier ones. -/
def extend (acc media : Fields) : Fields :=
  media.foldl (fun acc entry => Fields.insert entry.1 entry.2 acc) acc

def asU64 : Json → Option ℕ
  | .num text => parseU64 text
  | _ => none

variable {block : Json} {blockId : String}

namespace ChatDeltaState

variable (st : ChatDeltaState)

def rememberBlock (blockId : String) (block : Json) : ChatDeltaState :=
  { st with liveBlocks := Fields.insert blockId block st.liveBlocks }

/-- Note that a block goes out. Returns whether it is the first time. -/
def noteBlock (blockId : String) : Bool × ChatDeltaState :=
  (!st.seenIds.contains blockId,
    { st with emittedIds := st.emittedIds.insert blockId, seenIds := st.seenIds.insert blockId })

def entity (messageId : String) (block : Json) : Json :=
  .obj [("agentId", .str st.agentId), ("messageId", .str messageId), ("role", .str "assistant"),
    ("block", block)]

/-- The part of a chunk that the text so far does not have yet; `none` when there
is nothing new, or the overlap ends inside a character. -/
def newText (acc chunk : String) (textOffset : Option ℕ) : Option String :=
  match textOffset with
  | none => some chunk
  | some offset =>
    let overlap := acc.utf8ByteSize - offset
    if chunk.utf8ByteSize ≤ overlap then none
    else (dropBytes overlap chunk.toList).map String.ofList

def textBlock (blockType blockId acc chunk : String) : Json :=
  match st.encoding with
  | .full =>
    st.bound (.obj [("type", .str blockType), ("id", .str blockId), ("text", .str acc)])
  | .incremental =>
    .obj [("type", .str blockType), ("id", .str blockId), ("textDelta", .str chunk)]

def withMedia (block : Json) : Option Fields → Json
  | some media => block.insert "media" (.obj media)
  | none => block

/-- The state once a text chunk's block is looked up: its text starts from the
snapshot's, and a block of the snapshot has been seen. -/
def lookedUp (blockId acc : String) : ChatDeltaState :=
  { st with
    textAcc := Function.update st.textAcc blockId (some acc)
    seenIds := if (st.snapshotText blockId).isSome then st.seenIds.insert blockId else st.seenIds }

/-- The state once a text chunk is taken in. -/
def grown (blockId blockType text : String) (media : Option Fields) : ChatDeltaState :=
  rememberBlock { st with
      textAcc := Function.update st.textAcc blockId (some text)
      mediaAcc := match media with
        | some media =>
          Function.update st.mediaAcc blockId (some (extend ((st.mediaAcc blockId).getD []) media))
        | none => st.mediaAcc }
    blockId (.obj [("type", .str blockType), ("id", .str blockId)])

/-- A text or thinking chunk: the text grows and its block goes out. -/
def textChunk (data : Json) (blockId blockType : String) (content : Json) :
    Option Json × ChatDeltaState :=
  let acc := (st.textAcc blockId).getD ((st.snapshotText blockId).getD "")
  match newText acc (content.asStr.getD "") ((data.get "textOffset").bind asU64) with
  | none => (none, st.lookedUp blockId acc)
  | some chunk =>
    let media := (data.get "media").bind Json.asObj
    (some (withMedia (st.textBlock blockType blockId (acc ++ chunk) chunk) media),
      (st.lookedUp blockId acc).grown blockId blockType (acc ++ chunk) media)

/-- The block of a chunk: text grows, anything else passes through under its id. -/
def chunkBlock (data : Json) (blockId blockType : String) (content : Json) :
    Option Json × ChatDeltaState :=
  if blockType = "text" ∨ blockType = "thinking" then st.textChunk data blockId blockType content
  else
    match content with
    | .obj fields =>
      let block := Json.obj (Fields.insert "id" (.str blockId) fields)
      (some block, st.rememberBlock blockId block)
    | _ => (none, st)

def chunkDelta (data : Json) : Option Json × ChatDeltaState :=
  match data.strField "blockId", data.strField "messageId", data.get "content" with
  | some blockId, some messageId, some content =>
    match st.chunkBlock data blockId ((data.strField "blockType").getD "text") content with
    | (none, st) => (none, st)
    | (some block, st) =>
      let noted := noteBlock { st with messageId := some messageId } blockId
      (some (singleDelta noted.1 (st.entity messageId block)), noted.2)
  | _, _, _ => (none, st)

theorem strField_withMedia (h : block.strField "id" = some blockId) (media : Option Fields) :
    (withMedia block media).strField "id" = some blockId := by
  cases media with
  | none => exact h
  | some media =>
    rw [withMedia, Json.strField, Json.get_insert_ne (by decide)]
    exact h

theorem chunkBlock_id {st st' : ChatDeltaState} {data content : Json} {blockType : String}
    (h : st.chunkBlock data blockId blockType content = (some block, st')) :
    block.strField "id" = some blockId := by
  unfold chunkBlock at h
  split_ifs at h with ht
  · unfold textChunk at h
    simp only at h
    split at h
    · cases h
    · cases h
      apply strField_withMedia
      unfold textBlock
      split
      · rw [st.bound_id]
        rfl
      · rfl
  · split at h
    · cases h
      exact Json.strField_eq_some.mpr (Fields.get_insert_self _)
    · cases h

end ChatDeltaState

/-! ## Sizes of merged entities -/

section Sizes
variable {key other : String} {v w old : Json} {fields : Fields} {entity : Json}

theorem approxSizeFields_insert_of_get (h : Fields.get key fields = some old) :
    approxSizeFields (Fields.insert key v fields) + approxSize old =
      approxSizeFields fields + approxSize v := by
  induction fields with
  | nil => cases h
  | cons field rest ih =>
    rw [Fields.get] at h
    rw [Fields.insert]
    split_ifs at h ⊢ with hk
    · cases h
      rw [approxSizeFields, approxSizeFields, hk]
      omega
    · have hr := ih h
      rw [approxSizeFields, approxSizeFields]
      omega

theorem approxSizeFields_insert_of_none (h : Fields.get key fields = none) :
    approxSizeFields (Fields.insert key v fields) =
      approxSizeFields fields + key.utf8ByteSize + approxSize v := by
  induction fields with
  | nil => simp [Fields.insert, approxSizeFields]
  | cons field rest ih =>
    rw [Fields.get] at h
    rw [Fields.insert]
    split_ifs at h ⊢ with hk
    rw [approxSizeFields, approxSizeFields, ih h]
    omega

theorem approxSizeFields_insert_le : approxSizeFields (Fields.insert key v fields) ≤
      approxSizeFields fields + key.utf8ByteSize + approxSize v := by
  cases h : Fields.get key fields with
  | none => exact (approxSizeFields_insert_of_none h).le
  | some old =>
    have heq := approxSizeFields_insert_of_get (v := v) h
    omega

theorem le_approxSizeFields (h : Fields.get key fields = some v) :
    key.utf8ByteSize + approxSize v ≤ approxSizeFields fields := by
  induction fields with
  | nil => cases h
  | cons field rest ih =>
    rw [Fields.get] at h
    rw [approxSizeFields]
    split_ifs at h with hk
    · cases h
      rw [hk]
      omega
    · have hr := ih h
      omega

theorem add_le_approxSizeFields (h : Fields.get key fields = some v)
    (h' : Fields.get other fields = some w) (hne : key ≠ other) :
    key.utf8ByteSize + approxSize v + (other.utf8ByteSize + approxSize w) ≤
      approxSizeFields fields := by
  induction fields with
  | nil => cases h
  | cons field rest ih =>
    rw [Fields.get] at h h'
    rw [approxSizeFields]
    split_ifs at h with hk
    · cases h
      rw [if_neg (by rw [hk]; exact hne)] at h'
      have hr := le_approxSizeFields h'
      rw [hk]
      omega
    · split_ifs at h' with hk'
      · cases h'
        have hr := le_approxSizeFields h
        rw [hk']
        omega
      · have hr := ih h h'
        omega

theorem approxSizeFields_orInsertAll_le (acc media : Fields) :
    approxSizeFields (orInsertAll acc media) ≤ approxSizeFields acc + approxSizeFields media := by
  induction media generalizing acc with
  | nil => exact le_rfl
  | cons entry rest ih =>
    have hr := ih (Fields.orInsert entry.1 entry.2 acc)
    have hone : approxSizeFields (Fields.orInsert entry.1 entry.2 acc) ≤
        approxSizeFields acc + entry.1.utf8ByteSize + approxSize entry.2 := by
      unfold Fields.orInsert
      split_ifs
      · omega
      · exact approxSizeFields_insert_le
    rw [approxSizeFields]
    change approxSizeFields (orInsertAll (Fields.orInsert entry.1 entry.2 acc) rest) ≤ _
    omega

theorem approxSize_insert_of_get (h : v.get key = some old) :
    approxSize (v.insert key w) + approxSize old = approxSize v + approxSize w := by
  cases v with
  | obj fields =>
    have heq := approxSizeFields_insert_of_get (v := w) h
    simp only [Json.insert, approxSize]
    omega
  | _ => cases h

theorem get_block_of_field (h : (blockOf entity).get key = some v) :
    entity.get "block" = some (blockOf entity) ∧
      ∃ block, blockOf entity = .obj block ∧ Fields.get key block = some v := by
  constructor
  · unfold blockOf at h ⊢
    cases hb : entity.get "block" with
    | none =>
      rw [hb] at h
      cases h
    | some block => rfl
  · cases hb : blockOf entity with
    | obj block =>
      rw [hb] at h
      exact ⟨block, rfl, h⟩
    | _ =>
      rw [hb] at h
      cases h

theorem get_textDelta {text : String} (h : textDeltaOf entity = some text) :
    (blockOf entity).get "textDelta" = some (.str text) := by
  unfold textDeltaOf at h
  split_ifs at h
  exact Json.strField_eq_some.mp h

theorem get_media {media : Fields} (h : mediaOf entity = some media) :
    (blockOf entity).get "media" = some (.obj media) := by
  obtain ⟨v, hv, hobj⟩ := Option.bind_eq_some_iff.mp h
  cases v with
  | obj fields =>
    cases hobj
    exact hv
  | _ => cases hobj

theorem le_approxSize_of_block {block : Fields}
    (hget : entity.get "block" = some (blockOf entity)) (hb : blockOf entity = .obj block) :
    approxSizeFields block ≤ approxSize entity := by
  cases entity with
  | obj fields =>
    have hle := le_approxSizeFields hget
    rw [hb] at hle
    simp only [approxSize] at hle ⊢
    omega
  | _ => cases hget

theorem approxSize_pushText {acc : String} (h : textDeltaOf entity = some acc) (add : String) :
    approxSize (pushText entity acc add) = approxSize entity + add.utf8ByteSize := by
  have ht := get_textDelta h
  obtain ⟨hget, -⟩ := get_block_of_field ht
  have hb := approxSize_insert_of_get (w := .str (acc ++ add)) ht
  have he :=
    approxSize_insert_of_get (w := (blockOf entity).insert "textDelta" (.str (acc ++ add))) hget
  simp only [approxSize, String.utf8ByteSize_append] at hb
  rw [pushText]
  omega

theorem approxSize_unionMediaInto_le (entity : Json) (media : Fields) :
    approxSize (unionMediaInto entity media) ≤
      approxSize entity + ("media".utf8ByteSize + approxSize (.obj media)) := by
  unfold unionMediaInto
  cases hb : blockOf entity with
  | obj block =>
    have hget : entity.get "block" = some (.obj block) := by
      unfold blockOf at hb
      cases he : entity.get "block" with
      | none =>
        rw [he] at hb
        cases hb
      | some v =>
        rw [he] at hb
        exact congrArg some hb
    have hs : ∀ value, approxSize (entity.insert "block"
        (.obj (Fields.insert "media" value block))) + approxSizeFields block =
        approxSize entity + approxSizeFields (Fields.insert "media" value block) := by
      intro value
      have heq := approxSize_insert_of_get (w := .obj (Fields.insert "media" value block)) hget
      simp only [approxSize] at heq ⊢
      omega
    simp only
    split
    · rename_i acc hacc
      have heq := approxSizeFields_insert_of_get (v := .obj (orInsertAll acc media)) hacc
      have hle := approxSizeFields_orInsertAll_le acc media
      have ht := hs (.obj (orInsertAll acc media))
      simp only [approxSize] at heq ⊢
      omega
    · have hle : approxSizeFields (Fields.insert "media" (.obj media) block) ≤ _ :=
        approxSizeFields_insert_le
      have ht := hs (.obj media)
      omega
  | _ => exact Nat.le_add_right _ _

end Sizes

open ChatItem in
theorem approxSize_joinMedia_le (entity other : Json) :
    approxSize (joinMedia entity (mediaOf other)) ≤ approxSize entity + approxSize other := by
  cases hm : mediaOf other with
  | none => exact Nat.le_add_right _ _
  | some media =>
    obtain ⟨hget, block, hb, hf⟩ := get_block_of_field (get_media hm)
    have hu := approxSize_unionMediaInto_le entity media
    have hp := le_approxSizeFields hf
    have ho := le_approxSize_of_block hget hb
    rw [joinMedia]
    omega

theorem approxSize_joinMedia_text_le (entity : Json) {other : Json} {add : String}
    (h : textDeltaOf other = some add) :
    approxSize (ChatItem.joinMedia entity (mediaOf other)) + add.utf8ByteSize ≤
      approxSize entity + approxSize other := by
  obtain ⟨hget, block, hb, hf⟩ := get_block_of_field (get_textDelta h)
  have ho := le_approxSize_of_block hget hb
  cases hme : mediaOf other with
  | none =>
    have hpa := le_approxSizeFields hf
    simp only [approxSize] at hpa
    rw [ChatItem.joinMedia]
    omega
  | some media =>
    have hm := get_media hme
    rw [hb] at hm
    have hp := add_le_approxSizeFields hf hm (by decide)
    have hu := approxSize_unionMediaInto_le entity media
    simp only [approxSize] at hp hu
    rw [ChatItem.joinMedia]
    omega

instance : LawfulConflate ChatItem where
  merge_isSome := fun _ _ => rfl
  merged_cost_le := by
    intro pending newer merged h
    have hmerge : pending.merge newer = .merged merged := Option.some.inj h
    change approxSize merged.entity ≤ approxSize pending.entity + approxSize newer.entity
    unfold ChatItem.merge at hmerge
    split at hmerge
    · rename_i acc add hacc hadd
      split_ifs at hmerge
      cases hmerge
      have hpush := approxSize_pushText hacc add
      have hjoin := approxSize_joinMedia_text_le (pushText pending.entity acc add) hadd
      simp only
      omega
    · cases hmerge
      have hjoin := approxSize_joinMedia_le newer.entity pending.entity
      simp only
      omega
    · cases hmerge

theorem refused_eq {pending newer x : ChatItem}
    (h : Conflate.merge pending newer = some (.refused x)) : x = newer := by
  have hm : pending.merge newer = .refused x := Option.some.inj h
  unfold ChatItem.merge at hm
  split at hm
  · split_ifs at hm
    cases hm
    rfl
  · cases hm
  · cases hm
    rfl

end Intentd.ChatConflation
