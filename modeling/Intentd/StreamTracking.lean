import Intentd.ChatReader
import Intentd.RecorderChunks

/-!
# Recorder, mapper and client side by side

Recorder and mapper keep the same blocks in different ways: the recorder has a list and one
open buffer, the mapper an accumulator of text and media for every block id, and markers where
the texts are. `Tracks` relates the two, and a client that read the deltas. It is kept when a
block is put into the message, and when the open text grows.

Blocks are compared as JSON values. Recorder and mapper list the media of a text in different
orders, so the order of an object's fields does not count.
-/
namespace Intentd.TurnStream
open JsonValues MachineWords ChatConflation ChatReader TurnRecorder List Function Option

/-- What a subscription makes of one event. `slim` is its preview of a tool's input or output. -/
def mapEvent (rebuild : Json → Option ToolBlocks.Resource) (slim : Json → Json)
    (st : ChatDeltaState) :
    Event → Option Json × ChatDeltaState
  | .streamDelta data => st.chunkDelta data
  | .toolCall data => st.toolDelta rebuild slim data

variable {t : Transcript}

theorem blockId_inj {i j : ℕ} : t.blockId i = t.blockId j ↔ i = j := by
  have hv : ∀ n : ℕ, Nat.ofDigitChars 10 n.repr.toList 0 = n := by
    intro n
    rw [Nat.repr, String.toList_ofList, Nat.ofDigitChars_toDigits (by omega) (by omega)]
  rw [Transcript.blockId, Transcript.blockId, String.append_right_inj]
  refine ⟨fun h => ?_, congrArg Nat.repr⟩
  rw [← hv i, h, hv j]

def marker (blockType id : String) : Json := .obj [("type", .str blockType), ("id", .str id)]

def textWith (blockType id text : String) (media : Option Fields) : Json :=
  ChatDeltaState.withMedia (.obj [("type", .str blockType), ("id", .str id), ("text", .str text)])
    media

/-- Recorder, mapper and client have the same blocks, and the accumulators of the mapper are
those of the open block. -/
structure Tracks (t : Transcript) (st : ChatDeltaState) (r : Reader) : Prop where
  full : st.encoding = .full
  whole : ∀ block, st.bound block = block
  fresh : ∀ id, st.snapshotText id = none
  live : ∀ i : ℕ, Option.Rel Json.Equal t.snapshotBlocks[i]? (st.liveBlock (t.blockId i))
  others : ∀ id, (∀ i, id ≠ t.blockId i) → st.liveBlock id = none
  text : (st.textAcc (t.blockId t.blocks.length)).getD "" = t.text
  marked : t.text ≠ "" → Fields.get (t.blockId t.blocks.length) st.liveBlocks =
    some (marker (textType t.pendingThought) (t.blockId t.blocks.length))
  media : ∀ key, Fields.get key t.pendingMedia.fields =
    (st.mediaAcc (t.blockId t.blocks.length)).bind (Fields.get key)
  bare : t.pendingMedia = [] ↔ st.mediaAcc (t.blockId t.blocks.length) = none
  later : ∀ i, t.blocks.length < i →
    (st.textAcc (t.blockId i)).getD "" = "" ∧ st.mediaAcc (t.blockId i) = none
  client : ∀ id, r id = st.liveBlock id

theorem Tracks.new (agentId messageId : String) (probe : Bool) :
    Tracks (.new messageId probe) (.new agentId .full) ChatReader.empty where
  full := rfl
  whole _ := rfl
  fresh _ := rfl
  live _ := .none
  others _ _ := rfl
  text := rfl
  marked h := absurd rfl h
  media _ := rfl
  bare := ⟨fun _ => rfl, fun _ => rfl⟩
  later _ _ := ⟨rfl, rfl⟩
  client _ := rfl

variable {st st' : ChatDeltaState} {id : String} {block : Json}

theorem rebuilt_of_plain (h : Plain block) : st.rebuilt id block = block := by
  unfold ChatDeltaState.rebuilt
  cases ht : block.strField "type" with
  | none => rfl
  | some blockType =>
    have hne : ¬ (blockType = "text" ∨ blockType = "thinking") := by
      rintro (rfl | rfl)
      · exact h.1 ht
      · exact h.2 ht
    simp only [hne, and_false, if_false]

theorem rebuilt_marker (thought : Bool) (hw : ∀ block, st.bound block = block) :
    st.rebuilt id (marker (textType thought) id) =
      textWith (textType thought) id ((st.textAcc id).getD "") (st.mediaAcc id) := by
  cases thought <;>
    simp [ChatDeltaState.rebuilt, marker, textType, textWith, Json.strField, Json.get,
      Fields.get, Json.asStr, hw]

theorem liveBlock_congr (hw : ∀ block, st.bound block = block)
    (hw' : ∀ block, st'.bound block = block)
    (hl : Fields.get id st'.liveBlocks = Fields.get id st.liveBlocks)
    (ht : (st'.textAcc id).getD "" = (st.textAcc id).getD "")
    (hm : st'.mediaAcc id = st.mediaAcc id) : st'.liveBlock id = st.liveBlock id := by
  have hr : st'.rebuilt id = st.rebuilt id := by
    funext block
    unfold ChatDeltaState.rebuilt
    rw [ht, hm]
    simp only [hw, hw']
  rw [ChatDeltaState.liveBlock_eq, ChatDeltaState.liveBlock_eq, hl, hr]

variable {t' : Transcript} {r : Reader}

section Puts

variable {i : ℕ}

theorem Tracks.opened (h : Tracks t st r) (hs : Sound t) (thought : Bool) :
    Tracks (opened t thought) st r := by
  have hl := h.live
  rw [← opened_snapshotBlocks t thought] at hl
  unfold TurnRecorder.opened at hl ⊢
  split_ifs at hl ⊢ with hth
  · exact h
  · have ha : (st.textAcc (t.blockId t.snapshotBlocks.length)).getD "" = "" ∧
        st.mediaAcc (t.blockId t.snapshotBlocks.length) = none := by
      unfold Transcript.snapshotBlocks
      split_ifs with ht
      · exact ⟨h.text.trans ht, h.bare.mp (hs.empty ht)⟩
      · exact h.later _ (by simp)
    exact
      { full := h.full, whole := h.whole, fresh := h.fresh, live := hl, others := h.others
        text := ha.1
        marked := fun hne => absurd rfl hne
        media := fun key => by
          change none = (st.mediaAcc (t.blockId t.snapshotBlocks.length)).bind (Fields.get key)
          rw [ha.2]
          rfl
        bare := ⟨fun _ => ha.2, fun _ => rfl⟩
        later := fun i hi => h.later i (lt_of_le_of_lt (length_snapshotBlocks t).1 hi)
        client := h.client }

structure Remembers (st : ChatDeltaState) (id : String) (block : Json) (st' : ChatDeltaState) :
    Prop where
  encoding : st'.encoding = st.encoding
  bound : st'.bound = st.bound
  textAcc : st'.textAcc = st.textAcc
  snapshotText : st'.snapshotText = st.snapshotText
  mediaAcc : st'.mediaAcc = st.mediaAcc
  live : st'.liveBlocks = Fields.insert id block st.liveBlocks

theorem noted_remembers (id : String) (block : Json) :
    Remembers st id block ((st.noteBlock id).2.rememberBlock id block) :=
  ⟨rfl, rfl, rfl, rfl, rfl, rfl⟩

theorem Remembers.liveBlock {id' : String} (h : Remembers st id block st')
    (hw : ∀ block, st.bound block = block) (hp : Plain block) :
    st'.liveBlock id' = if id' = id then some block else st.liveBlock id' := by
  split_ifs with hid
  · rw [ChatDeltaState.liveBlock_eq, h.live, hid, Fields.get_insert_self, map_some,
      rebuilt_of_plain hp]
  · refine liveBlock_congr hw (fun b => h.bound ▸ hw b) ?_ (by rw [h.textAcc]) (by rw [h.mediaAcc])
    rw [h.live, Fields.get_insert_ne hid]

theorem Tracks.put (h : Tracks t st r) (hput : Puts t i block t') (hpl : Plain block)
    (hst : Remembers st (t.blockId i) block st') :
    Tracks t' st' (Function.update r (t.blockId i) (some block)) := by
  have hid := hput.blockId
  have hwh : ∀ b, st'.bound b = b := fun b => hst.bound ▸ h.whole b
  have hli : ∀ j, st'.liveBlock (t'.blockId j) =
      if j = i then some block else st.liveBlock (t.blockId j) := by
    intro j
    rw [hid, hst.liveBlock h.whole hpl]
    simp only [blockId_inj]
  -- The accumulators of the block that is open afterwards.
  have hop : (st.textAcc (t.blockId t'.blocks.length)).getD "" = t'.text ∧
      (t'.text ≠ "" → Fields.get (t.blockId t'.blocks.length) st'.liveBlocks =
        some (marker (textType t'.pendingThought) (t.blockId t'.blocks.length))) ∧
      (∀ key, Fields.get key t'.pendingMedia.fields =
        (st.mediaAcc (t.blockId t'.blocks.length)).bind (Fields.get key)) ∧
      (t'.pendingMedia = [] ↔ st.mediaAcc (t.blockId t'.blocks.length) = none) ∧
      t.blocks.length ≤ t'.blocks.length := by
    cases hput with
    | replaced hi blocks frame =>
      obtain ⟨-, hte, hth, -, hme, -, -⟩ := frame
      rw [hte, hth, hme, blocks, length_set, hst.live]
      have hne : t.blockId t.blocks.length ≠ t.blockId i := fun heq => by
        rw [blockId_inj] at heq
        omega
      rw [Fields.get_insert_ne hne]
      exact ⟨h.text, h.marked, h.media, h.bare, le_rfl⟩
    | appended hi blocks frame =>
      obtain ⟨-, hte, -, -, hme, -, -⟩ := frame
      have hlt : t.blocks.length < t'.blocks.length := by
        rw [blocks, length_append]
        exact Nat.lt_succ_of_le (length_snapshotBlocks t).1
      obtain ⟨hacc, hno⟩ := h.later _ hlt
      rw [hte, hme, hacc, hno]
      exact ⟨rfl, fun hne => absurd rfl hne, fun _ => rfl, ⟨fun _ => rfl, fun _ => rfl⟩, hlt.le⟩
  obtain ⟨hte, hma, hme, hba, hle⟩ := hop
  refine ⟨hst.encoding.trans h.full, hwh, fun id => by rw [hst.snapshotText]; exact h.fresh id,
    fun j => ?_, fun id hot => ?_, ?_, ?_, ?_, ?_, fun j hj => ?_, fun id => ?_⟩
  · rw [hli]
    rcases hput.snapshotBlocks with ⟨hi, hset⟩ | ⟨hi, hap⟩
    · rw [hset, getElem?_set]
      by_cases hij : i = j
      · rw [if_pos hij, if_pos (hi.trans_le (length_snapshotBlocks t).1), if_pos hij.symm]
        exact .some (.refl block)
      · rw [if_neg hij, if_neg (Ne.symm hij)]
        exact h.live j
    · rw [hap]
      by_cases hij : j = i
      · rw [if_pos hij, hij, hi, getElem?_concat_length]
        exact .some (.refl block)
      · rw [if_neg hij]
        have hget : (t.snapshotBlocks ++ [block])[j]? = t.snapshotBlocks[j]? := by
          rw [getElem?_append]
          split_ifs with hj
          · rfl
          · rw [getElem?_singleton, if_neg (by omega), getElem?_eq_none (by omega)]
        rw [hget]
        exact h.live j
  · rw [hst.liveBlock h.whole hpl, if_neg (fun heq => hot i (heq.trans (hid i).symm))]
    exact h.others id fun j heq => hot j (heq.trans (hid j).symm)
  · rw [hst.textAcc, hid]
    exact hte
  · rw [hid]
    exact hma
  · rw [hst.mediaAcc, hid]
    exact hme
  · rw [hst.mediaAcc, hid]
    exact hba
  · rw [hst.textAcc, hst.mediaAcc, hid]
    exact h.later j (lt_of_le_of_lt hle hj)
  · rw [update_apply, hst.liveBlock h.whole hpl, h.client]

end Puts

section Blocks

variable {sent blocks : List (String × Json)} {a : String × Json}

/-- The client puts a block where it was sent for. -/
def place (r : Reader) (sent : String × Json) : Reader := Function.update r sent.1 (some sent.2)

def Placed (sent : String × Json) : Prop := Plain sent.2 ∧ sent.2.strField "id" = some sent.1

variable (messageId : String)

theorem upsert_plain {sent : String × Json} (h : Placed sent) :
    upsert r (st.entity messageId sent.2) = place r sent := by
  have hb : blockOf (st.entity messageId sent.2) = sent.2 := rfl
  have hc : (st.entity messageId sent.2).get "streamingComplete" = none := rfl
  have hp : sent.2.strField "type" ∉ [some "text", some "thinking"] := by
    rw [mem_cons, mem_singleton, not_or]
    exact h.1
  unfold upsert blockAfter
  rw [hb, h.2, hc]
  dsimp only
  rw [if_neg hp]
  rfl

theorem foldl_upsert_plain (h : ∀ s ∈ sent, Placed s) :
    (sent.map fun s => st.entity messageId s.2).foldl upsert r = sent.foldl place r := by
  induction sent generalizing r with
  | nil => rfl
  | cons s rest ih =>
    obtain ⟨hs, hr⟩ := forall_mem_cons.mp h
    rw [map_cons, foldl_cons, foldl_cons, upsert_plain messageId hs, ih hr]

theorem place_comm {b : String × Json} (h : a.1 ≠ b.1) :
    place (place r a) b = place (place r b) a :=
  update_comm h _ _ r

theorem foldl_place_comm (h : ∀ s ∈ sent, s.1 ≠ a.1) :
    sent.foldl place (place r a) = place (sent.foldl place r) a := by
  induction sent generalizing r with
  | nil => rfl
  | cons s rest ih =>
    obtain ⟨hs, hr⟩ := forall_mem_cons.mp h
    rw [foldl_cons, foldl_cons, place_comm hs.symm, ih hr]

/-- New blocks are listed before those that were seen. The client has what it would have if it
got them in the order they were made. -/
theorem sendBlocks_parts (blocks : List (String × Json)) (st : ChatDeltaState) :
    ∃ added updated : List (String × Json), (st.sendBlocks messageId blocks).1 =
        (added.map fun s => st.entity messageId s.2, updated.map fun s => st.entity messageId s.2) ∧
      (∀ s ∈ added, s.1 ∉ st.seenIds) ∧ (∀ s ∈ added ++ updated, s ∈ blocks) ∧
      ∀ r, (added ++ updated).foldl place r = blocks.foldl place r := by
  induction blocks generalizing st with
  | nil => exact ⟨[], [], rfl, by simp, by simp, fun _ => rfl⟩
  | cons head blocks ih =>
    obtain ⟨added, updated, hsent, hnew, hmem, hfo⟩ :=
      ih ((st.noteBlock head.1).2.rememberBlock head.1 head.2)
    have hse : ∀ s ∈ added, s.1 ∉ st.seenIds ∧ s.1 ≠ head.1 := by
      intro s hs
      have hnot := hnew s hs
      exact ⟨fun hmem => hnot (mem_insert_of_mem hmem), fun heq => hnot (heq ▸ mem_insert_self)⟩
    have hsen : st.sendBlocks messageId (head :: blocks) = (if (st.noteBlock head.1).1 then
            (st.entity messageId head.2 :: added.map fun s => st.entity messageId s.2,
              updated.map fun s => st.entity messageId s.2)
          else (added.map fun s => st.entity messageId s.2,
            st.entity messageId head.2 :: updated.map fun s => st.entity messageId s.2),
          (((st.noteBlock head.1).2.rememberBlock head.1 head.2).sendBlocks messageId
            blocks).2) := by
      rw [ChatDeltaState.sendBlocks, hsent]
      rfl
    rw [hsen]
    by_cases hf : (st.noteBlock head.1).1 = true
    · refine ⟨head :: added, updated, by simp only [hf, if_true, map_cons], ?_, ?_, fun r => ?_⟩
      · refine forall_mem_cons.mpr ⟨?_, fun s hs => (hse s hs).1⟩
        simpa [ChatDeltaState.noteBlock] using hf
      · exact forall_mem_cons.mpr ⟨mem_cons_self, fun s hs => mem_cons_of_mem _ (hmem s hs)⟩
      · rw [cons_append, foldl_cons, foldl_cons, hfo]
    · refine ⟨added, head :: updated, by simp only [hf, map_cons]; rfl,
        fun s hs => (hse s hs).1, ?_, fun r => ?_⟩
      · intro s hs
        rw [mem_append, mem_cons, or_left_comm, ← mem_append] at hs
        exact hs.elim (fun heq => heq ▸ mem_cons_self) fun hs => mem_cons_of_mem _ (hmem s hs)
      · rw [foldl_append, foldl_cons, foldl_cons, ← hfo, foldl_append,
          foldl_place_comm fun s hs => (hse s hs).2]

theorem Tracks.sendBlocks (hr : RecordsAll t blocks t') (h : Tracks t st r) :
    Tracks t' (st.sendBlocks messageId blocks).2 (blocks.foldl place r) ∧
      ∀ s ∈ blocks, Placed s := by
  induction hr generalizing st r with
  | nil => exact ⟨h, by simp⟩
  | cons hs hr _ ih =>
    have hput := h.put hr.puts hr.hasRole.plain (noted_remembers _ _)
    obtain ⟨ht, hp⟩ := ih hput
    exact ⟨ht, forall_mem_cons.mpr ⟨⟨hr.hasRole.plain, hr.hasRole.strField_id⟩, hp⟩⟩

theorem apply_sendBlocks (messageId : String) (hp : ∀ s ∈ blocks, Placed s) :
    let sent := st.sendBlocks messageId blocks
    apply r (.obj [("added", .arr sent.1.1), ("updated", .arr sent.1.2), ("removedIds", .arr [])]) =
      blocks.foldl place r := by
  intro sent
  obtain ⟨added, updated, hse, -, hmem, hf⟩ := sendBlocks_parts messageId blocks st
  have ha :
      apply r (.obj [("added", .arr sent.1.1), ("updated", .arr sent.1.2),
        ("removedIds", .arr [])]) = (sent.1.1 ++ sent.1.2).foldl upsert r := rfl
  rw [ha, hse, ← map_append, foldl_upsert_plain messageId fun s hs => hp s (hmem s hs), hf]

theorem Tracks.setMessageId (h : Tracks t st r) (messageId : Option String) :
    Tracks t { st with messageId := messageId } r :=
  { h with }

end Blocks

variable {thought : Bool}

section Texts

variable {blockType text chunk : String} {found media : Option Fields}

theorem newText_next (acc chunk : String) :
    ChatDeltaState.newText acc chunk (some acc.utf8ByteSize) =
      if chunk = "" then none else some chunk := by
  rw [ChatDeltaState.newText]
  simp only [Nat.sub_self, Nat.le_zero, String.utf8ByteSize_eq_zero_iff]
  rw [dropBytes, map_some, String.ofList_toList]

/-- The text of a chunk is new unless the chunk is empty, and then it may be dropped. -/
theorem newText_offset (acc chunk : String) :
    (ChatDeltaState.newText acc chunk (parseU64 acc.utf8ByteSize.repr) = some chunk ∧
      acc ++ chunk ≠ "") ∨
      chunk = "" ∧ ChatDeltaState.newText acc chunk (parseU64 acc.utf8ByteSize.repr) = none := by
  rcases parseU64_repr_cases acc.utf8ByteSize with ho | ⟨ho, hl⟩
  · rw [ho, newText_next]
    by_cases he : chunk = ""
    · exact .inr ⟨he, if_pos he⟩
    · exact .inl ⟨if_neg he, fun h => he (String.append_eq_empty_iff.mp h).2⟩
  · rw [ho]
    refine .inl ⟨rfl, fun h => ?_⟩
    rw [(String.append_eq_empty_iff.mp h).1] at hl
    exact absurd hl (Nat.not_lt_zero _)

theorem get_extend {key : String} {more : Fields} (h : (more.map Prod.fst).Nodup) (acc : Fields) :
    Fields.get key (extend acc more) = (Fields.get key more).or (Fields.get key acc) := by
  induction more generalizing acc with
  | nil => rfl
  | cons entry rest ih =>
    obtain ⟨hnot, hr⟩ := nodup_cons.mp h
    have hs : extend acc (entry :: rest) = extend (Fields.insert entry.1 entry.2 acc) rest := rfl
    rw [hs, ih hr, Fields.get_insert, Fields.get]
    by_cases hkey : entry.1 = key
    · have hn : Fields.get key rest = none := by
        rw [← hkey]
        exact Fields.get_eq_none.mpr hnot
      rw [if_pos hkey.symm, if_pos hkey, hn]
      rfl
    · rw [if_neg (Ne.symm hkey), if_neg hkey]

/-- The media of a text once a chunk resolved some. -/
def joined (acc : Option Fields) : Option Fields → Option Fields
  | some media => some (extend (acc.getD []) media)
  | none => acc

theorem mediaField_textWith : mediaField (textWith blockType id text media) = media := by
  cases media <;> rfl

theorem keepMedia_textWith (old : Option Json) : keepMedia old (textWith blockType id text found) =
      textWith blockType id text (joined (old.bind mediaField) found) := by
  unfold keepMedia
  cases found with
  | some media => rfl
  | none =>
    cases old.bind mediaField <;> rfl

structure Grows (st : ChatDeltaState) (id blockType text : String) (media : Option Fields)
    (st' : ChatDeltaState) : Prop where
  encoding : st'.encoding = st.encoding
  bound : st'.bound = st.bound
  snapshotText : st'.snapshotText = st.snapshotText
  textAcc : ∀ other, st'.textAcc other = if other = id then some text else st.textAcc other
  mediaAcc : ∀ other, st'.mediaAcc other = if other = id then media else st.mediaAcc other
  live : st'.liveBlocks = Fields.insert id (marker blockType id) st.liveBlocks

theorem grown_grows (st : ChatDeltaState) (id blockType acc text messageId : String)
    (found : Option Fields) :
    Grows st id blockType text (joined (st.mediaAcc id) found) (ChatDeltaState.noteBlock
      { (st.lookedUp id acc).grown id blockType text found with messageId := some messageId }
        id).2 := by
  refine ⟨rfl, rfl, rfl, fun other => ?_, fun other => ?_, rfl⟩
  · change Function.update (Function.update st.textAcc id (some acc)) id (some text) other = _
    rw [update_idem, update_apply]
  · cases found with
    | none =>
      split_ifs with ho
      · rw [ho]
        rfl
      · rfl
    | some media => exact update_apply ..

theorem Grows.liveBlock (h : Grows st id (textType thought) text media st')
    (hw : ∀ block, st.bound block = block) (other : String) : st'.liveBlock other =
      if other = id then some (textWith (textType thought) id text media)
      else st.liveBlock other := by
  have hw' : ∀ block, st'.bound block = block := fun block => h.bound ▸ hw block
  split_ifs with hid
  · rw [hid, ChatDeltaState.liveBlock_eq, h.live, Fields.get_insert_self, map_some,
      rebuilt_marker thought hw', h.textAcc, h.mediaAcc, if_pos rfl, if_pos rfl]
    rfl
  · refine liveBlock_congr hw hw' ?_ (by rw [h.textAcc, if_neg hid])
      (by rw [h.mediaAcc, if_neg hid])
    rw [h.live, Fields.get_insert_ne hid]

/-- The block that the buffer becomes is the text with its media, in another order. -/
theorem pendingBlock_equal (hm : ∀ key,
    Fields.get key t.pendingMedia.fields = media.bind (Fields.get key))
    (hb : t.pendingMedia = [] ↔ media = none) :
    Json.Equal t.pendingBlock
      (textWith (textType t.pendingThought) (t.blockId t.blocks.length) t.text media) := by
  cases media with
  | none =>
    rw [Transcript.pendingBlock, hb.mpr rfl]
    exact .refl _
  | some acc =>
    have hne : t.pendingMedia.isEmpty = false := by
      cases hnil : t.pendingMedia with
      | nil => exact absurd (hb.mp hnil) (some_ne_none acc)
      | cons entry rest => rfl
    rw [Transcript.pendingBlock, hne]
    have he : Json.Equal (.obj t.pendingMedia.fields) (.obj acc) := by
      refine .obj (fun key => by rw [hm]; rfl) fun key v w hv hw => ?_
      rw [hm, bind_some, hw] at hv
      cases hv
      exact .refl _
    exact .field "media" _ he

/-- Nothing is new in an empty chunk that is dropped. -/
theorem Tracks.silent (h : Tracks t st r) (hc : Chunked t "" found t') (id : String)
    (hid : id = t.blockId t.blocks.length) : Tracks t' (st.lookedUp id t.text) r := by
  have hf := hc.frame
  have hm := hc.nothing (hc.silent rfl)
  rw [String.append_empty, hm] at hf
  have ht : ∀ other, ((st.lookedUp id t.text).textAcc other).getD "" =
      (st.textAcc other).getD "" := by
    intro other
    simp only [ChatDeltaState.lookedUp, update_apply]
    split_ifs with ho
    · rw [ho, hid]
      exact h.text.symm
    · rfl
  have hl : ∀ other, (st.lookedUp id t.text).liveBlock other = st.liveBlock other :=
    fun other => liveBlock_congr h.whole h.whole rfl (ht other) rfl
  rw [hf]
  exact
    { full := h.full, whole := h.whole, fresh := h.fresh
      live := fun i => (hl _).symm ▸ h.live i
      others := fun other ho => (hl other).trans (h.others other ho)
      text := (ht _).trans h.text
      marked := h.marked, media := h.media, bare := h.bare
      later := fun i hi => ⟨(ht _).trans (h.later i hi).1, (h.later i hi).2⟩
      client := fun other => (h.client other).trans (hl other).symm }

/-- A chunk with something new: the open text grows. -/
theorem Tracks.grow (h : Tracks t st r) (hch : Chunked t chunk found t')
    (hne : t.text ++ chunk ≠ "") (hid : id = t.blockId t.blocks.length)
    (hgr : Grows st id (textType t.pendingThought) (t.text ++ chunk)
      (joined (st.mediaAcc id) found) st') :
    Tracks t' st'
      (Function.update r id (some (textWith (textType t.pendingThought) id (t.text ++ chunk)
      (joined (st.mediaAcc id) found)))) := by
  have hbl : t'.blocks = t.blocks := by rw [hch.frame]
  have hte : t'.text = t.text ++ chunk := by rw [hch.frame]
  have hth : t'.pendingThought = t.pendingThought := by rw [hch.frame]
  have hids : ∀ i, t'.blockId i = t.blockId i := fun i => by
    rw [hch.frame]
    rfl
  have hli := hgr.liveBlock h.whole
  have hme : ∀ key, Fields.get key t'.pendingMedia.fields =
      (joined (st.mediaAcc id) found).bind (Fields.get key) := by
    intro key
    rw [hch.media, h.media, ← hid]
    cases hfo : found with
    | none => rfl
    | some more =>
      have hke := hch.keys
      rw [hfo, getD_some] at hke
      rw [joined, bind_some, get_extend hke]
      cases st.mediaAcc id <;> rfl
  have hba : t'.pendingMedia = [] ↔ joined (st.mediaAcc id) found = none := by
    cases hfo : found with
    | none =>
      rw [hch.nothing hfo, joined, hid]
      exact h.bare
    | some more =>
      refine ⟨fun hnil => ?_, fun hno => absurd hno (some_ne_none _)⟩
      -- A resolved entry is in the media.
      obtain ⟨entry, rest, hmo⟩ := exists_cons_of_ne_nil (hch.something more hfo)
      have hen := hch.media entry.1
      rw [hnil, hfo, hmo, getD_some, Fields.get, if_pos rfl] at hen
      cases hen
  have hpe := pendingBlock_equal hme hba
  rw [hth, hids, hbl, ← hid, hte] at hpe
  have hsn : t'.snapshotBlocks = t.blocks ++ [t'.pendingBlock] := by
    rw [Transcript.snapshotBlocks, if_neg (hte ▸ hne), hbl]
  refine ⟨hgr.encoding.trans h.full, fun block => hgr.bound ▸ h.whole block,
    fun other => hgr.snapshotText ▸ h.fresh other, fun i => ?_, fun other hot => ?_, ?_,
      fun _ => ?_, ?_, ?_, fun i hi => ?_, fun other => ?_⟩
  · rw [hsn, hids, hli, hid]
    simp only [blockId_inj]
    rcases Nat.lt_trichotomy i t.blocks.length with hi | hi | hi
    · rw [if_neg (Nat.ne_of_lt hi), getElem?_append_left hi, ← getElem?_snapshotBlocks hi]
      exact h.live i
    · rw [if_pos hi, hi, getElem?_concat_length, ← hid]
      exact .some hpe
    · rw [if_neg (Nat.ne_of_gt hi), getElem?_eq_none (by simp; omega)]
      have hold := h.live i
      rwa [getElem?_eq_none ((length_snapshotBlocks t).2.trans hi)] at hold
  · rw [hli, if_neg fun heq => hot t.blocks.length ((heq.trans hid).trans (hids _).symm)]
    exact h.others other fun i heq => hot i (heq.trans (hids i).symm)
  · rw [hids, hbl, ← hid, hgr.textAcc, if_pos rfl, hte]
    rfl
  · rw [hids, hbl, ← hid, hgr.live, Fields.get_insert_self, hth]
  · rw [hids, hbl, ← hid, hgr.mediaAcc, if_pos rfl]
    exact hme
  · rw [hids, hbl, ← hid, hgr.mediaAcc, if_pos rfl]
    exact hba
  · rw [hbl] at hi
    have hot : t.blockId i ≠ id := by
      rw [hid, Ne, blockId_inj]
      exact Nat.ne_of_gt hi
    rw [hids, hgr.textAcc, hgr.mediaAcc, if_neg hot, if_neg hot]
    exact h.later i hi
  · rw [update_apply, hli, h.client]

theorem chunkDelta_text {data : Json} {messageId acc : String}
    (hid : data.strField "blockId" = some id) (hm : data.strField "messageId" = some messageId)
    (hc : data.get "content" = some (.str chunk))
    (hty : data.strField "blockType" = some (textType thought))
    (hacc : (st.textAcc id).getD ((st.snapshotText id).getD "") = acc) :
    (ChatDeltaState.newText acc chunk ((data.get "textOffset").bind asU64) = none →
      st.chunkDelta data = (none, st.lookedUp id acc)) ∧
    (ChatDeltaState.newText acc chunk ((data.get "textOffset").bind asU64) = some chunk →
      let found := (data.get "media").bind Json.asObj
      let grown := (st.lookedUp id acc).grown id (textType thought) (acc ++ chunk) found
      let noted := ChatDeltaState.noteBlock { grown with messageId := some messageId } id
      st.chunkDelta data = (some (singleDelta noted.1 (st.entity messageId (ChatDeltaState.withMedia
        (st.textBlock (textType thought) id (acc ++ chunk) chunk) found))), noted.2)) := by
  have ht : textType thought = "text" ∨ textType thought = "thinking" := by
    cases thought
    · exact .inl rfl
    · exact .inr rfl
  have hb : st.chunkBlock data id ((data.strField "blockType").getD "text") (.str chunk) =
      st.textChunk data id (textType thought) (.str chunk) := by
    rw [hty, getD_some]
    exact if_pos ht
  rw [ChatDeltaState.chunkDelta, hid, hm, hc]
  dsimp only
  rw [hb, ChatDeltaState.textChunk, hacc]
  dsimp only [Json.asStr, getD_some]
  constructor
  · intro hn
    rw [hn]
  · intro hs
    rw [hs]
    rfl

theorem upsert_textWith (messageId : String) (thought : Bool) :
    upsert r (st.entity messageId (textWith (textType thought) id text found)) =
      Function.update r id
        (some (textWith (textType thought) id text (joined ((r id).bind mediaField) found))) := by
  have hf : (textWith (textType thought) id text found).strField "id" = some id ∧
      (textWith (textType thought) id text found).strField "type" = some (textType thought) ∧
      (textWith (textType thought) id text found).strField "textDelta" = none := by
    cases found <;> exact ⟨rfl, rfl, rfl⟩
  have hb : blockOf (st.entity messageId (textWith (textType thought) id text found)) =
      textWith (textType thought) id text found := rfl
  have hc :
      (st.entity messageId (textWith (textType thought) id text found)).get "streamingComplete" =
        none := rfl
  have ht : some (textType thought) ∈ [some "text", some "thinking"] := by
    cases thought <;> simp [textType]
  unfold upsert blockAfter
  rw [hb, hf.1, hc]
  dsimp only
  rw [hf.2.1, if_pos ht, growText, hf.2.2]
  rw [keepMedia_textWith]

theorem Tracks.client_media (h : Tracks t st r) (hs : Sound t)
    (hid : id = t.blockId t.blocks.length) : (r id).bind mediaField = st.mediaAcc id := by
  rw [h.client]
  by_cases ht : t.text = ""
  · have hl := h.live t.blocks.length
    rw [Transcript.snapshotBlocks, if_pos ht, getElem?_eq_none le_rfl, ← hid] at hl
    have hn : st.liveBlock id = none := by
      cases hso : st.liveBlock id with
      | none => rfl
      | some block =>
        rw [hso] at hl
        cases hl
    rw [hn, hid, h.bare.mp (hs.empty ht)]
    rfl
  · have hm := h.marked ht
    rw [← hid] at hm
    rw [ChatDeltaState.liveBlock_eq, hm, map_some, rebuilt_marker _ h.whole, bind_some,
      mediaField_textWith]

theorem read_singleDelta (added : Bool) (entity : Json) :
    read r (some (singleDelta added entity)).toList = upsert r entity := by
  cases added <;> rfl

end Texts

end Intentd.TurnStream
