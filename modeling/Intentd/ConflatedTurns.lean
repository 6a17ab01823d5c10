import Intentd.ChatClient
import Intentd.TurnStream

/-!
# Conflation of recorded turns

The chunk deltas of a subscription are made from the chunk events that recorders publish, one
recorder for each message. Within a block a recorder probes an image that has an entry no second
time, so two events of a block have no media key in common, and their deltas can be conflated in
every way.

What the subscription has seen before does not matter for the media of a delta, so it may be in
any state at each event, with either encoding.
-/
namespace Intentd.ConflatedTurns
open JsonValues ToolBlocks ConflationBuffer ChatConflation ChatClient TurnRecorder
  TurnStream List Option Transcript

section Events

variable (rebuild : Json → Option Resource) (agentId : String)

def chunkEvents (t : Transcript) : List Update → List Json
  | [] => []
  | update :: updates =>
    let routed := route rebuild agentId t update
    (match routed.2 with
      | some (.streamDelta data) => [data]
      | _ => []) ++ chunkEvents routed.1 updates

/-- The updates of one message. -/
structure Recording where
  messageId : String
  probe : Bool
  updates : List Update

def published (recordings : List Recording) : List Json :=
  recordings.flatMap fun r => chunkEvents rebuild agentId (.new r.messageId r.probe) r.updates

end Events

/-- A chunk is what a subscription makes of an event. The preview of a text has no media. -/
def Made (c : Chunk) (data : Json) : Prop :=
  ∃ st : ChatDeltaState, (∀ block, block.get "media" = none → (st.bound block).get "media" = none) ∧
    (st.chunkDelta data).1 = some c.delta

/-- The media of an event: those of its text, or those in the block that it carries. -/
def eventMedia (data : Json) : Option Json :=
  let blockType := (data.strField "blockType").getD "text"
  if blockType = "text" ∨ blockType = "thinking" then data.get "media"
  else (data.get "content").bind (·.get "media")

def eventEntry (data : Json) (key : String) : Option Json :=
  ((eventMedia data).bind Json.asObj).bind (Fields.get key)

def Apart (a b : Json) : Prop :=
  ∀ id, a.strField "blockId" = some id → b.strField "blockId" = some id →
    ∀ key, eventEntry a key ≠ none → eventEntry b key = none

section Deltas

variable {st st' : ChatDeltaState} {c : Chunk} {data content block : Json} {id blockType : String}

theorem get_withMedia (h : block.strField "id" = some id) (hb : block.get "media" = none)
    (media : Option Fields) :
    (ChatDeltaState.withMedia block media).get "media" = media.map Json.obj := by
  cases media with
  | none => exact hb
  | some media =>
    cases block with
    | obj fields => exact Fields.get_insert_self _
    | null | bool | num | str | arr => cases h

theorem chunkBlock_media (hb : ∀ block, block.get "media" = none →
    (st.bound block).get "media" = none) (ht : (data.strField "blockType").getD "text" = blockType)
    (hc : data.get "content" = some content)
    (h : st.chunkBlock data id blockType content = (some block, st')) :
    (block.get "media").bind Json.asObj = (eventMedia data).bind Json.asObj := by
  unfold ChatDeltaState.chunkBlock at h
  rw [eventMedia, ht]
  split_ifs at h ⊢
  · unfold ChatDeltaState.textChunk at h
    simp only at h
    split at h
    · cases h
    · cases h
      rw [@get_withMedia _ id]
      · cases (data.get "media").bind Json.asObj <;> rfl
      · unfold ChatDeltaState.textBlock
        split
        · rw [st.bound_id]
          rfl
        · rfl
      · unfold ChatDeltaState.textBlock
        split
        · exact hb _ rfl
        · rfl
  · split at h
    · cases h
      rw [hc, bind_some, Json.get, Fields.get_insert_ne (by decide)]
      rfl
    · cases h

theorem Made.spec (h : Made c data) : data.strField "blockId" = some c.blockId ∧
    ∀ key, mediaEntry c.item.entity key = eventEntry data key := by
  obtain ⟨st, hb, hd⟩ := h
  unfold ChatDeltaState.chunkDelta at hd
  split at hd
  · rename_i id messageId content hid _ hc
    split at hd
    · cases hd
    · rename_i block st' hblock
      have hu := c.spec.1
      rw [← some.inj hd] at hu
      have hent : st'.entity messageId block = c.item.entity := by
        revert hu
        generalize (ChatDeltaState.noteBlock _ _).1 = added
        cases added <;> exact fun hu => (Prod.mk.inj (some.inj hu)).2
      have hof : blockOf c.item.entity = block := hent ▸ rfl
      refine ⟨?_, fun key => ?_⟩
      · have hbid := c.spec.2
        rw [ChatItem.blockId, hof, ChatDeltaState.chunkBlock_id hblock] at hbid
        rw [hid, hbid]
      · rw [mediaEntry, mediaOf, hof, chunkBlock_media hb rfl hc hblock, eventEntry]
  · cases hd

theorem exists_of_forall₂ {α β : Type} {R : α → β → Prop} {as : List α} {bs : List β} {a : α}
    (h : Forall₂ R as bs) (ha : a ∈ as) : ∃ b ∈ bs, R a b := by
  induction h with
  | nil => cases ha
  | cons hr _ ih =>
    rcases mem_cons.mp ha with rfl | ha
    · exact ⟨_, mem_cons_self, hr⟩
    · obtain ⟨b, hb, hr⟩ := ih ha
      exact ⟨b, mem_cons_of_mem _ hb, hr⟩

theorem apart_of_made {chunks : List Chunk} {events : List Json} (h : Forall₂ Made chunks events)
    (hp : events.Pairwise Apart) : chunks.Pairwise Chunk.Apart := by
  induction h with
  | nil => exact .nil
  | @cons c data chunks events hm hr ih =>
    obtain ⟨hfirst, hp⟩ := pairwise_cons.mp hp
    refine pairwise_cons.mpr ⟨fun c' hc' heq key hk => ?_, ih hp⟩
    obtain ⟨data', hd', hm'⟩ := exists_of_forall₂ hr hc'
    rw [hm'.spec.2]
    rw [hm.spec.2] at hk
    exact hfirst data' hd' _ hm.spec.1 (heq ▸ hm'.spec.1) key hk

end Deltas

/-! ## The events of a message -/

section Recorder

variable {t t' : Transcript} {events : List Json} {data : Json} {messageId : String}

/-- An event is of a block that is closed, or of the open block, which has its media. -/
def Placed (t : Transcript) (data : Json) : Prop :=
  ∃ i, data.strField "blockId" = some (t.blockId i) ∧ (i < t.blocks.length ∨
    i = t.blocks.length ∧ ∀ key, eventEntry data key ≠ none →
      Fields.get key t.pendingMedia.fields ≠ none)

structure Heard (messageId : String) (t : Transcript) (events : List Json) : Prop where
  message : t.messageId = messageId
  sound : TurnRecorder.Sound t
  apart : events.Pairwise Apart
  placed : ∀ data ∈ events, Placed t data

theorem Placed.closed (h : Placed t data) (hs : TurnRecorder.Sound t)
    (hm : t'.messageId = t.messageId) (hl : t.snapshotBlocks.length ≤ t'.blocks.length) :
    Placed t' data := by
  obtain ⟨i, hid, hi⟩ := h
  refine ⟨i, by rw [hid, blockId, blockId, hm], ?_⟩
  have hle := (length_snapshotBlocks t).1
  rcases hi with hi | ⟨rfl, hk⟩
  · exact .inl (by omega)
  · rcases (hle.trans hl).lt_or_eq with hlt | heq
    · exact .inl hlt
    · -- the open block was not stored, so it had no text, and nothing was found in it
      have ht : t.text = "" := by
        by_contra ht
        rw [snapshotBlocks, if_neg ht, length_append, length_singleton] at hl
        omega
      refine .inr ⟨heq, fun key hkey => absurd ?_ (hk key hkey)⟩
      rw [hs.empty ht]
      rfl

theorem Heard.new (messageId : String) (probe : Bool) : Heard messageId (.new messageId probe) [] :=
  ⟨rfl, .new _ _, .nil, by simp⟩

theorem Heard.opened (h : Heard messageId t events) (thought : Bool) :
    Heard messageId (opened t thought) events := by
  have hm : (TurnRecorder.opened t thought).messageId = t.messageId := by
    unfold TurnRecorder.opened
    split_ifs <;> rfl
  refine ⟨hm.trans h.message, opened_sound h.sound thought, h.apart, fun data hd => ?_⟩
  unfold TurnRecorder.opened
  split_ifs
  · exact h.placed data hd
  · exact (h.placed data hd).closed h.sound rfl le_rfl

/-- What a chunk finds is new to its block. -/
theorem Heard.chunk {chunk : String} {found : Option Fields} (h : Heard messageId t events)
    (hc : Chunked t chunk found t')
    (hid : data.strField "blockId" = some (t.blockId t.blocks.length))
    (hm : ∀ key, eventEntry data key = Fields.get key (found.getD [])) :
    Heard messageId t' (events ++ [data]) := by
  have hmessage : t'.messageId = t.messageId := by rw [hc.frame]
  have hb : t'.blocks = t.blocks := by rw [hc.frame]
  have hids (i : ℕ) : t'.blockId i = t.blockId i := by
    rw [hc.frame]
    rfl
  refine ⟨hmessage.trans h.message, hc.sound,
    pairwise_append.mpr ⟨h.apart, pairwise_singleton _ _, ?_⟩,
    forall_mem_append.mpr ⟨fun data' hd' => ?_, forall_mem_singleton.mpr ?_⟩⟩
  · intro data' hd' b hb id hi hi' key hk
    obtain rfl := mem_singleton.mp hb
    obtain ⟨i, hat, hplace⟩ := h.placed data' hd'
    have heq : i = t.blocks.length := by
      rw [← blockId_inj (t := t), ← some.injEq, ← hat, ← hid, hi, hi']
    rw [hm]
    rcases hplace with hlt | ⟨-, hp⟩
    · omega
    · exact hc.fresh key (hp key hk)
  · obtain ⟨i, hat, hplace⟩ := h.placed data' hd'
    refine ⟨i, by rw [hat, hids], ?_⟩
    rw [hb]
    refine hplace.imp_right fun ⟨hi, hp⟩ => ⟨hi, fun key hk hno => ?_⟩
    rw [hc.media, or_eq_none_iff] at hno
    exact hp key hk hno.2
  · refine ⟨t.blocks.length, by rw [hid, hids], .inr ⟨by rw [hb], fun key hk hno => ?_⟩⟩
    rw [hc.media, or_eq_none_iff] at hno
    exact hk ((hm key).trans hno.1)

theorem Heard.content (h : Heard messageId t events) (hs : TurnRecorder.Sound t')
    (hm : t'.messageId = t.messageId) (hl : t'.blocks.length = t.snapshotBlocks.length + 1)
    (hid : data.strField "blockId" = some (t.blockId t.snapshotBlocks.length)) :
    Heard messageId t' (events ++ [data]) := by
  refine ⟨hm.trans h.message, hs, pairwise_append.mpr ⟨h.apart, pairwise_singleton _ _, ?_⟩,
    forall_mem_append.mpr ⟨fun data' hd' => (h.placed data' hd').closed h.sound hm (by omega),
      forall_mem_singleton.mpr ⟨t.snapshotBlocks.length, ?_, .inl (by omega)⟩⟩⟩
  · intro data' hd' b hb id hi hi' key hk
    obtain rfl := mem_singleton.mp hb
    obtain ⟨i, hat, hplace⟩ := h.placed data' hd'
    have heq : i = t.snapshotBlocks.length := by
      rw [← blockId_inj (t := t), ← some.injEq, ← hat, ← hid, hi, hi']
    have hle := (length_snapshotBlocks t).1
    rcases hplace with hlt | ⟨hopen, hp⟩
    · omega
    · have ht : t.text = "" := by
        by_contra ht
        rw [snapshotBlocks, if_neg ht, length_append, length_singleton] at heq
        omega
      refine absurd ?_ (hp key hk)
      rw [h.sound.empty ht]
      rfl
  · rw [hid, blockId, blockId, hm]

theorem Heard.recordsAll {blocks : List (String × Json)} (h : Heard messageId t events)
    (hr : RecordsAll t blocks t') (hs : TurnRecorder.Sound t') : Heard messageId t' events := by
  refine ⟨hr.messageId.trans h.message, hs, h.apart, fun data hd => ?_⟩
  have hp := h.placed data hd
  clear h hd hs
  induction hr with
  | nil => exact hp
  | cons hsound hrec _ ih =>
    refine ih ?_
    cases hrec.puts with
    | replaced hi hblocks frame =>
      obtain ⟨hm, -, -, -, hmedia, -, -⟩ := frame
      obtain ⟨i, hat, hplace⟩ := hp
      refine ⟨i, by rw [hat, blockId, blockId, hm], ?_⟩
      rwa [hblocks, length_set, hmedia]
    | appended hi hblocks frame =>
      exact hp.closed hsound frame.1 (by rw [hblocks]; simp)

variable (rebuild : Json → Option Resource) (agentId : String)

theorem Heard.update (h : Heard messageId t events) (update : Update) :
    Heard messageId (route rebuild agentId t update).1
      (events ++ chunkEvents rebuild agentId t [update]) := by
  rw [chunkEvents, chunkEvents, append_nil]
  cases update with
  | chunk text thought files =>
    have hopen := h.opened thought
    refine hopen.chunk (probeNewImages_chunked hopen.sound text files) rfl fun key => ?_
    rw [pushChunk_eq]
    generalize (probeNewImages _ files).1 = found
    cases thought <;> cases found <;> rfl
  | content c =>
    refine h.content (h.sound.pushBlock c.fields) rfl ?_ rfl
    exact length_append
  | tool tc claimed =>
    rcases route_tool_cases rebuild agentId t tc claimed with hdrop | ⟨tc', registered, t',
      recorded, hreg, hrec, hro⟩
    · rw [hdrop]
      simpa using h
    · rw [hro]
      obtain ⟨block, hall, hs, -⟩ := recordTool_records h.sound hreg hrec
      simpa using h.recordsAll hall hs

theorem Heard.updates (updates : List Update) (h : Heard messageId t events) :
    ∃ t', Heard messageId t' (events ++ chunkEvents rebuild agentId t updates) := by
  induction updates generalizing t events with
  | nil => exact ⟨t, by simpa [chunkEvents] using h⟩
  | cons update updates ih =>
    obtain ⟨t', ht'⟩ := ih (h.update rebuild agentId update)
    refine ⟨t', ?_⟩
    simpa [chunkEvents] using ht'

/-- A block id tells its message: no digit is a colon. -/
theorem message_of_blockId {t t' : Transcript} {i j : ℕ} (h : t.blockId i = t'.blockId j) :
    t.messageId = t'.messageId := by
  have hdrop (t : Transcript) (n : ℕ) : (t.blockId n).toList.reverse.dropWhile (· != ':') =
      ':' :: t.messageId.toList.reverse := by
    rw [blockId, String.toList_append, reverse_append, String.toList_append, reverse_append,
      dropWhile_append_of_pos]
    · rfl
    · intro c hc
      rw [mem_reverse, Nat.repr, String.toList_ofList] at hc
      have hdigit := Nat.isDigit_of_mem_toDigits (by omega) (by omega) hc
      rw [bne_iff_ne]
      rintro rfl
      cases hdigit
  have heq := (hdrop t i).symm.trans (h ▸ hdrop t' j)
  exact String.toList_inj.mp (reverse_inj.mp (cons.inj heq).2)

theorem published_apart (recordings : List Recording)
    (hids : (recordings.map Recording.messageId).Nodup) :
    (published rebuild agentId recordings).Pairwise Apart := by
  have hheard (r : Recording) : ∃ t, Heard r.messageId t
      (chunkEvents rebuild agentId (.new r.messageId r.probe) r.updates) :=
    (Heard.new r.messageId r.probe).updates rebuild agentId r.updates
  refine pairwise_flatMap.mpr ⟨fun r _ => (hheard r).choose_spec.apart, ?_⟩
  refine (pairwise_map.mp hids).imp fun {r r'} hne a ha b hb id hi hi' => absurd ?_ hne
  obtain ⟨t, ht⟩ := hheard r
  obtain ⟨t', ht'⟩ := hheard r'
  obtain ⟨i, hat, -⟩ := ht.placed a ha
  obtain ⟨j, hat', -⟩ := ht'.placed b hb
  rw [← ht.message, ← ht'.message]
  exact message_of_blockId (some.inj ((hat.symm.trans hi).trans (hi'.symm.trans hat')))

end Recorder

/-- However the chunk deltas of a subscription are conflated, the client sees what the deltas one
by one would show. The deltas are made from events of any number of messages, in their order. -/
theorem chat_conflation_invisible (rebuild : Json → Option Resource) (agentId : String)
    (recordings : List Recording) (hids : (recordings.map Recording.messageId).Nodup)
    (maxEntries maxBytes : ℕ) (inputs : List ChatInput) (events : List Json)
    (hsub : events <+ published rebuild agentId recordings)
    (hmade : Forall₂ Made (inputs.flatMap ChatInput.chunks) events) :
    ∃ f, (start maxEntries maxBytes).run inputs = some f ∧ f.Agrees := by
  have hap := apart_of_made hmade ((published_apart rebuild agentId recordings hids).sublist hsub)
  exact (ChatForwarder.inv_start maxEntries maxBytes).run inputs
    (ChatForwarder.agrees_start _ _) hap

def sizes (src : String) : Option Dimensions :=
  if src = "a.png" then some (1, 2) else if src = "b.png" then some (3, 4) else none

/-- Each chunk completes a reference to another image. -/
def twoImages : Recording :=
  ⟨"m", true, [.chunk "![x](a.png)" false sizes, .chunk " ![y](b.png)" false sizes]⟩

def imageItem (added : Bool) (text src : String) (d : Dimensions) : ChatItem :=
  ⟨added, .obj [("agentId", .str "agent"), ("messageId", .str "m"), ("role", .str "assistant"),
    ("block", .obj [("type", .str "text"), ("id", .str "m:0"), ("textDelta", .str text),
      ("media", .obj [(src, dimensionsJson d)])])]⟩

def imageChunk (added : Bool) (text src : String) (d : Dimensions) : Chunk where
  delta := (imageItem added text src d).intoDelta
  blockId := "m:0"
  item := imageItem added text src d
  parsed := by cases added <;> rfl

def imageInputs : List ChatInput :=
  [.chunk (imageChunk true "![x](a.png)" "a.png" (1, 2)) false,
    .chunk (imageChunk false " ![y](b.png)" "b.png" (3, 4)) false]

def mediaKeys (f : ChatForwarder) : List (Option (List String)) :=
  f.items.map fun item => (mediaOf item.entity).map (·.map Prod.fst)

/-- On a full lane the two deltas become one frame, with both images. -/
theorem chat_conflation_invisible_images :
    ∃ f, (start maxPendingEntries maxPendingBytes).run imageInputs = some f ∧
      mediaKeys f = [some ["a.png", "b.png"]] ∧ f.Agrees := by
  obtain ⟨f, hrun, hag⟩ := chat_conflation_invisible (fun _ => none) "agent" [twoImages]
    (nodup_singleton _) maxPendingEntries maxPendingBytes imageInputs _ (Sublist.refl _)
    (.cons ⟨.new "agent" .incremental, fun _ h => h, rfl⟩
      (.cons ⟨((ChatDeltaState.new "agent" .incremental).chunkDelta
        ((published (fun _ => none) "agent" [twoImages]).headD .null)).2, fun _ h => h, rfl⟩ .nil))
  have hmedia : ((start maxPendingEntries maxPendingBytes).run imageInputs).map mediaKeys =
    some [some ["a.png", "b.png"]] := rfl
  rw [hrun] at hmedia
  exact ⟨f, hrun, Option.some.inj hmedia, hag⟩

end Intentd.ConflatedTurns
