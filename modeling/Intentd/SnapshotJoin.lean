import Intentd.ChatSeeding
import Intentd.StreamTracking

/-!
# A snapshot and the chunks after it

The chunks of a block carry the offset of their text in the block. The snapshot is read while
chunks are already queued, so the first queued chunks may be in the snapshot. By its offset a
chunk that the snapshot has is told apart from one that it has not, and is dropped; so the
mapper and a client that appends fragments both end with the text of the producer.

The producer is the recorder: the offset of a chunk is the length of the open text before it.
-/
namespace Intentd.SnapshotJoin
open JsonValues MachineWords ChatConflation ChatReader TurnRecorder TurnStream List
  Function ChatDeltaState

/-- A chunk of a text, with the images that can be found when it comes. -/
abbrev Chunk := String × (String → Option Dimensions)

def textOfChunks (chunks : List Chunk) : String := String.join (chunks.map Prod.fst)

def produce (agentId : String) (thought : Bool) : Transcript → List Chunk → List Json
  | _, [] => []
  | t, (text, files) :: chunks =>
    match routeChunk agentId t text thought files with
    | (t, some (.streamDelta data)) => data :: produce agentId thought t chunks
    | (t, _) => produce agentId thought t chunks

/-- An event that carries a chunk of the block `id`, which has the text `done` before it. -/
structure Carries (id done chunk : String) (data : Json) : Prop where
  blockId : data.strField "blockId" = some id
  messageId : ∃ messageId, data.strField "messageId" = some messageId
  content : data.get "content" = some (.str chunk)
  blockType : ∃ thought, data.strField "blockType" = some (textType thought)
  offset : (data.get "textOffset").bind asU64 = some done.utf8ByteSize

/-- Events that carry the chunks of a block one after the other. -/
inductive CarriesAll (id : String) : String → List Json → List String → Prop
  | nil {done : String} : CarriesAll id done [] []
  | cons {done chunk : String} {data : Json} {events : List Json} {chunks : List String} :
      Carries id done chunk data → CarriesAll id (done ++ chunk) events chunks →
        CarriesAll id done (data :: events) (chunk :: chunks)

variable {id : String} {events : List Json} {chunks : List String}

theorem CarriesAll.drop {done : String} (h : CarriesAll id done events chunks) (n : ℕ) :
    CarriesAll id (done ++ String.join (chunks.take n)) (events.drop n) (chunks.drop n) := by
  induction h generalizing n with
  | nil =>
    rw [drop_nil, drop_nil]
    exact .nil
  | cons hf hr ih =>
    cases n with
    | zero => simpa using CarriesAll.cons hf hr
    | succ n => simpa [String.append_assoc] using ih n

/-! ## The producer -/

theorem probeNewImages_frame (t : Transcript) (files : String → Option Dimensions) :
    (t.probeNewImages files).2.text = t.text ∧ (t.probeNewImages files).2.blocks = t.blocks ∧
      (t.probeNewImages files).2.messageId = t.messageId ∧
      (t.probeNewImages files).2.pendingThought = t.pendingThought := by
  unfold Transcript.probeNewImages
  split_ifs
  · exact ⟨rfl, rfl, rfl, rfl⟩
  · rw [(probeRefs_probed files _ _ _).frame]
    exact ⟨rfl, rfl, rfl, rfl⟩

theorem produce_carries (agentId : String) (thought : Bool) (chunks : List Chunk) (t : Transcript)
    (hfi : ((opened t thought).text ++ textOfChunks chunks).utf8ByteSize ≤ u64Max) :
    CarriesAll ((opened t thought).blockId (opened t thought).blocks.length) (opened t thought).text
      (produce agentId thought t chunks) (chunks.map Prod.fst) := by
  induction chunks generalizing t with
  | nil => exact .nil
  | cons chunk chunks ih =>
    obtain ⟨text, files⟩ := chunk
    generalize ho : opened t thought = o at hfi ⊢
    generalize ht' : (Transcript.probeNewImages { o with text := o.text ++ text } files).2 = t'
    obtain ⟨hte, hbl, hme, hth⟩ :=
      probeNewImages_frame { o with text := o.text ++ text } files
    rw [ht'] at hte hbl hme hth
    -- The block stays open for the chunks to come.
    have hop : opened t' thought = t' := by
      refine if_pos ?_
      rw [hth, ← ho]
      exact (opened_pendingThought t thought).symm
    rw [textOfChunks, map_cons, String.join_cons, ← String.append_assoc] at hfi
    have hre := ih t' (by rw [hop, hte]; exact hfi)
    rw [hop, hte, hbl, Transcript.blockId, hme] at hre
    have hof : asU64 (.num ((o.text ++ text).utf8ByteSize - text.utf8ByteSize).repr) =
        some o.text.utf8ByteSize := by
      rw [String.utf8ByteSize_append, String.utf8ByteSize_append] at hfi
      rw [String.utf8ByteSize_append, Nat.add_sub_cancel]
      exact parseU64_repr (by omega)
    have hfir : ∃ data, produce agentId thought t ((text, files) :: chunks) =
        data :: produce agentId thought t' chunks ∧
          Carries (o.blockId o.blocks.length) o.text text data := by
      subst ht' ho
      exact ⟨_, rfl, rfl, ⟨_, rfl⟩, rfl, ⟨thought, rfl⟩, hof⟩
    obtain ⟨data, hpr, hca⟩ := hfir
    rw [hpr]
    exact .cons hca hre

/-! ## The seam -/

section Seam

variable {st : ChatDeltaState} {done chunk : String} {data : Json} {r : Reader}

theorem chunk_known (h : Carries id done chunk data) {more : String}
    (hh : st.heldText id = done ++ chunk ++ more) :
    st.chunkDelta data = (none, st.lookedUp id (st.heldText id)) := by
  obtain ⟨messageId, hm⟩ := h.messageId
  obtain ⟨thought, ht⟩ := h.blockType
  refine (chunkDelta_text h.blockId hm h.content ht rfl).1 ?_
  rw [h.offset]
  change newText (st.heldText id) chunk _ = none
  rw [newText, if_pos]
  rw [hh, String.utf8ByteSize_append, String.utf8ByteSize_append]
  omega

theorem heldText_lookedUp : (st.lookedUp id (st.heldText id)).heldText id = st.heldText id := by
  simp [lookedUp, heldText]

theorem strField_keepMedia (old : Option Json) (block : Json) :
    (keepMedia old block).strField "text" = block.strField "text" := by
  unfold keepMedia Json.strField
  split
  · rw [Json.get_insert_ne (by decide)]
  · rw [Json.get_insert_ne (by decide)]
  · rfl

theorem textOf_fragment (thought : Bool) (messageId chunk : String) (found : Option Fields) :
    textOf (upsert r (st.entity messageId (withMedia
      (.obj [("type", .str (textType thought)), ("id", .str id), ("textDelta", .str chunk)])
        found))) id = textOf r id ++ chunk := by
  generalize hb : withMedia _ found = block
  have hf : block.strField "id" = some id ∧ block.strField "type" = some (textType thought) ∧
      block.strField "textDelta" = some chunk := by
    rw [← hb]
    cases found <;> exact ⟨rfl, rfl, rfl⟩
  have he : blockOf (st.entity messageId block) = block := rfl
  have hc : (st.entity messageId block).get "streamingComplete" = none := rfl
  have ht : some (textType thought) ∈ [some "text", some "thinking"] := by
    cases thought <;> simp [textType]
  unfold textOf upsert blockAfter
  rw [he, hf.1, hc]
  dsimp only
  rw [update_self, Option.bind_some, hf.2.1, if_pos ht, strField_keepMedia, growText, hf.2.2]
  subst hb
  cases found <;> rfl

theorem chunk_next (h : Carries id done chunk data) (hh : st.heldText id = done) :
    (st.chunkDelta data).2.heldText id = done ++ chunk ∧
      (st.encoding = .incremental → textOf r id = done →
        textOf (read r (st.chunkDelta data).1.toList) id = done ++ chunk) ∧
      (st.chunkDelta data).2.encoding = st.encoding := by
  obtain ⟨messageId, hm⟩ := h.messageId
  obtain ⟨thought, hty⟩ := h.blockType
  obtain ⟨hs, hg⟩ := chunkDelta_text h.blockId hm h.content hty hh
  rw [h.offset] at hs hg
  rw [newText_next] at hs hg
  by_cases he : chunk = ""
  · rw [hs (if_pos he), ← hh, he, String.append_empty]
    exact ⟨heldText_lookedUp, fun _ ht => ht, rfl⟩
  · have hd := hg (if_neg he)
    rw [hd]
    refine ⟨?_, fun hen ht => ?_, rfl⟩
    · simp [heldText, noteBlock, grown, rememberBlock]
    · rw [read_singleDelta, textBlock, hen]
      exact (textOf_fragment ..).trans (congrArg (· ++ chunk) ht)

variable {encoding : DeltaEncoding}

/-- The mapper and a client that appends have the text `text`. -/
structure Shows (encoding : DeltaEncoding) (st : ChatDeltaState) (r : Reader) (id text : String) :
    Prop where
  same : st.encoding = encoding
  held : st.heldText id = text
  client : encoding = .incremental → textOf r id = text

theorem shows_next (h : CarriesAll id done events chunks) (hs : Shows encoding st r id done) :
    Shows encoding (st.chunkDeltas events).2 (read r (st.chunkDeltas events).1) id
      (done ++ String.join chunks) := by
  induction h generalizing st r with
  | nil =>
    rw [String.join_nil, String.append_empty]
    exact hs
  | cons hf _ ih =>
    obtain ⟨hh, hc, he⟩ := chunk_next (r := r) hf hs.held
    have hr := ih ⟨he.trans hs.same, hh, fun h => hc (hs.same.trans h) (hs.client h)⟩
    rw [String.join_cons, ← String.append_assoc, chunkDeltas, ChatReader.read, foldl_append]
    exact hr

/-- Chunks that the snapshot has are dropped, the others are appended. -/
theorem shows_seam {known : List String} (h : CarriesAll id done events (known ++ chunks))
    (hs : Shows encoding st r id (done ++ String.join known)) :
    Shows encoding (st.chunkDeltas events).2 (read r (st.chunkDeltas events).1) id
      (done ++ String.join (known ++ chunks)) := by
  induction known generalizing done events st with
  | nil =>
    rw [String.join_nil, String.append_empty] at hs
    exact shows_next h hs
  | cons chunk known ih =>
    cases h with
    | cons hf hr =>
      rw [String.join_cons, ← String.append_assoc] at hs
      have hn := chunk_known hf hs.held
      have hl : Shows encoding (st.lookedUp id (st.heldText id)) r id
          (done ++ chunk ++ String.join known) :=
        { hs with held := heldText_lookedUp.trans hs.held }
      have hla := ih hr hl
      rw [chunkDeltas, hn, cons_append, String.join_cons, ← String.append_assoc]
      exact hla

end Seam

/-! ## The snapshot -/

/-- A snapshot that holds the text `text` of the block `id`, which may be missing if it is empty. -/
structure Holds (snapshot : Json) (id text : String) : Prop where
  blocks : ∀ row ∈ (messageRows snapshot).getD [], ∀ block ∈ contentBlocks row,
    block.strField "id" = some id → isTextual block = true ∧ block.strField "text" = some text
  present : text = "" ∨ ∃ row ∈ (messageRows snapshot).getD [], ∃ block ∈ contentBlocks row,
    block.strField "id" = some id

variable {blocks : List Json}

section Snapshot

variable {snapshot : Json} {text : String}
variable (st : ChatDeltaState)

theorem seedHistoryBlock_snapshotText (block : Json)
    (h : block.strField "id" = some id → isTextual block = true ∧
      block.strField "text" = some text) :
    (st.seedHistoryBlock block).snapshotText id =
      if block.strField "id" = some id then some text else st.snapshotText id := by
  unfold seedHistoryBlock
  by_cases hid : block.strField "id" = some id
  · obtain ⟨ht, hte⟩ := h hid
    rw [if_pos ht, if_pos hid, hid, hte]
    exact update_self ..
  · split_ifs
    · split
      · rename_i own _ hown _
        have hne : id ≠ own := fun heq => hid (heq.symm ▸ hown)
        exact update_of_ne hne ..
      · rfl
    · rfl

theorem seedHistory_snapshotText (h : ∀ block ∈ blocks, block.strField "id" = some id →
      isTextual block = true ∧ block.strField "text" = some text) :
    (blocks.foldl seedHistoryBlock st).snapshotText id =
      if ∃ block ∈ blocks, block.strField "id" = some id then some text
      else st.snapshotText id := by
  induction blocks generalizing st with
  | nil => simp
  | cons first rest ih =>
    obtain ⟨hf, hr⟩ := forall_mem_cons.mp h
    rw [foldl_cons, ih _ hr, seedHistoryBlock_snapshotText st first hf]
    by_cases hid : first.strField "id" = some id <;> simp [hid]

theorem seedBlock_frame (block : Json)
    (h : block.strField "id" = some id → block.strField "text" = some text)
    (hacc : st.textAcc id = none ∨ st.textAcc id = some text) :
    (st.seedBlock block).snapshotText = st.snapshotText ∧
      (st.seedBlock block).encoding = st.encoding ∧
      ((st.seedBlock block).textAcc id = none ∨ (st.seedBlock block).textAcc id = some text) := by
  unfold seedBlock
  cases hid : block.strField "id" with
  | none => exact ⟨rfl, rfl, hacc⟩
  | some own =>
    unfold seedNamed
    split_ifs
    · refine ⟨rfl, rfl, ?_⟩
      cases hv : block.strField "text" with
      | none => exact hacc
      | some value =>
        dsimp only
        by_cases hown : id = own
        · subst hown
          rw [update_self, ← hv, h hid]
          exact .inr rfl
        · rw [update_of_ne hown]
          exact hacc
    · exact ⟨rfl, rfl, hacc⟩

theorem seedBlocks_frame
    (h : ∀ block ∈ blocks, block.strField "id" = some id → block.strField "text" = some text)
    (hacc : st.textAcc id = none ∨ st.textAcc id = some text) :
    let seeded := blocks.foldl seedBlock st
    seeded.snapshotText = st.snapshotText ∧ seeded.encoding = st.encoding ∧
      (seeded.textAcc id = none ∨ seeded.textAcc id = some text) := by
  induction blocks generalizing st with
  | nil => exact ⟨rfl, rfl, hacc⟩
  | cons first rest ih =>
    obtain ⟨hf, hr⟩ := forall_mem_cons.mp h
    obtain ⟨ht, he, ha'⟩ := seedBlock_frame st first hf hacc
    obtain ⟨ht', he', ha''⟩ := ih _ hr ha'
    exact ⟨ht'.trans ht, he'.trans he, ha''⟩

theorem seedHistory_frame (blocks : List Json) (st : ChatDeltaState) :
    let known := blocks.foldl seedHistoryBlock st
    known.textAcc = st.textAcc ∧ known.encoding = st.encoding := by
  induction blocks generalizing st with
  | nil => exact ⟨rfl, rfl⟩
  | cons first rest ih =>
    have hf : (st.seedHistoryBlock first).textAcc = st.textAcc ∧
        (st.seedHistoryBlock first).encoding = st.encoding := by
      unfold seedHistoryBlock
      split_ifs
      · split <;> exact ⟨rfl, rfl⟩
      · exact ⟨rfl, rfl⟩
    obtain ⟨ht, he⟩ := ih (st.seedHistoryBlock first)
    exact ⟨ht.trans hf.1, he.trans hf.2⟩

theorem seed_heldText (h : Holds snapshot id text) (hfre : st.textAcc id = none)
    (hem : st.snapshotText id = none) :
    (st.seedFromSnapshot snapshot).heldText id = text ∧
      (st.seedFromSnapshot snapshot).encoding = st.encoding := by
  obtain ⟨hblo, hpr⟩ := h
  unfold seedFromSnapshot
  cases hro : messageRows snapshot with
  | none =>
    rw [hro] at hpr
    have hte : text = "" := hpr.resolve_right (by simp)
    rw [heldText, hfre, hem, hte]
    exact ⟨rfl, rfl⟩
  | some rows =>
    rw [hro, Option.getD_some] at hblo hpr
    dsimp only
    have hfl : rows.foldl seedHistoryMessage { st with snapshotText := fun _ => none } =
        (rows.flatMap contentBlocks).foldl seedHistoryBlock
          { st with snapshotText := fun _ => none } := foldl_flatMap.symm
    have hall : ∀ block ∈ rows.flatMap contentBlocks, block.strField "id" = some id →
        isTextual block = true ∧ block.strField "text" = some text := by
      intro block hmem
      obtain ⟨row, hrow, hbl⟩ := mem_flatMap.mp hmem
      exact hblo row hrow block hbl
    have hsn := seedHistory_snapshotText { st with snapshotText := fun _ => none } hall
    have hfr :=
      seedHistory_frame (rows.flatMap contentBlocks) { st with snapshotText := fun _ => none }
    rw [hfl]
    generalize (rows.flatMap contentBlocks).foldl seedHistoryBlock
      { st with snapshotText := fun _ => none } = known at hsn hfr
    -- Without a block of that id the text is empty.
    have hkn : (known.snapshotText id).getD "" = text := by
      rw [hsn]
      split_ifs with hex
      · rfl
      · refine (hpr.resolve_right ?_).symm
        rintro ⟨row, hrow, block, hbl, hid⟩
        exact hex ⟨block, mem_flatMap.mpr ⟨row, hrow, hbl⟩, hid⟩
    have hacc : known.textAcc id = none := by
      rw [hfr.1]
      exact hfre
    cases hfo : streamingRow rows with
    | none =>
      rw [heldText, hacc]
      exact ⟨hkn, hfr.2⟩
    | some found =>
      obtain ⟨row, messageId⟩ := found
      have hrow := (streamingRow_eq_some hfo).1
      obtain ⟨hte, hen, hse⟩ := seedBlocks_frame { known with messageId := some messageId }
        (fun block hbl hid => (hblo row hrow block hbl hid).2) (.inl hacc)
      have hhe : ((contentBlocks row).foldl seedBlock
          { known with messageId := some messageId }).heldText id = text := by
        rw [heldText, hte]
        rcases hse with hno | hso
        · rw [hno]
          exact hkn
        · rw [hso]
          rfl
      dsimp only [seedStreaming]
      split_ifs <;> exact ⟨hhe, hen.trans hfr.2⟩

theorem textOf_snapshot (h : Holds snapshot id text) : textOf (ofSnapshot snapshot) id = text := by
  unfold textOf ofSnapshot ofRows
  cases hr : (((messageRows snapshot).getD []).flatMap contentBlocks).foldl take empty id with
  | some block =>
    rcases foldl_take_eq_some hr with ⟨hmem, hid⟩ | hn
    · obtain ⟨row, hrow, hb⟩ := mem_flatMap.mp hmem
      rw [Option.bind_some, (h.blocks row hrow block hb hid).2]
      rfl
    · cases hn
  | none =>
    refine (h.present.resolve_right ?_).symm
    rintro ⟨row, hrow, block, hb, hid⟩
    have hs :=
      foldl_take_isSome (r := empty).mpr (.inl ⟨block, mem_flatMap.mpr ⟨row, hrow, hb⟩, hid⟩)
    rw [hr] at hs
    cases hs

end Snapshot

/-- Every stream of chunks of one block: the mapper that was seeded from a snapshot with the
text of the first `k` chunks, and a client that appends the fragments it is sent to that text,
have the whole text once the chunks from some `j ≤ k` on are mapped. -/
theorem snapshot_joins_live (agentId : String) (t : Transcript) (thought : Bool)
    (chunks : List Chunk)
    (hopen : (opened t thought).text = "") (hfits : (textOfChunks chunks).utf8ByteSize ≤ u64Max)
    {j k : ℕ} (hjk : j ≤ k) {snapshot : Json}
    (hsnapshot : Holds snapshot ((opened t thought).blockId (opened t thought).blocks.length)
      (textOfChunks (chunks.take k)))
    (encoding : DeltaEncoding)
    (bound : { f : Json → Json // ∀ block, (f block).strField "id" = block.strField "id" }) :
    let id := (opened t thought).blockId (opened t thought).blocks.length
    let seeded := (start agentId encoding bound).seedFromSnapshot snapshot
    let mapped := seeded.chunkDeltas ((produce agentId thought t chunks).drop j)
    mapped.2.heldText id = textOfChunks chunks ∧ (encoding = .incremental →
        textOf (read (ofSnapshot snapshot) mapped.1) id = textOfChunks chunks) := by
  intro id seeded mapped
  have hc :=
    produce_carries agentId thought chunks t (by rw [hopen, String.empty_append]; exact hfits)
  rw [hopen] at hc
  have hrun := hc.drop j
  rw [String.empty_append] at hrun
  -- The chunks that are left: those of the snapshot from `j` on, and the others.
  have hl : (chunks.map Prod.fst).drop j =
      ((chunks.map Prod.fst).take k).drop j ++ (chunks.map Prod.fst).drop k := by
    have hd : (chunks.map Prod.fst).drop k = ((chunks.map Prod.fst).drop j).drop (k - j) := by
      rw [drop_drop, Nat.add_sub_cancel' hjk]
    rw [drop_take, hd, take_append_drop]
  have hs : String.join ((chunks.map Prod.fst).take j) ++
      String.join (((chunks.map Prod.fst).take k).drop j) = textOfChunks (chunks.take k) := by
    have ht : (chunks.map Prod.fst).take j = ((chunks.map Prod.fst).take k).take j := by
      rw [take_take, Nat.min_eq_left hjk]
    rw [ht, ← String.join_append, take_append_drop, textOfChunks, map_take]
  rw [hl] at hrun
  obtain ⟨hh, he⟩ := seed_heldText (start agentId encoding bound) hsnapshot rfl rfl
  have hsh : Shows encoding seeded (ofSnapshot snapshot) id _ :=
    ⟨he, hh.trans hs.symm, fun _ => (textOf_snapshot hsnapshot).trans hs.symm⟩
  have hend := shows_seam hrun hsh
  rw [← hl, ← String.join_append, take_append_drop] at hend
  exact ⟨hend.held, hend.client⟩

/-- Two chunks, the first of which is in the snapshot and queued as well. -/
def greeting : List Chunk := [("Hel", fun _ => none), ("lo", fun _ => none)]

def greetingBlock : Json := .obj [("type", .str "text"), ("id", .str "m:0"), ("text", .str "Hel")]

def greetingSnapshot : Json :=
  .obj [("messages", .arr [.obj [("id", .str "m"), ("isStreaming", .bool true),
    ("contentBlocks", .arr [greetingBlock])]])]

theorem greetingSnapshot_holds : Holds greetingSnapshot "m:0" "Hel" where
  blocks row hrow block hb _ := by
    obtain rfl := mem_singleton.mp hrow
    obtain rfl := mem_singleton.mp hb
    exact ⟨rfl, rfl⟩
  present := .inr ⟨_, mem_singleton_self _, _, mem_singleton_self _, rfl⟩

theorem snapshot_joins_live_greeting :
    let seeded := (start "a" .incremental ⟨fun block => block, fun _ => rfl⟩).seedFromSnapshot
      greetingSnapshot
    let mapped := seeded.chunkDeltas (produce "a" false (.new "m" false) greeting)
    mapped.2.heldText "m:0" = "Hello" ∧
      textOf (read (ofSnapshot greetingSnapshot) mapped.1) "m:0" = "Hello" := by
  have h := snapshot_joins_live "a" (.new "m" false) false greeting rfl (by decide) (Nat.zero_le 1)
    greetingSnapshot_holds .incremental ⟨fun block => block, fun _ => rfl⟩
  exact ⟨h.1, h.2 rfl⟩

end Intentd.SnapshotJoin
