import Intentd.ChatConflation

/-!
# What a chat client sees of conflated deltas

The client keeps a view of every block: the bucket it first appeared in, its text
and its media. It appends a fragment, replaces a full text, and lets the media of
a later frame override earlier entries. Conflation is invisible when the frames
sent and pending give the client the view that the deltas one by one would have.

A merge gives the last pending frame of a block the effect of two deltas. For the
bucket and the text it always does. For the media it does in the full-text
encoding, where the newer entity's entries win; in the incremental encoding the
pending entries win, so the effect is the same when the two have no key in common.
-/
namespace Intentd.ChatClient
open JsonValues ConflationBuffer ChatConflation List Option ChatItem

@[ext] structure BlockView where
  added : Bool
  text : Option String
  media : String → Option Json

def mediaEntry (entity : Json) (key : String) : Option Json :=
  (mediaOf entity).bind (Fields.get key)

def BlockView.after (view : Option BlockView) (item : ChatItem) : BlockView where
  added := (view.map BlockView.added).getD item.added
  text :=
    match textDeltaOf item.entity with
    | some fragment => some ((view.bind BlockView.text).getD "" ++ fragment)
    | none => (blockOf item.entity).strField "text"
  media := fun key => (mediaEntry item.entity key).or (view.bind fun v => v.media key)

open BlockView

abbrev Client := String → Option BlockView

namespace Client

def empty : Client := fun _ => none

def upsert (client : Client) (item : ChatItem) : Client :=
  match item.blockId with
  | some id => Function.update client id (some (after (client id) item))
  | none => client

/-- Apply a delta: its added entities, then its updated ones. -/
def apply (client : Client) (delta : Json) : Client :=
  let added := ((delta.get "added").bind Json.asArr).getD []
  let updated := ((delta.get "updated").bind Json.asArr).getD []
  updated.foldl (fun c entity => c.upsert ⟨false, entity⟩)
    (added.foldl (fun c entity => c.upsert ⟨true, entity⟩) client)

def view (deltas : List Json) : Client := deltas.foldl apply empty

end Client

structure Chunk where
  delta : Json
  blockId : String
  item : ChatItem
  parsed : fromDelta delta = some (.chatBlock blockId, item)

/-- Two chunks of one block have no media key in common. -/
def Chunk.Apart (c c' : Chunk) : Prop :=
  c.blockId = c'.blockId → ∀ key, mediaEntry c.item.entity key ≠ none →
    mediaEntry c'.item.entity key = none

structure ChatForwarder where
  buffer : Buffer ChatItem
  sent : List ChatItem
  taken : List Chunk

def start (maxEntries maxBytes : ℕ) : ChatForwarder := ⟨bounded maxEntries maxBytes, [], []⟩

/-- What the forwarder's loop waits for: room on the lane, or a chunk delta, which
says whether it finds room. -/
inductive ChatInput where
  | room
  | chunk (c : Chunk) (room : Bool)

def ChatInput.chunks : ChatInput → List Chunk
  | .room => []
  | .chunk c _ => [c]

namespace ChatForwarder

/-- Send pending items until a pop finds none. -/
def drainUpTo : ℕ → ChatForwarder → Option ChatForwarder
  | 0, _ => none
  | n + 1, f =>
    match f.buffer.pop with
    | none => none
    | some (none, b) => some { f with buffer := b }
    | some (some item, b) => drainUpTo n { f with buffer := b, sent := f.sent ++ [item] }

variable (f : ChatForwarder)

def drainAll : Option ChatForwarder :=
  drainUpTo (f.buffer.entries.length + 1) f

def step : ChatInput → Option ChatForwarder
  | .room =>
    match f.buffer.pop with
    | none => none
    | some (none, b) => some { f with buffer := b }
    | some (some item, b) => some { f with buffer := b, sent := f.sent ++ [item] }
  | .chunk c room =>
    let f := { f with taken := f.taken ++ [c] }
    if f.buffer.entries.isEmpty && room then some { f with sent := f.sent ++ [c.item] }
    else
      match f.buffer.push (.chatBlock c.blockId) c.item with
      | none => none
      | some (none, b) => some { f with buffer := b }
      | some (some item, b) => do
          let f ← drainAll { f with buffer := b }
          some { f with sent := f.sent ++ [item] }

def run (inputs : List ChatInput) : Option ChatForwarder :=
  inputs.foldlM step f

def items : List ChatItem := f.sent ++ f.buffer.entries.map Entry.item

/-- The frames give the client what the deltas one by one would have. -/
def Agrees : Prop :=
  Client.view (f.items.map intoDelta) = Client.view (f.taken.map Chunk.delta)

end ChatForwarder

/-! ## Frames and items -/

def viewItems (items : List ChatItem) : Client := items.foldl Client.upsert Client.empty

attribute [local simp] ChatForwarder.step

theorem apply_intoDelta (client : Client) (item : ChatItem) :
    client.apply item.intoDelta = client.upsert item := by
  rcases item with ⟨added, entity⟩
  cases added <;> rfl

theorem Chunk.spec (c : Chunk) : upsertOf c.delta = some (c.item.added, c.item.entity) ∧
    c.item.blockId = some c.blockId := by
  have hp := c.parsed
  obtain ⟨⟨added, entity⟩, hu, hr⟩ := bind_eq_some_iff.mp hp
  obtain ⟨block, hb, hr⟩ := bind_eq_some_iff.mp hr
  obtain ⟨id, hid, hr⟩ := bind_eq_some_iff.mp hr
  obtain ⟨hkey, hit⟩ := Prod.mk.inj (some.inj hr)
  rw [← hit]
  refine ⟨hu, ?_⟩
  change ((entity.get "block").getD .null).strField "id" = some c.blockId
  rw [show entity.get "block" = some block from hb, ← Key.chatBlock.inj hkey]
  exact hid

theorem apply_delta (client : Client) (c : Chunk) :
    client.apply c.delta = client.upsert c.item := by
  have hu := c.spec.1
  unfold upsertOf at hu
  split at hu
  case h_3 => cases hu
  all_goals
    rename_i ha hup
    obtain ⟨hb, he⟩ := Prod.mk.inj (some.inj hu)
    simp [Client.apply, ha, hup, hb, he]

theorem view_items (items : List ChatItem) :
    Client.view (items.map intoDelta) = viewItems items := by
  rw [Client.view, viewItems, foldl_map]
  simp only [apply_intoDelta]

theorem view_taken (taken : List Chunk) :
    Client.view (taken.map Chunk.delta) = viewItems (taken.map Chunk.item) := by
  rw [Client.view, viewItems, foldl_map, foldl_map]
  simp only [apply_delta]

theorem viewItems_eq (items : List ChatItem) (id : String) :
    viewItems items id = (items.filter fun x => x.blockId = some id).foldl
      (fun view x => some (after view x)) none := by
  have hg : ∀ client : Client, items.foldl Client.upsert client id =
      (items.filter fun x => x.blockId = some id).foldl
        (fun view x => some (after view x)) (client id) := by
    induction items with
    | nil => exact fun _ => rfl
    | cons x items ih =>
      intro client
      rw [foldl_cons, ih, filter_cons]
      unfold Client.upsert
      cases hid : x.blockId with
      | none => simp
      | some other =>
        by_cases h : other = id
        · subst h
          simp
        · simp [h, Function.update_of_ne (Ne.symm h)]
  exact hg Client.empty

/-! ## What a merge does to a block's view -/

theorem get_orInsertAll (key : String) (acc media : Fields) :
    Fields.get key (orInsertAll acc media) = (Fields.get key acc).or (Fields.get key media) := by
  induction media generalizing acc with
  | nil => simp [orInsertAll, Fields.get]
  | cons entry rest ih =>
    change Fields.get key (orInsertAll (Fields.orInsert entry.1 entry.2 acc) rest) = _
    rw [ih, Fields.get_orInsert, Fields.get]
    by_cases hk : key = entry.1
    · subst hk
      cases Fields.get entry.1 acc <;> simp
    · have hk' : ¬entry.1 = key := fun h => hk h.symm
      simp [hk, hk']

variable {entity other : Json} {client : Client} {x : ChatItem}

theorem blockOf_insert {old block : Json} (h : entity.get "block" = some old) :
    blockOf (entity.insert "block" block) = block := by
  rw [blockOf, Json.get_insert_of_get h]
  rfl

theorem exists_block {item : ChatItem} {id : String} (h : item.blockId = some id) :
    item.entity.get "block" = some (blockOf item.entity) ∧
      ∃ block, blockOf item.entity = .obj block := by
  obtain ⟨hget, block, hb, -⟩ := get_block_of_field (Json.strField_eq_some.mp h)
  exact ⟨hget, block, hb⟩

theorem get_joinMedia_ne (media : Option Fields) {key : String}
    (hget : entity.get "block" = some (blockOf entity)) (hkey : key ≠ "media") :
    (blockOf (joinMedia entity media)).get key = (blockOf entity).get key := by
  cases media with
  | none => rfl
  | some media =>
    rw [joinMedia, unionMediaInto]
    cases hb : blockOf entity with
    | obj block =>
      simp only
      split <;> exact (blockOf_insert hget).symm ▸ Fields.get_insert_ne hkey _
    | _ => simp only [hb]

theorem mediaEntry_joinMedia (other : Json) {block : Fields}
    (hget : entity.get "block" = some (blockOf entity))
    (hb : blockOf entity = .obj block) (key : String) :
    mediaEntry (joinMedia entity (mediaOf other)) key =
      (mediaEntry entity key).or (mediaEntry other key) := by
  unfold mediaEntry
  cases hm : mediaOf other with
  | none => simp [joinMedia]
  | some media =>
    rw [joinMedia, unionMediaInto, hb]
    simp only
    have hs : ∀ value, mediaOf (entity.insert "block"
        (.obj (Fields.insert "media" (.obj value) block))) = some value := by
      intro value
      rw [mediaOf, blockOf_insert hget, Json.get, Fields.get_insert_self]
      rfl
    split
    · rename_i acc hacc
      have he : mediaOf entity = some acc := by
        rw [mediaOf, hb, Json.get, hacc]
        rfl
      rw [hs, he]
      exact get_orInsertAll key acc media
    · rename_i hn
      have he : mediaOf entity = none := by
        rw [mediaOf, hb, Json.get]
        cases hf : Fields.get "media" block with
        | none => rfl
        | some value =>
          cases value with
          | obj acc => exact absurd hf (hn acc)
          | _ => rfl
      rw [hs, he]
      rfl

theorem textDeltaOf_congr
    (h : ∀ key, key ≠ "media" → (blockOf entity).get key = (blockOf other).get key) :
    textDeltaOf entity = textDeltaOf other := by
  have hf : ∀ key, key ≠ "media" →
      (blockOf entity).strField key = (blockOf other).strField key := by
    intro key hkey
    rw [Json.strField, h key hkey, Json.strField]
  rw [textDeltaOf, hf "type" (by decide), hf "textDelta" (by decide), textDeltaOf]

variable {acc : String}

theorem pushText_spec (h : textDeltaOf entity = some acc) (add : String) :
    textDeltaOf (pushText entity acc add) = some (acc ++ add) ∧
      (∀ key, mediaEntry (pushText entity acc add) key = mediaEntry entity key) ∧
      (blockOf (pushText entity acc add)).strField "id" = (blockOf entity).strField "id" ∧
      (pushText entity acc add).get "block" = some (blockOf (pushText entity acc add)) := by
  have ht := get_textDelta h
  obtain ⟨hget, -⟩ := get_block_of_field ht
  have hb : blockOf (pushText entity acc add) =
      (blockOf entity).insert "textDelta" (.str (acc ++ add)) := blockOf_insert hget
  have ho : ∀ key, key ≠ "textDelta" →
      (blockOf (pushText entity acc add)).get key = (blockOf entity).get key := by
    intro key hkey
    rw [hb]
    exact Json.get_insert_ne hkey
  refine ⟨?_, ?_, ?_, ?_⟩
  · have hs : (blockOf (pushText entity acc add)).strField "textDelta" = some (acc ++ add) := by
      rw [hb]
      exact Json.strField_eq_some.mpr (Json.get_insert_of_get ht)
    have hty : (blockOf (pushText entity acc add)).strField "type" =
        (blockOf entity).strField "type" := by
      rw [Json.strField, ho "type" (by decide), Json.strField]
    unfold textDeltaOf at h ⊢
    rw [hty, hs]
    split_ifs at h ⊢
    rfl
  · intro key
    rw [mediaEntry, mediaOf, ho "media" (by decide), mediaEntry, mediaOf]
  · rw [Json.strField, ho "id" (by decide), Json.strField]
  · rw [hb]
    exact Json.get_insert_of_get hget

variable {pending : ChatItem}

section Merged
variable {newer : ChatItem} {id : String} (view : Option BlockView)

theorem after_merged_full (hne : newer.blockId = some id) (hn : textDeltaOf newer.entity = none) :
    BlockView.after view { pending with
        entity := ChatItem.joinMedia newer.entity (mediaOf pending.entity) } =
      BlockView.after (some (BlockView.after view pending)) newer := by
  obtain ⟨hget, block, hb⟩ := exists_block hne
  have hf : ∀ key, key ≠ "media" →
      (blockOf (ChatItem.joinMedia newer.entity (mediaOf pending.entity))).get key =
        (blockOf newer.entity).get key := fun key hkey => get_joinMedia_ne _ hget hkey
  have ht := textDeltaOf_congr hf
  ext
  · simp [BlockView.after]
  · simp only [BlockView.after, ht, hn, Json.strField, hf "text" (by decide)]
  · simp only [BlockView.after, mediaEntry_joinMedia _ hget hb, Option.bind_some, Option.or_assoc]

/-- Appending the fragment with the newer media under the pending has the effect of
both when they have no key in common. -/
theorem after_merged_incremental {add : String} (hpe : pending.blockId = some id)
    (hp : textDeltaOf pending.entity = some acc) (hn : textDeltaOf newer.entity = some add)
    (ha : ∀ key, mediaEntry pending.entity key ≠ none → mediaEntry newer.entity key = none) :
    BlockView.after view { pending with
        entity := ChatItem.joinMedia (pushText pending.entity acc add) (mediaOf newer.entity) } =
      BlockView.after (some (BlockView.after view pending)) newer := by
  obtain ⟨ht, hm, hid, hget⟩ := pushText_spec hp add
  obtain ⟨-, block, hb, -⟩ :=
    get_block_of_field (Json.strField_eq_some.mp (hid.trans hpe))
  have hj := (textDeltaOf_congr fun key hkey =>
    get_joinMedia_ne (mediaOf newer.entity) hget hkey).trans ht
  have he := mediaEntry_joinMedia newer.entity hget hb
  ext
  · simp [BlockView.after]
  · simp [BlockView.after, hj, hn, hp, String.append_assoc]
  · rename_i key value
    simp only [BlockView.after, he, hm, bind_some]
    cases hv : mediaEntry pending.entity key with
    | none => simp
    | some v => simp [ha key (by simp [hv])]

end Merged

/-! ## One step and whole runs -/

theorem viewItems_append (items : List ChatItem) (x : ChatItem) :
    viewItems (items ++ [x]) = (viewItems items).upsert x := by
  simp [viewItems]

variable {rest : List ChatItem} {y : ChatItem}

section Replace
variable (xs : List ChatItem) {id other : String}

theorem viewItems_last (hy : y.blockId = some id) (hr : ∀ z ∈ rest, z.blockId ≠ some id) :
    viewItems (xs ++ y :: rest) id = some (after (viewItems xs id) y) := by
  have hnil : rest.filter (fun z => decide (z.blockId = some id)) = [] := by simpa using hr
  rw [viewItems_eq, viewItems_eq, filter_append, filter_cons_of_pos (by simpa using hy),
    hnil, foldl_append]
  rfl

theorem viewItems_other (hy : y.blockId = some id) (ho : other ≠ id) :
    viewItems (xs ++ y :: rest) other = viewItems (xs ++ rest) other := by
  have hne : ¬y.blockId = some other := by
    rw [hy]
    exact fun h => ho (some.inj h).symm
  rw [viewItems_eq, viewItems_eq, filter_append, filter_append,
    filter_cons_of_neg (by simpa using hne)]

end Replace

theorem upsert_self {id : String} (h : x.blockId = some id) :
    client.upsert x id = some (after (client id) x) := by
  simp [Client.upsert, h]

theorem upsert_other {id other : String} (h : x.blockId = some id) (ho : other ≠ id) :
    client.upsert x other = client other := by
  simp [Client.upsert, h, Function.update_of_ne ho]

/-- Replacing the last item of a block by `x` has the effect of one more item `c`, if it has
it on the block's view. -/
theorem viewItems_replace (xs : List ChatItem) {c : ChatItem}
    {id : String} (hy : y.blockId = some id) (hx : x.blockId = some id) (hc : c.blockId = some id)
    (hr : ∀ z ∈ rest, z.blockId ≠ some id)
    (h : after (viewItems xs id) x = after (some (after (viewItems xs id) y)) c) :
    viewItems (xs ++ x :: rest) = (viewItems (xs ++ y :: rest)).upsert c := by
  funext other
  by_cases ho : other = id
  · rw [ho, viewItems_last xs hx hr, upsert_self hc, viewItems_last xs hy hr, h]
  · rw [viewItems_other xs hx ho, upsert_other hc ho, viewItems_other xs hy ho]

namespace ChatForwarder

variable {f f' : ChatForwarder} {c : Chunk} {e : Entry ChatItem}
  {entries before after : List (Entry ChatItem)} {newer x : ChatItem} {room : Bool}

/-- What every step keeps: the bookkeeping, items under the key of their block, and media that
came with a chunk of the block. -/
structure Inv (f : ChatForwarder) : Prop where
  sound : f.buffer.Sound
  keyed : ∀ e ∈ f.buffer.entries, ∃ id, e.key = .chatBlock id ∧ e.item.blockId = some id
  sourced : ∀ e ∈ f.buffer.entries, ∀ key, mediaEntry e.item.entity key ≠ none →
    ∃ c ∈ f.taken, e.key = .chatBlock c.blockId ∧ mediaEntry c.item.entity key ≠ none

theorem Inv.key_iff (h : Inv f) (he : e ∈ f.buffer.entries) {id : String} :
    e.key = .chatBlock id ↔ e.item.blockId = some id := by
  obtain ⟨id', hk, hb⟩ := h.keyed e he
  simp [hk, hb]

theorem agrees_iff : f.Agrees ↔ viewItems f.items = viewItems (f.taken.map Chunk.item) := by
  rw [Agrees, view_items, view_taken]

theorem inv_start (maxEntries maxBytes : ℕ) : Inv (start maxEntries maxBytes) :=
  ⟨Buffer.sound_bounded _ _, by simp [start, bounded], by simp [start, bounded]⟩

theorem agrees_start (maxEntries maxBytes : ℕ) : Agrees (start maxEntries maxBytes) := rfl

theorem Inv.popped (h : Inv f) (he : f.buffer.entries = e :: entries) : Inv { f with
      buffer := f.buffer.popped e entries (f.buffer.cost - e.cost), sent :=
        f.sent ++ [e.item] } := by
  have hmem : ∀ e' ∈ entries, e' ∈ f.buffer.entries := fun e' he' => he ▸ mem_cons_of_mem _ he'
  exact ⟨Buffer.sound_popped h.sound he, fun e' he' => h.keyed e' (hmem e' he'),
    fun e' he' => h.sourced e' (hmem e' he')⟩

theorem items_popped (he : f.buffer.entries = e :: entries) (rest : ℕ) :
    items { f with buffer := f.buffer.popped e entries rest, sent := f.sent ++ [e.item] } =
      f.items := by
  simp [items, Buffer.popped, he]

theorem Inv.drainUpTo (h : Inv f) {n : ℕ} (hn : f.buffer.entries.length < n) :
    ∃ f', drainUpTo n f = some f' ∧ Inv f' ∧ f'.buffer.entries = [] ∧ f'.items = f.items ∧
      f'.taken = f.taken := by
  induction n generalizing f with
  | zero => omega
  | succ n ih =>
    rcases h.sound.pop with ⟨hem, hpop⟩ | ⟨e, entries, he, hpop⟩
    · exact ⟨f, by simp [ChatForwarder.drainUpTo, hpop], h, hem, rfl, rfl⟩
    · have hl : entries.length < n := by
        rw [he, length_cons] at hn
        omega
      obtain ⟨f', hd, hinv, hem, hit, ht⟩ := ih (h.popped he) hl
      exact ⟨f', by simpa [ChatForwarder.drainUpTo, hpop] using hd, hinv, hem,
        hit.trans (items_popped he _), ht⟩

theorem agrees_append (h : f.Agrees) (hit : f'.items = f.items ++ [c.item])
    (ht : f'.taken = f.taken ++ [c]) :
    f'.Agrees := by
  rw [agrees_iff, hit, ht, map_append, map_singleton, viewItems_append, viewItems_append,
    agrees_iff.mp h]

theorem mediaEntry_merged {id : String} (h : pending.merge newer = .merged x)
    (hp : pending.blockId = some id) (hn : newer.blockId = some id) : x.blockId = some id ∧
      ∀ key, mediaEntry x.entity key ≠ none →
        mediaEntry pending.entity key ≠ none ∨ mediaEntry newer.entity key ≠ none := by
  have hor {a b : Option Json} (h : a.or b ≠ none) : a ≠ none ∨ b ≠ none := by
    rwa [Ne, or_eq_none_iff, not_and_or] at h
  unfold ChatItem.merge at h
  split at h
  · rename_i acc add hacc hadd
    split_ifs at h
    cases h
    obtain ⟨-, hm, hid, hget⟩ := pushText_spec hacc add
    obtain ⟨-, block, hb, -⟩ := get_block_of_field (Json.strField_eq_some.mp (hid.trans hp))
    refine ⟨?_, fun key hk => ?_⟩
    · rw [ChatItem.blockId, Json.strField, get_joinMedia_ne _ hget (by decide)]
      exact hid.trans hp
    · rw [mediaEntry_joinMedia _ hget hb, hm] at hk
      exact hor hk
  · cases h
    obtain ⟨hget, block, hb⟩ := exists_block hn
    refine ⟨?_, fun key hk => ?_⟩
    · rw [ChatItem.blockId, Json.strField, get_joinMedia_ne _ hget (by decide)]
      exact hn
    · rw [mediaEntry_joinMedia _ hget hb] at hk
      exact (hor hk).symm
  · cases h

theorem offered_eq (h : f.buffer.Offered (.chatBlock c.blockId) c.item newer) : newer = c.item := by
  cases h with
  | fresh => rfl
  | refused _ hm => exact refused_eq hm

/-- After a merge the client sees what the deltas would show. -/
theorem agrees_mergedAt (h : Inv f) (hag : f.Agrees) (hap : ∀ c' ∈ f.taken, c'.Apart c)
    (hloc : f.buffer.Located (.chatBlock c.blockId) before e after)
    (hme : e.item.merge c.item = .merged x) :
    Agrees ⟨f.buffer.mergedAt before e after x, f.sent, f.taken ++ [c]⟩ := by
  have hc := c.spec.2
  have he := (h.key_iff (by simp [hloc.split])).mp hloc.key_eq
  have hx := (mediaEntry_merged hme he hc).1
  have hre : ∀ z ∈ after.map Entry.item, z.blockId ≠ some c.blockId :=
    forall_mem_map.mpr fun e' he' hid =>
    hloc.last e' he' ((h.key_iff (by simp [hloc.split, he'])).mpr hid)
  have hit : f.items = f.sent ++ before.map Entry.item ++ e.item :: after.map Entry.item := by
    simp [items, hloc.split]
  have hmer : f.sent ++ (f.buffer.mergedAt before e after x).entries.map Entry.item =
      f.sent ++ before.map Entry.item ++ x :: after.map Entry.item := by
    simp [Buffer.mergedAt]
  rw [agrees_iff, items, hmer, map_append, map_singleton,
    viewItems_append, ← agrees_iff.mp hag, hit]
  refine viewItems_replace _ he hx hc hre ?_
  generalize viewItems (f.sent ++ before.map Entry.item) c.blockId = view
  unfold ChatItem.merge at hme
  split at hme
  · rename_i acc add hacc hadd
    split_ifs at hme with hcap
    cases hme
    refine after_merged_incremental view he hacc hadd fun key hk => ?_
    obtain ⟨c', hc', hkey, hm⟩ := h.sourced e (by simp [hloc.split]) key hk
    exact hap c' hc' (Key.chatBlock.inj (hkey.symm.trans hloc.key_eq)) key hm
  · rename_i hp hn
    cases hme
    exact after_merged_full view hc hn
  · cases hme

theorem Inv.taken (h : Inv f) (sent : List ChatItem) : Inv ⟨f.buffer, sent, f.taken ++ [c]⟩ where
  sound := h.sound
  keyed := h.keyed
  sourced e he key hk := by
    obtain ⟨c', hc', hm⟩ := h.sourced e he key hk
    exact ⟨c', mem_append_left _ hc', hm⟩

theorem Inv.appended (h : Inv f) :
    Inv ⟨f.buffer.appended (.chatBlock c.blockId) c.item, f.sent, f.taken ++ [c]⟩ := by
  refine ⟨Buffer.sound_appended h.sound _, forall_mem_append.mpr ⟨h.keyed, ?_⟩,
    forall_mem_append.mpr ⟨(h.taken f.sent).sourced, ?_⟩⟩
  · exact forall_mem_singleton.mpr ⟨c.blockId, rfl, c.spec.2⟩
  · exact forall_mem_singleton.mpr fun key hk => ⟨c, by simp, rfl, hk⟩

theorem Inv.mergedAt (h : Inv f) (hloc : f.buffer.Located (.chatBlock c.blockId) before e after)
    (hm : e.item.merge c.item = .merged x) :
    Inv ⟨f.buffer.mergedAt before e after x, f.sent, f.taken ++ [c]⟩ := by
  have he : e ∈ f.buffer.entries := by simp [hloc.split]
  obtain ⟨hx, hmedia⟩ := mediaEntry_merged hm ((h.key_iff he).mp hloc.key_eq) c.spec.2
  have hk := h.keyed
  have hs := (h.taken (c := c) f.sent).sourced
  rw [hloc.split, forall_mem_append, forall_mem_cons] at hk hs
  refine ⟨Buffer.sound_mergedAt h.sound x hloc,
    forall_mem_append.mpr ⟨hk.1, forall_mem_cons.mpr ⟨⟨c.blockId, hloc.key_eq, hx⟩, hk.2.2⟩⟩,
    forall_mem_append.mpr ⟨hs.1, forall_mem_cons.mpr ⟨fun key hkey => ?_, hs.2.2⟩⟩⟩
  rcases hmedia key hkey with hkey | hkey
  · exact hs.2.1 key hkey
  · exact ⟨c, by simp, hloc.key_eq, hkey⟩

/-- A chunk that the buffer hands back goes out behind everything pending. -/
theorem Inv.overflow (h : Inv f) : ∃ f', ((drainAll { f with taken := f.taken ++ [c] }).bind
        fun g => some { g with sent := g.sent ++ [c.item] }) = some f' ∧
      Inv f' ∧ f'.items = f.items ++ [c.item] ∧ f'.taken = f.taken ++ [c] := by
  have hinv : Inv { f with taken := f.taken ++ [c] } := h.taken f.sent
  obtain ⟨f', hd, hf', he, hit, ht⟩ := hinv.drainUpTo (Nat.lt_succ_self _)
  refine ⟨{ f' with sent := f'.sent ++ [c.item] }, by rw [drainAll, hd]; rfl,
    ⟨hf'.sound, hf'.keyed, hf'.sourced⟩, ?_, ht⟩
  have hs : f'.sent = f.items := by
    rwa [items, he, map_nil, append_nil] at hit
  simp [items, he, hs]

/-- One step keeps the invariant and the client's view, if what it takes is apart from what was
taken before. -/
theorem Inv.step (h : Inv f) (hag : f.Agrees) (input : ChatInput)
    (hap : ∀ c ∈ input.chunks, ∀ c' ∈ f.taken, c'.Apart c) :
    ∃ f', f.step input = some f' ∧ Inv f' ∧ f'.Agrees ∧ f'.taken = f.taken ++ input.chunks := by
  cases input with
  | room =>
    rcases h.sound.pop with ⟨hem, hpop⟩ | ⟨e, entries, hen, hpop⟩
    · exact ⟨f, by simp [hpop], h, hag, (append_nil _).symm⟩
    · refine ⟨_, by simp [hpop], h.popped hen, ?_, (append_nil _).symm⟩
      rw [agrees_iff, items_popped hen]
      exact agrees_iff.mp hag
  | chunk c room =>
    cases hro : f.buffer.entries.isEmpty && room with
    | true =>
      have hem : f.buffer.entries = [] := by
        simp only [Bool.and_eq_true, List.isEmpty_iff] at hro
        exact hro.1
      exact ⟨⟨f.buffer, f.sent ++ [c.item], f.taken ++ [c]⟩, by simp [hro], h.taken _,
        agrees_append hag (by simp [items, hem]) rfl, rfl⟩
    | false =>
      obtain ⟨r, b', hpu, hpus⟩ := h.sound.push (.chatBlock c.blockId) c.item
      cases hpus with
      | overBytes hov =>
        obtain ⟨f', hdr, hinv, hit, hta⟩ := h.overflow (c := c)
        exact ⟨f', by simpa [hro, hpu] using hdr, hinv, agrees_append hag hit hta, hta⟩
      | full hfi hof hfu =>
        cases offered_eq hof
        obtain ⟨f', hdr, hinv, hit, hta⟩ := h.overflow (c := c)
        exact ⟨f', by simpa [hro, hpu] using hdr, hinv, agrees_append hag hit hta, hta⟩
      | appended hfi hof hle =>
        cases offered_eq hof
        exact ⟨⟨f.buffer.appended (.chatBlock c.blockId) c.item, f.sent, f.taken ++ [c]⟩,
          by simp [hro, hpu], h.appended,
          agrees_append hag (by simp [items, Buffer.appended]) rfl, rfl⟩
      | merged hfi hloc hmer =>
        have hme := some.inj hmer
        exact ⟨⟨_, f.sent, f.taken ++ [c]⟩, by simp [hro, hpu], h.mergedAt hloc hme,
          agrees_mergedAt h hag (hap c mem_cons_self) hloc hme, rfl⟩

/-- Chunks that are apart in pairs can be conflated in every way. -/
theorem Inv.run (inputs : List ChatInput) (h : Inv f) (hag : f.Agrees)
    (hap : (f.taken ++ inputs.flatMap ChatInput.chunks).Pairwise Chunk.Apart) :
    ∃ f', f.run inputs = some f' ∧ f'.Agrees := by
  induction inputs generalizing f with
  | nil => exact ⟨f, rfl, hag⟩
  | cons input inputs ih =>
    rw [flatMap_cons, ← append_assoc] at hap
    have hone := (pairwise_append.mp (pairwise_append.mp hap).1).2.2
    obtain ⟨f₁, hs, hinv, hag₁, ht⟩ := h.step hag input fun c hc c' hc' => hone c' hc' c hc
    rw [← ht] at hap
    obtain ⟨f', hr, hag'⟩ := ih hinv hag₁ hap
    refine ⟨f', ?_, hag'⟩
    rw [ChatForwarder.run, foldlM_cons, hs]
    exact hr

end ChatForwarder

end Intentd.ChatClient
