import Intentd.ConflationHistory
import Mathlib.Logic.Function.Basic

/-!
# Conflation of bus events

Activity signals and file changes are latest-wins: the newest event replaces the
pending one. Terminal output is decoded and concatenated; the merged frame rides
the newest event's envelope, and where the output is positioned its start offset
is rewritten to the first merged event's. An undecodable chunk, a merge past the
size cap, and cursors that do not run on refuse the merge.

Base64 is any codec that decodes nothing but what it encodes.

`Built` says what each item of the buffer was made from, and a buffer of event
items keeps it true of all of them.
-/
namespace Intentd.EventConflation
open JsonValues ConflationBuffer MachineWords

class Base64 where
  encode : List UInt8 → String
  decode : String → Option (List UInt8)
  decode_eq_some : Function.IsPartialInv encode decode

/-- Three zero bytes are written as base64 writes them, others one by one. -/
def sampleText (bytes : List UInt8) : String :=
  if bytes = [0, 0, 0] then "AAAA" else String.ofList ('B' :: bytes.map Char.ofUInt8)

theorem sampleText_injective : Function.Injective sampleText := by
  have hb : Function.Injective Char.ofUInt8 :=
    fun _ _ h => UInt8.toNat_inj.mp (congrArg Char.toNat h)
  intro x y h
  unfold sampleText at h
  split_ifs at h with hx hy hy
  · rw [hx, hy]
  · cases String.ofList_injective h
  · cases String.ofList_injective h
  · exact List.map_injective_iff.mpr hb (List.cons.inj (String.ofList_injective h)).2

noncomputable abbrev sample : Base64 where
  encode := sampleText
  decode := Function.partialInv sampleText
  decode_eq_some := sampleText_injective.isPartialInv

/-- A bus event: what its key, its size and its notification depend on. -/
structure Event where
  id : String
  workspaceId : String
  timestamp : String
  eventType : String
  actor : Json
  sessionId : Option String
  data : Json

def agentStreamActivity : String := "agent:stream:activity"

def terminalData : String := "terminal:data"

def filePrefixed (eventType : String) : Bool := "file:".toList.isPrefixOf eventType.toList

/-- The conflation key of an event, or nothing when the event is a barrier. -/
def eventKey (event : Event) : Option Key :=
  if event.eventType = agentStreamActivity then
    (event.sessionId.or (event.data.strField "agentId")).map .activity
  else if event.eventType = terminalData then
    (event.data.strField "terminalId").map (.terminal event.workspaceId)
  else if filePrefixed event.eventType then
    (event.data.strField "path").map (.file event.workspaceId)
  else none

inductive EventItem where
  | latest (event : Event)
  /-- `bytes` is the decoded chunk, absent when it did not decode. -/
  | terminal (event : Event) (bytes : Option (List UInt8))

open EventItem

/-- Where a chunk stands in the output of one daemon boot. -/
inductive TerminalCursor where
  | legacy
  | positioned (boot : String) (start stop : ℕ)
  | invalid
  deriving DecidableEq, Repr

def terminalCursor (data : Json) (byteLen : ℕ) : TerminalCursor :=
  if ["daemonBootId", "startOffset", "endOffset"].all fun key => (data.get key).isNone then
    .legacy
  else
    match (data.strField "daemonBootId").filter (· ≠ ""),
        (data.strField "startOffset").bind parseU64, (data.strField "endOffset").bind parseU64 with
    | some boot, some start, some stop =>
      if checkedSub stop start = some byteLen then .positioned boot start stop else .invalid
    | _, _, _ => .invalid

def chunkBytes [Base64] (data : Json) : Option (List UInt8) :=
  (data.strField "chunk").bind Base64.decode

namespace EventItem

def event : EventItem → Event
  | latest event => event
  | terminal event _ => event

def new [Base64] (key : Key) (event : Event) : EventItem :=
  match key with
  | .terminal _ _ => .terminal event (chunkBytes event.data)
  | _ => .latest event

end EventItem

def buildEventNotification (subscriptionId : String) (event : Event) : Json :=
  .obj [("jsonrpc", .str "2.0"), ("method", .str "events.event"),
    ("params", .obj [("subscriptionId", .str subscriptionId),
      ("event", .obj [("type", .str event.eventType), ("workspaceId", .str event.workspaceId),
        ("id", .str event.id), ("timestamp", .str event.timestamp), ("actor", event.actor),
        ("data", event.data)])])]

/-- The event as it is sent: a decoded chunk is encoded again. -/
def EventItem.sentEvent [Base64] : EventItem → Event
  | .latest event => event
  | .terminal event (some bytes) =>
    { event with data := event.data.insert "chunk" (.str (Base64.encode bytes)) }
  | .terminal event none => event

def EventItem.intoFrame [Base64] (item : EventItem) (subscriptionId : String) : Json :=
  buildEventNotification subscriptionId item.sentEvent

def terminalConcatCapBytes : ℕ := 256 * 1024

/-- Assign a field. A null becomes an object; any other value is a panic. -/
def assignField (data : Json) (key : String) (value : Json) : Option Json :=
  match data with
  | .obj fields => some (.obj (Fields.insert key value fields))
  | .null => some (.obj [(key, value)])
  | _ => none

/-- The start offset two runs of bytes are merged under: `none` refuses, `some none`
is a merge without cursors. -/
def mergedStart (pending newer : TerminalCursor) : Option (Option ℕ) :=
  match pending, newer with
  | .legacy, .legacy => some none
  | .positioned boot start stop, .positioned nextBoot nextStart _ =>
    if boot = nextBoot ∧ stop = nextStart then some (some start) else none
  | _, _ => none

/-- The newest event with the start offset of the merged run. -/
def rewriteStart (event : Event) : Option ℕ → Option Event
  | none => some event
  | some start => do
      let data ← assignField event.data "startOffset" (.str start.repr)
      some { event with data := data }

namespace EventItem

def merge : EventItem → EventItem → Option (Merge EventItem)
  | .latest _, .latest newer => some (.merged (.latest newer))
  | .terminal event (some acc), .terminal newEvent (some add) =>
    if terminalConcatCapBytes < acc.length + add.length then
      some (.refused (.terminal newEvent (some add)))
    else
      match mergedStart (terminalCursor event.data acc.length)
          (terminalCursor newEvent.data add.length) with
      | none => some (.refused (.terminal newEvent (some add)))
      | some start => do
          let merged ← rewriteStart newEvent start
          some (.merged (.terminal merged (some (acc ++ add))))
  | .terminal _ _, .terminal newEvent _ => some (.refused (.terminal newEvent none))
  | _, newer => some (.refused newer)

def cost : EventItem → ℕ
  | .latest event => approxSize event.data
  | .terminal _ (some bytes) => bytes.length
  | .terminal event none => approxSize event.data

end EventItem

instance : Conflate EventItem := ⟨merge, cost⟩

structure Arrival where
  event : Event
  key : Key
  keyed : eventKey event = some key

def Arrival.item [Base64] (a : Arrival) : EventItem := .new a.key a.event

variable {data : Json} {byteLen start stop : ℕ} {boot : String} {a : Arrival} {x y : EventItem}

theorem terminalCursor_eq_positioned : terminalCursor data byteLen = .positioned boot start stop ↔
      (data.strField "daemonBootId").filter (· ≠ "") = some boot ∧
      (data.strField "startOffset").bind parseU64 = some start ∧
      (data.strField "endOffset").bind parseU64 = some stop ∧ start + byteLen = stop := by
  unfold terminalCursor
  constructor
  · intro h
    split_ifs at h
    split at h
    · rename_i b s t hb hs hst
      split_ifs at h with hsub
      cases h
      unfold checkedSub at hsub
      simp only [Option.ite_none_right_eq_some, Option.some.injEq] at hsub
      exact ⟨hb, hs, hst, by omega⟩
    · cases h
  · intro h
    obtain ⟨hb, hs, hst, hlen⟩ := h
    have hso : data.get "startOffset" ≠ none := by
      intro hn
      simp [Json.strField, hn] at hs
    have hsub : checkedSub stop start = some byteLen := by
      unfold checkedSub
      rw [if_pos (by omega)]
      congr 1
      omega
    rw [hb, hs, hst]
    simp [hso, hsub]

theorem terminalCursor_eq_legacy : terminalCursor data byteLen = .legacy ↔
      data.get "daemonBootId" = none ∧ data.get "startOffset" = none ∧
        data.get "endOffset" = none := by
  unfold terminalCursor
  constructor
  · intro h
    split_ifs at h with ha
    · simpa using ha
    · split at h
      · split_ifs at h
      · cases h
  · intro h
    simp [h.1, h.2.1, h.2.2]

theorem terminalCursor_insert_chunk (data chunk : Json) (byteLen : ℕ) :
    terminalCursor (data.insert "chunk" chunk) byteLen = terminalCursor data byteLen := by
  have hget : ∀ key, key ≠ "chunk" → (data.insert "chunk" chunk).get key = data.get key :=
    fun key hkey => Json.get_insert_ne hkey
  simp [terminalCursor, Json.strField, hget]

theorem rewriteStart_of_cursor {event : Event}
    (h : terminalCursor event.data byteLen = .positioned boot start stop) (n : ℕ) :
    rewriteStart event (some n) =
      some { event with data := event.data.insert "startOffset" (.str n.repr) } := by
  obtain ⟨-, hs, -, -⟩ := terminalCursor_eq_positioned.mp h
  cases hd : event.data with
  | obj fields => simp [rewriteStart, hd, assignField, Json.insert]
  | _ => simp [hd, Json.strField, Json.get] at hs

theorem terminalCursor_merged {pending : Json} {acc add mid : ℕ}
    (hacc : terminalCursor pending acc = .positioned boot start mid)
    (hadd : terminalCursor data add = .positioned boot mid stop) :
    terminalCursor (data.insert "startOffset" (.str start.repr)) (acc + add) =
      .positioned boot start stop := by
  obtain ⟨-, hp, -, hf⟩ := terminalCursor_eq_positioned.mp hacc
  obtain ⟨text, -, hpa⟩ := Option.bind_eq_some_iff.mp hp
  have hs := parseU64_le hpa
  obtain ⟨hb, hmid, hst, hlen⟩ := terminalCursor_eq_positioned.mp hadd
  have hold : ∃ old, data.get "startOffset" = some old := by
    cases hget : data.get "startOffset" with
    | none => simp [Json.strField, hget] at hmid
    | some v => exact ⟨v, rfl⟩
  obtain ⟨old, hold⟩ := hold
  have ho : ∀ key, key ≠ "startOffset" →
      (data.insert "startOffset" (.str start.repr)).strField key = data.strField key := by
    intro key hkey
    rw [Json.strField, Json.get_insert_ne hkey, Json.strField]
  have hse : (data.insert "startOffset" (.str start.repr)).strField "startOffset" =
      some start.repr := Json.strField_eq_some.mpr (Json.get_insert_of_get hold)
  rw [terminalCursor_eq_positioned, ho "daemonBootId" (by decide), ho "endOffset" (by decide), hse]
  exact ⟨hb, parseU64_repr hs, hst, by omega⟩

theorem mergedStart_eq_some {pending newer : TerminalCursor} {start : Option ℕ}
    (h : mergedStart pending newer = some start) :
    (start = none ∧ pending = .legacy ∧ newer = .legacy) ∨
      ∃ boot first mid stop, start = some first ∧ pending = .positioned boot first mid ∧
        newer = .positioned boot mid stop := by
  unfold mergedStart at h
  split at h
  · cases h
    exact .inl ⟨rfl, rfl, rfl⟩
  · rename_i boot first mid nextBoot nextStart stop
    split_ifs at h with heq
    cases h
    obtain ⟨rfl, rfl⟩ := heq
    exact .inr ⟨boot, first, mid, stop, rfl, rfl, rfl⟩
  · cases h

inductive Merges : EventItem → EventItem → Merge EventItem → Prop
  | latest (event newEvent : Event) :
      Merges (.latest event) (.latest newEvent) (.merged (.latest newEvent))
  | legacy {event newEvent : Event} {acc add : List UInt8} :
      terminalCursor event.data acc.length = .legacy →
      terminalCursor newEvent.data add.length = .legacy →
      Merges (.terminal event (some acc)) (.terminal newEvent (some add))
        (.merged (.terminal newEvent (some (acc ++ add))))
  | positioned {event newEvent : Event} {acc add : List UInt8} {boot : String}
      {start mid stop : ℕ} :
      terminalCursor event.data acc.length = .positioned boot start mid →
      terminalCursor newEvent.data add.length = .positioned boot mid stop →
      Merges (.terminal event (some acc)) (.terminal newEvent (some add)) (.merged (.terminal
          { newEvent with data := newEvent.data.insert "startOffset" (.str start.repr) }
          (some (acc ++ add))))
  | undecodable (event newEvent : Event) {bytes newBytes : Option (List UInt8)} :
      bytes = none ∨ newBytes = none → Merges (.terminal event bytes) (.terminal newEvent newBytes)
        (.refused (.terminal newEvent none))
  | untouched (pending newer : EventItem) : Merges pending newer (.refused newer)

theorem merges_terminal (event newEvent : Event) (acc add : List UInt8) :
    ∃ m, merge (.terminal event (some acc)) (.terminal newEvent (some add)) = some m ∧
      Merges (.terminal event (some acc)) (.terminal newEvent (some add)) m := by
  rw [merge]
  split_ifs with hcap
  · exact ⟨_, rfl, .untouched _ _⟩
  · cases hs : mergedStart (terminalCursor event.data acc.length)
        (terminalCursor newEvent.data add.length) with
    | none => exact ⟨_, rfl, .untouched _ _⟩
    | some start =>
      rcases mergedStart_eq_some hs with
        ⟨rfl, hp, hn⟩ | ⟨boot, first, mid, stop, rfl, hp, hn⟩
      · exact ⟨_, rfl, .legacy hp hn⟩
      · have hr := rewriteStart_of_cursor hn first
        exact ⟨_, by simp only [hr]; rfl, .positioned hp hn⟩

/-- A merge never panics, and does one of these. -/
theorem merge_spec (pending newer : EventItem) :
    ∃ m, merge pending newer = some m ∧ Merges pending newer m := by
  cases pending with
  | latest event =>
    cases newer with
    | latest newEvent => exact ⟨_, rfl, .latest event newEvent⟩
    | terminal newEvent add => exact ⟨_, rfl, .untouched _ _⟩
  | terminal event bytes =>
    cases newer with
    | latest newEvent => cases bytes <;> exact ⟨_, rfl, .untouched _ _⟩
    | terminal newEvent newBytes =>
      cases bytes with
      | none => cases newBytes <;> exact ⟨_, rfl, .undecodable event newEvent (.inl rfl)⟩
      | some acc =>
        cases newBytes with
        | none => exact ⟨_, rfl, .undecodable event newEvent (.inr rfl)⟩
        | some add => exact merges_terminal event newEvent acc add

theorem merges_of_merge {pending newer : EventItem} {m : Merge EventItem}
    (h : Conflate.merge pending newer = some m) : Merges pending newer m := by
  obtain ⟨m', hm', hm⟩ := merge_spec pending newer
  change merge pending newer = some m at h
  rw [hm', Option.some.injEq] at h
  exact h ▸ hm

instance : LawfulConflate EventItem where
  merge_isSome := by
    intro pending newer
    obtain ⟨m, hm, -⟩ := merge_spec pending newer
    change (merge pending newer).isSome = true
    rw [hm]
    rfl
  merged_cost_le := by
    intro pending newer merged h
    change merged.cost ≤ pending.cost + newer.cost
    cases merges_of_merge h with
    | latest => exact Nat.le_add_left _ _
    | legacy | positioned => simp [cost]

/-! ## What an item was made from -/

variable [Base64]

/-- The arrivals an item of a key was made from. A single event keeps its data;
a merge of output runs on from what was merged before. -/
inductive Built : Key → List Arrival → EventItem → Prop
  | latest {k : Key} (as : List Arrival) (a : Arrival) : (∀ w t, k ≠ .terminal w t) →
      Built k (as ++ [a]) (.latest a.event)
  | single {w t : String} (a : Arrival) {bytes : Option (List UInt8)} :
      bytes = none ∨ bytes = chunkBytes a.event.data →
      Built (.terminal w t) [a] (.terminal a.event bytes)
  | legacy {w t : String} {as : List Arrival} {a : Arrival} {event : Event}
      {acc add : List UInt8} : Built (.terminal w t) as (.terminal event (some acc)) →
      chunkBytes a.event.data = some add → terminalCursor event.data acc.length = .legacy →
      terminalCursor a.event.data add.length = .legacy →
      Built (.terminal w t) (as ++ [a]) (.terminal a.event (some (acc ++ add)))
  | positioned {w t : String} {as : List Arrival} {a : Arrival} {event : Event}
      {acc add : List UInt8} {boot : String} {start mid stop : ℕ} :
      Built (.terminal w t) as (.terminal event (some acc)) → chunkBytes a.event.data = some add →
      terminalCursor event.data acc.length = .positioned boot start mid →
      terminalCursor a.event.data add.length = .positioned boot mid stop →
      Built (.terminal w t) (as ++ [a])
        (.terminal { a.event with data := a.event.data.insert "startOffset" (.str start.repr) }
          (some (acc ++ add)))

theorem Arrival.item_terminal {w t : String} (h : a.key = .terminal w t) :
    a.item = .terminal a.event (chunkBytes a.event.data) := by
  rw [item, h]
  rfl

theorem Arrival.item_latest (h : ∀ w t, a.key ≠ .terminal w t) : a.item = .latest a.event := by
  unfold item EventItem.new
  split
  · rename_i w t hkey
    exact absurd hkey (h w t)
  · rfl

theorem built_single (a : Arrival) : Built a.key [a] a.item := by
  by_cases h : ∃ w t, a.key = .terminal w t
  · obtain ⟨w, t, hkey⟩ := h
    rw [Arrival.item_terminal hkey, hkey]
    exact .single a (.inr rfl)
  · simp only [not_exists] at h
    rw [Arrival.item_latest h]
    exact .latest [] a h

theorem built_merged {as : List Arrival} (hx : Built a.key as x)
    (hm : Merges x a.item (.merged y)) : Built a.key (as ++ [a]) y := by
  generalize hit : a.item = item at hm
  by_cases h : ∃ w t, a.key = .terminal w t
  · obtain ⟨w, t, hkey⟩ := h
    rw [hkey] at hx ⊢
    rw [Arrival.item_terminal hkey] at hit
    cases hm with
    | latest => cases hit
    | legacy hacc hadd =>
      obtain ⟨rfl, hc⟩ := terminal.inj hit
      exact .legacy hx hc hacc hadd
    | positioned hacc hadd =>
      obtain ⟨rfl, hc⟩ := terminal.inj hit
      exact .positioned hx hc hacc hadd
  · simp only [not_exists] at h
    rw [Arrival.item_latest h] at hit
    subst hit
    cases hm
    exact .latest as a h

theorem built_refused (hm : Merges x a.item (.refused y)) : Built a.key [a] y := by
  generalize hit : a.item = item at hm
  cases hm with
  | undecodable event newEvent hn =>
    by_cases h : ∃ w t, a.key = .terminal w t
    · obtain ⟨w, t, hkey⟩ := h
      rw [Arrival.item_terminal hkey] at hit
      obtain ⟨rfl, -⟩ := terminal.inj hit
      rw [hkey]
      exact .single a (.inl rfl)
    · simp only [not_exists] at h
      rw [Arrival.item_latest h] at hit
      cases hit
  | untouched =>
    rw [← hit]
    exact built_single a

theorem composes_built : Composes Arrival.key Arrival.item Built where
  single := built_single
  merged := fun hx hm => built_merged hx (merges_of_merge hm)
  refused := fun _ hm => built_refused (merges_of_merge hm)

theorem sentEvent_decoded (event : Event) :
    (terminal event (chunkBytes event.data)).sentEvent = event := by
  cases hb : chunkBytes event.data with
  | none => rfl
  | some bytes =>
    obtain ⟨text, ht, hd⟩ := Option.bind_eq_some_iff.mp hb
    have hget := Json.strField_eq_some.mp ht
    rw [sentEvent, (Base64.decode_eq_some _ _).mp hd, Json.insert_of_get hget]

theorem Arrival.sentEvent_item (a : Arrival) : a.item.sentEvent = a.event := by
  unfold item EventItem.new
  split
  · exact sentEvent_decoded a.event
  · rfl

end Intentd.EventConflation
