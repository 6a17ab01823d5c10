import Intentd.EventConflation

/-!
# Terminal output survives conflation

The frames of a terminal are read off what their items were made from. Their
content is the content of the accepted events in arrival order, byte for byte,
with an undecodable chunk kept whole in its place. A frame merged from positioned
events covers their ranges exactly, and an item that the buffer hands back makes
the frame it would have made on its own.
-/
namespace Intentd.TerminalOutput
open JsonValues ConflationBuffer EventConflation GroupedLists List EventItem

variable [Base64]

/-- The content of an event's chunk: its bytes, or the chunk itself as one
opaque token where it does not decode. -/
def content (data : Json) : List (UInt8 ⊕ Option Json) :=
  match chunkBytes data with
  | some bytes => bytes.map .inl
  | none => [.inr (data.get "chunk")]

def frameData (frame : Json) : Json :=
  ((((frame.get "params").bind (·.get "event")).bind (·.get "data")).getD .null)

@[simp] theorem frameData_intoFrame (item : EventItem) (subscriptionId : String) :
    frameData (item.intoFrame subscriptionId) = item.sentEvent.data := by
  simp [frameData, intoFrame, buildEventNotification, Json.get, Fields.get]

/-- The events are one run of output of one boot, from `start` to `stop`. -/
def Covers (boot : String) : List Arrival → ℕ → ℕ → Prop
  | [], start, stop => start = stop
  | a :: as, start, stop => ∃ bytes mid, chunkBytes a.event.data = some bytes ∧
      terminalCursor a.event.data bytes.length = .positioned boot start mid ∧
      Covers boot as mid stop

def Cursorless (as : List Arrival) : Prop :=
  ∀ a ∈ as, ∀ byteLen, terminalCursor a.event.data byteLen = .legacy

/-- What a frame says about the events it was made from. A merge of two or more
is a merge of cursorless output, or it covers their ranges in one boot and its
own offsets are as far apart as its bytes are many. -/
structure Carries (subscriptionId : String) (as : List Arrival) (frame : Json) : Prop where
  content_eq : content (frameData frame) = as.flatMap fun a => content a.event.data
  alone : ∀ a, as = [a] → frame = a.item.intoFrame subscriptionId
  merged : 2 ≤ as.length → Cursorless as ∨ ∃ boot start stop bytes, Covers boot as start stop ∧
      chunkBytes (frameData frame) = some bytes ∧
      terminalCursor (frameData frame) bytes.length = .positioned boot start stop ∧
      stop - start = bytes.length

variable {boot : String} {as : List Arrival} {start mid stop : ℕ} {data : Json}
  {bytes acc add : List UInt8} {a : Arrival} {event : Event} {k : Key} {x : EventItem}

theorem Covers.append {bs : List Arrival} (h : Covers boot as start mid)
    (h' : Covers boot bs mid stop) : Covers boot (as ++ bs) start stop := by
  induction as generalizing start with
  | nil =>
    rw [show start = mid from h]
    exact h'
  | cons a as ih =>
    obtain ⟨bytes, next, hb, hc, hr⟩ := h
    exact ⟨bytes, next, hb, hc, ih hr⟩

theorem content_of_chunkBytes (h : chunkBytes data = some bytes) :
    content data = bytes.map .inl := by
  rw [content, h]

/-- What the decoded output of an item says about the events it was made from. -/
structure Joined (as : List Arrival) (event : Event) (bytes : List UInt8) : Prop where
  chunk : ∃ old, event.data.get "chunk" = some old
  content_eq : (as.flatMap fun a => content a.event.data) = bytes.map .inl
  covers : ∀ {boot start stop},
    terminalCursor event.data bytes.length = .positioned boot start stop → Covers boot as start stop
  cursorless : terminalCursor event.data bytes.length = .legacy → Cursorless as

theorem get_chunk_of_chunkBytes (h : chunkBytes data = some bytes) :
    ∃ old, data.get "chunk" = some old := by
  obtain ⟨text, ht, -⟩ := Option.bind_eq_some_iff.mp h
  exact ⟨_, Json.strField_eq_some.mp ht⟩

theorem joined_single (h : chunkBytes a.event.data = some bytes) : Joined [a] a.event bytes where
  chunk := get_chunk_of_chunkBytes h
  content_eq := by simp [content_of_chunkBytes h]
  covers := fun hc => ⟨bytes, _, h, hc, rfl⟩
  cursorless := by
    intro hl b hb byteLen
    rw [mem_singleton.mp hb]
    exact terminalCursor_eq_legacy.mpr (terminalCursor_eq_legacy.mp hl)

theorem Joined.legacy (h : Joined as event acc) (hc : chunkBytes a.event.data = some add)
    (hacc : terminalCursor event.data acc.length = .legacy)
    (hadd : terminalCursor a.event.data add.length = .legacy) :
    Joined (as ++ [a]) a.event (acc ++ add) where
  chunk := get_chunk_of_chunkBytes hc
  content_eq := by simp [h.content_eq, content_of_chunkBytes hc]
  covers := by
    intro boot start stop hcu
    rw [terminalCursor_eq_legacy.mpr (terminalCursor_eq_legacy.mp hadd)] at hcu
    cases hcu
  cursorless _ := forall_mem_append.mpr ⟨h.cursorless hacc, (joined_single hc).cursorless hadd⟩

theorem Joined.positioned (h : Joined as event acc) (hch : chunkBytes a.event.data = some add)
    (hacc : terminalCursor event.data acc.length = .positioned boot start mid)
    (hadd : terminalCursor a.event.data add.length = .positioned boot mid stop) :
    Joined (as ++ [a]) { a.event with data := a.event.data.insert "startOffset" (.str start.repr) }
      (acc ++ add) := by
  have hc := terminalCursor_merged hacc hadd
  rw [← length_append] at hc
  refine ⟨?_, by simp [h.content_eq, content_of_chunkBytes hch], ?_, ?_⟩
  · obtain ⟨old, hold⟩ := get_chunk_of_chunkBytes hch
    exact ⟨old, (Json.get_insert_ne (by decide)).trans hold⟩
  · intro boot' start' stop' hc'
    obtain ⟨rfl, rfl, rfl⟩ := TerminalCursor.positioned.inj (hc.symm.trans hc')
    exact (h.covers hacc).append ((joined_single hch).covers hadd)
  · intro hl
    rw [hc] at hl
    cases hl

theorem joined_of_built (h : Built k as x) (hx : x = .terminal event (some bytes)) :
    Joined as event bytes := by
  induction h generalizing event bytes with
  | latest => cases hx
  | single a hb =>
    obtain ⟨rfl, rfl⟩ := terminal.inj hx
    rcases hb with hn | hc
    · cases hn
    · exact joined_single hc.symm
  | legacy _ hc hacc hadd ih =>
    cases hx
    exact (ih rfl).legacy hc hacc hadd
  | positioned _ hc hacc hadd ih =>
    cases hx
    exact (ih rfl).positioned hc hacc hadd

theorem sentEvent_data (h : Joined as event bytes) :
    chunkBytes (terminal event (some bytes)).sentEvent.data = some bytes ∧
      ∀ byteLen, terminalCursor (terminal event (some bytes)).sentEvent.data byteLen =
        terminalCursor event.data byteLen := by
  constructor
  · obtain ⟨old, hold⟩ := h.chunk
    have hc : (event.data.insert "chunk" (.str (Base64.encode bytes))).strField "chunk" =
        some (Base64.encode bytes) := Json.strField_eq_some.mpr (Json.get_insert_of_get hold)
    rw [chunkBytes, sentEvent, hc]
    exact (Base64.decode_eq_some _ _).mpr rfl
  · intro byteLen
    exact terminalCursor_insert_chunk _ _ _

theorem Joined.carries (h : Joined as event bytes) (hm : 2 ≤ as.length)
    (hcu : terminalCursor event.data bytes.length = .legacy ∨
      ∃ boot start stop, terminalCursor event.data bytes.length = .positioned boot start stop)
    (subscriptionId : String) :
    Carries subscriptionId as ((terminal event (some bytes)).intoFrame subscriptionId) := by
  obtain ⟨hc, hs⟩ := sentEvent_data h
  refine ⟨?_, ?_, ?_⟩
  · rw [frameData_intoFrame, content_of_chunkBytes hc, h.content_eq]
  · intro a ha
    rw [ha, length_singleton] at hm
    omega
  · intro _
    rcases hcu with hl | ⟨boot, start, stop, hpos⟩
    · exact .inl (h.cursorless hl)
    · have hlen := (terminalCursor_eq_positioned.mp hpos).2.2.2
      exact .inr ⟨boot, start, stop, bytes, h.covers hpos, hc, (hs _).trans hpos, by omega⟩

theorem ne_nil_of_built (h : Built k as x) : as ≠ [] := by
  cases h <;> simp

omit [Base64] in
theorem two_le_length (a : Arrival) (h : as ≠ []) : 2 ≤ (as ++ [a]).length := by
  have hpos := length_pos_iff.mpr h
  rw [length_append, length_singleton]
  omega

theorem sentEvent_of_built_single (h : Built k as x) (has : as = [a]) : x.sentEvent = a.event := by
  cases h with
  | latest bs b =>
    obtain ⟨-, hb⟩ := append_inj' (show bs ++ [b] = [] ++ [a] from has) rfl
    rw [singleton_inj.mp hb]
    rfl
  | single b hby =>
    rw [← singleton_inj.mp has]
    rcases hby with rfl | rfl
    · rfl
    · exact sentEvent_decoded b.event
  | legacy hbu | positioned hbu =>
    exact absurd (two_le_length _ (ne_nil_of_built hbu)) (by rw [has]; simp)

theorem carries_of_built {w t : String} (h : Built (.terminal w t) as x) (subscriptionId : String) :
    Carries subscriptionId as (x.intoFrame subscriptionId) := by
  cases h with
  | latest as a hne => exact absurd rfl (hne w t)
  | @single _ _ a bytes hby =>
    have hs := sentEvent_of_built_single (Built.single a hby (w := w) (t := t)) rfl
    refine ⟨by simp [hs], ?_, by simp⟩
    intro b hb
    cases hb
    rw [intoFrame, hs, intoFrame, Arrival.sentEvent_item]
  | legacy hbu hc hacc hadd =>
    have hj := joined_of_built (.legacy hbu hc hacc hadd) rfl
    refine hj.carries (two_le_length _ (ne_nil_of_built hbu)) (.inl ?_) subscriptionId
    exact terminalCursor_eq_legacy.mpr (terminalCursor_eq_legacy.mp hadd)
  | positioned hbu hc hacc hadd =>
    have hj := joined_of_built (.positioned hbu hc hacc hadd) rfl
    have hcu := terminalCursor_merged hacc hadd
    rw [← length_append] at hcu
    exact hj.carries (two_le_length _ (ne_nil_of_built hbu)) (.inr ⟨_, _, _, hcu⟩) subscriptionId

/-- The frames of a key: those already handed out, then the pending ones. -/
def frames (h : History EventItem Arrival) (key : Key) (subscriptionId : String) : List Json :=
  ((h.popped.filter fun x => x.1 = key).map Prod.snd ++ (h.buffer.of key).map Entry.item).map
    fun item => item.intoFrame subscriptionId

def acceptedOf (h : History EventItem Arrival) (key : Key) : List Arrival :=
  h.accepted.filter fun a => a.key = key

/-- For every terminal, whatever else is conflated with it and however pushes and
pops interleave, the frames carry the content of the accepted events in arrival
order, each frame from consecutive events; and what is handed back makes the
frame of its own event. -/
theorem terminal_output_survives (maxEntries maxBytes : ℕ) (ops : List (Op Arrival))
    (subscriptionId : String) :
    ∃ h : History EventItem Arrival,
      (History.start maxEntries maxBytes).run Arrival.key Arrival.item ops = some h ∧
      (∀ workspace terminal, (frames h (.terminal workspace terminal) subscriptionId).flatMap
            (fun frame => content (frameData frame)) =
          (acceptedOf h (.terminal workspace terminal)).flatMap (fun a => content a.event.data) ∧
        Composed (Carries subscriptionId) (acceptedOf h (.terminal workspace terminal))
          (frames h (.terminal workspace terminal) subscriptionId)) ∧
      ∀ (a : Arrival) (item : EventItem) (b : Buffer EventItem),
        h.buffer.push a.key a.item = some (some item, b) →
        item.intoFrame subscriptionId = a.item.intoFrame subscriptionId := by
  obtain ⟨h, hrun, hk⟩ :=
    (History.kept_start maxEntries maxBytes).run composes_built ops
  refine ⟨h, hrun, ?_, ?_⟩
  · intro workspace terminal
    have hc : Composed (Carries subscriptionId) (acceptedOf h (.terminal workspace terminal))
        (frames h (.terminal workspace terminal) subscriptionId) :=
      (hk.accounts _).map fun as x hx => carries_of_built hx subscriptionId
    exact ⟨hc.flatMap_eq fun as frame hf => hf.content_eq, hc⟩
  · intro a item b hpu
    obtain ⟨r, b', hp', hp⟩ := hk.sound.push a.key a.item
    obtain ⟨rfl, rfl⟩ := Prod.mk.inj (Option.some.inj (hp'.symm.trans hpu))
    obtain ⟨-, hb⟩ := composes_built.handedBack hk.accounts hp
    rw [intoFrame, intoFrame, sentEvent_of_built_single hb rfl, Arrival.sentEvent_item]

end Intentd.TerminalOutput
