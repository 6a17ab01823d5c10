import Intentd.ChatConflation
import Intentd.EventConflation

/-!
# The limits of the conflation buffer

The byte limit is checked against the item offered, before a merge is tried. A
merge adds no more than was checked, and a refused chat item or latest-wins event
comes back as it was. Terminal output does not: behind a pending chunk that did
not decode, a decodable one comes back without its bytes and is charged for its
whole payload, which was never checked. That is the only way past the limit.
-/
namespace Intentd.ConflationBounds
open ConflationBuffer EventConflation ChatConflation FoldedRuns

structure Good {T : Type} [Conflate T] (b : Buffer T) : Prop where
  sound : b.Sound
  bounded : b.Bounded

/-- Decodable output is about to be appended behind an undecodable pending chunk of
its terminal: its bytes fit, its payload does not. -/
def Overcharges (b : Buffer EventItem) : Op (Key × EventItem) → Prop
  | .pop => False
  | .push (key, item) => ∃ before e after event newEvent bytes,
      b.Located key before e after ∧ e.item = .terminal event none ∧
      item = .terminal newEvent (some bytes) ∧ b.entries.length < b.maxEntries ∧
      b.cost + bytes.length ≤ b.maxBytes ∧ b.maxBytes < b.cost + approxSize newEvent.data

variable {key : Key}

section Generic
variable {T : Type} [Conflate T] {b b' : Buffer T} {item x : T} {r : Option T}

attribute [local simp] History.apply

theorem good_bounded (maxEntries maxBytes : ℕ) : Good (bounded maxEntries maxBytes : Buffer T) :=
  ⟨Buffer.sound_bounded _ _, Buffer.bounded_bounded _ _⟩

theorem Good.pop (h : Good b) : ∃ r b', b.pop = some (r, b') ∧ Good b' := by
  rcases h.sound.pop with ⟨-, hpop⟩ | ⟨e, entries, he, hpop⟩
  · exact ⟨_, _, hpop, h⟩
  · exact ⟨_, _, hpop, Buffer.sound_popped h.sound he, h.bounded.popped he⟩

theorem Good.pushed_iff [LawfulConflate T] (h : Good b) (hp : b.Pushed key item r b') :
    Good b' ↔ ∀ newer, b' = b.appended key newer → b.cost + Conflate.cost newer ≤ b.maxBytes := by
  rw [← Buffer.Bounded.pushed_iff h.sound h.bounded hp]
  exact ⟨fun hg => hg.bounded, fun hb => ⟨h.sound.pushed hp, hb⟩⟩

theorem appended_inj {y : T} (h : b.appended key x = b.appended key y) : x = y := by
  have he := congrArg Buffer.entries h
  obtain ⟨-, hl⟩ := List.append_inj' he rfl
  exact congrArg Entry.item (List.singleton_inj.mp hl)

theorem ne_appended_of_length (h : b'.entries.length = b.entries.length) :
    b' ≠ b.appended key x := by
  intro heq
  rw [heq, Buffer.appended, List.length_append, List.length_singleton] at h
  omega

theorem offered_of_appended {newer : T} (hp : b.Pushed key item r b')
    (h : b' = b.appended key newer) :
    b.Offered key item newer ∧ b.cost + Conflate.cost item ≤ b.maxBytes ∧
      b.entries.length < b.maxEntries := by
  cases hp with
  | overBytes | full => exact absurd h (ne_appended_of_length rfl)
  | appended hf ho hr =>
    rw [← appended_inj h]
    exact ⟨ho, hf, hr⟩
  | merged _ hloc =>
    refine absurd h (ne_appended_of_length ?_)
    simp [Buffer.mergedAt, hloc.split]

end Generic

theorem Good.push_event {b : Buffer EventItem} (h : Good b) (key : Key) (item : EventItem) :
    ∃ r b', b.push key item = some (r, b') ∧ (Good b' ↔ ¬Overcharges b (.push (key, item))) := by
  obtain ⟨r, b', hpus, hpu⟩ := h.sound.push key item
  refine ⟨r, b', hpus, ?_⟩
  rw [h.pushed_iff hpu]
  constructor
  · intro hfi hov
    obtain ⟨before, e, after, event, newEvent, bytes, hloc, he, rfl, hro, hco, hex⟩ := hov
    have hme : Conflate.merge e.item (.terminal newEvent (some bytes)) =
        some (.refused (.terminal newEvent none)) := by
      rw [he]
      rfl
    have hap : b' = b.appended key (.terminal newEvent none) := by
      cases hpu with
      | overBytes hby => exact absurd hby (not_lt.mpr hco)
      | full _ _ hfu => omega
      | appended _ hof =>
        cases hof with
        | fresh hno =>
          rw [hloc.of_eq] at hno
          simp at hno
        | refused hlo' hme' =>
          rw [← hloc.unique hlo', hme] at hme'
          cases hme'
          rfl
      | merged _ hlo' hme' =>
        rw [← hloc.unique hlo', hme] at hme'
        cases hme'
    exact absurd (hfi _ hap) (not_le.mpr hex)
  · intro hnot newer hap
    obtain ⟨hof, hfi, hro⟩ := offered_of_appended hpu hap
    cases hof with
    | fresh => exact hfi
    | @refused before e after _ hloc hme =>
      generalize hpe : e.item = pending at hme
      cases merges_of_merge hme with
      | untouched => exact hfi
      | @undecodable event newEvent bytes newBytes hno =>
        cases newBytes with
        | none => exact hfi
        | some add =>
          rcases hno with rfl | hno
          · by_contra hex
            exact hnot ⟨before, e, after, event, newEvent, add, hloc, hpe, rfl, hro,
              hfi, not_le.mp hex⟩
          · cases hno

theorem Good.push_chat {b : Buffer ChatItem} (h : Good b) (key : Key) (item : ChatItem) :
    ∃ r b', b.push key item = some (r, b') ∧ Good b' := by
  obtain ⟨r, b', hpu, hp⟩ := h.sound.push key item
  refine ⟨r, b', hpu, (h.pushed_iff hp).mpr ?_⟩
  intro newer ha
  obtain ⟨ho, hf, -⟩ := offered_of_appended hp ha
  cases ho with
  | fresh => exact hf
  | refused _ hm =>
    rw [refused_eq hm]
    exact hf

variable {T : Type} {b : Buffer T} {h : History T (Key × T)} {r : Option T}

theorem apply_push [Conflate T] {item : T} (hp : h.buffer.push key item = some (r, b)) :
    ∃ h', h.apply Prod.fst Prod.snd (.push (key, item)) = some h' ∧ h'.buffer = b := by
  cases r with
  | none => exact ⟨⟨b, h.accepted ++ [(key, item)], h.popped⟩, by simp [hp], rfl⟩
  | some x => exact ⟨⟨b, h.accepted, h.popped⟩, by simp [hp], rfl⟩

theorem apply_pop [Conflate T] (hpop : h.buffer.pop = some (r, b)) :
    ∃ h', h.apply Prod.fst Prod.snd .pop = some h' ∧ h'.buffer = b := by
  cases he : h.buffer.entries.head? with
  | none => exact ⟨⟨b, h.accepted, h.popped⟩, by simp [hpop, he], rfl⟩
  | some e =>
    cases r with
    | none => exact ⟨⟨b, h.accepted, h.popped⟩, by simp [hpop, he], rfl⟩
    | some x =>
      exact ⟨⟨b, h.accepted, h.popped ++ [(e.key, x)]⟩, by simp [hpop, he], rfl⟩

theorem apply_sound [Conflate T] [LawfulConflate T] (hs : h.buffer.Sound) (op : Op (Key × T)) :
    ∃ h', h.apply Prod.fst Prod.snd op = some h' ∧ h'.buffer.Sound := by
  cases op with
  | push a =>
    obtain ⟨r, b, hpu, hp⟩ := hs.push a.1 a.2
    obtain ⟨h', ha, hb⟩ := apply_push hpu
    rw [← hb] at hp
    exact ⟨h', ha, hs.pushed hp⟩
  | pop =>
    rcases hs.pop with ⟨-, hpop⟩ | ⟨e, entries, he, hpop⟩
    · obtain ⟨h', ha, hb⟩ := apply_pop hpop
      exact ⟨h', ha, by rw [hb]; exact hs⟩
    · obtain ⟨h', ha, hb⟩ := apply_pop hpop
      exact ⟨h', ha, by rw [hb]; exact Buffer.sound_popped hs he⟩

theorem apply_event {h : History EventItem (Key × EventItem)} (hg : Good h.buffer)
    (op : Op (Key × EventItem)) :
    ∃ h', h.apply Prod.fst Prod.snd op = some h' ∧ (Good h'.buffer ↔ ¬Overcharges h.buffer op) := by
  cases op with
  | pop =>
    obtain ⟨r, b, hpop, hg'⟩ := hg.pop
    obtain ⟨h', ha, hb⟩ := apply_pop hpop
    rw [← hb] at hg'
    exact ⟨h', ha, fun _ ho => ho, fun _ => hg'⟩
  | push a =>
    obtain ⟨r, b, hp, hiff⟩ := hg.push_event a.1 a.2
    obtain ⟨h', ha, hb⟩ := apply_push hp
    rw [← hb] at hiff
    exact ⟨h', ha, hiff⟩

theorem apply_chat (h : History ChatItem (Key × ChatItem)) (op : Op (Key × ChatItem))
    (hg : Good h.buffer) : ∃ h', h.apply Prod.fst Prod.snd op = some h' ∧ Good h'.buffer := by
  cases op with
  | pop =>
    obtain ⟨r, b, hpop, hg'⟩ := hg.pop
    obtain ⟨h', ha, hb⟩ := apply_pop hpop
    rw [← hb] at hg'
    exact ⟨h', ha, hg'⟩
  | push a =>
    obtain ⟨r, b, hp, hg'⟩ := hg.push_chat a.1 a.2
    obtain ⟨h', ha, hb⟩ := apply_push hp
    rw [← hb] at hg'
    exact ⟨h', ha, hg'⟩

theorem apply_event_iff (h : History EventItem (Key × EventItem)) (op : Op (Key × EventItem))
    (hs : h.buffer.Sound) :
    ∃ h', h.apply Prod.fst Prod.snd op = some h' ∧ h'.buffer.Sound ∧
      (Good h.buffer → (Good h'.buffer ↔ ¬Overcharges h.buffer op)) := by
  obtain ⟨h', ha, hs'⟩ := apply_sound hs op
  refine ⟨h', ha, hs', fun hg => ?_⟩
  obtain ⟨h'', ha', hiff⟩ := apply_event hg op
  rw [ha] at ha'
  cases ha'
  exact hiff

/-- Under any limits, a run of pushes and pops of event items keeps the bookkeeping
and the limits in every state exactly when no step overcharges; a run of chat items
always does. No operation panics. -/
theorem buffer_keeps_limits_iff (maxEntries maxBytes : ℕ) : (∀ ops : List (Op (Key × EventItem)),
      (∀ before after, ops = before ++ after →
        ∃ h, (History.start maxEntries maxBytes).run Prod.fst Prod.snd before = some h ∧
          Good h.buffer) ↔ ∀ before op after, ops = before ++ op :: after →
        ∀ h, (History.start maxEntries maxBytes).run Prod.fst Prod.snd before = some h →
          ¬Overcharges h.buffer op) ∧ ∀ ops : List (Op (Key × ChatItem)),
      ∃ h, (History.start maxEntries maxBytes).run Prod.fst Prod.snd ops = some h ∧
        Good h.buffer := by
  constructor
  · apply states_iff_steps apply_event_iff
    · exact Buffer.sound_bounded maxEntries maxBytes
    · exact good_bounded maxEntries maxBytes
  · intro ops
    exact run_invariant apply_chat (good_bounded maxEntries maxBytes) ops

def output (chunk : String) : Event :=
  ⟨"e", "w", "t", terminalData, .null, none, .obj [("terminalId", .str "t"), ("chunk", .str chunk)]⟩

attribute [local instance] sample

/-- An undecodable chunk and then three bytes, under a limit of fifty: the second
push passes the check with three and is charged forty-four. -/
theorem undecodable_chunk_breaks_limit : ∃ h, (History.start 2 50).run Prod.fst Prod.snd
        [.push (.terminal "w" "t", EventItem.new (.terminal "w" "t") (output "!")),
          .push (.terminal "w" "t", EventItem.new (.terminal "w" "t") (output "AAAA"))] = some h ∧
      eventKey (output "!") = some (.terminal "w" "t") ∧
      eventKey (output "AAAA") = some (.terminal "w" "t") ∧
      h.buffer.cost = 85 ∧ ¬Good h.buffer := by
  have hbad : Base64.decode "!" = none := by
    refine Option.eq_none_iff_forall_ne_some.mpr fun bytes hd => ?_
    have ht := (Base64.decode_eq_some _ _).mp hd
    change sampleText bytes = "!" at ht
    unfold sampleText at ht
    split_ifs at ht
    · exact absurd ht (by decide)
    · simpa using congrArg String.toList ht
  have hgood : Base64.decode "AAAA" = some [0, 0, 0] := (Base64.decode_eq_some _ _).mpr rfl
  have h1 : EventItem.new (.terminal "w" "t") (output "!") = .terminal (output "!") none :=
    congrArg (EventItem.terminal _) hbad
  have h2 : EventItem.new (.terminal "w" "t") (output "AAAA") =
      .terminal (output "AAAA") (some [0, 0, 0]) :=
    congrArg (EventItem.terminal _) hgood
  rw [h1, h2]
  refine ⟨_, rfl, rfl, rfl, rfl, ?_⟩
  intro hg
  have hb : 85 ≤ 50 := hg.bounded.bytes
  omega

end Intentd.ConflationBounds
