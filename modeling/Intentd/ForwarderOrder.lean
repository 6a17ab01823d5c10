import Intentd.EventForwarder
import Intentd.TerminalOutput

/-!
# The order of the forwarder's frames around barriers

A run is cut at the events that are not conflatable. Between two cuts the items
that left the buffer, by whichever path, and the pending ones account for the
arrivals; a cut drains the buffer first, so nothing crosses it. The open stretch
is the invariant of one input, and the closed ones only pile up.
-/
namespace Intentd.ForwarderOrder
open JsonValues ConflationBuffer EventConflation TerminalOutput EventForwarder
  GroupedLists List Settings
open MachineWords

/-! ## Items keep the key they were accepted under -/

theorem eventKey_rewritten (event : Event) (value : Json) :
    eventKey { event with data := event.data.insert "startOffset" value } = eventKey event := by
  have hf : ∀ key, key ≠ "startOffset" →
      (event.data.insert "startOffset" value).strField key = event.data.strField key := by
    intro key hkey
    rw [Json.strField, Json.get_insert_ne hkey, Json.strField]
  simp only [eventKey, hf "agentId" (by decide), hf "terminalId" (by decide), hf "path" (by decide)]

variable {x newer y : EventItem} {event : Event} {k : Key}

theorem eventKey_of_merged (h : Merges x newer (.merged y)) :
    eventKey y.event = eventKey newer.event := by
  cases h with
  | latest => rfl
  | legacy => rfl
  | positioned => exact eventKey_rewritten _ _

theorem event_of_refused (h : Merges x newer (.refused y)) : y.event = newer.event := by
  cases h <;> rfl

section Forwarding

variable [Base64]

theorem event_item (a : Arrival) : a.item.event = a.event := by
  unfold Arrival.item EventItem.new
  split <;> rfl

/-- What an item was made from, together with the key its event has. -/
def Keyed (k : Key) (as : List Arrival) (x : EventItem) : Prop :=
  Built k as x ∧ eventKey x.event = some k

theorem composes_keyed : Composes Arrival.key Arrival.item Keyed where
  single := fun a => ⟨built_single a, by rw [event_item, a.keyed]⟩
  merged := by
    intro as a x y hx hme
    have hm := merges_of_merge hme
    refine ⟨built_merged hx.1 hm, ?_⟩
    rw [eventKey_of_merged hm, event_item, a.keyed]
  refused := by
    intro as a x y _ hme
    have hm := merges_of_merge hme
    refine ⟨built_refused hm, ?_⟩
    rw [event_of_refused hm, event_item, a.keyed]

omit [Base64] in
theorem projects_of_key (h : eventKey event = some k) : projects event = false := by
  unfold eventKey at h
  split_ifs at h with ha ht hf
  · rw [projects, ha]
    decide
  · rw [projects, ht]
    decide
  · unfold filePrefixed at hf
    unfold projects
    cases hch : event.eventType.toList with
    | nil => simp [hch] at hf
    | cons c rest =>
      have hc : c = 'f' := by
        simp [hch] at hf
        exact hf.1.symm
      have hne : event.eventType ≠ "presence:changed" := by
        intro heq
        rw [heq] at hch
        simp at hch
        rw [hc] at hch
        exact absurd hch.1 (by decide)
      simp [hc, hne, List.isPrefixOf]

/-! ## One stretch between barriers -/

def sentItems (f : Forwarder) : List EventItem :=
  f.sent.filterMap fun
    | .event item => some item
    | .control _ => none

/-- The stretch since the last barrier: `base` was sent before it, `left` since,
and the items that left and the pending ones account for the arrivals. -/
structure Open (base : List EventItem) (arrived : List Arrival) (left : List (Key × EventItem))
    (f : Forwarder) : Prop where
  sound : f.buffer.Sound
  accounts : Accounts Arrival.key Keyed f.buffer arrived left
  items_eq : sentItems f = base ++ left.map Prod.snd

/-- The forwarder is as `f` but for its buffer and what it has sent. -/
structure Same (f f' : Forwarder) : Prop where
  taken : f'.taken = f.taken
  returned : f'.returned = f.returned

variable {s : Settings} {f f' : Forwarder} {base : List EventItem} {arrived : List Arrival}
  {left : List (Key × EventItem)}

omit [Base64] in
theorem sendItem_of_key (ha : ∀ e, s.allowed e = true) {item : EventItem}
    (h : eventKey item.event = some k) :
    s.sendItem f item = { f with sent := f.sent ++ [.event item] } := by
  have hp : s.projected item = some item := by
    cases item with
    | latest event => simp [projected, projects_of_key (show eventKey event = some k from h)]
    | terminal event bytes => rfl
  simp [sendItem, hp, ha]

omit [Base64] in
theorem items_send (f : Forwarder) (item : EventItem) :
    sentItems { f with sent := f.sent ++ [.event item] } = sentItems f ++ [item] := by
  simp [sentItems]

theorem Open.popped (h : Open base arrived left f) {e : Entry EventItem}
    {entries : List (Entry EventItem)} (he : f.buffer.entries = e :: entries)
    (ha : ∀ e, s.allowed e = true) :
    Open base arrived (left ++ [(e.key, e.item)])
      (s.sendItem { f with buffer := f.buffer.popped e entries (f.buffer.cost - e.cost) }
        e.item) := by
  obtain ⟨as, -, hkey⟩ := h.accounts.exists_of_entry (show e ∈ f.buffer.entries by simp [he])
  rw [sendItem_of_key ha hkey]
  refine ⟨Buffer.sound_popped h.sound he, h.accounts.popped he _, ?_⟩
  rw [items_send, map_append, ← append_assoc, ← h.items_eq]
  rfl

omit [Base64] in
theorem same_sendItem (f : Forwarder) (item : EventItem) : Same f (s.sendItem f item) := by
  unfold sendItem
  split
  · exact ⟨rfl, rfl⟩
  · split_ifs <;> exact ⟨rfl, rfl⟩

omit [Base64] in
theorem Same.trans {f'' : Forwarder} (h : Same f f') (h' : Same f' f'') : Same f f'' :=
  ⟨h'.taken.trans h.taken, h'.returned.trans h.returned⟩

omit [Base64] in
theorem buffer_sendItem (f : Forwarder) (item : EventItem) :
    (s.sendItem f item).buffer = f.buffer := by
  unfold sendItem
  split
  · rfl
  · split_ifs <;> rfl

theorem Open.drainUpTo (h : Open base arrived left f) (ha : ∀ e, s.allowed e = true) {n : ℕ}
    (hn : f.buffer.entries.length < n) :
    ∃ f' left', s.drainUpTo n f = some f' ∧ Open base arrived left' f' ∧
      f'.buffer.entries = [] ∧ Same f f' := by
  induction n generalizing f left with
  | zero => omega
  | succ n ih =>
    rcases h.sound.pop with ⟨he, hpop⟩ | ⟨e, entries, hen, hpop⟩
    · exact ⟨f, left, by simp [drainUpTo, hpop], h, he, ⟨rfl, rfl⟩⟩
    · have hp := h.popped hen ha
      have hl : (s.sendItem { f with
          buffer := f.buffer.popped e entries (f.buffer.cost - e.cost) }
          e.item).buffer.entries.length < n := by
        rw [buffer_sendItem]
        rw [hen, length_cons] at hn
        simp only [Buffer.popped]
        omega
      obtain ⟨f', left', hd, ho, he, hsa⟩ := ih hp hl
      refine ⟨f', left', ?_, ho, he, ?_⟩
      · simpa [drainUpTo, hpop] using hd
      · have hs := same_sendItem (s := s)
          { f with buffer := f.buffer.popped e entries (f.buffer.cost - e.cost) } e.item
        exact Same.trans ⟨hs.taken, hs.returned⟩ hsa

theorem Open.drain (h : Open base arrived left f) (ha : ∀ e, s.allowed e = true) :
    ∃ f' left', s.drain f = some f' ∧ Open base arrived left' f' ∧ f'.buffer.entries = [] ∧
      Same f f' :=
  h.drainUpTo ha (Nat.lt_succ_self _)

/-- A conflatable event extends the open stretch, whichever way it goes. -/
theorem Open.conflatable (h : Open base arrived left f) (ha : ∀ e, s.allowed e = true)
    (a : Arrival) (room : Bool) :
    ∃ f' left', s.forwardEvent f a.event room = some f' ∧
      Open base (arrived ++ [a]) left' f' ∧ Same f f' := by
  have hit : EventItem.new a.key a.event = a.item := rfl
  unfold forwardEvent offer
  rw [a.keyed]
  simp only [hit]
  split_ifs with hr
  · have he : f.buffer.entries = [] := by
      simp only [Bool.and_eq_true, List.isEmpty_iff] at hr
      exact hr.1
    refine ⟨_, left ++ [(a.key, a.item)], rfl, ⟨h.sound, ?_, ?_⟩, ⟨rfl, rfl⟩⟩
    · exact h.accounts.sent he (composes_keyed.single a)
    · rw [items_send, map_append, ← append_assoc, ← h.items_eq]
      rfl
  · obtain ⟨r, b', hpu, hp⟩ := h.sound.push a.key a.item
    cases r with
    | none =>
      refine ⟨{ f with buffer := b' }, left, by simp [hpu], ⟨?_, ?_, h.items_eq⟩, ⟨rfl, rfl⟩⟩
      · exact h.sound.pushed hp
      · exact composes_keyed.accepted h.accounts hp
    | some x =>
      obtain ⟨rfl, hx⟩ := composes_keyed.handedBack h.accounts hp
      obtain ⟨f', left', hd, ho, he, hs⟩ := h.drain ha
      refine ⟨s.sendItem f' x, left' ++ [(a.key, x)], by simp [hpu, hd], ?_,
        hs.trans (same_sendItem f' x)⟩
      rw [sendItem_of_key ha hx.2]
      refine ⟨ho.sound, ho.accounts.sent he hx, ?_⟩
      rw [items_send, map_append, ← append_assoc, ← ho.items_eq]
      rfl

def arrivedOf (arrived : List Arrival) (k : Key) : List Arrival := arrived.filter fun a => a.key = k

def itemsOf (items : List EventItem) (k : Key) : List EventItem :=
  items.filter fun x => eventKey x.event = some k

/-- The items are exactly merges of the arrivals: every item is of a key, and key
by key it is made from consecutive arrivals, in order and leaving none out. A
terminal's item carries all of its arrivals' content; a latest-wins item is the
last of its arrivals, so the last one is the newest event of the key. -/
structure Conflates (subscriptionId : String) (arrived : List Arrival)
    (items : List EventItem) : Prop where
  keyed : ∀ x ∈ items, (eventKey x.event).isSome
  terminal : ∀ workspace terminal,
    Composed (fun as x => Carries subscriptionId as (x.intoFrame subscriptionId))
      (arrivedOf arrived (.terminal workspace terminal))
      (itemsOf items (.terminal workspace terminal))
  latest : ∀ k, (∀ workspace terminal, k ≠ .terminal workspace terminal) →
    Composed (fun as x => as.getLast?.map (fun a => EventItem.latest a.event) = some x)
      (arrivedOf arrived k) (itemsOf items k)
  newest : ∀ k, (∀ workspace terminal, k ≠ .terminal workspace terminal) →
      (itemsOf items k).getLast? =
      (arrivedOf arrived k).getLast?.map fun a => EventItem.latest a.event

theorem itemsOf_open (h : Open base arrived left f) (k : Key) :
    itemsOf (left.map Prod.snd ++ f.buffer.entries.map Entry.item) k =
      (left.filter fun x => x.1 = k).map Prod.snd ++ (f.buffer.of k).map Entry.item := by
  have hl : ∀ x ∈ left, eventKey x.2.event = some x.1 := by
    intro x hx
    obtain ⟨as, -, hkey⟩ := h.accounts.exists_of_left hx
    exact hkey
  have hp : ∀ e ∈ f.buffer.entries, eventKey e.item.event = some e.key := by
    intro e he
    obtain ⟨as, -, hkey⟩ := h.accounts.exists_of_entry he
    exact hkey
  rw [itemsOf, filter_append, filter_map, filter_map]
  congr 2
  · apply filter_congr
    intro x hx
    simp [hl x hx]
  · apply filter_congr
    intro e he
    simp [hp e he]

theorem latest_of_built (hk : ∀ w t, k ≠ .terminal w t) {as : List Arrival} (h : Built k as x) :
    as.getLast?.map (fun a => EventItem.latest a.event) = some x := by
  cases h with
  | latest as a => simp
  | single a | legacy | positioned => exact absurd rfl (hk _ _)

theorem Open.conflates (h : Open base arrived left f) (subscriptionId : String) :
    Conflates subscriptionId arrived (left.map Prod.snd ++ f.buffer.entries.map Entry.item) := by
  have hall : ∀ k, Composed (Keyed k) (arrivedOf arrived k)
      (itemsOf (left.map Prod.snd ++ f.buffer.entries.map Entry.item) k) := by
    intro k
    rw [itemsOf_open h]
    exact h.accounts k
  have hl : ∀ k, (∀ w t, k ≠ .terminal w t) →
      Composed (fun as x => as.getLast?.map (fun a => EventItem.latest a.event) = some x)
        (arrivedOf arrived k)
        (itemsOf (left.map Prod.snd ++ f.buffer.entries.map Entry.item) k) := by
    intro k hk
    exact (hall k).mono fun as x hx => latest_of_built hk hx.1
  refine ⟨?_, ?_, hl, ?_⟩
  · intro x hx
    rcases mem_append.mp hx with hx | hx
    · obtain ⟨y, hy, rfl⟩ := mem_map.mp hx
      obtain ⟨as, -, hkey⟩ := h.accounts.exists_of_left hy
      exact Option.isSome_iff_exists.mpr ⟨_, hkey⟩
    · obtain ⟨e, he, rfl⟩ := mem_map.mp hx
      obtain ⟨as, -, hkey⟩ := h.accounts.exists_of_entry he
      exact Option.isSome_iff_exists.mpr ⟨_, hkey⟩
  · intro workspace terminal
    exact (hall _).mono fun as x hx => carries_of_built hx.1 subscriptionId
  · intro k hk
    exact (hl k hk).getLast?_eq fun as x hx => hx

/-! ## Whole runs -/

structure Segment where
  arrived : List Arrival
  items : List EventItem
  barrier : Event

namespace Segment

def events (seg : Segment) : List Event := seg.arrived.map Arrival.event ++ [seg.barrier]

def sent (seg : Segment) : List EventItem := seg.items ++ [.latest seg.barrier]

/-- The barrier is not conflatable, and what was sent before it are merges of what
arrived before it. -/
structure Ordered (subscriptionId : String) (seg : Segment) : Prop where
  barrier : eventKey seg.barrier = none
  conflates : Conflates subscriptionId seg.arrived seg.items

end Segment

/-- The bus events of a run in which every event is allowed and nothing is
projected into something else. -/
structure Plain (s : Settings) (events : List Event) : Prop where
  allowed : ∀ e, s.allowed e = true
  kept : ∀ e ∈ events, s.withheld e = false
  forCaller : ∀ e ∈ events, s.forCaller e = e
  discussion : ∀ e ∈ events, projects e → s.discussionProjectEvent e = some e

/-- The taken events in closed stretches and an open one, with what was sent. -/
def Split (s : Settings) (f : Forwarder) : Prop :=
  ∃ (segments : List Segment) (arrived : List Arrival) (left : List (Key × EventItem)),
    Open (segments.flatMap Segment.sent) arrived left f ∧
    f.taken = segments.flatMap Segment.events ++ arrived.map Arrival.event ∧
    ∀ seg ∈ segments, seg.Ordered s.id

omit [Base64] in
theorem sendItem_barrier (ha : ∀ e, s.allowed e = true)
    (hd : projects event → s.discussionProjectEvent event = some event) :
    s.sendItem f (.latest event) = { f with sent := f.sent ++ [.event (.latest event)] } := by
  have hp : s.projected (.latest event) = some (.latest event) := by
    rw [projected]
    split_ifs with h
    · rw [hd h]
      rfl
    · rfl
  simp [sendItem, hp, ha]

theorem split_start : Split s start :=
  ⟨[], [], [], ⟨Buffer.sound_bounded _ _, accounts_empty rfl, rfl⟩, rfl, by simp⟩

theorem Split.drain (h : Split s f) (ha : ∀ e, s.allowed e = true) :
    ∃ f', s.drain f = some f' ∧ Split s f' ∧ Same f f' := by
  obtain ⟨segments, arrived, left, ho, ht, hs⟩ := h
  obtain ⟨f', left', hd, ho', -, hsa⟩ := ho.drain ha
  exact ⟨f', hd, ⟨segments, arrived, left', ho', hsa.taken.trans ht, hs⟩, hsa⟩

variable {events : List Event}

theorem Split.takeEvent (hpl : Plain s events) (h : Split s f) (hmem : event ∈ events)
    (room : Bool) :
    ∃ f', s.takeEvent f (event, room) = some f' ∧ Split s f' ∧
      f'.taken = f.taken ++ [event] ∧ f'.returned = f.returned := by
  obtain ⟨segments, arrived, left, hop, hta, hse⟩ := h
  have hcon : (s.withheld event || !s.allowed event) = false := by
    simp [hpl.kept event hmem, hpl.allowed]
  simp only [Settings.takeEvent, hcon, hpl.forCaller event hmem, Bool.false_eq_true, if_false]
  have hop' : Open (segments.flatMap Segment.sent) arrived left
      { f with taken := f.taken ++ [event] } := { hop with }
  cases hkey : eventKey event with
  | some k =>
    obtain ⟨f', left', hfo, hop'', hsa⟩ :=
      hop'.conflatable hpl.allowed ⟨event, k, hkey⟩ room
    refine ⟨f', hfo, ⟨segments, _, left', hop'', ?_, hse⟩, hsa.taken, hsa.returned⟩
    rw [hsa.taken, hta]
    simp
  | none =>
    -- the barrier closes the stretch with everything drained before it
    obtain ⟨f', left', hdr, hop'', hem, hsa⟩ := hop'.drain hpl.allowed
    have hco := hop''.conflates s.id
    rw [hem, map_nil, append_nil] at hco
    have hsen := sendItem_barrier (f := f') hpl.allowed (hpl.discussion event hmem)
    refine ⟨{ f' with sent := f'.sent ++ [.event (.latest event)] },
      by simp [Settings.forwardEvent, hkey, hdr, hsen],
      ⟨segments ++ [⟨arrived, left'.map Prod.snd, event⟩], [], [],
        ⟨hop''.sound, accounts_empty hem, ?_⟩, ?_, ?_⟩, hsa.taken, hsa.returned⟩
    · rw [items_send, hop''.items_eq]
      simp [Segment.sent]
    · rw [hsa.taken, hta]
      simp [Segment.events]
    · exact forall_mem_append.mpr ⟨hse, forall_mem_singleton.mpr ⟨hkey, hco⟩⟩

theorem Split.batch (hp : Plain s events) (h : Split s f)
    {taken : List (Event × Bool)} (hsub : ∀ e ∈ taken, e.1 ∈ events) :
    ∃ f', taken.foldlM s.takeEvent f = some f' ∧ Split s f' ∧
      f'.taken = f.taken ++ taken.map Prod.fst := by
  induction taken generalizing f with
  | nil => exact ⟨f, rfl, h, by simp⟩
  | cons e taken ih =>
    obtain ⟨f', hta, hf', ht, -⟩ := h.takeEvent hp (hsub e (by simp)) e.2
    obtain ⟨f'', hr, hf'', ht'⟩ := ih hf' fun e he => hsub e (mem_cons_of_mem _ he)
    exact ⟨f'', by simpa [hta] using hr, hf'', by simp [ht', ht]⟩

theorem Split.control (h : Split s f) (frame : Json) : Split s (Settings.control f frame) := by
  obtain ⟨segments, arrived, left, ho, ht, hs⟩ := h
  refine ⟨segments, arrived, left, { ho with items_eq := ?_ }, ht, hs⟩
  rw [← ho.items_eq]
  simp [sentItems, Settings.control]

theorem Split.returned (h : Split s f) : Split s { f with returned := true } := by
  obtain ⟨segments, arrived, left, ho, ht, hs⟩ := h
  exact ⟨segments, arrived, left, { ho with }, ht, hs⟩

theorem Split.loss (h : Split s f) (ha : ∀ e, s.allowed e = true) :
    ∃ f', s.loss f = some f' ∧ Split s f' ∧ f'.taken = f.taken := by
  unfold Settings.loss
  cases hg : checkedAdd f.generation 1 with
  | none => exact ⟨_, rfl, h.returned, rfl⟩
  | some generation =>
    obtain ⟨segments, arrived, left, ho, ht, hs⟩ := h
    have h' : Split s { f with generation := generation } :=
      ⟨segments, arrived, left, { ho with }, ht, hs⟩
    obtain ⟨f', hd, hf', hsa⟩ := h'.drain ha
    exact ⟨_, by simp [hd]; rfl, hf'.control _, hsa.taken⟩

def inputEvents : Input → List Event
  | .delivery (some (.batch events)) => events.map Prod.fst
  | _ => []

theorem Split.deliver (hp : Plain s events) (h : Split s f)
    {d : Option Delivery} (hsub : ∀ e ∈ inputEvents (.delivery d), e ∈ events) :
    ∃ f', s.deliver f d = some f' ∧ Split s f' ∧
      f'.taken = f.taken ++ inputEvents (.delivery d) := by
  obtain ⟨f', hd, hf', hs⟩ := h.drain hp.allowed
  have hn : f'.taken = f.taken ++ [] := by rw [append_nil, hs.taken]
  cases d with
  | none => exact ⟨_, by simp [Settings.deliver, hd], hf'.returned, hn⟩
  | some d =>
    cases d with
    | batch taken =>
      apply h.batch hp
      exact fun e he => hsub e.1 (mem_map_of_mem he)
    | fence => exact ⟨f', hd, hf', hn⟩
    | lagged =>
      simp only [Settings.deliver]
      split_ifs
      · obtain ⟨f'', hl, hf'', ht⟩ := h.loss hp.allowed
        exact ⟨f'', hl, hf'', by rw [ht]; exact (append_nil _).symm⟩
      · exact ⟨f, rfl, h, (append_nil _).symm⟩
    | historyChanged => exact ⟨f, rfl, h, (append_nil _).symm⟩
    | monitor output =>
      exact ⟨_, by simp [Settings.deliver, hd], hf'.control output, hn⟩

theorem Split.step (hp : Plain s events) (h : Split s f) {input : Input}
    (hsub : ∀ e ∈ inputEvents input, e ∈ events) : ∃ f', s.step f input = some f' ∧ Split s f' ∧
      f'.taken = if f.returned then f.taken else f.taken ++ inputEvents input := by
  unfold Settings.step
  split_ifs
  · exact ⟨f, rfl, h, rfl⟩
  · cases input with
    | delivery d => exact h.deliver hp hsub
    | drain =>
      obtain ⟨segments, arrived, left, ho, ht, hs⟩ := h
      rcases ho.sound.pop with ⟨hem, hpop⟩ | ⟨e, entries, he, hpop⟩
      · refine ⟨f, by simp [hpop], ⟨segments, arrived, left, ho, ht, hs⟩, ?_⟩
        exact (append_nil _).symm
      · have hpo := ho.popped he hp.allowed
        have hse : (s.sendItem { f with
            buffer := f.buffer.popped e entries (f.buffer.cost - e.cost) } e.item).taken =
            f.taken := (same_sendItem _ _).taken
        refine ⟨_, by simp [hpop], ⟨segments, arrived, _, hpo, ?_, hs⟩, ?_⟩
        · rw [hse, ht]
        · rw [hse]
          exact (append_nil _).symm

theorem run_returned (h : f.returned = true) (inputs : List Input) :
    inputs.foldlM s.step f = some f := by
  induction inputs with
  | nil => rfl
  | cons input inputs ih => simp [step, h, ih]

/-- A run takes the events of its inputs, all of them unless it returns. -/
theorem Split.run (hpl : Plain s events) (h : Split s f)
    {inputs : List Input} (hsub : ∀ e ∈ inputs.flatMap inputEvents, e ∈ events) :
    ∃ f', inputs.foldlM s.step f = some f' ∧ Split s f' ∧
      f'.taken <+: f.taken ++ inputs.flatMap inputEvents ∧
      (f'.returned = false → f'.taken = f.taken ++ inputs.flatMap inputEvents) := by
  induction inputs generalizing f with
  | nil => exact ⟨f, rfl, h, by simp, by simp⟩
  | cons input inputs ih =>
    cases hr : f.returned with
    | true =>
      refine ⟨f, run_returned hr _, h, prefix_append _ _, ?_⟩
      intro hf
      rw [hr] at hf
      cases hf
    | false =>
      obtain ⟨f', hs, hf', ht⟩ :=
        h.step hpl fun e he => hsub e (mem_append_left _ he)
      obtain ⟨f'', hrun, hf'', hp, hall⟩ :=
        ih hf' fun e he => hsub e (mem_append_right _ he)
      rw [hr] at ht
      simp only [Bool.false_eq_true, if_false] at ht
      rw [ht, append_assoc] at hp hall
      exact ⟨f'', by simpa [hs] using hrun, hf'', hp, hall⟩

/-- Every run splits into stretches between the events that are not conflatable.
Each of those is sent once and in bus order, behind everything of its stretch, and
the frames sent in a stretch are exactly merges of what arrived in it. In the last,
open stretch the pending items are counted with what was sent. -/
theorem forwarder_orders_around_barriers (s : Settings) (inputs : List Input)
    (hplain : Plain s (inputs.flatMap inputEvents)) :
    ∃ f, s.forward inputs = some f ∧ f.taken <+: inputs.flatMap inputEvents ∧
      (f.returned = false → f.taken = inputs.flatMap inputEvents) ∧
      ∃ (segments : List Segment) (arrived : List Arrival) (items : List EventItem),
        f.taken = segments.flatMap Segment.events ++ arrived.map Arrival.event ∧
        sentItems f = segments.flatMap Segment.sent ++ items ∧
        (∀ seg ∈ segments, seg.Ordered s.id) ∧
        Conflates s.id arrived (items ++ f.buffer.entries.map Entry.item) := by
  obtain ⟨f, hrun, hsp, hp, hall⟩ := (split_start (s := s)).run hplain fun e he => he
  obtain ⟨segments, arrived, left, ho, ht, hs⟩ := hsp
  exact ⟨f, hrun, hp, hall, segments, arrived, left.map Prod.snd, ht, ho.items_eq, hs,
    ho.conflates s.id⟩

end Forwarding

attribute [local instance] sample

/-- A subscription without gate or projection. -/
def openSettings : Settings where
  id := "sub"
  scope := none
  recovery := true
  hostRemovalControl := false
  principalId := none
  gated := false
  allowed := fun _ => true
  projectQueueEvent := id
  discussionProjectEvent := some

def fileChange (name : String) : Event :=
  ⟨name, "w", "t", "file:changed", .null, none, .obj [("path", .str "a")]⟩

def streamEnd : Event := ⟨"end", "w", "t", "agent:stream:end", .null, none, .obj []⟩

/-- Three changes of one file while the lane is full, then a barrier: the newest
change goes out first, then the barrier. -/
theorem forwarder_orders_around_barriers_file :
    (openSettings.forward [.delivery (some (.batch [(fileChange "1", false),
        (fileChange "2", false), (fileChange "3", false), (streamEnd, false)]))]).map
        sentItems = some [.latest (fileChange "3"), .latest streamEnd] ∧
      ∃ f, openSettings.forward [.delivery (some (.batch [(fileChange "1", false),
          (fileChange "2", false), (fileChange "3", false), (streamEnd, false)]))] = some f ∧
        ∃ (segments : List Segment) (arrived : List Arrival) (items : List EventItem),
          f.taken = segments.flatMap Segment.events ++ arrived.map Arrival.event ∧
          sentItems f = segments.flatMap Segment.sent ++ items ∧
          (∀ seg ∈ segments, seg.Ordered "sub") := by
  refine ⟨rfl, ?_⟩
  obtain ⟨f, hf, -, -, segments, arrived, items, ht, hit, hs, -⟩ :=
    forwarder_orders_around_barriers openSettings _ ⟨fun _ => rfl, fun _ _ => rfl, fun _ _ => rfl,
      fun _ _ _ => rfl⟩
  exact ⟨f, hf, segments, arrived, items, ht, hit, hs⟩

end Intentd.ForwarderOrder
