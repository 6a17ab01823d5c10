import Intentd.TunnelStreams
import Mathlib.Algebra.BigOperators.Group.List.Basic
import Mathlib.Algebra.Order.Ring.Int
import Mathlib.Data.List.Nodup

/-!
# The streams of a tunnel connection

The connection keeps a table of the streams it has, takes the client's frames one by one and sends
what the relays have put into one shared queue. A stream id may be used again once its stream is
gone, while frames of the stream before still wait in the queue. So every opening has a mark of its
own, which its frames carry, and the connection sends a frame only for the stream that is there.

A mark is an address. An address is free again once nothing refers to it: no entry of the table,
no frame in the queue and no running relay. Kept beside the marks is the number of the opening,
which tells apart what the connection cannot.
-/
namespace Intentd.TunnelConnections
open TunnelStreams List

def outboundQueueFrames : ℕ := 64
def inboundBytesPerConnection : ℕ := 64 * 1024 * 1024

structure Opening where
  number : ℕ
  generation : ℕ
  stream : Stream
  listed : Bool
  aborted : Bool

open Opening

structure Outbound where
  generation : ℕ
  frame : Frame
  number : ℕ

/-- A frame on the wire and the opening it is from. A refusal is from none. -/
structure Sent where
  frame : Frame
  number : Option ℕ
  relayed : Bool

structure State where
  openings : List Opening
  queue : List Outbound
  wire : List Sent
  ended : Bool

open State

section Model

variable (limits : TunnelLimits)

def State.initial : State := ⟨[], [], [], false⟩

variable (s : State)

def State.streams : List Opening := s.openings.filter listed

/-- Bytes of the shared budget that a stream holds. -/
def Stream.heldBytes (s : Stream) : ℕ :=
  if s.isEnded then 0
  else
    (s.inbox.map fun msg => match msg with
      | .data bytes => bytes.length
      | .eof => 0).sum + s.relay.inbound.elim 0 fun inbound => inbound.1.length

def State.freeBytes : ℕ :=
  inboundBytesPerConnection - (s.openings.map fun o => Stream.heldBytes o.stream).sum

def State.find (s : State) (streamId : UInt32) : Option Opening :=
  s.streams.find? fun o => o.stream.streamId = streamId

def State.change (number : ℕ) (f : Opening → Opening) : State :=
  { s with openings := s.openings.map fun o => if o.number = number then f o else o }

def Opening.feed (o : Opening) (event : Event) : Opening :=
  { o with stream := o.stream.step limits event }

def Opening.remove (o : Opening) : Opening := { o.feed limits .detach with listed := false }

def Opening.retire (o : Opening) : Opening := { o.remove limits with aborted := true }

/-- The connection is over, and the tasks that are left with it. -/
def State.finish : State := { s with openings := s.openings.map (retire limits), ended := true }

/-- Send a frame, unless the socket is dead. -/
def State.send (sent : Sent) (alive : Bool) : State :=
  if alive then { s with wire := s.wire ++ [sent] } else s.finish limits

/-- Tear a stream down and tell the client. -/
def State.teardown (o : Opening) (alive : Bool) : State :=
  (s.change o.number (retire limits)).send limits ⟨.close o.stream.streamId,
    some o.number, false⟩ alive

def State.reject (streamId : UInt32) (port : UInt16) : Option String :=
  if (s.find streamId).isSome then some "duplicate stream id"
  else if limits.maxStreams ≤ s.streams.length then
    some ("too many concurrent streams (max " ++ toString limits.maxStreams ++ ")")
  else if limits.maxStreamsPerPort ≤ s.streams.countP fun o => o.stream.port = port then
    some ("too many concurrent streams for port " ++ toString port.toNat ++ " (max " ++
      toString limits.maxStreamsPerPort ++ ")")
  else none

def State.openStream (streamId : UInt32) (port : UInt16) (generation : ℕ) : State :=
  { s with openings := s.openings ++ [⟨s.openings.length, generation, .start streamId port,
    true, false⟩] }

/-- Admit a message to a stream. A full queue tears the stream down. -/
def State.forward (streamId : UInt32) (msg : StreamMsg) (alive : Bool) : State :=
  match s.find streamId with
  | none => s
  | some o =>
    if o.stream.isEnded then s
    else if o.stream.inbox.length < streamQueueFrames then s.change o.number fun o =>
      o.feed limits (.accept msg)
    else s.teardown limits o alive

def State.handleFrame (frame : Frame) (generation : ℕ) (alive : Bool) : State :=
  match frame with
  | .openPort streamId port =>
    match s.reject limits streamId port with
    | some message => s.send limits ⟨.openErr streamId message, none, false⟩ alive
    | none => s.openStream streamId port generation
  | .credit streamId credit =>
    match s.find streamId with
    | none => s
    | some o => s.change o.number fun o => o.feed limits (.grant credit)
  | .data streamId payload =>
    if maxDataPayloadBytes < payload.length then s.finish limits
    else
      match s.find streamId with
      | none => s
      | some o =>
        if s.freeBytes < payload.length then s.teardown limits o alive
        else s.forward limits streamId (.data payload) alive
  | .eof streamId => s.forward limits streamId .eof alive
  | .close streamId =>
    match s.find streamId with
    | none => s
    | some o => s.teardown limits o alive
  | .openOk _ => s.finish limits
  | .openErr _ _ => s.finish limits

def isTerminal : Frame → Bool
  | .openErr _ _ => true
  | .close _ => true
  | _ => false

/-- Send a frame of a relay if its stream is the one in the table. A terminal frame frees the id
once it is sent. -/
def State.sendOutbound (out : Outbound) (alive : Bool) : State :=
  match s.find out.frame.streamId with
  | none => s
  | some o =>
    if o.generation = out.generation then
      if alive then
        let s := s.send limits ⟨out.frame, some out.number, true⟩ true
        if isTerminal out.frame then s.change o.number (remove limits) else s
      else s.finish limits
    else s

/-- Whether something still refers to the address of an opening. -/
def Opening.inUse (queue : List Outbound) (o : Opening) : Bool :=
  o.listed || !o.stream.isEnded || queue.any fun out => out.number == o.number

def State.inUse (s : State) (generation : ℕ) : Bool :=
  s.openings.any fun o => o.generation == generation && o.inUse s.queue

inductive Act
  /-- A frame of the client, with the address of a new stream and whether the socket lives. -/
  | frame (frame : Frame) (generation : ℕ) (alive : Bool)
  | outbound (alive : Bool)
  | relay (number : ℕ) (event : Event)
  | abort (number : ℕ)
  | finish

def State.relayStep (o : Opening) : Event → State
  | .send true =>
    if s.ended || decide (outboundQueueFrames ≤ s.queue.length) then s
    else
      match o.stream.sending with
      | none => s
      | some frame =>
        { s.change o.number fun o => o.feed limits (.send true) with
          queue := s.queue ++ [⟨o.generation, frame, o.number⟩] }
  | .send false => if s.ended then s.change o.number fun o => o.feed limits (.send false) else s
  | .grant _ => s
  | .accept _ => s
  | .detach => s
  | .abort => s
  | event => s.change o.number fun o => o.feed limits event

def State.step : Act → State
  | .frame frame generation alive =>
    if s.ended || s.inUse generation then s else s.handleFrame limits frame generation alive
  | .outbound alive =>
    if s.ended then s
    else
      match s.queue with
      | [] => s
      | out :: rest => sendOutbound limits { s with queue := rest } out alive
  | .relay n event =>
    match s.openings[n]? with
    | none => s
    | some o => s.relayStep limits o event
  | .abort n => s.change n fun o => if o.aborted then o.feed limits .abort else o
  | .finish => s.finish limits

def State.run (acts : List Act) : State := acts.foldl (step limits) s

end Model

/-! ## Openings that go on -/

structure Goes (o o' : Opening) : Prop where
  number : o'.number = o.number
  generation : o'.generation = o.generation
  listed : o'.listed = true → o.listed = true
  streamId : o'.stream.streamId = o.stream.streamId
  port : o'.stream.port = o.stream.port
  ended : o.stream.isEnded = true → o'.stream.isEnded = true
  sound : TunnelStreams.Inv o.stream → TunnelStreams.Inv o'.stream

/-- It puts nothing into the queue. -/
structure Quiet (o o' : Opening) : Prop extends Goes o o' where
  emitted : o'.stream.emitted = o.stream.emitted

variable {limits : TunnelLimits} {f : Opening → Opening} {event : Event}

section Goes

variable (o : Opening)

theorem goes_feed (event : Event) : Goes o (o.feed limits event) := by
  obtain ⟨hid, hp, he, hinv⟩ := step_same limits o.stream event
  exact ⟨rfl, rfl, id, hid, hp, he, hinv⟩

theorem Quiet.refl : Quiet o o := ⟨⟨rfl, rfl, id, rfl, rfl, id, id⟩, rfl⟩

theorem quiet_feed (he : event ≠ .send true) : Quiet o (o.feed limits event) :=
  ⟨goes_feed o event, (step_keeps limits o.stream he).emitted⟩

theorem quiet_remove : Quiet o (o.remove limits) := by
  have hf : Quiet o (o.feed limits .detach) := quiet_feed o nofun
  exact { hf with listed := nofun }

theorem quiet_retire : Quiet o (o.retire limits) := by
  have hr : Quiet o (o.remove limits) := quiet_remove o
  exact { hr with }

theorem quiet_ite (number : ℕ) (hf : ∀ o, Quiet o (f o)) (o : Opening) :
    Quiet o (if o.number = number then f o else o) := by
  split_ifs
  · exact hf o
  · exact .refl o

end Goes

/-! ## Frames on their way -/

def relayedFrames (wire : List Sent) (n : ℕ) : List Frame :=
  (wire.filter fun x => x.relayed && decide (x.number = some n)).map Sent.frame

def queuedFrames (queue : List Outbound) (n : ℕ) : List Frame :=
  (queue.filter fun out => out.number = n).map Outbound.frame

theorem queuedFrames_cons (out : Outbound) (queue : List Outbound) (n : ℕ) :
    queuedFrames (out :: queue) n = (if out.number = n then [out.frame] else []) ++
      queuedFrames queue n := by
  by_cases h : out.number = n <;> simp [queuedFrames, h]

theorem queuedFrames_snoc (queue : List Outbound) (out : Outbound) (n : ℕ) :
    queuedFrames (queue ++ [out]) n =
      queuedFrames queue n ++ if out.number = n then [out.frame] else [] := by
  by_cases h : out.number = n <;> simp [queuedFrames, h]

theorem relayedFrames_snoc (wire : List Sent) (x : Sent) (n : ℕ) : relayedFrames (wire ++ [x]) n =
      relayedFrames wire n ++ if x.relayed = true ∧ x.number = some n then [x.frame] else [] := by
  by_cases h : x.relayed = true ∧ x.number = some n
  · simp [relayedFrames, h]
  · rw [if_neg h, append_nil, relayedFrames, filter_append]
    have hn : [x].filter (fun x => x.relayed && decide (x.number = some n)) = [] := by simpa using h
    rw [hn, append_nil]
    rfl

/-- What is known of an opening. What was sent of its relay is the beginning of what it has emitted.
As long as it is in the table the rest waits in the queue, and no terminal frame was sent. -/
structure Holds (queue : List Outbound) (wire : List Sent) (o : Opening) : Prop where
  stream : TunnelStreams.Inv o.stream
  beginning : relayedFrames wire o.number <+: o.stream.emitted
  rest : o.listed = true →
    relayedFrames wire o.number ++ queuedFrames queue o.number = o.stream.emitted
  running : o.listed = true → ∀ x ∈ wire, x.number = some o.number → isTerminal x.frame = false

variable {o : Opening} {queue : List Outbound}

theorem Holds.quiet {wire : List Sent} {o' : Opening} (h : Holds queue wire o)
    (hq : Quiet o o') : Holds queue wire o' where
  stream := hq.sound h.stream
  beginning := by rw [hq.number, hq.emitted]; exact h.beginning
  rest hl := by rw [hq.number, hq.emitted]; exact h.rest (hq.listed hl)
  running hl := by rw [hq.number]; exact h.running (hq.listed hl)

/-! ## Runs -/

structure Table (limits : TunnelLimits) (streams : List Opening) : Prop where
  ids : (streams.map fun o => o.stream.streamId).Nodup
  size : streams.length ≤ limits.maxStreams
  ports : ∀ port, streams.countP (fun o => o.stream.port = port) ≤ limits.maxStreamsPerPort

/-- A frame on the wire is a refusal, or that of an opening of its id. -/
def Attributed (openings : List Opening) (x : Sent) : Prop :=
  (∃ streamId message, x = ⟨.openErr streamId message, none, false⟩) ∨
    ∃ o ∈ openings, x.number = some o.number ∧ o.stream.streamId = x.frame.streamId

/-- A frame of the queue is that of an opening. -/
def Opening.Names (o : Opening) (out : Outbound) : Prop :=
  o.number = out.number ∧ o.generation = out.generation ∧ o.stream.streamId = out.frame.streamId

structure Inv (limits : TunnelLimits) (s : State) : Prop where
  table : Table limits s.streams
  numbers : s.openings.map number = List.range s.openings.length
  each : ∀ o ∈ s.openings, Holds s.queue s.wire o
  queued : ∀ out ∈ s.queue, ∃ o ∈ s.openings, o.Names out
  marks : ∀ a ∈ s.openings, ∀ b ∈ s.openings, a.inUse s.queue = true → b.inUse s.queue = true →
    a.generation = b.generation → a = b
  attributed : ∀ x ∈ s.wire, Attributed s.openings x
  last : s.wire.Pairwise fun x y => ∀ n, x.number = some n → y.number = some n →
    isTerminal x.frame = false

section Steps

variable {s : State} {queue' : List Outbound} {x : Sent} {streamId : UInt32} {port : UInt16}
  {generation : ℕ} {out : Outbound} {rest : List Outbound}

theorem find_some (hf : s.find streamId = some o) :
    o ∈ s.openings ∧ o.listed = true ∧ o.stream.streamId = streamId := by
  obtain ⟨ho, hl⟩ := mem_filter.mp (mem_of_find?_eq_some hf)
  exact ⟨ho, hl, of_decide_eq_true
    (List.find?_some (p := fun o : Opening => decide (o.stream.streamId = streamId)) hf)⟩

theorem find_none (hf : s.find streamId = none) :
    ∀ o ∈ s.streams, o.stream.streamId ≠ streamId := by
  intro o ho hid
  exact List.find?_eq_none.mp hf o ho (decide_eq_true hid)

theorem Table.map (h : Table limits (s.openings.filter listed)) (hf : ∀ o, Goes o (f o)) :
    Table limits ((s.openings.map f).filter listed) := by
  have hsub : (s.openings.filter fun o => (f o).listed).Sublist (s.openings.filter listed) :=
    monotone_filter_right _ fun o => (hf o).listed
  have hid : (fun o => (f o).stream.streamId) = fun o => o.stream.streamId :=
    funext fun o => (hf o).streamId
  rw [filter_map]
  refine ⟨?_, ?_, fun port => ?_⟩
  · rw [map_map]
    show (List.map (fun o => (f o).stream.streamId) _).Nodup
    rw [hid]
    exact h.ids.sublist (hsub.map _)
  · rw [length_map]
    exact hsub.length_le.trans h.size
  · rw [countP_map]
    have hp : ((fun o : Opening => decide (o.stream.port = port)) ∘ f) = fun o =>
        decide (o.stream.port = port) :=
      funext fun o => congrArg (fun p => decide (p = port)) (hf o).port
    rw [hp]
    exact hsub.countP_le.trans (h.ports port)

theorem Attributed.map {openings : List Opening} (h : Attributed openings x)
    (hf : ∀ o, Goes o (f o)) : Attributed (openings.map f) x := by
  rcases h with hr | ⟨o, ho, hn, hid⟩
  · exact .inl hr
  · exact .inr ⟨f o, mem_map_of_mem ho, hn.trans (congrArg some (hf o).number.symm),
      (hf o).streamId.trans hid⟩

theorem inUse_iff : o.inUse queue = true ↔
    o.listed = true ∨ o.stream.isEnded = false ∨ ∃ out ∈ queue, out.number = o.number := by
  simp [Opening.inUse, or_assoc]

section

variable (h : Inv limits s)
include h

theorem Inv.eq_of_number {a b : Opening} (ha : a ∈ s.openings) (hb : b ∈ s.openings)
    (hn : a.number = b.number) : a = b := by
  have hno : (s.openings.map number).Nodup := h.numbers ▸ nodup_range
  exact inj_on_of_nodup_map hno ha hb hn

/-- Tasks go on. Frames leave the queue, and those that come are of running relays. -/
theorem Inv.map (hf : ∀ o, Goes o (f o))
    (hq : ∀ out ∈ queue', out ∈ s.queue ∨ ∃ o ∈ s.openings, o.Names out ∧ o.stream.isEnded = false)
    {wire' : List Sent} (hea : ∀ o ∈ s.openings, Holds queue' wire' (f o))
    (hat : ∀ x ∈ wire', Attributed s.openings x)
    (hla : wire'.Pairwise fun x y => ∀ n, x.number = some n → y.number = some n →
      isTerminal x.frame = false)
    (ended : Bool) : Inv limits ⟨s.openings.map f, queue', wire', ended⟩ where
  table := h.table.map hf
  numbers := by
    have hnu : number ∘ f = number := funext fun o => (hf o).number
    rw [map_map, hnu, length_map]
    exact h.numbers
  each := forall_mem_map.mpr hea
  queued out hout := by
    have hna : ∃ o ∈ s.openings, o.Names out :=
      (hq out hout).elim (h.queued out) fun ⟨o, ho, hna, _⟩ => ⟨o, ho, hna⟩
    obtain ⟨o, ho, hn, hg, hid⟩ := hna
    exact ⟨f o, mem_map_of_mem ho, (hf o).number.trans hn, (hf o).generation.trans hg,
      (hf o).streamId.trans hid⟩
  marks := by
    have huse (o : Opening) (ho : o ∈ s.openings) (h' : (f o).inUse queue' = true) :
        o.inUse s.queue = true := by
      rw [inUse_iff] at h' ⊢
      rcases h' with hl | hrun | ⟨out, hout, hn⟩
      · exact .inl ((hf o).listed hl)
      · rw [← Bool.not_eq_true] at hrun ⊢
        exact .inr (.inl fun he => hrun ((hf o).ended he))
      · rw [(hf o).number] at hn
        rcases hq out hout with hold | ⟨p, hp, hna, hrun⟩
        · exact .inr (.inr ⟨out, hold, hn⟩)
        · rw [h.eq_of_number ho hp (hn.symm.trans hna.1.symm)]
          exact .inr (.inl hrun)
    refine forall_mem_map.mpr fun a ha => forall_mem_map.mpr fun b hb hua hub hg => ?_
    rw [(hf a).generation, (hf b).generation] at hg
    rw [h.marks a ha b hb (huse a ha hua) (huse b hb hub) hg]
  attributed x hx := (hat x hx).map hf
  last := hla

theorem Inv.quiet (hf : ∀ o, Quiet o (f o)) (ended : Bool) :
    Inv limits { s with openings := s.openings.map f, ended := ended } :=
  h.map (fun o => (hf o).toGoes) (fun _ hout => .inl hout) (fun o ho => (h.each o ho).quiet (hf o))
    h.attributed h.last ended

theorem Inv.finish : Inv limits (s.finish limits) := h.quiet quiet_retire true

theorem Inv.change (n : ℕ) (hf : ∀ o, Quiet o (f o)) : Inv limits (s.change n f) :=
  h.quiet (quiet_ite n hf) s.ended

theorem Inv.feed (n : ℕ) (he : event ≠ .send true) :
    Inv limits (s.change n fun o => o.feed limits event) :=
  h.change n fun o => quiet_feed o he

/-- A frame of a stream of the table is sent, or a refusal. The stream leaves the table with a
terminal one. -/
theorem Inv.sent (hf : ∀ o, Quiet o (f o)) (hq : ∀ out ∈ queue', out ∈ s.queue)
    (ha : Attributed s.openings x) (hli : ∀ o ∈ s.openings, x.number = some o.number →
      o.listed = true ∧ (isTerminal x.frame = true → (f o).listed = false))
    (hm : ∀ n, relayedFrames (s.wire ++ [x]) n ++ queuedFrames queue' n =
      relayedFrames s.wire n ++ queuedFrames s.queue n) :
    Inv limits { s with openings := s.openings.map f, queue := queue', wire := s.wire ++ [x] } := by
  refine h.map (fun o => (hf o).toGoes) (fun out hout => .inl (hq out hout)) (fun o ho =>
    ?_) ?_ ?_ s.ended
  · have hold := h.each o ho
    refine ⟨(hf o).sound hold.stream, ?_, fun hl => ?_, fun hl y hy hn => ?_⟩
    · rw [(hf o).number, (hf o).emitted]
      by_cases hx : x.number = some o.number
      · rw [← hold.rest (hli o ho hx).1, ← hm]
        exact prefix_append _ _
      · rw [relayedFrames_snoc, if_neg fun hc => hx hc.2, append_nil]
        exact hold.beginning
    · rw [(hf o).number, (hf o).emitted, hm]
      exact hold.rest ((hf o).listed hl)
    · rw [(hf o).number] at hn
      rcases mem_append.mp hy with hy | hy
      · exact hold.running ((hf o).listed hl) y hy hn
      · rw [mem_singleton.mp hy] at hn ⊢
        rw [← Bool.not_eq_true]
        intro ht
        rw [(hli o ho hn).2 ht] at hl
        cases hl
  · exact forall_mem_append.mpr ⟨h.attributed, forall_mem_singleton.mpr ha⟩
  · -- a stream in the table has sent no terminal frame
    refine pairwise_append.mpr ⟨h.last, pairwise_singleton _ _, fun y hy z hz n hyn hzn => ?_⟩
    rw [mem_singleton.mp hz] at hzn
    rcases ha with ⟨streamId, message, hr⟩ | ⟨o, ho, hn, -⟩
    · rw [hr] at hzn
      cases hzn
    · cases hn.symm.trans hzn
      exact (h.each o ho).running (hli o ho hn).1 y hy hyn

end

theorem moved_direct (queue : List Outbound) (wire : List Sent) (hx : x.relayed = false) (n : ℕ) :
    relayedFrames (wire ++ [x]) n ++ queuedFrames queue n = relayedFrames wire n ++
      queuedFrames queue n := by
  have hnot : ¬ (x.relayed = true ∧ x.number = some n) := fun hc => by
    rw [hx] at hc
    cases hc.1
  rw [relayedFrames_snoc, if_neg hnot, append_nil]

theorem moved_first (out : Outbound) (queue : List Outbound) (wire : List Sent) (n : ℕ) :
    relayedFrames (wire ++ [⟨out.frame, some out.number, true⟩]) n ++ queuedFrames queue n =
      relayedFrames wire n ++ queuedFrames (out :: queue) n := by
  rw [relayedFrames_snoc, queuedFrames_cons, append_assoc]
  congr 2
  simp

theorem Inv.refuse (h : Inv limits s) (streamId : UInt32) (message : String) (alive : Bool) :
    Inv limits (s.send limits ⟨.openErr streamId message, none, false⟩ alive) := by
  rw [send]
  split_ifs
  · have hs := h.sent (f := id) Quiet.refl (fun _ hout => hout) (.inl ⟨streamId, message, rfl⟩)
      (fun o _ hn => (by cases hn)) (moved_direct s.queue s.wire rfl)
    rwa [map_id] at hs
  · exact h.finish

theorem Inv.teardown (h : Inv limits s) (ho : o ∈ s.openings) (hl : o.listed = true)
    (alive : Bool) : Inv limits (s.teardown limits o alive) := by
  rw [State.teardown, State.send]
  split_ifs
  · refine h.sent (quiet_ite o.number quiet_retire) (fun _ hout => hout) (.inr ⟨o, ho, rfl, rfl⟩)
      (fun p hp hn => ?_) (moved_direct s.queue s.wire rfl)
    cases h.eq_of_number ho hp (Option.some.inj hn)
    exact ⟨hl, fun _ => by rw [if_pos rfl]; rfl⟩
  · exact (h.change o.number quiet_retire).finish

theorem reject_none (hr : s.reject limits streamId port = none) :
    (∀ o ∈ s.streams, o.stream.streamId ≠ streamId) ∧ s.streams.length < limits.maxStreams ∧
      s.streams.countP (fun o => o.stream.port = port) < limits.maxStreamsPerPort := by
  rw [reject] at hr
  split_ifs at hr with hdup hs hp
  exact ⟨find_none (Option.not_isSome_iff_eq_none.mp hdup), by omega, by omega⟩

theorem Table.open {streams : List Opening} (ht : Table limits streams)
    (hid : ∀ o' ∈ streams, o'.stream.streamId ≠ o.stream.streamId)
    (hs : streams.length < limits.maxStreams)
    (hpo : streams.countP (fun o' => o'.stream.port = o.stream.port) < limits.maxStreamsPerPort) :
    Table limits (streams ++ [o]) := by
  refine ⟨?_, ?_, fun port => ?_⟩
  · rw [map_append, map_singleton, ← concat_eq_append]
    refine ht.ids.concat fun hin => ?_
    obtain ⟨o', ho', heq⟩ := mem_map.mp hin
    exact hid o' ho' heq
  · rw [length_append, length_singleton]
    omega
  · have hold := ht.ports port
    rw [countP_append, countP_singleton]
    by_cases hp : o.stream.port = port
    · rw [if_pos (decide_eq_true hp)]
      subst hp
      omega
    · rw [if_neg (by simpa using hp)]
      omega

section

variable (h : Inv limits s)
include h

theorem Inv.number_lt (ho : o ∈ s.openings) : o.number < s.openings.length := by
  have hmem := mem_map_of_mem (f := number) ho
  rw [h.numbers] at hmem
  exact mem_range.mp hmem

theorem Inv.holds_next (generation : ℕ) (streamId : UInt32) (port : UInt16) :
    Holds s.queue s.wire ⟨s.openings.length, generation, .start streamId port, true, false⟩ := by
  have hw : ∀ x ∈ s.wire, x.number ≠ some s.openings.length := by
    intro x hx hn
    rcases h.attributed x hx with ⟨_, _, rfl⟩ | ⟨o, ho, hn', -⟩
    · cases hn
    · have heq := Option.some.inj (hn'.symm.trans hn)
      exact absurd (h.number_lt ho) (by omega)
  have hr : relayedFrames s.wire s.openings.length = [] := by
    rw [relayedFrames, filter_eq_nil_iff.mpr fun x hx => by simp [hw x hx]]
    rfl
  have hq : queuedFrames s.queue s.openings.length = [] := by
    rw [queuedFrames, filter_eq_nil_iff.mpr]
    · rfl
    · intro out hout hn
      obtain ⟨o, ho, hn', -⟩ := h.queued out hout
      have hlt := h.number_lt ho
      have heq := of_decide_eq_true hn
      omega
  refine ⟨inv_start streamId port, ?_, fun _ => ?_, fun _ x hx hn => absurd hn (hw x hx)⟩
  · rw [hr]
    exact nil_prefix
  · rw [hr, hq]
    rfl

theorem Inv.openStream (hre : s.reject limits streamId port = none)
    (hf : s.inUse generation = false) : Inv limits (s.openStream streamId port generation) := by
  obtain ⟨hid, hs, hp⟩ := reject_none hre
  have hold {o : Opening} (ho : o ∈ s.openings) : o ∈
      (s.openStream streamId port generation).openings :=
    mem_append_left _ ho
  refine ⟨?_, ?_, ?_, fun out hout => ?_, ?_, fun x hx => ?_, h.last⟩
  · rw [State.streams, State.openStream, filter_append]
    exact h.table.open hid hs hp
  · rw [State.openStream, map_append, h.numbers, length_append, length_singleton, range_succ]
    rfl
  · exact forall_mem_append.mpr ⟨h.each,
      forall_mem_singleton.mpr (h.holds_next generation streamId port)⟩
  · obtain ⟨o, ho, hl⟩ := h.queued out hout
    exact ⟨o, hold ho, hl⟩
  · -- nothing that is referred to has the new mark
    have hn (o : Opening) (ho : o ∈ s.openings) (huse : o.inUse s.queue = true) : o.generation ≠
        generation := fun hg =>
      any_eq_false.mp hf o ho (by rw [Bool.and_eq_true, beq_iff_eq]; exact ⟨hg, huse⟩)
    simp only [State.openStream, forall_mem_append, forall_mem_singleton]
    exact ⟨fun a ha => ⟨h.marks a ha, fun hu _ hg => absurd hg (hn a ha hu)⟩,
      fun b hb _ hu hg => absurd hg.symm (hn b hb hu), fun _ _ _ => trivial⟩
  · rcases h.attributed x hx with hr | ⟨o, ho, hl⟩
    · exact .inl hr
    · exact .inr ⟨o, hold ho, hl⟩

theorem Inv.forward (streamId : UInt32) (msg : StreamMsg) (alive : Bool) :
    Inv limits (s.forward limits streamId msg alive) := by
  rw [State.forward]
  split
  · exact h
  · rename_i o hf
    obtain ⟨ho, hl, -⟩ := find_some hf
    split_ifs
    · exact h
    · exact h.feed _ nofun
    · exact h.teardown ho hl alive

theorem Inv.handleFrame (frame : Frame) (hfr : s.inUse generation = false) (alive : Bool) :
    Inv limits (s.handleFrame limits frame generation alive) := by
  cases frame with
  | openPort streamId port =>
    rw [State.handleFrame]
    split
    · exact h.refuse _ _ alive
    · rename_i hr
      exact h.openStream hr hfr
  | credit streamId credit =>
    rw [State.handleFrame]
    split
    · exact h
    · exact h.feed _ nofun
  | data streamId payload =>
    rw [State.handleFrame]
    by_cases hs : maxDataPayloadBytes < payload.length
    · rw [if_pos hs]
      exact h.finish
    · rw [if_neg hs]
      split
      · exact h
      · rename_i o hf
        obtain ⟨ho, hl, -⟩ := find_some hf
        split_ifs
        · exact h.teardown ho hl alive
        · exact h.forward streamId _ alive
  | eof streamId => exact h.forward streamId _ alive
  | close streamId =>
    rw [State.handleFrame]
    split
    · exact h
    · rename_i o hf
      obtain ⟨ho, hl, -⟩ := find_some hf
      exact h.teardown ho hl alive
  | openOk streamId | openErr streamId message => exact h.finish

theorem Inv.discard (hq : s.queue = out :: rest)
    (hg : ∀ o ∈ s.openings, o.number = out.number → o.listed = false) :
    Inv limits { s with queue := rest } := by
  have hre : ∀ out' ∈ rest, out' ∈ s.queue := fun out' hout => hq ▸ mem_cons_of_mem out hout
  have hmap :=
    h.map (f := id) (fun o => (Quiet.refl o).toGoes) (fun out' hout => .inl (hre out' hout))
      (fun o ho => ?_)
    h.attributed h.last s.ended
  · rwa [map_id] at hmap
  · rw [id]
    obtain ⟨hs, hb, hqu, hr⟩ := h.each o ho
    refine ⟨hs, hb, fun hl => ?_, hr⟩
    have hold := hqu hl
    have hot : out.number ≠ o.number := fun hn => by
      rw [hg o ho hn.symm] at hl
      cases hl
    rwa [hq, queuedFrames_cons, if_neg hot, nil_append] at hold

theorem Inv.outbound (hqu : s.queue = out :: rest) (alive : Bool) :
    Inv limits (sendOutbound limits { s with queue := rest } out alive) := by
  have hout : out ∈ s.queue := hqu ▸ mem_cons_self
  have hr : ∀ out' ∈ rest, out' ∈ s.queue := fun out' hout => hqu ▸ mem_cons_of_mem out hout
  obtain ⟨p, hp, hpn, hpg, hpid⟩ := h.queued out hout
  -- the stream of the frame, if the table has it, is the one found
  have hfo (hno : s.find out.frame.streamId ≠ some p) : ∀ o ∈ s.openings, o.number = out.number →
      o.listed = false := by
    intro o ho hn
    cases h.eq_of_number hp ho (hpn.trans hn.symm)
    rw [← Bool.not_eq_true]
    intro hl
    cases hf : s.find out.frame.streamId with
    | none => exact find_none hf p (mem_filter.mpr ⟨hp, hl⟩) hpid
    | some q =>
      obtain ⟨hq, hql, hqid⟩ := find_some hf
      have hqp : q = p :=
        inj_on_of_nodup_map h.table.ids (mem_filter.mpr ⟨hq, hql⟩) (mem_filter.mpr ⟨hp, hl⟩)
          (hqid.trans hpid.symm)
      exact hno (hqp ▸ hf)
  rw [sendOutbound]
  split
  · rename_i hf
    exact h.discard hqu (hfo fun hno => by cases hno.symm.trans hf)
  · rename_i q hf
    obtain ⟨hq, hql, hqid⟩ := find_some hf
    by_cases hg : q.generation = out.generation
    · -- marks do not lie
      obtain rfl : q = p := h.marks q hq p hp (inUse_iff.mpr (.inl hql))
        (inUse_iff.mpr (.inr (.inr ⟨out, hout, hpn.symm⟩))) (hg.trans hpg.symm)
      have hm (n : ℕ) := moved_first out rest s.wire n
      rw [← hqu] at hm
      have ha : Attributed s.openings ⟨out.frame, some out.number, true⟩ :=
        .inr ⟨q, hq, congrArg some hpn.symm, hpid⟩
      have hth {o : Opening} (ho : o ∈ s.openings) (hn : some out.number = some o.number) : o = q :=
        h.eq_of_number ho hq ((Option.some.inj hn).symm.trans hpn.symm)
      rw [if_pos hg]
      cases alive with
      | false =>
        refine h.finish.discard hqu fun o ho _ => ?_
        obtain ⟨o', -, rfl⟩ := mem_map.mp ho
        rfl
      | true =>
        rw [if_pos rfl]
        split_ifs with ht
        · refine h.sent (quiet_ite q.number quiet_remove) hr ha (fun o ho hn => ?_) hm
          cases hth ho hn
          exact ⟨hql, fun _ => by rw [if_pos rfl]; rfl⟩
        · have hs := h.sent (f := id) Quiet.refl hr ha
            (fun o ho hn => ⟨hth ho hn ▸ hql, fun hc => absurd hc ht⟩) hm
          rwa [map_id] at hs
    · rw [if_neg hg]
      refine h.discard hqu (hfo fun hqp => hg ?_)
      cases hqp.symm.trans hf
      exact hpg

theorem Inv.relaySend (ho : o ∈ s.openings) {frame : Frame} (hs : o.stream.sending = some frame) :
    Inv limits { s.change o.number fun o => o.feed limits (.send true) with
      queue := s.queue ++ [⟨o.generation, frame, o.number⟩] } := by
  have hf := (h.each o ho).stream.sending_streamId hs
  refine h.map (fun p => ?_) ?_ (fun p hp => ?_) h.attributed h.last s.ended
  · split_ifs
    · exact goes_feed p _
    · exact (Quiet.refl p).toGoes
  · refine forall_mem_append.mpr ⟨fun _ => .inl, forall_mem_singleton.mpr (.inr ?_)⟩
    exact ⟨o, ho, ⟨rfl, rfl, hf.symm⟩, not_ended_of_sending hs⟩
  · obtain ⟨hst, hb, hre, hr⟩ := h.each p hp
    split_ifs with hn
    · obtain rfl := h.eq_of_number hp ho hn
      have he := (step_send limits hs).2.2
      refine ⟨(goes_feed p _).sound hst, ?_, fun hl => ?_, hr⟩
      · show relayedFrames s.wire p.number <+: (p.stream.step limits _).emitted
        rw [he]
        exact hb.trans (prefix_append _ _)
      · show relayedFrames s.wire p.number ++ queuedFrames (s.queue ++ [_]) p.number =
            (p.stream.step limits _).emitted
        rw [queuedFrames_snoc, if_pos rfl, he, ← append_assoc, hre hl]
    · refine ⟨hst, hb, fun hl => ?_, hr⟩
      rw [queuedFrames_snoc, if_neg fun hc => hn hc.symm, append_nil]
      exact hre hl

theorem Inv.relayStep (ho : o ∈ s.openings) (event : Event) :
    Inv limits (s.relayStep limits o event) := by
  cases event with
  | send sent =>
    cases sent with
    | true =>
      rw [State.relayStep]
      by_cases hf : (s.ended || decide (outboundQueueFrames ≤ s.queue.length)) = true
      · rw [if_pos hf]
        exact h
      · rw [if_neg hf]
        split
        · exact h
        · rename_i frame hs
          exact h.relaySend ho hs
    | false =>
      rw [State.relayStep]
      split_ifs
      · exact h.feed _ nofun
      · exact h
  | grant credit | accept msg | detach | abort => exact h
  | _ => exact h.feed _ nofun

theorem Inv.step (act : Act) : Inv limits (s.step limits act) := by
  cases act with
  | frame frame generation alive =>
    rw [State.step]
    split_ifs with hno
    · exact h
    · rw [Bool.not_eq_true, Bool.or_eq_false_iff] at hno
      exact h.handleFrame frame hno.2 alive
  | outbound alive =>
    rw [State.step]
    by_cases he : s.ended = true
    · rw [if_pos he]
      exact h
    · rw [if_neg he]
      split
      · exact h
      · rename_i out rest hq
        exact h.outbound hq alive
  | relay n event =>
    rw [State.step]
    split
    · exact h
    · rename_i o ho
      exact h.relayStep (mem_of_getElem? ho) event
  | abort n =>
    refine h.change n fun o => ?_
    split_ifs
    · exact quiet_feed o nofun
    · exact .refl o
  | finish => exact h.finish

end

theorem inv_initial (limits : TunnelLimits) : Inv limits .initial :=
  ⟨⟨nodup_nil, Nat.zero_le _, fun _ => Nat.zero_le _⟩, rfl, fun o ho => (by cases ho), nofun,
    fun a ha => (by cases ha), nofun, .nil⟩

theorem Inv.run (h : Inv limits s) (acts : List Act) : Inv limits (s.run limits acts) := by
  induction acts generalizing s with
  | nil => exact h
  | cons act acts ih => exact ih (h.step act)

end Steps

/-! ## What holds of every connection -/

/-- An OPEN is answered by a refusal, or by a stream in the table that is new. -/
inductive Answered (s : State) (streamId : UInt32) (port : UInt16) (t : State) : Prop
  | refused (message : String)
      (h : t = { s with wire := s.wire ++ [⟨.openErr streamId message, none, false⟩] })
  | opened (generation : ℕ)
      (h : t = { s with
        openings :=
          s.openings ++ [⟨s.openings.length, generation, .start streamId port, true, false⟩] })

structure ConnectionSound (limits : TunnelLimits) (s : State) : Prop where
  ids : (s.streams.map fun o => o.stream.streamId).Nodup
  size : s.streams.length ≤ limits.maxStreams
  ports : ∀ port, s.streams.countP (fun o => o.stream.port = port) ≤ limits.maxStreamsPerPort
  numbers : (s.openings.map number).Nodup
  /-- A CLOSE is that of an opening of its id. -/
  closes : ∀ x ∈ s.wire, ∀ streamId, x.frame = .close streamId →
    ∃ o ∈ s.openings, x.number = some o.number ∧ o.stream.streamId = streamId
  terminal : s.wire.Pairwise fun x y => ∀ n, x.number = some n → y.number = some n →
    isTerminal x.frame = false
  order : ∀ o ∈ s.openings, relayedFrames s.wire o.number <+: o.stream.emitted
  answers : ∀ streamId port generation, s.ended = false → s.inUse generation = false →
    Answered s streamId port (s.step limits (.frame (.openPort streamId port) generation true))

/-- However the client's frames and the output of the relays interleave, a stream id that is used
again sees nothing of the stream before. -/
theorem connection_sound (limits : TunnelLimits) (acts : List Act) :
    ConnectionSound limits (run limits .initial acts) := by
  have h : Inv limits (run limits .initial acts) := (inv_initial limits).run acts
  refine ⟨h.table.ids, h.table.size, h.table.ports, h.numbers ▸ nodup_range,
    fun x hx streamId hc => ?_, h.last,
    fun o ho => (h.each o ho).beginning, fun streamId port generation he hf => ?_⟩
  · rcases h.attributed x hx with ⟨_, _, rfl⟩ | ⟨o, ho, hn, hid⟩
    · cases hc
    · rw [hc] at hid
      exact ⟨o, ho, hn, hid⟩
  · rw [step, he, hf, Bool.or_self, if_neg Bool.false_ne_true, handleFrame]
    split
    · rename_i message hr
      exact .refused message rfl
    · exact .opened generation rfl

end Intentd.TunnelConnections
