import Intentd.JsonValues
import Intentd.MachineWords
import Intentd.NumberedHistories
import Mathlib.Algebra.BigOperators.Group.List.Basic
import Mathlib.Algebra.Order.Ring.Int

/-!
# The capture of link traffic

Link tasks hand the frames they see to a running capture without waiting: a frame takes its bytes
of a budget under the lock, is copied outside it, and goes into a bounded queue or is dropped. A
collector for each capture takes frames from its queue in batches, gives their bytes back, renders
them and, if the capture still runs, numbers them and keeps the newest.

A step here is what a task does between two points where another task may come in: one locked
section or one access of an atomic. A call that observes a frame stays in the list of calls with how
it ended, and a capture in the list of captures, with its queue and all that it has recorded. How a
frame is copied, redacted and rendered is a parameter. A client tells a capture from others by its
start, which is strictly later than the start before.
-/
namespace Intentd.TrafficCapture
open JsonValues MachineWords NumberedHistories

def snapshotDefaultLimit : ℕ := 500
def snapshotMaxLimit : ℕ := 2000
def snapshotMaxBytes : ℕ := 448 * 1024
def lightBytes : ℕ := 1024
def batchMax : ℕ := 100

/-- The bounds of a capture. At the top of the range no saturated sum would pass the bound of the
queue, so the bound is below it. -/
structure Limits where
  maxRecords : ℕ
  maxPayloadBytes : ℕ
  queue : ℕ
  queueBytes : ℕ
  queueBytes_lt : queueBytes < u64Max

instance : Inhabited Limits where
  default := ⟨2000, 64 * 1024, 1024, 16 * 1024 * 1024, by decide⟩

inductive TrafficDirection
  | inward
  | outward

inductive PeerKind
  | machine
  | backend

structure TrafficPeer where
  kind : PeerKind
  id : String
  name : Option String

structure Observed (φ : Type) where
  peer : TrafficPeer
  direction : TrafficDirection
  frame : φ
  bytes : ℕ

inductive Body (φ : Type)
  | full (frame : φ)
  | light (frame : Json) (truncated : Bool)

/-- A frame that waits for the collector, with the call that observed it. -/
structure Captured (φ : Type) where
  time : ℤ
  peer : TrafficPeer
  direction : TrafficDirection
  body : Body φ
  bytes : ℕ
  cost : ℕ
  call : ℕ

structure Draft where
  record : Fields
  oversized : Bool
  size : ℕ

structure Frames (φ : Type) where
  maskedCopy : φ → φ
  lightFrame : φ → Json
  render : Captured φ → Bool → ℕ → Draft

structure Record where
  seq : ℕ
  value : Fields
  size : ℕ
  call : ℕ

structure CaptureStatus where
  active : Bool
  startedAt : Option ℤ
  payloads : Bool
  maxRecords : ℕ
  maxPayloadBytes : ℕ
  retained : ℕ
  evicted : ℕ
  dropped : ℕ
  oversized : ℕ
  nextSeq : ℕ

structure Batch where
  records : List Record
  capture : CaptureStatus

inductive Observer (φ : Type)
  | entered (o : Observed φ)
  | sized (o : Observed φ) (payloads : Bool)
  | reserved (epoch : ℕ) (o : Observed φ) (payloads : Bool)
  | failed (epoch cost : ℕ)
  | subtracted (epoch : ℕ)
  | off
  | sent (epoch : ℕ)
  | dropped (epoch : ℕ)

inductive Collector (φ : Type)
  | waiting
  | gathering (batch : List (Captured φ))
  | gathered (batch : List (Captured φ)) (isOpen : Bool)
  | subtracted (batch : List (Captured φ)) (isOpen : Bool)
  | rendered (drafts : List (ℕ × Draft)) (isOpen : Bool)
  | done

/-- A capture: what it keeps and counts, all that it has recorded, and its queue: what waits in it,
the counter of its bytes, how many senders it has, and its collector. -/
structure Capture (φ : Type) where
  epoch : ℕ
  startedAt : ℤ
  records : List Record
  nextSeq : ℕ
  evicted : ℕ
  dropped : ℕ
  oversized : ℕ
  history : List Record
  waiting : List (Captured φ)
  queued : ℕ
  senders : ℕ
  collector : Collector φ

structure Reader where
  startedAt : ℤ
  after : ℕ
  shown : List Record

structure State (φ : Type) where
  active : Bool
  payloads : Bool
  session : Option ℕ
  lastStart : Option ℤ
  captures : List (Capture φ)
  observers : List (Observer φ)
  published : List Batch
  reader : Option Reader

section Model

variable {φ : Type} (F : Frames φ) (limits : Limits)

def State.initial : State φ := ⟨false, true, none, none, [], [], [], none⟩

/-- A time in whole milliseconds, later than the last one. -/
def nextStart (last : Option ℤ) (now : ℤ) : ℤ :=
  let now := now - now % 1000000
  match last with
  | some last => if now ≤ last then last + 1000000 else now
  | none => now

variable (s : State φ)

def State.capture (epoch : ℕ) : Option (Capture φ) := s.captures.find? fun c => c.epoch = epoch

def State.running : Option (Capture φ) := s.session.bind s.capture

def State.status : CaptureStatus where
  active := s.running.isSome
  startedAt := s.running.map Capture.startedAt
  payloads := s.payloads
  maxRecords := limits.maxRecords
  maxPayloadBytes := limits.maxPayloadBytes
  retained := s.running.elim 0 fun c => c.records.length
  evicted := s.running.elim 0 Capture.evicted
  dropped := s.running.elim 0 Capture.dropped
  oversized := s.running.elim 0 Capture.oversized
  nextSeq := s.running.elim 1 Capture.nextSeq

def State.publish (records : List Record) : State φ :=
  { s with published := s.published ++ [⟨records, s.status limits⟩] }

def State.setObserver (i : ℕ) (o : Observer φ) : State φ :=
  { s with observers := s.observers.set i o }

def State.change (epoch : ℕ) (f : Capture φ → Capture φ) : State φ :=
  { s with captures := s.captures.map fun c => if c.epoch = epoch then f c else c }

def State.begin (now : ℤ) : State φ :=
  let epoch := s.captures.length + 1
  let startedAt := nextStart s.lastStart now
  { s with
    active := true
    session := some epoch
    lastStart := some startedAt
    captures := s.captures ++ [⟨epoch, startedAt, [], 1, 0, 0, 0, [], [], 0, 1, .waiting⟩] }

def State.start (payloads : Bool) (now : ℤ) : State φ :=
  let s := { s with payloads := payloads }
  State.publish limits (if s.session.isSome then s else s.begin now) []

variable (c : Capture φ)

def Capture.release : Capture φ := { c with senders := c.senders - 1 }

def State.stop : State φ :=
  match s.session with
  | none => { s with active := false, payloads := true }
  | some epoch =>
    State.publish limits
      { s.change epoch Capture.release with active := false, payloads := true, session := none } []

/-! ### Observing a frame -/

variable (o : Observed φ)

def Observed.isLight (payloads : Bool) : Bool :=
  !payloads || decide (limits.maxPayloadBytes < o.bytes)

def Observed.cost (payloads : Bool) : ℕ := if o.isLight limits payloads then lightBytes else o.bytes

def Observed.body (payloads : Bool) : Body φ :=
  if o.isLight limits payloads then
    .light (F.lightFrame o.frame) (payloads && decide (limits.maxPayloadBytes < o.bytes))
  else .full (F.maskedCopy o.frame)

def Observed.captured (payloads : Bool) (now : ℤ) (call : ℕ) : Captured φ :=
  ⟨now, o.peer, o.direction, o.body F limits payloads, o.bytes, o.cost limits payloads, call⟩

/-- Take the frame's bytes of the budget, under the lock. -/
def State.reserve (i : ℕ) (o : Observed φ) (payloads : Bool) : State φ :=
  match s.running with
  | none => s.setObserver i .off
  | some c =>
    let cost := o.cost limits payloads
    if limits.queueBytes < saturatingAdd c.queued cost then
      (s.setObserver i (.dropped c.epoch)).change c.epoch fun c =>
        { c with dropped := c.dropped + 1 }
    else
      (s.setObserver i (.reserved c.epoch o payloads)).change c.epoch fun c =>
        { c with queued := wrappingAdd c.queued cost, senders := c.senders + 1 }

def Capture.isClosed : Bool :=
  match c.collector with
  | .done => true
  | _ => false

/-- Hand the copy to the collector, unless the queue is full or closed. -/
def State.trySend (i epoch : ℕ) (o : Observed φ) (payloads : Bool) (now : ℤ) : State φ :=
  if (s.capture epoch).any fun c => c.isClosed || decide (max limits.queue 1 ≤
    c.waiting.length) then
    s.setObserver i (.failed epoch (o.cost limits payloads))
  else
    (s.setObserver i (.sent epoch)).change epoch fun c =>
      { c.release with waiting := c.waiting ++ [o.captured F limits payloads now i] }

def State.observerStep (i : ℕ) (now : ℤ) : State φ :=
  match s.observers[i]? with
  | some (.entered o) => s.setObserver i (.sized o s.payloads)
  | some (.sized o payloads) => s.reserve limits i o payloads
  | some (.reserved epoch o payloads) => s.trySend F limits i epoch o payloads now
  | some (.failed epoch cost) =>
    (s.setObserver i (.subtracted epoch)).change epoch fun c =>
      { c with queued := wrappingSub c.queued cost }
  | some (.subtracted epoch) =>
    -- counted only if its capture still runs
    (s.setObserver i (.dropped epoch)).change epoch fun c =>
      { c.release with dropped := c.dropped + if s.session = some epoch then 1 else 0 }
  | _ => s

/-! ### Collecting -/

def Capture.push (draft : ℕ × Draft) : Capture φ :=
  let record : Record :=
    ⟨c.nextSeq, draft.2.record.insert "seq" (.num (toString c.nextSeq)), draft.2.size, draft.1⟩
  let kept := trim limits.maxRecords (c.records ++ [record]) c.evicted
  { c with
    records := kept.1
    nextSeq := c.nextSeq + 1
    evicted := kept.2
    oversized := c.oversized + if draft.2.oversized then 1 else 0
    history := c.history ++ [record] }

/-- Keep a batch and publish it, if its capture still runs. -/
def State.ingest (epoch : ℕ) (drafts : List (ℕ × Draft)) (next : Collector φ) : State φ :=
  if s.session = some epoch then
    let before := s.running.elim 0 fun c => c.history.length
    let s := s.change epoch fun c => { drafts.foldl (Capture.push limits) c with collector := next }
    s.publish limits (s.running.elim [] fun c => c.history.drop before)
  else s.change epoch fun c => { c with collector := next }

def batchCost (batch : List (Captured φ)) : ℕ := (batch.map Captured.cost).sum

/-- Take the next frame of a queue, into the batch. When there is none the batch ends if there is
no sender left, or in time. -/
def Capture.gather (batch : List (Captured φ)) (timedOut : Bool) :
    List (Captured φ) × Collector φ :=
  if batch.length < batchMax then
    match c.waiting with
    | captured :: rest => (rest, .gathering (batch ++ [captured]))
    | [] =>
      ([], if c.senders = 0 then .gathered batch false else if timedOut then .gathered batch true
        else .gathering batch)
  else (c.waiting, .gathered batch true)

def Capture.recv : List (Captured φ) × Collector φ :=
  match c.waiting with
  | captured :: rest => (rest, .gathering [captured])
  | [] => ([], if c.senders = 0 then .done else .waiting)

def Capture.collect (payloads timedOut : Bool) (c : Capture φ) : Capture φ :=
  match c.collector with
  | .waiting => { c with waiting := c.recv.1, collector := c.recv.2 }
  | .gathering batch =>
    { c with waiting := (c.gather batch timedOut).1, collector := (c.gather batch timedOut).2 }
  | .gathered batch isOpen =>
    { c with
      queued := wrappingSub c.queued (batchCost batch), collector := .subtracted batch isOpen }
  | .subtracted batch isOpen =>
    let drafts := batch.map fun captured =>
        (captured.call, F.render captured payloads limits.maxPayloadBytes)
    { c with collector := .rendered drafts isOpen }
  | _ => c

def State.collectorStep (epoch : ℕ) (timedOut : Bool) : State φ :=
  match (s.capture epoch).map Capture.collector with
  | some (.rendered drafts isOpen) =>
    s.ingest limits epoch drafts (if isOpen then .waiting else .done)
  | _ => s.change epoch (Capture.collect F limits s.payloads timedOut)

/-! ### Snapshots -/

/-- The first records that fit, at least one. -/
def fitting : Bool → ℕ → List Record → List Record
  | _, _, [] => []
  | started, bytes, record :: records =>
    if started && decide (snapshotMaxBytes < bytes + (record.size + 1)) then []
    else record :: fitting true (bytes + (record.size + 1)) records

def State.snapshot (afterSeq limit : Option ℕ) : Batch :=
  let limit := min (limit.getD snapshotDefaultLimit) snapshotMaxLimit
  let after := afterSeq.getD 0
  let records := s.running.elim [] Capture.records
  ⟨fitting false 2 ((records.filter fun record => decide (after < record.seq)).take limit),
    s.status limits⟩

/-- An optional parameter that is a number up to a bound. -/
def optionalCount (name : String) (max : ℕ) (value : Option ℕ) : Except String (Option ℕ) :=
  if value.any fun count => decide (max < count) then
    .error (name ++ " must be a non-negative integer of at most " ++ toString max)
  else .ok value

def State.remoteSnapshot (afterSeq limit : Option ℕ) : Except String Batch := do
  let afterSeq ← optionalCount "afterSeq" u64Max afterSeq
  let limit ← optionalCount "limit" snapshotMaxLimit limit
  if limit = some 0 then .error ("limit must be between 1 and " ++ toString snapshotMaxLimit)
  else .ok (s.snapshot limits afterSeq limit)

/-- A client reads the first page of a capture. -/
def State.readFirst (limit : Option ℕ) : State φ :=
  match s.remoteSnapshot limits none limit with
  | .error _ => s
  | .ok page =>
    { s with reader := page.capture.startedAt.map fun startedAt => ⟨startedAt,
      lastSeq Record.seq 0 page.records, page.records⟩ }

/-- A client reads on. When it meets another capture it gives up. -/
def State.readNext (limit : Option ℕ) : State φ :=
  match s.reader with
  | none => s
  | some reader =>
    match s.remoteSnapshot limits (some reader.after) limit with
    | .error _ => s
    | .ok page =>
      if page.capture.startedAt = some reader.startedAt then
        { s with reader := some { reader with
          after := lastSeq Record.seq reader.after page.records, shown :=
            reader.shown ++ page.records } }
      else { s with reader := none }

/-! ### Steps -/

inductive Act (φ : Type)
  | start (payloads : Bool) (now : ℤ)
  | stop
  | observe (o : Observed φ)
  | observer (i : ℕ) (now : ℤ)
  | collector (epoch : ℕ) (timedOut : Bool)
  | readFirst (limit : Option ℕ)
  | readNext (limit : Option ℕ)

def State.step : Act φ → State φ
  | .start payloads now => s.start limits payloads now
  | .stop => s.stop limits
  | .observe o => { s with observers := s.observers ++ [if s.active then .entered o else .off] }
  | .observer i now => s.observerStep F limits i now
  | .collector epoch timedOut => s.collectorStep F limits epoch timedOut
  | .readFirst limit => s.readFirst limits limit
  | .readNext limit => s.readNext limits limit

def State.run (acts : List (Act φ)) : State φ := acts.foldl (State.step F limits) s

end Model

end Intentd.TrafficCapture
