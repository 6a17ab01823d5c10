import Intentd.EventConflation

/-!
# The event forwarder of a subscription

The forwarder takes bus deliveries one at a time and writes frames to the
connection's outbound lane. A conflatable event goes out at once while nothing is
pending and the lane has room, and into the buffer otherwise. Any other event is
a barrier: the buffer is drained before it is sent. Pending items also leave one
by one whenever the lane has room, and all together when the buffer hands an item
back, at a fence, before a loss or a monitor frame, and when the bus closes.

The model is the forwarder of one subscription while its membership does not
change and its lane stays open. When the lane has room is an input: each event
says whether it finds room, and each opportunistic drain is an input of its own.
Waiting for room has no effect but the wait, so a blocking send is a send.
-/
namespace Intentd.EventForwarder
open JsonValues ConflationBuffer EventConflation MachineWords

structure Settings where
  id : String
  scope : Option String
  recovery : Bool
  hostRemovalControl : Bool
  principalId : Option String
  gated : Bool
  allowed : Event → Bool
  projectQueueEvent : Event → Event
  discussionProjectEvent : Event → Option Event

inductive Outbound where
  | event (item : EventItem)
  | control (frame : Json)

structure Forwarder where
  buffer : Buffer EventItem
  generation : ℕ
  sent : List Outbound
  taken : List Event
  returned : Bool

def start : Forwarder := ⟨new, 0, [], [], false⟩

namespace Settings

variable [Base64] (s : Settings)

/-- Discussion and typing events are projected for the caller before they go out. -/
def projects (event : Event) : Bool :=
  "discussion:".toList.isPrefixOf event.eventType.toList || event.eventType == "presence:changed"

def projected : EventItem → Option EventItem
  | .latest event =>
    if projects event then (s.discussionProjectEvent event).map .latest
    else some (.latest event)
  | item => some item

/-- The caller's own removal is reported by the connection itself. -/
def withheld (event : Event) : Bool :=
  s.hostRemovalControl && event.eventType == "host:members-changed" &&
    event.data.strField "action" == some "removed" && s.principalId.isSome &&
    event.data.strField "principalId" == s.principalId

def forCaller (event : Event) : Event := if s.gated then s.projectQueueEvent event else event

def sendItem (f : Forwarder) (item : EventItem) : Forwarder :=
  match s.projected item with
  | none => f
  | some item => if s.allowed item.event then { f with sent := f.sent ++ [.event item] } else f

/-- Send pending items until a pop finds none. -/
def drainUpTo : ℕ → Forwarder → Option Forwarder
  | 0, _ => none
  | n + 1, f =>
    match f.buffer.pop with
    | none => none
    | some (none, b) => some { f with buffer := b }
    | some (some item, b) => drainUpTo n (s.sendItem { f with buffer := b } item)

/-- Every pop takes an entry, so this is enough of them. -/
def drain (f : Forwarder) : Option Forwarder := s.drainUpTo (f.buffer.entries.length + 1) f

def control (f : Forwarder) (frame : Json) : Forwarder :=
  { f with sent := f.sent ++ [.control frame] }

def lostFrame (generation : ℕ) : Json :=
  .obj [("jsonrpc", .str "2.0"), ("method", .str "events.lost"),
    ("params", .obj [("subscriptionId", .str s.id), ("generation", .str generation.repr),
      ("scope", .obj [("workspaceId", (s.scope.map Json.str).getD .null)])])]

/-- Report lost events behind everything that is pending. -/
def loss (f : Forwarder) : Option Forwarder :=
  match checkedAdd f.generation 1 with
  | none => some { f with returned := true }
  | some generation => do
      let f ← s.drain { f with generation := generation }
      some (control f (s.lostFrame generation))

end Settings

inductive Enqueue where
  | sent
  | buffered
  | overflow (item : EventItem)

/-- Send past an empty buffer if the lane has room, buffer otherwise. -/
def offer (b : Buffer EventItem) (key : Key) (item : EventItem) (room : Bool) :
    Option (Enqueue × Buffer EventItem) :=
  if b.entries.isEmpty && room then some (.sent, b)
  else do
    let (handedBack, b) ← b.push key item
    match handedBack with
    | none => some (.buffered, b)
    | some item => some (.overflow item, b)

inductive Delivery where
  /-- Each event says whether the lane has room when it is offered. -/
  | batch (events : List (Event × Bool))
  | fence
  | lagged
  | historyChanged
  | monitor (output : Json)

inductive Input where
  | drain
  | delivery (d : Option Delivery)

namespace Settings

variable [Base64] (s : Settings)
variable (f : Forwarder)

def forwardEvent (event : Event) (room : Bool) : Option Forwarder :=
  match eventKey event with
  | some key => do
      let item := EventItem.new key event
      let (result, b) ← offer f.buffer key item room
      match result with
      | .sent => some { f with buffer := b, sent := f.sent ++ [.event item] }
      | .buffered => some { f with buffer := b }
      | .overflow item => do
          let f ← s.drain { f with buffer := b }
          some (s.sendItem f item)
  | none => do
      let f ← s.drain f
      some (s.sendItem f (.latest event))

def takeEvent (taken : Event × Bool) : Option Forwarder :=
  let f := { f with taken := f.taken ++ [taken.1] }
  if s.withheld taken.1 || !s.allowed taken.1 then some f
  else s.forwardEvent f (s.forCaller taken.1) taken.2

def deliver : Option Delivery → Option Forwarder
  | none => do
      let f ← s.drain f
      some { f with returned := true }
  | some .fence => s.drain f
  | some .lagged => if s.recovery then s.loss f else some f
  | some .historyChanged => some f
  | some (.monitor output) => do
      let f ← s.drain f
      some (control f output)
  | some (.batch events) => events.foldlM s.takeEvent f

/-- One turn of the loop. A forwarder that has returned takes nothing more. -/
def step (input : Input) : Option Forwarder :=
  if f.returned then some f
  else
    match input with
    | .drain => do
        let (item, b) ← f.buffer.pop
        match item with
        | none => some { f with buffer := b }
        | some item => some (s.sendItem { f with buffer := b } item)
    | .delivery d => s.deliver f d

def forward (inputs : List Input) : Option Forwarder := inputs.foldlM s.step start

end Settings

end Intentd.EventForwarder
