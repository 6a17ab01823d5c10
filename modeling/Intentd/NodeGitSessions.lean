import Intentd.HeadGitSessions

/-!
# Git sessions on a machine

The machine opens its sessions on the git connection that is attached at the time. A reader for each
connection takes head's messages and puts them into the queues of the sessions in a table. Attaching
another connection clears the table, and the reader of the one before finds at its next message that
it is no longer current.

Head answers only sessions that were opened, as `HeadGitSessions.run_sound` says of what it sends.
-/
namespace Intentd.NodeGitSessions
open HeadGitSessions FoldedRuns List

inductive SessionEvent
  | accepted
  | data (bytes : List UInt8)
  | closed (error : Option String)
deriving DecidableEq

inductive Report
  | data (bytes : List UInt8)
  | finished
  | failed (code : Code)
deriving DecidableEq

def Report.isFailed : Report → Bool
  | .failed _ => true
  | _ => false

/-- How far a session is. A session that failed to open is about to be dropped. -/
inductive Stage
  | opening
  | waiting
  | opened
  | failed
  | dropped
deriving DecidableEq

/-- A session with its entry in the table, the event that the reader holds until the queue has room,
the queue, what was taken from it and what the caller was told. -/
structure GitSession where
  number : ℕ
  id : UInt32
  epoch : ℕ
  listed : Bool
  handed : Option SessionEvent
  queue : List SessionEvent
  received : List SessionEvent
  stage : Stage
  closed : Bool
  reports : List Report
deriving DecidableEq

inductive Reader
  | reading
  | leaving
  | ended
deriving DecidableEq

/-- A git connection: what head sent, how much of it the reader has taken, and what was sent to
head. -/
structure Connection where
  epoch : ℕ
  fromHead : List Message
  taken : ℕ
  toHead : List Message
  closed : Bool
  reader : Reader
deriving DecidableEq

structure NodeState where
  connection : Option ℕ
  epoch : ℕ
  nextId : UInt32
  opened : ℕ
  connections : List Connection
  sessions : List GitSession
deriving DecidableEq

/-- What happens next. Sessions are named by their number, connections by their epoch. -/
inductive Act
  | attach
  | close (epoch : ℕ)
  | openSession
  | sendOpen (session : ℕ) (payload : List UInt8) (sent : Bool)
  | accept (session : ℕ)
  | send (session : ℕ) (bytes : List UInt8)
  | finish (session : ℕ)
  | recv (session : ℕ)
  | drop (session : ℕ)
  | head (epoch : ℕ) (m : Message)
  | take (epoch : ℕ)
  | hand (epoch : ℕ)
  | giveUp (epoch : ℕ)
  | lose (epoch : ℕ)
  | leave (epoch : ℕ)
deriving DecidableEq

def sessionError (code : String) : Code :=
  if code = Code.denied.text then .denied
  else if code = Code.busy.text then .busy
  else if code = Code.invalid.text then .invalid
  else if code = Code.unavailable.text then .unavailable
  else .failed

section Model

variable (status : StatusCodec)

def eventOf (m : Message) : Option SessionEvent :=
  if m.kind = Kind.accept then some .accepted
  else if m.kind = Kind.data then some (.data m.payload)
  else if m.kind = Kind.close then
    some (.closed ((status.fromSlice m.payload).getD (some Code.failed.text)))
  else none

def NodeState.initial : NodeState := ⟨none, 0, 0, 0, [], []⟩

variable (n : NodeState)

def NodeState.update (p : GitSession → Bool) (f : GitSession → GitSession) : NodeState :=
  { n with sessions := n.sessions.map fun s => if p s then f s else s }

def NodeState.connect (epoch : ℕ) (f : Connection → Connection) : NodeState :=
  { n with connections := n.connections.map fun c => if c.epoch = epoch then f c else c }

def NodeState.session (number : ℕ) : Option GitSession := n.sessions.find? fun s =>
    s.number = number

variable (s : GitSession)

def GitSession.unlist : GitSession := { s with listed := false }

def Connection.send (m : Message) (c : Connection) : Connection :=
  if c.closed then c else { c with toHead := c.toHead ++ [m] }

/-- Use a new connection. The sessions of the one before leave the table. -/
def NodeState.attach : NodeState :=
  { n.update (fun _ => true) GitSession.unlist with
    connection := some (n.epoch + 1)
    epoch := n.epoch + 1
    connections := n.connections ++ [⟨n.epoch + 1, [], 0, [], false, .reading⟩] }

/-- A connection that was replaced is closed after the lock is released. -/
def NodeState.close (epoch : ℕ) : NodeState :=
  if epoch < n.epoch then n.connect epoch fun c => { c with closed := true } else n

/-- Register a session on the current connection. Without one the caller goes on waiting. -/
def NodeState.openSession : NodeState :=
  match n.connection with
  | none => n
  | some epoch =>
    { n with
      nextId := n.nextId + 1
      opened := n.opened + 1
      sessions := (n.update (fun s => s.id = n.nextId) GitSession.unlist).sessions ++
        [⟨n.opened, n.nextId, epoch, true, none, [], [], .opening, false, []⟩] }

/-- A session is dropped. Unless head closed it, head is told. -/
def NodeState.drop (number : ℕ) : NodeState :=
  match n.session number with
  | none => n
  | some s =>
    if s.stage = .dropped then n
    else
      let n' :=
        (n.update (fun s' => s'.number = number) fun s => { s with stage := .dropped }).update
        (fun s' => s.epoch = n.epoch ∧ s'.id = s.id) GitSession.unlist
      if s.closed then n' else n'.connect s.epoch (Connection.send ⟨Kind.close, s.id, []⟩)

def GitSession.fail (code : Code) : GitSession :=
  { s with stage := .failed, reports := s.reports ++ [.failed code] }

def GitSession.sendOpen (sent : Bool) : GitSession :=
  if s.stage = .opening then
    if sent then { s with stage := .waiting } else s.fail .unavailable
  else s

/-- The next event of the queue, or its end once no sender is left: neither the table nor the
reader. -/
def GitSession.next : Option (Option SessionEvent × GitSession) :=
  match s.queue with
  | event :: queue => some (some event, { s with received := s.received ++ [event], queue })
  | [] => if s.listed ∨ s.handed ≠ none then none else some (none, s)

/-- The first event tells whether head accepted the session. -/
def GitSession.accept : GitSession :=
  if s.stage = .waiting then
    match s.next with
    | none => s
    | some (some .accepted, s) => { s with stage := .opened }
    | some (some (.closed error), s) =>
      { s.fail (sessionError (error.getD Code.failed.text)) with closed := true }
    | some (some (.data _), s) => s.fail .unavailable
    | some (none, s) => s.fail .unavailable
  else s

def GitSession.report (r : Report) : GitSession := { s with reports := s.reports ++ [r] }

/-- The next output. A session that is closed has none. -/
def GitSession.recv : GitSession :=
  if s.stage = .opened then
    if s.closed then s.report .finished
    else
      match s.next with
      | none => s
      | some (some (.data bytes), s) => s.report (.data bytes)
      | some (some (.closed none), s) => { s.report .finished with closed := true }
      | some (some (.closed (some code)), s) =>
        { s.report (.failed (sessionError code)) with closed := true }
      | some (some .accepted, s) => { s.report (.failed .unavailable) with closed := true }
      | some (none, s) => { s.report (.failed .unavailable) with closed := true }
  else s

def GitSession.sends : Act → Option Message
  | .sendOpen _ payload sent =>
    if s.stage = .opening ∧ sent then some ⟨Kind.opening, s.id, payload⟩ else none
  | .send _ bytes => if s.stage = .opened then some ⟨Kind.data, s.id, bytes⟩ else none
  | .finish _ => if s.stage = .opened then some ⟨Kind.eof, s.id, []⟩ else none
  | _ => none

def GitSession.step : Act → GitSession
  | .sendOpen _ _ sent => s.sendOpen sent
  | .accept _ => s.accept
  | .recv _ => s.recv
  | _ => s

def NodeState.work (number : ℕ) (act : Act) : NodeState :=
  match n.session number with
  | none => n
  | some s =>
    ((s.sends act).elim n fun m => n.connect s.epoch (Connection.send m)).update (fun s =>
      s.number = number)
      (GitSession.step · act)

/-- Head sends a message for a session that was opened on the connection. -/
def Connection.head (m : Message) (c : Connection) : Connection :=
  if c.toHead.any fun m' => m'.kind = Kind.opening ∧
    m'.session = m.session then { c with fromHead := c.fromHead ++ [m] }
  else c

/-- The reader of a connection waits for room in a session's queue. -/
def NodeState.isBlocked (epoch : ℕ) : Bool := n.sessions.any fun s => s.epoch = epoch ∧
    s.handed ≠ none

def Connection.advance (leaves : Bool) (c : Connection) : Connection :=
  { c with taken := c.taken + 1, reader := if leaves then .leaving else c.reader }

/-- The reader takes the next message and looks its session up. -/
def NodeState.take (epoch : ℕ) : NodeState :=
  match n.connections.find? fun c => c.epoch = epoch with
  | none => n
  | some c =>
    match c.fromHead[c.taken]? with
    | none => n
    | some m =>
      if c.reader = .reading ∧ n.isBlocked epoch = false then
        match eventOf status m with
        | none => n.connect epoch (Connection.advance true)
        | some event =>
          if epoch = n.epoch then
            (n.connect epoch (Connection.advance false)).update (fun s => s.listed ∧
              s.id = m.session)
              fun s => { s with handed := some event }
          else n.connect epoch (Connection.advance true)
      else n

/-- The event goes into the queue once there is room, and nowhere once the session is dropped. -/
def GitSession.hand : GitSession :=
  match s.handed with
  | none => s
  | some event =>
    if s.stage = .dropped then { s with handed := none }
    else if s.queue.length <
      sessionQueue then { s with handed := none, queue := s.queue ++ [event] }
    else s

def Connection.stop (c : Connection) : Connection :=
  if c.reader = .reading then { c with reader := .leaving } else c

/-- A reader that waits for room stops when its connection is closed. The event it holds is lost. -/
def NodeState.giveUp (epoch : ℕ) : NodeState :=
  if n.isBlocked epoch ∧ n.connections.any fun c => c.epoch = epoch ∧ c.closed then
    (n.connect epoch Connection.stop).update (fun s => s.epoch = epoch) fun s =>
      { s with handed := none }
  else n

def NodeState.lose (epoch : ℕ) : NodeState :=
  if n.isBlocked epoch then n else n.connect epoch Connection.stop

/-- A reader ends. The last one leaves no connection. -/
def NodeState.leave (epoch : ℕ) : NodeState :=
  if n.connections.any fun c => c.epoch = epoch ∧ c.reader = .leaving then
    let n' := n.connect epoch fun c => { c with closed := true, reader := .ended }
    if epoch = n.epoch then { n'.update (fun _ => true) GitSession.unlist with connection := none }
    else n'
  else n

def NodeState.step (act : Act) : NodeState :=
  match act with
  | .attach => n.attach
  | .close epoch => n.close epoch
  | .openSession => n.openSession
  | .drop number => n.drop number
  | .head epoch m => n.connect epoch (Connection.head m)
  | .take epoch => n.take status epoch
  | .hand epoch => n.update (fun s => s.epoch = epoch) GitSession.hand
  | .giveUp epoch => n.giveUp epoch
  | .lose epoch => n.lose epoch
  | .leave epoch => n.leave epoch
  | .sendOpen number _ _ | .accept number | .send number _ | .finish number | .recv number =>
    n.work number act

def NodeState.run (acts : List Act) : NodeState := acts.foldl (NodeState.step status) .initial

def eventsFor (id : UInt32) (msgs : List Message) : List SessionEvent :=
  msgs.filterMap fun m => if m.session = id then eventOf status m else none

/-- What a session received, with what is in its queue and with the reader. -/
@[simp] def GitSession.events : List SessionEvent := s.received ++ s.queue ++ s.handed.toList

/-- What a session receives is what head sent for it, in order. Nothing is left out but what is on
its way, unless the session was dropped or the connection ended. A session that is reported finished
was closed without an error. -/
structure NodeState.Sound (n : NodeState) : Prop where
  connected : ∀ s ∈ n.sessions, ∃ c ∈ n.connections, c.epoch = s.epoch
  events : ∀ s ∈ n.sessions, ∀ c ∈ n.connections, c.epoch = s.epoch →
    s.received ++ s.queue <+: eventsFor status s.id c.fromHead
  whole : ∀ s ∈ n.sessions, ∀ c ∈ n.connections, c.epoch = s.epoch → s.stage ≠ .dropped →
    c.epoch = n.epoch → c.reader = .reading →
      s.events ++ eventsFor status s.id (c.fromHead.drop c.taken) = eventsFor status s.id c.fromHead
  finished : ∀ s ∈ n.sessions, .finished ∈ s.reports → .closed none ∈ s.received

end Model

/-- A caller does not go on receiving after an error, and ids do not run out. -/
def Clear (n : NodeState) : Act → Prop
  | .openSession => n.opened + 1 < 0x100000000
  | .recv number => ∀ s ∈ n.sessions, s.number = number → ∀ r ∈ s.reports, r.isFailed = false
  | _ => True

instance decidableClear (n : NodeState) : (act : Act) → Decidable (Clear n act)
  | .openSession => inferInstanceAs (Decidable (n.opened + 1 < 0x100000000))
  | .recv number =>
    inferInstanceAs (Decidable (∀ s ∈ n.sessions, s.number = number →
      ∀ r ∈ s.reports, r.isFailed = false))
  | .attach | .close _ | .sendOpen _ _ _ | .accept _ | .send _ _ | .finish _ | .drop _ | .head _ _
  | .take _ | .hand _ | .giveUp _ | .lose _ | .leave _ => .isTrue trivial

/-! ## The invariant -/

structure GitSession.Told (s : GitSession) : Prop where
  finished : .finished ∈ s.reports → .closed none ∈ s.received
  closed : s.closed → .closed none ∈ s.received ∨ ∃ r ∈ s.reports, r.isFailed

structure GitSession.Known (n : NodeState) (s : GitSession) : Prop where
  id : s.id = .ofNat s.number
  number : s.number < n.opened
  listed : s.listed → s.epoch = n.epoch
  connected : ∃ c ∈ n.connections, c.epoch = s.epoch
  told : s.Told

structure Connection.Known (n : NodeState) (c : Connection) : Prop where
  epoch : c.epoch ≤ n.epoch
  taken : c.taken ≤ c.fromHead.length
  opens : ∀ m ∈ c.toHead, m.kind = Kind.opening → ∃ number < n.opened, m.session = .ofNat number
  answers : ∀ m ∈ c.fromHead, ∃ number < n.opened, m.session = .ofNat number

def Connection.heard (status : StatusCodec) (c : Connection) (id : UInt32) : List SessionEvent :=
  eventsFor status id (c.fromHead.take c.taken)

/-- What a session has of what its connection's reader heard. -/
structure Holds (status : StatusCodec) (epoch : ℕ) (s : GitSession) (c : Connection) : Prop where
  received : s.received ++ s.queue <+: c.heard status s.id
  events : s.stage ≠ .dropped → s.events <+: c.heard status s.id
  whole : s.stage ≠ .dropped → c.epoch = epoch → c.reader = .reading → s.listed ∧
    s.events = c.heard status s.id

structure Inv (status : StatusCodec) (n : NodeState) : Prop where
  connection : ∀ epoch ∈ n.connection, epoch = n.epoch ∧ ∃ c ∈ n.connections, c.epoch = epoch
  few : n.opened < 0x100000000
  next : n.nextId = .ofNat n.opened
  epochs : ∀ c ∈ n.connections, ∀ c' ∈ n.connections, c.epoch = c'.epoch → c = c'
  sessions : ∀ s ∈ n.sessions, s.Known n
  connections : ∀ c ∈ n.connections, c.Known n
  holds : ∀ s ∈ n.sessions, ∀ c ∈ n.connections, c.epoch = s.epoch → Holds status n.epoch s c

variable {p : GitSession → Bool}

section Steps

variable {status : StatusCodec} {n : NodeState} {s s' : GitSession} {c c' : Connection}
  {m : Message} {epoch : ℕ}
  {f : GitSession → GitSession} {g : Connection → Connection} {event : Option SessionEvent}
  {act : Act}

/-! ### What a connection has heard -/

theorem eventsFor_append (id : UInt32) (before after : List Message) :
    eventsFor status id (before ++ after) = eventsFor status id before ++
      eventsFor status id after :=
  filterMap_append

theorem Connection.heard_append (c : Connection) (id : UInt32) :
    c.heard status id ++ eventsFor status id (c.fromHead.drop c.taken) =
      eventsFor status id c.fromHead := by
  rw [heard, ← eventsFor_append, take_append_drop]

theorem Holds.keeps (hho : Holds status epoch s c)
    (hh : ∀ id, c'.heard status id = c.heard status id)
    (he : c'.epoch = c.epoch) (hre : c'.reader = .reading → c.reader = .reading) :
    Holds status epoch s c' := by
  refine ⟨?_, ?_, ?_⟩
  · rw [hh]
    exact hho.received
  · rw [hh]
    exact hho.events
  · rw [hh, he]
    exact fun hs hc hr => hho.whole hs hc (hre hr)

theorem Connection.stop_reader : c.stop.reader ≠ .reading := by
  unfold stop
  split_ifs with hr
  · simp
  · exact hr

theorem Connection.stop_known (hk : c.Known n) : c.stop.epoch = c.epoch ∧ c.stop.Known n := by
  unfold stop
  split_ifs
  · exact ⟨rfl, { hk with }⟩
  · exact ⟨rfl, hk⟩

theorem Connection.stop_heard (id : UInt32) : c.stop.heard status id = c.heard status id := by
  unfold stop
  split_ifs <;> rfl

theorem Connection.heard_advance (status : StatusCodec) (hm : c.fromHead[c.taken]? = some m)
    (leaves : Bool) (id : UInt32) :
    (c.advance leaves).heard status id = c.heard status id ++
      if m.session = id then (eventOf status m).toList else [] := by
  change eventsFor status id (c.fromHead.take (c.taken + 1)) =
      eventsFor status id (c.fromHead.take c.taken) ++ _
  rw [take_add_one, hm, eventsFor_append]
  unfold eventsFor
  split_ifs with hs
  · cases he : eventOf status m <;> simp [hs, he]
  · simp [hs]

theorem Holds.advance (hh : Holds status epoch s c) (hm : c.fromHead[c.taken]? = some m) :
    Holds status epoch s (c.advance true) := by
  refine ⟨?_, fun hs => ?_, nofun⟩
  · rw [Connection.heard_advance status hm]
    exact hh.received.trans (prefix_append _ _)
  · rw [Connection.heard_advance status hm]
    exact (hh.events hs).trans (prefix_append _ _)

/-- The reader goes on with the session that is in the table under the message's id. -/
theorem Holds.taken (hho : Holds status epoch s c) (hm : c.fromHead[c.taken]? = some m)
    {event : SessionEvent}
    (hev : eventOf status m = some event) (hha : s.handed = none) (hcu : c.epoch = epoch)
    (hre : c.reader = .reading) :
    Holds status epoch (if s.listed ∧ s.id = m.session then { s with handed := some event } else s)
      (c.advance false) := by
  have hhe := Connection.heard_advance status hm false s.id
  rw [hev] at hhe
  have hgr : c.heard status s.id <+: (c.advance false).heard status s.id := hhe ▸ prefix_append _ _
  split_ifs with hat
  · have hsum : s.events = c.heard status s.id →
        ({ s with handed := some event } : GitSession).events =
          (c.advance false).heard status s.id := by
      intro heq
      rw [hhe, ← heq, if_pos hat.2.symm]
      simp [hha]
    have hbe := fun hst => hho.whole hst hcu hre
    refine ⟨hho.received.trans hgr, fun hst => ?_, fun hst _ _ => ⟨hat.1, hsum (hbe hst).2⟩⟩
    exact (hsum (hbe hst).2).subst (motive := (_ <+: ·)) prefix_rfl
  · refine ⟨hho.received.trans hgr, fun hst => (hho.events hst).trans hgr, fun hst _ _ => ?_⟩
    obtain ⟨hli, heq⟩ := hho.whole hst hcu hre
    refine ⟨hli, heq.trans ?_⟩
    rw [hhe, if_neg fun hse => hat ⟨hli, hse.symm⟩, append_nil]

theorem eventsFor_eq_nil {id : UInt32} {msgs : List Message} (h : ∀ m ∈ msgs, m.session ≠ id) :
    eventsFor status id msgs = [] :=
  filterMap_eq_nil_iff.mpr fun m hm => if_neg (h m hm)

/-! ### A session makes a step -/

structure GitSession.Follows (s s' : GitSession) : Prop where
  number : s'.number = s.number
  id : s'.id = s.id
  epoch : s'.epoch = s.epoch
  listed : s'.listed → s.listed
  told : s'.Told

/-- A step of a session that keeps its events in order. -/
structure GitSession.Goes (s s' : GitSession) : Prop where
  same : s'.number = s.number ∧ s'.id = s.id ∧ s'.epoch = s.epoch ∧ s'.listed = s.listed
  received : s'.received ++ s'.queue = s.received ++ s.queue
  handed : s'.handed = s.handed
  dropped : s'.stage ≠ .dropped → s.stage ≠ .dropped

theorem GitSession.Goes.refl : s.Goes s := ⟨⟨rfl, rfl, rfl, rfl⟩, rfl, rfl, fun h => h⟩

theorem Holds.goes (hh : Holds status epoch s c) (hg : s.Goes s') : Holds status epoch s' c := by
  obtain ⟨-, hid, -, hl⟩ := hg.same
  have he : s'.events = s.events := by
    unfold GitSession.events
    rw [hg.received, hg.handed]
  refine ⟨?_, fun hs => ?_, fun hs => ?_⟩
  · rw [hg.received, hid]
    exact hh.received
  · rw [he, hid]
    exact hh.events (hg.dropped hs)
  · rw [he, hid, hl]
    exact hh.whole (hg.dropped hs)

theorem GitSession.Goes.follows (hg : s.Goes s') (ht : s'.Told) : s.Follows s' :=
  ⟨hg.same.1, hg.same.2.1, hg.same.2.2.1, fun h => hg.same.2.2.2 ▸ h, ht⟩

theorem GitSession.Told.failed (ht : s.Told) (code : Code) (hre : s.received ⊆ s'.received)
    (hr : s'.reports = s.reports ++ [.failed code]) : s'.Told := by
  refine ⟨fun hf => ?_, fun _ => .inr ⟨.failed code, ?_, rfl⟩⟩
  · rw [hr] at hf
    rcases mem_append.mp hf with hold | hnew
    · exact hre (ht.finished hold)
    · cases mem_singleton.mp hnew
  · rw [hr]
    exact mem_append_right _ (mem_singleton.mpr rfl)

theorem GitSession.Told.finish (hc : .closed none ∈ s.received) : s.Told :=
  ⟨fun _ => hc, fun _ => .inl hc⟩

/-- Taking the next event only moves it, whatever becomes of the session then. -/
theorem GitSession.next_spec (h : s.next = some (event, s')) (hs : s.stage ≠ .dropped) :
    (∀ stage closed reports, s.Goes { s' with stage, closed, reports }) ∧
      s'.received = s.received ++ event.toList ∧ s'.reports = s.reports ∧ s'.closed = s.closed := by
  unfold next at h
  split at h
  · next first queue hq =>
      cases h
      exact ⟨fun _ _ _ => ⟨⟨rfl, rfl, rfl, rfl⟩, by simp [hq], rfl, fun _ => hs⟩, rfl, rfl, rfl⟩
  · split_ifs at h
    cases h
    exact ⟨fun _ _ _ => ⟨⟨rfl, rfl, rfl, rfl⟩, rfl, rfl, fun _ => hs⟩, by simp, rfl, rfl⟩

theorem GitSession.next_fails (h : s.next = some (event, s')) (hs : s.stage ≠ .dropped)
    (ht : s.Told) (stage : Stage) (closed : Bool) (code : Code) :
    s.Goes { s' with stage, closed, reports := s'.reports ++ [.failed code] } ∧
      ({ s' with stage, closed, reports := s'.reports ++ [.failed code] } : GitSession).Told := by
  obtain ⟨hg, hr, hre, -⟩ := next_spec h hs
  refine ⟨hg _ _ _, ht.failed code ?_ ?_⟩
  · exact hr ▸ subset_append_left _ _
  · exact congrArg (· ++ [Report.failed code]) hre

theorem GitSession.sendOpen_goes (sent : Bool) (ht : s.Told) :
    s.Goes (s.sendOpen sent) ∧ (s.sendOpen sent).Told := by
  unfold sendOpen
  split_ifs with hs
  · exact ⟨⟨⟨rfl, rfl, rfl, rfl⟩, rfl, rfl, fun _ => by simp [hs]⟩, ht.finished, ht.closed⟩
  · exact ⟨⟨⟨rfl, rfl, rfl, rfl⟩, rfl, rfl, fun _ => by simp [hs]⟩,
      ht.failed .unavailable (List.Subset.refl _) rfl⟩
  · exact ⟨.refl, ht⟩

theorem GitSession.accept_goes (ht : s.Told) : s.Goes s.accept ∧ s.accept.Told := by
  unfold accept
  by_cases hw : s.stage = .waiting
  · have hs : s.stage ≠ .dropped := by simp [hw]
    rw [if_pos hw]
    split
    · exact ⟨.refl, ht⟩
    · next hn =>
        obtain ⟨hg, hr, hre, hc⟩ := next_spec hn hs
        refine ⟨hg _ _ _, fun hf => ?_, fun hend => ?_⟩
        · exact hr ▸ mem_append_left _ (ht.finished (hre ▸ hf))
        · refine (ht.closed (hc ▸ hend)).imp (fun h => ?_) fun h => ?_
          · exact hr ▸ mem_append_left _ h
          · exact hre ▸ h
    all_goals next hn => exact next_fails hn hs ht _ _ _
  · rw [if_neg hw]
    exact ⟨.refl, ht⟩

theorem GitSession.recv_goes (hto : s.Told) (hcle : ∀ r ∈ s.reports, r.isFailed = false) :
    s.Goes s.recv ∧ s.recv.Told := by
  unfold recv
  by_cases hop : s.stage = .opened
  · have hst : s.stage ≠ .dropped := by simp [hop]
    rw [if_pos hop]
    by_cases hcl : s.closed
    · rw [if_pos hcl]
      refine ⟨⟨⟨rfl, rfl, rfl, rfl⟩, rfl, rfl, fun h => h⟩, .finish ?_⟩
      rcases hto.closed hcl with hend | ⟨r, hr, hfa⟩
      · exact hend
      · cases hfa.symm.trans (hcle r hr)
    rw [if_neg hcl]
    split
    · exact ⟨.refl, hto⟩
    · next hne =>
        obtain ⟨hgo, hre, hrep, hcl'⟩ := next_spec hne hst
        refine ⟨hgo _ _ _, fun hfi => ?_, fun hend => absurd (hcl' ▸ hend) hcl⟩
        rcases mem_append.mp hfi with hold | hnew
        · exact hre ▸ mem_append_left _ (hto.finished (hrep ▸ hold))
        · cases mem_singleton.mp hnew
    · next hne =>
        obtain ⟨hgo, hre, -⟩ := next_spec hne hst
        exact ⟨hgo _ _ _, .finish (hre ▸ mem_append_right _ (mem_singleton.mpr rfl))⟩
    all_goals next hne => exact next_fails hne hst hto _ _ _
  · rw [if_neg hop]
    exact ⟨.refl, hto⟩

theorem GitSession.sends_session (hm : s.sends act = some m) : m.session = s.id := by
  cases act <;> simp only [sends] at hm
  case sendOpen | send | finish => split_ifs at hm; cases hm; rfl
  all_goals cases hm

theorem GitSession.step_goes (ht : s.Told)
    (hc : ∀ k, act = .recv k → ∀ r ∈ s.reports, r.isFailed = false) :
    s.Goes (s.step act) ∧ (s.step act).Told := by
  cases act <;> simp only [step]
  case sendOpen => exact sendOpen_goes _ ht
  case accept => exact accept_goes ht
  case recv => exact recv_goes ht (hc _ rfl)
  all_goals exact ⟨.refl, ht⟩

/-! ### Every step keeps the invariant -/

variable (hinv : Inv status n)
include hinv

theorem Inv.sound : n.Sound status where
  connected := fun s hs => (hinv.sessions s hs).connected
  events := by
    intro s hs c hc he
    rw [← c.heard_append]
    exact (hinv.holds s hs c hc he).received.trans (prefix_append _ _)
  whole := by
    intro s hs c hc he hst hcu hr
    rw [((hinv.holds s hs c hc he).whole hst hcu hr).2, c.heard_append]
  finished := fun s hs => (hinv.sessions s hs).told.finished

/-- Sessions and connections change that stay what they are known as. -/
theorem Inv.change {connection : Option ℕ} (hco : ∀ epoch ∈ connection, epoch ∈ n.connection)
    (hf : ∀ s ∈ n.sessions, p s → s.Follows (f s))
    (hg : ∀ c ∈ n.connections, c.epoch = epoch → (g c).epoch = c.epoch ∧ (g c).Known n)
    (hh : ∀ s ∈ n.sessions, ∀ c ∈ n.connections, c.epoch = s.epoch → Holds status n.epoch s c →
      Holds status n.epoch (if p s then f s else s) (if c.epoch = epoch then g c else c)) :
    Inv status { (n.connect epoch g).update p f with connection := connection } := by
  have hf : ∀ s ∈ n.sessions, s.Follows (if p s then f s else s) := fun s hs => by
    split_ifs with hp
    · exact hf s hs hp
    · exact ⟨rfl, rfl, rfl, id, (hinv.sessions s hs).told⟩
  have hg : ∀ c ∈ n.connections, (if c.epoch = epoch then g c else c).epoch = c.epoch ∧
      (if c.epoch = epoch then g c else c).Known n := fun c hc => by
    split_ifs with he
    · exact hg c hc he
    · exact ⟨rfl, hinv.connections c hc⟩
  refine ⟨fun epoch he => ?_, hinv.few, hinv.next, ?_, ?_, ?_, ?_⟩
  · obtain ⟨hcu, c, hc, hep⟩ := hinv.connection epoch (hco epoch he)
    exact ⟨hcu, _, mem_map_of_mem hc, (hg c hc).1.trans hep⟩
  · refine forall_mem_map.mpr fun c hc => forall_mem_map.mpr fun c' hc' he => ?_
    rw [(hg c hc).1, (hg c' hc').1] at he
    rw [hinv.epochs c hc c' hc' he]
  · refine forall_mem_map.mpr fun s hs => ?_
    have hk := hinv.sessions s hs
    have hfo := hf s hs
    obtain ⟨c, hc, he⟩ := hk.connected
    refine ⟨?_, ?_, fun hl => ?_, ⟨_, mem_map_of_mem hc, ?_⟩, hfo.told⟩
    · rw [hfo.id, hfo.number]
      exact hk.id
    · rw [hfo.number]
      exact hk.number
    · rw [hfo.epoch]
      exact hk.listed (hfo.listed hl)
    · rw [(hg c hc).1, hfo.epoch, he]
  · refine forall_mem_map.mpr fun c hc => ?_
    have hk := (hg c hc).2
    exact { hk with }
  · refine forall_mem_map.mpr fun s hs => forall_mem_map.mpr fun c hc he => ?_
    rw [(hg c hc).1, (hf s hs).epoch] at he
    exact hh s hs c hc he (hinv.holds s hs c hc he)

theorem Inv.update (hf : ∀ s ∈ n.sessions, p s → s.Follows (f s))
    (hh : ∀ s ∈ n.sessions, p s → ∀ c, Holds status n.epoch s c → Holds status n.epoch (f s) c) :
    Inv status (n.update p f) := by
  have hch : Inv status ((n.connect 0 id).update p f) :=
    hinv.change (fun _ h => h) hf (fun c hc _ => ⟨rfl, hinv.connections c hc⟩)
      fun s hs c _ _ h => by
      rw [id, ite_self]
      split_ifs with hp
      · exact hh s hs hp c h
      · exact h
  simpa [NodeState.connect] using hch

theorem Inv.connect (hg : ∀ c ∈ n.connections, c.epoch = epoch →
    (g c).epoch = c.epoch ∧ (g c).Known n)
    (hh : ∀ c ∈ n.connections, c.epoch = epoch → ∀ s, Holds status n.epoch s c →
      Holds status n.epoch s (g c)) : Inv status (n.connect epoch g) := by
  have hch : Inv status ((n.connect epoch g).update (fun _ => false) id) :=
    hinv.change (fun _ h => h) nofun hg fun s _ c hc _ h => by
      rw [id, ite_self]
      split_ifs with he
      · exact hh c hc he s h
      · exact h
  simpa [NodeState.update] using hch

theorem Inv.send (epoch : ℕ)
    (hm : m.kind = Kind.opening → ∃ number < n.opened, m.session = .ofNat number) :
    Inv status (n.connect epoch (Connection.send m)) := by
  refine hinv.connect (fun c hc _ => ?_) fun c _ _ s hh => ?_
  · have hk := hinv.connections c hc
    unfold Connection.send
    split_ifs
    · exact ⟨rfl, hk⟩
    · refine ⟨rfl, { hk with opens := ?_ }⟩
      exact forall_mem_append.mpr ⟨hk.opens, forall_mem_singleton.mpr hm⟩
  · unfold Connection.send
    split_ifs
    · exact hh
    · exact hh.keeps (fun _ => rfl) rfl id

theorem Inv.head (epoch : ℕ) (m : Message) : Inv status (n.connect epoch (Connection.head m)) := by
  refine hinv.connect (fun c hc _ => ?_) fun c hc _ s hh => ?_
  · have hk := hinv.connections c hc
    unfold Connection.head
    split_ifs with hop
    · refine ⟨rfl, { hk with taken := hk.taken.trans (by simp), answers := ?_ }⟩
      refine forall_mem_append.mpr ⟨hk.answers, forall_mem_singleton.mpr ?_⟩
      obtain ⟨m₀, hm₀, ho⟩ := any_eq_true.mp hop
      have ho := of_decide_eq_true ho
      exact ho.2 ▸ hk.opens m₀ hm₀ ho.1
    · exact ⟨rfl, hk⟩
  · unfold Connection.head
    split_ifs
    · refine hh.keeps (fun id => ?_) rfl id
      unfold Connection.heard
      rw [take_append_of_le_length (hinv.connections c hc).taken]
    · exact hh

theorem Inv.lose (epoch : ℕ) : Inv status (n.lose epoch) := by
  unfold NodeState.lose
  split_ifs
  · exact hinv
  · exact hinv.connect (fun c hc _ => Connection.stop_known (hinv.connections c hc))
      fun c hc _ s hh =>
      hh.keeps Connection.stop_heard (Connection.stop_known (hinv.connections c hc)).1
        fun h => absurd h Connection.stop_reader

theorem Inv.giveUp (epoch : ℕ) : Inv status (n.giveUp epoch) := by
  unfold NodeState.giveUp
  split_ifs
  · refine hinv.change (fun _ h => h) (fun s hs _ =>
      ⟨rfl, rfl, rfl, id, { (hinv.sessions s hs).told with }⟩)
      (fun c hc _ => Connection.stop_known (hinv.connections c hc)) fun s hs c hc he hh => ?_
    simp only [decide_eq_true_eq, he]
    split_ifs
    · have hr := hh.received
      rw [← Connection.stop_heard] at hr
      exact ⟨hr, fun _ => by simpa using hr, fun _ _ hre => absurd hre Connection.stop_reader⟩
    · exact hh
  · exact hinv

theorem Inv.leave (epoch : ℕ) : Inv status (n.leave epoch) := by
  have hen : ∀ c ∈ n.connections, c.epoch = epoch → c.epoch = c.epoch ∧
        ({ c with closed := true, reader := .ended } : Connection).Known n := fun c hc _ =>
    have hk := hinv.connections c hc
    ⟨rfl, { hk with }⟩
  unfold NodeState.leave
  split_ifs with hl hcu
  · refine hinv.change nofun (fun s hs _ =>
      ⟨rfl, rfl, rfl, nofun, { (hinv.sessions s hs).told with }⟩) hen
      fun s hs c hc he hh => ?_
    rw [if_pos rfl]
    split_ifs with hc'
    · exact { hh with whole := nofun }
    · exact { hh with whole := fun _ h => absurd (h.trans hcu.symm) hc' }
  · exact hinv.connect hen fun c _ _ s hh => hh.keeps (fun _ => rfl) rfl nofun
  · exact hinv

theorem Inv.work (number : ℕ) (hc : ∀ k, act = .recv k → ∀ s ∈ n.sessions, s.number = number →
      ∀ r ∈ s.reports, r.isFailed = false) : Inv status (n.work number act) := by
  unfold NodeState.work
  split
  · exact hinv
  next s hs =>
    have hkn := hinv.sessions s (mem_of_find?_eq_some hs)
    obtain ⟨n', hn', hsen, hse⟩ : ∃ n',
        ((s.sends act).elim n fun m => n.connect s.epoch (Connection.send m)) = n' ∧
        Inv status n' ∧ n'.sessions = n.sessions := by
      cases hm : s.sends act with
      | none => exact ⟨n, rfl, hinv, rfl⟩
      | some m =>
        refine ⟨_, rfl, hinv.send s.epoch fun _ => ?_, rfl⟩
        exact ⟨s.number, hkn.number, (GitSession.sends_session hm).trans hkn.id⟩
    have hg : ∀ s' ∈ n'.sessions, decide (s'.number = number) → s'.Goes (s'.step act) ∧
        (s'.step act).Told :=
      fun s' hs' hn => GitSession.step_goes (hsen.sessions s' hs').told fun k hk =>
        hc k hk s' (hse ▸ hs') (of_decide_eq_true hn)
    rw [hn']
    exact hsen.update (fun s' hs' hp => (hg s' hs' hp).1.follows (hg s' hs' hp).2)
      fun s' hs' hp c hh => hh.goes (hg s' hs' hp).1

theorem Inv.ofNat_inj {k l : ℕ} (hk : k ≤ n.opened) (hl : l ≤ n.opened)
    (hid : UInt32.ofNat k = UInt32.ofNat l) : k = l := by
  have hfew := hinv.few
  have hnat := congrArg UInt32.toNat hid
  rw [UInt32.toNat_ofNat', UInt32.toNat_ofNat'] at hnat
  omega

theorem Inv.number_eq (hs : s ∈ n.sessions) (hs' : s' ∈ n.sessions) (hid : s.id = s'.id) :
    s.number = s'.number := by
  have hk := hinv.sessions s hs
  have hk' := hinv.sessions s' hs'
  rw [hk.id, hk'.id] at hid
  exact hinv.ofNat_inj hk.number.le hk'.number.le hid

theorem Inv.nextId_ne {number : ℕ} (hn : number < n.opened) : UInt32.ofNat number ≠ n.nextId := by
  rw [hinv.next]
  exact fun hid => hn.ne (hinv.ofNat_inj hn.le le_rfl hid)

/-- A dropped session leaves the table, and takes no other with it. -/
theorem Inv.dropped (hs : s ∈ n.sessions) (p : Prop) [Decidable p] :
    Inv status ((n.update (fun s' => s'.number = s.number) fun s =>
      { s with stage := .dropped }).update
      (fun s' => p ∧ s'.id = s.id) GitSession.unlist) := by
  have hm : Inv status (n.update (fun s' => s'.number = s.number) fun s =>
      { s with stage := .dropped }) :=
    hinv.update (fun s hs _ => ⟨rfl, rfl, rfl, id, { (hinv.sessions s hs).told with }⟩)
      fun s _ _ c hh => ⟨hh.received, fun h => absurd rfl h, fun h => absurd rfl h⟩
  refine hm.update (fun s' hs' _ => ⟨rfl, rfl, rfl, nofun, { (hm.sessions s' hs').told with }⟩)
    fun s' hs' hp c hh => { hh with whole := fun hst => absurd ?_ hst }
  obtain ⟨s₀, hs₀, rfl⟩ := mem_map.mp hs'
  have hid : s₀.id = s.id := by
    have hid := (of_decide_eq_true hp).2
    split_ifs at hid <;> exact hid
  rw [if_pos (decide_eq_true (hinv.number_eq hs₀ hs hid))]
  rfl

theorem Inv.drop (number : ℕ) : Inv status (n.drop number) := by
  unfold NodeState.drop
  split
  · exact hinv
  next s hs =>
    have hd := hinv.dropped (mem_of_find?_eq_some hs) (s.epoch = n.epoch)
    rw [of_decide_eq_true (List.find?_some hs :)] at hd
    split_ifs
    · exact hinv
    · exact hd
    · exact hd.send s.epoch fun h => absurd h (show Kind.close ≠ Kind.opening by decide)

theorem Inv.hand (epoch : ℕ) :
    Inv status (n.update (fun s => s.epoch = epoch) GitSession.hand) := by
  refine hinv.update (fun s hs _ => ?_) fun s _ _ c hh => ?_
  · have ht := (hinv.sessions s hs).told
    unfold GitSession.hand
    split
    · exact ⟨rfl, rfl, rfl, id, ht⟩
    · split_ifs <;> exact ⟨rfl, rfl, rfl, id, { ht with }⟩
  · unfold GitSession.hand
    split
    · exact hh
    · next event hha =>
        split_ifs with hd hro
        · exact ⟨hh.received, fun h => absurd hd h, fun h => absurd hd h⟩
        · -- the event was with the reader, and is in the queue now
          obtain ⟨-, he, hw⟩ := hh
          rw [GitSession.events, hha, Option.toList_some, append_assoc] at he hw
          exact ⟨he hd, by simpa using he, by simpa using hw⟩
        · exact hh

theorem Inv.take (epoch : ℕ) : Inv status (n.take status epoch) := by
  unfold NodeState.take
  split
  · exact hinv
  next c hc =>
  split
  · exact hinv
  next m hm =>
  have hmem := mem_of_find?_eq_some hc
  have hep : c.epoch = epoch := of_decide_eq_true (List.find?_some hc :)
  have ho : ∀ c' ∈ n.connections, c'.epoch = epoch → c' = c :=
    fun c' hc' he => hinv.epochs c' hc' c hmem (he.trans hep.symm)
  have ha : ∀ leaves, ∀ c' ∈ n.connections, c'.epoch = epoch →
      (c'.advance leaves).epoch = c'.epoch ∧ (c'.advance leaves).Known n :=
        fun leaves c' hc' he => by
    cases ho c' hc' he
    exact ⟨rfl, { hinv.connections c hmem with taken := (List.getElem?_eq_some_iff.mp hm).1 }⟩
  have hl : Inv status (n.connect epoch (Connection.advance true)) := by
    refine hinv.connect (ha true) fun c' hc' he s hh => ?_
    cases ho c' hc' he
    exact hh.advance hm
  by_cases hr : c.reader = .reading ∧ n.isBlocked epoch = false
  · rw [if_pos hr]
    split
    · exact hl
    next event hev =>
    split_ifs with hcu
    · refine hinv.change (fun _ h => h) (fun s hs _ =>
        ⟨rfl, rfl, rfl, id, { (hinv.sessions s hs).told with }⟩)
        (ha false) fun s hs c' hc' he hh => ?_
      simp only [decide_eq_true_eq]
      by_cases hc'' : c'.epoch = epoch
      · cases ho c' hc' hc''
        have hha : s.handed = none := by
          simpa [he ▸ hep] using any_eq_false.mp hr.2 s hs
        rw [if_pos hep]
        exact hh.taken hm hev hha (hep.trans hcu) hr.1
      · -- the table has no session of another connection
        have hli : ¬ (s.listed ∧ s.id = m.session) := fun h =>
          hc'' (he.trans (((hinv.sessions s hs).listed h.1).trans hcu.symm))
        rw [if_neg hli, if_neg hc'']
        exact hh
    · exact hl
  · rw [if_neg hr]
    exact hinv

theorem Inv.close (epoch : ℕ) : Inv status (n.close epoch) := by
  unfold NodeState.close
  split_ifs
  · refine hinv.connect (fun c hc _ => ⟨rfl, ?_⟩) fun c _ _ s hh => hh.keeps (fun _ => rfl) rfl id
    have hk := hinv.connections c hc
    exact { hk with }
  · exact hinv

theorem Inv.attach : Inv status n.attach := by
  unfold NodeState.attach
  have hold : ∀ c ∈ n.connections, c.epoch ≠ n.epoch + 1 := fun c hc he => by
    have := (hinv.connections c hc).epoch
    omega
  refine ⟨fun epoch he => ?_, hinv.few, hinv.next, ?_, ?_,
    forall_mem_append.mpr ⟨fun c hc => ?_, forall_mem_singleton.mpr ?_⟩, ?_⟩
  · cases he
    exact ⟨rfl, _, mem_append_right _ (mem_singleton.mpr rfl), rfl⟩
  · simp only [forall_mem_append, forall_mem_singleton]
    exact ⟨fun c hc => ⟨hinv.epochs c hc, fun he => absurd he (hold c hc)⟩,
      fun c hc he => absurd he.symm (hold c hc), fun _ => trivial⟩
  · refine forall_mem_map.mpr fun s hs => ?_
    have hk := hinv.sessions s hs
    obtain ⟨c, hc, he⟩ := hk.connected
    exact { hk with
      listed := nofun
      connected := ⟨c, mem_append_left _ hc, he⟩
      told := { hk.told with } }
  · have hk := hinv.connections c hc
    exact { hk with epoch := hk.epoch.trans (Nat.le_succ _) }
  · exact ⟨Nat.le_refl _, Nat.le_refl _, fun _ h => absurd h not_mem_nil,
      fun _ h => absurd h not_mem_nil⟩
  · -- a session of an older connection need not be in the table
    refine forall_mem_map.mpr fun s hs c hc he => ?_
    obtain ⟨c₀, hc₀, he₀⟩ := (hinv.sessions s hs).connected
    rcases mem_append.mp hc with hc | hc
    · have hh := hinv.holds s hs c hc he
      exact { hh with whole := fun _ hcu => absurd hcu (hold c hc) }
    · cases mem_singleton.mp hc
      exact absurd (he₀.trans he.symm) (hold c₀ hc₀)

theorem Inv.openSession (hfew : n.opened + 1 < 0x100000000) : Inv status n.openSession := by
  unfold NodeState.openSession
  split
  · exact hinv
  next epoch hco =>
    obtain ⟨hcu, ha⟩ := hinv.connection epoch hco
    -- no session has the next id, so none leaves the table
    have hsa : (n.update (fun s => s.id = n.nextId) GitSession.unlist).sessions = n.sessions := by
      refine (map_congr_left fun s hs => ?_).trans (map_id _)
      exact if_neg fun hid =>
        hinv.nextId_ne (hinv.sessions s hs).number ((hinv.sessions s hs).id ▸ of_decide_eq_true hid)
    rw [hsa]
    have hl : ∀ {number}, number < n.opened → number < n.opened + 1 := Nat.lt_succ_of_lt
    refine { hinv with
      few := hfew
      next := ?_
      sessions := forall_mem_append.mpr ⟨fun s hs => ?_, forall_mem_singleton.mpr ?_⟩
      connections := fun c hc => ?_
      holds := forall_mem_append.mpr ⟨hinv.holds, forall_mem_singleton.mpr fun c hc _ => ?_⟩ }
    · rw [hinv.next]
      exact (UInt32.ofNat_add _ 1).symm
    · have hk := hinv.sessions s hs
      exact { hk with number := hl hk.number }
    · exact ⟨hinv.next, Nat.lt_succ_self _, fun _ => hcu, ha, fun h => absurd h not_mem_nil, nofun⟩
    · have hk := hinv.connections c hc
      refine { hk with opens := fun m hm hki => ?_, answers := fun m hm => ?_ }
      · exact (hk.opens m hm hki).imp fun _ h => ⟨hl h.1, h.2⟩
      · exact (hk.answers m hm).imp fun _ h => ⟨hl h.1, h.2⟩
    · have hh : c.heard status n.nextId = [] := by
        refine eventsFor_eq_nil fun m hm => ?_
        obtain ⟨number, hn, hse⟩ := (hinv.connections c hc).answers m (mem_of_mem_take hm)
        exact hse ▸ hinv.nextId_ne hn
      exact ⟨List.nil_prefix, fun _ => nil_prefix, fun _ _ _ => ⟨rfl, hh.symm⟩⟩

theorem Inv.step (hc : Clear n act) : Inv status (n.step status act) := by
  cases act with
  | attach => exact hinv.attach
  | close epoch => exact hinv.close epoch
  | openSession => exact hinv.openSession hc
  | drop number => exact hinv.drop number
  | head epoch m => exact hinv.head epoch m
  | take epoch => exact hinv.take epoch
  | hand epoch => exact hinv.hand epoch
  | giveUp epoch => exact hinv.giveUp epoch
  | lose epoch => exact hinv.lose epoch
  | leave epoch => exact hinv.leave epoch
  | sendOpen number payload sent | accept number | send number bytes | finish number =>
    exact hinv.work number nofun
  | recv number => exact hinv.work number fun _ _ => hc

end Steps

/-- In every run at head in which no running session is in the table under the id of a result that
is collected, and in every run on a machine in which no caller receives after an error, sessions
stay apart. -/
theorem git_sessions_sound (status : StatusCodec) (acts : List HeadGitSessions.Act)
    (nodeActs : List Act) (hclear : Along (Head.step status) HeadGitSessions.Clear .initial acts)
    (hnode : Along (NodeState.step status) Clear .initial nodeActs) :
    (Head.run status acts).Sound ∧ (NodeState.run status nodeActs).Sound status := by
  have hin : Inv status .initial := by constructor <;> simp [NodeState.initial]
  refine ⟨run_sound status acts hclear, ?_⟩
  exact (Along.invariant (I := Inv status) (fun _ _ hinv hc => hinv.step hc) hin hnode).sound

/-- Head serves a session to its end and collects its result. -/
def served : List HeadGitSessions.Act :=
  [opens 0, .start 0 .accepted, .message (some (Kind.data :: idBytes 0 ++ [7, 8])), .deliver,
    .take 0, .write 0 1,
    .write 0 1, .message (some (Kind.eof :: idBytes 0)), .take 0, .output 0 [1],
      .finish 0 (.exited true), .close 0, .join 0]

/-- The machine's side of such a session. -/
def received : List Act :=
  [.attach, .openSession, .sendOpen 0 [] true, .head 1 ⟨Kind.accept, 0, []⟩, .take 1, .hand 1,
    .accept 0, .send 0 [7, 8], .finish 0, .head 1 ⟨Kind.data, 0, [1]⟩, .take 1, .hand 1, .recv 0,
      .head 1 (closeMessage jsonStatus 0 none), .take 1, .hand 1, .recv 0, .drop 0]

theorem git_sessions_sound_served :
    (Head.run jsonStatus served).Sound ∧ (NodeState.run jsonStatus received).Sound jsonStatus :=
  git_sessions_sound jsonStatus served received (by decide +kernel) (by decide +kernel)

/-- Head closes the session with an error. The caller that receives once more is told that it
finished. -/
def receivedTwice : List Act :=
  [.attach, .openSession, .sendOpen 0 [] true, .head 1 ⟨Kind.accept, 0, []⟩, .take 1,
    .hand 1, .accept 0,
    .head 1 (closeMessage jsonStatus 0 (some .failed)), .take 1, .hand 1, .recv 0, .recv 0]

theorem reopened_and_received_twice :
    ¬ (Head.run jsonStatus reopened).Sound ∧
      ¬ (NodeState.run jsonStatus receivedTwice).Sound jsonStatus := by
  constructor
  · intro hso
    have hl := hso.limit
    exact absurd hl (by decide)
  · intro hso
    have hw : ∃ s ∈ (NodeState.run jsonStatus receivedTwice).sessions,
        .finished ∈ s.reports ∧ .closed none ∉ s.received := by decide +kernel
    obtain ⟨s, hs, hf, hnot⟩ := hw
    exact hnot (hso.finished s hs hf)

end Intentd.NodeGitSessions
