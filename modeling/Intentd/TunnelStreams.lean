import Mathlib.Data.List.Infix

/-!
# One stream of a tunnel

A relay connects to a port of the daemon's loopback and then copies bytes both ways in one loop.
Each turn of the loop looks at the client's credit and then waits for the first of: a slot in the
shared queue for the frame it holds, progress of a write, a message of the client, bytes of the
loopback, a grant, or a timer. Which of them comes first, how many bytes a read or write takes and
when a timer fires is up to the environment; so is when the connection grants credit, admits a
message, lets go of the stream or ends its task.

Kept beside the state are the bytes read and written, what was admitted and how much was granted.
-/
namespace Intentd.TunnelStreams
open List Option

/-- A frame of the tunnel, with the stream it belongs to. -/
inductive Frame
  | openPort (streamId : UInt32) (port : UInt16)
  | openOk (streamId : UInt32)
  | openErr (streamId : UInt32) (message : String)
  | data (streamId : UInt32) (payload : List UInt8)
  | eof (streamId : UInt32)
  | close (streamId : UInt32)
  | credit (streamId : UInt32) (credit : UInt32)
deriving DecidableEq

def Frame.streamId : Frame → UInt32
  | .openPort id _ => id
  | .openOk id => id
  | .openErr id _ => id
  | .data id _ => id
  | .eof id => id
  | .close id => id
  | .credit id _ => id

def initialCredit : UInt32 := 1024 * 1024
def maxDataPayloadBytes : ℕ := 1024 * 1024
def streamQueueFrames : ℕ := 32
def readChunkBytes : ℕ := 16 * 1024

/-- Caps of a connection, and how its connect timeout is written. -/
structure TunnelLimits where
  maxStreams : ℕ
  maxStreamsPerPort : ℕ
  connectTimeout : String

inductive StreamMsg
  | data (bytes : List UInt8)
  | eof
deriving DecidableEq

inductive Connect
  | connected
  | failed (error : String)
  | timedOut

inductive Phase
  | connecting
  | refused (message : String)
  | connected
  | top
  | select (creditAvailable : UInt32)
  | closing
  | ended

structure Relay where
  phase : Phase
  readDone : Bool
  writeDone : Bool
  pending : Option Frame
  inbound : Option (List UInt8 × ℕ)
  creditExhausted : Bool
  peerEofDeferred : Bool

structure Stream where
  streamId : UInt32
  port : UInt16
  relay : Relay
  window : UInt32
  inbox : List StreamMsg
  attached : Bool
  emitted : List Frame
  granted : ℕ
  readBytes : List UInt8
  written : List UInt8
  admitted : List StreamMsg

section Model

def Stream.start (streamId : UInt32) (port : UInt16) : Stream where
  streamId := streamId
  port := port
  relay := ⟨.connecting, false, false, none, none, false, false⟩
  window := initialCredit
  inbox := []
  attached := true
  emitted := []
  granted := 0
  readBytes := []
  written := []
  admitted := []

def saturatingAdd (a b : UInt32) : UInt32 :=
  if a.toNat + b.toNat < 0x100000000 then a + b else UInt32.ofNat (0x100000000 - 1)

inductive Event
  | connect (result : Connect)
  /-- A frame goes into the shared queue, or the queue is closed. -/
  | send (sent : Bool)
  | observe
  | wrote (count : Option ℕ)
  | recv
  | read (bytes : Option (List UInt8))
  | peeked (payload : Bool)
  | notified
  | stall
  | idle
  | grant (credit : UInt32)
  | accept (msg : StreamMsg)
  | detach
  | abort

variable (limits : TunnelLimits)
variable (s : Stream)

def Stream.connectErr (error : String) : String :=
  "connect 127.0.0.1:" ++ toString s.port.toNat ++ ": " ++ error

def Stream.setRelay (relay : Relay) : Stream := { s with relay := relay }

def Stream.again (relay : Relay) : Stream := s.setRelay { relay with phase := .top }

def Stream.break : Stream := s.setRelay { s.relay with phase := .closing }

def Stream.connect : Connect → Stream
  | .connected => s.setRelay { s.relay with phase := .connected }
  | .failed e => s.setRelay { s.relay with phase := .refused (s.connectErr e) }
  | .timedOut =>
    s.setRelay { s.relay with
      phase := .refused (s.connectErr ("timed out after " ++ limits.connectTimeout)) }

def Stream.observe : Stream :=
  let r := s.relay
  let r := if 0 < s.window then { r with creditExhausted := false, peerEofDeferred := false } else r
  s.setRelay { r with phase := .select s.window }

def readLimit (creditAvailable : UInt32) : ℕ := min creditAvailable.toNat readChunkBytes

def Relay.pollLoopback (r : Relay) (creditAvailable : UInt32) : Bool :=
  !r.readDone &&
    if 0 < creditAvailable then r.pending.isNone else !r.creditExhausted && !r.peerEofDeferred

/-- The frame a relay waits to put into the shared queue. -/
def Stream.sending : Option Frame :=
  match s.relay.phase with
  | .refused message => some (.openErr s.streamId message)
  | .connected => some (.openOk s.streamId)
  | .select _ => s.relay.pending
  | .closing => some (.close s.streamId)
  | _ => none

/-- What a relay does once its frame is in the queue. -/
def Stream.sent (frame : Frame) : Stream :=
  let s := { s with emitted := s.emitted ++ [frame] }
  match s.relay.phase with
  | .connected => s.again s.relay
  | .select _ =>
    if s.relay.readDone && s.relay.writeDone then
      Stream.break { s with relay := { s.relay with pending := none } }
    else s.again { s.relay with pending := none }
  | _ => s.setRelay { s.relay with phase := .ended }

/-- What a relay does when the queue is closed. -/
def Stream.unsent : Stream :=
  match s.relay.phase with
  | .select _ => s.break
  | _ => s.setRelay { s.relay with phase := .ended }

def Stream.wrote (bytes : List UInt8) (off : ℕ) : Option ℕ → Stream
  | none => s.break
  | some 0 => s.break
  | some n =>
    if n ≤ bytes.length - off then
      let off' := off + n
      let s := { s with written := s.written ++ (bytes.drop off).take n }
      s.again { s.relay with inbound := if bytes.length ≤ off' then none else some (bytes, off') }
    else s

def Stream.recv : Stream :=
  match s.inbox with
  | .data bytes :: rest =>
    let s := { s with inbox := rest }
    -- data after the client's own EOF is dropped
    if s.relay.writeDone || bytes.isEmpty then s.again s.relay
    else s.again { s.relay with inbound := some (bytes, 0) }
  | .eof :: rest =>
    let s := { s with inbox := rest, relay := { s.relay with writeDone := true } }
    if s.relay.readDone && s.relay.pending.isNone then s.break else s.again s.relay
  | [] => if s.attached then s else s.break

def Stream.read (creditAvailable : UInt32) : Option (List UInt8) → Stream
  | none => s.again { s.relay with readDone := true, pending := some (.eof s.streamId) }
  | some bytes =>
    if 0 < bytes.length ∧ bytes.length ≤ readLimit creditAvailable then
      let s :=
        { s with window := s.window - UInt32.ofNat bytes.length, readBytes := s.readBytes ++ bytes }
      s.again { s.relay with pending := some (.data s.streamId bytes) }
    else s

/-- A branch of the loop is taken, if it is open. -/
def Stream.select (creditAvailable : UInt32) : Event → Stream
  | .wrote count =>
    match s.relay.inbound with
    | some (bytes, off) => s.wrote bytes off count
    | none => s
  | .recv => if s.relay.inbound.isNone then s.recv else s
  | .read bytes =>
    if s.relay.pollLoopback creditAvailable && decide (0 < creditAvailable) then
      s.read creditAvailable bytes
    else s
  | .peeked payload =>
    if s.relay.pollLoopback creditAvailable && !decide (0 < creditAvailable) then
      if payload then s.again { s.relay with creditExhausted := true }
      else s.again { s.relay with peerEofDeferred := true }
    else s
  | .notified => if !s.relay.readDone && !decide (0 < creditAvailable) then s.again s.relay else s
  | .stall =>
    if !s.relay.readDone && s.relay.creditExhausted then
      if 0 < s.window then s.again { s.relay with creditExhausted := false } else s.break
    else s
  | .idle => s.break
  | _ => s

def Stream.turn (event : Event) : Stream :=
  match s.relay.phase with
  | .select creditAvailable => s.select creditAvailable event
  | _ => s

def Stream.isEnded : Bool :=
  match s.relay.phase with
  | .ended => true
  | _ => false

def Stream.step (event : Event) : Stream :=
  match event with
  | .grant credit =>
    if s.attached then
      { s with window := saturatingAdd s.window credit, granted := s.granted + credit.toNat }
    else s
  | .accept msg =>
    if s.attached && !s.isEnded && decide (s.inbox.length < streamQueueFrames) then
      { s with inbox := s.inbox ++ [msg], admitted := s.admitted ++ [msg] }
    else s
  | .detach => { s with attached := false }
  | .abort => s.setRelay { s.relay with phase := .ended }
  | .connect result =>
    match s.relay.phase with
    | .connecting => s.connect limits result
    | _ => s
  | .send true =>
    match s.sending with
    | some frame => s.sent frame
    | none => s
  | .send false =>
    match s.sending with
    | some _ => s.unsent
    | none => s
  | .observe =>
    match s.relay.phase with
    | .top => s.observe
    | _ => s
  | event => s.turn event

def Stream.run (events : List Event) : Stream := events.foldl (Stream.step limits) s

end Model

/-! ## From the loopback to the client -/

def Phase.isOpening : Phase → Prop
  | .connecting => True
  | .refused _ => True
  | .connected => True
  | _ => False

def Phase.isLooping : Phase → Prop
  | .top => True
  | .select _ => True
  | .closing => True
  | _ => False

variable {phase : Phase}

theorem Phase.isOpening.not_looping (h : phase.isOpening) : ¬ phase.isLooping := by
  cases phase <;> first | exact id | exact absurd h id

/-- What a relay holds back: nothing, a chunk, its EOF, or nothing after its EOF. -/
inductive Held (id : UInt32) : Bool → Option Frame → Bool → List UInt8 → Prop
  | nothing : Held id false none false []
  | chunk (bytes : List UInt8) : Held id false (some (.data id bytes)) false bytes
  | eof : Held id true (some (.eof id)) false []
  | done : Held id true none true []

/-- The frames of an open stream, up to its CLOSE. -/
@[simp] def relayed (id : UInt32) (chunks : List (List UInt8)) (eofSent : Bool) : List Frame :=
  .openOk id :: (chunks.map (.data id) ++ if eofSent then [.eof id] else [])

/-- The frames a relay has emitted in a phase, against the bytes it has read. -/
inductive Out (id : UInt32) : Phase → Bool → Option Frame → List Frame → List UInt8 → Prop
  | opening {phase : Phase} (h : phase.isOpening) : Out id phase false none [] []
  | relaying {phase : Phase} (h : phase.isLooping) {readDone : Bool} {pending : Option Frame}
      {eofSent : Bool} {held : List UInt8} (chunks : List (List UInt8))
        (hheld : Held id readDone pending eofSent held) :
      Out id phase readDone pending (relayed id chunks eofSent) (chunks.flatten ++ held)
  | unopened (message : Option String) : Out id .ended false none
      (message.map (Frame.openErr id)).toList []
  | ended {readDone : Bool} {pending : Option Frame} {eofSent : Bool} {held : List UInt8}
      (chunks : List (List UInt8)) (hheld : Held id readDone pending eofSent held) (closed : Bool) :
      Out id .ended readDone pending (relayed id chunks eofSent ++ if closed then [.close id]
        else [])
        (chunks.flatten ++ held)

def Stream.Emits (s : Stream) : Prop :=
  Out s.streamId s.relay.phase s.relay.readDone s.relay.pending s.emitted s.readBytes

variable {id : UInt32} {readDone : Bool} {pending : Option Frame} {emitted : List Frame}
  {readBytes : List UInt8}
variable {avail : UInt32} {frame : Frame}

section Out

variable {phase' : Phase} {message : String}

theorem Out.loop (h : Out id phase readDone pending emitted readBytes) (hp : phase.isLooping)
    (hp' : phase'.isLooping) :
    Out id phase' readDone pending emitted readBytes := by
  cases h with
  | opening h => exact absurd hp h.not_looping
  | relaying _ chunks hh => exact .relaying hp' chunks hh
  | unopened message | ended chunks hh closed => cases hp

theorem Out.reopen (h : Out id phase readDone pending emitted readBytes) (hp : phase.isOpening)
    (hp' : phase'.isOpening) :
    Out id phase' readDone pending emitted readBytes := by
  cases h with
  | opening h => exact .opening hp'
  | relaying h => exact absurd h hp.not_looping
  | unopened message | ended chunks hh closed => cases hp

theorem Out.stop (h : Out id phase readDone pending emitted readBytes) :
    Out id .ended readDone pending emitted readBytes := by
  cases h with
  | opening h => exact .unopened none
  | relaying h chunks hh =>
    have hend := Out.ended chunks hh false
    rwa [if_neg Bool.false_ne_true, append_nil] at hend
  | unopened message => exact .unopened message
  | ended chunks hh closed => exact .ended chunks hh closed

theorem Out.refused (h : Out id (.refused message) readDone pending emitted readBytes) :
    Out id .ended readDone pending (emitted ++ [.openErr id message]) readBytes := by
  cases h with
  | opening h => exact .unopened (some message)
  | relaying h => cases h

theorem Out.connected (h : Out id .connected readDone pending emitted readBytes) :
    Out id .top readDone pending (emitted ++ [.openOk id]) readBytes := by
  cases h with
  | opening h => exact .relaying (by exact trivial) [] .nothing
  | relaying h => cases h

theorem Out.closed (h : Out id .closing readDone pending emitted readBytes) :
    Out id .ended readDone pending (emitted ++ [.close id]) readBytes := by
  cases h with
  | opening h => cases h
  | relaying h chunks hh => exact .ended chunks hh true

theorem Out.flush (h : Out id (.select avail) readDone (some frame) emitted readBytes)
    (hp : phase.isLooping) : Out id phase readDone none (emitted ++ [frame]) readBytes := by
  cases h with
  | @relaying _ _ _ _ eofSent held chunks hh =>
    cases hh with
    | chunk =>
      have hout : Out id phase false none (relayed id (chunks ++ [held]) false)
          ((chunks ++ [held]).flatten ++ []) :=
        .relaying hp _ .nothing
      simpa [append_assoc] using hout
    | eof =>
      have hout : Out id phase true none (relayed id chunks true) (chunks.flatten ++ []) :=
        .relaying hp _ .done
      simpa [append_assoc] using hout

theorem Out.read (h : Out id (.select avail) false none emitted readBytes) (bytes : List UInt8) :
    Out id .top false (some (.data id bytes)) emitted (readBytes ++ bytes) := by
  cases h with
  | opening h => cases h
  | relaying h chunks hh =>
    cases hh with
    | nothing =>
      rw [append_nil]
      exact .relaying (by exact trivial) chunks (.chunk bytes)

theorem Out.readEof (h : Out id (.select avail) false none emitted readBytes) :
    Out id .top true (some (.eof id)) emitted readBytes := by
  cases h with
  | opening h => cases h
  | relaying h chunks hh =>
    cases hh with
    | nothing => exact .relaying (by exact trivial) chunks .eof

end Out

/-! ## From the client to the loopback -/

@[simp] def beforeEof : List StreamMsg → List UInt8
  | [] => []
  | .eof :: _ => []
  | .data bytes :: rest => bytes ++ beforeEof rest

def unwritten : Option (List UInt8 × ℕ) → List UInt8
  | none => []
  | some (bytes, off) => bytes.drop off

/-- Of what was admitted some is taken from the inbox; what was written and is left to write are
the payloads among that before the EOF. -/
structure Takes (writeDone : Bool) (inbound : Option (List UInt8 × ℕ)) (inbox : List StreamMsg)
    (written : List UInt8) (admitted taken : List StreamMsg) : Prop where
  split : admitted = taken ++ inbox
  done_iff : writeDone = true ↔ StreamMsg.eof ∈ taken
  bytes : written ++ unwritten inbound = beforeEof taken
  idle : writeDone = true → inbound = none

variable {bytes : List UInt8}

section Takes

theorem beforeEof_append (a b : List StreamMsg) :
    beforeEof (a ++ b) = if StreamMsg.eof ∈ a then beforeEof a else beforeEof a ++ beforeEof b := by
  induction a with
  | nil => rfl
  | cons msg a ih =>
    cases msg with
    | eof => simp
    | data bytes =>
      rw [cons_append, beforeEof, beforeEof, ih]
      by_cases h : StreamMsg.eof ∈ a <;> simp [h]

theorem beforeEof_le_append (a b : List StreamMsg) : beforeEof a <+: beforeEof (a ++ b) := by
  rw [beforeEof_append]
  split_ifs
  · exact prefix_rfl
  · exact prefix_append _ _

variable {writeDone : Bool} {inbound : Option (List UInt8 × ℕ)}
  {inbox rest admitted taken : List StreamMsg} {written : List UInt8}

theorem Takes.prefix_admitted (h : Takes writeDone inbound inbox written admitted taken) :
    written <+: beforeEof admitted := by
  have hw : written <+: beforeEof taken := ⟨_, h.bytes⟩
  rw [h.split]
  exact hw.trans (beforeEof_le_append taken inbox)

theorem Takes.accept (h : Takes writeDone inbound inbox written admitted taken) (msg : StreamMsg) :
    Takes writeDone inbound (inbox ++ [msg]) written (admitted ++ [msg]) taken :=
  { h with split := by rw [h.split, append_assoc] }

theorem Takes.takeEof (h : Takes writeDone none (.eof :: rest) written admitted taken) :
    Takes true none rest written admitted (taken ++ [.eof]) := by
  refine ⟨by rw [h.split, append_assoc]; rfl, by simp, ?_, fun _ => rfl⟩
  rw [beforeEof_append, h.bytes]
  split_ifs <;> simp

/-- A payload is taken that is not written, as it is empty or comes after the EOF. -/
theorem Takes.drop (h : Takes writeDone none (.data bytes :: rest) written admitted taken)
    (hdr : writeDone = true ∨ bytes = []) :
    Takes writeDone none rest written admitted (taken ++ [.data bytes]) := by
  refine ⟨by rw [h.split, append_assoc]; rfl, ?_, ?_, h.idle⟩
  · rw [h.done_iff]
    simp
  · rw [beforeEof_append, h.bytes]
    rcases hdr with hd | rfl
    · rw [if_pos (h.done_iff.mp hd)]
    · split_ifs <;> simp

theorem Takes.takeData (h : Takes writeDone none (.data bytes :: rest) written admitted taken)
    (ho : writeDone = false) :
    Takes writeDone (some (bytes, 0)) rest written admitted (taken ++ [.data bytes]) := by
  have hnot : StreamMsg.eof ∉ taken := fun hin => by
    rw [h.done_iff.mpr hin] at ho
    cases ho
  refine ⟨by rw [h.split, append_assoc]; rfl, ?_, ?_, fun hd => ?_⟩
  · rw [h.done_iff]
    simp
  · have hw := h.bytes
    rw [unwritten, append_nil] at hw
    rw [beforeEof_append, if_neg hnot, hw]
    simp [unwritten]
  · rw [ho] at hd
    cases hd

theorem Takes.write {off n : ℕ}
    (h : Takes writeDone (some (bytes, off)) inbox written admitted taken) :
    Takes writeDone (if bytes.length ≤ off + n then none else some (bytes, off + n)) inbox
      (written ++ (bytes.drop off).take n) admitted taken := by
  refine ⟨h.split, h.done_iff, ?_, fun hd => absurd (h.idle hd) (some_ne_none _)⟩
  have hs : (bytes.drop off).take n ++ bytes.drop (off + n) = bytes.drop off := by
    rw [← drop_drop]
    exact take_append_drop n _
  have hl : unwritten (if bytes.length ≤ off + n then none else some (bytes, off + n)) =
      bytes.drop (off + n) := by
    split_ifs with hlen
    · exact (drop_eq_nil_of_le hlen).symm
    · rfl
  rw [hl, append_assoc, hs]
  exact h.bytes

end Takes

/-! ## Credit -/

theorem saturatingAdd_le (a b : UInt32) : (saturatingAdd a b).toNat ≤ a.toNat + b.toNat := by
  rw [saturatingAdd]
  split_ifs with h
  · exact Nat.mod_le _ _
  · rw [UInt32.toNat_ofNat']
    omega

theorem le_saturatingAdd (a b : UInt32) : a.toNat ≤ (saturatingAdd a b).toNat := by
  rw [saturatingAdd]
  have ha := a.toNat_lt
  split_ifs with h
  · rw [UInt32.toNat_add, Nat.mod_eq_of_lt h]
    omega
  · rw [UInt32.toNat_ofNat']
    omega

theorem consume_toNat {window : UInt32} {n : ℕ} (h : n ≤ window.toNat) :
    (window - UInt32.ofNat n).toNat = window.toNat - n := by
  have hn : (UInt32.ofNat n).toNat = n := by
    exact Nat.mod_eq_of_lt (Nat.lt_of_le_of_lt h window.toNat_lt)
  rw [UInt32.toNat_sub_of_le _ _ (by rw [UInt32.le_iff_toNat_le, hn]; exact h), hn]

/-! ## Runs -/

structure Inv (s : Stream) : Prop where
  emits : s.Emits
  flow : s.window.toNat + s.readBytes.length ≤ initialCredit.toNat + s.granted
  observed : ∀ avail, s.relay.phase = .select avail → avail.toNat ≤ s.window.toNat
  takes : ∃ taken, Takes s.relay.writeDone s.relay.inbound s.inbox s.written s.admitted taken

variable {held : List UInt8} {eofSent : Bool}
variable {s : Stream}

section Steps

variable {limits : TunnelLimits} {r : Relay}

theorem inv_start (streamId : UInt32) (port : UInt16) : Inv (.start streamId port) where
  emits := .opening (by exact trivial)
  flow := Nat.le_refl _
  observed avail h := (by cases h)
  takes := ⟨[], rfl, by simp [Stream.start], rfl, fun _ => rfl⟩

/-- What an event keeps that puts no frame into the queue. A relay that has ended has ended for
good. -/
structure Keeps (s t : Stream) : Prop where
  streamId : t.streamId = s.streamId
  port : t.port = s.port
  emitted : t.emitted = s.emitted
  ended : s.relay.phase = .ended → t.relay.phase = .ended
  inv : Inv s → Inv t

theorem Keeps.refl (s : Stream) : Keeps s s := ⟨rfl, rfl, rfl, id, id⟩

/-- An event that is not taken keeps everything. -/
theorem Keeps.ite {c : Prop} [Decidable c] {t : Stream} (h : c → Keeps s t) :
    Keeps s (if c then t else s) := by
  split_ifs with hc
  · exact h hc
  · exact .refl s

section Loop

variable {u : Stream} (hloop : s.relay.phase.isLooping)
include hloop

/-- The loop goes on or ends, with what concerns the loopback as it was. -/
theorem Keeps.setRelay (hu : { s with relay := u.relay, inbox := u.inbox, written := u.written } =
    u)
    (hr : r.readDone = s.relay.readDone) (hpe : r.pending = s.relay.pending)
    (ht : Inv s → ∃ taken, Takes r.writeDone r.inbound u.inbox u.written s.admitted taken)
    (hp : phase = .top ∨ phase = .closing) : Keeps s (u.setRelay { r with phase := phase }) := by
  rw [← hu]
  refine ⟨rfl, rfl, rfl, fun he => ?_, fun h => ⟨?_, h.flow, fun avail hc => ?_, ht h⟩⟩
  · rw [he] at hloop
    cases hloop
  · rw [hr, hpe]
    refine h.emits.loop hloop ?_
    rcases hp with rfl | rfl <;> trivial
  · rcases hp with rfl | rfl <;> cases hc

theorem Keeps.again (hu : { s with relay := u.relay, inbox := u.inbox, written := u.written } = u)
    (hr : r.readDone = s.relay.readDone) (hp : r.pending = s.relay.pending)
    (ht : Inv s → ∃ taken, Takes r.writeDone r.inbound u.inbox u.written s.admitted taken) :
    Keeps s (u.again r) :=
  .setRelay hloop hu hr hp ht (.inl rfl)

theorem Keeps.break : Keeps s s.break := .setRelay hloop rfl rfl rfl Inv.takes (.inr rfl)

theorem Keeps.wrote {off : ℕ} (hin : s.relay.inbound = some (bytes, off)) (count : Option ℕ) :
    Keeps s (s.wrote bytes off count) := by
  rw [Stream.wrote.eq_def]
  split
  · exact .break hloop
  · exact .break hloop
  · refine .ite fun _ => .again hloop rfl rfl rfl fun h => ?_
    obtain ⟨taken, ht⟩ := h.takes
    rw [hin] at ht
    exact ⟨taken, ht.write⟩

theorem Keeps.recv (hin : s.relay.inbound = none) : Keeps s s.recv := by
  have hta (h : Inv s) : ∃ taken, Takes s.relay.writeDone none s.inbox s.written s.admitted taken :=
    hin ▸ h.takes
  rw [Stream.recv]
  split
  · rename_i bytes rest hinb
    rw [hinb] at hta
    dsimp only
    split_ifs with hd
    · refine .again hloop rfl rfl rfl fun h => ?_
      obtain ⟨taken, ht⟩ := hta h
      rw [hin]
      exact ⟨_, ht.drop (by simpa [List.isEmpty_iff] using hd)⟩
    · refine .again hloop rfl rfl rfl fun h => ?_
      obtain ⟨taken, ht⟩ := hta h
      rw [Bool.not_eq_true, Bool.or_eq_false_iff] at hd
      exact ⟨_, ht.takeData hd.1⟩
  · rename_i rest hinb
    rw [hinb] at hta
    have heof (h : Inv s) : ∃ taken,
        Takes true s.relay.inbound rest s.written s.admitted taken := by
      obtain ⟨taken, ht⟩ := hta h
      rw [hin]
      exact ⟨_, ht.takeEof⟩
    dsimp only
    split_ifs
    · exact .setRelay hloop rfl rfl rfl heof (.inr rfl)
    · exact .again hloop rfl rfl rfl heof
  · split_ifs
    · exact .refl s
    · exact .break hloop

end Loop

theorem Keeps.abort (s : Stream) : Keeps s (s.setRelay { s.relay with phase := .ended }) :=
  ⟨rfl, rfl, rfl, fun _ => rfl, fun h => ⟨h.emits.stop, h.flow, nofun, h.takes⟩⟩

theorem Keeps.connect (hph : s.relay.phase = .connecting) (result : Connect) :
    Keeps s (s.connect limits result) := by
  have ho (phase : Phase) (hp : phase.isOpening) (hsel : ∀ avail, phase ≠ .select avail) :
      Keeps s (s.setRelay { s.relay with phase := phase }) := by
    refine ⟨rfl, rfl, rfl, fun hen => absurd (hph.symm.trans hen) (by simp), fun h => ?_⟩
    refine ⟨?_, h.flow, fun avail hc => absurd hc (hsel avail), h.takes⟩
    exact h.emits.reopen (hph ▸ trivial) hp
  cases result with
  | connected | failed e | timedOut => exact ho _ trivial nofun

theorem Keeps.observe (hp : s.relay.phase = .top) : Keeps s s.observe := by
  refine ⟨rfl, rfl, rfl, fun hen => absurd (hp.symm.trans hen) (by simp), fun h => ?_⟩
  refine ⟨?_, h.flow, fun avail hc => ?_, ?_⟩
  · have he : Out s.streamId (.select s.window) s.relay.readDone s.relay.pending
        s.emitted s.readBytes :=
      h.emits.loop (hp ▸ trivial) trivial
    rw [Stream.observe, Stream.Emits]
    split_ifs <;> exact he
  · cases hc
    exact Nat.le_refl _
  · rw [Stream.observe]
    split_ifs <;> exact h.takes

theorem Inv.sent (h : Inv s) (hs : s.sending = some frame) : Inv (s.sent frame) := by
  have he := h.emits
  rw [Stream.Emits] at he
  rw [Stream.sending] at hs
  rw [Stream.sent]
  cases hp : s.relay.phase with rw [hp] at hs he
  | connecting | top | ended => cases hs
  | refused message =>
    cases hs
    exact ⟨he.refused, h.flow, nofun, h.takes⟩
  | connected =>
    cases hs
    exact ⟨he.connected, h.flow, nofun, h.takes⟩
  | closing =>
    cases hs
    exact ⟨he.closed, h.flow, nofun, h.takes⟩
  | select avail =>
    dsimp only at hs
    rw [hs] at he
    split_ifs <;>
      exact ⟨he.flush (by exact trivial), h.flow, nofun, h.takes⟩

theorem Keeps.unsent (s : Stream) : Keeps s s.unsent := by
  rw [Stream.unsent]
  split
  · rename_i avail hp
    exact .break (hp ▸ trivial)
  · exact .abort s

theorem pollLoopback_read (hp : (r.pollLoopback avail && decide (0 < avail)) = true) :
    r.readDone = false ∧ r.pending = none := by
  rw [Bool.and_eq_true, decide_eq_true_eq] at hp
  rw [Relay.pollLoopback, if_pos hp.2, Bool.and_eq_true, Bool.not_eq_true',
    isNone_iff_eq_none] at hp
  exact hp.1

theorem Inv.read_window (h : Inv s) (hp : s.relay.phase = .select avail)
    (bytes : Option (List UInt8)) :
    (s.read avail bytes).window.toNat + (s.read avail bytes).readBytes.length =
      s.window.toNat + s.readBytes.length := by
  cases bytes with
  | none => rfl
  | some bytes =>
    rw [Stream.read]
    split_ifs with hl
    · have ho := h.observed avail hp
      have hl' := hl.2
      rw [readLimit] at hl'
      show (s.window - UInt32.ofNat bytes.length).toNat + (s.readBytes ++ bytes).length = _
      rw [consume_toNat (by omega), length_append]
      omega
    · rfl

theorem Inv.read (h : Inv s) (hp : s.relay.phase = .select avail)
    (hpo : (s.relay.pollLoopback avail && decide (0 < avail)) = true)
    (bytes : Option (List UInt8)) : Inv (s.read avail bytes) := by
  obtain ⟨hr, hpe⟩ := pollLoopback_read hpo
  have he := h.emits
  rw [Stream.Emits, hp, hr, hpe] at he
  cases bytes with
  | none => exact ⟨he.readEof, h.flow, nofun, h.takes⟩
  | some bytes =>
    have hw := h.read_window hp (some bytes)
    rw [Stream.read] at hw ⊢
    split_ifs at hw ⊢
    · refine ⟨?_, hw.trans_le h.flow, nofun, h.takes⟩
      have hout := he.read bytes
      rwa [← hr] at hout
    · exact h

theorem Keeps.select (hp : s.relay.phase = .select avail) (event : Event) :
    Keeps s (s.select avail event) := by
  have hloop : s.relay.phase.isLooping := hp ▸ trivial
  cases event with
  | wrote count =>
    rw [Stream.select]
    split
    · rename_i bytes off hin
      exact .wrote hloop hin count
    · exact .refl s
  | recv => exact .ite fun hin => .recv hloop (isNone_iff_eq_none.mp hin)
  | read bytes =>
    refine .ite fun hpo => ?_
    have he (he : s.relay.phase = .ended) : (s.read avail bytes).relay.phase = .ended :=
      absurd (hp.symm.trans he) (by simp)
    have hinv := fun h : Inv s => h.read hp hpo bytes
    cases bytes with
    | none => exact ⟨rfl, rfl, rfl, he, hinv⟩
    | some bytes =>
      rw [Stream.read] at he hinv ⊢
      split_ifs at he hinv ⊢ <;> exact ⟨rfl, rfl, rfl, he, hinv⟩
  | peeked payload =>
    refine .ite fun _ => ?_
    split_ifs <;> exact .again hloop rfl rfl rfl Inv.takes
  | notified => exact .ite fun _ => .again hloop rfl rfl rfl Inv.takes
  | stall =>
    refine .ite fun _ => ?_
    split_ifs
    · exact .again hloop rfl rfl rfl Inv.takes
    · exact .break hloop
  | idle => exact .break hloop
  | _ => exact .refl s

theorem Keeps.turn (s : Stream) (event : Event) : Keeps s (s.turn event) := by
  rw [Stream.turn]
  split
  · rename_i avail hp
    exact .select hp event
  · exact .refl s

variable (limits)

/-- Only putting a frame into the queue emits one. -/
theorem step_keeps (s : Stream) {event : Event} (he : event ≠ .send true) :
    Keeps s (s.step limits event) := by
  cases event with
  | grant credit =>
    refine .ite fun _ => ⟨rfl, rfl, rfl, id, fun h => ⟨h.emits, ?_, fun avail hc => ?_, h.takes⟩⟩
    · have hle := saturatingAdd_le s.window credit
      have hf := h.flow
      show (saturatingAdd s.window credit).toNat + s.readBytes.length ≤ _ +
          (s.granted + credit.toNat)
      omega
    · exact (h.observed avail hc).trans (le_saturatingAdd s.window credit)
  | accept msg =>
    refine .ite fun _ => ⟨rfl, rfl, rfl, id, fun h => ?_⟩
    obtain ⟨taken, ht⟩ := h.takes
    exact { h with takes := ⟨taken, ht.accept msg⟩ }
  | detach => exact ⟨rfl, rfl, rfl, id, fun h => { h with }⟩
  | abort => exact .abort s
  | connect result =>
    rw [Stream.step]
    split
    · rename_i hp
      exact .connect hp result
    · exact .refl s
  | send sent =>
    cases sent with
    | true => exact absurd rfl he
    | false =>
      rw [Stream.step]
      split
      · exact .unsent s
      · exact .refl s
  | observe =>
    rw [Stream.step]
    split
    · rename_i hp
      exact .observe hp
    · exact .refl s
  | _ => exact .turn s _

theorem step_send (hs : s.sending = some frame) :
    (s.step limits (.send true)).streamId = s.streamId ∧
      (s.step limits (.send true)).port = s.port ∧
      (s.step limits (.send true)).emitted = s.emitted ++ [frame] := by
  rw [Stream.step, hs]
  dsimp only
  rw [Stream.sent]
  split
  · exact ⟨rfl, rfl, rfl⟩
  · split_ifs <;> exact ⟨rfl, rfl, rfl⟩
  · exact ⟨rfl, rfl, rfl⟩

theorem isEnded_iff : s.isEnded = true ↔ s.relay.phase = .ended := by
  rw [Stream.isEnded]
  cases s.relay.phase <;> simp

theorem not_ended_of_sending (hs : s.sending = some frame) : s.isEnded = false := by
  rw [← Bool.not_eq_true, isEnded_iff]
  intro he
  rw [Stream.sending, he] at hs
  cases hs

/-- The parts of `Keeps` that hold of every event. -/
theorem step_same (s : Stream) (event : Event) :
    (s.step limits event).streamId = s.streamId ∧ (s.step limits event).port = s.port ∧
      (s.isEnded = true → (s.step limits event).isEnded = true) ∧
        (Inv s → Inv (s.step limits event)) := by
  by_cases hev : event = .send true
  · subst hev
    cases hs : s.sending with
    | none =>
      rw [Stream.step, hs]
      exact ⟨rfl, rfl, id, id⟩
    | some frame =>
      have hse := step_send limits hs
      refine ⟨hse.1, hse.2.1, fun he => ?_, fun h => ?_⟩
      · rw [not_ended_of_sending hs] at he
        cases he
      · rw [Stream.step, hs]
        exact h.sent hs
  · have hk := step_keeps limits s hev
    exact ⟨hk.streamId, hk.port, fun he => isEnded_iff.mpr (hk.ended (isEnded_iff.mp he)), hk.inv⟩

theorem Inv.step (h : Inv s) (event : Event) : Inv (s.step limits event) :=
  (step_same limits s event).2.2.2 h

theorem Inv.run (h : Inv s) (events : List Event) : Inv (s.run limits events) := by
  induction events generalizing s with
  | nil => exact h
  | cons event events ih => exact ih (h.step limits event)

theorem Out.streamId (h : Out id phase readDone (some frame) emitted readBytes) :
    frame.streamId = id := by
  cases h with
  | relaying _ chunks hh | ended chunks hh => cases hh <;> rfl

theorem Inv.sending_streamId (h : Inv s) (hs : s.sending = some frame) :
    frame.streamId = s.streamId := by
  have he := h.emits
  rw [Stream.sending] at hs
  split at hs <;> try cases hs <;> rfl
  rw [Stream.Emits, hs] at he
  exact he.streamId

end Steps

/-! ## What holds of every stream -/

def Frame.isOpening : Frame → Bool
  | .openOk _ => true
  | .openErr _ _ => true
  | _ => false

def Frame.payload : Frame → List UInt8
  | .data _ bytes => bytes
  | _ => []

def dataBytes (frames : List Frame) : List UInt8 := frames.flatMap Frame.payload

/-- A stream seen from its client and its loopback. -/
structure StreamSound (limits : TunnelLimits) (s : Stream) : Prop where
  credit : (dataBytes (s.emitted ++ s.relay.pending.toList)).length ≤ initialCredit.toNat +
    s.granted
  /-- A read takes its bytes from the window, which has them. -/
  window : ∀ bytes,
    (s.step limits (.read bytes)).window.toNat + (s.step limits (.read bytes)).readBytes.length =
    s.window.toNat + s.readBytes.length
  order : dataBytes s.emitted <+: s.readBytes
  eof_once : s.emitted.count (.eof s.streamId) ≤ 1
  eof_last : ∀ before after, s.emitted = before ++ .eof s.streamId :: after →
    dataBytes before = s.readBytes ∧ ∀ frame ∈ after, frame = .close s.streamId
  written : s.written <+: beforeEof s.admitted
  opens : ∀ frame rest, s.emitted = frame :: rest → frame.isOpening = true ∧
    ∀ f ∈ rest, f.isOpening = false
  close_last : ∀ before after, s.emitted = before ++ .close s.streamId :: after →
    after = [] ∧ .close s.streamId ∉ before

section Sound

variable {before after : List Frame}

theorem dataBytes_append (a b : List Frame) : dataBytes (a ++ b) = dataBytes a ++ dataBytes b :=
  flatMap_append

theorem dataBytes_chunks (id : UInt32) (chunks : List (List UInt8)) :
    dataBytes (chunks.map (.data id)) = chunks.flatten := by
  rw [dataBytes, flatMap_map]
  exact flatMap_id

theorem eq_of_mem_ite {b : Bool} {x f : Frame} (h : f ∈ if b then [x] else []) : f = x := by
  split_ifs at h
  · exact mem_singleton.mp h
  · cases h

structure Shape (id : UInt32) (emitted : List Frame) (readBytes : List UInt8)
    (opened : Option Frame) (chunks : List (List UInt8)) (eofSent closed : Bool) : Prop where
  frames : emitted = opened.toList ++ chunks.map (.data id) ++
    (if eofSent then [.eof id] else []) ++ if closed then [.close id] else []
  opening : ∀ frame, opened = some frame → frame.isOpening = true ∧ frame.payload = [] ∧
    frame ≠ .eof id ∧ frame ≠ .close id
  unopened : opened = none → chunks = [] ∧ eofSent = false ∧ closed = false
  bytes : chunks.flatten <+: readBytes
  all : eofSent = true → chunks.flatten = readBytes

theorem Held.all (h : Held id readDone pending eofSent held) (hs : eofSent = true) : held = [] := by
  cases h with
  | done => rfl
  | _ => cases hs

theorem Held.payload (h : Held id readDone pending eofSent held) :
    dataBytes pending.toList = held := by
  cases h with
  | chunk => exact append_nil _
  | _ => rfl

variable {opened : Option Frame} {chunks : List (List UInt8)} {closed : Bool}

theorem Out.shape (h : Out id phase readDone pending emitted readBytes) :
    ∃ opened chunks eofSent closed, Shape id emitted readBytes opened chunks eofSent closed ∧
      chunks.flatten ++ dataBytes pending.toList = readBytes := by
  replace h := h.stop
  cases h with
  | opening h | relaying h => cases h
  | unopened message =>
    refine ⟨message.map (Frame.openErr id), [], false, false,
      ⟨by simp, fun frame hf => ?_, fun _ => ⟨rfl, rfl, rfl⟩, nil_prefix, nofun⟩, rfl⟩
    obtain ⟨text, -, rfl⟩ := map_eq_some_iff.mp hf
    exact ⟨rfl, rfl, nofun, nofun⟩
  | @ended _ _ eofSent held chunks hh closed =>
    refine ⟨some (.openOk id), chunks, eofSent, closed,
      ⟨by simp, fun frame hf => ?_, nofun, prefix_append _ _, fun hs => ?_⟩, by rw [hh.payload]⟩
    · cases hf
      exact ⟨rfl, rfl, nofun, nofun⟩
    · rw [hh.all hs, append_nil]

section

variable (h : Shape id emitted readBytes opened chunks eofSent closed)
include h

theorem Shape.dataBytes_opened : dataBytes opened.toList = [] := by
  cases ho : opened with
  | none => rfl
  | some frame =>
    rw [toList_some, dataBytes, flatMap_singleton]
    exact (h.opening frame ho).2.1

theorem Shape.dataBytes_eq : dataBytes emitted = chunks.flatten := by
  have heof : dataBytes (if eofSent then [Frame.eof id] else []) = [] := by split_ifs <;> rfl
  have hc : dataBytes (if closed then [Frame.close id] else []) = [] := by split_ifs <;> rfl
  rw [h.frames, dataBytes_append, dataBytes_append, dataBytes_append, dataBytes_chunks, heof, hc,
    h.dataBytes_opened]
  simp

theorem Shape.not_mem :
    Frame.eof id ∉ opened.toList ++ chunks.map (Frame.data id) ∧
      Frame.close id ∉ opened.toList ++ chunks.map (Frame.data id) := by
  have hnot (f : Frame) (hf : ∀ bytes, Frame.data id bytes ≠ f) (hop : ∀ frame,
      opened = some frame → frame ≠ f) : f ∉ opened.toList ++ chunks.map (Frame.data id) := by
    intro hin
    rcases mem_append.mp hin with ho | hc
    · exact hop f (mem_toList.mp ho) rfl
    · obtain ⟨bytes, -, hb⟩ := mem_map.mp hc
      exact hf bytes hb
  exact ⟨hnot _ nofun fun frame hfr => (h.opening frame hfr).2.2.1,
    hnot _ nofun fun frame hfr => (h.opening frame hfr).2.2.2⟩

theorem Shape.eof_split (hs : emitted = before ++ .eof id :: after) :
    eofSent = true ∧ opened.toList ++ chunks.map (Frame.data id) = before ∧
      (if closed then [.close id] else []) = after := by
  have hc : Frame.eof id ∉ (if closed then [Frame.close id] else []) := by split_ifs <;> simp
  have hf := h.frames
  cases eofSent with
  | true =>
    rw [if_pos rfl, append_assoc, hs] at hf
    obtain ⟨hb, -, ha⟩ := (append_cons_inj_of_notMem h.not_mem.1 hc).mp hf.symm
    exact ⟨rfl, hb, ha⟩
  | false =>
    rw [if_neg Bool.false_ne_true, append_nil] at hf
    have hin : Frame.eof id ∈ emitted := hs ▸ mem_append_right before mem_cons_self
    rw [hf] at hin
    rcases mem_append.mp hin with hfi | hl
    · exact absurd hfi h.not_mem.1
    · exact absurd hl hc

theorem Shape.close_split (hs : emitted = before ++ .close id :: after) :
    after = [] ∧ .close id ∉ before := by
  have hnot : Frame.close id ∉ opened.toList ++ chunks.map (Frame.data id) ++
      (if eofSent then [Frame.eof id] else []) := by
    intro hin
    rcases mem_append.mp hin with hfi | hl
    · exact h.not_mem.2 hfi
    · cases eq_of_mem_ite hl
  have hf := h.frames
  cases closed with
  | true =>
    rw [if_pos rfl, hs] at hf
    obtain ⟨hb, -, ha⟩ := (append_cons_inj_of_notMem hnot not_mem_nil).mp hf.symm
    exact ⟨ha.symm, hb ▸ hnot⟩
  | false =>
    rw [if_neg Bool.false_ne_true, append_nil] at hf
    exact absurd (hf ▸ hs ▸ mem_append_right before mem_cons_self) hnot

theorem Shape.opens {rest : List Frame} (hco : emitted = frame :: rest) :
    frame.isOpening = true ∧ ∀ f ∈ rest, f.isOpening = false := by
  have hfr := h.frames
  cases ho : opened with
  | none =>
    obtain ⟨rfl, rfl, rfl⟩ := h.unopened ho
    rw [ho, hco] at hfr
    cases hfr
  | some first =>
    rw [ho, hco, toList_some, append_assoc, append_assoc, singleton_append] at hfr
    obtain ⟨rfl, hr⟩ := List.cons.inj hfr
    refine ⟨(h.opening frame ho).1, fun f hf => ?_⟩
    rw [hr] at hf
    rcases mem_append.mp hf with hch | hl
    · obtain ⟨bytes, -, rfl⟩ := mem_map.mp hch
      rfl
    · rcases mem_append.mp hl with heof | hc
      · rw [eq_of_mem_ite heof]
        rfl
      · rw [eq_of_mem_ite hc]
        rfl

theorem Shape.eof_once : emitted.count (.eof id) ≤ 1 := by
  rw [h.frames, count_append, count_append, count_eq_zero_of_not_mem h.not_mem.1]
  cases eofSent <;> cases closed <;> simp

end

theorem Inv.step_read (h : Inv s) (limits : TunnelLimits) (bytes : Option (List UInt8)) :
    (s.step limits (.read bytes)).window.toNat + (s.step limits (.read bytes)).readBytes.length =
      s.window.toNat + s.readBytes.length := by
  rw [show s.step limits (.read bytes) = s.turn (.read bytes) from rfl, Stream.turn]
  split
  · rename_i avail hp
    rw [Stream.select]
    split_ifs
    · exact h.read_window hp bytes
    · rfl
  · rfl

/-- However its reads, writes, messages, grants, timers and the draining of its frames interleave,
a stream keeps to its credit and to the order of its bytes. -/
theorem stream_sound (limits : TunnelLimits) (streamId : UInt32) (port : UInt16)
    (events : List Event) :
    StreamSound limits ((Stream.start streamId port).run limits events) := by
  have h : Inv ((Stream.start streamId port).run limits events) :=
    (inv_start streamId port).run limits events
  obtain ⟨opened, chunks, eofSent, closed, hs, hb⟩ := h.emits.shape
  refine ⟨?_, h.step_read limits, ?_, hs.eof_once, fun before after hsp => ?_, ?_,
    fun frame rest hc => hs.opens hc, fun before after hsp => hs.close_split hsp⟩
  · rw [dataBytes_append, hs.dataBytes_eq, hb]
    have hfl := h.flow
    omega
  · rw [hs.dataBytes_eq]
    exact hs.bytes
  · obtain ⟨hse, hb, ha⟩ := hs.eof_split hsp
    constructor
    · rw [← hb, dataBytes_append, dataBytes_chunks, hs.dataBytes_opened, nil_append]
      exact hs.all hse
    · exact fun frame hf => eq_of_mem_ite (ha ▸ hf)
  · obtain ⟨taken, ht⟩ := h.takes
    exact ht.prefix_admitted

end Sound

end Intentd.TunnelStreams
