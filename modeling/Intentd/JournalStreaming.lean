import Intentd.JournalLedger

/-!
# Streaming the journal from the machine to head

Head and the machine run on their own and talk over links. Head offers a link
with a hello that carries its acknowledged sequence; the machine adopts it,
replays the records after that sequence and then streams new ones. Head counts
what it ingested, saves the count and acknowledges only what it saved.

A step below is one uninterrupted action of either side. Between two steps a
link may be cut, which loses the end of what is in flight in each direction,
either side may notice a cut at any later time, and either process may restart.
A restarted head knows only the saved acknowledgement. A restarted machine
knows its journal, as the death of its process left it.
-/
namespace Intentd.JournalStreaming
open JournalDirectory JournalProcess JournalLedger MachineWords

/-- How head treats an incoming record, given its highest ingested sequence. -/
inductive JournalOrder where
  | next
  | duplicate
  | gap
  deriving DecidableEq

def JournalOrder.classify (acked seq : ℕ) : JournalOrder :=
  if seq ≤ acked then .duplicate
  else if checkedAdd acked 1 = some seq then .next
  else .gap

inductive Accepted where
  | ingest
  | ingestAfterLoss (lost : ℕ × ℕ)
  | skip
  | resync
  deriving DecidableEq

structure Ingest where
  ingested : ℕ
  replaying : Bool

namespace Ingest

def new (ingested : ℕ) : Ingest := ⟨ingested, false⟩

def startLink (i : Ingest) : Ingest := { i with replaying := true }

def replayComplete (i : Ingest) : Ingest := { i with replaying := false }

def accept (i : Ingest) (seq : ℕ) : Accepted × Ingest :=
  match JournalOrder.classify i.ingested seq with
  | .next => (.ingest, { i with ingested := seq })
  | .duplicate => (.skip, i)
  | .gap =>
    if i.replaying then
      (.ingestAfterLoss (i.ingested + 1, seq - 1), { i with ingested := seq })
    else (.resync, i)

end Ingest

/-- Ack batching for one link. `due` says that the timer of a batch runs. -/
structure Acks where
  pending : ℕ := 0
  due : Bool := false
  persisted : Option ℕ := none

variable {β : Type}

inductive Frame (β : Type) where
  | journal (record : JournalRecord β)
  | replayComplete (throughSeq : ℕ)

/-- The task that streams the journal: `batch` is what it read and has still to
send, and is empty when it is about to read. -/
structure Streamer (β : Type) where
  cursor : ℕ
  replaying : Bool
  batch : List (JournalRecord β)
  /-- The last sequence at the latest read; none before it and once it is used. -/
  last : Option ℕ

inductive Session (β : Type) where
  | waiting
  | serving (streamer : Option (Streamer β))
  | ended

structure Link (β : Type) where
  acked : ℕ
  session : Session β := .waiting
  toHead : List (Frame β) := []
  toMachine : List ℕ := []
  cut : Bool := false
  machineClosed : Bool := false
  headClosed : Bool := false

namespace Link

def sendHead (l : Link β) (frame : Frame β) : Link β :=
  if l.cut then l else { l with toHead := l.toHead ++ [frame] }

def sendMachine (l : Link β) (seq : ℕ) : Link β :=
  if l.headClosed ∨ l.cut then l else { l with toMachine := l.toMachine ++ [seq] }

end Link

/-- One head process. `start` and `delivered` are for the statements: the
sequence it started from and what it delivered, in order. -/
structure Head (β : Type) where
  ingest : Ingest
  acks : Acks
  serving : Option ℕ
  firstGeneration : ℕ
  start : ℕ
  delivered : List (JournalRecord β)

structure System (β : Type) where
  journal : Ledger β
  gate : Option ℕ
  links : ℕ → Option (Link β)
  generation : ℕ
  persisted : ℕ
  head : Head β
  history : List (JournalRecord β)
  lossNoted : Bool

/-- A head process that knows only the saved acknowledgement. -/
def Head.new (persisted generation : ℕ) : Head β :=
  ⟨Ingest.new persisted, {}, none, generation + 1, persisted, []⟩

/-- The lease was adopted and nothing happened since. -/
def System.initial (lease : String) : System β :=
  ⟨Ledger.fresh (some lease), none, fun _ => none, 0, 0, Head.new 0 0, [], false⟩

namespace System
variable (s : System β)

def modifyLink (g : ℕ) (f : Link β → Link β) : System β :=
  { s with links := Function.update s.links g ((s.links g).map f) }

def setAcks (acks : Acks) : System β := { s with head := { s.head with acks := acks } }

def setIngest (ingest : Ingest) : System β := { s with head := { s.head with ingest := ingest } }

/-- Save the ingested sequence; the saved one never goes back. -/
def persistAck : System β := { s with persisted := max s.persisted s.head.ingest.ingested }

def sendAck (g : ℕ) : System β := s.modifyLink g (·.sendMachine s.head.ingest.ingested)

/-- Persist the ingested sequence, then acknowledge it on the link. A failed
write sends no acknowledgement. -/
def flush (g : ℕ) (writeOk : Bool) : System β :=
  if s.head.acks.persisted = some s.head.ingest.ingested then
    (s.setAcks { persisted := s.head.acks.persisted }).sendAck g
  else if writeOk then
    (s.persistAck.setAcks { persisted := some s.head.ingest.ingested }).sendAck g
  else s.setAcks { persisted := s.head.acks.persisted }

/-- Count a received record, and acknowledge once the batch is full. -/
def countRecord (ackBatch g : ℕ) (writeOk : Bool) : System β :=
  if ackBatch ≤ s.head.acks.pending + 1 then s.flush g writeOk
  else s.setAcks { s.head.acks with pending := s.head.acks.pending + 1, due := true }

def deliver (record : JournalRecord β) : System β :=
  { s with
    head := { s.head with delivered := s.head.delivered ++ [record] }
    history := s.history ++ [record] }

def closeHead (g : ℕ) : System β := s.modifyLink g ({ · with headClosed := true })

def setServing (serving : Option ℕ) : System β :=
  { s with head := { s.head with serving := serving } }

/-- Head stops serving a link: it saves what it ingested and closes the link. -/
def endLink (g : ℕ) (writeOk : Bool) : System β :=
  ((s.flush g writeOk).closeHead g).setServing none

/-- One journal record arrives on the served link. -/
def ingestRecord (ackBatch g : ℕ) (record : JournalRecord β) (writeOk : Bool) : System β :=
  match s.head.ingest.accept record.seq with
  | (.ingest, ingest) => ((s.setIngest ingest).deliver record).countRecord ackBatch g writeOk
  | (.ingestAfterLoss _, ingest) =>
    { (s.setIngest ingest).deliver record with lossNoted := true }.countRecord ackBatch g writeOk
  | (.skip, ingest) => (s.setIngest ingest).countRecord ackBatch g writeOk
  | (.resync, ingest) => (s.setIngest ingest).endLink g writeOk

/-- The hello acknowledges only what is saved; head first tries to save what it
ingested. -/
def offer (writeOk : Bool) : System β :=
  let persisted := if writeOk then max s.persisted s.head.ingest.ingested else s.persisted
  { s with
    persisted := persisted
    generation := s.generation + 1
    links := Function.update s.links (s.generation + 1) (some { acked := persisted }) }

def restartHead : System β :=
  { s with
    head := Head.new s.persisted s.generation
    links := fun g => (s.links g).map ({ · with headClosed := true }) }

/-- The machine's process dies and leaves `journal` on disk. -/
def restartMachine (journal : Ledger β) : System β :=
  { s with
    journal := journal
    gate := none
    links := fun g => (s.links g).map ({ · with session := .ended, machineClosed := true }) }

end System

/-- Whether a session may act, given the gate. -/
def Admits (gate : Option ℕ) (g : ℕ) (closed : Bool) : Prop :=
  closed = false ∧ ∀ current ∈ gate, current ≤ g

/-- The journal command the machine's process may be inside when it dies. -/
inductive Interrupted (lease : String) (s : System β) : Command β → Prop
  | idle : Interrupted lease s .reopen
  | appending (entry : JournalEntry β) : Interrupted lease s (.call (.append entry))
  | adopting {g : ℕ} {l : Link β} (hlink : s.links g = some l) (hwait : l.session = .waiting)
      (hcurrent : Admits s.gate g l.machineClosed) :
      Interrupted lease s (.call (.useLease lease))
  | resyncing {g : ℕ} {l : Link β} (hlink : s.links g = some l) (hwait : l.session = .waiting)
      (hcurrent : Admits s.gate g l.machineClosed) :
      Interrupted lease s (.call (.acknowledge l.acked))
  | acknowledging {g a : ℕ} {l : Link β} {rest : List ℕ} (hlink : s.links g = some l)
      (hack : l.toMachine = a :: rest) (hcurrent : Admits s.gate g l.machineClosed) :
      Interrupted lease s (.call (.acknowledge a))

inductive Action where
  | append
  | adopt (g : ℕ)
  | stream (g : ℕ)
  | acknowledge (g : ℕ)
  | restartMachine
  | offer
  | serve (g : ℕ)
  | receive (g : ℕ)
  | flush (g : ℕ)
  | endLink (g : ℕ)
  | restartHead
  | cut (g : ℕ)
  | notice (g : ℕ)

inductive Step (lease : String) (ackBatch : ℕ) (s : System β) : Action → System β → Prop
  | append (entry : JournalEntry β) :
      Step lease ackBatch s .append { s with journal := s.journal.push entry }
  | adoptReplaced {g : ℕ} {l : Link β} (hlink : s.links g = some l)
      (hwait : l.session = .waiting) (hcurrent : ¬Admits s.gate g l.machineClosed) :
      Step lease ackBatch s (.adopt g)
        (s.modifyLink g ({ · with session := .ended, machineClosed := true }))
  | adoptRefused {g : ℕ} {l : Link β} (hlink : s.links g = some l)
      (hwait : l.session = .waiting) (hcurrent : Admits s.gate g l.machineClosed)
      (hahead : (s.journal.adopt lease).log.length < l.acked) :
      Step lease ackBatch s (.adopt g)
        ({ s with gate := some g, journal := s.journal.adopt lease }.modifyLink g
          ({ · with session := .ended, machineClosed := true }))
  | adopt {g : ℕ} {l : Link β} (hlink : s.links g = some l)
      (hwait : l.session = .waiting) (hcurrent : Admits s.gate g l.machineClosed)
      (hacked : l.acked ≤ (s.journal.adopt lease).log.length) :
      Step lease ackBatch s (.adopt g) ({ s with
            gate := some g
            journal := (s.journal.adopt lease).acknowledge l.acked }.modifyLink g
          ({ · with session := .serving (some ⟨l.acked, true, [], none⟩) }))
  | read {g : ℕ} {l : Link β} {st : Streamer β} {rs : List (JournalRecord β)}
      (hlink : s.links g = some l) (hst : l.session = .serving (some st)) (hbatch : st.batch = [])
      (hlast : st.last = none) (hread : s.journal.Reads st.cursor rs) :
      Step lease ackBatch s (.stream g) (s.modifyLink g ({ · with
        session := .serving (some { st with batch := rs, last := some s.journal.log.length }) }))
  | readFailed {g : ℕ} {l : Link β} {st : Streamer β} (hlink : s.links g = some l)
      (hst : l.session = .serving (some st)) (hlast : st.last = none) :
      Step lease ackBatch s (.stream g)
        (s.modifyLink g ({ · with session := .serving none, machineClosed := true }))
  | send {g : ℕ} {l : Link β} {st : Streamer β} {r : JournalRecord β}
      {rest : List (JournalRecord β)} (hlink : s.links g = some l)
      (hst : l.session = .serving (some st)) (hbatch : st.batch = r :: rest)
      (hopen : l.machineClosed = false) :
      Step lease ackBatch s (.stream g) (s.modifyLink g fun l => { l.sendHead (.journal r) with
        session := .serving (some { st with cursor := r.seq, batch := rest }) })
  | finishReplay {g last : ℕ} {l : Link β} {st : Streamer β} (hlink : s.links g = some l)
      (hst : l.session = .serving (some st)) (hbatch : st.batch = []) (hlast : st.last = some last)
      (hreplay : st.replaying) (hopen : l.machineClosed = false) :
      Step lease ackBatch s (.stream g) (s.modifyLink g fun l =>
        { l.sendHead (.replayComplete (max last l.acked)) with
          session := .serving (some { st with replaying := false, last := none }) })
  | awaitAppend {g : ℕ} {l : Link β} {st : Streamer β} (hlink : s.links g = some l)
      (hst : l.session = .serving (some st)) (hbatch : st.batch = [])
      (hreplay : st.replaying = false) :
      Step lease ackBatch s (.stream g)
        (s.modifyLink g ({ · with session := .serving (some { st with last := none }) }))
  | streamClosed {g : ℕ} {l : Link β} {st : Streamer β} (hlink : s.links g = some l)
      (hst : l.session = .serving (some st)) (hclosed : l.machineClosed) :
      Step lease ackBatch s (.stream g) (s.modifyLink g ({ · with session := .serving none }))
  | ackStale {g a : ℕ} {l : Link β} {rest : List ℕ} {st : Option (Streamer β)}
      (hlink : s.links g = some l) (hst : l.session = .serving st)
      (hack : l.toMachine = a :: rest) (hcurrent : ¬Admits s.gate g l.machineClosed) :
      Step lease ackBatch s (.acknowledge g) (s.modifyLink g ({ · with toMachine := rest }))
  | ackRefused {g a : ℕ} {l : Link β} {rest : List ℕ} {st : Option (Streamer β)}
      (hlink : s.links g = some l) (hst : l.session = .serving st)
      (hack : l.toMachine = a :: rest) (hcurrent : Admits s.gate g l.machineClosed)
      (hahead : s.journal.log.length < a) :
      Step lease ackBatch s (.acknowledge g)
        (s.modifyLink g ({ · with toMachine := rest, machineClosed := true }))
  | ack {g a : ℕ} {l : Link β} {rest : List ℕ} {st : Option (Streamer β)}
      (hlink : s.links g = some l) (hst : l.session = .serving st)
      (hack : l.toMachine = a :: rest) (hcurrent : Admits s.gate g l.machineClosed)
      (hacked : a ≤ s.journal.log.length) :
      Step lease ackBatch s (.acknowledge g)
        ({ s with journal := s.journal.acknowledge a }.modifyLink g ({ · with toMachine := rest }))
  | sessionEnds {g : ℕ} {l : Link β} {st : Option (Streamer β)} (hlink : s.links g = some l)
      (hst : l.session = .serving st) (hclosed : l.machineClosed) :
      Step lease ackBatch s (.acknowledge g) (s.modifyLink g ({ · with session := .ended }))
  | restartMachine {c : Command β} {journal : Ledger β} (hc : Interrupted lease s c)
      (hnext : Next s.journal (c, .died) journal) :
      Step lease ackBatch s .restartMachine (s.restartMachine journal)
  | offer (writeOk : Bool) (hidle : s.head.serving = none) :
      Step lease ackBatch s .offer (s.offer writeOk)
  | serve {g : ℕ} {l : Link β} (hidle : s.head.serving = none) (hlink : s.links g = some l)
      (hown : s.head.firstGeneration ≤ g) :
      Step lease ackBatch s (.serve g)
        (((s.setIngest s.head.ingest.startLink).setAcks {}).setServing (some g))
  | receiveRecord {g : ℕ} {l : Link β} {r : JournalRecord β} {rest : List (Frame β)}
      (writeOk : Bool) (hserve : s.head.serving = some g) (hlink : s.links g = some l)
      (hframe : l.toHead = .journal r :: rest) :
      Step lease ackBatch s (.receive g)
        ((s.modifyLink g ({ · with toHead := rest })).ingestRecord ackBatch g r writeOk)
  | receiveReplayComplete {g throughSeq : ℕ} {l : Link β} {rest : List (Frame β)}
      (writeOk : Bool) (hserve : s.head.serving = some g) (hlink : s.links g = some l)
      (hframe : l.toHead = .replayComplete throughSeq :: rest) :
      Step lease ackBatch s (.receive g) (((s.setIngest s.head.ingest.replayComplete).modifyLink g
          ({ · with toHead := rest })).flush g writeOk)
  | flush {g : ℕ} (writeOk : Bool) (hserve : s.head.serving = some g) (hdue : s.head.acks.due) :
      Step lease ackBatch s (.flush g) (s.flush g writeOk)
  | endLink {g : ℕ} (writeOk : Bool) (hserve : s.head.serving = some g) :
      Step lease ackBatch s (.endLink g) (s.endLink g writeOk)
  | restartHead : Step lease ackBatch s .restartHead s.restartHead
  | cut (g toHead toMachine : ℕ) :
      Step lease ackBatch s (.cut g) (s.modifyLink g fun l => { l with
        cut := true
        toHead := l.toHead.take toHead
        toMachine := l.toMachine.take toMachine })
  | machineNotices (g : ℕ) :
      Step lease ackBatch s (.notice g) (s.modifyLink g ({ · with machineClosed := true }))
  | headNotices (g : ℕ) :
      Step lease ackBatch s (.notice g) (s.closeHead g)

end Intentd.JournalStreaming
