import Intentd.DrainInvariant

/-!
# Turns of several messages

One attempt to start a turn from a batch: the ready entries are popped, annotated, and given
their rows one after another, all under the turn of the first. Entries that have a row from
an earlier attempt are passed over. When all have theirs the guard is dropped and the turn
starts. When an append fails, the entries go back to the front of the queue in three pieces:
those after the failed one, then the failed one, then those before it. Between any two of
these steps other messages come in.

After a shutdown has begun a failed attempt gives everything back at once; one that failed
just before leaves the failed entry to the draining list, which is frozen by then. A
shutdown also cancels attempts, maybe after an append that committed.

Attempts follow one another. The session is not deleted.
-/
namespace Intentd.FlushTurns
open QueuedMessages QueueDrains

inductive Phase where
  | idle
  | storing (i : ℕ)
  /-- The append of that entry failed, and those after it are back. -/
  | tailBack (i : ℕ)
  /-- It is back too, or left to the draining list. -/
  | failedBack (i : ℕ)
  | parked
  deriving DecidableEq

structure Turn where
  turnId : String
  batch : List QueuedMessage
  entries : List QueuedMessage
  rows : List Row

structure Flush where
  queue : System
  phase : Phase
  batch : List QueuedMessage
  begun : ℕ
  turns : List Turn

def Flush.quiet (s : System) : Flush := ⟨s, .idle, [], s.transcript.length, []⟩

def Flush.entries (f : Flush) : List QueuedMessage := f.queue.drains.flatMap Drain.inHand

/-- What `publish_error_status_and_requeue` changes in the entry whose append failed. -/
def requeued : Annotation where
  content := id
  messageMetadata := id
  keeps_author := fun _ => rfl
  requeuedAfterFailure := fun _ => true

inductive Label where
  | enqueue (r : Request)
  | otherAgent
  | dequeue (p : Pop)
  | annotate (id : String) (a : Annotation)
  | store (ok : Bool)
  | handBackFailed
  | handBackHead
  | leave
  | startTurn
  | freeze
  | abort (committed : Bool)

namespace Flush

variable (f : Flush)

def dequeue (p : Pop) : Option Flush :=
  if f.phase ≠ .idle then none
  else do
    let (popped, _) ← p.run f.queue.live
    if popped.isEmpty then none
    else
      let queue ← f.queue.pop p
      return { f with
        queue := queue, phase := .storing 0, batch := popped, begun := queue.transcript.length }

/-- Everything that is written on an entry is written before the loop. -/
def annotate (id : String) (a : Annotation) : Option Flush :=
  if f.phase = .storing 0 then (f.queue.annotate 0 id a).map ({ f with queue := · }) else none

def store (ok : Bool) : Option Flush :=
  match f.phase with
  | .storing i => do
      let first ← f.entries.head?
      let m ← f.entries[i]?
      if m.persisted then return { f with phase := .storing (i + 1) }
      else if ok then
        let queue ← f.queue.append 0 m.id first.turnId true
        return { f with queue := queue, phase := .storing (i + 1) }
      else if f.queue.frozen then
        let queue ← f.queue.handBackBatch 0 fun _ => true
        return { f with queue := queue, phase := .parked }
      else
        let tail := (f.entries.drop (i + 1)).map QueuedMessage.id
        let queue ← f.queue.handBackBatch 0 fun id => id ∈ tail
        return { f with queue := queue, phase := .tailBack i }
  | _ => none

/-- `handle_drain_persist_failure` -/
def handBackFailed : Option Flush :=
  match f.phase with
  | .tailBack i =>
    if f.queue.frozen then some { f with phase := .failedBack i }
    else do
      let m ← f.entries[i]?
      let marked ← f.queue.annotate 0 m.id requeued
      let queue ← marked.handBackBatch 0 fun id => id = m.id
      return { f with queue := queue, phase := .failedBack i }
  | _ => none

def handBackHead : Option Flush :=
  match f.phase with
  | .failedBack i => do
      let head := (f.entries.take i).map QueuedMessage.id
      let queue ← f.queue.handBackBatch 0 fun id => id ∈ head
      return { f with queue := queue, phase := .parked }
  | _ => none

def leave : Option Flush :=
  if f.phase = .parked then (f.queue.leave 0).map ({ f with queue := ·, phase := .idle }) else none

def startTurn : Option Flush :=
  match f.phase with
  | .storing i =>
    if i < f.entries.length then none
    else do
      let first ← f.entries.head?
      let queue ← f.queue.leave 0
      let turn := ⟨first.turnId, f.batch, f.entries, f.queue.transcript.drop f.begun⟩
      return { f with queue := queue, phase := .idle, turns := f.turns ++ [turn] }
  | _ => none

def abort (committed : Bool) : Option Flush :=
  if !f.queue.frozen || f.phase = .idle then none
  else if committed then
    match f.phase with
    | .storing i => do
        let first ← f.entries.head?
        let m ← f.entries[i]?
        let queue ← f.queue.append 0 m.id first.turnId false
        return { f with queue := queue, phase := .idle }
    | _ => none
  else (f.queue.leave 0).map ({ f with queue := ·, phase := .idle })

end Flush

def next (f : Flush) : Label → Option Flush
  | .enqueue r => some { f with queue := f.queue.enqueue r }
  | .otherAgent => some { f with queue := { f.queue with lastOrder := f.queue.lastOrder + 1 } }
  | .dequeue p => f.dequeue p
  | .annotate id a => f.annotate id a
  | .store ok => f.store ok
  | .handBackFailed => f.handBackFailed
  | .handBackHead => f.handBackHead
  | .leave => f.leave
  | .startTurn => f.startTurn
  | .freeze => some { f with queue := { f.queue with frozen := true } }
  | .abort committed => f.abort committed

def Step (f : Flush) (l : Label) (g : Flush) : Prop := next f l = some g

/-- No entry is popped, and nothing is left of one that was. -/
structure Quiet (s : System) : Prop where
  drains : s.drains = []
  draining : s.draining = []
  frozen : s.frozen = false

def userRow (turnId : String) (m : QueuedMessage) : Row := ⟨m.id, turnId, m.submissions⟩

/-- The entries of a turn are those of its batch, and all have their row. Those that had none
got it for this turn, in the order of the queue. -/
structure Turn.Complete (turn : Turn) (transcript : List Row) : Prop where
  entries : List.Forall₂ Alike turn.entries turn.batch
  stored : ∀ m ∈ turn.entries, m.persisted = true ∧
    ∀ sub ∈ m.submissions, ∃ row ∈ transcript, sub ∈ row.submissions
  rows : turn.rows = (turn.batch.filter fun m => !m.persisted).map (userRow turn.turnId)
  kept : turn.rows <:+: transcript

structure HandedBack (f : Flush) : Prop where
  held : ∀ b ∈ f.batch, (∃ e ∈ f.queue.live, Covers e b) ∨
    f.queue.frozen = true ∧ ∃ d ∈ f.queue.draining, Alike d b
  order : ((f.queue.live.map QueuedMessage.id).filter (· ∈ f.batch.map QueuedMessage.id)).Sublist
    (f.batch.map QueuedMessage.id)
  /-- An entry is under the id of another one only if both had no row and one author. -/
  merged : ∀ b ∈ f.batch, ∀ e ∈ f.queue.live, Covers e b → e.id ≠ b.id → e.persisted = false ∧
    ∃ author, ∀ sub ∈ e.submissions, sub.principal = some author
  marked : ∀ e ∈ f.queue.live, ∀ sub ∈ e.submissions,
    (e.persisted = true ↔ ∃ row ∈ f.queue.transcript, sub ∈ row.submissions)

/-- What a step hands back it puts in front, and every merge is one of two entries of the
queue between which no other human entry of the queue was submitted. -/
def MergesNext (f g : Flush) : Prop :=
  ∃ back, (∀ m ∈ back, ∃ e ∈ f.entries, Alike m e) ∧
    Relation.ReflTransGen (MergeStep []) (back ++ f.queue.live) g.queue.live

/-- Entries of the batch that are one entry of the queue were neighbours: the human entries
between them, in the order of the batch or in that of submission, are part of it too. -/
def MergesNeighbours (f : Flush) : Prop :=
  ∀ e ∈ f.queue.live, ∀ a ∈ f.batch, ∀ c ∈ f.batch, Covers e a → Covers e c →
    (∀ b ∈ f.batch, b.isHumanQueueEntry = true → [a, b, c].Sublist f.batch → Covers e b) ∨
    (∀ b ∈ f.batch, b.isHumanQueueEntry = true → a.submissionOrder < b.submissionOrder →
      b.submissionOrder < c.submissionOrder → Covers e b)

end Intentd.FlushTurns
