import Mathlib.Data.List.AList
import Intentd.InterruptiblePrograms

/-!
# The journal's directory and the filesystem calls made on it

The journal keeps one file for its state and one file per record, and writes
each of them under a pending name first. A file holds what was serialized into
it, or torn bytes that no reader can decode. Names are kept apart by what they
name: `record seq` stands for the zero-padded decimal name of sequence `seq`,
which no two sequences share, and a pending name is the name with its suffix.
-/
namespace Intentd.JournalDirectory
open InterruptiblePrograms

/-- Which lease the journal belongs to and the acknowledged sequence. -/
structure State where
  leaseId : Option String
  acked : ℕ
  deriving DecidableEq, Repr

/-- One record to append. What it reports is opaque to the journal. -/
structure JournalEntry (β : Type) where
  agentId : String
  workspaceId : String
  turnId : Option String
  recordedAt : String
  body : β
  deriving DecidableEq, Repr

structure JournalRecord (β : Type) extends JournalEntry β where
  seq : ℕ
  deriving DecidableEq, Repr

inductive Target where
  | state
  | record (seq : ℕ)
  deriving DecidableEq, Repr

inductive Name where
  | installed (t : Target)
  | pending (t : Target)
  deriving DecidableEq, Repr

inductive Content (β : Type) where
  | torn
  | state (s : State)
  | record (r : JournalRecord β)
  deriving DecidableEq, Repr

abbrev Directory (β : Type) := AList fun _ : Name => Content β

inductive Call (β : Type) where
  | createDir
  | create (t : Target)
  | write (t : Target) (c : Content β)
  | sync (t : Target)
  | rename (t : Target)
  /-- `after` is the file whose rename the directory sync follows, if any. It
  only tells the sites of this call apart. -/
  | syncDir (after : Option Target)
  | read (t : Target)
  | list
  | remove (n : Name)

/-- A read answers nothing, and a removal `false`, when there is no such file. -/
@[reducible] def Call.Answer {β : Type} : Call β → Type
  | .read _ => Option (Content β)
  | .list => List Name
  | .remove _ => Bool
  | _ => Unit

def perform {β : Type} : (c : Call β) → Directory β → c.Answer × Directory β
  | .createDir, d => ((), d)
  | .create t, d => ((), d.insert (.pending t) .torn)
  | .write t c, d => ((), d.insert (.pending t) c)
  | .sync _, d => ((), d)
  | .rename t, d =>
    match d.lookup (.pending t) with
    | some c => ((), (d.erase (.pending t)).insert (.installed t) c)
    | none => ((), d)
  | .syncDir _, d => ((), d)
  | .read t, d => (d.lookup (.installed t), d)
  | .list, d => (d.keys, d)
  | .remove n, d => (decide (n ∈ d), d.erase n)

@[reducible] def fileSystem (β : Type) : System where
  World := Directory β
  Call := Call β
  Answer := Call.Answer
  Fault := String
  perform := perform

variable {β : Type} (d : Directory β)

/-- The directory after a file was installed: written, synced and renamed. -/
def installed (t : Target) (c : Content β) : Directory β :=
  (((d.insert (.pending t) .torn).insert (.pending t) c).erase (.pending t)).insert (.installed t) c

variable {d}

theorem rename_written (t : Target) (c : Content β) :
    (perform (.rename t) ((d.insert (.pending t) .torn).insert (.pending t) c)).2 =
      installed d t c := by
  simp [perform, installed]

end Intentd.JournalDirectory
