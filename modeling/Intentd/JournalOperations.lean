import Mathlib.Data.List.Sort
import Intentd.JournalDirectory
import Intentd.MachineWords

/-!
# The operations of the durable journal

Every operation is a method of the in-memory journal over the filesystem calls,
in the order the source makes them. An operation that fails part-way keeps the
changes it already made to the counters, as the source does.
-/
namespace Intentd.JournalOperations
open InterruptiblePrograms JournalDirectory MachineWords

inductive Error where
  | io (context error : String)
  | corrupt (detail : String)
  | sequenceExhausted
  | ackAhead (ack last : ℕ)
  deriving DecidableEq, Repr

def Error.message : Error → String
  | .io context error => s!"node-journal: {context}: {error}"
  | .corrupt detail => s!"node-journal-corrupt: {detail}"
  | .sequenceExhausted => "node-journal: sequence exhausted"
  | .ackAhead ack last => s!"node-journal-ack-ahead: ack {ack} past last record {last}"

structure Journal where
  state : State
  last : ℕ
  deriving DecidableEq, Repr

section
variable {β σ : Type}

/-- Write one file durably: a pending file, synced, renamed, the directory synced. -/
def install (t : Target) (c : Content β) : Method (fileSystem β) σ Error Unit := do
  Method.perform (S := fileSystem β) (.create t) (.io "create")
  Method.perform (S := fileSystem β) (.write t c) (.io "write")
  Method.perform (S := fileSystem β) (.sync t) (.io "sync")
  Method.perform (S := fileSystem β) (.rename t) (.io "rename")
  Method.perform (S := fileSystem β) (.syncDir (some t)) (.io "sync directory")

def syncDir : Method (fileSystem β) σ Error Unit :=
  Method.perform (S := fileSystem β) (.syncDir none) (.io "sync directory")

/-- Delete a record file; a file that is not there counts as deleted. -/
def remove (seq : ℕ) : Method (fileSystem β) σ Error Unit := do
  let _ ← Method.perform (S := fileSystem β) (.remove (.installed (.record seq)))
      (.io "delete record")
  pure ()

def removeAll : List ℕ → Method (fileSystem β) σ Error Unit
  | [] => pure ()
  | seq :: rest => do
      remove seq
      removeAll rest

/-- One pass over the directory listing: pending files are discarded, the
sequences of the record files are collected. -/
def scanNames : List Name → Method (fileSystem β) σ Error (List ℕ)
  | [] => pure []
  | .pending t :: names => do
      let _ ← Method.perform (S := fileSystem β) (.remove (.pending t)) (.io "discard pending")
      scanNames names
  | .installed (.record seq) :: names => do
      if seq = 0 then throw (.corrupt "record name")
      let seqs ← scanNames names
      pure (seq :: seqs)
  | .installed .state :: names => scanNames names

/-- The sorted record files: those at or below the acknowledged sequence are
deleted, the others must run on from it. Returns the last one. -/
def adoptRecords (acked : ℕ) : ℕ → List ℕ → Method (fileSystem β) σ Error ℕ
  | last, [] => pure last
  | last, seq :: seqs => do
      if seq ≤ acked then
        remove seq
        adoptRecords acked last seqs
      else if some seq ≠ checkedAdd last 1 then throw (.corrupt "gap")
      else adoptRecords acked seq seqs

def openState : Method (fileSystem β) σ Error State := do
  let content ← Method.perform (S := fileSystem β) (.read .state) (.io "read state")
  match content with
  | some (.state s) => pure s
  | some _ => throw (.corrupt "state")
  | none => do
      let s : State := ⟨none, 0⟩
      install .state (.state s)
      pure s

def openJournal : Method (fileSystem β) σ Error Journal := do
  Method.perform (S := fileSystem β) .createDir (.io "create directory")
  let state ← openState
  let names ← Method.perform (S := fileSystem β) .list (.io "list")
  let seqs ← scanNames names
  let last ← adoptRecords state.acked state.acked (seqs.insertionSort (· ≤ ·))
  pure ⟨state, last⟩

/-- What the bytes of one record file are read as. -/
def decodeRecord (seq : ℕ) : Option (Content β) → Except Error (JournalRecord β)
  | none => .error (.io "read record" "not found")
  | some (.record r) => if r.seq ≠ seq then .error (.corrupt "record sequence") else .ok r
  | some _ => .error (.corrupt "record")

def readRecords : List ℕ → Method (fileSystem β) σ Error (List (JournalRecord β))
  | [] => pure []
  | seq :: seqs => do
      let content ← Method.perform (S := fileSystem β) (.read (.record seq)) (.io "read record")
      match decodeRecord seq content with
      | .error e => throw e
      | .ok r => do
          let rest ← readRecords seqs
          pure (r :: rest)

end

section
variable {β : Type}

/-- The deletions of a lease change, newest first: the counter follows each one. -/
def removeNewestFirst : List ℕ → Method (fileSystem β) Journal Error Unit
  | [] => pure ()
  | seq :: rest => do
      remove seq
      let j ← get
      set { j with last := seq - 1 }
      removeNewestFirst rest

/-- Adopt a lease. A different one starts a new sequence. Returns whether the
lease changed. -/
def useLease (leaseId : String) : Method (fileSystem β) Journal Error Bool := do
  let j ← get
  if j.state.leaseId = some leaseId then
    pure false
  else
    removeNewestFirst (inclusive (saturatingAdd j.state.acked 1) j.last).reverse
    syncDir
    let state : State := ⟨some leaseId, 0⟩
    install .state (.state state)
    set (⟨state, 0⟩ : Journal)
    pure true

def append (entry : JournalEntry β) : Method (fileSystem β) Journal Error (JournalRecord β) := do
  let j ← get
  match checkedAdd j.last 1 with
  | none => throw .sequenceExhausted
  | some seq =>
    let record : JournalRecord β := { entry with seq := seq }
    install (.record seq) (.record record)
    set { j with last := seq }
    pure record

/-- Record the acknowledgement of every record up to `seq` and delete them. -/
def acknowledge (seq : ℕ) : Method (fileSystem β) Journal Error Unit := do
  let j ← get
  if j.last < seq then
    throw (.ackAhead seq j.last)
  else if seq ≤ j.state.acked then
    pure ()
  else
    let state : State := { j.state with acked := seq }
    install .state (.state state)
    set { j with state := state }
    removeAll (inclusive (saturatingAdd j.state.acked 1) seq)
    syncDir

/-- Every record after `seq` and after the acknowledged sequence, in order. -/
def recordsAfter (seq : ℕ) : Method (fileSystem β) Journal Error (List (JournalRecord β)) := do
  let j ← get
  readRecords (inclusive (saturatingAdd (max seq j.state.acked) 1) j.last)

end

end Intentd.JournalOperations
