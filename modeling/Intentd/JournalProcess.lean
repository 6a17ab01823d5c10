import Intentd.JournalRules
import Intentd.LabelledRuns

/-!
# The process that owns a journal directory

A process opens the journal and calls its operations one after the other. It
may die inside any of them; what is on disk then stays as it is, and a later
process opens the directory again. A command that returns leaves the process
running, also when it returns an error: the caller carries on.
-/
namespace Intentd.JournalProcess
open InterruptiblePrograms JournalDirectory JournalOperations

inductive Operation (β : Type) where
  | useLease (leaseId : String)
  | append (entry : JournalEntry β)
  | acknowledge (seq : ℕ)

variable {β : Type}

/-- An operation as the process calls it; the value it returns is not used. -/
def Operation.method : Operation β → Method (fileSystem β) Journal Error Unit
  | .useLease leaseId => do
      let _ ← JournalOperations.useLease leaseId
      pure ()
  | .append entry => do
      let _ ← JournalOperations.append entry
      pure ()
  | .acknowledge seq => JournalOperations.acknowledge seq

inductive Command (β : Type) where
  | reopen
  | call (op : Operation β)

inductive Ending where
  | completed
  | died

structure Machine (β : Type) where
  directory : Directory β
  journal : Option Journal

/-- A machine that never ran: no file, no process. -/
def Machine.new : Machine β := ⟨∅, none⟩

/-- One command, run to its end or to the death of the process. `faults` says
which filesystem calls may fail during a command. -/
inductive Step (faults : Command β → Call β → Prop) :
    Machine β → Command β × Ending → Machine β → Prop
  | opened {d d' : Directory β} {h : Option Journal} {r : Except Error Journal} :
      Program.Exec (S := fileSystem β) (faults .reopen) (openJournal.on ()) d
        (.returned (r, ())) d' → Step faults ⟨d, h⟩ (.reopen, .completed) ⟨d', r.toOption⟩
  | openDied {d d' : Directory β} {h : Option Journal} :
      Program.Exec (S := fileSystem β) (faults .reopen) (openJournal.on ()) d .died d' →
      Step faults ⟨d, h⟩ (.reopen, .died) ⟨d', none⟩
  | called {d d' : Directory β} {j j' : Journal} {op : Operation β} {r : Except Error Unit} :
      Program.Exec (S := fileSystem β) (faults (.call op)) (op.method.on j) d
        (.returned (r, j')) d' → Step faults ⟨d, some j⟩ (.call op, .completed) ⟨d', some j'⟩
  | callDied {d d' : Directory β} {j : Journal} {op : Operation β} :
      Program.Exec (S := fileSystem β) (faults (.call op)) (op.method.on j) d .died d' →
      Step faults ⟨d, some j⟩ (.call op, .died) ⟨d', none⟩

section Runs
variable {faults : Command β → Call β → Prop} (d : Directory β)

theorem reopen_step (h : Option Journal) : Step faults ⟨d, h⟩ (.reopen, .completed)
      ⟨((openJournal.on ()).run d).2, ((openJournal.on ()).run d).1.1.toOption⟩ :=
  .opened (Program.run_exec _ _)

theorem call_step (j : Journal) (op : Operation β) : Step faults ⟨d, some j⟩ (.call op, .completed)
      ⟨((op.method.on j).run d).2, some ((op.method.on j).run d).1.2⟩ :=
  .called (Program.run_exec _ _)

end Runs

end Intentd.JournalProcess
