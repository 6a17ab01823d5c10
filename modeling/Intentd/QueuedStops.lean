import Mathlib.Data.Finset.Insert

/-!
# What head keeps about the stops of one agent

Head keeps at most one unacknowledged stop per agent, and which final stops it settled
or keeps in their grace. Each function below is one critical section on the entries of a
single agent. Where the exit record of a stopped process is matters to a relaunch only,
and is left out.
-/
namespace Intentd.QueuedStops

structure QueuedStop where
  stopId : ℕ
  finalStop : Bool
  durable : Bool
  deriving DecidableEq, Repr

def QueuedStop.plain (stopId : ℕ) : QueuedStop := ⟨stopId, false, false⟩

structure Shared where
  stops : Option QueuedStop
  settledFinals : Finset ℕ
  inGrace : Finset ℕ
  deriving DecidableEq

namespace Shared

def initial : Shared := ⟨none, ∅, ∅⟩

variable (s : Shared)

def queuedId : Option ℕ := s.stops.map QueuedStop.stopId

/-- Queue a plain stop, under `newId` if none is queued. Returns the id of the queued stop. -/
def queueStop (newId : ℕ) : ℕ × Shared :=
  let queued := s.stops.getD (.plain newId)
  (queued.stopId, { s with stops := some queued })

variable (stopId : ℕ)

/-- Queue a final stop in place of any other. With `unlessSettled` a stop settled
already is not queued again. Returns whether it was queued. -/
def queueFinalStopUnless (durable unlessSettled : Bool) : Bool × Shared :=
  if unlessSettled ∧ stopId ∈ s.settledFinals then (false, s)
  else (true, { s with stops := some ⟨stopId, true, durable⟩ })

def queueFinalStop (durable : Bool) : Shared :=
  (s.queueFinalStopUnless stopId durable false).2

/-- An acknowledged stop leaves the queue; it never confirms another stop. -/
def confirmStop : Shared :=
  if s.queuedId = some stopId then { s with stops := none } else s

/-- Claim the settling of a final stop: true for the first caller only. With
`dequeue` it leaves the queue, with `grace` it enters its grace, in the same step. -/
def claimFinalSettleWith (dequeue grace : Bool) : Bool × Shared :=
  if stopId ∈ s.settledFinals then (false, s)
  else
    (true, { s with
      settledFinals := insert stopId s.settledFinals
      inGrace := if grace then insert stopId s.inGrace else s.inGrace
      stops := if dequeue ∧ s.queuedId = some stopId then none else s.stops })

def claimFinalSettle (dequeue : Bool) : Bool × Shared :=
  s.claimFinalSettleWith stopId dequeue false

end Shared

end Intentd.QueuedStops
