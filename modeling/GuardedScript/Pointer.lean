/-!
Command pointers: the place of a thread in its command list and how it stands.
-/

namespace GuardedScript

inductive Status where
  | running
  | completed
  | returned
  | faulted
  deriving DecidableEq, Repr

def Status.name : Status → String
  | .running => "Running"
  | .completed => "Completed"
  | .returned => "Returned"
  | .faulted => "Faulted"

structure Pointer where
  index : Nat
  count : Nat
  status : Status
  deriving DecidableEq, Repr

namespace Pointer

def start (count : Nat) : Pointer := ⟨0, count, if count = 0 then .completed else .running⟩

def isStopped (p : Pointer) : Bool := p.status ≠ .running

/-- Moves to the next command; past the last one the run is complete. -/
def advance (p : Pointer) : Pointer :=
  if p.isStopped then p
  else { p with
    index := p.index + 1
    status := if p.count ≤ p.index + 1 then .completed else .running }

/-- A stopped pointer keeps its status. -/
def stop (p : Pointer) (status : Status) : Pointer :=
  if p.isStopped then p else { p with status := status }

def markReturned (p : Pointer) : Pointer := p.stop .returned

def fault (p : Pointer) : Pointer := p.stop .faulted

def describe (p : Pointer) : String :=
  "CommandPointer \x7b index: " ++ toString p.index ++ ", count: " ++ toString p.count
    ++ ", status: " ++ p.status.name ++ " \x7d"

end Pointer

end GuardedScript
