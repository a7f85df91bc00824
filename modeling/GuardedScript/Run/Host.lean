import GuardedScript.Run.Effect

/-!
Hosts: what stands behind the operations that commands ask for.
-/

namespace GuardedScript

inductive Delay where
  | none
  | span (ms : Nat)
  | forever
  deriving DecidableEq, Repr

/-- What a host answers: a result, the heap it leaves, whether the thread has returned, lines it
wrote, and how long it takes. -/
structure HostReply where
  result : Except CommandError (Option ObjectId)
  heap : Heap
  returned : Bool := false
  lines : List String := []
  delay : Delay := .none

/-- A host reaches the heap and the thread that asks, and can start no command of its own. -/
structure Host where
  perform : Operation → Frame → State → List (Option ObjectId) → HostReply

namespace Effect

/-- The state after a delay, if it ends before the deadline. -/
def delayed (deadline : Option Nat) (s : State) : Delay → Option State
  | .none => some s
  | .forever => none
  | .span ms =>
    if deadline.any (· < s.now + ms) then none else some { s with now := s.now + ms }

def perform (host : Host) (operation : Operation) (args : List (Option ObjectId)) :
    Effect (Option ObjectId) := fun frame s =>
  let r := host.perform operation frame s args
  let depth := frame.thread.context.depth
  let events := ⟨depth, .invoked operation⟩ :: r.lines.map fun text => ⟨depth, .line text⟩
  let s := { s with
    heap := r.heap
    pointer := if r.returned then s.pointer.markReturned else s.pointer }
  match delayed frame.thread.context.deadline s r.delay with
  | some s => ⟨.ofExcept r.result, s, events⟩
  | none => ⟨.waiting, s, events⟩

end Effect

end GuardedScript
