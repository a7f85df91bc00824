import GuardedScript.Memory.Living
import GuardedScript.Script.Thread

/-!
Effects: what a command does when it runs on a thread. An effect always leaves a state behind and
tells the events that happened on the way, in order, whether it is done, failed or still waiting.
-/

namespace GuardedScript

/-- What can happen while commands run. A failure is dropped when that of another input or an
endless wait hides it. -/
inductive Event where
  | started (grant : Capabilities)
  | entered (command : Command)
  | denied (missing : List Capability)
  | invoked (operation : Operation)
  | handling (error : CommandError)
  | returned (value : Option ObjectId)
  | stored (path : String) (value : ObjectId)
  | threw (value : Option ObjectId)
  | tooDeep (depth max : Nat)
  | inputsFailed
  | dropped (error : CommandError)
  | line (text : String)

/-- An event with the call depth of the thread on which it happened. -/
structure Entry where
  depth : Nat
  event : Event

def Entry.line? (e : Entry) : Option String :=
  match e.event with
  | .line text => some text
  | _ => none

/-- How an effect ends. It waits if it goes on after the deadline, or forever. -/
inductive Outcome (ε α : Type) where
  | done (value : α)
  | failed (error : ε)
  | waiting

namespace Outcome

variable {ε ε' α β γ : Type}

def map (f : α → β) : Outcome ε α → Outcome ε β
  | .done a => .done (f a)
  | .failed e => .failed e
  | .waiting => .waiting

def mapError (f : ε → ε') : Outcome ε α → Outcome ε' α
  | .done a => .done a
  | .failed e => .failed (f e)
  | .waiting => .waiting

def ofExcept : Except ε α → Outcome ε α
  | .ok a => .done a
  | .error e => .failed e

/-- Both values, or the first failure in order; as long as one waits, both wait. -/
def both (f : α → β → γ) : Outcome ε α → Outcome ε β → Outcome ε γ
  | .done a, .done b => .done (f a b)
  | .done _, .failed e => .failed e
  | .failed e, .done _ | .failed e, .failed _ => .failed e
  | .waiting, _ | _, .waiting => .waiting

/-- The failure that is not reported when two outcomes are taken together. -/
def hidden : Outcome ε α → Outcome ε β → Option ε
  | .failed _, .failed e | .waiting, .failed e | .failed e, .waiting => some e
  | _, _ => none

end Outcome

structure Reply (ε σ α : Type) where
  outcome : Outcome ε α
  state : σ
  events : List Entry

/-- The heap at a moment of virtual time. -/
structure Moment where
  heap : Heap
  now : Nat

structure State extends Moment where
  pointer : Pointer

/-- What stays the same while a thread runs on an object; `held` is what keeps objects alive. -/
structure Frame where
  me : ObjectId
  thread : Thread
  held : List Holder

def Effect (α : Type) := Frame → State → Reply CommandError State α

namespace Effect

variable {α β : Type}

def pure (a : α) : Effect α := fun _ s => ⟨.done a, s, []⟩

def bind (x : Effect α) (f : α → Effect β) : Effect β := fun frame s =>
  let r := x frame s
  match r.outcome with
  | .done a =>
    let q := f a frame r.state
    ⟨q.outcome, q.state, r.events ++ q.events⟩
  | .failed e => ⟨.failed e, r.state, r.events⟩
  | .waiting => ⟨.waiting, r.state, r.events⟩

instance : Monad Effect where
  pure := pure
  bind := bind

def note (e : Event) : Effect Unit := fun frame s =>
  ⟨.done (), s, [⟨frame.thread.context.depth, e⟩]⟩

def fail (e : CommandError) : Effect α := fun _ s => ⟨.failed e, s, []⟩

def ask (f : Frame → Heap → Except CommandError α) : Effect α := fun frame s =>
  ⟨.ofExcept (f frame s.heap), s, []⟩

def change (f : Thread → Heap → Except CommandError Heap) (told : List Event) : Effect Unit :=
  fun frame s =>
  match f frame.thread s.heap with
  | .ok h => ⟨.done (), { s with heap := h }, told.map fun e => ⟨frame.thread.context.depth, e⟩⟩
  | .error e => ⟨.failed e, s, []⟩

def holding (held : List Holder) (x : Effect α) : Effect α := fun frame s =>
  x { frame with held := held ++ frame.held } s

def require (context : String) : Option α → Effect α
  | some a => pure a
  | none => fail (.absentValue context)

def requireAll (context : Nat → String) : Nat → List (Option α) → Effect (List α)
  | _, [] => pure []
  | i, v :: rest => do
    let a ← require (context i) v
    let as ← requireAll context (i + 1) rest
    return a :: as

/-- Runs a body; a failure that can be caught goes to the handler. Neither yields a value. -/
def attempt (body handler : Effect (Option ObjectId)) : Effect (Option ObjectId) := fun frame s =>
  let r := body frame s
  match r.outcome with
  | .done _ => ⟨.done none, r.state, r.events⟩
  | .waiting => ⟨.waiting, r.state, r.events⟩
  | .failed e =>
    if e.isCatchable then
      let q := holding (e.cause.toList.map .object) handler frame r.state
      ⟨q.outcome.map fun _ => none, q.state,
        r.events ++ ⟨frame.thread.context.depth, .handling e⟩ :: q.events⟩
    else ⟨.failed e, r.state, r.events⟩

/-- What an ended effect keeps alive until its neighbours end. -/
def leftovers : Outcome CommandError (Option ObjectId) → List Holder
  | .done v => v.toList.map .object
  | .failed e => e.cause.toList.map .object
  | .waiting => []

def inSequence : List (Effect (Option ObjectId)) → Effect (List (Option ObjectId))
  | [] => pure []
  | x :: rest => do
    let v ← x
    let vs ← holding (v.toList.map .object) (inSequence rest)
    return v :: vs

/-- All of them in order, whatever comes of the ones before. The delays of one input count for the
clock only: it runs on to its end, or to where it waits, before the next one starts. All start at
the same time, and the last to end sets the time. -/
def inParallelFrom (start : Nat) :
    List (Effect (Option ObjectId)) → Effect (List (Option ObjectId))
  | [] => pure []
  | x :: rest => fun frame s =>
    let r := x frame { s with now := start }
    let q := inParallelFrom start rest { frame with held := leftovers r.outcome ++ frame.held }
      { r.state with now := max s.now r.state.now }
    ⟨r.outcome.both List.cons q.outcome, q.state, r.events ++ q.events ++
      (r.outcome.hidden q.outcome).toList.map fun e => ⟨frame.thread.context.depth, .dropped e⟩⟩

def inParallel (xs : List (Effect (Option ObjectId))) : Effect (List (Option ObjectId)) :=
  fun frame s => inParallelFrom s.now xs frame s

def evaluateAll (xs : List (Effect (Option ObjectId))) : Effect (List (Option ObjectId)) :=
  fun frame s =>
  if frame.thread.context.config.parallelInputs then inParallel xs frame s
  else inSequence xs frame s

def gather (xs : List (Effect (Option ObjectId))) : Effect (List (Option ObjectId)) :=
  fun frame s =>
  let r := evaluateAll xs frame s
  match r.outcome with
  | .failed _ => { r with events := r.events ++ [⟨frame.thread.context.depth, .inputsFailed⟩] }
  | _ => r

def giveBack (value : Option ObjectId) : Effect Unit := fun frame s =>
  match frame.thread.setReturn s.heap value with
  | .error e => ⟨.failed e, s, []⟩
  | .ok h =>
    ⟨.done (), { s with heap := h, pointer := s.pointer.markReturned },
      [⟨frame.thread.context.depth, .returned value⟩]⟩

end Effect

end GuardedScript
