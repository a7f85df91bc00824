import GuardedScript.Memory.Path
import GuardedScript.Run.Host

/-!
Running commands, threads and calls.

Commands run by recursion on their tree, a thread by recursion on its command list, and a call by
recursion on the levels of calls still allowed, so every run ends.
-/

namespace GuardedScript

structure Call where
  script : Script
  context : Context
  inputs : List ObjectId
  grant : Capabilities
  held : List Holder

def Caller := Call → Moment → Reply ScriptError Moment (Option ObjectId)

namespace Effect

def entering {α : Type} (c : Command) (x : Effect α) : Effect α := do
  note (.entered c)
  x

/-- Calls a script one level deeper with the thread's own grant; without a caller no level is
left. -/
def call (caller : Option Caller) (script : Script) (inputs : List ObjectId) :
    Effect (Option ObjectId) := fun frame s =>
  let context := frame.thread.context
  match caller with
  | none =>
    ⟨.failed (.callDepthExceeded (context.depth + 1) context.config.maxCallDepth), s,
      [⟨context.depth, .tooDeep (context.depth + 1) context.config.maxCallDepth⟩]⟩
  | some run =>
    let r := run ⟨script, { context with depth := context.depth + 1 }, inputs, frame.thread.grant,
      frame.held⟩ s.toMoment
    ⟨r.outcome.mapError .ofCall, { s with toMoment := r.state }, r.events⟩

end Effect

namespace Thread

def view (t : Thread) (h : Heap) : View := h.view (.stack t.stack)

def setValue (t : Thread) (h : Heap) (path : String) (value : ObjectId) :
    Except CommandError Heap :=
  match h.setPath (t.view h) path value with
  | .error e => .error (.memory e)
  | .ok (true, h) => .ok h
  | .ok (false, _) => .error (.setRejected path)

def addLocal (t : Thread) (h : Heap) (key : String) (type : TypeRef) : Except CommandError Heap :=
  if key = returnKey then .error (.reservedKey key)
  else
    let (h, item) := h.newItem ⟨key, type, { isScoped := true }⟩
    match h.addTo (t.view h) item with
    | .error e => .error (.memory e)
    | .ok (true, h) => .ok h
    | .ok (false, _) => .error (.memory (.duplicateKey key))

end Thread

def getValue (path : String) : Effect (Option ObjectId) :=
  .ask fun frame h => (h.readPath (frame.thread.view h) path).mapError .memory

def getValueOf (target : ObjectId) (path : String) : Effect (Option ObjectId) :=
  .ask fun _ h => (h.readPath (h.outside target) path).mapError .memory

def setValue (path : String) (value : ObjectId) : Effect Unit :=
  .change (fun t h => t.setValue h path value) [.stored path value]

def addLocal (key : String) (type : TypeRef) : Effect Unit :=
  .change (fun t h => t.addLocal h key type) []

def throwValue (value : Option ObjectId) : Effect (Option ObjectId) := do
  .note (.threw value)
  .ask fun frame _ => .error (.thrown frame.thread.name value)

mutual

/-- Runs a command. Capabilities are not checked here but by the thread, before the command
starts. -/
def exec (host : Host) (caller : Option Caller) : Command → Effect (Option ObjectId)
  | c@(.this _) => .entering c (.ask fun frame _ => .ok (some frame.me))
  | c@(.value _ object) => .entering c (.pure (some object))
  | c@(.get _ path) => .entering c (getValue path)
  | c@(.getOf _ target path) => .entering c do
    let object ← .require "GET_OF target" (← exec host caller target)
    getValueOf object path
  | c@(.set _ path operand) => .entering c do
    let object ← .require "SET value" (← exec host caller operand)
    setValue path object
    return none
  | c@(.add _ key type) => .entering c do
    addLocal key type
    return none
  | c@(.ret _ operand) => .entering c do
    .giveBack (← execOption host caller operand)
    return none
  | c@(.script _ target inputs) => .entering c do
    let carrier ← .require "SCRIPT target" (← exec host caller target)
    let script ← .ask fun _ h => Script.boundTo h carrier
    .holding [.object carrier, .commands script.commands] do
      let values ← .gather (execEach host caller inputs)
      let objects ← .requireAll (fun i => "SCRIPT input " ++ toString i) 0 values
      .call caller script objects
  | c@(.attempt _ body handler) =>
    .entering c (.attempt (exec host caller body) (exec host caller handler))
  | c@(.throw _ operand) => .entering c do throwValue (← execOption host caller operand)
  | c@(.native _ operation args) => .entering c do
    let values ← .gather (execEach host caller args)
    .perform host operation values

def execOption (host : Host) (caller : Option Caller) : Option Command → Effect (Option ObjectId)
  | none => .pure none
  | some c => exec host caller c

def execEach (host : Host) (caller : Option Caller) : List Command → List (Effect (Option ObjectId))
  | [] => []
  | c :: rest => exec host caller c :: execEach host caller rest

end

/-- Runs the commands that are left until the pointer stops. A command that the grant does not cover
faults the thread before it starts. -/
def runCommands (host : Host) (caller : Option Caller) : List Command → Effect Unit
  | [] => .pure ()
  | c :: rest => fun frame s =>
    if s.pointer.isStopped then ⟨.done (), s, []⟩
    else
      match frame.thread.grant.check c.required frame.thread.name with
      | .error e =>
        ⟨.failed (.capability e), { s with pointer := s.pointer.fault },
          [⟨frame.thread.context.depth, .denied (frame.thread.grant.missing c.required)⟩]⟩
      | .ok () =>
        let r := exec host caller c frame s
        match r.outcome with
        | .failed e => ⟨.failed e, { r.state with pointer := r.state.pointer.fault }, r.events⟩
        | .waiting => ⟨.waiting, r.state, r.events⟩
        | .done _ =>
          let q := runCommands host caller rest frame
            { r.state with pointer := r.state.pointer.advance }
          ⟨q.outcome, q.state, r.events ++ q.events⟩

def Thread.holders (t : Thread) : List Holder :=
  [.group (.stack t.stack), .commands t.commands] ++ t.context.ambient.toList.map .group
    ++ t.scratch.toList.map fun g => .group (.plain g)

/-- The declared return type binds a value that is there. -/
def checkReturn (h : Heap) (s : Script) (result : Option ObjectId) :
    Outcome ScriptError (Option ObjectId) :=
  match s.returns, result with
  | some t, some v =>
    if h.isA v t then .done (some v)
    else
      .failed (.returnType s.name
        (((h.object? v).map fun x => (h.registry x.registry).nameOf t).getD "") (h.typeDisplay v))
  | _, _ => .done result

/-- What the end of a thread's run means for the call. -/
def Thread.conclude (t : Thread) (script : Script) (s : State) :
    Outcome CommandError Unit → Outcome ScriptError (Option ObjectId)
  | .waiting => .waiting
  | .failed e => .failed (.ofRun t.name e)
  | .done () =>
    checkReturn s.heap script
      (if s.pointer.status = .returned then t.returnValue s.heap else none)

def runThread (host : Host) (caller : Option Caller) (call : Call) (thread : Thread) (m : Moment) :
    Reply ScriptError Moment (Option ObjectId) :=
  let frame : Frame := ⟨call.script.parent, thread,
    .object call.script.parent :: (thread.holders ++ call.held)⟩
  let r := runCommands host caller thread.commands frame
    { m with pointer := .start thread.commands.length }
  ⟨thread.conclude call.script r.state r.outcome, r.state.toMoment, r.events⟩

def Call.thread (call : Call) (stack : StackId) : Thread :=
  { name := call.script.threadName, grant := call.grant, commands := call.script.commands,
    context := call.context, stack := stack }

/-- Makes one call: the parent has to be alive, the inputs to fit and the stack to be sound. -/
def callScript (host : Host) (caller : Option Caller) (call : Call) (m : Moment) :
    Reply ScriptError Moment (Option ObjectId) :=
  let script := call.script
  if !m.heap.isLiving (call.inputs.map .object ++ call.held) script.parent then
    ⟨.failed (.detached script.name), m, []⟩
  else
    match script.inputMemory m.heap call.inputs with
    | .error e => ⟨.failed (.input e), m, []⟩
    | .ok (h, inputs) =>
      let (h, stack) := h.newStack
      let thread := call.thread stack
      let started : Entry := ⟨call.context.depth, .started call.grant⟩
      match thread.buildStack h script.parent (.plain inputs) with
      | (.error e, h) => ⟨.failed (.memory thread.name e), { m with heap := h }, [started]⟩
      | (.ok thread, h) =>
        let r := runThread host caller call thread { m with heap := h }
        { r with events := started :: r.events }

/-- Calls in a context below which so many levels of calls are allowed. -/
def callAt (host : Host) : Nat → Call → Moment → Reply ScriptError Moment (Option ObjectId)
  | 0, call, m => callScript host none call m
  | levels + 1, call, m => callScript host (some (callAt host levels)) call m

def Context.caller (host : Host) (c : Context) : Option Caller :=
  match c.levels with
  | 0 => none
  | levels + 1 => some (callAt host levels)

def Script.callIn (host : Host) (call : Call) (m : Moment) :
    Reply ScriptError Moment (Option ObjectId) :=
  callAt host call.context.levels call m

end GuardedScript
