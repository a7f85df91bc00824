import GuardedScript.Memory.Path
import GuardedScript.Run.Host

/-!
The operations of the standard host: arithmetic and texts, a look at the running thread, changes
to its stack, refusals and delays.
-/

namespace GuardedScript.Operations

abbrev Value := Option ObjectId

/-- Integers are signed words of 64 bits. -/
def inRange (n : Int) : Bool := Int64.minValue.toInt ≤ n && n ≤ Int64.maxValue.toInt

def refuse (operation : Operation) (message : String) : CommandError :=
  .native operation.name message

/-- A new object of a named type, carrying a host value. -/
def make (operation : Operation) (h : Heap) (me : ObjectId) (typeName : String) (v : HostValue) :
    Except CommandError (Heap × ObjectId) :=
  let r := ((h.object? me).map Object.registry).getD ⟨0⟩
  match (h.registry r).resolve typeName with
  | .error e => .error (refuse operation e.message)
  | .ok t =>
    match h.newObject r t with
    | .error e => .error (refuse operation e.message)
    | .ok (h, o) =>
      match h.setBound o v with
      | .error e => .error (.binding e)
      | .ok h => .ok (h, o)

def answer (operation : Operation) (h : Heap) (me : ObjectId) (typeName : String) (v : HostValue) :
    HostReply :=
  match make operation h me typeName v with
  | .ok (h, o) => { result := .ok (some o), heap := h }
  | .error e => { result := .error e, heap := h }

def answerInt (operation : Operation) (h : Heap) (me : ObjectId) (n : Int) : HostReply :=
  answer operation h me "Core.Int" (.integer n)

def answerText (operation : Operation) (h : Heap) (me : ObjectId) (s : String) : HostReply :=
  answer operation h me "Core.String" (.text s)

def answerFlag (operation : Operation) (h : Heap) (me : ObjectId) (b : Bool) : HostReply :=
  answerInt operation h me (if b then 1 else 0)

/-- The host value of an operand, which has to be there and set. -/
def operand (operation : Operation) (h : Heap) (type : HostType) :
    Value → Except CommandError HostValue
  | none => .error (refuse operation "missing operand")
  | some o =>
    match h.getBound o type with
    | .error e => .error (.binding e)
    | .ok none => .error (refuse operation "unset operand")
    | .ok (some v) => .ok v

def total (operation : Operation) (h : Heap) : Int → List Value → Except CommandError Int
  | n, [] => .ok n
  | n, a :: rest =>
    match operand operation h .integer a with
    | .error e => .error e
    | .ok v =>
      let sum := match v with
        | .integer m => n + m
        | _ => n
      if inRange sum then total operation h sum rest else .error (refuse operation "overflow")

def joined (operation : Operation) (h : Heap) : String → List Value → Except CommandError String
  | s, [] => .ok s
  | s, a :: rest =>
    match operand operation h .text a with
    | .error e => .error e
    | .ok v =>
      joined operation h (match v with
        | .text t => s ++ t
        | _ => s) rest

def traceText (h : Heap) : Value → String
  | none => "none"
  | some o =>
    match (h.object? o).bind Object.bound with
    | some (.integer n) => toString n
    | some (.text s) => s
    | some (.truth b) => if b then "true" else "false"
    | _ => h.typeDisplay o

def denial (operation : Operation) : CommandError :=
  .capability (.denied "host" [.named operation.text])

/-- Sets the item at the operation's path; a value that does not fit is passed over. -/
def storeValue (operation : Operation) (stack : View) (h : Heap) (o : ObjectId) : HostReply :=
  match h.setPath stack operation.text o with
  | .ok (_, h) => { result := .ok (some o), heap := h }
  | .error e => { result := .error (.memory e), heap := h }

def plantValue (operation : Operation) (me : ObjectId) (stack : View) (h : Heap) (o : ObjectId) :
    HostReply :=
  let type := ((h.object? o).map Object.type).getD ⟨0⟩
  let (h, item) := h.newItem ⟨operation.text, type, {}⟩
  let h := (h.store item o).getD h
  match h.addTo stack item with
  | .ok (b, h) => answerFlag operation h me b
  | .error e => { result := .error (.memory e), heap := h }

def returnFrom (thread : Thread) (h : Heap) (v : Value) : HostReply :=
  match thread.setReturn h v with
  | .ok h => { result := .ok none, heap := h, returned := true }
  | .error e => { result := .error e, heap := h }

def perform (operation : Operation) (frame : Frame) (s : State) (args : List Value) : HostReply :=
  let h := s.heap
  let me := frame.me
  let thread := frame.thread
  let stack := h.view (.stack thread.stack)
  let first : Value := args.headD none
  let fail (message : String) : HostReply :=
    { result := .error (refuse operation message), heap := h }
  match operation.name with
  | "sum" =>
    match total operation h 0 args with
    | .ok n => answerInt operation h me n
    | .error e => { result := .error e, heap := h }
  | "concat" =>
    match joined operation h "" args with
    | .ok t => answerText operation h me t
    | .error e => { result := .error e, heap := h }
  | "echo" => { result := .ok first, heap := h }
  | "ping" => { result := .ok none, heap := h }
  | "fail" => fail operation.text
  | "store" =>
    match first with
    | none => fail "missing first operand"
    | some o => storeValue operation stack h o
  | "trace" =>
    { result := .ok (args.getLastD none), heap := h,
      lines := [operation.text ++ String.intercalate "," (args.map (traceText h))] }
  | "keys" =>
    answerText operation h me (String.intercalate "," (Text.sorted (stack.keyNames h)))
  | "layers" => answerInt operation h me (h.layers thread.stack).length
  | "depth" => answerInt operation h me thread.context.depth
  | "name" => answerText operation h me thread.name
  | "status" => answerText operation h me s.pointer.status.name
  | "grant" => answerText operation h me thread.grant.display
  | "set_return" => returnFrom thread h first
  | "return_value" => { result := .ok (thread.returnValue h), heap := h }
  | "push" =>
    match first with
    | none => fail "missing layer"
    | some o =>
      let (b, h) := h.push thread.stack (.object o)
      answerFlag operation h me b
  | "pop" =>
    let (layer, h) := h.pop thread.stack
    answerFlag operation h me layer.isSome
  | "plant" =>
    match first with
    | none => fail "missing first operand"
    | some o => plantValue operation me stack h o
  | "deny" => { result := .error (denial operation), heap := h }
  | "deny_nested" =>
    { result := .error (.ofCall (.faulted "inner" (denial operation))), heap := h }
  | "sleep" => { result := .ok first, heap := h, delay := .span operation.delay }
  | "stall" => { result := .ok none, heap := h, delay := .forever }
  | other => fail ("no operation " ++ other)

end GuardedScript.Operations

namespace GuardedScript

def Host.standard : Host := ⟨Operations.perform⟩

end GuardedScript
