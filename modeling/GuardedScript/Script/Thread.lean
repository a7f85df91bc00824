import GuardedScript.Config.Basic
import GuardedScript.Memory.Stack
import GuardedScript.Pointer
import GuardedScript.Script.Error

/-!
Threads: one run of a command list, with its grant, its context and its stack.
-/

namespace GuardedScript

/-- What a call hands down to the calls it makes: the ambient memory lies at the bottom of every
stack, and at the deadline the invocation is given up. -/
structure Context where
  ambient : Option Group := none
  config : Config := {}
  depth : Nat := 0
  deadline : Option Nat := none

namespace Context

def child (c : Context) : Except CommandError Context :=
  if c.depth + 1 > c.config.maxCallDepth then
    .error (.callDepthExceeded (c.depth + 1) c.config.maxCallDepth)
  else .ok { c with depth := c.depth + 1 }

def descend (c : Context) : Nat → Except CommandError Context
  | 0 => .ok c
  | n + 1 => (c.child).bind fun c => c.descend n

def levels (c : Context) : Nat := c.config.maxCallDepth - c.depth

end Context

/-- What stays the same while a thread runs. The scratch layer, for locals and the returned value,
is there once the stack is built. -/
structure Thread where
  name : String
  grant : Capabilities
  commands : List Command
  context : Context
  stack : StackId
  scratch : Option GroupId := none

namespace Thread

/-- Lays one layer on the stack; it may not hold the key of the returned value. -/
def layDown (h : Heap) (s : StackId) (layer : Group) : Except MemoryError Heap :=
  if (h.view layer).contains h returnKey then .error (.reservedKey returnKey)
  else h.pushChecked s layer

/-- Lays layers until one is refused; those before it stay. -/
def layAll (h : Heap) (s : StackId) : List Group → Except MemoryError Unit × Heap
  | [] => (.ok (), h)
  | g :: rest =>
    match layDown h s g with
    | .error e => (.error e, h)
    | .ok h => layAll h s rest

/-- Lays out the stack: ambient memory, the object's memory, the inputs, and an empty scratch
layer. -/
def buildStack (t : Thread) (h : Heap) (me : ObjectId) (inputs : Group) :
    Except MemoryError Thread × Heap :=
  match layAll h t.stack (t.context.ambient.toList ++ [h.memory me, inputs]) with
  | (.error e, h) => (.error e, h)
  | (.ok (), h) =>
    let (h, g) := h.pushEmpty t.stack
    (.ok { t with scratch := some g }, h)

/-- Puts a value into the return slot of the scratch layer. An absent value leaves no slot. -/
def setReturn (t : Thread) (h : Heap) : Option ObjectId → Except CommandError Heap
  | none => .ok h
  | some v =>
    match t.scratch with
    | none => .error (.memory .readOnlyGroup)
    | some scratch =>
      let type := ((h.object? v).map Object.type).getD ⟨0⟩
      let (h, item) := h.newItem ⟨returnKey, type, {}⟩
      match h.store item v with
      | none => .error (.setRejected returnKey)
      | some h =>
        match h.addTo (.plain scratch) item with
        | .error e => .error (.memory e)
        | .ok (false, _) => .error (.memory (.duplicateKey returnKey))
        | .ok (true, h) => .ok h

def returnValue (t : Thread) (h : Heap) : Option ObjectId :=
  (t.scratch.bind fun g => h.find g returnKey).bind fun i => h.value? i.id

def describe (t : Thread) (p : Pointer) : String :=
  "Thread \x7b name: " ++ Text.quoted t.name ++ ", capabilities: " ++ Text.quoted t.grant.display
    ++ ", pointer: " ++ p.describe ++ ", depth: " ++ toString t.context.depth ++ " \x7d"

end Thread

namespace Script

def inputProperty (i : ScriptInput) : Property := ⟨i.key, i.type, { isScoped := true }⟩

def fillInputs (s : Script) (h : Heap) :
    List (ScriptInput × ObjectId) → Except InputError (Heap × List Item)
  | [] => .ok (h, [])
  | (i, v) :: rest =>
    let (h, item) := h.newItem (inputProperty i)
    match h.store item v with
    | none =>
      .error (.typeMismatch s.name i.key
        (((h.object? v).map fun x => (h.registry x.registry).nameOf i.type).getD "")
        (h.typeDisplay v))
    | some h =>
      match s.fillInputs h rest with
      | .error e => .error e
      | .ok (h, items) => .ok (h, item :: items)

/-- The group of a call's inputs, one item per declared key. -/
def inputMemory (s : Script) (h : Heap) (inputs : List ObjectId) :
    Except InputError (Heap × GroupId) :=
  if s.inputs.any (·.key = returnKey) then .error (.reservedKey s.name returnKey)
  else if inputs.length ≠ s.inputs.length then
    .error (.arity s.name s.inputs.length inputs.length)
  else
    match s.fillInputs h (s.inputs.zip inputs) with
    | .error e => .error e
    | .ok (h, items) => .ok (h.newGroup false items)

def boundTo (h : Heap) (carrier : ObjectId) : Except CommandError Script :=
  match h.object? carrier with
  | none => .error (.absentValue "SCRIPT target")
  | some x =>
    match x.getBound .script with
    | .ok (some (.script s)) => .ok s
    | .ok _ => .error (.notCallable x.typeName)
    | .error (.notBindable _) => .error (.notCallable x.typeName)
    | .error e => .error (.binding e)

end Script

end GuardedScript
