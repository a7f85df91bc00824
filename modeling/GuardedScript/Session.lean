import GuardedScript.Engine
import GuardedScript.Host.Operations
import GuardedScript.Registry.Define

/-!
Sessions: a heap with the registry being worked on, at most one engine, and named objects, items,
groups and threads, which keep what they name alive.
-/

namespace GuardedScript

/-- A thread between runs. -/
structure LiveThread where
  thread : Thread
  pointer : Pointer

structure Session where
  heap : Heap
  current : RegistryId
  engine : Option Engine
  objects : Assoc String ObjectId
  items : Assoc String Item
  groups : Assoc String Group
  threads : Assoc String LiveThread

namespace Session

def start : Session :=
  let (h, r) := Heap.empty.newRegistry
  ⟨h, r, none, {}, {}, {}, {}⟩

def registry (s : Session) : Registry := s.heap.registry s.current

def renew (s : Session) : Session :=
  let (h, r) := s.heap.newRegistry
  { s with heap := h, current := r }

def define (s : Session) (f : Registry → Except TypeError (Registry × TypeRef)) :
    Except Error (Session × TypeRef) :=
  match f s.registry with
  | .error e => .error (.type e)
  | .ok (r, t) =>
    .ok ({ s with heap := { s.heap with
      registries := s.heap.registries.modify s.current.index fun _ => r } }, t)

def freeze (s : Session) (config : Config) (ambient : Option Group) : Session :=
  { s with engine := some ⟨s.current, config, ambient, {}⟩ }

/-- Takes a name out of use; false if nothing had it. -/
def drop (s : Session) (name : String) : Session × Bool :=
  ({ s with objects := s.objects.erase name, items := s.items.erase name,
            groups := s.groups.erase name, threads := s.threads.erase name },
    s.objects.contains name || s.items.contains name || s.groups.contains name
      || s.threads.contains name)

def namesOf (s : Session) (o : ObjectId) : List String :=
  Text.sorted (s.objects.entries.filterMap fun (name, p) => if p = o then some name else none)

def engineHolders (e : Engine) : List Holder :=
  .registry e.registry :: (e.ambient.toList.map .group ++ e.scripts.values.map .object)

def holders (s : Session) : List Holder :=
  .registry s.current :: (s.engine.toList.flatMap engineHolders
    ++ s.objects.values.map .object
    ++ s.items.values.map (fun i => .item i.id)
    ++ s.groups.values.map .group
    ++ s.threads.values.flatMap fun t => t.thread.holders)

def isLiving (s : Session) (o : ObjectId) : Bool := s.heap.isLiving s.holders o

def newThread (s : Session) (name : String) (grant : Capabilities) (commands : List Command)
    (context : Context) : Session × LiveThread :=
  let (h, stack) := s.heap.newStack
  ({ s with heap := h },
    { thread :=
        { name := name, grant := grant, commands := commands, context := context, stack := stack }
      pointer := .start commands.length })

def frame (s : Session) (t : LiveThread) (me : ObjectId) : Frame :=
  ⟨me, t.thread, .object me :: (t.thread.holders ++ s.holders)⟩

def perform {α : Type} (s : Session) (t : LiveThread) (me : ObjectId) (x : Effect α) :
    Reply CommandError State α :=
  x (s.frame t me) { heap := s.heap, now := 0, pointer := t.pointer }

/-- Runs one command on a thread, whatever its grant. -/
def execute (s : Session) (host : Host) (t : LiveThread) (me : ObjectId) (c : Command) :
    Reply CommandError State (Option ObjectId) :=
  s.perform t me (.holding [.commands [c]] (exec host (t.thread.context.caller host) c))

def run (s : Session) (host : Host) (t : LiveThread) (me : ObjectId) :
    Reply CommandError State Unit :=
  s.perform t me
    (runCommands host (t.thread.context.caller host) (t.thread.commands.drop t.pointer.index))

/-- Calls the script of an object in a context, without a time limit. -/
def call (s : Session) (host : Host) (script : Script) (context : Context) (inputs : List ObjectId)
    (grant : Capabilities) : Reply ScriptError Moment (Option ObjectId) :=
  Script.callIn host ⟨script, context, inputs, grant, .commands script.commands :: s.holders⟩
    ⟨s.heap, 0⟩

/-- The group of a name, or the stack of a thread whose name follows an at sign. -/
def group? (s : Session) (name : String) : Option Group :=
  match name.toList with
  | '@' :: rest => (s.threads.get? (String.ofList rest)).map fun t => .stack t.thread.stack
  | _ => s.groups.get? name

end Session

end GuardedScript
