import GuardedScript.Error
import GuardedScript.Run.Exec

/-!
Engines: a finished registry with its settings, ambient memory and named scripts.
-/

namespace GuardedScript

structure Engine where
  registry : RegistryId
  config : Config
  ambient : Option Group
  scripts : Assoc Namespace ObjectId

/-- What came of an invocation: a result or error, or nothing if it never ends. -/
abbrev Invocation := Reply Error Moment (Option ObjectId)

namespace Engine

def context (r : Engine) : Context := { ambient := r.ambient, config := r.config }

def resolve (r : Engine) (h : Heap) (typeName : String) : Except Error TypeRef :=
  ((h.registry r.registry).resolve typeName).mapError .type

def instantiate (r : Engine) (h : Heap) (t : TypeRef) : Except Error (Heap × ObjectId) :=
  (h.newObject r.registry t).mapError .type

def value (r : Engine) (h : Heap) (typeName : String) (v : HostValue) :
    Except Error (Heap × ObjectId) := do
  let t ← r.resolve h typeName
  let (h, o) ← r.instantiate h t
  let h ← (h.setBound o v).mapError .binding
  return (h, o)

/-- Wraps a script in a new object and registers it under the script's name; a later one of the same
name takes its place. -/
def bindScript (r : Engine) (h : Heap) (carrierType : String) (s : Script) :
    Except Error (Engine × Heap × ObjectId) := do
  let (h, o) ← r.value h carrierType (.script s)
  return ({ r with scripts := r.scripts.put s.name o }, h, o)

def script (r : Engine) (text : String) : Except Error ObjectId := do
  let name ← (Namespace.parse text).mapError .badName
  match r.scripts.get? name with
  | some o => .ok o
  | none => .error (.noScript name)

/-- Invokes the script of an object under a grant or the default one. The time limit holds for the
whole call, nested calls included; what happened before it stays. -/
def invoke (r : Engine) (host : Host) (h : Heap) (carrier : ObjectId) (inputs : List ObjectId)
    (grant : Option Capabilities) (held : List Holder) : Invocation :=
  match Script.boundTo h carrier with
  | .error e => ⟨.failed (.command e), ⟨h, 0⟩, []⟩
  | .ok s =>
    let reply := Script.callIn host
      ⟨s, { r.context with deadline := r.config.callTimeout }, inputs,
        grant.getD r.config.defaultGrant,
        .object carrier :: .commands s.commands :: held⟩ ⟨h, 0⟩
    match reply.outcome, r.config.callTimeout with
    | .waiting, some limit => { reply with outcome := .failed (.timeout s.name limit) }
    | outcome, _ => { reply with outcome := outcome.mapError .script }

end Engine

end GuardedScript
