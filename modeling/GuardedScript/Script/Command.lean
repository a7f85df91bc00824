import GuardedScript.Capability.Basic
import GuardedScript.Memory.Identity
import GuardedScript.Namespace.Basic

/-!
Commands, the trees that scripts are made of, and the scripts themselves.
-/

namespace GuardedScript

/-- An operation of the host as a command names it, with its settings and what it requires. -/
structure Operation where
  name : String
  text : String := ""
  delay : Nat := 0
  requires : Capabilities := {}
  deriving DecidableEq

/-- Each command carries what it requires itself, besides what its parts require. -/
inductive Command where
  | this (own : Capabilities)
  | value (own : Capabilities) (object : ObjectId)
  | get (own : Capabilities) (path : String)
  | getOf (own : Capabilities) (target : Command) (path : String)
  | set (own : Capabilities) (path : String) (value : Command)
  | add (own : Capabilities) (key : String) (type : TypeRef)
  | ret (own : Capabilities) (value : Option Command)
  | script (own : Capabilities) (target : Command) (inputs : List Command)
  | attempt (own : Capabilities) (body handler : Command)
  | throw (own : Capabilities) (value : Option Command)
  | native (own : Capabilities) (operation : Operation) (args : List Command)

namespace Command

def kind : Command → String
  | .this _ => "THIS"
  | .value _ _ => "VALUE"
  | .get _ _ => "GET"
  | .getOf _ _ _ => "GET_OF"
  | .set _ _ _ => "SET"
  | .add _ _ _ => "ADD"
  | .ret _ _ => "RETURN"
  | .script _ _ _ => "SCRIPT"
  | .attempt _ _ _ => "TRY"
  | .throw _ _ => "THROW"
  | .native _ _ _ => "NATIVE"

def own : Command → Capabilities
  | .this own | .value own _ | .get own _ | .getOf own _ _ | .set own _ _ | .add own _ _
  | .ret own _ | .script own _ _ | .attempt own _ _ | .throw own _ | .native own _ _ => own

def requiring (cap : Capability) : Command → Command
  | .this own => .this (own.require cap)
  | .value own object => .value (own.require cap) object
  | .get own path => .get (own.require cap) path
  | .getOf own target path => .getOf (own.require cap) target path
  | .set own path v => .set (own.require cap) path v
  | .add own key type => .add (own.require cap) key type
  | .ret own v => .ret (own.require cap) v
  | .script own target inputs => .script (own.require cap) target inputs
  | .attempt own body handler => .attempt (own.require cap) body handler
  | .throw own v => .throw (own.require cap) v
  | .native own operation args => .native (own.require cap) operation args

mutual

/-- What a command needs to run: its own requirement, that of every part, and its operation's. -/
def required : Command → Capabilities
  | .this own => .merge [own]
  | .value own _ => .merge [own]
  | .get own _ => .merge [own]
  | .add own _ _ => .merge [own]
  | .getOf own target _ => .merge [own, required target]
  | .set own _ v => .merge [own, required v]
  | .ret own v => .merge (own :: requiredOption v)
  | .throw own v => .merge (own :: requiredOption v)
  | .script own target inputs => .merge (own :: required target :: requiredList inputs)
  | .attempt own body handler => .merge [own, required body, required handler]
  | .native own operation args => .merge (own :: requiredList args ++ [operation.requires])

def requiredOption : Option Command → List Capabilities
  | none => []
  | some c => [required c]

def requiredList : List Command → List Capabilities
  | [] => []
  | c :: rest => required c :: requiredList rest

end

mutual

def objects : Command → List ObjectId
  | .this _ => []
  | .value _ object => [object]
  | .get _ _ => []
  | .add _ _ _ => []
  | .getOf _ target _ => objects target
  | .set _ _ v => objects v
  | .ret _ v => objectsOption v
  | .throw _ v => objectsOption v
  | .script _ target inputs => objects target ++ objectsList inputs
  | .attempt _ body handler => objects body ++ objects handler
  | .native _ _ args => objectsList args

def objectsOption : Option Command → List ObjectId
  | none => []
  | some c => objects c

def objectsList : List Command → List ObjectId
  | [] => []
  | c :: rest => objects c ++ objectsList rest

end

end Command

structure ScriptInput where
  key : String
  type : TypeRef
  deriving DecidableEq, Repr

/-- A named command list that runs on an object, its parent, which it does not keep alive. -/
structure Script where
  name : Namespace
  inputs : List ScriptInput := []
  returns : Option TypeRef := none
  parent : ObjectId
  commands : List Command
  additional : Capabilities := {}

namespace Script

/-- What the commands require together with what the script declares besides. -/
def required (s : Script) : Capabilities :=
  .merge (s.commands.map Command.required ++ [s.additional])

/-- The name of the thread of one call; the mark stands for what tells calls apart. -/
def threadName (s : Script) : String := s.name.dotted ++ "_#"

end Script

inductive HostValue where
  | integer (n : Int)
  | text (s : String)
  | truth (b : Bool)
  | script (s : Script)

def HostValue.type : HostValue → HostType
  | .integer _ => .integer
  | .text _ => .text
  | .truth _ => .truth
  | .script _ => .script

end GuardedScript
