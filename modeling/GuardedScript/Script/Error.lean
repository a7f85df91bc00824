import GuardedScript.Memory.Binding

/-!
What can go wrong with a command and with a call. A failed call inside a command and a failed
command inside a call wrap each other; a denied capability is never wrapped.
-/

namespace GuardedScript

inductive InputError where
  | arity (script : Namespace) (expected actual : Nat)
  | typeMismatch (script : Namespace) (key expected actual : String)
  | reservedKey (script : Namespace) (key : String)
  deriving DecidableEq

def InputError.message : InputError → String
  | .arity script expected actual =>
    "Script " ++ script.display ++ " takes " ++ toString expected ++ " inputs, got "
      ++ toString actual
  | .typeMismatch script key expected actual =>
    "Input " ++ key ++ " of script " ++ script.display ++ " expects " ++ expected
      ++ ", got " ++ actual
  | .reservedKey script key =>
    "Script " ++ script.display ++ " declares input " ++ key ++ ", which is a reserved key"

mutual

inductive CommandError where
  | memory (error : MemoryError)
  | binding (error : BindingError)
  | capability (error : CapabilityError)
  | thrown (thread : String) (value : Option ObjectId)
  | script (error : ScriptError)
  | absentValue (context : String)
  | notCallable (type : Namespace)
  | setRejected (path : String)
  | reservedKey (key : String)
  | callDepthExceeded (depth max : Nat)
  | native (operation message : String)

inductive ScriptError where
  | input (error : InputError)
  | capability (error : CapabilityError)
  | faulted (thread : String) (source : CommandError)
  | returnType (script : Namespace) (expected actual : String)
  | detached (script : Namespace)
  | memory (thread : String) (source : MemoryError)

end

mutual

def CommandError.message : CommandError → String
  | .memory e => "Memory error: " ++ e.message
  | .binding e => "Binding error: " ++ e.message
  | .capability e => "Capability error: " ++ e.message
  | .thrown thread _ => "Exception thrown on thread " ++ thread
  | .script e => "Script call failed: " ++ e.message
  | .absentValue context => context ++ " produced no value"
  | .notCallable type => "Object of type " ++ type.display ++ " carries no script"
  | .setRejected path => "Value rejected by " ++ path ++ ": type mismatch"
  | .reservedKey key => "Key " ++ key ++ " is reserved"
  | .callDepthExceeded depth max =>
    "Call depth " ++ toString depth ++ " exceeds the maximum of " ++ toString max
  | .native operation message => "Native operation " ++ operation ++ " failed: " ++ message

def ScriptError.message : ScriptError → String
  | .input e => "Input error: " ++ e.message
  | .capability e => "Capability error: " ++ e.message
  | .faulted thread source => "Thread " ++ thread ++ " faulted: " ++ source.message
  | .returnType script expected actual =>
    "Script " ++ script.display ++ " returned " ++ actual ++ ", expected " ++ expected
  | .detached script => "Script " ++ script.display ++ " outlived its parent object"
  | .memory thread source =>
    "Thread " ++ thread ++ " could not build its memory: " ++ source.message

end

mutual

/-- A denied capability is fatal, however deep it lies; everything else can be handled. -/
def CommandError.isCatchable : CommandError → Bool
  | .capability _ => false
  | .script e => e.isCatchable
  | _ => true

def ScriptError.isCatchable : ScriptError → Bool
  | .capability _ => false
  | .faulted _ source => source.isCatchable
  | _ => true

end

mutual

/-- The object thrown at the bottom of a failed call. -/
def ScriptError.diagnostic : ScriptError → Option ObjectId
  | .faulted _ source => source.cause
  | _ => none

def CommandError.cause : CommandError → Option ObjectId
  | .thrown _ value => value
  | .script e => e.diagnostic
  | _ => none

end

/-- A failed call as a failure of the command that made it. -/
def CommandError.ofCall : ScriptError → CommandError
  | .capability e => .capability e
  | e => .script e

/-- A failed command as the failure of the call whose thread ran it. -/
def ScriptError.ofRun (thread : String) : CommandError → ScriptError
  | .capability e => .capability e
  | e => .faulted thread e

end GuardedScript
