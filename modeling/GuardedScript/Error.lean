import GuardedScript.Script.Error
import GuardedScript.Config.Basic

/-!
Everything that an engine can answer instead of a result.
-/

namespace GuardedScript

inductive Error where
  | type (error : TypeError)
  | memory (error : MemoryError)
  | binding (error : BindingError)
  | capability (error : CapabilityError)
  | command (error : CommandError)
  | script (error : ScriptError)
  | badName (error : NamespaceError)
  | config (error : ConfigError)
  | noScript (name : Namespace)
  | timeout (script : Namespace) (limit : Nat)

def Error.message : Error → String
  | .type e => "Type error: " ++ e.message
  | .memory e => "Memory error: " ++ e.message
  | .binding e => "Binding error: " ++ e.message
  | .capability e => "Capability error: " ++ e.message
  | .command e => "Command error: " ++ e.message
  | .script e => "Script error: " ++ e.message
  | .badName e => "Namespace error: " ++ e.message
  | .config e => "Config error: " ++ e.message
  | .noScript name => "Config error: No script named " ++ name.display
  | .timeout name limit => "Script " ++ name.display ++ " timed out after " ++ spanText limit

end GuardedScript
