import GuardedScript.Capability.Json

/-!
The settings of an engine, and their JSON text.
-/

namespace GuardedScript

/-- The default grant is for invocations that bring none of their own; their time limit is in
milliseconds. -/
structure Config where
  maxCallDepth : Nat := 64
  parallelInputs : Bool := true
  callTimeout : Option Nat := none
  defaultGrant : Capabilities := {}
  deriving DecidableEq

instance : Inhabited Config := ⟨{}⟩

/-- Decimals without trailing zeros, for a count of thousandths below one thousand. -/
def thousandths (n : Nat) : String :=
  if n % 10 ≠ 0 then
    toString (n / 100) ++ toString (n / 10 % 10) ++ toString (n % 10)
  else if n / 10 % 10 ≠ 0 then toString (n / 100) ++ toString (n / 10 % 10)
  else toString (n / 100)

/-- A span of milliseconds: whole milliseconds below one second, else seconds. -/
def spanText (ms : Nat) : String :=
  if ms = 0 then "0ns"
  else if ms < 1000 then toString ms ++ "ms"
  else if ms % 1000 = 0 then toString (ms / 1000) ++ "s"
  else toString (ms / 1000) ++ "." ++ thousandths (ms % 1000) ++ "s"

inductive ConfigError where
  | badText
  | badFile
  | noFile
  deriving DecidableEq, Repr

def ConfigError.message : ConfigError → String
  | .badText => "Failed to parse config"
  | .badFile => "Failed to parse config file"
  | .noFile => "Failed to open config file"

namespace Config

/-- The settings with the members of the two sets in some order. The time limit is written as a
word, whatever it is. -/
def listed (c : Config) (required optional : List Capability) : Json :=
  .object [Json.member "max_call_depth" (.nat c.maxCallDepth),
    Json.member "parallel_inputs" (.bool c.parallelInputs),
    Json.member "call_timeout"
      ((c.callTimeout.map fun ms => Json.nat (ms % UInt64.size)).getD .null),
    Json.member "default_grant" (Capabilities.listed required optional)]

def toJson (c : Config) : Json :=
  c.listed c.defaultGrant.required.sorted c.defaultGrant.optional.sorted

def timeout? : Json → Option (Option Nat)
  | .null => some none
  | v => v.word?.map some

def ofJson? (v : Json) : Option Config :=
  match v.record? ["max_call_depth", "parallel_inputs", "call_timeout", "default_grant"] with
  | some [depth, parallel, timeout, grant] => do
    return { maxCallDepth := ← Json.fieldOr 64 Json.word? depth
             parallelInputs := ← Json.fieldOr true Json.bool? parallel
             callTimeout := ← Json.fieldOr none timeout? timeout
             defaultGrant := ← Json.fieldOr {} Capabilities.ofJson? grant }
  | _ => none

def write (c : Config) : String := c.toJson.render

def read? (text : String) : Option Config := (Json.parse? text).bind ofJson?

def parse (text : String) : Except ConfigError Config := (read? text).elim (.error .badText) .ok

def ofFile (contents : Option String) : Except ConfigError Config :=
  match contents with
  | none => .error .noFile
  | some text => (read? text).elim (.error .badFile) .ok

end Config

end GuardedScript
