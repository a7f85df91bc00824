import GuardedScript.Capability.Basic
import GuardedScript.Json.Reader
import GuardedScript.Json.Record

/-!
Capabilities in JSON.
-/

namespace GuardedScript

namespace Capability

def toJson (c : Capability) : Json :=
  .object [Json.member "name" (.text c.name), Json.member "display_name" (.text c.displayName),
    Json.member "description" (.text c.description)]

def ofJson? (v : Json) : Option Capability :=
  match v.record? ["name", "display_name", "description"] with
  | some [name, displayName, description] => do
    return { name := ← (← name).text?
             displayName := ← Json.fieldOr "" Json.text? displayName
             description := ← Json.fieldOr "" Json.text? description }
  | _ => none

end Capability

namespace CapabilitySet

/-- The members of a set in some order. -/
def listed (members : List Capability) : Json := .array (members.map Capability.toJson)

def ofJson? (v : Json) : Option CapabilitySet := do
  let members ← (← v.elements?).mapM Capability.ofJson?
  return ofList members

end CapabilitySet

namespace Capabilities

def listed (required optional : List Capability) : Json :=
  .object [Json.member "required" (CapabilitySet.listed required),
    Json.member "optional" (CapabilitySet.listed optional)]

def toJson (c : Capabilities) : Json := listed c.required.sorted c.optional.sorted

/-- The sets are taken as they are written: a name may stand in both. -/
def ofJson? (v : Json) : Option Capabilities :=
  match v.record? ["required", "optional"] with
  | some [required, optional] => do
    return { required := ← Json.fieldOr {} CapabilitySet.ofJson? required
             optional := ← Json.fieldOr {} CapabilitySet.ofJson? optional }
  | _ => none

def read? (text : String) : Option Capabilities := (Json.parse? text).bind ofJson?

end Capabilities

end GuardedScript
