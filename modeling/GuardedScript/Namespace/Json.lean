import GuardedScript.Json.Reader
import GuardedScript.Json.Record
import GuardedScript.Namespace.Basic

/-!
Namespaces in JSON: the dotted text as a string.
-/

namespace GuardedScript.Namespace

def toJson (n : Namespace) : Json := .text n.dotted

def ofJson? (v : Json) : Option Namespace := do
  let text ← v.text?
  (parse text).toOption

def read? (text : String) : Option Namespace := (Json.parse? text).bind ofJson?

end GuardedScript.Namespace
