import GuardedScript.Json.Basic

/-!
Records in JSON: an object with known keys, or an array that gives the fields in order.
-/

namespace GuardedScript.Json

def knownMembers (fields : List String) :
    List (Option String × Json) → Option (List (String × Json))
  | [] => some []
  | (none, _) :: _ => none
  | (some key, v) :: rest => do
    let more ← knownMembers fields rest
    return if fields.contains key then (key, v) :: more else more

/-- The values of the named fields, each present at most once. Unknown keys are passed over; an
array may end early, but has no more elements than there are fields. -/
def record? (fields : List String) : Json → Option (List (Option Json))
  | .array elements =>
    if elements.length ≤ fields.length then some (fields.zipIdx.map fun (_, i) => elements[i]?)
    else none
  | .object members => do
    let known ← knownMembers fields members
    if (known.map (·.1)).Nodup then return fields.map fun f => known.lookup f else none
  | _ => none

/-- A field that takes its default when it is left out. -/
def fieldOr {α : Type} (fallback : α) (decode : Json → Option α) : Option Json → Option α
  | none => some fallback
  | some v => decode v

def text? : Json → Option String
  | .string s => s
  | _ => none

def bool? : Json → Option Bool
  | .bool b => some b
  | _ => none

/-- A word: an integer below 2^64 written in digits alone. -/
def word? : Json → Option Nat
  | .number literal => do
    if literal.toList.all Char.isDigit then
      let n := literal.toList.foldl (fun n c => n * 10 + (c.toNat - '0'.toNat)) 0
      if n < UInt64.size then return n else none
    else none
  | _ => none

def elements? : Json → Option (List Json)
  | .array elements => some elements
  | _ => none

end GuardedScript.Json
