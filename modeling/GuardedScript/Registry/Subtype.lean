import GuardedScript.Registry.Basic

/-!
The subtype order and what is inherited along it.

A definition names only types that were defined before it, so each function here follows the
definitions from the newest to the oldest.
-/

namespace GuardedScript

/-- `b` is `a` or is reached from `a` by the links of definitions. -/
def reaches : List (TypeRef × Definition) → TypeRef → TypeRef → Bool
  | [], a, b => a = b
  | (t, d) :: older, a, b =>
    a = b || (if t = a then d.links.any (fun c => reaches older c b) else reaches older a b)

/-- A concrete type and its ancestors, the type itself first. -/
def lineageIn : List (TypeRef × Definition) → TypeRef → List (TypeRef × ConcreteType)
  | [], _ => []
  | (t, d) :: older, a =>
    if t = a then
      match d with
      | .concrete c =>
        (a, c) :: match c.parent with
          | some p => lineageIn older p
          | none => []
      | .contract _ => []
    else lineageIn older a

structure Survey where
  properties : List Property
  visited : List TypeRef
  deriving DecidableEq, Repr

def addNew (known added : List Property) : List Property :=
  added.foldl (fun ps p => if p ∈ ps then ps else ps ++ [p]) known

/-- Adds what a contract and its parents promise, parents in order, each contract once. -/
def surveyIn : List (TypeRef × Definition) → TypeRef → Survey → Survey
  | [], _, s => s
  | (t, d) :: older, a, s =>
    if t = a then
      match d with
      | .contract c =>
        if a ∈ s.visited then s
        else c.parents.foldl (fun s p => surveyIn older p s)
          ⟨addNew s.properties c.properties, a :: s.visited⟩
      | .concrete _ => s
    else surveyIn older a s

namespace Registry

/-- Whether a value of type `a` may stand where `b` is expected. -/
def isA (r : Registry) (a b : TypeRef) : Bool := reaches r.definitions a b

def lineage (r : Registry) (t : TypeRef) : List (TypeRef × ConcreteType) :=
  lineageIn r.definitions t

/-- The properties of a concrete type, those of its ancestors first. -/
def effective (r : Registry) (t : TypeRef) (v : Visibility) : List Property :=
  (r.lineage t).reverse.flatMap fun (_, c) => c.declared v

def instanceProperties (r : Registry) (t : TypeRef) (v : Visibility) : List Property :=
  (r.effective t v).filter fun p => !p.flags.isStatic

def staticProperties (r : Registry) (t : TypeRef) (v : Visibility) : List Property :=
  match r.definition? t with
  | some (.concrete c) => c.statics v
  | _ => []

def contractProperties (r : Registry) (c : TypeRef) : Except TypeError (List Property) :=
  match r.contract c with
  | .error e => .error e
  | .ok _ => .ok (surveyIn r.definitions c ⟨[], []⟩).properties

end Registry

end GuardedScript
