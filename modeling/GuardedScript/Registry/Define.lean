import GuardedScript.Registry.Subtype

/-!
Declaring and defining types. A definition is accepted as a whole or refused with its first problem.
A request is answered along with the registry that it leaves, and a new name also needs a number
that is left.
-/

namespace GuardedScript

structure TypeDecl where
  name : Namespace
  binding : Option HostType := none
  parent : Option TypeRef := none
  contracts : List TypeRef := []
  exposed : List Property := []
  hidden : List Property := []

structure ContractDecl where
  name : Namespace
  properties : List (Property × Visibility) := []
  parents : List TypeRef := []

/-- The keys met more than once, each once, in the order of their second occurrence. -/
def repeatedKeys (seen reported : List String) : List String → List String
  | [] => []
  | k :: rest =>
    if k ∈ seen ∧ k ∉ reported then k :: repeatedKeys seen (k :: reported) rest
    else repeatedKeys (k :: seen) reported rest

namespace Registry

def nameProblem (r : Registry) (name : Namespace) : Option TypeError :=
  match (r.lookup name).bind r.definition? with
  | some _ => some (.duplicateName name)
  | none => none

def concreteProblem (r : Registry) (t : TypeRef) : Option TypeError :=
  match r.concrete t with
  | .ok _ => none
  | .error e => some e

def contractProblem (r : Registry) (t : TypeRef) : Option TypeError :=
  match r.contract t with
  | .ok _ => none
  | .error e => some e

def typeProblem (r : Registry) (t : TypeRef) : Option TypeError :=
  match r.get t with
  | .ok _ => none
  | .error e => some e

def propertyProblem (r : Registry) (type : Namespace) (p : Property) : Option TypeError :=
  if p.key = returnKey then some (.reservedKey type returnKey) else r.typeProblem p.type

/-- What a declared type would have, its parent's properties first. -/
def wouldHave (r : Registry) (d : TypeDecl) : Visibility → List Property
  | .exposed => (d.parent.elim [] fun p => r.effective p .exposed) ++ d.exposed
  | .hidden => (d.parent.elim [] fun p => r.effective p .hidden) ++ d.hidden

def repetitionProblem (r : Registry) (d : TypeDecl) : Option TypeError :=
  match repeatedKeys [] [] ((r.wouldHave d .exposed ++ r.wouldHave d .hidden).map Property.key) with
  | [] => none
  | keys => some (.duplicateProperty d.name keys)

/-- The keys that a contract promises and `exposed` lacks. -/
def absentFrom (r : Registry) (exposed : List Property) (c : TypeRef) : List String :=
  match r.contractProperties c with
  | .ok ps => (ps.filter fun p => p ∉ exposed).map Property.key
  | .error _ => []

def fulfilmentProblem (r : Registry) (d : TypeDecl) : Option TypeError :=
  let exposed := r.wouldHave d .exposed
  match d.contracts.filter fun c => !(r.absentFrom exposed c).isEmpty with
  | [] => none
  | failed =>
    some (.unfulfilledContract d.name (failed.filterMap fun c => (r.slot? c).map Slot.name)
      (failed.flatMap (r.absentFrom exposed)))

def typeDeclProblem (r : Registry) (d : TypeDecl) : Option TypeError :=
  r.nameProblem d.name
    <|> d.parent.bind r.concreteProblem
    <|> d.contracts.findSome? r.contractProblem
    <|> (d.exposed ++ d.hidden).findSome? (r.propertyProblem d.name)
    <|> r.repetitionProblem d
    <|> r.fulfilmentProblem d

def hiddenProblem (d : ContractDecl) : Option TypeError :=
  (d.properties.find? fun (_, v) => v = .hidden).map fun (p, _) =>
    .hiddenContractProperty d.name p.key

def contractDeclProblem (r : Registry) (d : ContractDecl) : Option TypeError :=
  r.nameProblem d.name
    <|> hiddenProblem d
    <|> d.parents.findSome? r.contractProblem
    <|> d.properties.findSome? (fun (p, _) => r.typeProblem p.type)

/-- The place of a name, a new last one if it is not known yet. -/
def placeOf (r : Registry) (name : Namespace) : TypeRef := (r.lookup name).getD ⟨r.size⟩

def withName (r : Registry) (name : Namespace) : Registry :=
  match r.lookup name with
  | some _ => r
  | none => { r with names := r.names ++ [name], table := r.table.put name ⟨r.size⟩ }

def define (r : Registry) (name : Namespace) (d : Definition) : Registry :=
  { r.withName name with definitions := (r.placeOf name, d) :: r.definitions }

/-- Reserves a place for a type to be defined later. A pending name keeps its place. -/
def declare (r : Registry) (name : Namespace) : Except TypeError (Registry × TypeRef) :=
  match r.nameProblem name with
  | some e => .error e
  | none => .ok (r.withName name, r.placeOf name)

def defineType (r : Registry) (d : TypeDecl) : Except TypeError (Registry × TypeRef) :=
  match r.typeDeclProblem d with
  | some e => .error e
  | none =>
    .ok (r.define d.name (.concrete ⟨d.binding, d.parent, d.contracts, d.exposed, d.hidden⟩),
      r.placeOf d.name)

def defineContract (r : Registry) (d : ContractDecl) : Except TypeError (Registry × TypeRef) :=
  match r.contractDeclProblem d with
  | some e => .error e
  | none =>
    .ok (r.define d.name (.contract ⟨d.properties.map (·.1), d.parents⟩), r.placeOf d.name)

end Registry

inductive Request where
  | declare (name : Namespace)
  | type (decl : TypeDecl)
  | contract (decl : ContractDecl)

inductive RequestError where
  | refused (error : TypeError)
  | full (index : Nat)

def RequestError.message : RequestError → String
  | .refused error => error.message
  | .full index =>
    "Type registry is full; slot " ++ toString index ++ " does not fit a type reference"

namespace Registry

/-- References are words of 32 bits. -/
def capacity : Nat := UInt32.size

/-- What a request makes of a registry that has room for it. -/
def serve (r : Registry) : Request → Except TypeError (Registry × TypeRef)
  | .declare name => r.declare name
  | .type d => r.defineType d
  | .contract d => r.defineContract d

/-- The answer to a request, and the registry after it. -/
def ask (r : Registry) (q : Request) : Except RequestError TypeRef × Registry :=
  match r.serve q with
  | .error e => (.error (.refused e), r)
  | .ok (r', t) =>
    if t.index < capacity then (.ok t, r') else (.error (.full t.index), r)

end Registry

end GuardedScript
