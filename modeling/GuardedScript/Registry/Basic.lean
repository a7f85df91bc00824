import GuardedScript.Data.Assoc
import GuardedScript.Namespace.Basic
import GuardedScript.Registry.Property

/-!
Registries of types. A registry numbers the names it knows, has a table from the names back to their
numbers, and remembers its definitions, the newest first; a name without a definition is pending.
-/

namespace GuardedScript

/-- An instantiable type: what it declares itself, next to what it inherits. -/
structure ConcreteType where
  binding : Option HostType
  parent : Option TypeRef
  contracts : List TypeRef
  exposed : List Property
  hidden : List Property
  deriving DecidableEq, Repr

def ConcreteType.declared (t : ConcreteType) : Visibility → List Property
  | .exposed => t.exposed
  | .hidden => t.hidden

/-- The declared properties kept on the type itself. -/
def ConcreteType.statics (t : ConcreteType) (v : Visibility) : List Property :=
  (t.declared v).filter (·.flags.isStatic)

/-- Exposed properties that supporting types promise. -/
structure Contract where
  properties : List Property
  parents : List TypeRef
  deriving DecidableEq, Repr

inductive Definition where
  | concrete (type : ConcreteType)
  | contract (contract : Contract)
  deriving DecidableEq, Repr

/-- The types that a definition names as its own supertypes. -/
def Definition.links : Definition → List TypeRef
  | .concrete t => t.contracts ++ t.parent.toList
  | .contract c => c.parents

inductive TypeError where
  | unknownType (type : TypeRef)
  | unknownName (name : String)
  | duplicateName (name : Namespace)
  | pending (name : Namespace)
  | notConcrete (name : Namespace)
  | notContract (name : Namespace)
  | duplicateProperty (type : Namespace) (keys : List String)
  | unfulfilledContract (type : Namespace) (contracts : List Namespace) (missing : List String)
  | hiddenContractProperty (contract : Namespace) (key : String)
  | missingPropertyType (key : String) (typeName : String)
  | reservedKey (type : Namespace) (key : String)
  | invalidName (error : NamespaceError)
  deriving DecidableEq

def TypeError.message : TypeError → String
  | .unknownType t => "Unknown type reference " ++ t.display
  | .unknownName name => "Unknown type name " ++ name
  | .duplicateName name => "Type " ++ name.display ++ " is already defined"
  | .pending name => "Type " ++ name.display ++ " is declared but has not been defined"
  | .notConcrete name => name.display ++ " is not a concrete type"
  | .notContract name => name.display ++ " is not a contract"
  | .duplicateProperty type keys =>
    "One or more property keys are used more than once in the same enclosing type "
      ++ type.display ++ ": " ++ String.intercalate "," keys
  | .unfulfilledContract type contracts missing =>
    "One or more contracts are missing required properties on type " ++ type.display ++ ": "
      ++ String.intercalate "," (contracts.map Namespace.display)
      ++ " (missing: " ++ String.intercalate "," missing ++ ")"
  | .hiddenContractProperty contract key =>
    "Contract " ++ contract.display ++ " declares private property " ++ key
      ++ "; contract properties must be public"
  | .missingPropertyType key typeName =>
    "Property " ++ key ++ " requires a type, but no type named " ++ typeName ++ " exists"
  | .reservedKey type key =>
    "Type " ++ type.display ++ " declares property " ++ key ++ ", which is a reserved key"
  | .invalidName error => "Invalid type name: " ++ error.message

structure Registry where
  names : List Namespace
  table : Assoc Namespace TypeRef
  definitions : List (TypeRef × Definition)
  deriving DecidableEq

/-- A numbered name and what is defined there. -/
structure Slot where
  name : Namespace
  definition : Option Definition
  deriving DecidableEq

def Slot.kind (s : Slot) : String :=
  match s.definition with
  | none => "Pending"
  | some (.concrete _) => "Concrete"
  | some (.contract _) => "Contract"

def definitionIn : List (TypeRef × Definition) → TypeRef → Option Definition
  | [], _ => none
  | (t, d) :: older, a => if t = a then some d else definitionIn older a

namespace Registry

def empty : Registry := ⟨[], {}, []⟩

instance : Inhabited Registry := ⟨empty⟩
instance : EmptyCollection Registry := ⟨empty⟩

def size (r : Registry) : Nat := r.names.length

def definition? (r : Registry) (t : TypeRef) : Option Definition := definitionIn r.definitions t

def slot? (r : Registry) (t : TypeRef) : Option Slot :=
  (r.names[t.index]?).map fun name => ⟨name, r.definition? t⟩

def get (r : Registry) (t : TypeRef) : Except TypeError Slot :=
  match r.slot? t with
  | some slot => .ok slot
  | none => .error (.unknownType t)

def concrete (r : Registry) (t : TypeRef) : Except TypeError (Namespace × ConcreteType) :=
  match r.slot? t with
  | none => .error (.unknownType t)
  | some ⟨name, none⟩ => .error (.pending name)
  | some ⟨name, some (.contract _)⟩ => .error (.notConcrete name)
  | some ⟨name, some (.concrete c)⟩ => .ok (name, c)

def contract (r : Registry) (t : TypeRef) : Except TypeError (Namespace × Contract) :=
  match r.slot? t with
  | none => .error (.unknownType t)
  | some ⟨name, none⟩ => .error (.pending name)
  | some ⟨name, some (.concrete _)⟩ => .error (.notContract name)
  | some ⟨name, some (.contract c)⟩ => .ok (name, c)

def lookup (r : Registry) (name : Namespace) : Option TypeRef := r.table.get? name

/-- Finds a type by its dotted name. -/
def resolve (r : Registry) (text : String) : Except TypeError TypeRef :=
  match Namespace.parse text with
  | .error e => .error (.invalidName e)
  | .ok name =>
    match r.lookup name with
    | some t => .ok t
    | none => .error (.unknownName text)

/-- A name for diagnostics, also for places where there is nothing. -/
def nameOf (r : Registry) (t : TypeRef) : String :=
  match r.slot? t with
  | some slot => slot.name.display
  | none => "<unknown " ++ t.display ++ ">"

/-- A property whose type is given by name. -/
def property (r : Registry) (key typeName : String) (flags : Flags) : Except TypeError Property :=
  match r.resolve typeName with
  | .ok t => .ok ⟨key, t, flags⟩
  | .error _ => .error (.missingPropertyType key typeName)

/-- All numbered names in order. -/
def slots (r : Registry) : List (TypeRef × Slot) :=
  r.names.zipIdx.map fun (name, i) => (⟨i⟩, ⟨name, r.definition? ⟨i⟩⟩)

end Registry

end GuardedScript
