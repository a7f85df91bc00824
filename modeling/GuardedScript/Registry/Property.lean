/-!
Properties: the key, type and flags of one storage place.
-/

namespace GuardedScript

/-- A place in a registry, whether or not something is there. -/
structure TypeRef where
  index : Nat
  deriving DecidableEq, Repr

def TypeRef.display (t : TypeRef) : String := "#" ++ toString t.index

inductive Visibility where
  | exposed
  | hidden
  deriving DecidableEq, Repr

def Visibility.name : Visibility → String
  | .exposed => "Public"
  | .hidden => "Private"

/-- A static property belongs to the type, a scoped one to a running thread. -/
structure Flags where
  readable : Bool := true
  writable : Bool := true
  isStatic : Bool := false
  isScoped : Bool := false
  deriving DecidableEq, Repr

structure Property where
  key : String
  type : TypeRef
  flags : Flags := {}
  deriving DecidableEq, Repr

/-- The key under which a thread keeps what it returns. No property or input may use it. -/
def returnKey : String := "return"

inductive HostType where
  | integer
  | text
  | truth
  | script
  deriving DecidableEq, Repr

def HostType.name : HostType → String
  | .integer => "i64"
  | .text => "alloc::string::String"
  | .truth => "bool"
  | .script => "dblang::script::definition::Script"

end GuardedScript
