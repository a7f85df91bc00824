import GuardedScript.Registry.Property

/-!
The identities of what a heap holds. Items and groups that belong to an object or a type are named
by their owner; all others are loose and have a number.
-/

namespace GuardedScript

structure ObjectId where
  index : Nat
  deriving DecidableEq, Repr

structure RegistryId where
  index : Nat
  deriving DecidableEq, Repr

structure StackId where
  index : Nat
  deriving DecidableEq, Repr

/-- Inputs, locals, returned values and what the host makes are loose. -/
inductive ItemId where
  | field (object : ObjectId) (visibility : Visibility) (key : String)
  | static (registry : RegistryId) (type : TypeRef) (visibility : Visibility) (key : String)
  | loose (index : Nat)
  deriving DecidableEq, Repr

/-- A plain group: items told apart by key. -/
inductive GroupId where
  | fields (object : ObjectId) (visibility : Visibility)
  | statics (registry : RegistryId) (type : TypeRef) (visibility : Visibility)
  | loose (index : Nat)
  deriving DecidableEq, Repr

/-- Anything that can be looked up by key. Of linked groups the first that holds a key answers for
it, and new items go to the target of a writable one. An object is seen from outside. -/
inductive Group where
  | plain (id : GroupId)
  | linked (groups : List Group)
  | writable (groups : List Group) (target : Group)
  | stack (id : StackId)
  | object (id : ObjectId)

/-- A storage place together with its property. -/
structure Item where
  id : ItemId
  property : Property
  deriving DecidableEq, Repr

def Item.key (i : Item) : String := i.property.key

inductive MemoryError where
  | keyNotFound (key : String)
  | notWritable (key : String)
  | notReadable (key : String)
  | readOnlyGroup
  | duplicateKey (key : String)
  | reservedKey (key : String)
  | invalidPath (path : String)
  | nullReference (path : String) (segment : String)
  | layerConflict (keys : List String)
  deriving DecidableEq, Repr

def MemoryError.message : MemoryError → String
  | .keyNotFound key => "Key not found: " ++ key
  | .notWritable key => "Property " ++ key ++ " is not writable"
  | .notReadable key => "Property " ++ key ++ " is not readable"
  | .readOnlyGroup => "Memory group does not accept new items"
  | .duplicateKey key => "Key " ++ key ++ " already exists"
  | .reservedKey key => "Key " ++ key ++ " is reserved"
  | .invalidPath path => "Invalid memory path: '" ++ path ++ "'"
  | .nullReference path segment =>
    "Path " ++ path ++ " passes through " ++ segment ++ ", which holds no value"
  | .layerConflict keys =>
    "Layer keys conflict with keys already on the stack: " ++ String.intercalate ", " keys

end GuardedScript
