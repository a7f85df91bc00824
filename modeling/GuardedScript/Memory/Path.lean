import GuardedScript.Memory.View
import GuardedScript.Text.Segments

/-!
Dotted paths. The first segment is a key of the group itself; each further one is a key of the
exposed memory of the object that the item before holds. Hidden items are never reached past the
first segment.
-/

namespace GuardedScript.Heap

def holder (h : Heap) (i : Item) (path : String) : Except MemoryError ObjectId :=
  if i.property.flags.readable then
    match h.value? i.id with
    | some o => .ok o
    | none => .error (.nullReference path i.key)
  else .error (.notReadable i.key)

def walk (h : Heap) (path : String) : List String → Item → Except MemoryError Item
  | [], i => .ok i
  | segment :: rest, i =>
    match h.holder i path with
    | .error e => .error e
    | .ok o =>
      match (h.outside o).find h segment with
      | none => .error (.keyNotFound segment)
      | some next => h.walk path rest next

def resolvePath (h : Heap) (v : View) (path : String) : Except MemoryError Item :=
  if "" ∈ Text.segments path then .error (.invalidPath path)
  else match Text.segments path with
    | [] => .error (.invalidPath path)
    | first :: rest =>
      match v.find h first with
      | none => .error (.keyNotFound first)
      | some i => h.walk path rest i

/-- The value at a path, which has to be readable and may be absent. -/
def readPath (h : Heap) (v : View) (path : String) : Except MemoryError (Option ObjectId) :=
  match h.resolvePath v path with
  | .error e => .error e
  | .ok i => if i.property.flags.readable then .ok (h.value? i.id) else .error (.notReadable i.key)

/-- The value at a path, absent also when it cannot be read. -/
def getPath (h : Heap) (v : View) (path : String) : Option ObjectId :=
  match h.readPath v path with
  | .ok value => value
  | .error _ => none

def containsPath (h : Heap) (v : View) (path : String) : Bool := (h.resolvePath v path).toBool

/-- Puts a value into the item at a path: the part before the last dot leads to an object, the part
after it is the key there. -/
def putPath (h : Heap) (v : View) (path : String) (value : ObjectId) :
    Except MemoryError Bool × Heap :=
  match Text.cutLast path with
  | none => h.putIn v path value
  | some (before, last) =>
    match h.resolvePath v before with
    | .error e => (.error e, h)
    | .ok i =>
      match h.holder i path with
      | .error e => (.error e, h)
      | .ok o => h.putIn (h.outside o) last value

def setPath (h : Heap) (v : View) (path : String) (value : ObjectId) :
    Except MemoryError (Bool × Heap) :=
  granted (h.putPath v path value)

end GuardedScript.Heap
