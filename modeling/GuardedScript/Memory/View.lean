import GuardedScript.Memory.Heap
import GuardedScript.Text.Order

/-!
Views: groups with their stacks opened, finite trees over plain groups.

Each question about a group (which item has a key, which keys there are, where a new item goes) is
answered on its view.
-/

namespace GuardedScript

/-- Layers come bottom first; the topmost that holds a key answers for it. -/
inductive View where
  | plain (id : GroupId)
  | linked (parts : List View)
  | writable (parts : List View) (target : View)
  | layered (layers : List View)

namespace View

mutual

def find (h : Heap) (key : String) : View → Option Item
  | .plain g => h.find g key
  | .linked parts => findFirst h key parts
  | .writable parts target => (findFirst h key parts).or (find h key target)
  | .layered layers => findLast h key layers

def findFirst (h : Heap) (key : String) : List View → Option Item
  | [] => none
  | v :: rest => (find h key v).or (findFirst h key rest)

def findLast (h : Heap) (key : String) : List View → Option Item
  | [] => none
  | v :: rest => (findLast h key rest).or (find h key v)

end

mutual

def groups : View → List GroupId
  | .plain g => [g]
  | .linked parts => groupsList parts
  | .writable parts target => groupsList parts ++ groups target
  | .layered layers => groupsList layers

def groupsList : List View → List GroupId
  | [] => []
  | v :: rest => groups v ++ groupsList rest

end

mutual

/-- The properties of all items, one entry for each plain group that holds the key. -/
def keys (h : Heap) : View → List Property
  | .plain g => (h.items g).map Item.property
  | .linked parts => keysList h parts
  | .writable parts target => keysList h parts ++ keys h target
  | .layered layers => keysList h layers

def keysList (h : Heap) : List View → List Property
  | [] => []
  | v :: rest => keys h v ++ keysList h rest

end

mutual

def contains (h : Heap) (key : String) : View → Bool
  | .plain g => h.hasKey g key
  | .linked parts => containsAny h key parts
  | .writable parts target => containsAny h key parts || contains h key target
  | .layered layers => containsAny h key layers

def containsAny (h : Heap) (key : String) : List View → Bool
  | [] => false
  | v :: rest => contains h key v || containsAny h key rest

end

mutual

def isWritable (h : Heap) : View → Bool
  | .plain g => h.insertable g
  | .linked _ => false
  | .writable _ _ => true
  | .layered layers => anyWritable h layers

def anyWritable (h : Heap) : List View → Bool
  | [] => false
  | v :: rest => isWritable h v || anyWritable h rest

end

mutual

/-- The loose group that takes a new item; none if the key is already there. -/
def slotFor (h : Heap) (key : String) : View → Except MemoryError (Option Nat)
  | .plain (.loose n) =>
    if h.insertable (.loose n) then
      if h.hasKey (.loose n) key then .ok none else .ok (some n)
    else .error .readOnlyGroup
  | .plain (.fields _ _) => .error .readOnlyGroup
  | .plain (.statics _ _ _) => .error .readOnlyGroup
  | .linked _ => .error .readOnlyGroup
  | .writable parts target =>
    if containsAny h key parts || contains h key target then .ok none else slotFor h key target
  | .layered layers => if containsAny h key layers then .ok none else slotOnTop h key layers

def slotOnTop (h : Heap) (key : String) : List View → Except MemoryError (Option Nat)
  | [] => .error .readOnlyGroup
  | v :: rest =>
    if anyWritable h rest then slotOnTop h key rest
    else if isWritable h v then slotFor h key v
    else .error .readOnlyGroup

end

def keyNames (h : Heap) (v : View) : List String := (v.keys h).map Property.key

end View

/-- Keys of `candidate` that one of `existing` has, sorted. -/
def conflictingKeys (h : Heap) (existing : List View) (candidate : View) : List String :=
  let taken := (View.keysList h existing).map Property.key
  Text.squeezed (Text.sorted ((candidate.keyNames h).filter fun k => k ∈ taken))

def canLink (h : Heap) (views : List View) : Bool :=
  Text.allNew [] ((View.keysList h views).map Property.key)

/-- The keys listed more than once: next to each other, once all keys are sorted. -/
def sharedKeys (h : Heap) (views : List View) : List String :=
  Text.squeezed (Text.doubled (Text.sorted ((View.keysList h views).map Property.key)))

mutual

def Group.openWith (h : Heap) (ofStack : StackId → View) : Group → View
  | .plain g => .plain g
  | .linked groups => .linked (Group.openList h ofStack groups)
  | .writable groups target =>
    .writable (Group.openList h ofStack groups) (Group.openWith h ofStack target)
  | .stack s => ofStack s
  | .object o => .linked ((h.outerGroups o).map .plain)

def Group.openList (h : Heap) (ofStack : StackId → View) : List Group → List View
  | [] => []
  | g :: rest => Group.openWith h ofStack g :: Group.openList h ofStack rest

end

namespace Heap

/-- The view of a stack whose layers hold further stacks to the given depth. -/
def stackView (h : Heap) : Nat → StackId → View
  | 0, _ => .layered []
  | depth + 1, s => .layered (Group.openList h (h.stackView depth) (h.layers s))

/-- The view of a group. No stack lies inside itself, so stacks are nested at most as deep as there
are stacks. -/
def view (h : Heap) (g : Group) : View := g.openWith h (h.stackView h.layered.size)

def outside (h : Heap) (o : ObjectId) : View := .linked ((h.outerGroups o).map .plain)

def inside (h : Heap) (o : ObjectId) : View := .linked ((h.innerGroups o).map .plain)

/-- An answer along with the heap after it, unless it is a failure. -/
def granted {ε α : Type} : Except ε α × Heap → Except ε (α × Heap)
  | (.ok a, h) => .ok (a, h)
  | (.error e, _) => .error e

theorem granted_eq_ok {ε α : Type} {r : Except ε α × Heap} {a : α} {h : Heap} :
    granted r = .ok (a, h) ↔ r = (.ok a, h) := by
  obtain ⟨e | b, k⟩ := r <;> simp [granted]

/-- Puts a value into an existing writable item; false if the value does not fit its type. -/
def putIn (h : Heap) (v : View) (key : String) (value : ObjectId) :
    Except MemoryError Bool × Heap :=
  match v.find h key with
  | none => (.error (.keyNotFound key), h)
  | some i =>
    if i.property.flags.writable then
      match h.store i value with
      | some h => (.ok true, h)
      | none => (.ok false, h)
    else (.error (.notWritable key), h)

def setIn (h : Heap) (v : View) (key : String) (value : ObjectId) :
    Except MemoryError (Bool × Heap) :=
  granted (h.putIn v key value)

/-- Offers an item under a new key; false if the key is already there. -/
def offer (h : Heap) (v : View) (i : Item) : Except MemoryError Bool × Heap :=
  match v.slotFor h i.key with
  | .error e => (.error e, h)
  | .ok none => (.ok false, h)
  | .ok (some n) => (.ok true, h.insertItem n i)

def addTo (h : Heap) (v : View) (i : Item) : Except MemoryError (Bool × Heap) :=
  granted (h.offer v i)

end Heap

def Group.linkChecked (h : Heap) (groups : List Group) : Except MemoryError Group :=
  if canLink h (groups.map h.view) then .ok (.linked groups)
  else .error (.layerConflict (sharedKeys h (groups.map h.view)))

/-- A linked group whose new items go to `target`, which has to accept them. -/
def Group.linkWritable (h : Heap) (groups : List Group) (target : Group) :
    Except MemoryError Group :=
  if (h.view target).isWritable h then .ok (.writable groups target) else .error .readOnlyGroup

end GuardedScript
