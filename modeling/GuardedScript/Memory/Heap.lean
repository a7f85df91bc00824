import GuardedScript.Data.Assoc
import GuardedScript.Data.Table
import GuardedScript.Registry.Subtype
import GuardedScript.Script.Command

/-!
The heap: registries with their static items, objects, loose items and groups, and stacks.

What an object or type owns is found through its registry; the heap holds the values alone.
-/

namespace GuardedScript

structure Object where
  registry : RegistryId
  type : TypeRef
  typeName : Namespace
  binding : Option HostType
  fields : Assoc (Visibility × String) ObjectId
  bound : Option HostValue

structure Cell where
  property : Property
  value : Option ObjectId
  deriving DecidableEq, Repr

/-- A loose group. Only an insertable one takes new items. -/
structure ItemGroup where
  insertable : Bool
  items : Assoc String ItemId
  deriving DecidableEq, Repr

structure Heap where
  registries : Table Registry
  statics : Assoc ItemId ObjectId
  objects : Table Object
  cells : Table Cell
  groups : Table ItemGroup
  layered : Table (List Group)

namespace Heap

def empty : Heap := ⟨{}, {}, {}, {}, {}, {}⟩

instance : Inhabited Heap := ⟨empty⟩
instance : EmptyCollection Heap := ⟨empty⟩

def registry (h : Heap) (r : RegistryId) : Registry := (h.registries.get? r.index).getD {}

def object? (h : Heap) (o : ObjectId) : Option Object := h.objects.get? o.index

/-- Whether an object is of a type, judged by the object's own registry. -/
def isA (h : Heap) (o : ObjectId) (t : TypeRef) : Bool :=
  match h.object? o with
  | some x => (h.registry x.registry).isA x.type t
  | none => false

def fieldProperties (h : Heap) (o : ObjectId) (v : Visibility) : List Property :=
  match h.object? o with
  | some x => (h.registry x.registry).instanceProperties x.type v
  | none => []

def fieldItem (o : ObjectId) (v : Visibility) (p : Property) : Item := ⟨.field o v p.key, p⟩

def staticItem (r : RegistryId) (t : TypeRef) (v : Visibility) (p : Property) : Item :=
  ⟨.static r t v p.key, p⟩

def withKey (key : String) (ps : List Property) : Option Property := ps.find? (·.key = key)

def item? (h : Heap) : ItemId → Option Item
  | .field o v key => (withKey key (h.fieldProperties o v)).map (fieldItem o v)
  | .static r t v key => (withKey key ((h.registry r).staticProperties t v)).map (staticItem r t v)
  | .loose n => (h.cells.get? n).map fun c => ⟨.loose n, c.property⟩

def value? (h : Heap) : ItemId → Option ObjectId
  | .field o v key => (h.object? o).bind fun x => x.fields.get? (v, key)
  | .static r t v key => h.statics.get? (.static r t v key)
  | .loose n => (h.cells.get? n).bind Cell.value

/-- The heap with an item's value replaced, whatever its type and flags say. -/
def assign (h : Heap) (i : ItemId) (value : Option ObjectId) : Heap :=
  match i with
  | .field o v key =>
    { h with objects := h.objects.modify o.index fun x =>
        { x with fields := match value with
            | some a => x.fields.put (v, key) a
            | none => x.fields.erase (v, key) } }
  | .static r t v key =>
    { h with statics := match value with
        | some a => h.statics.put (.static r t v key) a
        | none => h.statics.erase (.static r t v key) }
  | .loose n => { h with cells := h.cells.modify n fun c => { c with value := value } }

/-- Stores a value of a fitting type; any other is refused. -/
def store (h : Heap) (i : Item) (value : ObjectId) : Option Heap :=
  if h.isA value i.property.type then some (h.assign i.id (some value)) else none

def clear (h : Heap) (i : ItemId) : Heap := h.assign i none

def newItem (h : Heap) (p : Property) : Heap × Item :=
  ({ h with cells := h.cells.push ⟨p, none⟩ }, ⟨.loose h.cells.size, p⟩)

/-- A new loose group. Of several items with one key the last stays. -/
def newGroup (h : Heap) (insertable : Bool) (items : List Item) : Heap × GroupId :=
  ({ h with groups := h.groups.push ⟨insertable, .ofList (items.map fun i => (i.key, i.id))⟩ },
    .loose h.groups.size)

def newFixedGroup (h : Heap) : List Property → List Item → Heap × GroupId
  | [], items => h.newGroup false items.reverse
  | p :: rest, items =>
    let (h, item) := h.newItem p
    h.newFixedGroup rest (item :: items)

def newStack (h : Heap) : Heap × StackId :=
  ({ h with layered := h.layered.push [] }, ⟨h.layered.size⟩)

def newRegistry (h : Heap) : Heap × RegistryId :=
  ({ h with registries := h.registries.push {} }, ⟨h.registries.size⟩)

def newObject (h : Heap) (r : RegistryId) (t : TypeRef) : Except TypeError (Heap × ObjectId) :=
  match (h.registry r).concrete t with
  | .error e => .error e
  | .ok (name, c) =>
    .ok ({ h with objects := h.objects.push ⟨r, t, name, c.binding, {}, none⟩ }, ⟨h.objects.size⟩)

def items (h : Heap) : GroupId → List Item
  | .fields o v => (h.fieldProperties o v).map (fieldItem o v)
  | .statics r t v => ((h.registry r).staticProperties t v).map (staticItem r t v)
  | .loose n =>
    match h.groups.get? n with
    | some g => g.items.values.filterMap h.item?
    | none => []

def find (h : Heap) (g : GroupId) (key : String) : Option Item :=
  match g with
  | .fields o v => (withKey key (h.fieldProperties o v)).map (fieldItem o v)
  | .statics r t v => (withKey key ((h.registry r).staticProperties t v)).map (staticItem r t v)
  | .loose n => ((h.groups.get? n).bind fun g => g.items.get? key).bind h.item?

def hasKey (h : Heap) (g : GroupId) (key : String) : Bool :=
  match g with
  | .fields o v => (h.fieldProperties o v).any (·.key = key)
  | .statics r t v => ((h.registry r).staticProperties t v).any (·.key = key)
  | .loose n => (h.groups.get? n).any fun g => g.items.contains key

def insertable (h : Heap) : GroupId → Bool
  | .loose n => (h.groups.get? n).any ItemGroup.insertable
  | _ => false

def insertItem (h : Heap) (n : Nat) (i : Item) : Heap :=
  { h with groups := h.groups.modify n fun g => { g with items := g.items.put i.key i.id } }

def layers (h : Heap) (s : StackId) : List Group := (h.layered.get? s.index).getD []

def setLayers (h : Heap) (s : StackId) (layers : List Group) : Heap :=
  { h with layered := h.layered.modify s.index fun _ => layers }

/-- The groups of an object that code outside it sees: its exposed items, then the exposed statics
of its type and each ancestor. -/
def outerGroups (h : Heap) (o : ObjectId) : List GroupId :=
  match h.object? o with
  | none => []
  | some x =>
    .fields o .exposed ::
      ((h.registry x.registry).lineage x.type).map fun (t, _) => .statics x.registry t .exposed

/-- The groups of an object that code running on it sees. -/
def innerGroups (h : Heap) (o : ObjectId) : List GroupId :=
  match h.object? o with
  | none => []
  | some x =>
    .fields o .exposed :: .fields o .hidden ::
      ((h.registry x.registry).lineage x.type).flatMap fun (t, _) =>
        [.statics x.registry t .exposed, .statics x.registry t .hidden]

/-- An object's memory as code running on it sees it. -/
def memory (h : Heap) (o : ObjectId) : Group := .linked ((h.innerGroups o).map .plain)

def exposedMemory (h : Heap) (o : ObjectId) : Group := .linked ((h.outerGroups o).map .plain)

end Heap

end GuardedScript
