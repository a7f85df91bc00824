import GuardedScript.Memory.View

/-!
Lifetimes. An object lives while something holds it: something outside the heap, an item or a
script of a living object, or a static item of a registry that is in use. A circle of objects
keeps itself.
-/

namespace GuardedScript

/-- What is kept from outside the heap. -/
inductive Holder where
  | object (id : ObjectId)
  | item (id : ItemId)
  | group (group : Group)
  | commands (commands : List Command)
  | registry (id : RegistryId)

mutual

def Group.holdsWith (h : Heap) (ofStack : StackId → List ObjectId) : Group → List ObjectId
  | .plain g => (h.items g).filterMap fun i => h.value? i.id
  | .linked groups => Group.holdsList h ofStack groups
  | .writable groups target => Group.holdsList h ofStack groups ++ Group.holdsWith h ofStack target
  | .stack s => ofStack s
  | .object o => [o]

def Group.holdsList (h : Heap) (ofStack : StackId → List ObjectId) : List Group → List ObjectId
  | [] => []
  | g :: rest => Group.holdsWith h ofStack g ++ Group.holdsList h ofStack rest

end

namespace Heap

def stackHolds (h : Heap) : Nat → StackId → List ObjectId
  | 0, _ => []
  | depth + 1, s => Group.holdsList h (h.stackHolds depth) (h.layers s)

def heldBy (h : Heap) : Holder → List ObjectId
  | .object o => [o]
  | .item i => (h.value? i).toList
  | .group g => g.holdsWith h (h.stackHolds h.layered.size)
  | .commands cs => Command.objectsList cs
  | .registry _ => []

/-- The objects that an object holds through its items and its script. -/
def objectHolds (h : Heap) (o : ObjectId) : List ObjectId :=
  match h.object? o with
  | none => []
  | some x =>
    x.fields.values ++
      match x.bound with
      | some (.script s) => Command.objectsList s.commands
      | _ => []

def staticHolds (h : Heap) (r : RegistryId) : List ObjectId :=
  h.statics.entries.filterMap fun
    | (.static s _ _ _, o) => if s = r then some o else none
    | _ => none

/-- The registries in use, those of the given objects included. -/
def registriesInUse (h : Heap) (holders : List Holder) (objects : List ObjectId) :
    List RegistryId :=
  (holders.filterMap fun
    | .registry r => some r
    | _ => none)
  ++ objects.filterMap fun o => (h.object? o).map Object.registry

def keeps (h : Heap) (holders : List Holder) (objects : List ObjectId) : List ObjectId :=
  holders.flatMap h.heldBy ++ objects.flatMap h.objectHolds
    ++ (h.registriesInUse holders objects).eraseDups.flatMap h.staticHolds

/-- Lets go, round by round, of the objects that nothing left holds. -/
def survivors (h : Heap) (holders : List Holder) : Nat → List ObjectId → List ObjectId
  | 0, objects => objects
  | rounds + 1, objects =>
    let kept := h.keeps holders objects
    let left := objects.filter fun o => o ∈ kept
    if left.length = objects.length then objects else h.survivors holders rounds left

def allObjects (h : Heap) : List ObjectId := (List.range h.objects.size).map ObjectId.mk

def isLiving (h : Heap) (holders : List Holder) (o : ObjectId) : Bool :=
  o ∈ holders.flatMap h.heldBy || o ∈ h.survivors holders h.objects.size h.allObjects

end Heap

end GuardedScript
