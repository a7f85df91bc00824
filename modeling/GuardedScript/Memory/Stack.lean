import GuardedScript.Memory.View

/-!
Stacks: layers that share no key, the topmost writable one taking new items.
-/

namespace GuardedScript.Heap

/-- Puts a layer on top unless one of its keys is on the stack. -/
def pushChecked (h : Heap) (s : StackId) (layer : Group) : Except MemoryError Heap :=
  match conflictingKeys h ((h.layers s).map h.view) (h.view layer) with
  | [] => .ok (h.setLayers s (h.layers s ++ [layer]))
  | keys => .error (.layerConflict keys)

def push (h : Heap) (s : StackId) (layer : Group) : Bool × Heap :=
  match h.pushChecked s layer with
  | .ok h => (true, h)
  | .error _ => (false, h)

def pushEmpty (h : Heap) (s : StackId) : Heap × GroupId :=
  let (h, g) := h.newGroup true []
  (h.setLayers s (h.layers s ++ [.plain g]), g)

def pop (h : Heap) (s : StackId) : Option Group × Heap :=
  ((h.layers s).getLast?, h.setLayers s (h.layers s).dropLast)

/-- The topmost layer that takes new items. -/
def writableLayer? (h : Heap) (s : StackId) : Option Group :=
  (h.layers s).reverse.find? fun g => (h.view g).isWritable h

end GuardedScript.Heap
