import GuardedScript.Proofs.Likeness

/-!
Heaps that differ in values only. The outline of a heap is the heap with all its items emptied.
Types, properties, keys, views and the places of new items are read off the outline. So two heaps
with one outline differ at most in the values of some items, and a path leads to the same item in
both as long as it does not pass through one of these.
-/

namespace GuardedScript

def Table.map {α β : Type} (f : α → β) (t : Table α) : Table β := ⟨t.rows.map f⟩

namespace Table

variable {α β : Type} (f : α → β) (t : Table α)

@[simp] theorem size_map : (t.map f).size = t.size := by
  rw [size, map, Array.size_map, ← size]

@[simp] theorem get?_map (i : Nat) : (t.map f).get? i = (t.get? i).map f := by
  rw [get?, map, Array.getElem?_map, ← get?]

theorem map_push (a : α) : (t.push a).map f = (t.map f).push (f a) := by
  rw [push, map, Array.map_push, push, map]

variable {f t}

theorem ext_get? {t u : Table α} (h : ∀ i, t.get? i = u.get? i) : t = u := by
  obtain ⟨rows⟩ := t
  obtain ⟨rows'⟩ := u
  exact congrArg Table.mk (Array.ext_getElem? h)

theorem map_modify {g : α → α} {g' : β → β} (hg : ∀ a, f (g a) = g' (f a)) (i : Nat) :
    (t.modify i g).map f = (t.map f).modify i g' := by
  apply ext_get?
  intro j
  rw [get?_map, get?_modify, get?_modify, get?_map]
  split
  · cases t.get? j with
    | none => rfl
    | some a => exact congrArg some (hg a)
  · rfl

theorem map_modify_of_eq {g : α → α} (hg : ∀ a, f (g a) = f a) (i : Nat) :
    (t.modify i g).map f = t.map f := by
  apply ext_get?
  intro j
  rw [get?_map, get?_modify, get?_map]
  split
  · cases t.get? j with
    | none => rfl
    | some a => exact congrArg some (hg a)
  · rfl

end Table

theorem SameResult.of_map {ε α β : Type} {f : α → β} {x y : Except ε α}
    (hf : y.map f = x.map f) : SameResult (fun a b => f b = f a) x y := by
  cases x with
  | error e =>
    cases y with
    | error e' =>
      cases hf
      exact .error e
    | ok b => cases hf
  | ok a =>
    cases y with
    | error e => cases hf
    | ok b => exact .ok (Except.ok.inj hf)

def Object.bare (x : Object) : Object := { x with fields := {} }

def Cell.bare (c : Cell) : Cell := { c with value := none }

namespace Heap

def withRegistries (h : Heap) (rs : Table Registry) : Heap := { h with registries := rs }

/-- The heap with all its items emptied. -/
def outline (h : Heap) : Heap :=
  { h with
    statics := {}
    objects := h.objects.map Object.bare
    cells := h.cells.map Cell.bare }

/-- The heaps differ at most in the values of the items `D`. -/
structure SameExcept (D : ItemId → Prop) (h h' : Heap) : Prop where
  outline : h'.outline = h.outline
  values : ∀ {id}, ¬ D id → h'.value? id = h.value? id

/-- An operation that neither asks for a value nor touches one. -/
structure Blind (op : Heap → Heap) : Prop where
  outline : ∀ h, (op h).outline = op h.outline
  values : ∀ h id, (op h).value? id = h.value? id

section observations
variable (h : Heap)

@[simp] theorem object?_outline (o : ObjectId) :
    h.outline.object? o = (h.object? o).map Object.bare :=
  Table.get?_map _ _ _

@[simp] theorem registry_outline (r : RegistryId) : h.outline.registry r = h.registry r := rfl

@[simp] theorem layers_outline (σ : StackId) : h.outline.layers σ = h.layers σ := rfl

@[simp] theorem itemId?_outline (n : Nat) (key : String) :
    h.outline.itemId? n key = h.itemId? n key := rfl

@[simp] theorem isA_outline (o : ObjectId) (t : TypeRef) : h.outline.isA o t = h.isA o t := by
  unfold isA
  rw [object?_outline]
  cases h.object? o <;> rfl

@[simp] theorem fieldProperties_outline (o : ObjectId) (v : Visibility) :
    h.outline.fieldProperties o v = h.fieldProperties o v := by
  unfold fieldProperties
  rw [object?_outline]
  cases h.object? o <;> rfl

@[simp] theorem outerGroups_outline (o : ObjectId) : h.outline.outerGroups o = h.outerGroups o := by
  unfold outerGroups
  rw [object?_outline]
  cases h.object? o <;> rfl

@[simp] theorem memory_outline (o : ObjectId) : h.outline.memory o = h.memory o := by
  unfold memory innerGroups
  rw [object?_outline]
  cases h.object? o <;> rfl

@[simp] theorem outside_outline (o : ObjectId) : h.outline.outside o = h.outside o := by
  rw [outside, outerGroups_outline, ← outside]

@[simp] theorem typeDisplay_outline (o : ObjectId) : h.outline.typeDisplay o = h.typeDisplay o := by
  unfold typeDisplay
  rw [object?_outline]
  cases h.object? o <;> rfl

theorem typeOf_outline (o : ObjectId) :
    (h.outline.object? o).map Object.type = (h.object? o).map Object.type := by
  rw [object?_outline]
  cases h.object? o <;> rfl

/-- Errors name a type as the registry of the object does that was given instead. -/
theorem nameOf_outline (o : ObjectId) (t : TypeRef) :
    ((h.outline.object? o).map fun x => (h.outline.registry x.registry).nameOf t) =
      (h.object? o).map fun x => (h.registry x.registry).nameOf t := by
  rw [object?_outline]
  cases h.object? o <;> rfl

@[simp] theorem view_outline (g : Group) : h.outline.view g = h.view g :=
  view_eq (outerGroups_outline h) rfl g

@[simp] theorem item?_outline (id : ItemId) : h.outline.item? id = h.item? id := by
  cases id with
  | field o v key => rw [item?, fieldProperties_outline, ← item?]
  | static r t v key => rfl
  | loose n =>
    rw [item?, item?, outline, Table.get?_map]
    cases h.cells.get? n <;> rfl

theorem find_outline (x : GroupId) (key : String) : h.outline.find x key = h.find x key := by
  cases x with
  | fields o v => rw [find, fieldProperties_outline, ← find]
  | statics r t v => rfl
  | loose n => rw [find_loose, find_loose, itemId?_outline, funext h.item?_outline]

theorem hasKey_outline (x : GroupId) (key : String) : h.outline.hasKey x key = h.hasKey x key := by
  cases x with
  | fields o v => rw [hasKey, fieldProperties_outline, ← hasKey]
  | statics | loose => rfl

theorem insertable_outline (x : GroupId) : h.outline.insertable x = h.insertable x := by
  cases x <;> rfl

theorem items_outline (x : GroupId) : h.outline.items x = h.items x := by
  cases x with
  | fields o v => rw [items, fieldProperties_outline, ← items]
  | statics r t v => rfl
  | loose n => rw [items, funext h.item?_outline, items, outline]

@[simp] theorem viewFind_outline (v : View) (key : String) :
    v.find h.outline key = v.find h key :=
  View.find_congr fun x _ => find_outline h x key

@[simp] theorem contains_outline (v : View) (key : String) :
    v.contains h.outline key = v.contains h key :=
  contains_congr fun x _ => hasKey_outline h x key

@[simp] theorem slotFor_outline (v : View) (key : String) :
    v.slotFor h.outline key = v.slotFor h key :=
  View.slotFor_congr (fun x _ => hasKey_outline h x key) fun x _ => insertable_outline h x

theorem keys_outline (v : View) : v.keys h.outline = v.keys h := by
  rw [View.keys_eq, View.keys_eq]
  exact List.flatMap_congr fun x _ => by rw [items_outline]

@[simp] theorem conflictingKeys_outline (vs : List View) (v : View) :
    conflictingKeys h.outline vs v = conflictingKeys h vs v := by
  have hkeys : View.keysList h.outline vs = View.keysList h vs := by
    have hlinked := keys_outline h (.linked vs)
    rwa [View.keys, View.keys] at hlinked
  simp only [conflictingKeys, View.keyNames, hkeys, keys_outline]

theorem getBound_outline (o : ObjectId) (type : HostType) :
    h.outline.getBound o type = h.getBound o type := by
  unfold getBound
  rw [object?_outline]
  cases h.object? o <;> rfl

theorem boundTo_outline (o : ObjectId) : Script.boundTo h.outline o = Script.boundTo h o := by
  unfold Script.boundTo
  rw [object?_outline]
  cases h.object? o <;> rfl

end observations

/-- The heap has a place for the value of the item. -/
def hasPlace (h : Heap) : ItemId → Bool
  | .field o _ _ => (h.object? o).isSome
  | .static _ _ _ _ => true
  | .loose n => (h.cells.get? n).isSome

theorem hasPlace_outline (h : Heap) (id : ItemId) : h.outline.hasPlace id = h.hasPlace id := by
  cases id with
  | field o v key => rw [hasPlace, object?_outline, Option.isSome_map, ← hasPlace]
  | static r t v key => rfl
  | loose n => rw [hasPlace, outline, Table.get?_map, Option.isSome_map, ← hasPlace]

section blind

theorem blind_newItem (p : Property) : Blind fun h => (h.newItem p).1 where
  outline h := by
    simp only [newItem, outline, Table.map_push, Cell.bare]
  values h id := value?_newItem h p id

theorem blind_newGroup (insertable : Bool) (items : List Item) :
    Blind fun h => (h.newGroup insertable items).1 where
  outline _ := rfl
  values _ id := by cases id <;> rfl

theorem blind_insertItem (n : Nat) (i : Item) : Blind fun h => h.insertItem n i where
  outline _ := rfl
  values _ id := by cases id <;> rfl

theorem blind_newStack : Blind fun h => h.newStack.1 where
  outline _ := rfl
  values _ id := by cases id <;> rfl

theorem blind_setLayers (σ : StackId) (ls : List Group) : Blind fun h => h.setLayers σ ls where
  outline _ := rfl
  values _ id := by cases id <;> rfl

theorem blind_withRegistries (rs : Table Registry) : Blind fun h => h.withRegistries rs where
  outline _ := rfl
  values _ id := by cases id <;> rfl

theorem newObject_outline (h : Heap) (r : RegistryId) (t : TypeRef) :
    h.outline.newObject r t = (h.newObject r t).map fun p => (p.1.outline, p.2) := by
  unfold newObject
  rw [registry_outline]
  cases (h.registry r).concrete t with
  | error e => rfl
  | ok p => simp only [Except.map, outline, Table.map_push, Table.size_map, Object.bare]

theorem setBound_outline (h : Heap) (o : ObjectId) (v : HostValue) :
    h.outline.setBound o v = (h.setBound o v).map outline := by
  have hbare : ∀ x : Object, x.bare.putBound v = ((x.putBound v).1, (x.putBound v).2.bare) :=
    fun _ => rfl
  unfold setBound putBound
  rw [object?_outline]
  cases h.object? o with
  | none => rfl
  | some x =>
    simp only [Option.map_some, hbare]
    obtain ⟨e | ⟨⟩, y⟩ := x.putBound v
    · rfl
    · have hobjects : (h.objects.modify o.index fun _ => y).map Object.bare =
          (h.objects.map Object.bare).modify o.index fun _ => y.bare := by
        apply Table.map_modify
        exact fun _ => rfl
      simp only [Except.map, outline, hobjects]

end blind

section assign
variable (h : Heap) (id : ItemId) (v : Option ObjectId)

theorem outline_assign : (h.assign id v).outline = h.outline := by
  cases id with
  | field o w key =>
    simp only [assign, outline]
    rw [Table.map_modify_of_eq]
    exact fun _ => rfl
  | static r t w key => rfl
  | loose n =>
    simp only [assign, outline]
    rw [Table.map_modify_of_eq]
    exact fun _ => rfl

theorem value?_assign_place : (h.assign id v).value? id = if h.hasPlace id then v else none := by
  cases id with
  | field o w key =>
    rw [hasPlace, value?, assign, object?, Table.get?_modify, if_pos rfl, ← object?]
    cases h.object? o with
    | none => rfl
    | some x =>
      cases v with
      | none => exact Assoc.get?_erase_self _ _
      | some a => exact Assoc.get?_put_self _ _ _
  | static r t w key =>
    cases v with
    | none => exact Assoc.get?_erase_self _ _
    | some a => exact Assoc.get?_put_self _ _ _
  | loose n =>
    rw [hasPlace, value?, assign, Table.get?_modify, if_pos rfl]
    cases h.cells.get? n <;> rfl

end assign

namespace SameExcept

variable {D : ItemId → Prop} {h h' : Heap}

theorem of_assign (h : Heap) (id : ItemId) (v : Option ObjectId)
    (hid : D id) : h.SameExcept D (h.assign id v) where
  outline := outline_assign h id v
  values {id'} hid' := by
    apply value?_assign_of_ne
    rintro rfl
    exact hid' hid

theorem mono {E : ItemId → Prop} (hs : h.SameExcept D h') (hE : ∀ {id}, D id → E id) :
    h.SameExcept E h' :=
  ⟨hs.outline, fun hid => hs.values fun hD => hid (hE hD)⟩

/-- What can be read off the outlines is the same. -/
theorem same (hs : h.SameExcept D h') {α : Type} (f : Heap → α) (hf : ∀ k, f k.outline = f k) :
    f h' = f h := by
  rw [← hf h', hs.outline, hf]

theorem blind (hs : h.SameExcept D h') {op : Heap → Heap} (hop : Blind op) :
    (op h).SameExcept D (op h') where
  outline := by rw [hop.outline, hs.outline, ← hop.outline]
  values hid := by rw [hop.values, hs.values hid, ← hop.values h]

theorem assign (hs : h.SameExcept D h') (id : ItemId) (v : Option ObjectId) :
    (h.assign id v).SameExcept D (h'.assign id v) where
  outline := by rw [outline_assign, outline_assign, hs.outline]
  values {id'} hid := by
    by_cases he : id = id'
    · subst he
      rw [value?_assign_place, value?_assign_place, hs.same (·.hasPlace id) (hasPlace_outline · id)]
    · rw [value?_assign_of_ne he, value?_assign_of_ne he, hs.values hid]

theorem view (hs : h.SameExcept D h') (g : Group) : h'.view g = h.view g :=
  hs.same (·.view g) (view_outline · g)

theorem outside (hs : h.SameExcept D h') (o : ObjectId) : h'.outside o = h.outside o :=
  hs.same (·.outside o) (outside_outline · o)

theorem viewFind (hs : h.SameExcept D h') (v : View) (key : String) :
    v.find h' key = v.find h key :=
  hs.same (v.find · key) (viewFind_outline · v key)

theorem isA (hs : h.SameExcept D h') (o : ObjectId) (t : TypeRef) : h'.isA o t = h.isA o t :=
  hs.same (·.isA o t) (isA_outline · o t)

theorem typeDisplay (hs : h.SameExcept D h') (o : ObjectId) :
    h'.typeDisplay o = h.typeDisplay o :=
  hs.same (·.typeDisplay o) (typeDisplay_outline · o)

theorem typeOf (hs : h.SameExcept D h') (o : ObjectId) :
    (h'.object? o).map Object.type = (h.object? o).map Object.type :=
  hs.same (fun k => (k.object? o).map Object.type) (typeOf_outline · o)

theorem nameOf (hs : h.SameExcept D h') (o : ObjectId) (t : TypeRef) :
    ((h'.object? o).map fun x => (h'.registry x.registry).nameOf t) =
      (h.object? o).map fun x => (h.registry x.registry).nameOf t := by
  rw [← nameOf_outline, hs.outline, nameOf_outline]

theorem store (hs : h.SameExcept D h') (i : Item) (v : ObjectId) :
    Option.Rel (SameExcept D) (h.store i v) (h'.store i v) := by
  unfold Heap.store
  rw [hs.isA]
  split
  · exact .some (hs.assign i.id _)
  · exact .none

theorem setIn (hs : h.SameExcept D h') (v : View) (key : String) (value : ObjectId) :
    SameResult (fun p q => q.1 = p.1 ∧ p.2.SameExcept D q.2)
      (h.setIn v key value) (h'.setIn v key value) := by
  unfold Heap.setIn Heap.putIn
  rw [hs.viewFind]
  split
  · exact .error _
  · next i _ =>
    split
    · rcases rel_split (hs.store i value) with ⟨hn, hn'⟩ | ⟨_, _, hk, hk', hstored⟩
      · rw [hn, hn']
        exact .ok ⟨rfl, hs⟩
      · rw [hk, hk']
        exact .ok ⟨rfl, hstored⟩
    · exact .error _

theorem newObject (hs : h.SameExcept D h') (r : RegistryId) (t : TypeRef) :
    SameResult (fun p q => q.2 = p.2 ∧ p.1.SameExcept D q.1)
      (h.newObject r t) (h'.newObject r t) := by
  have hmap : (h'.newObject r t).map (fun p => (p.1.outline, p.2)) =
      (h.newObject r t).map fun p => (p.1.outline, p.2) := by
    rw [← newObject_outline, hs.outline, newObject_outline]
  rcases (SameResult.of_map hmap).split with ⟨e, he, he'⟩ | ⟨⟨k, o⟩, ⟨k', o'⟩, hk, hk', hsame⟩
  · rw [he, he']
    exact .error e
  · rw [hk, hk']
    obtain ⟨houtline, hid⟩ := Prod.mk.inj hsame
    refine .ok ⟨hid, houtline, fun hD => ?_⟩
    rw [value?_newObject hk', value?_newObject hk, hs.values hD]

theorem setBound (hs : h.SameExcept D h') (o : ObjectId) (v : HostValue) :
    SameResult (SameExcept D) (h.setBound o v) (h'.setBound o v) := by
  have hmap : (h'.setBound o v).map Heap.outline = (h.setBound o v).map Heap.outline := by
    rw [← setBound_outline, hs.outline, setBound_outline]
  rcases (SameResult.of_map hmap).split with ⟨e, he, he'⟩ | ⟨k, k', hk, hk', houtline⟩
  · rw [he, he']
    exact .error e
  · rw [hk, hk']
    refine .ok ⟨houtline, fun hD => ?_⟩
    rw [value?_setBound hk', value?_setBound hk, hs.values hD]

end SameExcept

end Heap

/-- No item of `D` that the view shows may be read. -/
def View.Withholds (D : ItemId → Prop) (h : Heap) (v : View) : Prop :=
  ∀ {key i}, v.find h key = some i → i.property.flags.readable = true → ¬ D i.id

namespace Heap

section paths
variable {h h' : Heap} {path : String} {i j : Item}

/-- Past the first segment, items are found on objects. -/
theorem walk_ok {segments : List String} (hw : h.walk path segments i = .ok j) :
    segments = [] ∧ j = i ∨ ∃ o key, (h.outside o).find h key = some j := by
  induction segments generalizing i with
  | nil =>
    cases hw
    exact .inl ⟨rfl, rfl⟩
  | cons s segments ih =>
    right
    rw [walk] at hw
    split at hw
    · cases hw
    · next o _ =>
      split at hw
      · cases hw
      · next k hk =>
        rcases ih hw with ⟨_, rfl⟩ | hfound
        · exact ⟨o, s, hk⟩
        · exact hfound

theorem resolvePath_ok {v : View} (hr : h.resolvePath v path = .ok j) :
    (∃ key, Text.segments path = [key] ∧ v.find h key = some j) ∨
      ∃ o key, (h.outside o).find h key = some j := by
  unfold resolvePath at hr
  split at hr
  · cases hr
  · split at hr
    · cases hr
    · next first rest hs =>
      split at hr
      · cases hr
      · next k hk =>
        rcases walk_ok hr with ⟨rfl, rfl⟩ | hfound
        · exact .inl ⟨first, hs, hk⟩
        · exact .inr hfound

variable {D : ItemId → Prop} (hs : h.SameExcept D h')
include hs

theorem SameExcept.holder (hi : i.property.flags.readable = true → ¬ D i.id) (path : String) :
    h'.holder i path = h.holder i path := by
  unfold Heap.holder
  split
  · next hr => rw [hs.values (hi hr)]
  · rfl

variable (hout : ∀ o, (h.outside o).Withholds D h)
include hout

theorem SameExcept.walk (segments : List String)
    (hi : i.property.flags.readable = true → ¬ D i.id) :
    h'.walk path segments i = h.walk path segments i := by
  induction segments generalizing i with
  | nil => rfl
  | cons s segments ih =>
    rw [Heap.walk, Heap.walk, hs.holder hi]
    split
    · rfl
    · next o _ =>
      rw [hs.outside, hs.viewFind]
      split
      · rfl
      · next hk => exact ih (hout o hk)

variable {v : View} (hv : v.Withholds D h)
include hv

/-- The heaps lead every path to the same item or to the same error. -/
theorem SameExcept.resolvePath (path : String) : h'.resolvePath v path = h.resolvePath v path := by
  unfold Heap.resolvePath
  split
  · rfl
  · split
    · rfl
    · rw [hs.viewFind]
      split
      · rfl
      · next hk => exact hs.walk hout _ (hv hk)

omit hs in
theorem withheld_of_resolvePath (hr : h.resolvePath v path = .ok i) :
    i.property.flags.readable = true → ¬ D i.id := by
  rcases resolvePath_ok hr with ⟨key, _, hk⟩ | ⟨o, key, hk⟩
  · exact hv hk
  · exact hout o hk

theorem SameExcept.readPath (path : String) : h'.readPath v path = h.readPath v path := by
  unfold Heap.readPath
  rw [hs.resolvePath hout hv]
  split
  · rfl
  · next hr =>
    split
    · next hread => rw [hs.values (withheld_of_resolvePath hout hv hr hread)]
    · rfl

theorem SameExcept.setPath (path : String) (value : ObjectId) :
    SameResult (fun p q => q.1 = p.1 ∧ p.2.SameExcept D q.2)
      (h.setPath v path value) (h'.setPath v path value) := by
  unfold Heap.setPath Heap.putPath
  split
  · exact hs.setIn v path value
  · rw [hs.resolvePath hout hv]
    split
    · exact .error _
    · next hr =>
      rw [hs.holder (withheld_of_resolvePath hout hv hr)]
      split
      · exact .error _
      · rw [hs.outside]
        exact hs.setIn _ _ value

end paths

end Heap

end GuardedScript
