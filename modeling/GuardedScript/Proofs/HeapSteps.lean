import Mathlib.Order.RelClasses
import GuardedScript.Memory.Binding
import GuardedScript.Proofs.Ownership
import GuardedScript.Proofs.SubtypeOrder

/-!
The steps that a heap can take, and what all of them keep. A value is stored only where its type
fits, an item is entered only under its own key, and no stack comes to lie inside itself. Types are
final once they are defined, so what was checked when a value was stored still holds later.
-/

namespace GuardedScript

open Relation

namespace Heap

/-- One stack is part of a layer of the other. -/
def Inside (h : Heap) (τ σ : StackId) : Prop := ∃ g ∈ h.layers σ, .stack τ ∈ g.leaves

/-- The group does not lead to the stack. Laying a layer on a stack means to look through all the
keys of the layer while the stack is closed to others; a layer that leads back to the stack would
wait for itself, so that it is never laid. -/
def Fits (h : Heap) (σ : StackId) (g : Group) : Prop :=
  ∀ τ, .stack τ ∈ g.leaves → ¬ ReflTransGen h.Inside σ τ

/-- The group is made of loose groups and stacks that the heap has. -/
structure Grounded (h : Heap) (g : Group) : Prop where
  groups : ∀ {n}, .plain (.loose n) ∈ g.leaves → n < h.groups.size
  layered : ∀ {τ}, .stack τ ∈ g.leaves → τ.index < h.layered.size

/-- What a host can do to a heap. Items and groups are handed over as the heap has them. -/
inductive Step (h : Heap) : Heap → Prop where
  | newRegistry : Step h h.newRegistry.1
  | define {r q r' t} (hq : (h.registry r).serve q = .ok (r', t)) :
      Step h { h with registries := h.registries.modify r.index fun _ => r' }
  | newObject {r t h' o} (hn : h.newObject r t = .ok (h', o)) : Step h h'
  | setBound {o v h'} (hb : h.setBound o v = .ok h') : Step h h'
  | newItem (p) : Step h (h.newItem p).1
  | newGroup (insertable items) (hi : ∀ i ∈ items, h.item? i.id = some i) :
      Step h (h.newGroup insertable items).1
  | newStack : Step h h.newStack.1
  | store {i v h'} (hi : h.item? i.id = some i) (hs : h.store i v = some h') : Step h h'
  | clear (id) : Step h (h.clear id)
  | set {view key v b h'} (hs : h.setIn view key v = .ok (b, h')) : Step h h'
  | setPath {view path v b h'} (hs : h.setPath view path v = .ok (b, h')) : Step h h'
  | add {view i b h'} (hi : h.item? i.id = some i) (ha : h.addTo view i = .ok (b, h')) : Step h h'
  | push {σ g} (hg : h.Grounded g) (hf : h.Fits σ g) : Step h (h.push σ g).2
  | pushChecked {σ g h'} (hg : h.Grounded g) (hf : h.Fits σ g) (hp : h.pushChecked σ g = .ok h') :
      Step h h'
  | pushEmpty (σ) : Step h (h.pushEmpty σ).1
  | pop (σ) : Step h (h.pop σ).2

/-- A heap in order. -/
structure Proper (h : Heap) : Prop where
  registries : ∀ r, (h.registry r).Orderly
  objects : ∀ {o x}, h.object? o = some x → (h.registry x.registry).IsConcrete x.type
  typed : ∀ {id v}, h.value? id = some v →
    ∃ i, h.item? id = some i ∧ h.isA v i.property.type = true
  keyed : ∀ {n g e}, h.groups.get? n = some g → e ∈ g.items.entries →
    ∃ i, h.item? e.2 = some i ∧ i.key = e.1
  grounded : ∀ {σ g}, g ∈ h.layers σ → h.Grounded g
  nesting : WellFounded h.Inside

/-- A change under which a heap stays in order. -/
structure Evolves (h h' : Heap) : Prop where
  registries : ∀ r, (h.registry r).Orderly →
    (h'.registry r).Orderly ∧ (h.registry r).definitions <:+ (h'.registry r).definitions
  objects : ∀ {o x}, h.object? o = some x →
    ∃ y, h'.object? o = some y ∧ y.registry = x.registry ∧ y.type = x.type
  created : ∀ {o y}, h'.object? o = some y →
    (∃ x, h.object? o = some x ∧ y.registry = x.registry ∧ y.type = x.type) ∨
      (h'.registry y.registry).IsConcrete y.type
  cells : ∀ {n c}, h.cells.get? n = some c →
    ∃ c', h'.cells.get? n = some c' ∧ c'.property = c.property
  values : ∀ {id v}, h'.value? id = some v → h.value? id = some v ∨
    ∃ i, h.item? id = some i ∧ h.isA v i.property.type = true
  entries : ∀ {n g' e}, h'.groups.get? n = some g' → e ∈ g'.items.entries →
    (∃ g, h.groups.get? n = some g ∧ e ∈ g.items.entries) ∨
      ∃ i, h.item? e.2 = some i ∧ i.key = e.1
  groups : h.groups.size ≤ h'.groups.size
  layered : h.layered.size ≤ h'.layered.size
  layers : ∀ {σ g}, g ∈ h'.layers σ → g ∈ h.layers σ ∨ h'.Grounded g
  nesting : WellFounded h.Inside → WellFounded h'.Inside

variable {h h' : Heap}

theorem Grounded.mono {g : Group} (hg : h.Grounded g) (hs : h.groups.size ≤ h'.groups.size)
    (hl : h.layered.size ≤ h'.layered.size) : h'.Grounded g := by
  constructor
  · intro n hn
    exact Nat.lt_of_lt_of_le (hg.groups hn) hs
  · intro τ hτ
    exact Nat.lt_of_lt_of_le (hg.layered hτ) hl

theorem Knows.grounded {g : Group} (hg : h.Knows g) : h.Grounded g :=
  ⟨fun hn => hg _ hn, fun hτ => hg _ hτ⟩

theorem Evolves.looseItem (he : h.Evolves h') {n : Nat} {i : Item}
    (hi : h.item? (.loose n) = some i) : h'.item? (.loose n) = some i := by
  obtain ⟨c, hc, rfl⟩ := Option.map_eq_some_iff.mp hi
  obtain ⟨c', hc', hk⟩ := he.cells hc
  rw [item?, hc', Option.map_some, hk]

section stability

variable (he : h.Evolves h') (hp : h.Proper)
include he hp

/-- What is read off the definition of a type does not change any more. -/
theorem Evolves.stable {β : Type} (f : List (TypeRef × Definition) → TypeRef → β)
    (hf : ∀ {t d older a}, t ≠ a → f ((t, d) :: older) a = f older a) {r : RegistryId}
    {t : TypeRef} (ht : ((h.registry r).definition? t).isSome) :
    f (h'.registry r).definitions t = f (h.registry r).definitions t := by
  obtain ⟨ho, hs⟩ := he.registries r (hp.registries r)
  exact stable_of_suffix f hf ho.lawful hs ht

theorem Evolves.definition? {r : RegistryId} {t : TypeRef} {d : Definition}
    (hd : (h.registry r).definition? t = some d) : (h'.registry r).definition? t = some d := by
  obtain ⟨ho, hs⟩ := he.registries r (hp.registries r)
  exact definitionIn_suffix ho.lawful hs hd

theorem Evolves.isA {o : ObjectId} {t : TypeRef} (ha : h.isA o t = true) : h'.isA o t = true := by
  unfold Heap.isA at ha
  split at ha
  · next x hx =>
    obtain ⟨y, hy, hr, ht⟩ := he.objects hx
    obtain ⟨c, hc⟩ := hp.objects hx
    simp only [Heap.isA, hy, hr, ht, Registry.isA]
    rw [he.stable hp (fun defs a => reaches defs a t) reaches_of_ne (by rw [hc]; rfl)]
    exact ha
  · cases ha

theorem Evolves.fieldProperties {o : ObjectId} (ho : (h.object? o).isSome) (v : Visibility) :
    h'.fieldProperties o v = h.fieldProperties o v := by
  obtain ⟨x, hx⟩ := Option.isSome_iff_exists.mp ho
  obtain ⟨y, hy, hr, ht⟩ := he.objects hx
  obtain ⟨c, hc⟩ := hp.objects hx
  have heff : (h'.registry x.registry).effective x.type v =
      (h.registry x.registry).effective x.type v :=
    he.stable hp (effectiveIn · · v) (effectiveIn_of_ne · v) (by rw [hc]; rfl)
  simp only [Heap.fieldProperties, hx, hy, hr, ht, Registry.instanceProperties, heff]

theorem Evolves.item? {id : ItemId} {i : Item} (hi : h.item? id = some i) :
    h'.item? id = some i := by
  cases id with
  | field o v key =>
    have ho : (h.object? o).isSome := by
      cases hx : h.object? o with
      | some x => rfl
      | none => simp [Heap.item?, Heap.fieldProperties, hx, withKey] at hi
    rw [Heap.item?, he.fieldProperties hp ho]
    exact hi
  | static r t v key =>
    have hs : (h'.registry r).staticProperties t v = (h.registry r).staticProperties t v := by
      cases hd : (h.registry r).definition? t with
      | none => simp [Heap.item?, Registry.staticProperties, hd, withKey] at hi
      | some d =>
        rw [Registry.staticProperties, he.definition? hp hd, Registry.staticProperties, hd]
    rw [Heap.item?, hs]
    exact hi
  | loose n => exact he.looseItem hi

theorem Proper.evolve : h'.Proper := by
  constructor
  · exact fun r => (he.registries r (hp.registries r)).1
  · intro o y hy
    rcases he.created hy with ⟨x, hx, hr, ht⟩ | hc
    · obtain ⟨c, hc⟩ := hp.objects hx
      rw [hr, ht]
      exact ⟨c, he.definition? hp hc⟩
    · exact hc
  · intro id v hv
    obtain ⟨i, hi, ha⟩ : ∃ i, h.item? id = some i ∧ h.isA v i.property.type = true := by
      rcases he.values hv with hv | hv
      · exact hp.typed hv
      · exact hv
    exact ⟨i, he.item? hp hi, he.isA hp ha⟩
  · intro n g e hg hm
    obtain ⟨i, hi, hk⟩ : ∃ i, h.item? e.2 = some i ∧ i.key = e.1 := by
      rcases he.entries hg hm with ⟨g₀, hg₀, hm⟩ | hi
      · exact hp.keyed hg₀ hm
      · exact hi
    exact ⟨i, he.item? hp hi, hk⟩
  · intro σ g hm
    rcases he.layers hm with hm | hg
    · exact (hp.grounded hm).mono he.groups he.layered
    · exact hg
  · exact he.nesting hp.nesting

end stability

theorem proper_empty : Heap.empty.Proper := by
  have hlayers : ∀ σ, Heap.empty.layers σ = [] := fun σ => layers_eq_nil (Nat.zero_le _)
  constructor
  · exact fun _ => Registry.orderly_empty
  · intro o x hx
    cases hx
  · intro id v hv
    cases id <;> cases hv
  · intro n g e hg
    cases hg
  · intro σ g hm
    rw [hlayers] at hm
    cases hm
  · refine ⟨fun σ => ⟨σ, ?_⟩⟩
    rintro τ ⟨g, hm, _⟩
    rw [hlayers] at hm
    cases hm

theorem Evolves.refl (h : Heap) : h.Evolves h where
  registries _ ho := ⟨ho, List.suffix_refl _⟩
  objects hx := ⟨_, hx, rfl, rfl⟩
  created hy := .inl ⟨_, hy, rfl, rfl⟩
  cells hc := ⟨_, hc, rfl⟩
  values := .inl
  entries hg hm := .inl ⟨_, hg, hm⟩
  groups := Nat.le_refl _
  layered := Nat.le_refl _
  layers := .inl
  nesting := id

theorem inside_congr (hl : ∀ σ, h'.layers σ = h.layers σ) : h'.Inside = h.Inside := by
  funext τ σ
  rw [Inside, hl, Inside]

section operations

theorem registry_newRegistry (h : Heap) (r : RegistryId) :
    h.newRegistry.1.registry r = h.registry r := by
  simp only [registry, newRegistry, Table.get?_push]
  split
  · next hr =>
    rw [hr, Table.get?_eq_none (Nat.le_refl _)]
    rfl
  · rfl

theorem evolves_newRegistry (h : Heap) : h.Evolves h.newRegistry.1 :=
  { Evolves.refl h with
    registries := by
      intro r ho
      rw [registry_newRegistry]
      exact ⟨ho, List.suffix_refl _⟩
    created := fun hy => .inl ⟨_, hy, rfl, rfl⟩
    layers := .inl }

theorem evolves_define {r : RegistryId} {q : Request} {r' : Registry} {t : TypeRef}
    (hq : (h.registry r).serve q = .ok (r', t)) :
    h.Evolves { h with registries := h.registries.modify r.index fun _ => r' } :=
  { Evolves.refl h with
    registries := by
      intro s ho
      by_cases hs : r.index = s.index
      · obtain rfl : r = s := by
          cases r
          cases s
          exact congrArg _ hs
        cases hg : h.registries.get? r.index with
        | none =>
          simp only [registry, Table.get?_modify, hg] at ho ⊢
          exact ⟨ho, List.suffix_refl _⟩
        | some old =>
          have hnew := ho.serve hq
          simpa only [registry, Table.get?_modify, if_true, hg, Option.map_some,
            Option.getD_some] using hnew
      · simp only [registry, Table.get?_modify, hs, if_false] at ho ⊢
        exact ⟨ho, List.suffix_refl _⟩
    created := fun hy => .inl ⟨_, hy, rfl, rfl⟩
    layers := .inl }

theorem newObject_cases {r : RegistryId} {t : TypeRef} {o : ObjectId}
    (hn : h.newObject r t = .ok (h', o)) : o = ⟨h.objects.size⟩ ∧
      ∃ name c, (h.registry r).definition? t = some (.concrete c) ∧
        h' = { h with objects := h.objects.push ⟨r, t, name, c.binding, {}, none⟩ } := by
  unfold newObject at hn
  split at hn <;> cases hn
  next name c hc => exact ⟨rfl, name, c, Registry.concrete_eq_ok hc, rfl⟩

theorem evolves_newObject {r : RegistryId} {t : TypeRef} {o : ObjectId}
    (hn : h.newObject r t = .ok (h', o)) : h.Evolves h' := by
  obtain ⟨_, name, c, hc, rfl⟩ := newObject_cases hn
  have fresh : ∀ {o' x}, h.object? o' = some x → ¬ o'.index = h.objects.size := by
    intro o' x hx hi
    have hlt := Table.lt_size_of_get? hx
    omega
  refine { Evolves.refl h with objects := ?_, created := ?_, values := ?_, layers := .inl }
  · intro o' x hx
    refine ⟨x, ?_, rfl, rfl⟩
    simp only [object?, Table.get?_push, fresh hx, if_false]
    exact hx
  · intro o' y hy
    simp only [object?, Table.get?_push] at hy
    split at hy
    · cases hy
      exact .inr ⟨c, hc⟩
    · exact .inl ⟨y, hy, rfl, rfl⟩
  · intro id v hv
    left
    cases id with
    | static | loose => exact hv
    | field o' vis key =>
      simp only [value?, object?, Table.get?_push] at hv
      split at hv
      · cases hv
      · exact hv

/-- Setting a host value changes nothing but what one object holds for the host. -/
theorem setBound_cases {o : ObjectId} {v : HostValue} (hb : h.setBound o v = .ok h') :
    h' = h ∨ ∃ x b, h.object? o = some x ∧
      h' = { h with objects := h.objects.modify o.index fun _ => { x with bound := b } } := by
  have hput := setBound_eq_ok.mp hb
  rcases h.putBound_cases o v with ⟨_, hp⟩ | ⟨x, e, _, _, hp⟩ | ⟨x, hx, _, hp⟩
  · cases hput.symm.trans hp
    exact .inl rfl
  · cases hput.symm.trans hp
  · cases hput.symm.trans hp
    exact .inr ⟨x, some v, hx, rfl⟩

theorem evolves_setBound {o : ObjectId} {v : HostValue} (hb : h.setBound o v = .ok h') :
    h.Evolves h' := by
  rcases setBound_cases hb with rfl | ⟨x, b, hx, rfl⟩
  · exact .refl _
  · have look : ∀ o', ({ h with
        objects := h.objects.modify o.index fun _ => { x with bound := b } } : Heap).object? o' =
        if o.index = o'.index then (h.object? o').map (fun _ => { x with bound := b })
        else h.object? o' :=
      fun o' => Table.get?_modify _ _ _ _
    have same : ∀ {o' y}, o.index = o'.index → h.object? o' = some y → y = x := by
      intro o' y hi hy
      rw [object?, ← hi, ← object?, hx] at hy
      exact (Option.some.inj hy).symm
    refine { Evolves.refl h with objects := ?_, created := ?_, values := ?_, layers := .inl }
    · intro o' y hy
      rw [look, hy]
      split
      · next hi => exact ⟨{ x with bound := b }, rfl, same hi hy ▸ rfl, same hi hy ▸ rfl⟩
      · exact ⟨y, rfl, rfl, rfl⟩
    · intro o' y hy
      rw [look] at hy
      split at hy
      · next hi =>
        obtain ⟨z, hz, rfl⟩ := Option.map_eq_some_iff.mp hy
        exact .inl ⟨z, hz, same hi hz ▸ rfl, same hi hz ▸ rfl⟩
      · exact .inl ⟨y, hy, rfl, rfl⟩
    · intro id w hw
      left
      cases id with
      | static | loose => exact hw
      | field o' vis key =>
        rw [value?, look] at hw
        split at hw
        · next hi =>
          obtain ⟨z, hz, hw⟩ := Option.bind_eq_some_iff.mp hw
          obtain ⟨y, hy, rfl⟩ := Option.map_eq_some_iff.mp hz
          obtain rfl := same hi hy
          rw [value?, hy]
          exact hw
        · exact hw

theorem evolves_newItem (h : Heap) (p : Property) : h.Evolves (h.newItem p).1 :=
  { Evolves.refl h with
    cells := by
      intro n c hc
      refine ⟨c, ?_, rfl⟩
      simp only [newItem]
      rw [Table.get?_push_of_lt _ _ (Table.lt_size_of_get? hc), hc]
    values := by
      intro id v hv
      rw [value?_newItem] at hv
      exact .inl hv
    layers := .inl }

theorem value?_assign {id id' : ItemId} {value : Option ObjectId} {w : ObjectId}
    (hw : (h.assign id value).value? id' = some w) :
    h.value? id' = some w ∨ id' = id ∧ value = some w := by
  cases id with
  | field o vis key =>
    cases id' with
    | static | loose => exact .inl hw
    | field o' vis' key' =>
      simp only [value?, object?, assign, Table.get?_modify] at hw
      split at hw
      · next hi =>
        obtain rfl : o = o' := by
          cases o
          cases o'
          exact congrArg _ hi
        obtain ⟨y, hy, hget⟩ := Option.bind_eq_some_iff.mp hw
        obtain ⟨x, hx, rfl⟩ := Option.map_eq_some_iff.mp hy
        clear hw hy
        have old : ∀ {w}, x.fields.get? (vis', key') = some w →
            h.value? (.field o vis' key') = some w := by
          intro w hw
          rw [value?, object?, hx]
          exact hw
        cases value with
        | some a =>
          simp only [Assoc.get?_put] at hget
          split at hget
          · next hk =>
            cases hk
            exact .inr ⟨rfl, hget⟩
          · exact .inl (old hget)
        | none =>
          simp only [Assoc.get?_erase] at hget
          split at hget
          · cases hget
          · exact .inl (old hget)
      · exact .inl hw
  | static r t vis key =>
    cases id' with
    | field | loose => exact .inl hw
    | static r' t' vis' key' =>
      cases value with
      | some a =>
        simp only [value?, assign, Assoc.get?_put] at hw
        split at hw
        · next hk => exact .inr ⟨hk.symm, hw⟩
        · exact .inl hw
      | none =>
        simp only [value?, assign, Assoc.get?_erase] at hw
        split at hw
        · cases hw
        · exact .inl hw
  | loose n =>
    cases id' with
    | field | static => exact .inl hw
    | loose n' =>
      simp only [value?, assign, Table.get?_modify] at hw
      split at hw
      · next hn =>
        subst hn
        obtain ⟨c, hc, hw⟩ := Option.bind_eq_some_iff.mp hw
        obtain ⟨c', _, rfl⟩ := Option.map_eq_some_iff.mp hc
        exact .inr ⟨rfl, hw⟩
      · exact .inl hw

/-- Storing is fine if the value fits the item, and so is clearing. -/
theorem evolves_assign {id : ItemId} {value : Option ObjectId}
    (hv : ∀ w, value = some w → ∃ i, h.item? id = some i ∧ h.isA w i.property.type = true) :
    h.Evolves (h.assign id value) := by
  have hlayers : ∀ σ, (h.assign id value).layers σ = h.layers σ := by
    intro σ
    rw [layers, layered_assign, ← layers]
  refine ⟨?_, (alike_assign h id value).objects, ?_, ?_, ?_, ?_, ?_, ?_, ?_, ?_⟩
  · intro r ho
    rw [(alike_assign h id value).registry]
    exact ⟨ho, List.suffix_refl _⟩
  · intro o y hy
    left
    cases hx : h.object? o with
    | some x =>
      obtain ⟨y', hy', hr, ht⟩ := (alike_assign h id value).objects hx
      rw [hy] at hy'
      cases hy'
      exact ⟨x, rfl, hr, ht⟩
    | none =>
      cases id with
      | static | loose => exact ⟨y, hx ▸ hy, rfl, rfl⟩
      | field o' vis key =>
        simp only [object?] at hx
        simp [object?, assign, Table.get?_modify, hx] at hy
  · intro n c hc
    cases id with
    | field | static => exact ⟨c, hc, rfl⟩
    | loose k =>
      simp only [assign, Table.get?_modify, hc]
      split
      · exact ⟨_, rfl, rfl⟩
      · exact ⟨_, rfl, rfl⟩
  · intro id' w hw
    rcases value?_assign hw with hold | ⟨rfl, hnew⟩
    · exact .inl hold
    · exact .inr (hv w hnew)
  · intro n g e hg hm
    rw [groups_assign] at hg
    exact .inl ⟨g, hg, hm⟩
  · exact Nat.le_of_eq (by rw [groups_assign])
  · exact Nat.le_of_eq (by rw [layered_assign])
  · intro σ g hm
    rw [hlayers] at hm
    exact .inl hm
  · intro hw
    rwa [inside_congr hlayers]

theorem evolves_store {i : Item} {v : ObjectId} (hi : h.item? i.id = some i)
    (hs : h.store i v = some h') : h.Evolves h' := by
  unfold store at hs
  split at hs
  · next ha =>
    cases hs
    apply evolves_assign
    intro w hw
    cases hw
    exact ⟨i, hi, ha⟩
  · cases hs

/-- What a look-up finds is an item as the heap has it. -/
theorem item?_of_find {x : GroupId} {key : String} {i : Item} (hf : h.find x key = some i) :
    h.item? i.id = some i := by
  cases x with
  | fields o v =>
    obtain ⟨p, hp, rfl⟩ := Option.map_eq_some_iff.mp hf
    obtain ⟨_, rfl⟩ := withKey_eq_some hp
    rw [fieldItem, item?, hp]
    rfl
  | statics r t v =>
    obtain ⟨p, hp, rfl⟩ := Option.map_eq_some_iff.mp hf
    obtain ⟨_, rfl⟩ := withKey_eq_some hp
    rw [staticItem, item?, hp]
    rfl
  | loose n =>
    obtain ⟨id, _, hid⟩ := Option.bind_eq_some_iff.mp hf
    rw [item?_id hid]
    exact hid

theorem item?_of_viewFind {v : View} {key : String} {i : Item} (hi : v.find h key = some i) :
    h.item? i.id = some i := by
  obtain ⟨x, _, hf⟩ := View.find_groups hi
  exact item?_of_find hf

theorem evolves_setIn {view : View} {key : String} {v : ObjectId} {b : Bool}
    (hs : h.setIn view key v = .ok (b, h')) : h.Evolves h' := by
  unfold setIn putIn at hs
  split at hs
  · cases hs
  · next i hi =>
    split at hs
    · split at hs
      · next hst =>
        cases hs
        exact evolves_store (item?_of_viewFind hi) hst
      · cases hs
        exact .refl h
    · cases hs

theorem evolves_setPath {view : View} {path : String} {v : ObjectId} {b : Bool}
    (hs : h.setPath view path v = .ok (b, h')) : h.Evolves h' := by
  unfold setPath putPath at hs
  split at hs
  · exact evolves_setIn hs
  · split at hs
    · cases hs
    · split at hs
      · cases hs
      · exact evolves_setIn hs

end operations

end Heap

theorem Assoc.mem_replace {κ α : Type} [DecidableEq κ] {k : κ} {a : α} {l : List (κ × α)}
    {e : κ × α} (he : e ∈ Assoc.replace k a l) : e ∈ l ∨ e = (k, a) := by
  induction l with
  | nil => exact .inr (List.mem_singleton.mp he)
  | cons d l ih =>
    obtain ⟨j, b⟩ := d
    rw [Assoc.replace] at he
    split at he
    · rcases List.mem_cons.mp he with he | he
      · exact .inr he
      · exact .inl (List.mem_cons_of_mem _ he)
    · rcases List.mem_cons.mp he with he | he
      · exact .inl (he ▸ List.mem_cons_self)
      · rcases ih he with he | he
        · exact .inl (List.mem_cons_of_mem _ he)
        · exact .inr he

theorem Assoc.mem_entries_ofList {κ α : Type} [DecidableEq κ] {l : List (κ × α)} {e : κ × α}
    (he : e ∈ (Assoc.ofList l).entries) : e ∈ l := by
  have main : ∀ m : Assoc κ α, e ∈ (l.foldl (fun m e => m.put e.1 e.2) m).entries →
      e ∈ l ∨ e ∈ m.entries := by
    clear he
    induction l with
    | nil => exact fun m he => .inr he
    | cons d l ih =>
      intro m he
      rcases ih _ he with he | he
      · exact .inl (List.mem_cons_of_mem d he)
      · rcases Assoc.mem_replace he with he | he
        · exact .inr he
        · exact .inl (he ▸ List.mem_cons_self)
  rcases main _ he with he | he
  · exact he
  · cases he

namespace Heap

variable {h h' : Heap}

section operations

theorem evolves_newGroup (insertable : Bool) {items : List Item}
    (hi : ∀ i ∈ items, h.item? i.id = some i) : h.Evolves (h.newGroup insertable items).1 :=
  { Evolves.refl h with
    entries := by
      intro n g e hg hm
      simp only [newGroup, Table.get?_push] at hg
      split at hg
      · cases hg
        obtain ⟨i, hmem, rfl⟩ := List.mem_map.mp (Assoc.mem_entries_ofList hm)
        exact .inr ⟨i, hi i hmem, rfl⟩
      · exact .inl ⟨g, hg, hm⟩
    groups := by simp [newGroup]
    layers := fun hm => .inl hm }

theorem evolves_insertItem {n : Nat} {i : Item} (hi : h.item? i.id = some i) :
    h.Evolves (h.insertItem n i) :=
  { Evolves.refl h with
    entries := by
      intro m g e hg hm
      simp only [insertItem, Table.get?_modify] at hg
      split at hg
      · obtain ⟨g₀, hg₀, rfl⟩ := Option.map_eq_some_iff.mp hg
        rcases Assoc.mem_replace hm with hm | rfl
        · exact .inl ⟨g₀, hg₀, hm⟩
        · exact .inr ⟨i, hi, rfl⟩
      · exact .inl ⟨g, hg, hm⟩
    groups := by simp [insertItem]
    layers := fun hm => .inl hm }

theorem evolves_addTo {view : View} {i : Item} {b : Bool} (hi : h.item? i.id = some i)
    (ha : h.addTo view i = .ok (b, h')) : h.Evolves h' := by
  unfold addTo offer at ha
  split at ha
  · cases ha
  · cases ha
    exact .refl h
  · cases ha
    exact evolves_insertItem hi

theorem evolves_newStack (h : Heap) : h.Evolves h.newStack.1 :=
  { Evolves.refl h with
    layered := by simp [newStack]
    layers := by
      intro σ g hm
      rw [layers_newStack] at hm
      exact .inl hm
    nesting := by
      intro hw
      rwa [inside_congr (layers_newStack h)] }

theorem mem_layers_setLayers {σ τ : StackId} {ls : List Group} {g : Group}
    (hm : g ∈ (h.setLayers σ ls).layers τ) : τ = σ ∧ g ∈ ls ∨ g ∈ h.layers τ := by
  rcases Nat.lt_or_ge σ.index h.layered.size with hσ | hσ
  · rw [layers_setLayers hσ] at hm
    split at hm
    · next hτ => exact .inl ⟨hτ, hm⟩
    · exact .inr hm
  · right
    have hlt := lt_of_mem_layers hm
    rw [size_layered_setLayers] at hlt
    have hne : ¬ σ.index = τ.index := by omega
    simpa [layers, setLayers, Table.get?_modify, hne] using hm

theorem not_within_self (hw : WellFounded h.Inside) {σ τ : StackId} (hτ : h.Inside τ σ) :
    ¬ ReflTransGen h.Inside σ τ := by
  intro hστ
  have hc := TransGen.tail' hστ hτ
  exact hw.transGen.asymmetric σ σ hc hc

theorem fits_of_mem (hw : WellFounded h.Inside) {σ : StackId} {g : Group} (hm : g ∈ h.layers σ) :
    h.Fits σ g := fun _ hτ => not_within_self hw ⟨g, hm, hτ⟩

/-- With new layers on a stack, stacks are still nested if none of the layers leads to the stack. -/
theorem nesting_setLayers {σ : StackId} {ls : List Group} (hw : WellFounded h.Inside)
    (hf : ∀ g ∈ ls, h.Fits σ g) : WellFounded (h.setLayers σ ls).Inside := by
  have split : ∀ {τ ρ}, (h.setLayers σ ls).Inside τ ρ →
      (ρ = σ ∧ ∃ g ∈ ls, .stack τ ∈ g.leaves) ∨ h.Inside τ ρ := by
    rintro τ ρ ⟨g, hm, hl⟩
    rcases mem_layers_setLayers hm with ⟨hρ, hm⟩ | hm
    · exact .inl ⟨hρ, g, hm, hl⟩
    · exact .inr ⟨g, hm, hl⟩
  -- stacks that do not lead to the changed one are nested as before
  have apart : ∀ ρ, ¬ ReflTransGen h.Inside σ ρ → Acc (h.setLayers σ ls).Inside ρ := by
    intro ρ
    induction ρ using hw.induction with
    | _ ρ ih =>
      intro hρ
      refine ⟨ρ, fun τ hτ => ?_⟩
      rcases split hτ with ⟨rfl, _⟩ | hτ
      · exact absurd .refl hρ
      · exact ih τ hτ fun hστ => hρ (hστ.tail hτ)
  have changed : Acc (h.setLayers σ ls).Inside σ := by
    refine ⟨σ, fun τ hτ => apart τ ?_⟩
    rcases split hτ with ⟨_, g, hm, hl⟩ | hτ
    · exact hf g hm τ hl
    · exact not_within_self hw hτ
  refine ⟨fun ρ => ?_⟩
  induction ρ using hw.induction with
  | _ ρ ih =>
    by_cases hρ : ρ = σ
    · exact hρ ▸ changed
    · refine ⟨ρ, fun τ hτ => ?_⟩
      rcases split hτ with ⟨h, _⟩ | hτ
      · exact absurd h hρ
      · exact ih τ hτ

theorem evolves_setLayers {σ : StackId} {ls : List Group}
    (hls : ∀ g ∈ ls, g ∈ h.layers σ ∨ h.Grounded g ∧ h.Fits σ g) :
    h.Evolves (h.setLayers σ ls) :=
  { Evolves.refl h with
    layered := Nat.le_of_eq (size_layered_setLayers h σ ls).symm
    layers := by
      intro τ g hm
      rcases mem_layers_setLayers hm with ⟨rfl, hnew⟩ | hold
      · rcases hls g hnew with hold | ⟨hg, _⟩
        · exact .inl hold
        · exact .inr (hg.mono (Nat.le_refl _) (Nat.le_of_eq (size_layered_setLayers h _ ls).symm))
      · exact .inl hold
    nesting := by
      intro hw
      apply nesting_setLayers hw
      intro g hm
      rcases hls g hm with hm | ⟨_, hf⟩
      · exact fits_of_mem hw hm
      · exact hf }

theorem evolves_pushChecked {σ : StackId} {g : Group} (hg : h.Grounded g) (hf : h.Fits σ g)
    (hp : h.pushChecked σ g = .ok h') : h.Evolves h' := by
  unfold pushChecked at hp
  split at hp
  · cases hp
    apply evolves_setLayers
    intro a ha
    rcases List.mem_append.mp ha with ha | ha
    · exact .inl ha
    · rw [List.mem_singleton.mp ha]
      exact .inr ⟨hg, hf⟩
  · cases hp

theorem evolves_push {σ : StackId} {g : Group} (hg : h.Grounded g) (hf : h.Fits σ g) :
    h.Evolves (h.push σ g).2 := by
  unfold push
  split
  · next hp => exact evolves_pushChecked hg hf hp
  · exact .refl h

theorem evolves_pop (h : Heap) (σ : StackId) : h.Evolves (h.pop σ).2 :=
  evolves_setLayers fun _ hg => .inl (List.dropLast_subset _ hg)

/-- The new layer of an emptied stack, in the heap that has the group already. -/
theorem evolves_layEmpty (h : Heap) (σ : StackId) :
    (h.newGroup true []).1.Evolves (h.pushEmpty σ).1 := by
  apply evolves_setLayers
  intro g hm
  rcases List.mem_append.mp hm with hm | hm
  · exact .inl hm
  · right
    rw [List.mem_singleton.mp hm]
    refine ⟨⟨?_, ?_⟩, ?_⟩
    · intro n hn
      simp only [Group.leaves, List.mem_singleton, Group.plain.injEq] at hn
      cases hn
      simp [newGroup]
    · intro τ hτ
      simp [Group.leaves] at hτ
    · intro τ hτ
      simp [Group.leaves] at hτ

end operations

theorem Step.evolves (hs : h.Step h') : ReflTransGen Evolves h h' := by
  cases hs with
  | newRegistry => exact .single (evolves_newRegistry h)
  | define hq => exact .single (evolves_define hq)
  | newObject hn => exact .single (evolves_newObject hn)
  | setBound hb => exact .single (evolves_setBound hb)
  | newItem p => exact .single (evolves_newItem h p)
  | newGroup insertable items hi => exact .single (evolves_newGroup insertable hi)
  | newStack => exact .single (evolves_newStack h)
  | store hi hs => exact .single (evolves_store hi hs)
  | clear id => exact .single (evolves_assign fun _ hw => nomatch hw)
  | set hs => exact .single (evolves_setIn hs)
  | setPath hs => exact .single (evolves_setPath hs)
  | add hi ha => exact .single (evolves_addTo hi ha)
  | push hg hf => exact .single (evolves_push hg hf)
  | pushChecked hg hf hp => exact .single (evolves_pushChecked hg hf hp)
  | pushEmpty σ =>
    have hnew : h.Evolves (h.newGroup true []).1 := evolves_newGroup true fun _ hm => nomatch hm
    exact (ReflTransGen.single hnew).tail (evolves_layEmpty h σ)
  | pop σ => exact .single (evolves_pop h σ)

/-- One step after another. -/
abbrev Steps : Heap → Heap → Prop := ReflTransGen Step

namespace Steps

/-- What every change keeps, any number of steps keeps. -/
theorem keep {P : Heap → Prop} (hk : ∀ {h h'}, Evolves h h' → P h → P h') (hs : h.Steps h')
    (h₀ : P h) : P h' := by
  induction hs with
  | refl => exact h₀
  | tail _ hstep ih =>
    have hev := hstep.evolves
    clear hstep
    induction hev with
    | refl => exact ih
    | tail _ he ih => exact hk he ih

theorem proper (hs : h.Steps h') (hp : h.Proper) : h'.Proper :=
  hs.keep (fun he hp => hp.evolve he) hp

theorem grounded (hs : h.Steps h') {g : Group} (hg : h.Grounded g) : h'.Grounded g :=
  hs.keep (P := (Grounded · g)) (fun he hg => hg.mono he.groups he.layered) hg

theorem looseItem (hs : h.Steps h') {n : Nat} {i : Item} (hi : h.item? (.loose n) = some i) :
    h'.item? (.loose n) = some i :=
  hs.keep (P := fun h => h.item? (.loose n) = some i) (fun he hi => he.looseItem hi) hi

end Steps

end Heap

end GuardedScript
