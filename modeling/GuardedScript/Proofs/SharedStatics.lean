import GuardedScript.Proofs.ObjectViews
import GuardedScript.Proofs.Outline

/-!
What objects of one registry have in common. An item that the memories of two objects show is a
static of a type from which both descend, and each such static is one item for all of them. So a
value that is set in a static through one object is there for every object below the declaring type,
and a value that is set in an item of one object's own is seen in no other.
-/

namespace GuardedScript

namespace Heap

variable {h : Heap} {o : ObjectId} {x : Object} {a : TypeRef} {v : Visibility} {p : Property}
variable {i : Item} {key : String}

theorem outerGroups_subset (h : Heap) (o : ObjectId) : h.outerGroups o ⊆ h.innerGroups o := by
  intro g hg
  cases hx : h.object? o with
  | none => simp [outerGroups, hx] at hg
  | some x =>
    rw [outerGroups, hx, List.mem_cons, List.mem_map] at hg
    rw [mem_innerGroups hx]
    rcases hg with rfl | ⟨e, he, rfl⟩
    · exact .inl ⟨_, rfl⟩
    · exact .inr ⟨e, he, _, rfl⟩

/-- The object's memory, or what is exposed of it when the property is exposed. -/
def Reveals (h : Heap) (o : ObjectId) (v : Visibility) (g : Group) : Prop :=
  g = h.memory o ∨ g = h.exposedMemory o ∧ v = .exposed

theorem Reveals.groups_subset {g : Group} (hg : h.Reveals o v g) :
    (h.view g).groups ⊆ h.innerGroups o := by
  rcases hg with rfl | ⟨rfl, _⟩
  · rw [view_memory, inside, View.groups, View.groupsList_map_plain]
    exact List.Subset.refl _
  · rw [view_exposedMemory, outside, View.groups, View.groupsList_map_plain]
    exact outerGroups_subset h o

theorem key_of_find (hx : h.object? o = some x) {g : GroupId} (hg : g ∈ h.innerGroups o)
    (hf : h.find g key = some i) : i.property.key = key := by
  rcases (mem_innerGroups hx).mp hg with ⟨v, rfl⟩ | ⟨e, _, v, rfl⟩
  · obtain ⟨p, hp, rfl⟩ := Option.map_eq_some_iff.mp hf
    exact (withKey_eq_some hp).2
  · obtain ⟨p, hp, rfl⟩ := Option.map_eq_some_iff.mp hf
    exact (withKey_eq_some hp).2

theorem find_isSome_of_mem (hx : h.object? o = some x) {g : GroupId} (hg : g ∈ h.innerGroups o)
    (hi : i ∈ h.items g) : (h.find g i.property.key).isSome := by
  rcases (mem_innerGroups hx).mp hg with ⟨v, rfl⟩ | ⟨e, _, v, rfl⟩
  · obtain ⟨p, hp, rfl⟩ := List.mem_map.mp hi
    rw [Heap.find, Option.isSome_map]
    exact withKey_isSome_of_mem hp
  · obtain ⟨p, hp, rfl⟩ := List.mem_map.mp hi
    rw [Heap.find, Option.isSome_map]
    exact withKey_isSome_of_mem hp

section
variable (ho : (h.registry x.registry).Orderly) (hx : h.object? o = some x)
include ho hx

/-- Whatever the groups of an object show under a key is its item for a property of that key. -/
theorem found_declared {V : View} (hV : V.groups ⊆ h.innerGroups o) (hi : V.find h key = some i) :
    ∃ a v p, (h.registry x.registry).Declares x.type a v p ∧ p.key = key ∧
      i = keptItem o x.registry a v p := by
  obtain ⟨g, hg, hf⟩ := View.find_groups hi
  obtain ⟨a, v, p, hd, _, rfl⟩ := (mem_items_inner ho hx).mp ⟨hV hg, mem_items_of_find hf⟩
  have hkey := key_of_find hx (hV hg) hf
  rw [keptItem_property] at hkey
  exact ⟨a, v, p, hd, hkey, rfl⟩

theorem keeper_mem_groups {g : Group} (hg : h.Reveals o v g)
    (hd : (h.registry x.registry).Declares x.type a v p) :
    keeper o x.registry a v p ∈ (h.view g).groups := by
  rcases hg with rfl | ⟨rfl, rfl⟩
  · rw [view_memory, inside, View.groups, View.groupsList_map_plain]
    exact ((mem_items_inner ho hx).mpr ⟨a, v, p, hd, rfl, rfl⟩).1
  · obtain ⟨c, he, _⟩ := ho.declares_iff.mp hd
    simp only [view_exposedMemory, outside, View.groups, View.groupsList_map_plain, outerGroups, hx,
      keeper]
    cases p.flags.isStatic with
    | true => exact List.mem_cons_of_mem _ (List.mem_map.mpr ⟨(a, c), he, rfl⟩)
    | false => exact List.mem_cons_self

/-- A declared property is found where the object shows it, and leads to its one item. -/
theorem find_declared (hc : (h.registry x.registry).IsConcrete x.type) {g : Group}
    (hg : h.Reveals o v g) (hd : (h.registry x.registry).Declares x.type a v p) :
    (h.view g).find h p.key = some (keptItem o x.registry a v p) := by
  have hsome : ((h.view g).find h p.key).isSome := by
    obtain ⟨hmem, hitem⟩ := (mem_items_inner ho hx).mpr ⟨a, v, p, hd, rfl, rfl⟩
    have hfound := find_isSome_of_mem hx hmem hitem
    rw [keptItem_property] at hfound
    exact View.find_isSome_iff.mpr ⟨_, keeper_mem_groups ho hx hg hd, hfound⟩
  obtain ⟨i, hi⟩ := Option.isSome_iff_exists.mp hsome
  obtain ⟨b, w, q, hq, hk, rfl⟩ := found_declared ho hx hg.groups_subset hi
  obtain ⟨rfl, rfl, rfl⟩ := ho.declares_unique hc hd hq hk.symm
  exact hi

end

theorem keptItem_static (o : ObjectId) (r : RegistryId) (a : TypeRef) (v : Visibility)
    (hs : p.flags.isStatic = true) : keptItem o r a v p = staticItem r a v p := if_pos hs

theorem keptItem_own (o : ObjectId) (r : RegistryId) (a : TypeRef) (v : Visibility)
    (hs : p.flags.isStatic = false) : keptItem o r a v p = fieldItem o v p := by
  simp [keptItem, hs]

section
variable {o₁ o₂ : ObjectId} (hne : o₁ ≠ o₂) {r : RegistryId} {b : TypeRef} {w : Visibility}
  {q : Property}
include hne

/-- What an object keeps itself is no item of another object. -/
theorem keptItem_id_ne (hs : p.flags.isStatic = false) :
    (keptItem o₁ r a v p).id ≠ (keptItem o₂ r b w q).id := by
  rw [keptItem_own _ _ _ _ hs]
  intro he
  cases hq : q.flags.isStatic with
  | true =>
    rw [keptItem_static _ _ _ _ hq] at he
    cases he
  | false =>
    rw [keptItem_own _ _ _ _ hq] at he
    exact hne (ItemId.field.inj he).1

/-- Different objects have an item in common only for one static of one type. -/
theorem keptItem_eq (he : keptItem o₁ r a v p = keptItem o₂ r b w q) :
    p.flags.isStatic = true ∧ a = b ∧ v = w ∧ p = q := by
  cases hs : p.flags.isStatic with
  | false => exact absurd (congrArg Item.id he) (keptItem_id_ne hne hs)
  | true =>
    have hpq : p = q := by
      have hproperty := congrArg Item.property he
      rwa [keptItem_property, keptItem_property] at hproperty
    subst hpq
    rw [keptItem_static _ _ _ _ hs, keptItem_static _ _ _ _ hs] at he
    cases he
    exact ⟨rfl, rfl, rfl, rfl⟩

end

/-- All objects of the heap are of concrete types of one registry, built by the requests. -/
structure Populated (h : Heap) (reg : RegistryId) (qs : List Request) : Prop where
  registry : h.registry reg = Registry.built qs
  objects : ∀ {o x}, h.object? o = some x →
    x.registry = reg ∧ (Registry.built qs).IsConcrete x.type

section
variable {reg : RegistryId} {qs : List Request} (hp : h.Populated reg qs)
  (hx : h.object? o = some x)
include hp hx

theorem Populated.found (hi : (h.view (h.memory o)).find h key = some i) :
    ∃ a v p, (Registry.built qs).Declares x.type a v p ∧ p.key = key ∧
      i = keptItem o reg a v p := by
  obtain ⟨rfl, _⟩ := hp.objects hx
  have ho := Registry.built_orderly qs
  rw [← hp.registry] at ho ⊢
  exact found_declared ho hx (Reveals.groups_subset (v := .exposed) (.inl rfl)) hi

theorem Populated.find {g : Group} (hg : h.Reveals o v g)
    (hd : (Registry.built qs).Declares x.type a v p) :
    (h.view g).find h p.key = some (keptItem o reg a v p) := by
  obtain ⟨rfl, hc⟩ := hp.objects hx
  have ho := Registry.built_orderly qs
  rw [← hp.registry] at ho hc hd
  exact find_declared ho hx hc hg hd

theorem Populated.find_static {g : Group} (hg : h.Reveals o v g)
    (hd : (Registry.built qs).Declares x.type a v p) (hs : p.flags.isStatic = true) :
    (h.view g).find h p.key = some (staticItem reg a v p) := by
  rw [← keptItem_static o reg a v hs]
  exact hp.find hx hg hd

/-- An item that two objects show is a static which both their types have. -/
theorem Populated.common {o₂ : ObjectId} {x₂ : Object} (hx₂ : h.object? o₂ = some x₂)
    (hne : o ≠ o₂) {k : String} (hi : (h.view (h.memory o)).find h key = some i)
    (hi₂ : (h.view (h.memory o₂)).find h k = some i) :
    ∃ a v p, (Registry.built qs).Declares x.type a v p ∧
      (Registry.built qs).Declares x₂.type a v p ∧ p.flags.isStatic = true ∧
      i = staticItem reg a v p := by
  obtain ⟨a, v, p, hd, _, rfl⟩ := hp.found hx hi
  obtain ⟨b, w, q, hd₂, _, hsame⟩ := hp.found hx₂ hi₂
  obtain ⟨hs, rfl, rfl, rfl⟩ := keptItem_eq hne hsame
  exact ⟨a, v, p, hd, hd₂, hs, keptItem_static _ _ _ _ hs⟩

end

theorem setIn_eq_assign {V : View} {w : ObjectId} (hi : V.find h key = some i)
    (hw : i.property.flags.writable = true) (hf : h.isA w i.property.type = true) :
    h.setIn V key w = .ok (true, h.assign i.id (some w)) := by
  rw [setIn, putIn, hi]
  simp only [hw, if_true, store, hf, granted]

/-- Setting a value leaves what each object's memory finds as it is. -/
theorem find_memory_assign (h : Heap) (id : ItemId) (w : Option ObjectId) (o : ObjectId)
    (key : String) : ((h.assign id w).view ((h.assign id w).memory o)).find (h.assign id w) key =
      (h.view (h.memory o)).find h key := by
  have hs : h.SameExcept (· = id) (h.assign id w) := .of_assign h id w rfl
  have hm : (h.assign id w).memory o = h.memory o :=
    hs.same (·.memory o) (memory_outline · o)
  rw [hm, hs.view, hs.viewFind]

end Heap

/-- Among the objects of a registry, statics are shared and all else is not. The memories of two
objects have exactly those items in common that are statics declared by a type from which both
descend, and each of them finds such a static under its key. A value set in a static through one
object is found by every object below the declaring type. A value set in an item of an object's own
changes nothing that another object's memory shows. -/
theorem statics_shared_fields_apart (qs : List Request) (h : Heap) (reg : RegistryId)
    (hp : h.Populated reg qs) :
    let r := Registry.built qs
    (∀ o₁ x₁ o₂ x₂, h.object? o₁ = some x₁ → h.object? o₂ = some x₂ → o₁ ≠ o₂ →
      (∀ i, (∃ k, (h.view (h.memory o₁)).find h k = some i) ∧
          (∃ k, (h.view (h.memory o₂)).find h k = some i) ↔
        ∃ a v p, r.Declares x₁.type a v p ∧ r.Declares x₂.type a v p ∧
          p.flags.isStatic = true ∧ i = Heap.staticItem reg a v p) ∧
      ∀ a v p, r.Declares x₁.type a v p → r.Declares x₂.type a v p → p.flags.isStatic = true →
        (h.view (h.memory o₁)).find h p.key = some (Heap.staticItem reg a v p) ∧
        (h.view (h.memory o₂)).find h p.key = some (Heap.staticItem reg a v p)) ∧
    (∀ o₁ x₁ a v p g w, h.object? o₁ = some x₁ → r.Declares x₁.type a v p →
      p.flags.isStatic = true → p.flags.writable = true → h.Reveals o₁ v g →
      h.isA w p.type = true →
      ∃ h', h.setIn (h.view g) p.key w = .ok (true, h') ∧
        ∀ o x, h.object? o = some x → r.isA x.type a = true →
          ∃ i, (h'.view (h'.memory o)).find h' p.key = some i ∧ h'.value? i.id = some w) ∧
    ∀ o₁ x₁ a v p g w b h', h.object? o₁ = some x₁ → r.Declares x₁.type a v p →
      p.flags.isStatic = false → h.Reveals o₁ v g → h.setIn (h.view g) p.key w = .ok (b, h') →
      ∀ o₂ x₂, h.object? o₂ = some x₂ → o₁ ≠ o₂ → ∀ k,
        (h'.view (h'.memory o₂)).find h' k = (h.view (h.memory o₂)).find h k ∧
        ∀ i, (h.view (h.memory o₂)).find h k = some i → h'.value? i.id = h.value? i.id := by
  intro r
  refine ⟨?_, ?_, ?_⟩
  · intro o₁ x₁ o₂ x₂ hx₁ hx₂ hne
    have shared : ∀ a v p, r.Declares x₁.type a v p → r.Declares x₂.type a v p →
        p.flags.isStatic = true →
        (h.view (h.memory o₁)).find h p.key = some (Heap.staticItem reg a v p) ∧
        (h.view (h.memory o₂)).find h p.key = some (Heap.staticItem reg a v p) :=
      fun a v p hd₁ hd₂ hs =>
        ⟨hp.find_static hx₁ (.inl rfl) hd₁ hs, hp.find_static hx₂ (.inl rfl) hd₂ hs⟩
    refine ⟨fun i => ⟨?_, ?_⟩, shared⟩
    · rintro ⟨⟨k₁, hi₁⟩, ⟨k₂, hi₂⟩⟩
      exact hp.common hx₁ hx₂ hne hi₁ hi₂
    · rintro ⟨a, v, p, hd₁, hd₂, hs, rfl⟩
      obtain ⟨hfind₁, hfind₂⟩ := shared a v p hd₁ hd₂ hs
      exact ⟨⟨p.key, hfind₁⟩, ⟨p.key, hfind₂⟩⟩
  · intro o₁ x₁ a v p g w hx₁ hd hs hw hg hf
    refine ⟨_, Heap.setIn_eq_assign (hp.find_static hx₁ hg hd hs) hw hf, ?_⟩
    intro o x hx hisA
    -- the static is the same for every object below the type that declares it
    have hother := hp.find_static hx (.inl rfl) ⟨hisA, hd.2⟩ hs
    refine ⟨_, (Heap.find_memory_assign ..).trans hother, ?_⟩
    rw [Heap.value?_assign_place]
    rfl
  · intro o₁ x₁ a v p g w b h' hx₁ hd hs hg hset o₂ x₂ hx₂ hne k
    have hfind := hp.find hx₁ hg hd
    rcases Heap.setIn_cases hset with ⟨_, rfl⟩ | ⟨_, i, hi, _, rfl⟩
    · exact ⟨rfl, fun _ _ => rfl⟩
    · refine ⟨Heap.find_memory_assign .., fun j hj => ?_⟩
      obtain ⟨c, u, q, _, _, rfl⟩ := hp.found hx₂ hj
      rw [hfind] at hi
      cases hi
      exact Heap.value?_assign_of_ne (Heap.keptItem_id_ne hne hs) _

namespace Kennel

/-- A dog, an animal of no further kind, and a text. -/
def pack : Heap :=
  { heap with
    registries := Table.empty.push (Registry.built (requests ++ further))
    objects := (heap.objects.push ⟨⟨0⟩, ⟨4⟩, dog, none, {}, none⟩).push
      ⟨⟨0⟩, ⟨0⟩, text, none, {}, none⟩ }

theorem pack_populated : pack.Populated ⟨0⟩ (requests ++ further) := by
  refine ⟨rfl, ?_⟩
  rintro ⟨n⟩ x hx
  have hlt : n < 3 := Table.lt_size_of_get? hx
  obtain rfl | rfl | rfl : n = 0 ∨ n = 1 ∨ n = 2 := by omega
  · cases hx
    exact ⟨rfl, _, rfl⟩
  · cases hx
    exact ⟨rfl, _, rfl⟩
  · cases hx
    exact ⟨rfl, _, rfl⟩

theorem owner_declared_by_animal (t : TypeRef)
    (ht : (Registry.built (requests ++ further)).isA t ⟨4⟩ = true) :
    (Registry.built (requests ++ further)).Declares t ⟨4⟩ .exposed owner :=
  ⟨ht, _, rfl, by decide⟩

end Kennel

/-- An owner given to the dog is the owner of the animal, a title given to it is not. -/
theorem owner_shared_title_apart :
    (∃ i, (∃ k, (Kennel.pack.view (Kennel.pack.memory ⟨0⟩)).find Kennel.pack k = some i) ∧
      (∃ k, (Kennel.pack.view (Kennel.pack.memory ⟨1⟩)).find Kennel.pack k = some i)) ∧
    (∃ h', Kennel.pack.setIn (Kennel.pack.view (Kennel.pack.memory ⟨0⟩)) "owner" ⟨2⟩ =
        .ok (true, h') ∧
      ∃ i, (h'.view (h'.memory ⟨1⟩)).find h' "owner" = some i ∧ h'.value? i.id = some ⟨2⟩) ∧
    ∃ h', Kennel.pack.setIn (Kennel.pack.view (Kennel.pack.memory ⟨0⟩)) "title" ⟨2⟩ =
        .ok (true, h') ∧
      ∀ k i, (Kennel.pack.view (Kennel.pack.memory ⟨1⟩)).find Kennel.pack k = some i →
        h'.value? i.id = Kennel.pack.value? i.id := by
  have hdog : (Registry.built (Kennel.requests ++ Kennel.further)).isA ⟨5⟩ ⟨4⟩ = true := by
    decide +kernel
  have hself : (Registry.built (Kennel.requests ++ Kennel.further)).isA ⟨4⟩ ⟨4⟩ = true :=
    reaches_refl _ _
  obtain ⟨hshared, hstatic, hown⟩ :=
    statics_shared_fields_apart _ Kennel.pack ⟨0⟩ Kennel.pack_populated
  refine ⟨⟨_, ((hshared ⟨0⟩ _ ⟨1⟩ _ rfl rfl (by decide)).1 _).mpr ⟨⟨4⟩, .exposed, Kennel.owner,
    Kennel.owner_declared_by_animal _ hdog, Kennel.owner_declared_by_animal _ hself, rfl, rfl⟩⟩,
    ?_, ?_⟩
  · obtain ⟨h', hset, hseen⟩ := hstatic ⟨0⟩ _ ⟨4⟩ .exposed Kennel.owner _ ⟨2⟩ rfl
      (Kennel.owner_declared_by_animal _ hdog) rfl rfl (.inl rfl) (by cbv)
    exact ⟨h', hset, hseen ⟨1⟩ _ rfl hself⟩
  · have hset : Kennel.pack.setIn (Kennel.pack.view (Kennel.pack.memory ⟨0⟩)) "title" ⟨2⟩ =
        .ok (true, Kennel.pack.assign (.field ⟨0⟩ .exposed "title") (some ⟨2⟩)) := by cbv
    refine ⟨_, hset, fun k i hi => ?_⟩
    exact (hown ⟨0⟩ _ ⟨4⟩ .exposed Kennel.title _ ⟨2⟩ _ _ rfl ⟨hdog, _, rfl, by decide⟩ rfl
      (.inl rfl) hset ⟨1⟩ _ rfl (by decide) k).2 i hi

end GuardedScript
