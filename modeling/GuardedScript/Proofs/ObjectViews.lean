import Mathlib.Data.List.Lattice
import Mathlib.Data.List.Pairwise
import GuardedScript.Proofs.Finality
import GuardedScript.Proofs.Views

/-!
What an object shows of its type. The items of an object are cut from all that its type has, the
statics from what each type declares itself; the two are tied together along the line of ancestors.
Each property of a type is declared once, by the type or by one ancestor, and is kept in one group:
the object's own if it is an instance property, that of the declaring type if it is static.
-/

namespace GuardedScript

open scoped List

section
variable {defs : List (TypeRef × Definition)} {a : TypeRef} {v w : Visibility} {p q : Property}

/-- The ancestors of a type are the concrete types that it is of. -/
theorem Lawful.mem_lineageIn (hl : Lawful defs) {e : TypeRef × ConcreteType} :
    e ∈ lineageIn defs a ↔
      reaches defs a e.1 = true ∧ definitionIn defs e.1 = some (.concrete e.2) := by
  constructor
  · intro he
    refine ⟨?_, hl.definitionIn_of_mem_lineageIn he⟩
    -- the parent is older than the type, so the induction is on the time of definition
    induction hn : ageIn defs a using Nat.strongRecOn generalizing a with
    | ind n ih =>
      by_cases hc : ∃ c, definitionIn defs a = some (.concrete c)
      · obtain ⟨c, hc⟩ := hc
        rw [hl.lineageIn_eq hc, List.mem_cons] at he
        rcases he with rfl | he
        · exact reaches_refl defs a
        · cases hp : c.parent with
          | none =>
            rw [hp] at he
            cases he
          | some b =>
            rw [hp] at he
            have hlink : b ∈ linksIn defs a := mem_linksIn hc (by simp [Definition.links, hp])
            have hlt := hl.link_older hlink
            have hup := ih (ageIn defs b) (by omega) he rfl
            exact (hl.reaches_step a e.1).mpr (.inr ⟨b, hlink, hup⟩)
      · rw [lineageIn_eq_nil (by simpa using hc)] at he
        cases he
  · rintro ⟨hr, he⟩
    rw [hl.reaches_iff] at hr
    induction hr using Relation.ReflTransGen.head_induction_on with
    | refl =>
      rw [hl.lineageIn_eq he]
      exact List.mem_cons_self
    | @head a next hlink hrest ih =>
      obtain ⟨k, hk⟩ := hl.concrete_of_reaches (hl.reaches_iff.mpr hrest) he
      obtain ⟨c, hc⟩ := hl.concrete_of_link hlink hk
      rw [linksIn, hc] at hlink
      rw [hl.lineageIn_eq hc]
      rcases List.mem_append.mp hlink with hcontract | hparent
      · obtain ⟨k', hk'⟩ := ConcreteType.Admitted.contracts (hl.admitted hc) next hcontract
        rw [hk] at hk'
        cases hk'
      · rw [Option.mem_toList.mp hparent]
        exact List.mem_cons_of_mem _ ih

/-- What the ancestors keep for themselves and what is left for each object is all of the type. -/
theorem instances_append_statics_perm (defs : List (TypeRef × Definition)) (a : TypeRef)
    (v : Visibility) :
    ((effectiveIn defs a v).filter (fun p => !p.flags.isStatic) ++
      (lineageIn defs a).flatMap fun e => e.2.statics v).Perm (effectiveIn defs a v) := by
  have hstatics : ((effectiveIn defs a v).filter fun p => p.flags.isStatic).Perm
      ((lineageIn defs a).flatMap fun e => e.2.statics v) := by
    rw [effectiveIn, List.filter_flatMap]
    exact (List.reverse_perm _).flatMap_right _
  refine List.perm_append_comm.trans ((hstatics.symm.append_right _).trans ?_)
  exact List.filter_append_perm (fun p : Property => p.flags.isStatic) _

/-- No key is declared twice along the line of ancestors. -/
theorem Lawful.declared_once (hl : Lawful defs) (ha : ∃ c, definitionIn defs a =
      some (.concrete c)) {e e' : TypeRef × ConcreteType} (he : e ∈ lineageIn defs a)
    (he' : e' ∈ lineageIn defs a) (hp : p ∈ e.2.declared v) (hq : q ∈ e'.2.declared w)
    (hk : p.key = q.key) : e = e' ∧ v = w ∧ p = q := by
  have hdistinct := hl.effectiveIn_distinct ha
  rw [List.map_append, List.nodup_append] at hdistinct
  obtain ⟨hexposed, hhidden, hapart⟩ := hdistinct
  have hpv : p ∈ effectiveIn defs a v := mem_effectiveIn.mpr ⟨e, he, hp⟩
  have hqw : q ∈ effectiveIn defs a w := mem_effectiveIn.mpr ⟨e', he', hq⟩
  have hkeys : ∀ v, ((effectiveIn defs a v).map Property.key).Nodup := by
    intro v
    cases v with
    | exposed => exact hexposed
    | hidden => exact hhidden
  have hvw : v = w := by
    cases v <;> cases w
    · rfl
    · exact absurd hk (hapart _ (List.mem_map_of_mem hpv) _ (List.mem_map_of_mem hqw))
    · exact absurd hk.symm (hapart _ (List.mem_map_of_mem hqw) _ (List.mem_map_of_mem hpv))
    · rfl
  subst hvw
  refine ⟨?_, rfl, List.inj_on_of_nodup_map (hkeys v) hpv hqw hk⟩
  have hparts : ((lineageIn defs a).reverse.flatMap fun e =>
      (e.2.declared v).map Property.key).Nodup := by
    rw [← List.map_flatMap]
    exact hkeys v
  have : Std.Symm (Function.onFun List.Disjoint fun e : TypeRef × ConcreteType =>
      (e.2.declared v).map Property.key) := ⟨fun _ _ h => h.symm⟩
  by_contra hne
  have hdisjoint := (List.nodup_flatMap.mp hparts).2.forall (List.mem_reverse.mpr he)
    (List.mem_reverse.mpr he') hne
  exact hdisjoint (List.mem_map_of_mem hp) (hk ▸ List.mem_map_of_mem hq)

end

namespace Registry

variable {r : Registry} {t a b : TypeRef} {v w : Visibility} {p q : Property}

/-- The property is declared by `a`, which is the type `t` itself or an ancestor of it. -/
def Declares (r : Registry) (t a : TypeRef) (v : Visibility) (p : Property) : Prop :=
  r.isA t a = true ∧ ∃ c, r.definition? a = some (.concrete c) ∧ p ∈ c.declared v

theorem Orderly.declares_iff (ho : r.Orderly) :
    r.Declares t a v p ↔ ∃ c, (a, c) ∈ r.lineage t ∧ p ∈ c.declared v := by
  constructor
  · rintro ⟨hr, c, hc, hp⟩
    exact ⟨c, ho.lawful.mem_lineageIn.mpr ⟨hr, hc⟩, hp⟩
  · rintro ⟨c, he, hp⟩
    obtain ⟨hr, hc⟩ := ho.lawful.mem_lineageIn.mp he
    exact ⟨hr, c, hc, hp⟩

theorem Orderly.mem_effective (ho : r.Orderly) :
    p ∈ r.effective t v ↔ ∃ a, r.Declares t a v p := by
  refine mem_effectiveIn.trans ⟨?_, ?_⟩
  · rintro ⟨⟨a, c⟩, he, hp⟩
    exact ⟨a, ho.declares_iff.mpr ⟨c, he, hp⟩⟩
  · rintro ⟨a, hd⟩
    obtain ⟨c, he, hp⟩ := ho.declares_iff.mp hd
    exact ⟨(a, c), he, hp⟩

theorem Orderly.declares_unique (ho : r.Orderly) (ht : r.IsConcrete t)
    (hp : r.Declares t a v p) (hq : r.Declares t b w q) (hk : p.key = q.key) :
    a = b ∧ v = w ∧ p = q := by
  obtain ⟨c, he, hp⟩ := ho.declares_iff.mp hp
  obtain ⟨d, he', hq⟩ := ho.declares_iff.mp hq
  obtain ⟨hsame, hvw, hpq⟩ := ho.lawful.declared_once ht he he' hp hq hk
  exact ⟨congrArg Prod.fst hsame, hvw, hpq⟩

theorem Orderly.staticProperties_eq (ho : r.Orderly) {e : TypeRef × ConcreteType}
    (he : e ∈ r.lineage t) (v : Visibility) : r.staticProperties e.1 v = e.2.statics v := by
  rw [staticProperties, definition?, ho.lawful.definitionIn_of_mem_lineageIn he]

/-- A type of a registry is as some declaration asked for it. -/
theorem built_asked {qs : List Request} {c : ConcreteType}
    (hc : (built qs).definition? t = some (.concrete c)) :
    ∃ d, .type d ∈ qs ∧ c = d.asked := by
  induction qs using List.reverseRecOn with
  | nil => cases hc
  | append_singleton qs q ih =>
    have earlier : (built qs).definition? t = some (.concrete c) →
        ∃ d, .type d ∈ qs ++ [q] ∧ c = d.asked := by
      intro hc
      obtain ⟨d, hd, hasked⟩ := ih hc
      exact ⟨d, List.mem_append_left _ hd, hasked⟩
    rw [built, List.foldl_concat, ← built] at hc
    rcases (built qs).after_cases q with ⟨r', t', hs, _, ha⟩ | ha
    · rw [ha, definition?, (serve_ok hs).2.2.2] at hc
      cases q with
      | declare name => exact earlier hc
      | contract d =>
        by_cases ht : t' = t
        · rw [ht] at hc
          simp [Request.asked, definitionIn] at hc
        · exact earlier ((definitionIn_of_ne ht).symm.trans hc)
      | type d =>
        by_cases ht : t' = t
        · rw [ht] at hc
          have hd : Definition.concrete d.asked = .concrete c :=
            Option.some.inj (definitionIn_self.symm.trans hc)
          cases hd
          exact ⟨d, List.mem_append_right _ (List.mem_singleton.mpr rfl), rfl⟩
        · exact earlier ((definitionIn_of_ne ht).symm.trans hc)
    · rw [ha] at hc
      exact earlier hc

end Registry

namespace Heap

variable {h : Heap} {o : ObjectId} {x : Object} {a : TypeRef} {v : Visibility} {p : Property}
variable {g : GroupId} {i : Item} {key : String}

/-- The group in which an object keeps a property that the type `a` declares. -/
def keeper (o : ObjectId) (r : RegistryId) (a : TypeRef) (v : Visibility) (p : Property) :
    GroupId :=
  if p.flags.isStatic then .statics r a v else .fields o v

/-- The item of an object for a property that the type `a` declares. -/
def keptItem (o : ObjectId) (r : RegistryId) (a : TypeRef) (v : Visibility) (p : Property) : Item :=
  if p.flags.isStatic then staticItem r a v p else fieldItem o v p

@[simp] theorem keptItem_property (o : ObjectId) (r : RegistryId) (a : TypeRef) (v : Visibility)
    (p : Property) : (keptItem o r a v p).property = p := by
  unfold keptItem
  split <;> rfl

theorem view_memory (h : Heap) (o : ObjectId) : h.view (h.memory o) = h.inside o := by
  rw [view, memory, Group.openWith, Group.openList_eq_map, List.map_map, inside]
  rfl

theorem view_exposedMemory (h : Heap) (o : ObjectId) :
    h.view (h.exposedMemory o) = h.outside o := by
  rw [view, exposedMemory, Group.openWith, Group.openList_eq_map, List.map_map, outside]
  rfl

theorem keys_linked (h : Heap) (ids : List GroupId) :
    (View.linked (ids.map .plain)).keys h = ids.flatMap fun g => (View.plain g).keys h := by
  rw [View.keys_eq, View.groups, View.groupsList_map_plain]
  rfl

theorem keys_fields (h : Heap) (o : ObjectId) (v : Visibility) :
    (View.plain (.fields o v)).keys h = h.fieldProperties o v := by
  simp [View.keys, items, fieldItem, Function.comp_def]

theorem keys_statics (h : Heap) (r : RegistryId) (t : TypeRef) (v : Visibility) :
    (View.plain (.statics r t v)).keys h = (h.registry r).staticProperties t v := by
  simp [View.keys, items, staticItem, Function.comp_def]

theorem mem_items_of_find (hf : h.find g key = some i) : i ∈ h.items g := by
  cases g with
  | fields o v =>
    obtain ⟨p, hp, rfl⟩ := Option.map_eq_some_iff.mp hf
    exact List.mem_map_of_mem (withKey_eq_some hp).1
  | statics r t v =>
    obtain ⟨p, hp, rfl⟩ := Option.map_eq_some_iff.mp hf
    exact List.mem_map_of_mem (withKey_eq_some hp).1
  | loose n =>
    obtain ⟨id, hid, hi⟩ := Option.bind_eq_some_iff.mp hf
    obtain ⟨c, hc, hget⟩ := Option.bind_eq_some_iff.mp hid
    rw [items, hc]
    exact List.mem_filterMap.mpr ⟨id, List.mem_map.mpr ⟨_, Assoc.mem_of_get? hget, rfl⟩, hi⟩

theorem mem_innerGroups (hx : h.object? o = some x) :
    g ∈ h.innerGroups o ↔ (∃ v, g = .fields o v) ∨
      ∃ e ∈ (h.registry x.registry).lineage x.type, ∃ v, g = .statics x.registry e.1 v := by
  simp only [innerGroups, hx, List.mem_cons, List.mem_flatMap, List.not_mem_nil, or_false]
  constructor
  · rintro (hg | hg | ⟨e, he, hg | hg⟩)
    · exact .inl ⟨_, hg⟩
    · exact .inl ⟨_, hg⟩
    · exact .inr ⟨e, he, _, hg⟩
    · exact .inr ⟨e, he, _, hg⟩
  · rintro (⟨v, hg⟩ | ⟨e, he, v, hg⟩)
    · cases v <;> simp [hg]
    · cases v <;> exact .inr (.inr ⟨e, he, by simp [hg]⟩)

section
variable (ho : (h.registry x.registry).Orderly) (hx : h.object? o = some x)
include ho hx

/-- What lies in the groups of an object: for each declared property its item, in the group that
keeps it. -/
theorem mem_items_inner : g ∈ h.innerGroups o ∧ i ∈ h.items g ↔
    ∃ a v p, (h.registry x.registry).Declares x.type a v p ∧ g = keeper o x.registry a v p ∧
      i = keptItem o x.registry a v p := by
  rw [mem_innerGroups hx]
  constructor
  · rintro ⟨⟨v, rfl⟩ | ⟨e, he, v, rfl⟩, hi⟩
    · obtain ⟨p, hp, rfl⟩ := List.mem_map.mp hi
      rw [fieldProperties_eq hx] at hp
      obtain ⟨hp, hs⟩ := List.mem_filter.mp hp
      obtain ⟨a, ha⟩ := ho.mem_effective.mp hp
      have hs : p.flags.isStatic = false := by simpa using hs
      exact ⟨a, v, p, ha, by simp [keeper, hs], by simp [keptItem, hs]⟩
    · obtain ⟨p, hp, rfl⟩ := List.mem_map.mp hi
      rw [ho.staticProperties_eq he] at hp
      obtain ⟨hp, hs⟩ := List.mem_filter.mp hp
      refine ⟨e.1, v, p, ho.declares_iff.mpr ⟨e.2, he, hp⟩, ?_, ?_⟩
      · exact (if_pos hs).symm
      · exact (if_pos hs).symm
  · rintro ⟨a, v, p, hd, rfl, rfl⟩
    unfold keeper keptItem
    cases hs : p.flags.isStatic with
    | false =>
      refine ⟨.inl ⟨v, rfl⟩, List.mem_map_of_mem ?_⟩
      rw [fieldProperties_eq hx]
      exact List.mem_filter.mpr ⟨ho.mem_effective.mpr ⟨a, hd⟩, by simp [hs]⟩
    | true =>
      obtain ⟨c, he, hp⟩ := ho.declares_iff.mp hd
      refine ⟨.inr ⟨(a, c), he, v, rfl⟩, List.mem_map_of_mem ?_⟩
      rw [ho.staticProperties_eq he]
      exact List.mem_filter.mpr ⟨hp, hs⟩

/-- An object keeps a declared property in one of its groups and in no other. -/
theorem listed_iff_keeper (hc : (h.registry x.registry).IsConcrete x.type)
    (hd : (h.registry x.registry).Declares x.type a v p) :
    g ∈ h.innerGroups o ∧ p ∈ (View.plain g).keys h ↔ g = keeper o x.registry a v p := by
  rw [View.keys]
  constructor
  · rintro ⟨hg, hp⟩
    obtain ⟨i, hi, rfl⟩ := List.mem_map.mp hp
    obtain ⟨b, w, q, hq, rfl, rfl⟩ := (mem_items_inner ho hx).mp ⟨hg, hi⟩
    rw [keptItem_property] at hd ⊢
    obtain ⟨rfl, rfl, _⟩ := ho.declares_unique hc hd hq rfl
    rfl
  · rintro rfl
    obtain ⟨hg, hi⟩ := (mem_items_inner ho hx).mpr ⟨a, v, p, hd, rfl, rfl⟩
    exact ⟨hg, List.mem_map.mpr ⟨_, hi, keptItem_property ..⟩⟩

omit hx in
theorem keys_statics_of_mem {e : TypeRef × ConcreteType}
    (he : e ∈ (h.registry x.registry).lineage x.type) (v : Visibility) :
    (View.plain (.statics x.registry e.1 v)).keys h = e.2.statics v := by
  rw [keys_statics, ho.staticProperties_eq he]

theorem keys_inside_perm : ((h.inside o).keys h).Perm
    ((h.registry x.registry).effective x.type .exposed ++
      (h.registry x.registry).effective x.type .hidden) := by
  let line := (h.registry x.registry).lineage x.type
  let own := (h.registry x.registry).instanceProperties x.type
  let shared (v : Visibility) := line.flatMap fun e => e.2.statics v
  have hall : (h.inside o).keys h = own .exposed ++ (own .hidden ++
      line.flatMap fun e => e.2.statics .exposed ++ e.2.statics .hidden) := by
    rw [inside, keys_linked, innerGroups, hx]
    simp only [List.flatMap_cons, keys_fields, fieldProperties_eq hx, List.flatMap_assoc]
    refine congrArg _ (congrArg _ (List.flatMap_congr fun e he => ?_))
    simp [keys_statics_of_mem ho he]
  have hsplit : (line.flatMap fun e => e.2.statics .exposed ++ e.2.statics .hidden).Perm
      (shared .exposed ++ shared .hidden) := (List.flatMap_append_perm ..).symm
  rw [hall]
  calc own .exposed ++ (own .hidden ++
        line.flatMap fun e => e.2.statics .exposed ++ e.2.statics .hidden)
    _ ~ own .exposed ++ (own .hidden ++ (shared .exposed ++ shared .hidden)) :=
      (hsplit.append_left _).append_left _
    _ ~ own .exposed ++ (shared .exposed ++ (own .hidden ++ shared .hidden)) :=
      (List.perm_append_comm_assoc ..).append_left _
    _ = (own .exposed ++ shared .exposed) ++ (own .hidden ++ shared .hidden) :=
      (List.append_assoc ..).symm
    _ ~ _ := (instances_append_statics_perm ..).append (instances_append_statics_perm ..)

theorem keys_outside_perm : ((h.outside o).keys h).Perm
    ((h.registry x.registry).effective x.type .exposed) := by
  have hall : (h.outside o).keys h = (h.registry x.registry).instanceProperties x.type .exposed ++
      ((h.registry x.registry).lineage x.type).flatMap fun e => e.2.statics .exposed := by
    rw [outside, keys_linked, outerGroups, hx]
    simp only [List.flatMap_cons, keys_fields, fieldProperties_eq hx, List.flatMap_map]
    exact congrArg _ (List.flatMap_congr fun e he => keys_statics_of_mem ho he .exposed)
  rw [hall]
  exact instances_append_statics_perm ..

end

end Heap

/-- Whatever was asked of a registry, an object of one of its types shows each property of the type
once: its memory lists all that the type has, exposed and hidden, and no key twice, and from outside
it lists what is exposed. A property is declared by one type, the object's own or an ancestor; it is
kept by the object if it is an instance property, by the declaring type if it is static, and by no
other group of the object. And what a type has is what its parent has, followed by what its own
declaration lists. -/
theorem views_partition_properties (qs : List Request) (h : Heap) (o : ObjectId) (x : Object)
    (hx : h.object? o = some x) (hr : h.registry x.registry = Registry.built qs)
    (hc : (Registry.built qs).IsConcrete x.type) :
    let r := Registry.built qs
    ((h.view (h.memory o)).keys h).Perm
      (r.effective x.type .exposed ++ r.effective x.type .hidden) ∧
    ((h.view (h.memory o)).keyNames h).Nodup ∧
    ((h.view (h.exposedMemory o)).keys h).Perm (r.effective x.type .exposed) ∧
    (∀ v, ∀ p ∈ r.effective x.type v, ∃! a, r.Declares x.type a v p) ∧
    (∀ a v p, r.Declares x.type a v p → ∀ g, g ∈ h.innerGroups o ∧ p ∈ (View.plain g).keys h ↔
      g = if p.flags.isStatic then .statics x.registry a v else .fields o v) ∧
    ∀ t, r.IsConcrete t → ∃ d : TypeDecl, .type d ∈ qs ∧
      r.definition? t = some (.concrete d.asked) ∧ ∀ v, r.effective t v =
        (d.parent.elim [] fun parent => r.effective parent v) ++ d.asked.declared v := by
  intro r
  have ho : r.Orderly := Registry.built_orderly qs
  have hox := ho
  rw [← show h.registry x.registry = r from hr] at hox
  have hperm := Heap.keys_inside_perm hox hx
  rw [hr] at hperm
  rw [Heap.view_memory, Heap.view_exposedMemory]
  refine ⟨hperm, ?_, ?_, ?_, ?_, ?_⟩
  · exact (hperm.map Property.key).nodup_iff.mpr (ho.lawful.effectiveIn_distinct hc)
  · have hout := Heap.keys_outside_perm hox hx
    rwa [hr] at hout
  · intro v p hp
    obtain ⟨a, ha⟩ := ho.mem_effective.mp hp
    exact ⟨a, ha, fun b hb => (ho.declares_unique hc hb ha rfl).1⟩
  · intro a v p hd g
    rw [← show h.registry x.registry = r from hr] at hd
    exact Heap.listed_iff_keeper hox hx (hr ▸ hc) hd
  · rintro t ⟨c, ht⟩
    obtain ⟨d, hd, rfl⟩ := Registry.built_asked ht
    exact ⟨d, hd, ht, fun v => ho.lawful.effectiveIn_eq ht v⟩

/-- A dog keeps its title and collar itself, and its owner with all animals. -/
theorem dog_shows_each_property_once :
    Kennel.heap.object? ⟨0⟩ = some ⟨⟨0⟩, ⟨5⟩, ⟨["Dog"], by decide, by decide⟩, none, {}, none⟩ ∧
    ((Kennel.heap.view (Kennel.heap.memory ⟨0⟩)).keys Kennel.heap).Perm
      ([Kennel.title, Kennel.owner] ++ [Kennel.collar]) ∧
    ((Kennel.heap.view (Kennel.heap.exposedMemory ⟨0⟩)).keys Kennel.heap).Perm
      [Kennel.title, Kennel.owner] ∧
    (∀ g, g ∈ Kennel.heap.innerGroups ⟨0⟩ ∧ Kennel.owner ∈ (View.plain g).keys Kennel.heap ↔
      g = .statics ⟨0⟩ ⟨4⟩ .exposed) ∧
    (∀ g, g ∈ Kennel.heap.innerGroups ⟨0⟩ ∧ Kennel.collar ∈ (View.plain g).keys Kennel.heap ↔
      g = .fields ⟨0⟩ .hidden) := by
  have hc : (Registry.built Kennel.requests).IsConcrete ⟨5⟩ := ⟨_, rfl⟩
  obtain ⟨hall, _, hout, _, hkept, _⟩ :=
    views_partition_properties Kennel.requests Kennel.heap ⟨0⟩ _ rfl rfl hc
  refine ⟨rfl, hall, hout, ?_, ?_⟩
  · exact hkept ⟨4⟩ .exposed Kennel.owner ⟨by cbv, _, rfl, by decide⟩
  · exact hkept ⟨5⟩ .hidden Kennel.collar ⟨by cbv, _, rfl, by decide⟩

end GuardedScript
