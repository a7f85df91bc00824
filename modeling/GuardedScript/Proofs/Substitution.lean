import Mathlib.Data.List.Nodup
import Mathlib.Data.List.Permutation
import GuardedScript.Proofs.Reach
import GuardedScript.Proofs.Survey

/-!
Substitution. What is promised of a type is kept by every concrete type below it, with the same key,
type and flags, and no other property of that type has the key. So an object can stand wherever one
of its supertypes is asked for: looking up a promised key finds an item with the promised property.
-/

namespace GuardedScript

/-- What can be relied on of a type: what a contract promises, the exposed properties of a concrete
type. -/
def Registry.promised (r : Registry) (t : TypeRef) : List Property :=
  match r.contractProperties t with
  | .ok ps => ps
  | .error _ => r.effective t .exposed

section
variable {defs : List (TypeRef × Definition)} {a b : TypeRef} {p q : Property}

theorem Lawful.effectiveIn_eq (hl : Lawful defs) {c : ConcreteType}
    (ha : definitionIn defs a = some (.concrete c)) (v : Visibility) :
    effectiveIn defs a v = fullIn defs c v := by
  rw [effectiveIn, hl.lineageIn_eq ha, fullIn]
  cases c.parent <;> simp [effectiveIn]

theorem Lawful.definitionIn_of_mem_lineageIn (hl : Lawful defs) {e : TypeRef × ConcreteType}
    (he : e ∈ lineageIn defs a) : definitionIn defs e.1 = some (.concrete e.2) := by
  induction hl generalizing a with
  | nil => cases he
  | @cons t d older hd ht ho ih =>
    have older_still : definitionIn older e.1 = some (.concrete e.2) →
        definitionIn ((t, d) :: older) e.1 = some (.concrete e.2) := by
      intro h
      rwa [definitionIn_of_ne (ne_of_defined ht (by rw [h]; rfl))]
    by_cases h : t = a
    · subst h
      cases d with
      | contract k => simp [lineageIn] at he
      | concrete c =>
        have he : e = (t, c) ∨ e ∈ c.parent.elim [] (lineageIn older) := by
          cases hp : c.parent <;> simpa [lineageIn, hp] using he
        rcases he with rfl | he
        · exact definitionIn_self
        · cases hp : c.parent with
          | none =>
            rw [hp] at he
            cases he
          | some p =>
            rw [hp] at he
            exact older_still (ih he)
    · rw [lineageIn_of_ne h] at he
      exact older_still (ih he)

theorem mem_effectiveIn {v : Visibility} :
    p ∈ effectiveIn defs a v ↔ ∃ e ∈ lineageIn defs a, p ∈ e.2.declared v := by
  simp [effectiveIn]

theorem Lawful.contract_of_reaches (hl : Lawful defs) (h : reaches defs a b = true) {k : Contract}
    (hk : definitionIn defs a = some (.contract k)) :
    ∃ k', definitionIn defs b = some (.contract k') := by
  rw [hl.reaches_iff] at h
  induction h with
  | refl => exact ⟨k, hk⟩
  | tail _ hlink ih =>
    obtain ⟨k', hk'⟩ := ih
    rw [linksIn, hk'] at hlink
    exact hl.admitted hk' _ hlink

/-- A contract promises all that the contracts it extends promise. -/
theorem Lawful.promisesIn_subset (hl : Lawful defs) (h : reaches defs a b = true) {k : Contract}
    (hk : definitionIn defs a = some (.contract k)) : promisesIn defs b ⊆ promisesIn defs a := by
  intro p hp
  obtain ⟨k', hk'⟩ := hl.contract_of_reaches h hk
  obtain ⟨c, kc, hbc, hc, hpc⟩ := (hl.mem_promisesIn hk').mp hp
  rw [hl.mem_promisesIn hk]
  refine ⟨c, kc, ?_, hc, hpc⟩
  rw [hl.reaches_iff] at h hbc ⊢
  exact h.trans hbc

theorem Lawful.effectiveIn_distinct (hl : Lawful defs) (ha : ∃ c, definitionIn defs a =
      some (.concrete c)) :
    ((effectiveIn defs a .exposed ++ effectiveIn defs a .hidden).map Property.key).Nodup := by
  obtain ⟨c, hc⟩ := ha
  rw [hl.effectiveIn_eq hc, hl.effectiveIn_eq hc]
  exact ConcreteType.Admitted.distinct (hl.admitted hc)

/-- The induction is on the links from the lower type upwards: one to a contract leads on to
contracts only, one to the parent is covered by what the parent keeps. -/
theorem Lawful.keeps_promises (hl : Lawful defs) (h : reaches defs a b = true)
    (ha : ∃ c, definitionIn defs a = some (.concrete c))
    (hp : (∃ k, definitionIn defs b = some (.contract k)) ∧ p ∈ promisesIn defs b ∨
      p ∈ effectiveIn defs b .exposed) : p ∈ effectiveIn defs a .exposed := by
  rw [hl.reaches_iff] at h
  induction h using Relation.ReflTransGen.head_induction_on with
  | refl =>
    obtain ⟨c, hc⟩ := ha
    rcases hp with ⟨⟨k, hk⟩, _⟩ | hp
    · rw [hk] at hc
      cases hc
    · exact hp
  | @head a next hlink hrest ih =>
    obtain ⟨c, hc⟩ := ha
    have hadm := hl.admitted hc
    rw [linksIn, hc] at hlink
    rw [hl.effectiveIn_eq hc]
    rcases List.mem_append.mp hlink with hk | hk
    · obtain ⟨k, hk'⟩ := ConcreteType.Admitted.contracts hadm next hk
      have hreach := hl.reaches_iff.mpr hrest
      obtain ⟨k', hkb⟩ := hl.contract_of_reaches hreach hk'
      have hp : p ∈ promisesIn defs b := by
        rcases hp with ⟨_, hp⟩ | hp
        · exact hp
        · rw [effectiveIn, lineageIn_eq_nil (by simp [hkb])] at hp
          cases hp
      exact ConcreteType.Admitted.fulfilled hadm next hk p (hl.promisesIn_subset hreach hk' hp)
    · have hk : c.parent = some next := Option.mem_toList.mp hk
      have hup := ih (ConcreteType.Admitted.parent hadm next hk)
      rw [fullIn, hk]
      exact List.mem_append_left _ hup

end

theorem filter_key_eq_singleton {ps : List Property} {p : Property}
    (hn : (ps.map Property.key).Nodup) (hp : p ∈ ps) : ps.filter (·.key = p.key) = [p] := by
  induction ps with
  | nil => cases hp
  | cons q ps ih =>
    rw [List.map_cons, List.nodup_cons] at hn
    by_cases hq : q.key = p.key
    · have absent : ∀ p' ∈ ps, ¬ p'.key = p.key := by
        intro p' hp' h
        exact hn.1 (List.mem_map.mpr ⟨p', hp', h.trans hq.symm⟩)
      have hpq : p = q := by
        rcases List.mem_cons.mp hp with h | h
        · exact h
        · exact absurd rfl (absent p h)
      rw [List.filter_cons_of_pos (by simpa using hq), hpq, List.filter_eq_nil_iff.mpr]
      intro p' hp'
      simpa [hpq] using absent p' hp'
    · have hp : p ∈ ps := by
        rcases List.mem_cons.mp hp with rfl | h
        · exact absurd rfl hq
        · exact h
      simpa [hq] using ih hn.2 hp

theorem View.findFirst_map_plain (h : Heap) (key : String) (ids : List GroupId) :
    View.findFirst h key (ids.map .plain) = ids.findSome? fun g => h.find g key := by
  induction ids with
  | nil => rfl
  | cons g ids ih =>
    rw [List.map_cons, View.findFirst, View.find, ih, List.findSome?_cons]
    cases h.find g key <;> rfl

namespace Heap

variable {h : Heap} {o : ObjectId} {x : Object} {key : String} {i : Item}

theorem withKey_isSome_of_mem {ps : List Property} {p : Property} (hp : p ∈ ps) :
    (withKey p.key ps).isSome := by
  rw [withKey_isSome, List.any_eq_true]
  exact ⟨p, hp, decide_eq_true rfl⟩

theorem fieldProperties_eq (hx : h.object? o = some x) (v : Visibility) :
    h.fieldProperties o v = (h.registry x.registry).instanceProperties x.type v := by
  rw [fieldProperties, hx]

theorem outside_find (hx : h.object? o = some x) :
    (h.outside o).find h key = (Heap.find h (.fields o .exposed) key).or
      (((h.registry x.registry).lineage x.type).findSome? fun e =>
        h.find (.statics x.registry e.1 .exposed) key) := by
  rw [outside, outerGroups, hx, View.find, View.findFirst_map_plain, List.findSome?_cons,
    List.findSome?_map]
  cases Heap.find h (.fields o .exposed) key <;> rfl

variable (ho : (h.registry x.registry).Orderly)
include ho

/-- Whatever is found on an object from outside is one of its type's exposed properties. -/
theorem outside_find_property (hx : h.object? o = some x)
    (hi : (h.outside o).find h key = some i) :
    i.key = key ∧ i.property ∈ (h.registry x.registry).effective x.type .exposed := by
  rw [outside_find hx, Option.or_eq_some_iff] at hi
  rcases hi with hi | ⟨_, hi⟩
  · obtain ⟨p, hp, rfl⟩ := Option.map_eq_some_iff.mp hi
    obtain ⟨hmem, hkey⟩ := withKey_eq_some hp
    rw [fieldProperties_eq hx] at hmem
    exact ⟨hkey, List.mem_of_mem_filter hmem⟩
  · obtain ⟨e, he, hi⟩ := List.exists_of_findSome?_eq_some hi
    obtain ⟨p, hp, rfl⟩ := Option.map_eq_some_iff.mp hi
    obtain ⟨hmem, hkey⟩ := withKey_eq_some hp
    have hdef := ho.lawful.definitionIn_of_mem_lineageIn he
    rw [Registry.staticProperties, Registry.definition?, hdef] at hmem
    exact ⟨hkey, mem_effectiveIn.mpr ⟨e, he, List.mem_of_mem_filter hmem⟩⟩

/-- An exposed property is kept by the object or, if static, by the type that declares it. -/
theorem outside_find_isSome (hx : h.object? o = some x) {p : Property}
    (hp : p ∈ (h.registry x.registry).effective x.type .exposed) :
    ((h.outside o).find h p.key).isSome := by
  rw [outside_find hx, Option.isSome_or, Bool.or_eq_true]
  cases hs : p.flags.isStatic with
  | false =>
    left
    rw [Heap.find, fieldProperties_eq hx, Option.isSome_map]
    exact withKey_isSome_of_mem (List.mem_filter.mpr ⟨hp, by simp [hs]⟩)
  | true =>
    right
    obtain ⟨e, he, hpe⟩ := mem_effectiveIn.mp hp
    have hdef := ho.lawful.definitionIn_of_mem_lineageIn he
    rw [List.findSome?_isSome_iff]
    refine ⟨e, he, ?_⟩
    rw [Heap.find, Registry.staticProperties, Registry.definition?, hdef, Option.isSome_map]
    exact withKey_isSome_of_mem (List.mem_filter.mpr ⟨hpe, hs⟩)

theorem outside_find_exposed (hx : h.object? o = some x)
    (hc : (h.registry x.registry).IsConcrete x.type) {p : Property}
    (hp : p ∈ (h.registry x.registry).effective x.type .exposed) :
    ∃ i, (h.outside o).find h p.key = some i ∧ i.property = p := by
  obtain ⟨i, hi⟩ := Option.isSome_iff_exists.mp (outside_find_isSome ho hx hp)
  obtain ⟨hkey, hmem⟩ := outside_find_property ho hx hi
  have hdistinct := ho.lawful.effectiveIn_distinct hc
  rw [List.map_append, List.nodup_append] at hdistinct
  exact ⟨i, hi, List.inj_on_of_nodup_map hdistinct.1 hmem hp hkey⟩

end Heap

theorem Registry.Orderly.keeps_promised {r : Registry} (ho : r.Orderly) {s t : TypeRef}
    (hs : r.IsConcrete s) (h : r.isA s t = true) {p : Property} (hp : p ∈ r.promised t) :
    p ∈ r.effective s .exposed := by
  apply ho.lawful.keeps_promises h hs
  unfold Registry.promised Registry.contractProperties at hp
  cases hc : r.contract t with
  | ok e =>
    rw [hc] at hp
    exact .inl ⟨⟨e.2, Registry.contract_eq_ok hc⟩, hp⟩
  | error e =>
    rw [hc] at hp
    exact .inr hp

/-- Whatever is asked of a registry, a concrete type keeps each promise of every type it is of: the
very property is among its exposed ones, it is the only one of all its properties with that key, and
on every object of the type the key leads from outside to an item with that property. -/
theorem subtypes_keep_promises (qs : List Request) (s t : TypeRef)
    (hs : (Registry.built qs).IsConcrete s) (hst : (Registry.built qs).isA s t = true) :
    let r := Registry.built qs
    ∀ p ∈ r.promised t,
      p ∈ r.effective s .exposed ∧
      (r.effective s .exposed ++ r.effective s .hidden).filter (·.key = p.key) = [p] ∧
      ∀ (h : Heap) (o : ObjectId) (x : Object), h.object? o = some x →
        h.registry x.registry = r → x.type = s →
        ∃ i, (h.outside o).find h p.key = some i ∧ i.property = p := by
  intro r p hp
  have ho : r.Orderly := Registry.built_orderly qs
  have hs : r.IsConcrete s := hs
  have hmem : p ∈ r.effective s .exposed := ho.keeps_promised hs hst hp
  refine ⟨hmem, ?_, ?_⟩
  · exact filter_key_eq_singleton (ho.lawful.effectiveIn_distinct hs)
      (List.mem_append_left _ hmem)
  · intro h o x hx hr hxs
    subst hxs
    rw [← hr] at ho hs hmem
    exact Heap.outside_find_exposed ho hx hs hmem

namespace Kennel

def title : Property := ⟨"title", ⟨0⟩, {}⟩
def owner : Property := ⟨"owner", ⟨0⟩, { isStatic := true }⟩
def collar : Property := ⟨"collar", ⟨0⟩, {}⟩

/-- Two contracts extend a third, whose property the type that supports them keeps as a static. -/
def requests : List Request :=
  [.declare ⟨["Text"], by decide, by decide⟩,
   .contract { name := ⟨["Owned"], by decide, by decide⟩, properties := [(owner, .exposed)] },
   .contract { name := ⟨["Tracked"], by decide, by decide⟩, parents := [⟨1⟩] },
   .contract { name := ⟨["Insured"], by decide, by decide⟩, properties := [(title, .exposed)],
               parents := [⟨1⟩] },
   .type { name := ⟨["Animal"], by decide, by decide⟩, contracts := [⟨2⟩, ⟨3⟩],
           exposed := [title, owner] },
   .type { name := ⟨["Dog"], by decide, by decide⟩, parent := some ⟨4⟩, hidden := [collar] }]

def registry : Registry := Registry.built requests

def heap : Heap :=
  { registries := Table.empty.push registry
    statics := {}
    objects := Table.empty.push ⟨⟨0⟩, ⟨5⟩, ⟨["Dog"], by decide, by decide⟩, none, {}, none⟩
    cells := {}
    groups := {}
    layered := {} }

end Kennel

theorem dog_keeps_promise_of_owned :
    (Registry.built Kennel.requests).isA ⟨5⟩ ⟨1⟩ = true ∧
    Kennel.owner ∈ (Registry.built Kennel.requests).promised ⟨1⟩ ∧
    (Kennel.registry.effective ⟨5⟩ .exposed ++ Kennel.registry.effective ⟨5⟩ .hidden).filter
      (·.key = Kennel.owner.key) = [Kennel.owner] ∧
    ∃ i, (Kennel.heap.outside ⟨0⟩).find Kennel.heap "owner" = some i ∧
      i.property = Kennel.owner := by
  have hs : (Registry.built Kennel.requests).IsConcrete ⟨5⟩ := ⟨_, rfl⟩
  have hst : (Registry.built Kennel.requests).isA ⟨5⟩ ⟨1⟩ = true := by cbv
  have hp : Kennel.owner ∈ (Registry.built Kennel.requests).promised ⟨1⟩ := by decide
  obtain ⟨_, hone, hfind⟩ := subtypes_keep_promises Kennel.requests ⟨5⟩ ⟨1⟩ hs hst _ hp
  exact ⟨hst, hp, hone, hfind Kennel.heap ⟨0⟩ _ rfl rfl rfl⟩

end GuardedScript
