import Mathlib.Data.List.Induction
import GuardedScript.Proofs.Substitution

/-!
Definitions are final. A granted request changes one slot at most: a new last one, or one whose name
was still pending. Names are told apart, so a name leads to its slot and to no other. Whatever links
lead to from a defined type was defined before it, so all that is read off the type stays the same
in every later registry.
-/

namespace GuardedScript

namespace Request

def name : Request → Namespace
  | .declare name => name
  | .type d => d.name
  | .contract d => d.name

/-- The definition that a request asks for. -/
def asked : Request → Option Definition
  | .declare _ => none
  | .type d => some (.concrete d.asked)
  | .contract d => some (.contract ⟨d.properties.map (·.1), d.parents⟩)

end Request

namespace Registry

/-- The name stands at `t` with what was asked for it, at a new last place or where it was pending,
and all other slots are as they were. -/
structure Entered (r : Registry) (name : Namespace) (asked : Option Definition) (r' : Registry)
    (t : TypeRef) : Prop where
  place : t.index = r.size ∧ r'.size = r.size + 1 ∨
    r.slot? t = some ⟨name, none⟩ ∧ r'.size = r.size
  slot : r'.slot? t = some ⟨name, asked⟩
  others : ∀ u, u ≠ t → r'.slot? u = r.slot? u

/-- References keep their names, and a defined slot stays as it is. -/
def ExtendedBy (r r' : Registry) : Prop := ∀ u name d, r.slot? u = some ⟨name, d⟩ →
  ∃ d', r'.slot? u = some ⟨name, d'⟩ ∧ (d.isSome → d' = d)

variable {r r' : Registry} {q : Request} {t : TypeRef} {name : Namespace}

theorem slot?_eq_some {d : Option Definition} :
    r.slot? t = some ⟨name, d⟩ ↔ r.names[t.index]? = some name ∧ r.definition? t = d := by
  unfold slot?
  constructor
  · intro h
    obtain ⟨n, hn, he⟩ := Option.map_eq_some_iff.mp h
    cases he
    exact ⟨hn, rfl⟩
  · rintro ⟨hn, rfl⟩
    rw [hn]
    rfl

theorem slot?_eq_none : r.slot? t = none ↔ r.size ≤ t.index := by
  rw [slot?, Option.map_eq_none_iff, List.getElem?_eq_none_iff, size]

/-- What is granted was asked for a name that raised no problem, and is entered at its place. -/
theorem serve_ok (h : r.serve q = .ok (r', t)) :
    r.nameProblem q.name = none ∧ t = r.placeOf q.name ∧ r'.names = (r.withName q.name).names ∧
      r'.definitions = (q.asked.map (t, ·)).toList ++ r.definitions := by
  cases q with
  | declare name =>
    simp only [serve, declare] at h
    split at h <;> cases h
    next hp => exact ⟨hp, rfl, rfl, definitions_withName r name⟩
  | type d =>
    simp only [serve, defineType] at h
    split at h <;> cases h
    next hp => exact ⟨(typeDeclProblem_eq_none.mp hp).1, rfl, rfl, rfl⟩
  | contract d =>
    simp only [serve, defineContract] at h
    split at h <;> cases h
    next hp => exact ⟨(contractDeclProblem_eq_none.mp hp).1, rfl, rfl, rfl⟩

/-- A name leads to the slot that has it and to no other. -/
theorem Orderly.lookup_iff (ho : r.Orderly) :
    r.lookup name = some t ↔ ∃ d, r.slot? t = some ⟨name, d⟩ := by
  rw [ho.listed]
  constructor
  · intro h
    exact ⟨r.definition? t, slot?_eq_some.mpr ⟨h, rfl⟩⟩
  · rintro ⟨d, hd⟩
    exact (slot?_eq_some.mp hd).1

theorem Orderly.names_placeOf (ho : r.Orderly) :
    (r.withName name).names[(r.placeOf name).index]? = some name := by
  unfold Registry.withName placeOf
  cases hl : r.lookup name with
  | none => simp [size]
  | some t => exact ho.listed.mp hl

/-- The new name goes last, and all places before it keep theirs. -/
theorem names_of_ne_placeOf {u : TypeRef} (hu : u ≠ r.placeOf name) :
    (r.withName name).names[u.index]? = r.names[u.index]? := by
  unfold withName
  split
  · rfl
  · next hl =>
    have hne : u.index ≠ r.names.length := by
      intro h
      apply hu
      rw [placeOf, hl, Option.getD_none, size, ← h]
    rcases Nat.lt_or_ge u.index r.names.length with hlt | hge
    · exact List.getElem?_append_left hlt
    · rw [List.getElem?_eq_none hge, List.getElem?_eq_none]
      rw [List.length_append, List.length_singleton]
      omega

/-- A name without a problem is new and goes last, or it is pending. -/
theorem Orderly.placed_last_or_pending (ho : r.Orderly) (hp : r.nameProblem name = none) :
    (r.placeOf name).index = r.size ∧ (r.withName name).size = r.size + 1 ∨
      r.slot? (r.placeOf name) = some ⟨name, none⟩ ∧ (r.withName name).size = r.size := by
  have hfree := ho.free hp
  unfold Registry.withName
  cases hl : r.lookup name with
  | none =>
    left
    constructor
    · rw [placeOf, hl, Option.getD_none]
    · rw [size, List.length_append, List.length_singleton, size]
  | some t =>
    right
    rw [placeOf, hl, Option.getD_some] at hfree ⊢
    exact ⟨slot?_eq_some.mpr ⟨ho.listed.mp hl, hfree⟩, rfl⟩

theorem Orderly.entered (ho : r.Orderly) (h : r.serve q = .ok (r', t)) :
    r.Entered q.name q.asked r' t := by
  obtain ⟨hp, rfl, hnames, hdefs⟩ := serve_ok h
  constructor
  · have hsize : r'.size = (r.withName q.name).size := congrArg List.length hnames
    rw [hsize]
    exact ho.placed_last_or_pending hp
  · apply slot?_eq_some.mpr
    constructor
    · rw [hnames]
      exact ho.names_placeOf
    · rw [definition?, hdefs]
      cases hq : q.asked with
      | none => exact ho.free hp
      | some d => exact definitionIn_self
  · intro u hu
    have hd : r'.definition? u = r.definition? u := by
      rw [definition?, hdefs]
      cases hq : q.asked with
      | none => rfl
      | some d => exact definitionIn_of_ne (Ne.symm hu)
    rw [Registry.slot?, Registry.slot?, hd, hnames, names_of_ne_placeOf hu]

theorem Entered.extendedBy {asked : Option Definition} (he : r.Entered name asked r' t) :
    r.ExtendedBy r' := by
  intro u n d hu
  by_cases hut : u = t
  · subst hut
    rcases he.place with ⟨hlast, _⟩ | ⟨hpending, _⟩
    · rw [slot?_eq_none.mpr (Nat.le_of_eq hlast.symm)] at hu
      cases hu
    · rw [hpending] at hu
      cases hu
      exact ⟨asked, he.slot, fun h => nomatch h⟩
  · rw [← he.others u hut] at hu
    exact ⟨d, hu, fun _ => rfl⟩

theorem ExtendedBy.refl (r : Registry) : r.ExtendedBy r := fun _ _ d hu => ⟨d, hu, fun _ => rfl⟩

theorem ExtendedBy.trans {r'' : Registry} (h : r.ExtendedBy r') (h' : r'.ExtendedBy r'') :
    r.ExtendedBy r'' := by
  intro u n d hu
  obtain ⟨d', hu', hd'⟩ := h u n d hu
  obtain ⟨d'', hu'', hd''⟩ := h' u n d' hu'
  refine ⟨d'', hu'', fun hd => ?_⟩
  rw [hd'' (hd' hd ▸ hd), hd' hd]

/-- What one request does to a registry, granted or not. -/
theorem Orderly.step (ho : r.Orderly) (q : Request) : (r.after q).Orderly ∧
    r.ExtendedBy (r.after q) ∧ r.definitions <:+ (r.after q).definitions := by
  rcases r.after_cases q with ⟨r', t, hs, _, ha⟩ | ha
  · rw [ha]
    obtain ⟨ho', hd⟩ := ho.serve hs
    exact ⟨ho', (ho.entered hs).extendedBy, hd⟩
  · rw [ha]
    exact ⟨ho, .refl r, List.suffix_refl _⟩

/-- However many requests follow. -/
theorem Orderly.later (ho : r.Orderly) (qs : List Request) :
    (qs.foldl Registry.after r).Orderly ∧ r.ExtendedBy (qs.foldl Registry.after r) ∧
      r.definitions <:+ (qs.foldl Registry.after r).definitions := by
  induction qs generalizing r with
  | nil => exact ⟨ho, .refl r, List.suffix_refl _⟩
  | cons q qs ih =>
    obtain ⟨ho₁, hk₁, hd₁⟩ := ho.step q
    obtain ⟨ho₂, hk₂, hd₂⟩ := ih ho₁
    exact ⟨ho₂, hk₁.trans hk₂, hd₁.trans hd₂⟩

theorem Orderly.size_after_le (ho : r.Orderly) (hr : r.size ≤ capacity) (q : Request) :
    (r.after q).size ≤ capacity := by
  rcases r.after_cases q with ⟨r', t, hs, ht, ha⟩ | ha
  · rw [ha]
    rcases (ho.entered hs).place with ⟨hlast, hsize⟩ | ⟨_, hsize⟩
    · omega
    · omega
  · rwa [ha]

/-- A number that does not fit is that of a new name, when all others are taken. -/
theorem Orderly.full (ho : r.Orderly) (hr : r.size ≤ capacity) (hs : r.serve q = .ok (r', t))
    (ht : capacity ≤ t.index) : t.index = r.size ∧ r.size = capacity := by
  rcases (ho.entered hs).place with ⟨hlast, _⟩ | ⟨hpending, _⟩
  · omega
  · have hlt : t.index < r.size := by
      by_contra hge
      rw [slot?_eq_none.mpr (Nat.le_of_not_lt hge)] at hpending
      cases hpending
    omega

/-- There are never more names than numbers. -/
theorem built_size_le (qs : List Request) : (built qs).size ≤ capacity := by
  induction qs using List.reverseRecOn with
  | nil => exact Nat.zero_le _
  | append_singleton qs q ih =>
    rw [built, List.foldl_concat, ← built]
    exact (built_orderly qs).size_after_le ih q

section
variable (ho : r.Orderly) {a : TypeRef}
include ho

/-- What is read off the definition of a type is the same in every later registry. -/
theorem Orderly.later_stable {β : Type} (f : List (TypeRef × Definition) → TypeRef → β)
    (hf : ∀ {t d older a}, t ≠ a → f ((t, d) :: older) a = f older a)
    (ha : (r.definition? a).isSome) (qs : List Request) :
    f (qs.foldl Registry.after r).definitions a = f r.definitions a := by
  obtain ⟨ho', _, hd⟩ := ho.later qs
  exact stable_of_suffix f hf ho'.lawful hd ha

theorem Orderly.later_slot? (ha : (r.definition? a).isSome) (qs : List Request) :
    (qs.foldl Registry.after r).slot? a = r.slot? a := by
  obtain ⟨d, hd⟩ := Option.isSome_iff_exists.mp ha
  obtain ⟨name, hs⟩ := ho.slot? hd
  obtain ⟨d', hs', hsame⟩ := (ho.later qs).2.1 a name (some d) hs
  rw [hs', hs, hsame rfl]

theorem Orderly.later_contractProperties (ha : (r.definition? a).isSome) (qs : List Request) :
    (qs.foldl Registry.after r).contractProperties a = r.contractProperties a := by
  have hp := ho.later_stable promisesIn promisesIn_of_ne ha qs
  unfold promisesIn at hp
  rw [contractProperties, contractProperties, Registry.contract, Registry.contract,
    ho.later_slot? ha, hp]

/-- The ancestors of a defined type are defined as well, so their statics stay the same. -/
theorem Orderly.later_staticProperties {e : TypeRef × ConcreteType} (he : e ∈ r.lineage a)
    (v : Visibility) (qs : List Request) :
    (qs.foldl Registry.after r).staticProperties e.1 v = r.staticProperties e.1 v := by
  have hdef : r.definition? e.1 = some (.concrete e.2) :=
    ho.lawful.definitionIn_of_mem_lineageIn he
  have hsame := ho.later_stable definitionIn definitionIn_of_ne (by rw [hdef]; rfl) qs
  rw [staticProperties, staticProperties, definition?, hsame, definition?]

end

end Registry

/-- Whatever has been asked of a registry: a request that fails leaves it as it was, and it fails
for its first problem or because all numbers are taken. A granted one enters the name it was made
for, at a new last place or where the name was pending; all other slots stay as they are, so that no
definition is overwritten and every reference keeps its name. A name leads to the slot that has it
and to no other. Once a type is defined, what it is of, what it promises, what it has, its ancestors
and their statics are the same whatever is asked later. -/
theorem definitions_are_final (qs : List Request) :
    let r := Registry.built qs
    (∀ q r' e, r.ask q = (.error e, r') → r' = r ∧
      ((∃ p, e = .refused p ∧ r.serve q = .error p) ∨
        e = .full r.size ∧ r.size = Registry.capacity)) ∧
    (∀ q r' t, r.ask q = (.ok t, r') → r.Entered q.name q.asked r' t ∧ r.ExtendedBy r') ∧
    (∀ name t, r.lookup name = some t ↔ ∃ d, r.slot? t = some ⟨name, d⟩) ∧
    ∀ a, (r.definition? a).isSome → ∀ more : List Request,
      let later := more.foldl Registry.after r
      later.slot? a = r.slot? a ∧ (∀ b, later.isA a b = r.isA a b) ∧
      later.contractProperties a = r.contractProperties a ∧
      (∀ v, later.effective a v = r.effective a v) ∧ later.lineage a = r.lineage a ∧
      ∀ e ∈ r.lineage a, ∀ v, later.staticProperties e.1 v = r.staticProperties e.1 v := by
  intro r
  have ho : r.Orderly := Registry.built_orderly qs
  refine ⟨?_, ?_, ?_, ?_⟩
  · intro q r' e ha
    rcases r.ask_cases q with ⟨_, _, _, _, hok⟩ | ⟨p, hs, hp⟩ | ⟨r'', t, hs, ht, hfull⟩
    · cases ha.symm.trans hok
    · cases ha.symm.trans hp
      exact ⟨rfl, .inl ⟨p, rfl, hs⟩⟩
    · cases ha.symm.trans hfull
      have hsize := ho.full (Registry.built_size_le qs) hs ht
      exact ⟨rfl, .inr ⟨congrArg RequestError.full hsize.1, hsize.2⟩⟩
  · intro q r' t ha
    rcases r.ask_cases q with ⟨_, _, hs, _, hok⟩ | ⟨_, _, hp⟩ | ⟨_, _, _, _, hfull⟩
    · cases ha.symm.trans hok
      have he := ho.entered hs
      exact ⟨he, he.extendedBy⟩
    · cases ha.symm.trans hp
    · cases ha.symm.trans hfull
  · intro name t
    exact ho.lookup_iff
  · intro a ha more later
    refine ⟨ho.later_slot? ha more, ?_, ho.later_contractProperties ha more, ?_, ?_, ?_⟩
    · intro b
      exact ho.later_stable (fun defs a => reaches defs a b) reaches_of_ne ha more
    · intro v
      exact ho.later_stable (effectiveIn · · v) (effectiveIn_of_ne · v) ha more
    · exact ho.later_stable lineageIn lineageIn_of_ne ha more
    · intro e he v
      exact ho.later_staticProperties he v more

namespace Kennel

def name (s : String) (hs : s ≠ "") : Namespace :=
  ⟨[s], List.cons_ne_nil s [], List.forall_mem_singleton.mpr hs⟩

def text : Namespace := name "Text" (by decide)

def dog : Namespace := name "Dog" (by decide)

/-- The pending name gets a definition, and a subtype of a known type is added. -/
def further : List Request :=
  [.declare dog,
   .type { name := text, exposed := [⟨"next", ⟨0⟩, {}⟩] },
   .type { name := name "Puppy" (by decide), parent := some ⟨5⟩ }]

end Kennel

theorem text_entered_dog_unchanged :
    (∃ r, Kennel.registry.ask (.type { name := Kennel.text }) = (.ok ⟨0⟩, r) ∧
      Kennel.registry.slot? ⟨0⟩ = some ⟨Kennel.text, none⟩ ∧
      Kennel.registry.Entered Kennel.text (some (.concrete ⟨none, none, [], [], []⟩)) r ⟨0⟩) ∧
    (∃ r e, Kennel.registry.ask (.declare Kennel.dog) = (.error e, r) ∧ r = Kennel.registry) ∧
    (Kennel.registry.definition? ⟨5⟩).isSome ∧
    (Kennel.further.foldl Registry.after Kennel.registry).size = Kennel.registry.size + 1 ∧
    (Kennel.further.foldl Registry.after Kennel.registry).isA ⟨5⟩ ⟨1⟩ = true ∧
    (Kennel.further.foldl Registry.after Kennel.registry).effective ⟨5⟩ .exposed =
      [Kennel.title, Kennel.owner] := by
  obtain ⟨hfailed, hgranted, _, hlater⟩ := definitions_are_final Kennel.requests
  have hdog : (Kennel.registry.definition? ⟨5⟩).isSome := by decide
  have hasked : Kennel.registry.ask (.type { name := Kennel.text }) =
      (.ok ⟨0⟩, Kennel.registry.define Kennel.text (.concrete ⟨none, none, [], [], []⟩)) := by cbv
  have hknown : Kennel.registry.ask (.declare Kennel.dog) =
      (.error (.refused (.duplicateName Kennel.dog)), Kennel.registry) := by cbv
  obtain ⟨_, hisA, _, heffective, _, _⟩ := hlater ⟨5⟩ hdog Kennel.further
  refine ⟨⟨_, hasked, by cbv, (hgranted _ _ _ hasked).1⟩,
    ⟨_, _, hknown, (hfailed _ _ _ hknown).1⟩, hdog, by cbv, ?_, ?_⟩
  · exact (hisA ⟨1⟩).trans (by cbv)
  · exact (heffective .exposed).trans (by cbv)

end GuardedScript
