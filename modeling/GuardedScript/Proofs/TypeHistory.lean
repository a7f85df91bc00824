import GuardedScript.Registry.Define

/-!
How a registry comes about. Requests are served one after the other; one that is not granted leaves
no trace, and a definition is entered only on top of the definitions it refers to.
-/

namespace GuardedScript

namespace Registry

/-- The registry after a request, whether it was granted or not. -/
def after (r : Registry) (q : Request) : Registry := (r.ask q).2

/-- The registry that a series of requests makes of an empty one. -/
def built (qs : List Request) : Registry := qs.foldl after {}

def IsConcrete (r : Registry) (t : TypeRef) : Prop := ∃ c, r.definition? t = some (.concrete c)

end Registry

/-- The properties of a concrete type, those of its ancestors first. -/
def effectiveIn (defs : List (TypeRef × Definition)) (t : TypeRef) (v : Visibility) :
    List Property :=
  (lineageIn defs t).reverse.flatMap fun (_, c) => c.declared v

/-- The properties of a concrete type that is defined on top of older definitions. -/
def fullIn (older : List (TypeRef × Definition)) (c : ConcreteType) (v : Visibility) :
    List Property :=
  (c.parent.elim [] fun p => effectiveIn older p v) ++ c.declared v

def promisesIn (defs : List (TypeRef × Definition)) (k : TypeRef) : List Property :=
  (surveyIn defs k ⟨[], []⟩).properties

section
variable (older : List (TypeRef × Definition))

/-- What has been checked of a type when it is entered. -/
structure ConcreteType.Admitted (c : ConcreteType) : Prop where
  parent : ∀ p ∈ c.parent, ∃ k, definitionIn older p = some (.concrete k)
  contracts : ∀ p ∈ c.contracts, ∃ k, definitionIn older p = some (.contract k)
  distinct : ((fullIn older c .exposed ++ fullIn older c .hidden).map Property.key).Nodup
  fulfilled : ∀ k ∈ c.contracts, ∀ p ∈ promisesIn older k, p ∈ fullIn older c .exposed

def Definition.Admitted : Definition → Prop
  | .concrete c => c.Admitted older
  | .contract k => ∀ p ∈ k.parents, ∃ k', definitionIn older p = some (.contract k')

end

/-- Every place is defined once, on top of older definitions that admit it. -/
inductive Lawful : List (TypeRef × Definition) → Prop where
  | nil : Lawful []
  | cons {t d older} (hd : d.Admitted older) (ht : definitionIn older t = none)
      (ho : Lawful older) : Lawful ((t, d) :: older)

/-- The definitions are lawful, each stands at a place with a name, and the table leads from the
names to their places. -/
structure Registry.Orderly (r : Registry) : Prop where
  lawful : Lawful r.definitions
  placed : ∀ {t d}, r.definition? t = some d → t.index < r.size
  listed : ∀ {name t}, r.lookup name = some t ↔ r.names[t.index]? = some name

section
variable {older defs : List (TypeRef × Definition)} {t a : TypeRef} {d : Definition}

theorem definitionIn_self : definitionIn ((t, d) :: older) t = some d := if_pos rfl

theorem definitionIn_of_ne (h : t ≠ a) :
    definitionIn ((t, d) :: older) a = definitionIn older a := if_neg h

theorem lineageIn_of_ne (h : t ≠ a) : lineageIn ((t, d) :: older) a = lineageIn older a := by
  cases d <;> simp only [lineageIn, if_neg h]

theorem effectiveIn_of_ne (h : t ≠ a) (v : Visibility) :
    effectiveIn ((t, d) :: older) a v = effectiveIn older a v := by
  rw [effectiveIn, lineageIn_of_ne h, effectiveIn]

theorem surveyIn_of_ne (h : t ≠ a) (s : Survey) :
    surveyIn ((t, d) :: older) a s = surveyIn older a s := by
  cases d <;> simp only [surveyIn, if_neg h]

theorem promisesIn_of_ne (h : t ≠ a) :
    promisesIn ((t, d) :: older) a = promisesIn older a := by
  rw [promisesIn, surveyIn_of_ne h, promisesIn]

theorem ne_of_defined (ht : definitionIn older t = none) (ha : (definitionIn older a).isSome) :
    t ≠ a := by
  intro h
  rw [← h, ht] at ha
  cases ha

theorem Definition.Admitted.link_defined (hd : d.Admitted older) {b : TypeRef}
    (hb : b ∈ d.links) : (definitionIn older b).isSome := by
  cases d with
  | concrete c =>
    rcases List.mem_append.mp hb with hb | hb
    · obtain ⟨k, hk⟩ := hd.contracts b hb
      rw [hk]
      rfl
    · obtain ⟨k, hk⟩ := hd.parent b (Option.mem_toList.mp hb)
      rw [hk]
      rfl
  | contract k =>
    obtain ⟨k', hk⟩ := hd b hb
    rw [hk]
    rfl

theorem fullIn_cons {c : ConcreteType} (ht : definitionIn older t = none)
    (hp : ∀ p ∈ c.parent, (definitionIn older p).isSome) (v : Visibility) :
    fullIn ((t, d) :: older) c v = fullIn older c v := by
  cases hc : c.parent with
  | none => simp [fullIn, hc]
  | some p =>
    have hne := ne_of_defined ht (hp p hc)
    simp [fullIn, hc, effectiveIn_of_ne hne]

/-- What admits a definition still does when another place is defined. -/
theorem Definition.Admitted.cons {e : Definition} (he : e.Admitted older)
    (ht : definitionIn older t = none) : e.Admitted ((t, d) :: older) := by
  have still : ∀ {a f}, definitionIn older a = some f →
      definitionIn ((t, d) :: older) a = some f := by
    intro a f ha
    rwa [definitionIn_of_ne (ne_of_defined ht (by rw [ha]; rfl))]
  cases e with
  | contract k =>
    intro p hp
    obtain ⟨k', hk⟩ := he p hp
    exact ⟨k', still hk⟩
  | concrete c =>
    have hfull : ∀ v, fullIn ((t, d) :: older) c v = fullIn older c v := by
      intro v
      apply fullIn_cons ht
      intro p hp
      obtain ⟨k, hk⟩ := ConcreteType.Admitted.parent he p hp
      rw [hk]
      rfl
    constructor
    · intro p hp
      obtain ⟨k, hk⟩ := ConcreteType.Admitted.parent he p hp
      exact ⟨k, still hk⟩
    · intro p hp
      obtain ⟨k, hk⟩ := ConcreteType.Admitted.contracts he p hp
      exact ⟨k, still hk⟩
    · rw [hfull, hfull]
      exact ConcreteType.Admitted.distinct he
    · intro k hk
      obtain ⟨k', hk'⟩ := ConcreteType.Admitted.contracts he k hk
      rw [promisesIn_of_ne (ne_of_defined ht (by rw [hk']; rfl)), hfull]
      exact ConcreteType.Admitted.fulfilled he k hk

theorem Lawful.admitted (hl : Lawful defs) (ha : definitionIn defs a = some d) :
    d.Admitted defs := by
  induction hl with
  | nil => cases ha
  | @cons t e older hd ht ho ih =>
    by_cases h : t = a
    · rw [h, definitionIn_self] at ha
      cases ha
      exact hd.cons ht
    · rw [definitionIn_of_ne h] at ha
      exact (ih ha).cons ht

theorem definitionIn_suffix (hl : Lawful defs) (hs : older <:+ defs)
    (ha : definitionIn older a = some d) : definitionIn defs a = some d := by
  induction hl with
  | nil =>
    rw [List.suffix_nil.mp hs] at ha
    exact ha
  | @cons t e rest hd ht ho ih =>
    rcases List.suffix_cons_iff.mp hs with rfl | hs
    · exact ha
    · have hr := ih hs
      rw [definitionIn_of_ne (ne_of_defined ht (by rw [hr]; rfl)), hr]

/-- What is read off the definitions of a place stays the same when others are added. -/
theorem stable_of_suffix {β : Type} (f : List (TypeRef × Definition) → TypeRef → β)
    (hf : ∀ {t d older a}, t ≠ a → f ((t, d) :: older) a = f older a) (hl : Lawful defs)
    (hs : older <:+ defs) (ha : (definitionIn older a).isSome) : f defs a = f older a := by
  induction hl with
  | nil => rw [List.suffix_nil.mp hs]
  | @cons t e rest hd ht ho ih =>
    rcases List.suffix_cons_iff.mp hs with rfl | hs
    · rfl
    · obtain ⟨d, hd⟩ := Option.isSome_iff_exists.mp ha
      have hr := definitionIn_suffix ho hs hd
      rw [hf (ne_of_defined ht (by rw [hr]; rfl)), ih hs]

end

theorem repeatedKeys_eq_nil {seen ks : List String} :
    repeatedKeys seen [] ks = [] ↔ ks.Nodup ∧ ∀ k ∈ ks, k ∉ seen := by
  induction ks generalizing seen with
  | nil => simp [repeatedKeys]
  | cons k ks ih =>
    by_cases hk : k ∈ seen
    · simp [repeatedKeys, hk]
    · simp only [repeatedKeys, hk, false_and, if_false, ih, List.nodup_cons, List.mem_cons,
        not_or, forall_eq_or_imp, not_false_eq_true, true_and]
      constructor
      · rintro ⟨hn, hs⟩
        exact ⟨⟨fun hm => (hs k hm).1 rfl, hn⟩, fun j hj => (hs j hj).2⟩
      · rintro ⟨⟨hm, hn⟩, hs⟩
        refine ⟨hn, fun j hj => ⟨?_, hs j hj⟩⟩
        rintro rfl
        exact hm hj

namespace Registry

variable {r r' : Registry}

theorem slot?_definition {t : TypeRef} {name : Namespace} {d : Option Definition}
    (h : r.slot? t = some ⟨name, d⟩) : r.definition? t = d := by
  obtain ⟨_, _, he⟩ := Option.map_eq_some_iff.mp h
  cases he
  rfl

theorem Orderly.slot? (ho : r.Orderly) {t : TypeRef} {d : Definition}
    (h : r.definition? t = some d) : ∃ name, r.slot? t = some ⟨name, some d⟩ := by
  have hlt : t.index < r.names.length := ho.placed h
  refine ⟨r.names[t.index], ?_⟩
  rw [Registry.slot?, List.getElem?_eq_getElem hlt, h]
  rfl

theorem concrete_eq_ok {t : TypeRef} {name : Namespace} {c : ConcreteType}
    (h : r.concrete t = .ok (name, c)) : r.definition? t = some (.concrete c) := by
  unfold Registry.concrete at h
  split at h <;> cases h
  next hs => exact slot?_definition hs

theorem contract_eq_ok {t : TypeRef} {name : Namespace} {c : Contract}
    (h : r.contract t = .ok (name, c)) : r.definition? t = some (.contract c) := by
  unfold Registry.contract at h
  split at h <;> cases h
  next hs => exact slot?_definition hs

theorem Orderly.concrete (ho : r.Orderly) {t : TypeRef} {c : ConcreteType}
    (h : r.definition? t = some (.concrete c)) : ∃ name, r.concrete t = .ok (name, c) := by
  obtain ⟨name, hs⟩ := ho.slot? h
  exact ⟨name, by rw [Registry.concrete, hs]⟩

theorem Orderly.contract (ho : r.Orderly) {t : TypeRef} {c : Contract}
    (h : r.definition? t = some (.contract c)) : ∃ name, r.contract t = .ok (name, c) := by
  obtain ⟨name, hs⟩ := ho.slot? h
  exact ⟨name, by rw [Registry.contract, hs]⟩

theorem concreteProblem_eq_none {t : TypeRef} (h : r.concreteProblem t = none) :
    ∃ c, r.definition? t = some (.concrete c) := by
  unfold concreteProblem at h
  split at h
  · next e he => exact ⟨e.2, concrete_eq_ok he⟩
  · cases h

theorem contractProblem_eq_none {t : TypeRef} (h : r.contractProblem t = none) :
    ∃ c, r.definition? t = some (.contract c) := by
  unfold contractProblem at h
  split at h
  · next e he => exact ⟨e.2, contract_eq_ok he⟩
  · cases h

theorem typeDeclProblem_eq_none {d : TypeDecl} : r.typeDeclProblem d = none ↔
    r.nameProblem d.name = none ∧ d.parent.bind r.concreteProblem = none ∧
      d.contracts.findSome? r.contractProblem = none ∧
      (d.exposed ++ d.hidden).findSome? (r.propertyProblem d.name) = none ∧
      r.repetitionProblem d = none ∧ r.fulfilmentProblem d = none := by
  simp only [typeDeclProblem, Option.orElse_eq_orElse, Option.orElse_eq_or, Option.or_eq_none_iff]

theorem contractDeclProblem_eq_none {d : ContractDecl} : r.contractDeclProblem d = none ↔
    r.nameProblem d.name = none ∧ hiddenProblem d = none ∧
      d.parents.findSome? r.contractProblem = none ∧
      d.properties.findSome? (fun (p, _) => r.typeProblem p.type) = none := by
  simp only [contractDeclProblem, Option.orElse_eq_orElse, Option.orElse_eq_or,
    Option.or_eq_none_iff]

theorem repetitionProblem_eq_none {d : TypeDecl} (h : r.repetitionProblem d = none) :
    ((r.wouldHave d .exposed ++ r.wouldHave d .hidden).map Property.key).Nodup := by
  unfold repetitionProblem at h
  split at h
  · next hk => exact (repeatedKeys_eq_nil.mp hk).1
  · cases h

theorem fulfilmentProblem_eq_none {d : TypeDecl} (h : r.fulfilmentProblem d = none) :
    ∀ k ∈ d.contracts, r.absentFrom (r.wouldHave d .exposed) k = [] := by
  simp only [fulfilmentProblem] at h
  split at h
  · next hf =>
    intro k hk
    have hn := List.filter_eq_nil_iff.mp hf k hk
    simpa using hn
  · cases h

theorem absentFrom_eq_nil {exposed : List Property} {k : TypeRef} {c : Contract}
    (ho : r.Orderly) (hk : r.definition? k = some (.contract c))
    (h : r.absentFrom exposed k = []) : ∀ p ∈ promisesIn r.definitions k, p ∈ exposed := by
  obtain ⟨name, hc⟩ := ho.contract hk
  simp only [absentFrom, contractProperties, hc, List.map_eq_nil_iff] at h
  intro p hp
  have hn := List.filter_eq_nil_iff.mp h p hp
  simpa using hn

end Registry

/-- The type that a declaration asks for. -/
def TypeDecl.asked (d : TypeDecl) : ConcreteType :=
  ⟨d.binding, d.parent, d.contracts, d.exposed, d.hidden⟩

namespace Registry

variable {r r' : Registry}

theorem wouldHave_eq (d : TypeDecl) (v : Visibility) :
    r.wouldHave d v = fullIn r.definitions d.asked v := by
  cases v <;> rfl

theorem Orderly.admits_type (ho : r.Orderly) {d : TypeDecl} (h : r.typeDeclProblem d = none) :
    (Definition.concrete d.asked).Admitted r.definitions := by
  obtain ⟨_, hparent, hcontracts, _, hrepeat, hfulfil⟩ := typeDeclProblem_eq_none.mp h
  have hlisted : ∀ k ∈ d.contracts, ∃ c, r.definition? k = some (.contract c) := fun k hk =>
    contractProblem_eq_none (List.findSome?_eq_none_iff.mp hcontracts k hk)
  constructor
  · intro p hp
    have hp : d.parent = some p := hp
    rw [hp, Option.bind_some] at hparent
    exact concreteProblem_eq_none hparent
  · exact hlisted
  · have hn := repetitionProblem_eq_none hrepeat
    rwa [wouldHave_eq, wouldHave_eq] at hn
  · intro k hk
    obtain ⟨c, hc⟩ := hlisted k hk
    have ha := fulfilmentProblem_eq_none hfulfil k hk
    rw [wouldHave_eq] at ha
    exact absentFrom_eq_nil ho hc ha

theorem admits_contract {d : ContractDecl} (h : r.contractDeclProblem d = none) :
    (Definition.contract ⟨d.properties.map (·.1), d.parents⟩).Admitted r.definitions := by
  obtain ⟨_, _, hparents, _⟩ := contractDeclProblem_eq_none.mp h
  intro p hp
  exact contractProblem_eq_none (List.findSome?_eq_none_iff.mp hparents p hp)

theorem Orderly.lookup_lt (ho : r.Orderly) {name : Namespace} {t : TypeRef}
    (h : r.lookup name = some t) : t.index < r.size :=
  (List.getElem?_eq_some_iff.mp (ho.listed.mp h)).1

/-- The place for a name that raises no problem is free. -/
theorem Orderly.free (ho : r.Orderly) {name : Namespace} (h : r.nameProblem name = none) :
    r.definition? (r.placeOf name) = none := by
  unfold nameProblem at h
  split at h
  · cases h
  · next hn =>
    cases hl : r.lookup name with
    | some t =>
      rw [hl, Option.bind_some] at hn
      rwa [placeOf, hl, Option.getD_some]
    | none =>
      rw [placeOf, hl, Option.getD_none]
      cases hd : r.definition? ⟨r.size⟩ with
      | none => rfl
      | some d => exact absurd (ho.placed hd) (Nat.lt_irrefl _)

theorem size_le_withName (r : Registry) (name : Namespace) : r.size ≤ (r.withName name).size := by
  unfold withName
  split
  · exact Nat.le_refl _
  · simp [size]

theorem Orderly.placeOf_lt (ho : r.Orderly) (name : Namespace) :
    (r.placeOf name).index < (r.withName name).size := by
  unfold Registry.withName
  split
  · next t ht =>
    rw [placeOf, ht]
    exact ho.lookup_lt ht
  · next hl =>
    rw [placeOf, hl]
    simp [size]

theorem definitions_withName (r : Registry) (name : Namespace) :
    (r.withName name).definitions = r.definitions := by
  unfold withName
  split <;> rfl

/-- A new name is listed at the end, where none was. -/
theorem Orderly.listed_withName (ho : r.Orderly) (name : Namespace) {n : Namespace} {t : TypeRef} :
    (r.withName name).lookup n = some t ↔ (r.withName name).names[t.index]? = some n := by
  unfold Registry.withName
  split
  · exact ho.listed
  · next hl =>
    simp only [lookup, Assoc.get?_put]
    rcases Nat.lt_trichotomy t.index r.names.length with hlt | heq | hgt
    · rw [List.getElem?_append_left hlt, ← ho.listed]
      split
      · next hn =>
        subst hn
        rw [hl]
        refine iff_of_false (fun h => ?_) (by rintro ⟨⟩)
        cases h
        exact Nat.lt_irrefl _ hlt
      · rfl
    · have ht : t = ⟨r.size⟩ := congrArg TypeRef.mk heq
      rw [heq, List.getElem?_concat_length, Option.some_inj]
      split
      · next hn => exact iff_of_true (congrArg some ht.symm) hn
      · next hn =>
        refine iff_of_false (fun h => ?_) hn
        exact Nat.ne_of_lt (ho.lookup_lt h) heq
    · rw [List.getElem?_eq_none (by simpa using Nat.succ_le_of_lt hgt)]
      refine iff_of_false (fun h => ?_) (by rintro ⟨⟩)
      split at h
      · cases h
        exact Nat.lt_irrefl _ hgt
      · exact Nat.lt_asymm hgt (ho.lookup_lt h)

theorem Orderly.withName (ho : r.Orderly) (name : Namespace) : (r.withName name).Orderly := by
  have hd := definitions_withName r name
  constructor
  · rw [hd]
    exact ho.lawful
  · intro t d h
    rw [definition?, hd] at h
    exact Nat.lt_of_lt_of_le (ho.placed h) (size_le_withName r name)
  · exact ho.listed_withName name

theorem Orderly.define (ho : r.Orderly) {name : Namespace} {d : Definition}
    (hn : r.nameProblem name = none) (hd : d.Admitted r.definitions) :
    (r.define name d).Orderly := by
  constructor
  · exact .cons hd (ho.free hn) ho.lawful
  · intro t e h
    by_cases ht : r.placeOf name = t
    · rw [← ht]
      exact ho.placeOf_lt name
    · have he : r.definition? t = some e := (definitionIn_of_ne ht).symm.trans h
      exact Nat.lt_of_lt_of_le (ho.placed he) (size_le_withName r name)
  · exact ho.listed_withName name

/-- What is granted keeps the registry orderly and leaves the older definitions in place. -/
theorem Orderly.serve (ho : r.Orderly) {q : Request} {t : TypeRef} (h : r.serve q = .ok (r', t)) :
    r'.Orderly ∧ r.definitions <:+ r'.definitions := by
  cases q with
  | declare name =>
    simp only [Registry.serve, declare] at h
    split at h <;> cases h
    exact ⟨ho.withName name, [], (definitions_withName r name).symm⟩
  | type d =>
    simp only [Registry.serve, defineType] at h
    split at h <;> cases h
    next hp =>
      have hn := (typeDeclProblem_eq_none.mp hp).1
      exact ⟨ho.define hn (ho.admits_type hp), List.suffix_cons _ _⟩
  | contract d =>
    simp only [Registry.serve, defineContract] at h
    split at h <;> cases h
    next hp =>
      have hn := (contractDeclProblem_eq_none.mp hp).1
      exact ⟨ho.define hn (admits_contract hp), List.suffix_cons _ _⟩

theorem orderly_empty : ({} : Registry).Orderly := by
  constructor
  · exact .nil
  · intro t d h
    cases h
  · intro name t
    exact iff_of_false (by rintro ⟨⟩) (by rintro ⟨⟩)

/-- A request is granted, or it leaves the registry as it is: there is a problem, or no number. -/
theorem ask_cases (r : Registry) (q : Request) :
    (∃ r' t, r.serve q = .ok (r', t) ∧ t.index < capacity ∧ r.ask q = (.ok t, r')) ∨
      (∃ e, r.serve q = .error e ∧ r.ask q = (.error (.refused e), r)) ∨
      ∃ r' t, r.serve q = .ok (r', t) ∧ capacity ≤ t.index ∧
        r.ask q = (.error (.full t.index), r) := by
  unfold ask
  split
  · next e hs => exact .inr (.inl ⟨e, hs, rfl⟩)
  · next r' t hs =>
    split
    · next ht => exact .inl ⟨r', t, hs, ht, rfl⟩
    · next ht => exact .inr (.inr ⟨r', t, hs, Nat.le_of_not_lt ht, rfl⟩)

/-- What becomes of a registry is known from its granted requests. -/
theorem after_cases (r : Registry) (q : Request) :
    (∃ r' t, r.serve q = .ok (r', t) ∧ t.index < capacity ∧ r.after q = r') ∨ r.after q = r := by
  unfold after
  rcases r.ask_cases q with ⟨r', t, hs, ht, ha⟩ | ⟨e, _, ha⟩ | ⟨_, t, _, _, ha⟩
  · exact .inl ⟨r', t, hs, ht, by rw [ha]⟩
  · exact .inr (by rw [ha])
  · exact .inr (by rw [ha])

theorem Orderly.after (ho : r.Orderly) (q : Request) : (r.after q).Orderly := by
  rcases r.after_cases q with ⟨r', t, hs, _, ha⟩ | ha
  · rw [ha]
    exact (ho.serve hs).1
  · rw [ha]
    exact ho

theorem built_orderly (qs : List Request) : (built qs).Orderly := by
  have main : ∀ r : Registry, r.Orderly → (qs.foldl Registry.after r).Orderly := by
    induction qs with
    | nil => exact fun r ho => ho
    | cons q qs ih => exact fun r ho => ih _ (ho.after q)
  exact main {} orderly_empty

end Registry

end GuardedScript
