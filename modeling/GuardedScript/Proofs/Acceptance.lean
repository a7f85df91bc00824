import GuardedScript.Proofs.ContractWalk
import GuardedScript.Proofs.Finality

/-!
Which declarations of types are accepted. The checks are made one after the other and stop at the
first problem; together they accept exactly the well-formed declarations. The two reports about a
declaration as a whole are exact: which keys are repeated, and which contracts are not fulfilled.
-/

namespace GuardedScript

/-- The texts that occur more than once, each once, in the order of their second occurrence: a
beginning holds the earlier one twice and the later one not yet. -/
structure RepeatReport (texts report : List String) : Prop where
  repeated : ∀ t, t ∈ report ↔ 2 ≤ texts.count t
  once : report.Nodup
  ordered : report.Pairwise fun a b => ∃ n, 2 ≤ (texts.take n).count a ∧ (texts.take n).count b < 2

/-- What is reported of `rest` once `before` has been read. -/
structure RepeatsAfter (before rest report : List String) : Prop where
  repeated : ∀ t, t ∈ report ↔ before.count t < 2 ∧ 2 ≤ (before ++ rest).count t
  once : report.Nodup
  ordered : report.Pairwise fun a b => ∃ n,
    2 ≤ ((before ++ rest).take n).count a ∧ ((before ++ rest).take n).count b < 2

theorem count_append_singleton (before : List String) (k t : String) :
    (before ++ [k]).count t = before.count t + if k = t then 1 else 0 := by
  simp only [List.count_append, List.count_singleton, beq_iff_eq]

namespace RepeatsAfter

variable {before rest report : List String} {k : String}

/-- A text that has occurred once is reported. -/
theorem cons (h : RepeatsAfter (before ++ [k]) rest report) (hk : before.count k = 1) :
    RepeatsAfter before (k :: rest) (k :: report) := by
  have hmet := count_append_singleton before k
  refine ⟨?_, ?_, ?_⟩
  · intro t
    rw [List.mem_cons, h.repeated, ← List.append_cons, hmet]
    by_cases ht : k = t
    · subst ht
      rw [List.count_append, List.count_cons_self, hk]
      exact iff_of_true (.inl rfl) (by omega)
    · simp [ht, Ne.symm ht]
  · refine List.nodup_cons.mpr ⟨?_, h.once⟩
    intro hm
    have hlt := ((h.repeated k).mp hm).1
    rw [hmet, if_pos rfl] at hlt
    omega
  · refine List.pairwise_cons.mpr ⟨?_, ?_⟩
    · -- what is reported later has not yet occurred twice here
      intro t ht
      refine ⟨(before ++ [k]).length, ?_⟩
      rw [List.append_cons before k rest, List.take_left, hmet, if_pos rfl, hk]
      exact ⟨Nat.le_refl _, ((h.repeated t).mp ht).1⟩
    · rw [List.append_cons]
      exact h.ordered

/-- Any other text is not. -/
theorem skip (h : RepeatsAfter (before ++ [k]) rest report) (hk : before.count k ≠ 1) :
    RepeatsAfter before (k :: rest) report := by
  refine ⟨?_, h.once, by rw [List.append_cons]; exact h.ordered⟩
  intro t
  rw [h.repeated, ← List.append_cons, count_append_singleton]
  refine and_congr_left fun _ => ?_
  split
  · next ht =>
    subst ht
    omega
  · rfl

end RepeatsAfter

/-- The two lists that are kept tell what has been met and what has been reported. -/
theorem repeatedKeys_after {before seen reported : List String} (rest : List String)
    (hs : ∀ t, t ∈ seen ↔ 1 ≤ before.count t) (hr : ∀ t, t ∈ reported ↔ 2 ≤ before.count t) :
    RepeatsAfter before rest (repeatedKeys seen reported rest) := by
  induction rest generalizing before seen reported with
  | nil =>
    refine ⟨?_, List.nodup_nil, .nil⟩
    intro t
    simp only [repeatedKeys, List.not_mem_nil, List.append_nil, false_iff]
    omega
  | cons k rest ih =>
    have hmet := count_append_singleton before k
    rw [repeatedKeys]
    split
    · next hk =>
      rw [hs, hr] at hk
      refine (ih ?_ ?_).cons (by omega)
      · intro t
        rw [hs, hmet]
        split
        · next ht => subst ht; omega
        · rfl
      · intro t
        rw [List.mem_cons, hr, hmet]
        split
        · next ht => exact iff_of_true (.inl ht.symm) (by subst ht; omega)
        · next ht => simp [Ne.symm ht]
    · next hk =>
      rw [hs, hr] at hk
      refine (ih ?_ ?_).skip (by omega)
      · intro t
        rw [List.mem_cons, hs, hmet]
        split
        · next ht => simp [ht]
        · next ht => simp [Ne.symm ht]
      · intro t
        rw [hr, hmet]
        split
        · next ht => subst ht; omega
        · rfl

theorem repeatReport_repeatedKeys (texts : List String) :
    RepeatReport texts (repeatedKeys [] [] texts) := by
  have h : RepeatsAfter [] texts (repeatedKeys [] [] texts) :=
    repeatedKeys_after texts (by simp) (by simp)
  refine ⟨?_, h.once, h.ordered⟩
  intro t
  rw [h.repeated, List.nil_append, List.count_nil]
  simp

theorem mem_of_definitionIn {defs : List (TypeRef × Definition)} {t : TypeRef} {d : Definition}
    (h : definitionIn defs t = some d) : (t, d) ∈ defs := by
  induction defs with
  | nil => cases h
  | cons e older ih =>
    obtain ⟨u, e⟩ := e
    by_cases hu : u = t
    · subst hu
      rw [definitionIn_self] at h
      cases h
      exact List.mem_cons_self
    · rw [definitionIn_of_ne hu] at h
      exact List.mem_cons_of_mem _ (ih h)

/-- The properties that a definition promises itself. -/
def Definition.promises : Definition → List Property
  | .concrete _ => []
  | .contract k => k.properties

namespace Registry

/-- The name has no slot yet, or one without a definition. -/
def Available (r : Registry) (name : Namespace) : Prop :=
  (∀ t s, r.slot? t = some s → s.name ≠ name) ∨ ∃ t, r.slot? t = some ⟨name, none⟩

/-- A property that the contract owes is not among the given ones. -/
def Lacks (r : Registry) (exposed : List Property) (c : TypeRef) : Prop :=
  ∃ p, r.Owes c p ∧ p ∉ exposed

variable {r : Registry} {c : TypeRef}

theorem lacks_iff {exposed : List Property} : r.Lacks exposed c ↔ ∃ e ∈ r.definitions,
    r.isA c e.1 = true ∧ r.definition? e.1 = some e.2 ∧ ∃ p ∈ e.2.promises, p ∉ exposed := by
  constructor
  · rintro ⟨p, ⟨b, k, hb, hk, hp⟩, hn⟩
    exact ⟨(b, .contract k), mem_of_definitionIn hk, hb, hk, p, hp, hn⟩
  · rintro ⟨⟨b, d⟩, _, hb, hd, p, hp, hn⟩
    cases d with
    | concrete k => cases hp
    | contract k => exact ⟨p, ⟨b, k, hb, hd, hp⟩, hn⟩

instance (exposed : List Property) : DecidablePred (r.Lacks exposed) :=
  fun _ => decidable_of_iff _ lacks_iff.symm

end Registry

/-- What has to hold of a declaration for its type to be entered. -/
structure TypeDecl.WellFormed (r : Registry) (d : TypeDecl) : Prop where
  available : r.Available d.name
  parent : ∀ p ∈ d.parent, r.IsConcrete p
  contracts : ∀ c ∈ d.contracts, r.IsContract c
  typed : ∀ p ∈ d.exposed ++ d.hidden, (r.slot? p.type).isSome
  unreserved : ∀ p ∈ d.exposed ++ d.hidden, p.key ≠ returnKey
  distinct : ((r.wouldHave d .exposed ++ r.wouldHave d .hidden).map Property.key).Nodup
  fulfilled : ∀ c ∈ d.contracts, ∀ p, r.Owes c p → p ∈ r.wouldHave d .exposed

namespace Registry

variable {r : Registry} {c t : TypeRef} {name : Namespace} {d : TypeDecl} {e : TypeError}

theorem Orderly.nameProblem_eq_none_iff (ho : r.Orderly) :
    r.nameProblem name = none ↔ r.Available name := by
  have hnone : r.nameProblem name = none ↔ (r.lookup name).bind r.definition? = none := by
    unfold nameProblem
    cases (r.lookup name).bind r.definition? <;> simp
  rw [hnone]
  constructor
  · intro h
    cases hl : r.lookup name with
    | none =>
      refine .inl fun t s hs hname => ?_
      subst hname
      rw [ho.lookup_iff.mpr ⟨s.definition, hs⟩] at hl
      cases hl
    | some t =>
      rw [hl, Option.bind_some] at h
      exact .inr ⟨t, slot?_eq_some.mpr ⟨ho.listed.mp hl, h⟩⟩
  · rintro (hfree | ⟨t, ht⟩)
    · cases hl : r.lookup name with
      | none => rfl
      | some t =>
        obtain ⟨s, hs⟩ := ho.lookup_iff.mp hl
        exact absurd rfl (hfree t _ hs)
    · rw [ho.lookup_iff.mpr ⟨none, ht⟩, Option.bind_some]
      exact (slot?_eq_some.mp ht).2

theorem Orderly.concreteProblem_eq_none_iff (ho : r.Orderly) :
    r.concreteProblem t = none ↔ r.IsConcrete t := by
  refine ⟨concreteProblem_eq_none, fun ⟨k, hk⟩ => ?_⟩
  obtain ⟨n, hn⟩ := ho.concrete hk
  rw [concreteProblem, hn]

theorem Orderly.contractProblem_eq_none_iff (ho : r.Orderly) :
    r.contractProblem t = none ↔ r.IsContract t := by
  refine ⟨contractProblem_eq_none, fun ⟨k, hk⟩ => ?_⟩
  obtain ⟨n, hn⟩ := ho.contract hk
  rw [contractProblem, hn]

theorem propertyProblem_eq_none_iff {p : Property} :
    r.propertyProblem name p = none ↔ (r.slot? p.type).isSome ∧ p.key ≠ returnKey := by
  unfold propertyProblem typeProblem Registry.get
  by_cases hk : p.key = returnKey
  · simp [hk]
  · cases r.slot? p.type <;> simp [hk]

theorem repetitionProblem_eq_none_iff : r.repetitionProblem d = none ↔
    ((r.wouldHave d .exposed ++ r.wouldHave d .hidden).map Property.key).Nodup := by
  refine ⟨repetitionProblem_eq_none, fun hn => ?_⟩
  rw [repetitionProblem, repeatedKeys_eq_nil.mpr ⟨hn, fun _ _ => List.not_mem_nil⟩]

theorem Orderly.mem_absentFrom (ho : r.Orderly) (hc : r.IsContract c) {exposed : List Property}
    {key : String} :
    key ∈ r.absentFrom exposed c ↔ ∃ p, r.Owes c p ∧ p ∉ exposed ∧ p.key = key := by
  rw [absentFrom, ho.contractProperties_eq hc]
  obtain ⟨k, hk⟩ := hc
  simp only [List.mem_map, List.mem_filter, decide_eq_true_eq, and_assoc]
  exact exists_congr fun p => and_congr_left fun _ => ho.lawful.mem_promisesIn hk

theorem Orderly.lacks_iff_absentFrom (ho : r.Orderly) (hc : r.IsContract c)
    {exposed : List Property} :
    (!(r.absentFrom exposed c).isEmpty) = true ↔ r.Lacks exposed c := by
  rw [Bool.not_eq_true', List.isEmpty_eq_false_iff_exists_mem]
  constructor
  · rintro ⟨key, hkey⟩
    obtain ⟨p, ho, hn, _⟩ := (ho.mem_absentFrom hc).mp hkey
    exact ⟨p, ho, hn⟩
  · rintro ⟨p, howes, hn⟩
    exact ⟨p.key, (ho.mem_absentFrom hc).mpr ⟨p, howes, hn, rfl⟩⟩

/-- The contracts that are reported are those that lack something. -/
theorem Orderly.filter_absentFrom (ho : r.Orderly) (hc : ∀ c ∈ d.contracts, r.IsContract c)
    (exposed : List Property) :
    d.contracts.filter (fun c => !(r.absentFrom exposed c).isEmpty) =
      d.contracts.filter (r.Lacks exposed) := by
  refine List.filter_congr fun c hm => ?_
  rw [Bool.eq_iff_iff, ho.lacks_iff_absentFrom (hc c hm), decide_eq_true_eq]

theorem Orderly.fulfilmentProblem_eq_none_iff (ho : r.Orderly)
    (hc : ∀ c ∈ d.contracts, r.IsContract c) : r.fulfilmentProblem d = none ↔
      ∀ c ∈ d.contracts, ∀ p, r.Owes c p → p ∈ r.wouldHave d .exposed := by
  have hnil : r.fulfilmentProblem d = none ↔
      d.contracts.filter (r.Lacks (r.wouldHave d .exposed)) = [] := by
    rw [fulfilmentProblem, ho.filter_absentFrom hc]
    cases d.contracts.filter (r.Lacks (r.wouldHave d .exposed)) <;> simp
  rw [hnil, List.filter_eq_nil_iff]
  refine forall₂_congr fun c _ => ?_
  rw [decide_eq_true_eq, Lacks, not_exists]
  exact forall_congr' fun p => by rw [not_and, not_not]

/-- The checks together: a declaration without a problem is a well-formed one. -/
theorem Orderly.typeDeclProblem_eq_none_iff (ho : r.Orderly) :
    r.typeDeclProblem d = none ↔ d.WellFormed r := by
  have hparent : d.parent.bind r.concreteProblem = none ↔ ∀ p ∈ d.parent, r.IsConcrete p := by
    rw [Option.bind_eq_none_iff]
    exact forall₂_congr fun p _ => ho.concreteProblem_eq_none_iff
  have hcontracts : d.contracts.findSome? r.contractProblem = none ↔
      ∀ c ∈ d.contracts, r.IsContract c := by
    rw [List.findSome?_eq_none_iff]
    exact forall₂_congr fun c _ => ho.contractProblem_eq_none_iff
  have hproperties : (d.exposed ++ d.hidden).findSome? (r.propertyProblem d.name) = none ↔
      (∀ p ∈ d.exposed ++ d.hidden, (r.slot? p.type).isSome) ∧
        ∀ p ∈ d.exposed ++ d.hidden, p.key ≠ returnKey := by
    rw [List.findSome?_eq_none_iff, ← forall₂_and]
    exact forall₂_congr fun p _ => propertyProblem_eq_none_iff
  rw [typeDeclProblem_eq_none, ho.nameProblem_eq_none_iff, hparent, hcontracts, hproperties,
    repetitionProblem_eq_none_iff]
  constructor
  · rintro ⟨hname, hp, hc, ⟨ht, hk⟩, hd, hf⟩
    exact ⟨hname, hp, hc, ht, hk, hd, (ho.fulfilmentProblem_eq_none_iff hc).mp hf⟩
  · rintro ⟨hname, hp, hc, ht, hk, hd, hf⟩
    exact ⟨hname, hp, hc, ⟨ht, hk⟩, hd, (ho.fulfilmentProblem_eq_none_iff hc).mpr hf⟩

theorem defineType_eq_ok_iff : (∃ r' t, r.defineType d = .ok (r', t)) ↔
    r.typeDeclProblem d = none := by
  unfold defineType
  cases r.typeDeclProblem d <;> simp

theorem defineType_eq_error_iff : r.defineType d = .error e ↔ r.typeDeclProblem d = some e := by
  unfold defineType
  cases r.typeDeclProblem d <;> simp

/-- What a declared type would have is what it has once it is entered. -/
theorem Orderly.effective_defineType (ho : r.Orderly) {r' : Registry}
    (h : r.defineType d = .ok (r', t)) (v : Visibility) : r'.effective t v = r.wouldHave d v := by
  have hserve : r.serve (.type d) = .ok (r', t) := h
  obtain ⟨hname, rfl, _, hdefs⟩ := serve_ok hserve
  have hadmitted := ho.admits_type (defineType_eq_ok_iff.mp ⟨_, _, h⟩)
  have ho' := (ho.serve hserve).1
  have hdef : r'.definition? (r.placeOf d.name) = some (.concrete d.asked) := by
    rw [definition?, hdefs]
    exact definitionIn_self
  have hparent : ∀ p ∈ d.asked.parent, (definitionIn r.definitions p).isSome := by
    intro p hp
    obtain ⟨k, hk⟩ := ConcreteType.Admitted.parent hadmitted p hp
    rw [hk]
    rfl
  calc r'.effective (r.placeOf d.name) v
      = fullIn r'.definitions d.asked v := ho'.lawful.effectiveIn_eq hdef v
    _ = fullIn r.definitions d.asked v := by
        rw [hdefs]
        exact fullIn_cons (ho.free hname) hparent v
    _ = r.wouldHave d v := (wouldHave_eq d v).symm

end Registry

/-- Errors about a declaration as a whole, each part of which is in order. -/
def TypeError.isReport : TypeError → Bool
  | .duplicateProperty _ _ => true
  | .unfulfilledContract _ _ _ => true
  | _ => false

namespace Registry

variable {r : Registry} {t : TypeRef} {name : Namespace} {d : TypeDecl} {e : TypeError}

theorem nameProblem_isReport (h : r.nameProblem name = some e) : e.isReport = false := by
  unfold nameProblem at h
  split at h <;> cases h
  rfl

theorem concreteProblem_isReport (h : r.concreteProblem t = some e) : e.isReport = false := by
  unfold concreteProblem Registry.concrete at h
  split at h <;> cases h
  next he => split at he <;> cases he <;> rfl

theorem contractProblem_isReport (h : r.contractProblem t = some e) : e.isReport = false := by
  unfold contractProblem Registry.contract at h
  split at h <;> cases h
  next he => split at he <;> cases he <;> rfl

theorem propertyProblem_isReport {p : Property} (h : r.propertyProblem name p = some e) :
    e.isReport = false := by
  unfold propertyProblem typeProblem Registry.get at h
  split at h
  · cases h
    rfl
  · split at h <;> cases h
    next he => split at he <;> cases he; rfl

/-- A report is made when all parts are in order, and on fulfilment only if no key is repeated. -/
theorem typeDeclProblem_report (h : r.typeDeclProblem d = some e) (he : e.isReport = true) :
    d.contracts.findSome? r.contractProblem = none ∧
      (r.repetitionProblem d = some e ∨ r.fulfilmentProblem d = some e) := by
  have clash : ∀ {P : Prop}, e.isReport = false → P := fun hf => absurd he (by simp [hf])
  simp only [typeDeclProblem, Option.orElse_eq_orElse, Option.orElse_eq_or,
    Option.or_eq_some_iff] at h
  rcases h with hname | ⟨_, hparent | ⟨_, hcontracts | ⟨hnone, hproperties | ⟨_, h⟩⟩⟩⟩
  · exact clash (nameProblem_isReport hname)
  · obtain ⟨p, _, hp⟩ := Option.bind_eq_some_iff.mp hparent
    exact clash (concreteProblem_isReport hp)
  · obtain ⟨c, _, hc⟩ := List.exists_of_findSome?_eq_some hcontracts
    exact clash (contractProblem_isReport hc)
  · obtain ⟨p, _, hp⟩ := List.exists_of_findSome?_eq_some hproperties
    exact clash (propertyProblem_isReport hp)
  · exact ⟨hnone, h.imp_right And.right⟩

theorem repetitionProblem_eq_some (h : r.repetitionProblem d = some e) :
    e = .duplicateProperty d.name (repeatedKeys [] []
      ((r.wouldHave d .exposed ++ r.wouldHave d .hidden).map Property.key)) := by
  unfold repetitionProblem at h
  split at h <;> cases h
  rfl

theorem fulfilmentProblem_eq_some (h : r.fulfilmentProblem d = some e) :
    let failed := d.contracts.filter fun c => !(r.absentFrom (r.wouldHave d .exposed) c).isEmpty
    e = .unfulfilledContract d.name (failed.filterMap fun c => (r.slot? c).map Slot.name)
      (failed.flatMap (r.absentFrom (r.wouldHave d .exposed))) := by
  simp only [fulfilmentProblem] at h
  split at h <;> cases h
  rfl

theorem duplicateProperty_report {type : Namespace} {keys : List String}
    (h : r.defineType d = .error (.duplicateProperty type keys)) :
    type = d.name ∧ RepeatReport
      ((r.wouldHave d .exposed ++ r.wouldHave d .hidden).map Property.key) keys := by
  obtain ⟨_, hrep | hful⟩ := typeDeclProblem_report (defineType_eq_error_iff.mp h) rfl
  · cases repetitionProblem_eq_some hrep
    exact ⟨rfl, repeatReport_repeatedKeys _⟩
  · cases fulfilmentProblem_eq_some hful

theorem Orderly.unfulfilledContract_report (ho : r.Orderly) {type : Namespace}
    {contracts : List Namespace} {missing : List String}
    (h : r.defineType d = .error (.unfulfilledContract type contracts missing)) :
    type = d.name ∧
      contracts.map some = (d.contracts.filter (r.Lacks (r.wouldHave d .exposed))).map
        (fun c => (r.slot? c).map Slot.name) ∧
      ∀ key, key ∈ missing ↔ ∃ c ∈ d.contracts, ∃ p,
        r.Owes c p ∧ p ∉ r.wouldHave d .exposed ∧ p.key = key := by
  obtain ⟨hnone, hrep | hful⟩ := typeDeclProblem_report (defineType_eq_error_iff.mp h) rfl
  · cases repetitionProblem_eq_some hrep
  have hc : ∀ c ∈ d.contracts, r.IsContract c := fun c hc =>
    contractProblem_eq_none (List.findSome?_eq_none_iff.mp hnone c hc)
  have hreport := fulfilmentProblem_eq_some hful
  rw [ho.filter_absentFrom hc] at hreport
  cases hreport
  refine ⟨rfl, ?_, fun key => ?_⟩
  · rw [List.map_filterMap_some_eq_filter_map_isSome, List.filter_eq_self, List.forall_mem_map]
    intro c hm
    obtain ⟨k, hk⟩ := hc c (List.mem_of_mem_filter hm)
    obtain ⟨name, hs⟩ := ho.slot? hk
    rw [hs]
    rfl
  · rw [List.mem_flatMap]
    constructor
    · rintro ⟨c, hm, hkey⟩
      have hlisted := List.mem_of_mem_filter hm
      exact ⟨c, hlisted, (ho.mem_absentFrom (hc c hlisted)).mp hkey⟩
    · rintro ⟨c, hlisted, p, howes, hn, hkey⟩
      exact ⟨c, List.mem_filter.mpr ⟨hlisted, decide_eq_true ⟨p, howes, hn⟩⟩,
        (ho.mem_absentFrom (hc c hlisted)).mpr ⟨p, howes, hn, hkey⟩⟩

end Registry

/-- Whatever has been asked of a registry, it accepts exactly the well-formed types, and what a type
would have is then what it has. A report of repeated keys lists just the keys that occur more than
once among what the type would have; a report of unfulfilled contracts names just the listed ones
that lack a property, with the keys of all that is lacking. -/
theorem wellFormed_types_accepted (qs : List Request) (d : TypeDecl) :
    let r := Registry.built qs
    let exposed := r.wouldHave d .exposed
    ((∃ r' t, r.defineType d = .ok (r', t)) ↔ d.WellFormed r) ∧
    (∀ r' t, r.defineType d = .ok (r', t) → ∀ v, r'.effective t v = r.wouldHave d v) ∧
    (∀ type keys, r.defineType d = .error (.duplicateProperty type keys) →
      type = d.name ∧
      RepeatReport ((exposed ++ r.wouldHave d .hidden).map Property.key) keys) ∧
    ∀ type contracts missing,
      r.defineType d = .error (.unfulfilledContract type contracts missing) →
      type = d.name ∧
      contracts.map some =
        (d.contracts.filter (r.Lacks exposed)).map (fun c => (r.slot? c).map Slot.name) ∧
      ∀ key, key ∈ missing ↔ ∃ c ∈ d.contracts, ∃ p, r.Owes c p ∧ p ∉ exposed ∧ p.key = key := by
  intro r exposed
  have ho : r.Orderly := Registry.built_orderly qs
  refine ⟨?_, ?_, ?_, ?_⟩
  · rw [Registry.defineType_eq_ok_iff]
    exact ho.typeDeclProblem_eq_none_iff
  · exact fun r' t h => ho.effective_defineType h
  · exact fun type keys h => Registry.duplicateProperty_report h
  · exact fun type contracts missing h => ho.unfulfilledContract_report h

namespace Kennel

/-- Keys of the parent and keys of its own are used again. -/
def hound : TypeDecl :=
  { name := name "Hound" (by decide), parent := some ⟨5⟩, exposed := [⟨"toy", ⟨0⟩, {}⟩, title],
    hidden := [⟨"toy", ⟨0⟩, {}⟩, collar, collar] }

def cat : TypeDecl := { name := name "Cat" (by decide), exposed := [title] }

/-- A cat that is insured, tracked and insured again, but has no owner. -/
def stray : TypeDecl := { cat with contracts := [⟨3⟩, ⟨2⟩, ⟨3⟩] }

end Kennel

theorem cat_accepted_hound_and_stray_reported :
    Kennel.cat.WellFormed Kennel.registry ∧
    Kennel.registry.defineType Kennel.hound =
      .error (.duplicateProperty Kennel.hound.name ["title", "toy", "collar"]) ∧
    RepeatReport ["title", "owner", "toy", "title", "collar", "toy", "collar", "collar"]
      ["title", "toy", "collar"] ∧
    (∃ contracts, Kennel.registry.defineType Kennel.stray =
        .error (.unfulfilledContract Kennel.stray.name contracts ["owner", "owner", "owner"]) ∧
      contracts.map some =
        (Kennel.stray.contracts.filter (Kennel.registry.Lacks [Kennel.title])).map
          fun c => (Kennel.registry.slot? c).map Slot.name) ∧
    ∃ c ∈ Kennel.stray.contracts, ∃ p,
      Kennel.registry.Owes c p ∧ p ∉ [Kennel.title] ∧ p.key = "owner" := by
  have hcat : Kennel.registry.defineType Kennel.cat =
      .ok (Kennel.registry.define Kennel.cat.name (.concrete Kennel.cat.asked), ⟨6⟩) := by cbv
  have hhound : Kennel.registry.defineType Kennel.hound =
      .error (.duplicateProperty Kennel.hound.name ["title", "toy", "collar"]) := by cbv
  have hstray : Kennel.registry.defineType Kennel.stray =
      .error (.unfulfilledContract Kennel.stray.name
        [Kennel.name "Insured" (by decide), Kennel.name "Tracked" (by decide),
          Kennel.name "Insured" (by decide)] ["owner", "owner", "owner"]) := by cbv
  obtain ⟨haccepted, _⟩ := wellFormed_types_accepted Kennel.requests Kennel.cat
  obtain ⟨_, _, hrepeated, _⟩ := wellFormed_types_accepted Kennel.requests Kennel.hound
  obtain ⟨_, _, _, hlacking⟩ := wellFormed_types_accepted Kennel.requests Kennel.stray
  obtain ⟨_, hnames, hmissing⟩ := hlacking _ _ _ hstray
  exact ⟨haccepted.mp ⟨_, _, hcat⟩, hhound, (hrepeated _ _ hhound).2, ⟨_, hstray, hnames⟩,
    (hmissing "owner").mp (by decide)⟩

end GuardedScript
