import GuardedScript.Proofs.SubtypeOrder

/-!
What contracts promise. The walk over a contract and its parents meets every contract once, so it
collects exactly the properties of the contracts that links lead to.
-/

namespace GuardedScript

/-- A property that a contract declares itself or takes over from one that it extends. -/
def OwedIn (defs : List (TypeRef × Definition)) (a : TypeRef) (p : Property) : Prop :=
  ∃ b k, reaches defs a b = true ∧ definitionIn defs b = some (.contract k) ∧ p ∈ k.properties

/-- What a walk from the given contracts makes of a survey. Whatever it has newly visited is
complete: its properties are collected and its parents are visited as well. -/
structure Surveyed (defs : List (TypeRef × Definition)) (roots : List TypeRef) (s s' : Survey) :
    Prop where
  properties : s.properties ⊆ s'.properties
  visited : s.visited ⊆ s'.visited
  begun : roots ⊆ s'.visited
  owed : ∀ p ∈ s'.properties, p ∈ s.properties ∨ ∃ a ∈ roots, OwedIn defs a p
  complete : ∀ a ∈ s'.visited, a ∈ s.visited ∨ ∃ k, definitionIn defs a = some (.contract k) ∧
    k.properties ⊆ s'.properties ∧ k.parents ⊆ s'.visited

theorem mem_addNew {known added : List Property} {p : Property} :
    p ∈ addNew known added ↔ p ∈ known ∨ p ∈ added := by
  induction added generalizing known with
  | nil => simp [addNew]
  | cons q added ih =>
    rw [addNew, List.foldl_cons, ← addNew, ih]
    by_cases hq : q ∈ known
    · rw [if_pos hq, List.mem_cons]
      constructor
      · rintro (h | h)
        · exact .inl h
        · exact .inr (.inr h)
      · rintro (h | rfl | h)
        · exact .inl h
        · exact .inl hq
        · exact .inr h
    · rw [if_neg hq, List.mem_append, List.mem_singleton, List.mem_cons, or_assoc]

section
variable {older defs : List (TypeRef × Definition)} {t a b c : TypeRef} {d : Definition}
variable {p : Property} {s s' s'' : Survey} {roots more : List TypeRef}

theorem reaches_cons (ht : definitionIn older t = none) (ha : (definitionIn older a).isSome) :
    reaches ((t, d) :: older) a b = reaches older a b := reaches_of_ne (ne_of_defined ht ha)

namespace Surveyed

theorem refl (h : roots ⊆ s.visited) : Surveyed defs roots s s :=
  ⟨List.Subset.refl _, List.Subset.refl _, h, fun _ hp => .inl hp, fun _ ha => .inl ha⟩

theorem append (h : Surveyed defs roots s s') (h' : Surveyed defs more s' s'') :
    Surveyed defs (roots ++ more) s s'' := by
  constructor
  · exact List.Subset.trans h.properties h'.properties
  · exact List.Subset.trans h.visited h'.visited
  · exact List.append_subset.mpr ⟨List.Subset.trans h.begun h'.visited, h'.begun⟩
  · intro p hp
    rcases h'.owed p hp with hp | ⟨a, ha, ho⟩
    · rcases h.owed p hp with hp | ⟨a, ha, ho⟩
      · exact .inl hp
      · exact .inr ⟨a, List.mem_append_left _ ha, ho⟩
    · exact .inr ⟨a, List.mem_append_right _ ha, ho⟩
  · intro a ha
    rcases h'.complete a ha with ha | hk
    · rcases h.complete a ha with ha | ⟨k, hk, hown, hparents⟩
      · exact .inl ha
      · exact .inr ⟨k, hk, List.Subset.trans hown h'.properties,
          List.Subset.trans hparents h'.visited⟩
    · exact .inr hk

/-- The walk sees the same when another place is defined. -/
theorem cons (h : Surveyed older roots s s') (ht : definitionIn older t = none)
    (hr : ∀ a ∈ roots, (definitionIn older a).isSome) : Surveyed ((t, d) :: older) roots s s' := by
  refine ⟨h.properties, h.visited, h.begun, ?_, ?_⟩
  · intro p hp
    rcases h.owed p hp with hp | ⟨a, ha, b, k, hab, hb, hpk⟩
    · exact .inl hp
    · refine .inr ⟨a, ha, b, k, ?_, ?_, hpk⟩
      · rwa [reaches_cons ht (hr a ha)]
      · rwa [definitionIn_of_ne (ne_of_defined ht (by rw [hb]; rfl))]
  · intro a ha
    rcases h.complete a ha with ha | ⟨k, hk, hown⟩
    · exact .inl ha
    · refine .inr ⟨k, ?_, hown⟩
      rwa [definitionIn_of_ne (ne_of_defined ht (by rw [hk]; rfl))]

/-- Visiting a contract and then its parents completes the contract. -/
theorem enter (hl : Lawful defs) {k : Contract} (ha : definitionIn defs a = some (.contract k))
    (h : Surveyed defs k.parents ⟨addNew s.properties k.properties, a :: s.visited⟩ s') :
    Surveyed defs [a] s s' := by
  have hprops : s.properties ⊆ s'.properties :=
    fun p hp => h.properties (mem_addNew.mpr (.inl hp))
  have hown : k.properties ⊆ s'.properties :=
    fun p hp => h.properties (mem_addNew.mpr (.inr hp))
  have hself : a ∈ s'.visited := h.visited List.mem_cons_self
  refine ⟨hprops, fun b hb => h.visited (List.mem_cons_of_mem a hb), ?_, ?_, ?_⟩
  · exact List.cons_subset.mpr ⟨hself, List.nil_subset _⟩
  · intro p hp
    rcases h.owed p hp with hp | ⟨c, hc, b, k', hcb, hb, hpk⟩
    · rcases mem_addNew.mp hp with hp | hp
      · exact .inl hp
      · exact .inr ⟨a, List.mem_singleton.mpr rfl, a, k, reaches_refl defs a, ha, hp⟩
    · refine .inr ⟨a, List.mem_singleton.mpr rfl, b, k', ?_, hb, hpk⟩
      exact (hl.reaches_step a b).mpr (.inr ⟨c, mem_linksIn ha hc, hcb⟩)
  · intro b hb
    rcases h.complete b hb with hb | hk
    · rcases List.mem_cons.mp hb with rfl | hb
      · exact .inr ⟨k, ha, hown, h.begun⟩
      · exact .inl hb
    · exact .inr hk

end Surveyed

theorem surveyed_each (step : ∀ a s, (∃ k, definitionIn defs a = some (.contract k)) →
      Surveyed defs [a] s (surveyIn defs a s)) (as : List TypeRef)
    (has : ∀ a ∈ as, ∃ k, definitionIn defs a = some (.contract k)) (s : Survey) :
    Surveyed defs as s (as.foldl (fun s a => surveyIn defs a s) s) := by
  induction as generalizing s with
  | nil => exact .refl (List.nil_subset _)
  | cons a as ih =>
    have hfirst := step a s (has a List.mem_cons_self)
    exact hfirst.append (ih (fun b hb => has b (List.mem_cons_of_mem a hb)) _)

theorem Lawful.surveyed (hl : Lawful defs) (a : TypeRef) (s : Survey)
    (ha : ∃ k, definitionIn defs a = some (.contract k)) :
    Surveyed defs [a] s (surveyIn defs a s) := by
  induction hl generalizing a s with
  | nil =>
    obtain ⟨k, hk⟩ := ha
    cases hk
  | @cons t d older hd ht ho ih =>
    obtain ⟨k, hk⟩ := ha
    by_cases h : t = a
    · subst h
      have hself : definitionIn ((t, d) :: older) t = some d := definitionIn_self
      rw [hself] at hk
      cases hk
      have hparents : ∀ b ∈ k.parents, ∃ k', definitionIn older b = some (.contract k') := hd
      by_cases hv : t ∈ s.visited
      · simp only [surveyIn, if_true, hv]
        exact .refl (List.cons_subset.mpr ⟨hv, List.nil_subset _⟩)
      · simp only [surveyIn, if_true, hv, if_false]
        apply Surveyed.enter (.cons hd ht ho) hself
        apply Surveyed.cons _ ht
        · intro b hb
          obtain ⟨k', hk'⟩ := hparents b hb
          rw [hk']
          rfl
        · exact surveyed_each ih k.parents hparents _
    · rw [definitionIn_of_ne h] at hk
      rw [surveyIn_of_ne h]
      apply (ih a s ⟨k, hk⟩).cons ht
      intro b hb
      rw [List.mem_singleton.mp hb, hk]
      rfl

/-- A contract promises what it declares and what the contracts it extends declare. -/
theorem Lawful.mem_promisesIn (hl : Lawful defs) {k : Contract}
    (ha : definitionIn defs a = some (.contract k)) : p ∈ promisesIn defs a ↔ OwedIn defs a p := by
  have hs := hl.surveyed a ⟨[], []⟩ ⟨k, ha⟩
  constructor
  · intro hp
    rcases hs.owed p hp with hp | ⟨b, hb, ho⟩
    · cases hp
    · rwa [List.mem_singleton.mp hb] at ho
  · rintro ⟨b, k', hab, hb, hp⟩
    have complete : ∀ c ∈ (surveyIn defs a ⟨[], []⟩).visited, ∃ k,
        definitionIn defs c = some (.contract k) ∧
          k.properties ⊆ (surveyIn defs a ⟨[], []⟩).properties ∧
          k.parents ⊆ (surveyIn defs a ⟨[], []⟩).visited := by
      intro c hc
      rcases hs.complete c hc with hc | hc
      · cases hc
      · exact hc
    -- everything that links lead to is visited
    have hvisited : b ∈ (surveyIn defs a ⟨[], []⟩).visited := by
      rw [hl.reaches_iff] at hab
      clear hb
      induction hab with
      | refl => exact hs.begun List.mem_cons_self
      | tail _ hlink ih =>
        obtain ⟨k, hk, _, hparents⟩ := complete _ ih
        rw [linksIn, hk] at hlink
        exact hparents hlink
    obtain ⟨k, hk, hown, _⟩ := complete b hvisited
    rw [hb] at hk
    cases hk
    exact hown hp

end

end GuardedScript
