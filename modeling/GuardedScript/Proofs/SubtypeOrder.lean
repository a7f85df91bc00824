import Mathlib.Logic.Relation
import GuardedScript.Proofs.TypeHistory

/-!
The subtype order. A definition names only types that are older than itself, whatever their places
in the registry, so links lead back in time and following them comes to an end. Being of a type is
being joined to it by links.
-/

namespace GuardedScript

open Relation

/-- The types that the definition of a type names as its supertypes. -/
def linksIn (defs : List (TypeRef × Definition)) (a : TypeRef) : List TypeRef :=
  ((definitionIn defs a).map Definition.links).getD []

/-- The time at which a type was defined: how many definitions there were then. -/
def ageIn : List (TypeRef × Definition) → TypeRef → Nat
  | [], _ => 0
  | (t, _) :: older, a => if t = a then older.length + 1 else ageIn older a

namespace Registry

def links (r : Registry) (a : TypeRef) : List TypeRef := linksIn r.definitions a

/-- One type names the other as its parent, as a contract it supports or as one it extends. -/
def Link (r : Registry) (a b : TypeRef) : Prop := b ∈ r.links a

end Registry

section
variable {older defs : List (TypeRef × Definition)} {t a b c : TypeRef} {d : Definition}

theorem linksIn_self : linksIn ((t, d) :: older) t = d.links := by
  rw [linksIn, definitionIn_self]
  rfl

theorem linksIn_of_ne (h : t ≠ a) : linksIn ((t, d) :: older) a = linksIn older a := by
  rw [linksIn, definitionIn_of_ne h, linksIn]

theorem mem_linksIn (ha : definitionIn defs a = some d) (hb : b ∈ d.links) :
    b ∈ linksIn defs a := by
  rw [linksIn, ha]
  exact hb

theorem ageIn_self : ageIn ((t, d) :: older) t = older.length + 1 := if_pos rfl

theorem ageIn_of_ne (h : t ≠ a) : ageIn ((t, d) :: older) a = ageIn older a := if_neg h

theorem ageIn_le (defs : List (TypeRef × Definition)) (a : TypeRef) :
    ageIn defs a ≤ defs.length := by
  induction defs with
  | nil => exact Nat.le_refl _
  | cons e older ih =>
    obtain ⟨t, d⟩ := e
    by_cases h : t = a
    · rw [h, ageIn_self]
      exact Nat.le_refl _
    · rw [ageIn_of_ne h]
      exact Nat.le_succ_of_le ih

theorem Lawful.link_defined (hl : Lawful defs) (hb : b ∈ linksIn defs a) :
    (definitionIn defs b).isSome := by
  cases ha : definitionIn defs a with
  | none => simp [linksIn, ha] at hb
  | some d =>
    rw [linksIn, ha] at hb
    exact (hl.admitted ha).link_defined hb

theorem Lawful.link_older (hl : Lawful defs) (hb : b ∈ linksIn defs a) :
    ageIn defs b < ageIn defs a := by
  induction hl with
  | nil => cases hb
  | @cons t d older hd ht ho ih =>
    by_cases h : t = a
    · subst h
      rw [linksIn_self] at hb
      have hne := ne_of_defined ht (hd.link_defined hb)
      have hle := ageIn_le older b
      rw [ageIn_of_ne hne, ageIn_self]
      omega
    · rw [linksIn_of_ne h] at hb
      have hne := ne_of_defined ht (ho.link_defined hb)
      rw [ageIn_of_ne h, ageIn_of_ne hne]
      exact ih hb

theorem reaches_refl (defs : List (TypeRef × Definition)) (a : TypeRef) :
    reaches defs a a = true := by
  cases defs <;> simp [reaches]

theorem reaches_of_ne (h : t ≠ a) : reaches ((t, d) :: older) a b = reaches older a b := by
  by_cases hab : a = b
  · rw [hab, reaches_refl, reaches_refl]
  · simp [reaches, hab, h]

/-- Links can be followed among all definitions: the newer ones are never met again. -/
theorem Lawful.reaches_step (hl : Lawful defs) (a b : TypeRef) :
    reaches defs a b = true ↔ a = b ∨ ∃ c ∈ linksIn defs a, reaches defs c b = true := by
  induction hl with
  | nil => simp [reaches, linksIn, definitionIn]
  | @cons t d older hd ht ho ih =>
    have back : ∀ c, (definitionIn older c).isSome →
        reaches ((t, d) :: older) c b = reaches older c b :=
      fun c hc => reaches_of_ne (ne_of_defined ht hc)
    by_cases h : t = a
    · subst h
      have hself : reaches ((t, d) :: older) t b = true ↔
          t = b ∨ ∃ c ∈ d.links, reaches older c b = true := by
        simp [reaches]
      rw [hself, linksIn_self]
      refine or_congr_right (exists_congr fun c => and_congr_right fun hc => ?_)
      rw [back c (hd.link_defined hc)]
    · rw [reaches_of_ne h, linksIn_of_ne h, ih]
      refine or_congr_right (exists_congr fun c => and_congr_right fun hc => ?_)
      rw [back c (ho.link_defined hc)]

theorem Lawful.reaches_iff (hl : Lawful defs) :
    reaches defs a b = true ↔ ReflTransGen (fun x y => y ∈ linksIn defs x) a b := by
  constructor
  · intro h
    -- a type that is reached is older, so the induction is on the time of definition
    induction hn : ageIn defs a using Nat.strongRecOn generalizing a with
    | ind n ih =>
      rcases (hl.reaches_step a b).mp h with rfl | ⟨c, hc, hcb⟩
      · exact .refl
      · have hlt := hl.link_older hc
        exact .head hc (ih _ (hn ▸ hlt) hcb rfl)
  · intro h
    induction h using ReflTransGen.head_induction_on with
    | refl => exact reaches_refl defs b
    | head hc _ ih => exact (hl.reaches_step _ b).mpr (.inr ⟨_, hc, ih⟩)

theorem Lawful.links_wellFounded (hl : Lawful defs) :
    WellFounded fun b a => b ∈ linksIn defs a :=
  Subrelation.wf hl.link_older (measure (ageIn defs)).wf

theorem Lawful.older_of_reaches (hl : Lawful defs) (h : reaches defs a b = true) :
    a = b ∨ ageIn defs b < ageIn defs a := by
  rw [hl.reaches_iff] at h
  induction h with
  | refl => exact .inl rfl
  | tail _ hc ih =>
    have hlt := hl.link_older hc
    rcases ih with rfl | ih
    · exact .inr hlt
    · exact .inr (Nat.lt_trans hlt ih)

theorem Lawful.lineageIn_eq (hl : Lawful defs) {k : ConcreteType}
    (ha : definitionIn defs a = some (.concrete k)) :
    lineageIn defs a = (a, k) :: k.parent.elim [] (lineageIn defs) := by
  induction hl with
  | nil => cases ha
  | @cons t d older hd ht ho ih =>
    by_cases h : t = a
    · subst h
      rw [definitionIn_self] at ha
      cases ha
      cases hp : k.parent with
      | none => simp [lineageIn, hp]
      | some p =>
        obtain ⟨k', hk⟩ := ConcreteType.Admitted.parent hd p hp
        have hne := ne_of_defined ht (a := p) (by rw [hk]; rfl)
        simp [lineageIn, hp, hne]
    · rw [definitionIn_of_ne h] at ha
      rw [lineageIn_of_ne h, ih ha]
      cases hp : k.parent with
      | none => rfl
      | some p =>
        have hm : p ∈ linksIn older a := mem_linksIn ha (by simp [Definition.links, hp])
        have hne := ne_of_defined ht (ho.link_defined hm)
        simp only [Option.elim_some, lineageIn_of_ne hne]

theorem lineageIn_eq_nil (ha : ∀ k, definitionIn defs a ≠ some (.concrete k)) :
    lineageIn defs a = [] := by
  induction defs with
  | nil => rfl
  | cons e older ih =>
    obtain ⟨t, d⟩ := e
    by_cases h : t = a
    · subst h
      rw [definitionIn_self] at ha
      cases d with
      | concrete k => exact absurd rfl (ha k)
      | contract k => simp [lineageIn]
    · rw [definitionIn_of_ne h] at ha
      rw [lineageIn_of_ne h]
      exact ih ha

/-- Links lead to concrete types only from concrete types. -/
theorem Lawful.concrete_of_link (hl : Lawful defs) (hb : b ∈ linksIn defs a) {k : ConcreteType}
    (hk : definitionIn defs b = some (.concrete k)) :
    ∃ k', definitionIn defs a = some (.concrete k') := by
  cases ha : definitionIn defs a with
  | none => simp [linksIn, ha] at hb
  | some d =>
    rw [linksIn, ha] at hb
    cases d with
    | concrete k' => exact ⟨k', rfl⟩
    | contract k' =>
      obtain ⟨k'', hk''⟩ := hl.admitted ha b hb
      rw [hk''] at hk
      cases hk

theorem Lawful.concrete_of_reaches (hl : Lawful defs) (h : reaches defs a b = true)
    {k : ConcreteType} (hk : definitionIn defs b = some (.concrete k)) :
    ∃ k', definitionIn defs a = some (.concrete k') := by
  rw [hl.reaches_iff] at h
  induction h using ReflTransGen.head_induction_on with
  | refl => exact ⟨k, hk⟩
  | head hc _ ih =>
    obtain ⟨k', hk'⟩ := ih
    exact hl.concrete_of_link hc hk'

end

namespace Registry

variable {r : Registry}

theorem Orderly.lineage_eq (ho : r.Orderly) (t : TypeRef) :
    r.lineage t = match r.concrete t with
      | .ok (_, c) => (t, c) :: c.parent.elim [] r.lineage
      | .error _ => [] := by
  cases hc : r.concrete t with
  | ok e => exact ho.lawful.lineageIn_eq (concrete_eq_ok hc)
  | error e =>
    apply lineageIn_eq_nil
    intro k hk
    obtain ⟨name, hn⟩ := ho.concrete hk
    rw [hn] at hc
    cases hc

end Registry

/-- Whatever is asked of a registry, links never lead back to where they started, so both walks over
supertypes come to an end by following them: the search for a type, and the ancestors of a concrete
type. The search succeeds exactly if links join the two types. It is a partial order in which only
concrete types are below concrete types. -/
theorem links_order_types (qs : List Request) :
    let r := Registry.built qs
    WellFounded (fun b a => r.Link a b) ∧
    (∀ a, ¬ TransGen r.Link a a) ∧
    (∀ a b, r.isA a b = true ↔ a = b ∨ ∃ c ∈ r.links a, r.isA c b = true) ∧
    (∀ t, r.lineage t = match r.concrete t with
      | .ok (_, c) => (t, c) :: c.parent.elim [] r.lineage
      | .error _ => []) ∧
    (∀ a b, r.isA a b = true ↔ ReflTransGen r.Link a b) ∧
    (∀ a, r.isA a a = true) ∧
    (∀ a b c, r.isA a b = true → r.isA b c = true → r.isA a c = true) ∧
    (∀ a b, r.isA a b = true → r.isA b a = true → a = b) ∧
    ∀ a b, ¬ r.IsConcrete a → r.IsConcrete b → r.isA a b = false := by
  intro r
  have ho : r.Orderly := Registry.built_orderly qs
  have hl := ho.lawful
  have hiff : ∀ a b, r.isA a b = true ↔ ReflTransGen r.Link a b := fun a b => hl.reaches_iff
  refine ⟨hl.links_wellFounded, ?_, hl.reaches_step, ho.lineage_eq, hiff, reaches_refl _,
    ?_, ?_, ?_⟩
  · intro a h
    obtain ⟨c, hac, hca⟩ := TransGen.head'_iff.mp h
    have hlt := hl.link_older hac
    rcases hl.older_of_reaches (hl.reaches_iff.mpr hca) with rfl | hca
    · exact Nat.lt_irrefl _ hlt
    · exact Nat.lt_asymm hlt hca
  · intro a b c hab hbc
    rw [hiff] at hab hbc ⊢
    exact hab.trans hbc
  · intro a b hab hba
    rcases hl.older_of_reaches hab with h | hab
    · exact h
    rcases hl.older_of_reaches hba with h | hba
    · exact h.symm
    · exact absurd hba (Nat.lt_asymm hab)
  · intro a b ha hb
    obtain ⟨k, hk⟩ := hb
    cases h : r.isA a b with
    | false => rfl
    | true => exact absurd (hl.concrete_of_reaches h hk) ha

end GuardedScript
