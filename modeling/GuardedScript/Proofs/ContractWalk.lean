import Mathlib.Data.List.Basic
import GuardedScript.Proofs.Survey

/-!
The walk over a contract and those it extends, rule by rule. It may fail at every contract it comes
to. From a defined contract of a registry it never does: links lead to defined contracts only and
back in time, so each walk comes to one end, with every property collected once.
-/

namespace GuardedScript

/-- The contract is met, and its own properties are collected. -/
def Survey.enter (s : Survey) (c : TypeRef) (k : Contract) : Survey :=
  ⟨addNew s.properties k.properties, c :: s.visited⟩

namespace Registry

/-- A walk over contracts, in order: one that has been met is passed over, one that is not a
contract ends the walk, and of any other the parents are walked before the walk goes on. -/
inductive Walks (r : Registry) : List TypeRef → Survey → Except TypeError Survey → Prop where
  | done {s} : Walks r [] s (.ok s)
  | met {c cs s o} (hm : c ∈ s.visited) (hw : Walks r cs s o) : Walks r (c :: cs) s o
  | refused {c cs s e} (hm : c ∉ s.visited) (hc : r.contract c = .error e) :
      Walks r (c :: cs) s (.error e)
  | stopped {c cs s name k e} (hm : c ∉ s.visited) (hc : r.contract c = .ok (name, k))
      (hp : Walks r k.parents (s.enter c k) (.error e)) : Walks r (c :: cs) s (.error e)
  | entered {c cs s name k s' o} (hm : c ∉ s.visited) (hc : r.contract c = .ok (name, k))
      (hp : Walks r k.parents (s.enter c k) (.ok s')) (hw : Walks r cs s' o) :
      Walks r (c :: cs) s o

def IsContract (r : Registry) (t : TypeRef) : Prop := ∃ k, r.definition? t = some (.contract k)

/-- A property that the contract declares itself or takes over from one that it extends. -/
def Owes (r : Registry) (c : TypeRef) (p : Property) : Prop :=
  ∃ b k, r.isA c b = true ∧ r.definition? b = some (.contract k) ∧ p ∈ k.properties

variable {r : Registry} {cs : List TypeRef} {s s' : Survey}
variable {o o' : Except TypeError Survey}

namespace Walks

theorem unique (h : r.Walks cs s o) (h' : r.Walks cs s o') : o = o' := by
  induction h generalizing o' with
  | done =>
    cases h'
    rfl
  | met hm _ ih =>
    cases h' with
    | met _ hw => exact ih hw
    | refused hn | stopped hn | entered hn => exact absurd hm hn
  | refused hn hc =>
    cases h' with
    | met hm => exact absurd hm hn
    | refused _ hc' =>
      rw [hc] at hc'
      cases hc'
      rfl
    | stopped _ hc' | entered _ hc' =>
      rw [hc] at hc'
      cases hc'
  | stopped hn hc _ ih =>
    cases h' with
    | met hm => exact absurd hm hn
    | refused _ hc' =>
      rw [hc] at hc'
      cases hc'
    | stopped _ hc' hp =>
      rw [hc] at hc'
      cases hc'
      cases ih hp
      rfl
    | entered _ hc' hp =>
      rw [hc] at hc'
      cases hc'
      cases ih hp
  | entered hn hc _ _ ihp ihw =>
    cases h' with
    | met hm => exact absurd hm hn
    | refused _ hc' =>
      rw [hc] at hc'
      cases hc'
    | stopped _ hc' hp =>
      rw [hc] at hc'
      cases hc'
      cases ihp hp
    | entered _ hc' hp hw =>
      rw [hc] at hc'
      cases hc'
      cases ihp hp
      exact ihw hw

theorem append {more : List TypeRef} (h : r.Walks cs s (.ok s')) (h' : r.Walks more s' o) :
    r.Walks (cs ++ more) s o := by
  generalize he : Except.ok s' = first at h
  induction h with
  | done =>
    cases he
    exact h'
  | met hm _ ih => exact .met hm (ih he)
  | refused | stopped => cases he
  | entered hm hc hp _ _ ih => exact .entered hm hc hp (ih he)

end Walks

end Registry

theorem nodup_addNew {known : List Property} (added : List Property) (hn : known.Nodup) :
    (addNew known added).Nodup := by
  induction added generalizing known with
  | nil => exact hn
  | cons p added ih =>
    rw [addNew, List.foldl_cons, ← addNew]
    apply ih
    split
    · exact hn
    · next hp =>
      refine List.nodup_append.mpr ⟨hn, List.nodup_cons.mpr ⟨List.not_mem_nil, .nil⟩, ?_⟩
      intro q hq q' hq' heq
      rw [List.mem_singleton.mp hq'] at heq
      exact hp (heq ▸ hq)

theorem Registry.Walks.nodup {r : Registry} {cs : List TypeRef} {s s' : Survey}
    (h : r.Walks cs s (.ok s')) (hn : s.properties.Nodup) : s'.properties.Nodup := by
  generalize he : Except.ok s' = o at h
  induction h generalizing s' with
  | done =>
    cases he
    exact hn
  | met _ _ ih => exact ih hn he
  | refused | stopped => cases he
  | entered _ _ _ _ ihp ihw => exact ihw (ihp (nodup_addNew _ hn) rfl) he

/-- The parents of a contract can be walked among all definitions. -/
theorem Lawful.surveyIn_eq {defs : List (TypeRef × Definition)} (hl : Lawful defs) {c : TypeRef}
    {k : Contract} (hc : definitionIn defs c = some (.contract k)) (s : Survey) :
    surveyIn defs c s = if c ∈ s.visited then s
      else k.parents.foldl (fun s p => surveyIn defs p s) (s.enter c k) := by
  induction hl with
  | nil => cases hc
  | @cons t d older hd ht ho ih =>
    by_cases h : t = c
    · subst h
      rw [definitionIn_self] at hc
      cases hc
      have hparents : ∀ s, ∀ p ∈ k.parents,
          surveyIn older p s = surveyIn ((t, .contract k) :: older) p s := by
        intro s p hp
        rw [surveyIn_of_ne (ne_of_defined ht (hd.link_defined hp))]
      simp only [surveyIn, if_true]
      rw [List.foldl_ext _ _ _ hparents]
      rfl
    · rw [definitionIn_of_ne h] at hc
      have hparents : ∀ s, ∀ p ∈ k.parents,
          surveyIn older p s = surveyIn ((t, d) :: older) p s := by
        intro s p hp
        rw [surveyIn_of_ne (ne_of_defined ht (ho.link_defined (mem_linksIn hc hp)))]
      rw [surveyIn_of_ne h, ih hc, List.foldl_ext _ _ _ hparents]

namespace Registry

variable {r : Registry} {c : TypeRef} {cs : List TypeRef}

theorem walks_each (step : ∀ a ∈ cs, ∀ s, r.Walks [a] s (.ok (surveyIn r.definitions a s)))
    (s : Survey) : r.Walks cs s (.ok (cs.foldl (fun s a => surveyIn r.definitions a s) s)) := by
  induction cs generalizing s with
  | nil => exact .done
  | cons a cs ih =>
    have hrest := ih (fun b hb => step b (List.mem_cons_of_mem a hb)) (surveyIn r.definitions a s)
    exact (step a List.mem_cons_self s).append hrest

/-- From a defined contract the walk comes to its end without a failure. -/
theorem Orderly.walks (ho : r.Orderly) (hc : r.IsContract c) (s : Survey) :
    r.Walks [c] s (.ok (surveyIn r.definitions c s)) := by
  induction c using ho.lawful.links_wellFounded.induction generalizing s with
  | _ c ih =>
    obtain ⟨k, hk⟩ := hc
    rw [ho.lawful.surveyIn_eq hk]
    split
    · next hm => exact .met hm .done
    · next hm =>
      obtain ⟨name, hname⟩ := ho.contract hk
      refine .entered hm hname (walks_each (fun p hp => ?_) _) .done
      exact ih p (mem_linksIn hk hp) (ho.lawful.admitted hk p hp)

theorem Orderly.contractProperties_eq (ho : r.Orderly) (hc : r.IsContract c) :
    r.contractProperties c = .ok (promisesIn r.definitions c) := by
  obtain ⟨k, hk⟩ := hc
  obtain ⟨name, hname⟩ := ho.contract hk
  rw [contractProperties, hname]
  rfl

theorem isContract_of_ok {ps : List Property} (h : r.contractProperties c = .ok ps) :
    r.IsContract c := by
  unfold contractProperties at h
  split at h
  · cases h
  · next e he => exact ⟨e.2, contract_eq_ok he⟩

/-- The walk has one end, which tells what the contract promises or why it cannot be walked. -/
theorem Orderly.walk_ends (ho : r.Orderly) (c : TypeRef) :
    ∃ o, r.Walks [c] ⟨[], []⟩ o ∧ r.contractProperties c = o.map Survey.properties := by
  cases hc : r.contract c with
  | error e =>
    refine ⟨.error e, .refused List.not_mem_nil hc, ?_⟩
    rw [contractProperties, hc]
    rfl
  | ok e =>
    have hk : r.IsContract c := ⟨e.2, contract_eq_ok hc⟩
    exact ⟨_, ho.walks hk ⟨[], []⟩, ho.contractProperties_eq hk⟩

end Registry

/-- Whatever is asked of a registry, and however the parents of its contracts lie, the walk over a
contract comes to exactly one end, and that is the answer. It succeeds exactly for defined
contracts; it then lists the properties of all contracts that the contract is, none of them
twice. -/
theorem promises_collected_once (qs : List Request) (c : TypeRef) :
    let r := Registry.built qs
    (∃ o, r.Walks [c] ⟨[], []⟩ o ∧ (∀ o', r.Walks [c] ⟨[], []⟩ o' → o' = o) ∧
      r.contractProperties c = o.map Survey.properties) ∧
    ((∃ ps, r.contractProperties c = .ok ps) ↔ r.IsContract c) ∧
    ∀ ps, r.contractProperties c = .ok ps → ps.Nodup ∧ ∀ p, p ∈ ps ↔ r.Owes c p := by
  intro r
  have ho : r.Orderly := Registry.built_orderly qs
  refine ⟨?_, ⟨?_, ?_⟩, ?_⟩
  · obtain ⟨o, hw, heq⟩ := ho.walk_ends c
    exact ⟨o, hw, fun o' hw' => hw'.unique hw, heq⟩
  · rintro ⟨ps, hps⟩
    exact Registry.isContract_of_ok hps
  · exact fun hc => ⟨_, ho.contractProperties_eq hc⟩
  · intro ps hps
    have hc := Registry.isContract_of_ok hps
    rw [ho.contractProperties_eq hc] at hps
    cases hps
    obtain ⟨k, hk⟩ := hc
    exact ⟨(ho.walks ⟨k, hk⟩ ⟨[], []⟩).nodup List.nodup_nil,
      fun p => ho.lawful.mem_promisesIn hk⟩

namespace Guild

def hall : Property := ⟨"hall", ⟨0⟩, {}⟩
def rank : Property := ⟨"rank", ⟨0⟩, {}⟩
def badge : Property := ⟨"badge", ⟨0⟩, {}⟩

/-- A contract at the first place extends later ones, one of them twice, which lead to a third. -/
def requests : List Request :=
  [.declare ⟨["Master"], by decide, by decide⟩,
   .contract { name := ⟨["Member"], by decide, by decide⟩, properties := [(badge, .exposed)] },
   .contract { name := ⟨["Fellow"], by decide, by decide⟩,
               properties := [(rank, .exposed), (badge, .exposed)], parents := [⟨1⟩] },
   .contract { name := ⟨["Master"], by decide, by decide⟩, properties := [(hall, .exposed)],
               parents := [⟨2⟩, ⟨1⟩, ⟨2⟩] }]

end Guild

theorem master_promises_once :
    (Registry.built Guild.requests).contractProperties ⟨0⟩ =
      .ok [Guild.hall, Guild.rank, Guild.badge] ∧
    [Guild.hall, Guild.rank, Guild.badge].Nodup ∧
    (Registry.built Guild.requests).Owes ⟨0⟩ Guild.badge := by
  have hok : (Registry.built Guild.requests).contractProperties ⟨0⟩ =
      .ok [Guild.hall, Guild.rank, Guild.badge] := by rfl
  obtain ⟨_, _, hlist⟩ := promises_collected_once Guild.requests ⟨0⟩
  obtain ⟨hnodup, howes⟩ := hlist _ hok
  exact ⟨hok, hnodup, (howes Guild.badge).mp (by decide)⟩

end GuardedScript
