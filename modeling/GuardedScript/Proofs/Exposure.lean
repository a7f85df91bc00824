import GuardedScript.Proofs.Outline
import GuardedScript.Proofs.TypedPaths

/-!
Hidden items are out of reach of paths. Whatever a path of several segments leads to or sets is an
exposed item of an object or an exposed static of one of its ancestors, since each segment but the
first is looked up on an object from outside. And heaps that differ in hidden items only, other than
items of the group where the path starts, cannot be told apart by paths.
-/

namespace GuardedScript

/-- The item is kept inside its object or its type. -/
def ItemId.isHidden : ItemId → Bool
  | .field _ .hidden _ | .static _ _ .hidden _ => true
  | _ => false

/-- The group is kept inside its object or its type. -/
def GroupId.isHidden : GroupId → Bool
  | .fields _ .hidden | .statics _ _ .hidden => true
  | _ => false

namespace Heap

variable {h h' : Heap} {o : ObjectId} {key : String} {i : Item}

/-- The item is an exposed one of the object itself, or an exposed static of a type from which the
object descends. -/
def Exposes (h : Heap) (o : ObjectId) (i : Item) : Prop :=
  ∃ x, h.object? o = some x ∧ (i ∈ h.items (.fields o .exposed) ∨
    ∃ e ∈ (h.registry x.registry).lineage x.type, i ∈ h.items (.statics x.registry e.1 .exposed))

/-- The item is one of those that the group shows. -/
def Shows (h : Heap) (g : Group) (id : ItemId) : Prop :=
  ∃ key i, (h.view g).find h key = some i ∧ i.id = id

/-- On the group, every path gives the same in both heaps, and setting its item leaves heaps that
differ at most in the items `D`. -/
structure SamePaths (D : ItemId → Prop) (g : Group) (h h' : Heap) : Prop where
  resolve : ∀ path, h'.resolvePath (h'.view g) path = h.resolvePath (h.view g) path
  read : ∀ path, h'.readPath (h'.view g) path = h.readPath (h.view g) path
  contains : ∀ path, h'.containsPath (h'.view g) path = h.containsPath (h.view g) path
  set : ∀ path value, SameResult (fun p q => q.1 = p.1 ∧ p.2.SameExcept D q.2)
    (h.setPath (h.view g) path value) (h'.setPath (h'.view g) path value)

theorem exposes_of_find (hi : (h.outside o).find h key = some i) : h.Exposes o i := by
  cases hx : h.object? o with
  | none =>
    rw [outside, outerGroups, hx] at hi
    cases hi
  | some x =>
    refine ⟨x, hx, ?_⟩
    rw [outside_find hx, Option.or_eq_some_iff] at hi
    rcases hi with hi | ⟨_, hi⟩
    · obtain ⟨p, hp, rfl⟩ := Option.map_eq_some_iff.mp hi
      exact .inl (List.mem_map_of_mem (withKey_eq_some hp).1)
    · obtain ⟨e, he, hi⟩ := List.exists_of_findSome?_eq_some hi
      obtain ⟨p, hp, rfl⟩ := Option.map_eq_some_iff.mp hi
      exact .inr ⟨e, he, List.mem_map_of_mem (withKey_eq_some hp).1⟩

theorem Exposes.not_hidden (he : h.Exposes o i) : i.id.isHidden = false := by
  obtain ⟨x, _, hi | ⟨e, _, hi⟩⟩ := he
  · obtain ⟨p, _, rfl⟩ := List.mem_map.mp hi
    rfl
  · obtain ⟨p, _, rfl⟩ := List.mem_map.mp hi
    rfl

/-- The items of hidden groups are hidden. -/
theorem hidden_of_mem_items {x : GroupId} (hx : x.isHidden = true) (hi : i ∈ h.items x) :
    i.id.isHidden = true := by
  cases x with
  | fields o v =>
    cases v with
    | exposed => cases hx
    | hidden =>
      obtain ⟨p, _, rfl⟩ := List.mem_map.mp hi
      rfl
  | statics r t v =>
    cases v with
    | exposed => cases hx
    | hidden =>
      obtain ⟨p, _, rfl⟩ := List.mem_map.mp hi
      rfl
  | loose n => cases hx

theorem Exposes.not_mem (he : h.Exposes o i) {x : GroupId} (hx : x.isHidden = true) :
    i ∉ h.items x := by
  intro hi
  have hidden := hidden_of_mem_items hx hi
  rw [he.not_hidden] at hidden
  cases hidden

/-- A path of several segments, and every path on an object from outside, leads to what some object
exposes. -/
theorem resolvePath_exposes {g : Group} {path : String}
    (hp : 2 ≤ (Text.segments path).length ∨ ∃ o, g = .object o)
    (hr : h.resolvePath (h.view g) path = .ok i) : ∃ o, h.Exposes o i := by
  rcases resolvePath_ok hr with ⟨key, hs, hi⟩ | ⟨o, key, hi⟩
  · rcases hp with hp | ⟨o, rfl⟩
    · rw [hs] at hp
      simp at hp
    · exact ⟨o, exposes_of_find hi⟩
  · exact ⟨o, exposes_of_find hi⟩

theorem setIn_outside_exposes {value : ObjectId} {b : Bool}
    (hs : h.setIn (h.outside o) key value = .ok (b, h')) : b = false ∧ h' = h ∨
      b = true ∧ ∃ o i, h.Exposes o i ∧ h' = h.assign i.id (some value) := by
  rcases setIn_cases hs with hkept | ⟨rfl, i, hi, _, rfl⟩
  · exact .inl hkept
  · exact .inr ⟨rfl, o, i, exposes_of_find hi, rfl⟩

theorem setPath_exposes {g : Group} {path : String} {value : ObjectId} {b : Bool}
    (hp : 2 ≤ (Text.segments path).length ∨ ∃ o, g = .object o)
    (hs : h.setPath (h.view g) path value = .ok (b, h')) : b = false ∧ h' = h ∨
      b = true ∧ ∃ o i, h.Exposes o i ∧ h' = h.assign i.id (some value) := by
  unfold setPath putPath at hs
  split at hs
  · next hcut =>
    rcases hp with hp | ⟨o, rfl⟩
    · obtain ⟨before, last, hsome⟩ := Text.cutLast_isSome hp
      rw [hcut] at hsome
      cases hsome
    · exact setIn_outside_exposes hs
  · split at hs
    · cases hs
    · split at hs
      · cases hs
      · exact setIn_outside_exposes hs

theorem outside_withholds_hidden {D : ItemId → Prop} (hD : ∀ {id}, D id → id.isHidden = true)
    (h : Heap) (o : ObjectId) : (h.outside o).Withholds D h := by
  intro key i hi _ hid
  have hidden := hD hid
  rw [(exposes_of_find hi).not_hidden] at hidden
  cases hidden

theorem SameExcept.samePaths {D : ItemId → Prop} {g : Group} (hs : h.SameExcept D h')
    (hout : ∀ o, (h.outside o).Withholds D h) (hg : (h.view g).Withholds D h) :
    SamePaths D g h h' where
  resolve path := by rw [hs.view, hs.resolvePath hout hg]
  read path := by rw [hs.view, hs.readPath hout hg]
  contains path := by rw [containsPath, hs.view, hs.resolvePath hout hg, ← containsPath]
  set path value := by
    rw [hs.view]
    exact hs.setPath hout hg path value

end Heap

/-- Paths do not reach hidden items past their first segment. Let a path have several segments or
start at an object seen from outside: whatever it leads to, and whatever is set along it, is exposed
by some object and lies in no hidden group. If heaps differ in hidden items only, but not in items
that a group shows, then every path on the group gives the same in both; on an object seen from
outside this holds for all hidden items. -/
theorem hidden_items_unreachable (h : Heap) :
    (∀ g path, 2 ≤ (Text.segments path).length ∨ (∃ o, g = .object o) →
      (∀ i, h.resolvePath (h.view g) path = .ok i →
        ∃ o, h.Exposes o i ∧ ∀ x : GroupId, x.isHidden = true → i ∉ h.items x) ∧
      ∀ value b h', h.setPath (h.view g) path value = .ok (b, h') →
        b = false ∧ h' = h ∨ b = true ∧ ∃ o i, h.Exposes o i ∧
          (∀ x : GroupId, x.isHidden = true → i ∉ h.items x) ∧ h' = h.assign i.id (some value)) ∧
    (∀ g h', h.SameExcept (fun id => id.isHidden = true ∧ ¬ h.Shows g id) h' →
      Heap.SamePaths (fun id => id.isHidden = true ∧ ¬ h.Shows g id) g h h') ∧
    ∀ o h', h.SameExcept (fun id => id.isHidden = true) h' →
      Heap.SamePaths (fun id => id.isHidden = true) (.object o) h h' := by
  refine ⟨?_, ?_, ?_⟩
  · intro g path hp
    constructor
    · intro i hr
      obtain ⟨o, he⟩ := Heap.resolvePath_exposes hp hr
      exact ⟨o, he, fun x hx => he.not_mem hx⟩
    · intro value b h' hs
      rcases Heap.setPath_exposes hp hs with hkept | ⟨rfl, o, i, he, rfl⟩
      · exact .inl hkept
      · exact .inr ⟨rfl, o, i, he, fun x hx => he.not_mem hx, rfl⟩
  · intro g h' hs
    apply hs.samePaths
    · exact Heap.outside_withholds_hidden And.left h
    · intro key i hi _ hid
      exact hid.2 ⟨key, i, hi, rfl⟩
  · intro o h' hs
    apply hs.samePaths
    · exact Heap.outside_withholds_hidden id h
    · exact Heap.outside_withholds_hidden id h o

namespace Kennel

def collarId : ItemId := .field ⟨0⟩ .hidden "collar"

/-- The dog wears a collar. -/
def collared : Heap := visited.assign collarId (some ⟨0⟩)

def yard : Group := .plain (.loose 0)

theorem yard_hides_collar : ¬ visited.Shows yard collarId := by
  rintro ⟨key, i, hi, hid⟩
  obtain ⟨x, hx, hf⟩ := View.find_groups hi
  rw [show (visited.view yard).groups = [.loose 0] from rfl, List.mem_singleton] at hx
  subst hx
  obtain ⟨id, he, hit⟩ := Option.bind_eq_some_iff.mp hf
  replace he : (Assoc.ofList [("pet", ItemId.loose 0)]).get? key = some id := he
  obtain ⟨⟩ := List.mem_singleton.mp (Assoc.mem_of_get?_ofList he)
  rw [Heap.item?_id hit] at hid
  cases hid

end Kennel

/-- The yard leads to the dog's exposed owner; whether the dog wears a collar does not show. -/
theorem collar_out_of_reach :
    Kennel.visited.value? Kennel.collarId = none ∧
    Kennel.collared.value? Kennel.collarId = some ⟨0⟩ ∧
    (∃ i, Kennel.visited.resolvePath (Kennel.visited.view Kennel.yard) "pet.owner" = .ok i ∧
      ∃ o, Kennel.visited.Exposes o i) ∧
    Kennel.collared.resolvePath (Kennel.collared.view Kennel.yard) "pet.collar" =
      .error (.keyNotFound "collar") ∧
    Kennel.collared.readPath (Kennel.collared.view (.object ⟨0⟩)) "collar" =
      .error (.keyNotFound "collar") := by
  obtain ⟨hreach, hblind, houtside⟩ := hidden_items_unreachable Kennel.visited
  have hyard := hblind Kennel.yard Kennel.collared
    (.of_assign _ Kennel.collarId _ ⟨rfl, Kennel.yard_hides_collar⟩)
  have hdog := houtside ⟨0⟩ Kennel.collared (.of_assign _ Kennel.collarId _ rfl)
  refine ⟨rfl, rfl, ?_, ?_, ?_⟩
  · have howner : Kennel.visited.resolvePath (Kennel.visited.view Kennel.yard) "pet.owner" =
        .ok ⟨.static ⟨0⟩ ⟨4⟩ .exposed "owner", Kennel.owner⟩ := by cbv
    obtain ⟨o, he, _⟩ := (hreach Kennel.yard "pet.owner" (.inl (by decide))).1 _ howner
    exact ⟨_, howner, o, he⟩
  · rw [hyard.resolve]
    cbv
  · rw [hdog.read]
    cbv

end GuardedScript
