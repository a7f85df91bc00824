import GuardedScript.Memory.Stack

/-!
What a group reaches. A group is made of leaves, and a stack among them leads on to its layers. In a
sound heap every reference leads to something, and stacks are nested at most as deep as there are
stacks, so the view of a group shows exactly the plain groups that it reaches.
-/

namespace GuardedScript

mutual

/-- The plain groups, stacks and objects that a group is made of. -/
def Group.leaves : Group → List Group
  | .plain g => [.plain g]
  | .linked groups => Group.leavesList groups
  | .writable groups target => Group.leavesList groups ++ Group.leaves target
  | .stack s => [.stack s]
  | .object o => [.object o]

def Group.leavesList : List Group → List Group
  | [] => []
  | g :: rest => Group.leaves g ++ Group.leavesList rest

end

theorem Group.leavesList_map_plain (ids : List GroupId) :
    Group.leavesList (ids.map .plain) = ids.map .plain := by
  induction ids with
  | nil => rfl
  | cons g ids ih => rw [List.map_cons, Group.leavesList, ih, Group.leaves, List.singleton_append]

namespace Heap

inductive Within (h : Heap) : Group → GroupId → Prop where
  | plain {g x} (hg : .plain x ∈ g.leaves) : Within h g x
  | object {g o x} (hg : .object o ∈ g.leaves) (hx : x ∈ h.outerGroups o) : Within h g x
  | layer {g τ g' x} (hg : .stack τ ∈ g.leaves) (hl : g' ∈ h.layers τ) (hx : Within h g' x) :
      Within h g x

theorem within_stack {h : Heap} {τ : StackId} {x : GroupId} :
    h.Within (.stack τ) x ↔ ∃ g ∈ h.layers τ, h.Within g x := by
  constructor
  · intro hw
    cases hw with
    | plain hg => simp [Group.leaves] at hg
    | object hg => simp [Group.leaves] at hg
    | layer hg hl hx =>
      simp only [Group.leaves, List.mem_singleton, Group.stack.injEq] at hg
      subst hg
      exact ⟨_, hl, hx⟩
  · rintro ⟨g, hl, hx⟩
    exact .layer (by simp [Group.leaves]) hl hx

theorem within_plain {h : Heap} {g x : GroupId} : h.Within (.plain g) x ↔ x = g := by
  constructor
  · intro hw
    cases hw with
    | plain hg => simpa [Group.leaves] using hg
    | object hg => simp [Group.leaves] at hg
    | layer hg => simp [Group.leaves] at hg
  · rintro rfl
    exact .plain (by simp [Group.leaves])

end Heap

theorem View.groupsList_map_plain (ids : List GroupId) :
    View.groupsList (ids.map .plain) = ids := by
  induction ids with
  | nil => rfl
  | cons g ids ih => rw [List.map_cons, View.groupsList, ih, View.groups, List.singleton_append]

section
variable (h : Heap) (ofStack : StackId → View) (x : GroupId)

/-- What the leaf shows of the plain groups, given what stacks show. -/
def LeafShows : Group → Prop
  | .plain g => x = g
  | .stack τ => x ∈ (ofStack τ).groups
  | .object o => x ∈ h.outerGroups o
  | _ => False

mutual

theorem Group.mem_groups_openWith : ∀ g : Group,
    x ∈ (g.openWith h ofStack).groups ↔ ∃ leaf ∈ g.leaves, LeafShows h ofStack x leaf
  | .plain g => by simp [Group.openWith, View.groups, Group.leaves, LeafShows]
  | .linked gs => by
    rw [Group.openWith, View.groups, Group.leaves]
    exact Group.mem_groupsList_openList gs
  | .writable gs target => by
    rw [Group.openWith, View.groups, Group.leaves, List.mem_append,
      Group.mem_groupsList_openList gs, Group.mem_groups_openWith target]
    simp only [List.mem_append, or_and_right, exists_or]
  | .stack τ => by simp [Group.openWith, Group.leaves, LeafShows]
  | .object o => by
    simp [Group.openWith, View.groups, View.groupsList_map_plain, Group.leaves, LeafShows]

theorem Group.mem_groupsList_openList : ∀ gs : List Group,
    x ∈ View.groupsList (Group.openList h ofStack gs) ↔
      ∃ leaf ∈ Group.leavesList gs, LeafShows h ofStack x leaf
  | [] => by simp [Group.openList, View.groupsList, Group.leavesList]
  | g :: gs => by
    rw [Group.openList, View.groupsList, Group.leavesList, List.mem_append,
      Group.mem_groups_openWith g, Group.mem_groupsList_openList gs]
    simp only [List.mem_append, or_and_right, exists_or]

end

end

section
variable {h : Heap} {key : String}

mutual

theorem View.find_groups : ∀ {v : View} {i : Item}, v.find h key = some i →
    ∃ x ∈ v.groups, h.find x key = some i
  | .plain g, i, hi => ⟨g, by simp [View.groups], by simpa [View.find] using hi⟩
  | .linked parts, i, hi => by
    rw [View.find] at hi
    exact View.findFirst_groups hi
  | .writable parts target, i, hi => by
    rw [View.find, Option.or_eq_some_iff] at hi
    rcases hi with hi | ⟨_, hi⟩
    · obtain ⟨x, hx, hf⟩ := View.findFirst_groups hi
      exact ⟨x, by simp [View.groups, hx], hf⟩
    · obtain ⟨x, hx, hf⟩ := View.find_groups hi
      exact ⟨x, by simp [View.groups, hx], hf⟩
  | .layered layers, i, hi => by
    rw [View.find] at hi
    exact View.findLast_groups hi

theorem View.findFirst_groups : ∀ {vs : List View} {i : Item}, View.findFirst h key vs = some i →
    ∃ x ∈ View.groupsList vs, h.find x key = some i
  | [], i, hi => by simp [View.findFirst] at hi
  | v :: vs, i, hi => by
    rw [View.findFirst, Option.or_eq_some_iff] at hi
    rcases hi with hi | ⟨_, hi⟩
    · obtain ⟨x, hx, hf⟩ := View.find_groups hi
      exact ⟨x, by simp [View.groupsList, hx], hf⟩
    · obtain ⟨x, hx, hf⟩ := View.findFirst_groups hi
      exact ⟨x, by simp [View.groupsList, hx], hf⟩

theorem View.findLast_groups : ∀ {vs : List View} {i : Item}, View.findLast h key vs = some i →
    ∃ x ∈ View.groupsList vs, h.find x key = some i
  | [], i, hi => by simp [View.findLast] at hi
  | v :: vs, i, hi => by
    rw [View.findLast, Option.or_eq_some_iff] at hi
    rcases hi with hi | ⟨_, hi⟩
    · obtain ⟨x, hx, hf⟩ := View.findLast_groups hi
      exact ⟨x, by simp [View.groupsList, hx], hf⟩
    · obtain ⟨x, hx, hf⟩ := View.find_groups hi
      exact ⟨x, by simp [View.groupsList, hx], hf⟩

end

mutual

theorem View.contains_iff : ∀ v : View, v.contains h key = true ↔
    ∃ x ∈ v.groups, h.hasKey x key = true
  | .plain g => by simp [View.contains, View.groups]
  | .linked parts => by
    rw [View.contains, View.groups]
    exact View.containsAny_iff parts
  | .writable parts target => by
    rw [View.contains, View.groups, Bool.or_eq_true, View.containsAny_iff parts,
      View.contains_iff target]
    simp only [List.mem_append, or_and_right, exists_or]
  | .layered layers => by
    rw [View.contains, View.groups]
    exact View.containsAny_iff layers

theorem View.containsAny_iff : ∀ vs : List View, View.containsAny h key vs = true ↔
    ∃ x ∈ View.groupsList vs, h.hasKey x key = true
  | [] => by simp [View.containsAny, View.groupsList]
  | v :: vs => by
    rw [View.containsAny, View.groupsList, Bool.or_eq_true, View.contains_iff v,
      View.containsAny_iff vs]
    simp only [List.mem_append, or_and_right, exists_or]

end

end

theorem Group.mem_leavesList {leaf : Group} {gs : List Group} :
    leaf ∈ Group.leavesList gs ↔ ∃ g ∈ gs, leaf ∈ g.leaves := by
  induction gs with
  | nil => simp [Group.leavesList]
  | cons g gs ih => simp [Group.leavesList, ih]

namespace Heap

/-- The item that a loose group keeps under a key. -/
def itemId? (h : Heap) (n : Nat) (key : String) : Option ItemId :=
  (h.groups.get? n).bind fun g => g.items.get? key

def HasLeaf (h : Heap) : Group → Prop
  | .plain (.loose n) => n < h.groups.size
  | .plain (.fields o _) | .object o => (h.object? o).isSome
  | .stack τ => τ.index < h.layered.size
  | _ => True

/-- The group refers only to objects, loose groups and stacks that the heap has. -/
def Knows (h : Heap) (g : Group) : Prop := ∀ leaf ∈ g.leaves, h.HasLeaf leaf

/-- References lead somewhere, and the rank of a stack bounds how deep stacks lie inside it. -/
structure SoundBy (h : Heap) (rank : StackId → Nat) : Prop where
  items : ∀ {n key k}, h.itemId? n key = some (.loose k) → k < h.cells.size
  layers : ∀ {σ g}, g ∈ h.layers σ → h.Knows g
  nested : ∀ {σ g τ}, g ∈ h.layers σ → .stack τ ∈ g.leaves → rank τ < rank σ
  bounded : ∀ {σ}, σ.index < h.layered.size → rank σ < h.layered.size

def Sound (h : Heap) : Prop := ∃ rank, h.SoundBy rank

variable {h : Heap} {x : GroupId}

theorem within_of_stackView {fuel : Nat} {τ : StackId}
    (hx : x ∈ (h.stackView fuel τ).groups) : h.Within (.stack τ) x := by
  induction fuel generalizing τ with
  | zero => simp [stackView, View.groups, View.groupsList] at hx
  | succ fuel ih =>
    rw [stackView, View.groups, Group.mem_groupsList_openList] at hx
    obtain ⟨leaf, hl, hs⟩ := hx
    obtain ⟨g, hg, hl⟩ := Group.mem_leavesList.mp hl
    refine within_stack.mpr ⟨g, hg, ?_⟩
    cases leaf with
    | plain y => cases hs; exact .plain hl
    | object o => exact .object hl hs
    | stack τ' =>
      obtain ⟨g', hg', hx⟩ := within_stack.mp (ih hs)
      exact .layer hl hg' hx
    | linked | writable => cases hs

theorem within_of_view {g : Group} (hx : x ∈ (h.view g).groups) : h.Within g x := by
  rw [view, Group.mem_groups_openWith] at hx
  obtain ⟨leaf, hl, hs⟩ := hx
  cases leaf with
  | plain y => cases hs; exact .plain hl
  | object o => exact .object hl hs
  | stack τ =>
    obtain ⟨g', hg', hx⟩ := within_stack.mp (within_of_stackView hs)
    exact .layer hl hg' hx
  | linked | writable => cases hs

theorem SoundBy.stackView_complete {rank : StackId → Nat} (hs : h.SoundBy rank) {fuel : Nat}
    {τ : StackId} (hr : rank τ < fuel) (hx : h.Within (.stack τ) x) :
    x ∈ (h.stackView fuel τ).groups := by
  induction fuel generalizing τ with
  | zero => omega
  | succ fuel ih =>
    rw [stackView, View.groups, Group.mem_groupsList_openList]
    obtain ⟨g, hg, hx⟩ := within_stack.mp hx
    cases hx with
    | plain hl => exact ⟨_, Group.mem_leavesList.mpr ⟨g, hg, hl⟩, rfl⟩
    | object hl hx => exact ⟨_, Group.mem_leavesList.mpr ⟨g, hg, hl⟩, hx⟩
    | layer hl hg' hx =>
      have hn := hs.nested hg hl
      exact ⟨_, Group.mem_leavesList.mpr ⟨g, hg, hl⟩,
        ih (by omega) (within_stack.mpr ⟨_, hg', hx⟩)⟩

/-- In a sound heap a view shows all that the group reaches. -/
theorem Sound.view_complete (hs : h.Sound) {g : Group} (hg : h.Knows g) (hx : h.Within g x) :
    x ∈ (h.view g).groups := by
  obtain ⟨rank, hs⟩ := hs
  rw [view, Group.mem_groups_openWith]
  cases hx with
  | plain hl => exact ⟨_, hl, rfl⟩
  | object hl hx => exact ⟨_, hl, hx⟩
  | layer hl hg' hx =>
    exact ⟨_, hl, hs.stackView_complete (hs.bounded (hg _ hl)) (within_stack.mpr ⟨_, hg', hx⟩)⟩

/-- A layer that passes the check reaches no group with that key. -/
theorem Sound.no_key (hs : h.Sound) {g : Group} (hg : h.Knows g) {key : String}
    (hc : (h.view g).contains h key = false) (hx : h.Within g x) : h.hasKey x key = false := by
  cases hk : h.hasKey x key with
  | false => rfl
  | true =>
    have ht := (View.contains_iff _).mpr ⟨x, hs.view_complete hg hx, hk⟩
    rw [hc] at ht
    cases ht

theorem withKey_eq_some {key : String} {ps : List Property} {p : Property}
    (hp : withKey key ps = some p) : p ∈ ps ∧ p.key = key :=
  ⟨List.mem_of_find?_eq_some hp, by simpa using List.find?_some hp⟩

theorem withKey_isSome {key : String} {ps : List Property} :
    (withKey key ps).isSome = ps.any (·.key = key) := by
  rw [Bool.eq_iff_iff, withKey, List.find?_isSome, List.any_eq_true]

theorem hasKey_of_find {key : String} {i : Item} (hi : h.find x key = some i) :
    h.hasKey x key = true := by
  cases x with
  | fields o v =>
    obtain ⟨p, hp, _⟩ := Option.map_eq_some_iff.mp hi
    obtain ⟨hm, hk⟩ := withKey_eq_some hp
    exact List.any_eq_true.mpr ⟨p, hm, decide_eq_true hk⟩
  | statics r t v =>
    obtain ⟨p, hp, _⟩ := Option.map_eq_some_iff.mp hi
    obtain ⟨hm, hk⟩ := withKey_eq_some hp
    exact List.any_eq_true.mpr ⟨p, hm, decide_eq_true hk⟩
  | loose n =>
    obtain ⟨id, he, _⟩ := Option.bind_eq_some_iff.mp hi
    obtain ⟨g, hg, hk⟩ := Option.bind_eq_some_iff.mp he
    simp [hasKey, hg, Assoc.contains, hk]

theorem hasKey_loose {n : Nat} {key : String} :
    h.hasKey (.loose n) key = (h.itemId? n key).isSome := by
  simp only [hasKey, itemId?]
  cases h.groups.get? n <;> rfl

theorem find_loose {n : Nat} {key : String} :
    h.find (.loose n) key = (h.itemId? n key).bind h.item? := rfl

theorem item?_id {id : ItemId} {i : Item} (hi : h.item? id = some i) : i.id = id := by
  cases id with
  | field o v key =>
    obtain ⟨p, hp, rfl⟩ := Option.map_eq_some_iff.mp hi
    rw [fieldItem, (withKey_eq_some hp).2]
  | static r t v key =>
    obtain ⟨p, hp, rfl⟩ := Option.map_eq_some_iff.mp hi
    rw [staticItem, (withKey_eq_some hp).2]
  | loose n =>
    obtain ⟨c, _, rfl⟩ := Option.map_eq_some_iff.mp hi
    rfl

end Heap

end GuardedScript
