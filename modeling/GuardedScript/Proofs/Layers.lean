import Mathlib.Data.List.Destutter
import Mathlib.Data.String.Basic
import GuardedScript.Proofs.RunSteps
import GuardedScript.Proofs.Views

/-!
Stacks with layers of their own. If the layers of a stack have no plain group in common, and get new
keys through the stack only, then no key is ever in two layers: a layer is checked against all keys
when it is laid, an empty layer has none, and a new item goes to one layer after all have been asked
for its key. It makes no difference then from which end a key is looked up.
-/

namespace GuardedScript

open Relation

theorem Text.pairwise_sorted (texts : List String) : (Text.sorted texts).Pairwise (· ≤ ·) := by
  have trans : ∀ a b c : String,
      decide (a ≤ b) = true → decide (b ≤ c) = true → decide (a ≤ c) = true := by
    intro a b c hab hbc
    exact decide_eq_true (le_trans (of_decide_eq_true hab) (of_decide_eq_true hbc))
  have total : ∀ a b : String, (decide (a ≤ b) || decide (b ≤ a)) = true := by
    intro a b
    rcases le_total a b with hab | hba
    · rw [decide_eq_true hab, Bool.true_or]
    · rw [decide_eq_true hba, Bool.or_true]
  exact (List.pairwise_mergeSort trans total texts).imp of_decide_eq_true

theorem Text.squeezed_eq_destutter (texts : List String) :
    Text.squeezed texts = texts.destutter (· ≠ ·) := by
  fun_induction Text.squeezed texts with
  | case1 b rest ih =>
    rw [ih, List.destutter_cons_cons, if_neg (not_not.mpr rfl), List.destutter_cons']
  | case2 a b rest hne ih => rw [ih, List.destutter_cons_cons, if_pos hne, List.destutter_cons']
  | case3 texts hshort =>
    rcases texts with _ | ⟨a, _ | ⟨b, rest⟩⟩
    · rfl
    · rfl
    · exact absurd rfl (hshort a b rest)

/-- What is left of a sorted list is strictly sorted. -/
theorem Text.pairwise_squeezed {texts : List String} (hs : texts.Pairwise (· ≤ ·)) :
    (Text.squeezed texts).Pairwise (· < ·) := by
  rw [Text.squeezed_eq_destutter]
  have hle := (hs.sublist (texts.destutter_sublist (· ≠ ·))).isChain
  have hne := texts.isChain_destutter (· ≠ ·)
  rw [List.isChain_iff_getElem] at hle hne
  rw [← List.isChain_iff_pairwise, List.isChain_iff_getElem]
  exact fun i hi => lt_of_le_of_ne (hle i hi) (hne i hi)

theorem mem_conflictingKeys {h : Heap} {existing : List View} {candidate : View} {key : String} :
    key ∈ conflictingKeys h existing candidate ↔
      key ∈ candidate.keyNames h ∧ key ∈ (View.layered existing).keyNames h := by
  simp [conflictingKeys, View.keyNames, View.keys]

section slots
variable {h : Heap} {key : String} {m : Nat}

mutual

theorem View.slotFor_mem : ∀ {v : View}, v.slotFor h key = .ok (some m) →
    .loose m ∈ v.groups ∧ m < h.groups.size
  | .plain (.loose n), hs => by
    rw [View.slotFor] at hs
    split at hs
    · next hi =>
      split at hs
      · cases hs
      · cases hs
        refine ⟨List.mem_singleton.mpr rfl, ?_⟩
        cases hg : h.groups.get? m with
        | none => simp [Heap.insertable, hg] at hi
        | some g => exact Table.lt_size_of_get? hg
    · cases hs
  | .plain (.fields _ _), hs => by
    rw [View.slotFor] at hs
    cases hs
  | .plain (.statics _ _ _), hs => by
    rw [View.slotFor] at hs
    cases hs
  | .linked _, hs => by
    rw [View.slotFor] at hs
    cases hs
  | .writable parts target, hs => by
    rw [View.slotFor] at hs
    split at hs
    · cases hs
    · obtain ⟨hm, hlt⟩ := View.slotFor_mem hs
      exact ⟨List.mem_append_right _ hm, hlt⟩
  | .layered layers, hs => by
    rw [View.slotFor] at hs
    split at hs
    · cases hs
    · exact View.slotOnTop_mem hs

theorem View.slotOnTop_mem : ∀ {vs : List View}, View.slotOnTop h key vs = .ok (some m) →
    .loose m ∈ View.groupsList vs ∧ m < h.groups.size
  | [], hs => by
    rw [View.slotOnTop] at hs
    cases hs
  | v :: vs, hs => by
    rw [View.slotOnTop] at hs
    split at hs
    · obtain ⟨hm, hlt⟩ := View.slotOnTop_mem hs
      exact ⟨List.mem_append_right _ hm, hlt⟩
    · split at hs
      · obtain ⟨hm, hlt⟩ := View.slotFor_mem hs
        exact ⟨List.mem_append_left _ hm, hlt⟩
      · cases hs

end

theorem View.anyWritable_eq_false {vs : List View} :
    View.anyWritable h vs = false ↔ ∀ v ∈ vs, v.isWritable h = false := by
  induction vs with
  | nil => simp [View.anyWritable]
  | cons v vs ih => simp [View.anyWritable, ih]

/-- The slot on top lies in the topmost writable view. -/
theorem View.slotOnTop_split {vs : List View} (hs : View.slotOnTop h key vs = .ok (some m)) :
    ∃ below v above, vs = below ++ v :: above ∧ v.isWritable h = true ∧
      (∀ u ∈ above, u.isWritable h = false) ∧ v.slotFor h key = .ok (some m) := by
  induction vs with
  | nil =>
    rw [View.slotOnTop] at hs
    cases hs
  | cons v vs ih =>
    rw [View.slotOnTop] at hs
    split at hs
    · obtain ⟨below, u, above, rfl, hu, habove, hs⟩ := ih hs
      exact ⟨v :: below, u, above, rfl, hu, habove, hs⟩
    · next htop =>
      split at hs
      · next hv =>
        exact ⟨[], v, vs, rfl, hv, View.anyWritable_eq_false.mp (by simpa using htop), hs⟩
      · cases hs

end slots

namespace Heap

variable {h h' : Heap} {σ : StackId} {key : String}

theorem contains_congr {v : View} (hv : ∀ x ∈ v.groups, h'.hasKey x key = h.hasKey x key) :
    v.contains h' key = v.contains h key := by
  rw [Bool.eq_iff_iff, View.contains_iff, View.contains_iff]
  exact exists_congr fun x => and_congr_right fun hx => by rw [hv x hx]

theorem hasKey_insertItem {m : Nat} {i : Item} (hm : m < h.groups.size) {x : GroupId} :
    (h.insertItem m i).hasKey x key = true ↔
      x = .loose m ∧ key = i.key ∨ h.hasKey x key = true := by
  cases x with
  | fields | statics => simp [hasKey, insertItem, fieldProperties, object?, registry]
  | loose n =>
    rw [hasKey_loose, hasKey_loose, itemId?_insertItem]
    by_cases hn : m = n ∧ m < h.groups.size ∧ i.key = key
    · obtain ⟨rfl, _, rfl⟩ := hn
      simp [hm]
    · rw [if_neg hn]
      constructor
      · exact .inr
      · rintro (⟨he, rfl⟩ | hk)
        · cases he
          exact absurd ⟨rfl, hm, rfl⟩ hn
        · exact hk

theorem item?_insertItem (m : Nat) (i : Item) (id : ItemId) :
    (h.insertItem m i).item? id = h.item? id := by
  cases id <;> rfl

theorem find_insertItem_of_ne {m : Nat} {i : Item} {x : GroupId}
    (hne : ¬ (x = .loose m ∧ key = i.key)) : (h.insertItem m i).find x key = h.find x key := by
  cases x with
  | fields | statics => rfl
  | loose n =>
    rw [find_loose, find_loose, itemId?_insertItem, if_neg]
    · exact congrArg _ (funext (item?_insertItem m i))
    · rintro ⟨rfl, _, rfl⟩
      exact hne ⟨rfl, rfl⟩

theorem find_insertItem_self {m : Nat} {i : Item} (hm : m < h.groups.size)
    (hi : h.item? i.id = some i) : (h.insertItem m i).find (.loose m) i.key = some i := by
  rw [find_loose, itemId?_insertItem, if_pos ⟨rfl, hm, rfl⟩, Option.bind_some, item?_insertItem, hi]

/-- The two groups have no plain group in common. -/
def ApartFrom (h : Heap) (a b : Group) : Prop := ∀ x ∈ (h.view a).groups, x ∉ (h.view b).groups

/-- The two groups have no key in common. -/
def DisjointFrom (h : Heap) (a b : Group) : Prop :=
  ∀ key, (h.view a).contains h key = true → (h.view b).contains h key = false

/-- A stack whose layers have neither plain groups nor keys in common. -/
structure Tidy (h : Heap) (σ : StackId) : Prop where
  stack : σ.index < h.layered.size
  apart : (h.layers σ).Pairwise h.ApartFrom
  disjoint : (h.layers σ).Pairwise h.DisjointFrom

theorem tidy_setLayers {ls : List Group} (hσ : σ.index < h.layered.size)
    (hf : ∀ g ∈ ls, h.Fits σ g) (ha : ls.Pairwise h.ApartFrom) (hd : ls.Pairwise h.DisjointFrom) :
    (h.setLayers σ ls).Tidy σ := by
  have hlayers : (h.setLayers σ ls).layers σ = ls := by rw [layers_setLayers hσ, if_pos rfl]
  have hview : ∀ g ∈ ls, (h.setLayers σ ls).view g = h.view g :=
    fun g hg => (hf g hg).view_setLayers ls
  have hkeys : ∀ {v : View} {key}, v.contains (h.setLayers σ ls) key = v.contains h key :=
    contains_congr fun _ _ => rfl
  refine ⟨by rwa [size_layered_setLayers], ?_, ?_⟩
  · rw [hlayers]
    refine ha.imp_of_mem fun ha hb hab => ?_
    rw [ApartFrom, hview _ ha, hview _ hb]
    exact hab
  · rw [hlayers]
    refine hd.imp_of_mem fun ha hb hab => ?_
    intro key
    rw [hview _ ha, hview _ hb, hkeys, hkeys]
    exact hab key

theorem tidy_newStack (h : Heap) : h.newStack.1.Tidy h.newStack.2 := by
  have hlayers : h.newStack.1.layers h.newStack.2 = [] := by
    rw [layers_newStack]
    exact layers_eq_nil (Nat.le_refl _)
  refine ⟨by simp [newStack], ?_, ?_⟩
  · rw [hlayers]
    exact .nil
  · rw [hlayers]
    exact .nil

theorem Tidy.pop (ht : h.Tidy σ) (hw : WellFounded h.Inside) : (h.pop σ).2.Tidy σ := by
  apply tidy_setLayers ht.stack
  · exact fun g hg => fits_of_mem hw (List.dropLast_subset _ hg)
  · exact ht.apart.sublist (List.dropLast_sublist _)
  · exact ht.disjoint.sublist (List.dropLast_sublist _)

theorem Tidy.lay (ht : h.Tidy σ) (hw : WellFounded h.Inside) {g : Group} (hf : h.Fits σ g)
    (ha : ∀ a ∈ h.layers σ, h.ApartFrom a g) (hd : ∀ a ∈ h.layers σ, h.DisjointFrom a g) :
    (h.setLayers σ (h.layers σ ++ [g])).Tidy σ := by
  apply tidy_setLayers ht.stack
  · intro b hb
    rcases List.mem_append.mp hb with hb | hb
    · exact fits_of_mem hw hb
    · rwa [List.mem_singleton.mp hb]
  · refine List.pairwise_append.mpr ⟨ht.apart, List.pairwise_singleton _ _, ?_⟩
    intro a hm b hb
    rw [List.mem_singleton.mp hb]
    exact ha a hm
  · refine List.pairwise_append.mpr ⟨ht.disjoint, List.pairwise_singleton _ _, ?_⟩
    intro a hm b hb
    rw [List.mem_singleton.mp hb]
    exact hd a hm

theorem mem_groups_layers {x : GroupId} {gs : List Group} :
    x ∈ View.groupsList (gs.map h.view) ↔ ∃ a ∈ gs, x ∈ (h.view a).groups := by
  rw [View.groupsList_eq_flatMap, List.flatMap_map, List.mem_flatMap]

theorem Proper.mem_stackKeys (hp : h.Proper) :
    key ∈ (h.view (.stack σ)).keyNames h ↔
      ∃ a ∈ h.layers σ, (h.view a).contains h key = true := by
  rw [hp.mem_keyNames, hp.view_stack, View.contains_iff, View.groups]
  constructor
  · rintro ⟨x, hx, hk⟩
    obtain ⟨a, ha, hx⟩ := mem_groups_layers.mp hx
    exact ⟨a, ha, (View.contains_iff _).mpr ⟨x, hx, hk⟩⟩
  · rintro ⟨a, ha, hk⟩
    obtain ⟨x, hx, hk⟩ := (View.contains_iff _).mp hk
    exact ⟨x, mem_groups_layers.mpr ⟨a, ha, hx⟩, hk⟩

theorem Proper.mem_conflicts (hp : h.Proper) {g : Group} :
    key ∈ conflictingKeys h ((h.layers σ).map h.view) (h.view g) ↔
      key ∈ (h.view g).keyNames h ∧ key ∈ (h.view (.stack σ)).keyNames h := by
  rw [mem_conflictingKeys, hp.view_stack]

theorem push_cases (h : Heap) (σ : StackId) (g : Group) :
    conflictingKeys h ((h.layers σ).map h.view) (h.view g) = [] ∧
        h.pushChecked σ g = .ok (h.setLayers σ (h.layers σ ++ [g])) ∧
        h.push σ g = (true, h.setLayers σ (h.layers σ ++ [g])) ∨
      ∃ keys, keys ≠ [] ∧ conflictingKeys h ((h.layers σ).map h.view) (h.view g) = keys ∧
        h.pushChecked σ g = .error (.layerConflict keys) ∧ h.push σ g = (false, h) := by
  unfold Heap.push Heap.pushChecked
  cases conflictingKeys h ((h.layers σ).map h.view) (h.view g) with
  | nil => exact .inl ⟨rfl, rfl, rfl⟩
  | cons key keys => exact .inr ⟨key :: keys, List.cons_ne_nil _ _, rfl, rfl, rfl⟩

theorem Proper.conflicts_eq_nil (hp : h.Proper) {g : Group} :
    conflictingKeys h ((h.layers σ).map h.view) (h.view g) = [] ↔
      ((h.view g).keyNames h).Disjoint ((h.view (.stack σ)).keyNames h) := by
  rw [List.eq_nil_iff_forall_not_mem]
  exact forall_congr' fun key => by rw [hp.mem_conflicts, not_and]

theorem Tidy.pushChecked (ht : h.Tidy σ) (hp : h.Proper) {g : Group} (hf : h.Fits σ g)
    (ha : ∀ a ∈ h.layers σ, h.ApartFrom a g) (hq : h.pushChecked σ g = .ok h') : h'.Tidy σ := by
  rcases push_cases h σ g with ⟨hnone, hchecked, _⟩ | ⟨_, _, _, hchecked, _⟩
  · rw [hchecked] at hq
    cases hq
    apply ht.lay hp.nesting hf ha
    intro a hm key hk
    by_contra hg
    exact hp.conflicts_eq_nil.mp hnone (hp.mem_keyNames.mpr (eq_true_of_ne_false hg))
      (hp.mem_stackKeys.mpr ⟨a, hm, hk⟩)
  · rw [hchecked] at hq
    cases hq

theorem Tidy.push (ht : h.Tidy σ) (hp : h.Proper) {g : Group} (hf : h.Fits σ g)
    (ha : (h.push σ g).1 = true → ∀ a ∈ h.layers σ, h.ApartFrom a g) :
    (h.push σ g).2.Tidy σ := by
  rcases push_cases h σ g with ⟨_, hchecked, hpush⟩ | ⟨_, _, _, _, hpush⟩
  · rw [hpush] at ha ⊢
    exact ht.pushChecked hp hf (ha rfl) hchecked
  · rw [hpush]
    exact ht

theorem hasKey_emptyGroup (h : Heap) (x : GroupId) (key : String) :
    (h.newGroup true []).1.hasKey x key = h.hasKey x key := by
  cases x with
  | fields | statics => rfl
  | loose n =>
    rw [hasKey_loose, hasKey_loose, itemId?_newGroup]
    split
    · next hn =>
      rw [itemId?_eq_none (Nat.le_of_eq hn.symm)]
      rfl
    · rfl

theorem Tidy.pushEmpty (ht : h.Tidy σ) (hp : h.Proper) : (h.pushEmpty σ).1.Tidy σ := by
  have hview : ∀ g, (h.newGroup true []).1.view g = h.view g := view_eq (fun _ => rfl) rfl
  have hkeys : ∀ {v : View} {key}, v.contains (h.newGroup true []).1 key = v.contains h key :=
    contains_congr fun x _ => hasKey_emptyGroup h x _
  have hmid : (h.newGroup true []).1.Tidy σ := by
    refine ⟨ht.stack, ht.apart.imp fun hab => ?_, ht.disjoint.imp fun hab => ?_⟩
    · rw [ApartFrom, hview, hview]
      exact hab
    · intro key
      rw [hview, hview, hkeys, hkeys]
      exact hab key
  refine hmid.lay (g := .plain (.loose h.groups.size)) hp.nesting ?_ ?_ ?_
  · intro τ hτ
    simp [Group.leaves] at hτ
  · -- the new group is in none of the layers
    intro a ha x hx hnew
    rw [hview] at hx
    rw [hview, view, Group.openWith, View.groups, List.mem_singleton] at hnew
    subst hnew
    exact Nat.lt_irrefl _ (hp.lt_of_mem_groups (hp.grounded ha) hx)
  · intro a _ key _
    rw [hview, hkeys, view, Group.openWith, View.contains, hasKey_loose,
      itemId?_eq_none (Nat.le_refl _)]
    rfl

/-- The place for the item: the plain group `m`, inside the topmost layer that takes new items. -/
structure TopSlot (h : Heap) (σ : StackId) (i : Item) (m : Nat) (below : List Group) (g : Group)
    (above : List Group) : Prop where
  layers : h.layers σ = below ++ g :: above
  writable : (h.view g).isWritable h = true
  topmost : ∀ a ∈ above, (h.view a).isWritable h = false
  free : ∀ a ∈ h.layers σ, (h.view a).contains h i.key = false
  bound : m < h.groups.size
  mem : .loose m ∈ (h.view g).groups

theorem Proper.addTo_stack (hp : h.Proper) {i : Item}
    (ha : h.addTo (h.view (.stack σ)) i = .ok (true, h')) :
    ∃ m below g above, h.TopSlot σ i m below g above ∧ h' = h.insertItem m i := by
  obtain ⟨m, hslot, _, rfl⟩ := addTo_ok ha
  rw [hp.view_stack, View.slotFor] at hslot
  split at hslot
  · cases hslot
  · next hnone =>
    obtain ⟨below, v, above, heq, hw, htop, hslot⟩ := View.slotOnTop_split hslot
    obtain ⟨below, rest, hlayers, rfl, hrest⟩ := List.map_eq_append_iff.mp heq
    obtain ⟨g, above, rfl, rfl, rfl⟩ := List.map_eq_cons_iff.mp hrest
    obtain ⟨hm, hlt⟩ := View.slotFor_mem hslot
    refine ⟨m, below, g, above, ⟨hlayers, hw, ?_, ?_, hlt, hm⟩, rfl⟩
    · exact fun a ha => htop _ (List.mem_map_of_mem ha)
    · intro a hmem
      by_contra hk
      have hkey := hp.mem_keyNames.mp
        (hp.mem_stackKeys.mpr ⟨a, hmem, eq_true_of_ne_false hk⟩)
      rw [hp.view_stack, View.contains] at hkey
      exact hnone hkey

section insertion
variable {m : Nat} {i : Item}

theorem view_insertItem (g : Group) : (h.insertItem m i).view g = h.view g := by
  apply view_eq
  · exact fun _ => rfl
  · rfl

theorem contains_insertItem (hm : m < h.groups.size) {v : View} :
    v.contains (h.insertItem m i) key = true ↔
      .loose m ∈ v.groups ∧ key = i.key ∨ v.contains h key = true := by
  rw [View.contains_iff, View.contains_iff]
  constructor
  · rintro ⟨x, hx, hk⟩
    rcases (hasKey_insertItem hm).mp hk with ⟨rfl, hkey⟩ | hk
    · exact .inl ⟨hx, hkey⟩
    · exact .inr ⟨x, hx, hk⟩
  · rintro (⟨hx, hkey⟩ | ⟨x, hx, hk⟩)
    · exact ⟨_, hx, (hasKey_insertItem hm).mpr (.inl ⟨rfl, hkey⟩)⟩
    · exact ⟨x, hx, (hasKey_insertItem hm).mpr (.inr hk)⟩

/-- A view with the slot in it shows the item that was put there under a new key. -/
theorem find_insertItem {v : View} (hm : m < h.groups.size) (hv : .loose m ∈ v.groups)
    (hfree : v.contains h i.key = false) (hi : h.item? i.id = some i) :
    v.find (h.insertItem m i) i.key = some i := by
  have hself := find_insertItem_self hm hi
  have hsome : (v.find (h.insertItem m i) i.key).isSome := by
    rw [View.find_isSome_iff]
    exact ⟨_, hv, by rw [hself, Option.isSome_some]⟩
  obtain ⟨j, hj⟩ := Option.isSome_iff_exists.mp hsome
  obtain ⟨x, hx, hfind⟩ := View.find_groups hj
  rw [hj]
  by_cases hxm : x = .loose m
  · rw [← hself, ← hfind, hxm]
  · -- any other group would have had the key before
    have hold : h.find x i.key = some j := by
      rw [← hfind]
      exact (find_insertItem_of_ne fun hb => hxm hb.1).symm
    rw [(View.contains_iff _).mpr ⟨x, hx, hasKey_of_find hold⟩] at hfree
    cases hfree

variable {below above : List Group} {g : Group}

theorem Tidy.insertItem (ht : h.Tidy σ) (hs : h.TopSlot σ i m below g above) :
    (h.insertItem m i).Tidy σ := by
  refine ⟨ht.stack, ht.apart.imp fun hab => ?_, ?_⟩
  · rw [ApartFrom, view_insertItem, view_insertItem]
    exact hab
  · refine (ht.apart.and ht.disjoint).imp_of_mem ?_
    intro a b ha hb hab key hk
    rw [view_insertItem] at hk ⊢
    by_contra hkb
    -- a key of both is the new one, and its slot would be in both
    rcases (contains_insertItem hs.bound).mp hk with ⟨hma, rfl⟩ | hka
    · rcases (contains_insertItem hs.bound).mp (eq_true_of_ne_false hkb) with ⟨hmb, _⟩ | hkb
      · exact hab.1 _ hma hmb
      · exact absurd (hs.free b hb) (ne_false_of_eq_true hkb)
    · rcases (contains_insertItem hs.bound).mp (eq_true_of_ne_false hkb) with ⟨_, rfl⟩ | hkb
      · exact absurd (hs.free a ha) (ne_false_of_eq_true hka)
      · exact absurd (hab.2 key hka) (ne_false_of_eq_true hkb)

/-- The slot is in no other layer. -/
theorem Tidy.not_mem_elsewhere (ht : h.Tidy σ) (hs : h.TopSlot σ i m below g above) {a : Group}
    (ha : a ∈ below ++ above) : .loose m ∉ (h.view a).groups := by
  have hapart := ht.apart
  rw [hs.layers, List.pairwise_append, List.pairwise_cons] at hapart
  obtain ⟨_, ⟨habove, _⟩, hbelow⟩ := hapart
  intro hm
  rcases List.mem_append.mp ha with ha | ha
  · exact hbelow a ha g List.mem_cons_self _ hm hs.mem
  · exact habove a ha _ hs.mem hm

theorem TopSlot.find_self (hs : h.TopSlot σ i m below g above) (hi : h.item? i.id = some i) :
    (h.view g).find (h.insertItem m i) i.key = some i :=
  find_insertItem hs.bound hs.mem (hs.free g (by simp [hs.layers])) hi

/-- The item is now in the topmost layer that takes new ones, and nowhere else on the stack. -/
structure LaidOnTop (h : Heap) (σ : StackId) (i : Item) (h' : Heap) (below : List Group)
    (g : Group) (above : List Group) : Prop where
  before : h.layers σ = below ++ g :: above
  after : h'.layers σ = below ++ g :: above
  writable : (h.view g).isWritable h = true
  topmost : ∀ a ∈ above, (h.view a).isWritable h = false
  here : (h'.view g).find h' i.key = some i
  onlyHere : ∀ a ∈ below ++ above, (h'.view a).contains h' i.key = false
  others : ∀ a ∈ h.layers σ, ∀ key ≠ i.key, (h'.view a).find h' key = (h.view a).find h key

theorem Tidy.laidOnTop (ht : h.Tidy σ) (hs : h.TopSlot σ i m below g above)
    (hi : h.item? i.id = some i) : h.LaidOnTop σ i (h.insertItem m i) below g above where
  before := hs.layers
  after := hs.layers
  writable := hs.writable
  topmost := hs.topmost
  here := by
    rw [view_insertItem]
    exact hs.find_self hi
  onlyHere := by
    intro a ha
    rw [view_insertItem]
    by_contra hk
    rcases (contains_insertItem hs.bound).mp (eq_true_of_ne_false hk) with ⟨hm, _⟩ | hk
    · exact ht.not_mem_elsewhere hs ha hm
    · have hmem : a ∈ h.layers σ := by
        rw [hs.layers]
        rcases List.mem_append.mp ha with ha | ha
        · exact List.mem_append_left _ ha
        · exact List.mem_append_right _ (List.mem_cons_of_mem _ ha)
      exact absurd (hs.free a hmem) (ne_false_of_eq_true hk)
  others := by
    intro a _ key hkey
    rw [view_insertItem]
    exact View.find_congr fun x _ => find_insertItem_of_ne fun hb => hkey hb.2

end insertion

/-- If no two views have a key in common, it does not matter from which end one starts. -/
theorem findFirst_eq_findLast {gs : List Group}
    (hd : gs.Pairwise h.DisjointFrom) (key : String) :
    View.findFirst h key (gs.map h.view) = View.findLast h key (gs.map h.view) := by
  induction gs with
  | nil => rw [List.map_nil, View.findFirst, View.findLast]
  | cons g gs ih =>
    obtain ⟨hg, hd⟩ := List.pairwise_cons.mp hd
    rw [List.map_cons, View.findFirst, View.findLast, ih hd]
    cases hfind : (h.view g).find h key with
    | none => rw [Option.none_or, Option.or_none]
    | some i =>
      have hnone : View.findLast h key (gs.map h.view) = none := by
        cases hlast : View.findLast h key (gs.map h.view) with
        | none => rfl
        | some j =>
          obtain ⟨x, hx, hfound⟩ := View.findLast_groups hlast
          obtain ⟨a, ha, hx⟩ := mem_groups_layers.mp hx
          have hka : (h.view a).contains h key = true :=
            (View.contains_iff _).mpr ⟨x, hx, hasKey_of_find hfound⟩
          have hkg : (h.view g).contains h key = true := by
            obtain ⟨y, hy, hfound⟩ := View.find_groups hfind
            exact (View.contains_iff _).mpr ⟨y, hy, hasKey_of_find hfound⟩
          rw [hg a ha key hkg] at hka
          cases hka
      rw [hnone, Option.or_none, Option.none_or]

/-- What becomes of a group that is pushed. -/
structure PushedOrRefused (h : Heap) (σ : StackId) (g : Group) : Prop where
  accepted : (h.push σ g).1 = true ↔
    ((h.view g).keyNames h).Disjoint ((h.view (.stack σ)).keyNames h)
  pushed : (h.push σ g).1 = true →
    (h.push σ g).2.layers σ = h.layers σ ++ [g] ∧ h.pushChecked σ g = .ok (h.push σ g).2
  refused : (h.push σ g).1 = false → (h.push σ g).2 = h ∧
    ∃ keys : List String, h.pushChecked σ g = .error (.layerConflict keys) ∧
      keys.Pairwise (· < ·) ∧ ∀ key, key ∈ keys ↔
        key ∈ (h.view g).keyNames h ∧ key ∈ (h.view (.stack σ)).keyNames h

theorem Tidy.pushedOrRefused (ht : h.Tidy σ) (hp : h.Proper) (g : Group) :
    h.PushedOrRefused σ g := by
  rcases push_cases h σ g with ⟨hnone, hchecked, hpush⟩ | ⟨keys, hne, hkeys, hchecked, hpush⟩
  · constructor
    · rw [hpush, ← hp.conflicts_eq_nil]
      exact iff_of_true rfl hnone
    · intro _
      rw [hpush, hchecked]
      refine ⟨?_, rfl⟩
      rw [layers_setLayers ht.stack, if_pos rfl]
    · intro hno
      rw [hpush] at hno
      cases hno
  · constructor
    · rw [hpush, ← hp.conflicts_eq_nil, hkeys]
      exact iff_of_false Bool.false_ne_true hne
    · intro hyes
      rw [hpush] at hyes
      cases hyes
    · intro _
      rw [hpush, hchecked]
      refine ⟨rfl, keys, rfl, ?_, ?_⟩
      · rw [← hkeys]
        exact Text.pairwise_squeezed (Text.pairwise_sorted _)
      · intro key
        rw [← hkeys, hp.mem_conflicts]

section history
variable (host : Host) (σ : StackId)

/-- The heaps a stack goes through if the layers it takes have no plain group in common, and get no
key except through the stack. -/
inductive Tended : Heap → Prop where
  | new {h : Heap} (hr : Heap.Reached host h) (hσ : h.newStack.2 = σ) : Tended h.newStack.1
  | push {h : Heap} {g} (ht : Tended h) (hg : h.Grounded g) (hf : h.Fits σ g)
      (ha : (h.push σ g).1 = true → ∀ a ∈ h.layers σ, h.ApartFrom a g) : Tended (h.push σ g).2
  | pushChecked {h h' : Heap} {g} (ht : Tended h) (hg : h.Grounded g) (hf : h.Fits σ g)
      (ha : ∀ a ∈ h.layers σ, h.ApartFrom a g) (hq : h.pushChecked σ g = .ok h') : Tended h'
  | pushEmpty {h : Heap} (ht : Tended h) : Tended (h.pushEmpty σ).1
  | pop {h : Heap} (ht : Tended h) : Tended (h.pop σ).2
  | add {h h' : Heap} {i b} (ht : Tended h) (hi : h.item? i.id = some i)
      (ha : h.addTo (h.view (.stack σ)) i = .ok (b, h')) : Tended h'
  | elsewhere {h h' : Heap} (ht : Tended h) (hc : h.Change host h') (hl : h'.layers σ = h.layers σ)
      (ha : (h.layers σ).Pairwise h'.ApartFrom)
      (hk : ∀ g ∈ h.layers σ, ∀ key,
        (h'.view g).contains h' key = true → (h.view g).contains h key = true) : Tended h'

end history

variable {host : Host}

theorem Tended.reached (ht : Tended host σ h) : Heap.Reached host h := by
  induction ht with
  | new hr _ => exact hr.tail (.step .newStack)
  | push _ hg hf _ ih => exact ih.tail (.step (.push hg hf))
  | pushChecked _ hg hf _ hq ih => exact ih.tail (.step (.pushChecked hg hf hq))
  | pushEmpty _ ih => exact ih.tail (.step (.pushEmpty σ))
  | pop _ ih => exact ih.tail (.step (.pop σ))
  | add _ hi ha ih => exact ih.tail (.step (.add hi ha))
  | elsewhere _ hc _ _ _ ih => exact ih.tail hc

theorem Tidy.elsewhere (ht : h.Tidy σ) (hσ : σ.index < h'.layered.size)
    (hl : h'.layers σ = h.layers σ) (ha : (h.layers σ).Pairwise h'.ApartFrom)
    (hk : ∀ g ∈ h.layers σ, ∀ key,
      (h'.view g).contains h' key = true → (h.view g).contains h key = true) : h'.Tidy σ := by
  refine ⟨hσ, by rwa [hl], ?_⟩
  rw [hl]
  refine ht.disjoint.imp_of_mem ?_
  intro a b hma hmb hab key hka
  by_contra hkb
  have hold := hab key (hk a hma key hka)
  rw [hk b hmb key (eq_true_of_ne_false hkb)] at hold
  cases hold

theorem Tidy.add (ht : h.Tidy σ) (hp : h.Proper) {i : Item} {b : Bool}
    (ha : h.addTo (h.view (.stack σ)) i = .ok (b, h')) : h'.Tidy σ := by
  cases b with
  | true =>
    obtain ⟨m, below, g, above, hs, rfl⟩ := hp.addTo_stack ha
    exact ht.insertItem hs
  | false =>
    unfold addTo offer at ha
    split at ha
    · cases ha
    · cases ha
      exact ht
    · cases ha

theorem Tended.tidy (hh : host.Stepwise) (ht : Tended host σ h) : h.Tidy σ := by
  induction ht with
  | new _ hσ => exact hσ ▸ tidy_newStack _
  | push ht _ hf ha ih => exact ih.push (ht.reached.proper hh) hf ha
  | pushChecked ht _ hf ha hq ih => exact ih.pushChecked (ht.reached.proper hh) hf ha hq
  | pushEmpty ht ih => exact ih.pushEmpty (ht.reached.proper hh)
  | pop ht ih => exact ih.pop (ht.reached.proper hh).nesting
  | add ht _ ha ih => exact ih.add (ht.reached.proper hh) ha
  | elsewhere ht hc hl ha hk ih =>
    have hs := hc.steps hh (ht.reached.proper hh)
    have hσ := hs.keep (P := fun h => σ.index < h.layered.size)
      (fun he hlt => Nat.lt_of_lt_of_le hlt he.layered) ih.stack
    exact ih.elsewhere hσ hl ha hk

theorem Tidy.keys_disjoint (ht : h.Tidy σ) (hp : h.Proper) : (h.layers σ).Pairwise fun a b =>
    ((h.view a).keyNames h).Disjoint ((h.view b).keyNames h) := by
  refine ht.disjoint.imp ?_
  intro a b hab key hka hkb
  have hnot := hab key (hp.mem_keyNames.mp hka)
  rw [hp.mem_keyNames.mp hkb] at hnot
  cases hnot

end Heap

/-- However a stack came about, no two of its layers have a key in common: a group is pushed exactly
if it shares no key with the stack, and an item that is added goes into the topmost layer that can
be written. So a key is found in one layer at most, whichever layer the search starts from. -/
theorem layers_stay_disjoint (host : Host) (hh : host.Stepwise) {σ : StackId} {h : Heap}
    (ht : Heap.Tended host σ h) :
    ((h.layers σ).Pairwise fun a b =>
        ((h.view a).keyNames h).Disjoint ((h.view b).keyNames h)) ∧
      (∀ g, h.PushedOrRefused σ g) ∧
      (∀ i h', h.item? i.id = some i → h.addTo (h.view (.stack σ)) i = .ok (true, h') →
        ∃ below g above, h.LaidOnTop σ i h' below g above) ∧
      ∀ key, View.findFirst h key ((h.layers σ).map h.view) =
        View.findLast h key ((h.layers σ).map h.view) ∧
          (h.view (.stack σ)).find h key = View.findLast h key ((h.layers σ).map h.view) := by
  have hp : h.Proper := ht.reached.proper hh
  have htidy : h.Tidy σ := ht.tidy hh
  refine ⟨htidy.keys_disjoint hp, htidy.pushedOrRefused hp, ?_, ?_⟩
  · intro i h' hi ha
    obtain ⟨m, below, g, above, hs, rfl⟩ := hp.addTo_stack ha
    exact ⟨below, g, above, htidy.laidOnTop hs hi⟩
  · intro key
    refine ⟨Heap.findFirst_eq_findLast htidy.disjoint key, ?_⟩
    rw [hp.view_stack, View.find]

namespace Desk

/-! A stack with a fixed layer at the bottom and an empty one on top. -/

def lamp : Property := ⟨"lamp", ⟨0⟩, {}⟩

def pen : Property := ⟨"pen", ⟨0⟩, {}⟩

def furnished : Heap := (Heap.empty.newFixedGroup [lamp] []).1

def supplied : Heap := (furnished.newItem pen).1

def item : Item := (furnished.newItem pen).2

def bare : Heap := supplied.newStack.1

def laid : Heap := (bare.push ⟨0⟩ (.plain (.loose 0))).2

def heap : Heap := (laid.pushEmpty ⟨0⟩).1

theorem heap_tended : Heap.Tended Host.standard ⟨0⟩ heap := by
  have hreached : Heap.Reached Host.standard supplied :=
    (ReflTransGen.single (.fixedGroup [lamp])).tail (.step (.newItem pen))
  have hbare : Heap.Tended Host.standard ⟨0⟩ bare := .new hreached rfl
  have hlaid : Heap.Tended Host.standard ⟨0⟩ laid := by
    apply hbare.push
    · constructor
      · intro n hn
        cases List.mem_singleton.mp hn
        decide
      · intro τ hτ
        cases List.mem_singleton.mp hτ
    · intro τ hτ
      cases List.mem_singleton.mp hτ
    · intro _ a ha
      have hnil : bare.layers ⟨0⟩ = [] := rfl
      rw [hnil] at ha
      cases ha
  exact hlaid.pushEmpty

end Desk

theorem desk_layers_stay_disjoint :
    (Desk.heap.push ⟨0⟩ (.plain (.loose 0))).1 = false ∧
    Desk.heap.PushedOrRefused ⟨0⟩ (.plain (.loose 0)) ∧
    (∃ below g above, Desk.heap.LaidOnTop ⟨0⟩ Desk.item (Desk.heap.insertItem 1 Desk.item)
      below g above) ∧
    View.findFirst Desk.heap "lamp" ((Desk.heap.layers ⟨0⟩).map Desk.heap.view) =
      View.findLast Desk.heap "lamp" ((Desk.heap.layers ⟨0⟩).map Desk.heap.view) := by
  obtain ⟨_, hpush, hadd, hfind⟩ :=
    layers_stay_disjoint Host.standard Host.standard_stepwise Desk.heap_tended
  refine ⟨by cbv, hpush _, ?_, (hfind "lamp").1⟩
  exact hadd Desk.item _ (by cbv) (by cbv)

end GuardedScript
