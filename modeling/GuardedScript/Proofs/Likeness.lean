import Mathlib.Data.List.Forall2
import GuardedScript.Proofs.Layers
import GuardedScript.Proofs.Seclusion

/-!
Heaps that differ only in some groups. Their other groups have the same keys, and the items under
them correspond: loose cells one to one, since the two heaps may number them differently, all other
items by name. Whatever is read through the groups in common is the same on both sides, and whatever
is changed through them keeps the heaps alike.
-/

namespace GuardedScript

/-- Both fail, with one error, or both succeed, with related results. -/
inductive SameResult {ε α β : Type} (r : α → β → Prop) : Except ε α → Except ε β → Prop where
  | ok {a b} (h : r a b) : SameResult r (.ok a) (.ok b)
  | error (e) : SameResult r (.error e) (.error e)

theorem SameResult.split {ε α β : Type} {r : α → β → Prop} {x : Except ε α} {y : Except ε β}
    (h : SameResult r x y) :
    (∃ e, x = .error e ∧ y = .error e) ∨ ∃ a b, x = .ok a ∧ y = .ok b ∧ r a b := by
  cases h with
  | ok h => exact .inr ⟨_, _, rfl, rfl, h⟩
  | error e => exact .inl ⟨e, rfl, rfl⟩

/-- Results that say whether something was done, and leave related values. -/
theorem SameResult.split_flag {ε α β : Type} {r : α → β → Prop} {x : Except ε (Bool × α)}
    {y : Except ε (Bool × β)} (h : SameResult (fun p q => q.1 = p.1 ∧ r p.2 q.2) x y) :
    (∃ e, x = .error e ∧ y = .error e) ∨
      ∃ b c d, x = .ok (b, c) ∧ y = .ok (b, d) ∧ r c d := by
  rcases h.split with herror | ⟨⟨b, c⟩, ⟨b', d⟩, hx, hy, hb, hr⟩
  · exact .inl herror
  · obtain rfl : b' = b := hb
    exact .inr ⟨b', c, d, hx, hy, hr⟩

section
variable {α β : Type} {r q : α → β → Prop} {x : Option α} {y : Option β}

theorem rel_split (h : Option.Rel r x y) :
    x = none ∧ y = none ∨ ∃ a b, x = some a ∧ y = some b ∧ r a b := by
  cases h with
  | some h => exact .inr ⟨_, _, rfl, rfl, h⟩
  | none => exact .inl ⟨rfl, rfl⟩

theorem rel_imp (hq : ∀ {a b}, r a b → q a b) (h : Option.Rel r x y) : Option.Rel q x y := by
  cases h with
  | some h => exact .some (hq h)
  | none => exact .none

end

/-- The same keys in the same order, with related entries. -/
def Assoc.Match {κ α β : Type} (r : α → β → Prop) (m : Assoc κ α) (m' : Assoc κ β) : Prop :=
  List.Forall₂ (fun e e' => e'.1 = e.1 ∧ r e.2 e'.2) m.entries m'.entries

namespace Assoc.Match

variable {κ α β : Type} [DecidableEq κ] {r : α → β → Prop} {m : Assoc κ α} {m' : Assoc κ β}

theorem get? (hm : m.Match r m') (key : κ) : Option.Rel r (m.get? key) (m'.get? key) := by
  obtain ⟨l⟩ := m
  obtain ⟨l'⟩ := m'
  change Option.Rel r (Assoc.find key l) (Assoc.find key l')
  replace hm : List.Forall₂ (fun e e' => e'.1 = e.1 ∧ r e.2 e'.2) l l' := hm
  induction hm with
  | nil => exact .none
  | @cons e e' l l' he _ ih =>
    obtain ⟨j, a⟩ := e
    obtain ⟨j', b⟩ := e'
    obtain ⟨rfl, hr⟩ := he
    rw [Assoc.find, Assoc.find]
    by_cases hj : j' = key
    · rw [if_pos hj, if_pos hj]
      exact .some hr
    · rw [if_neg hj, if_neg hj]
      exact ih

theorem put (hm : m.Match r m') (key : κ) {a : α} {b : β} (hr : r a b) :
    (m.put key a).Match r (m'.put key b) := by
  obtain ⟨l⟩ := m
  obtain ⟨l'⟩ := m'
  change List.Forall₂ _ (Assoc.replace key a l) (Assoc.replace key b l')
  replace hm : List.Forall₂ (fun e e' => e'.1 = e.1 ∧ r e.2 e'.2) l l' := hm
  induction hm with
  | nil => exact .cons ⟨rfl, hr⟩ .nil
  | @cons e e' l l' he hrest ih =>
    obtain ⟨j, c⟩ := e
    obtain ⟨j', d⟩ := e'
    obtain ⟨rfl, hcd⟩ := he
    rw [Assoc.replace, Assoc.replace]
    by_cases hj : j' = key
    · rw [if_pos hj, if_pos hj]
      exact .cons ⟨rfl, hr⟩ hrest
    · rw [if_neg hj, if_neg hj]
      exact .cons ⟨rfl, hcd⟩ ih

theorem ofList {l : List (κ × α)} {l' : List (κ × β)}
    (hl : List.Forall₂ (fun e e' => e'.1 = e.1 ∧ r e.2 e'.2) l l') :
    (Assoc.ofList l).Match r (Assoc.ofList l') := by
  have main : ∀ {m : Assoc κ α} {m' : Assoc κ β}, m.Match r m' →
      (l.foldl (fun m e => m.put e.1 e.2) m).Match r (l'.foldl (fun m e => m.put e.1 e.2) m') := by
    induction hl with
    | nil => exact fun hm => hm
    | cons he _ ih =>
      intro m m' hm
      rw [List.foldl_cons, List.foldl_cons, he.1]
      exact ih (hm.put _ he.2)
  exact main .nil

omit [DecidableEq κ] in
theorem values (hm : m.Match r m') : List.Forall₂ r m.values m'.values := by
  rw [Assoc.values, Assoc.values, List.forall₂_map_left_iff, List.forall₂_map_right_iff]
  exact hm.imp fun _ _ he => he.2

omit [DecidableEq κ] in
theorem imp {q : α → β → Prop} (hm : m.Match r m') (hq : ∀ {a b}, r a b → q a b) :
    m.Match q m' :=
  List.Forall₂.imp (fun _ _ he => ⟨he.1, hq he.2⟩) hm

theorem contains (hm : m.Match r m') (key : κ) : m'.contains key = m.contains key := by
  rw [Assoc.contains, Assoc.contains]
  rcases rel_split (hm.get? key) with ⟨ha, hb⟩ | ⟨a, b, ha, hb, _⟩
  · rw [ha, hb, Option.isSome_none, Option.isSome_none]
  · rw [ha, hb, Option.isSome_some, Option.isSome_some]

end Assoc.Match

/-- Items that correspond: loose ones as the cells do, all others by name. -/
inductive ItemId.Twin (R : Nat → Nat → Prop) : ItemId → ItemId → Prop where
  | field (o v key) : Twin R (.field o v key) (.field o v key)
  | static (r t v key) : Twin R (.static r t v key) (.static r t v key)
  | loose {k k'} (hk : R k k') : Twin R (.loose k) (.loose k')

structure Item.Twin (R : Nat → Nat → Prop) (i i' : Item) : Prop where
  id : i.id.Twin R i'.id
  property : i'.property = i.property

structure ItemGroup.Twin (R : Nat → Nat → Prop) (g g' : ItemGroup) : Prop where
  insertable : g'.insertable = g.insertable
  items : g.items.Match (ItemId.Twin R) g'.items

/-- The group is none of those in which two heaps may differ. -/
def GroupId.Common (P : Nat → Prop) (x : GroupId) : Prop := ∀ n, x = .loose n → ¬ P n

/-- One more pair of cells that correspond. -/
def pairing (R : Nat → Nat → Prop) (k k' : Nat) (j j' : Nat) : Prop := R j j' ∨ j = k ∧ j' = k'

/-- The heaps differ only in the groups `P`, with cells that correspond by `R`. -/
structure Heap.Twin (P : Nat → Prop) (R : Nat → Nat → Prop) (h h' : Heap) : Prop where
  registries : h'.registries = h.registries
  statics : h'.statics = h.statics
  objects : h'.objects = h.objects
  layered : h'.layered = h.layered
  size : h'.groups.size = h.groups.size
  groups : ∀ {n}, ¬ P n → Option.Rel (ItemGroup.Twin R) (h.groups.get? n) (h'.groups.get? n)
  cells : ∀ {k k'}, R k k' → ∃ c, h.cells.get? k = some c ∧ h'.cells.get? k' = some c
  forth : ∀ {k k' j'}, R k k' → R k j' → k' = j'
  back : ∀ {k j k'}, R k k' → R j k' → k = j

section
variable {R Q : Nat → Nat → Prop} (hR : ∀ {k k'}, R k k' → Q k k')
include hR

theorem ItemId.Twin.imp {id id' : ItemId} (hid : id.Twin R id') : id.Twin Q id' := by
  cases hid with
  | field => exact .field _ _ _
  | static => exact .static _ _ _ _
  | loose hk => exact .loose (hR hk)

theorem Item.Twin.imp {i i' : Item} (hi : i.Twin R i') : i.Twin Q i' :=
  ⟨hi.id.imp hR, hi.property⟩

theorem ItemGroup.Twin.imp {g g' : ItemGroup} (hg : g.Twin R g') : g.Twin Q g' :=
  ⟨hg.insertable, hg.items.imp (ItemId.Twin.imp hR)⟩

end

theorem Item.Twin.key {R : Nat → Nat → Prop} {i i' : Item} (hi : i.Twin R i') : i'.key = i.key := by
  rw [Item.key, hi.property, ← Item.key]

section slots
variable {h h' : Heap} {key : String}

mutual

theorem View.isWritable_congr : ∀ {v : View},
    (∀ x ∈ v.groups, h'.insertable x = h.insertable x) → v.isWritable h' = v.isWritable h
  | .plain g, hv => by
    rw [View.isWritable, View.isWritable]
    exact hv g (List.mem_singleton.mpr rfl)
  | .linked _, _ => by rw [View.isWritable, View.isWritable]
  | .writable _ _, _ => by rw [View.isWritable, View.isWritable]
  | .layered layers, hv => by
    rw [View.isWritable, View.isWritable]
    exact View.anyWritable_congr hv

theorem View.anyWritable_congr : ∀ {vs : List View},
    (∀ x ∈ View.groupsList vs, h'.insertable x = h.insertable x) →
      View.anyWritable h' vs = View.anyWritable h vs
  | [], _ => by rw [View.anyWritable, View.anyWritable]
  | v :: vs, hv => by
    rw [View.anyWritable, View.anyWritable,
      View.isWritable_congr fun x hx => hv x (List.mem_append_left _ hx),
      View.anyWritable_congr fun x hx => hv x (List.mem_append_right _ hx)]

end

theorem View.containsAny_congr {vs : List View}
    (hv : ∀ x ∈ View.groupsList vs, h'.hasKey x key = h.hasKey x key) :
    View.containsAny h' key vs = View.containsAny h key vs := by
  have hc := Heap.contains_congr (v := .linked vs) hv
  rwa [View.contains, View.contains] at hc

mutual

/-- Where a new item goes depends on the groups of the view alone. -/
theorem View.slotFor_congr : ∀ {v : View}, (∀ x ∈ v.groups, h'.hasKey x key = h.hasKey x key) →
    (∀ x ∈ v.groups, h'.insertable x = h.insertable x) → v.slotFor h' key = v.slotFor h key
  | .plain (.loose n), hk, hi => by
    rw [View.slotFor, View.slotFor, hk _ (List.mem_singleton.mpr rfl),
      hi _ (List.mem_singleton.mpr rfl)]
  | .plain (.fields _ _), _, _ => by rw [View.slotFor, View.slotFor]
  | .plain (.statics _ _ _), _, _ => by rw [View.slotFor, View.slotFor]
  | .linked _, _, _ => by rw [View.slotFor, View.slotFor]
  | .writable parts target, hk, hi => by
    rw [View.slotFor, View.slotFor,
      View.containsAny_congr fun x hx => hk x (List.mem_append_left _ hx),
      Heap.contains_congr fun x hx => hk x (List.mem_append_right _ hx),
      View.slotFor_congr (fun x hx => hk x (List.mem_append_right _ hx))
        fun x hx => hi x (List.mem_append_right _ hx)]
  | .layered layers, hk, hi => by
    rw [View.slotFor, View.slotFor, View.containsAny_congr hk, View.slotOnTop_congr hk hi]

theorem View.slotOnTop_congr : ∀ {vs : List View},
    (∀ x ∈ View.groupsList vs, h'.hasKey x key = h.hasKey x key) →
    (∀ x ∈ View.groupsList vs, h'.insertable x = h.insertable x) →
      View.slotOnTop h' key vs = View.slotOnTop h key vs
  | [], _, _ => by rw [View.slotOnTop, View.slotOnTop]
  | v :: vs, hk, hi => by
    rw [View.slotOnTop, View.slotOnTop,
      View.anyWritable_congr fun x hx => hi x (List.mem_append_right _ hx),
      View.slotOnTop_congr (fun x hx => hk x (List.mem_append_right _ hx))
        fun x hx => hi x (List.mem_append_right _ hx),
      View.isWritable_congr fun x hx => hi x (List.mem_append_left _ hx),
      View.slotFor_congr (fun x hx => hk x (List.mem_append_left _ hx))
        fun x hx => hi x (List.mem_append_left _ hx)]

end

end slots

namespace Heap.Twin

variable {P : Nat → Prop} {R : Nat → Nat → Prop} {h h' : Heap}

section reading
variable (ht : h.Twin P R h')
include ht

theorem object? (o : ObjectId) : h'.object? o = h.object? o := by
  rw [Heap.object?, ht.objects, ← Heap.object?]

theorem registry (r : RegistryId) : h'.registry r = h.registry r := by
  rw [Heap.registry, ht.registries, ← Heap.registry]

theorem isA (o : ObjectId) (t : TypeRef) : h'.isA o t = h.isA o t := by
  simp only [Heap.isA, ht.object?, ht.registry]

theorem typeDisplay (o : ObjectId) : h'.typeDisplay o = h.typeDisplay o := by
  simp only [Heap.typeDisplay, ht.object?]

theorem fieldProperties (o : ObjectId) (v : Visibility) :
    h'.fieldProperties o v = h.fieldProperties o v := by
  simp only [Heap.fieldProperties, ht.object?, ht.registry]

theorem outerGroups (o : ObjectId) : h'.outerGroups o = h.outerGroups o := by
  simp only [Heap.outerGroups, ht.object?, ht.registry]

theorem memory (o : ObjectId) : h'.memory o = h.memory o := by
  simp only [Heap.memory, Heap.innerGroups, ht.object?, ht.registry]

theorem outside (o : ObjectId) : h'.outside o = h.outside o := by
  rw [Heap.outside, ht.outerGroups, ← Heap.outside]

theorem layers (σ : StackId) : h'.layers σ = h.layers σ := by
  rw [Heap.layers, ht.layered, ← Heap.layers]

theorem view (g : Group) : h'.view g = h.view g := view_eq ht.outerGroups ht.layered g

theorem value? {id id' : ItemId} (hid : id.Twin R id') : h'.value? id' = h.value? id := by
  cases hid with
  | field => simp only [Heap.value?, ht.object?]
  | static => simp only [Heap.value?, ht.statics]
  | loose hk =>
    obtain ⟨c, hc, hc'⟩ := ht.cells hk
    simp only [Heap.value?, hc, hc']

theorem item? {id id' : ItemId} (hid : id.Twin R id') :
    Option.Rel (Item.Twin R) (h.item? id) (h'.item? id') := by
  cases hid with
  | field o v key =>
    simp only [Heap.item?, ht.fieldProperties]
    cases withKey key (h.fieldProperties o v) with
    | none => exact .none
    | some p => exact .some ⟨.field _ _ _, rfl⟩
  | static r t v key =>
    simp only [Heap.item?, ht.registry]
    cases withKey key ((h.registry r).staticProperties t v) with
    | none => exact .none
    | some p => exact .some ⟨.static _ _ _ _, rfl⟩
  | loose hk =>
    obtain ⟨c, hc, hc'⟩ := ht.cells hk
    simp only [Heap.item?, hc, hc']
    exact .some ⟨.loose hk, rfl⟩

theorem properties_filterMap {ids ids' : List ItemId}
    (hids : List.Forall₂ (ItemId.Twin R) ids ids') :
    (ids'.filterMap h'.item?).map Item.property = (ids.filterMap h.item?).map Item.property := by
  induction hids with
  | nil => rfl
  | cons hid _ ih =>
    rw [List.filterMap_cons, List.filterMap_cons]
    rcases rel_split (ht.item? hid) with ⟨hi, hi'⟩ | ⟨i, i', hi, hi', htwin⟩
    · rw [hi, hi']
      exact ih
    · rw [hi, hi']
      exact congrArg₂ List.cons htwin.property ih

section group
variable {x : GroupId} (hx : x.Common P)
include hx

theorem find (key : String) : Option.Rel (Item.Twin R) (h.find x key) (h'.find x key) := by
  cases x with
  | fields o v => exact ht.item? (.field o v key)
  | statics r t v => exact ht.item? (.static r t v key)
  | loose n =>
    rw [Heap.find, Heap.find]
    rcases rel_split (ht.groups (hx n rfl)) with ⟨hg, hg'⟩ | ⟨g, g', hg, hg', htwin⟩
    · rw [hg, hg']
      exact .none
    · rw [hg, hg', Option.bind_some, Option.bind_some]
      rcases rel_split (htwin.items.get? key) with ⟨hi, hi'⟩ | ⟨_, _, hi, hi', hid⟩
      · rw [hi, hi']
        exact .none
      · rw [hi, hi']
        exact ht.item? hid

theorem hasKey (key : String) : h'.hasKey x key = h.hasKey x key := by
  cases x with
  | fields o v => simp only [Heap.hasKey, ht.fieldProperties]
  | statics r t v => simp only [Heap.hasKey, ht.registry]
  | loose n =>
    rw [Heap.hasKey, Heap.hasKey]
    rcases rel_split (ht.groups (hx n rfl)) with ⟨hg, hg'⟩ | ⟨g, g', hg, hg', htwin⟩
    · rw [hg, hg']
    · rw [hg, hg']
      exact htwin.items.contains key

theorem insertable : h'.insertable x = h.insertable x := by
  cases x with
  | fields | statics => rfl
  | loose n =>
    rw [Heap.insertable, Heap.insertable]
    rcases rel_split (ht.groups (hx n rfl)) with ⟨hg, hg'⟩ | ⟨g, g', hg, hg', htwin⟩
    · rw [hg, hg']
    · rw [hg, hg']
      exact htwin.insertable

theorem properties : (h'.items x).map Item.property = (h.items x).map Item.property := by
  cases x with
  | fields o v => simp only [Heap.items, ht.fieldProperties]
  | statics r t v => simp only [Heap.items, ht.registry]
  | loose n =>
    rw [Heap.items, Heap.items]
    rcases rel_split (ht.groups (hx n rfl)) with ⟨hg, hg'⟩ | ⟨g, g', hg, hg', htwin⟩
    · rw [hg, hg']
    · rw [hg, hg']
      exact ht.properties_filterMap htwin.items.values

end group

section view
variable {v : View} (hv : ∀ x ∈ v.groups, x.Common P)
include hv

theorem viewFind (key : String) : Option.Rel (Item.Twin R) (v.find h key) (v.find h' key) := by
  rw [View.find_eq, View.find_eq]
  have hall : ∀ x ∈ v.order, x.Common P := fun x hx => hv x ((View.mem_order v).mp hx)
  generalize v.order = xs at hall
  induction xs with
  | nil => exact .none
  | cons x xs ih =>
    obtain ⟨hx, hxs⟩ := List.forall_mem_cons.mp hall
    rw [List.findSome?_cons, List.findSome?_cons]
    rcases rel_split (ht.find hx key) with ⟨hi, hi'⟩ | ⟨_, _, hi, hi', htwin⟩
    · rw [hi, hi']
      exact ih hxs
    · rw [hi, hi']
      exact .some htwin

theorem keys : v.keys h' = v.keys h := by
  rw [View.keys_eq, View.keys_eq]
  exact List.flatMap_congr fun x hx => ht.properties (hv x hx)

theorem contains (key : String) : v.contains h' key = v.contains h key :=
  contains_congr fun x hx => ht.hasKey (hv x hx) key

theorem slotFor (key : String) : v.slotFor h' key = v.slotFor h key :=
  View.slotFor_congr (fun x hx => ht.hasKey (hv x hx) key) fun x hx => ht.insertable (hv x hx)

end view

theorem holder {i i' : Item} (hi : i.Twin R i') (path : String) :
    h'.holder i' path = h.holder i path := by
  simp only [Heap.holder, hi.property, hi.key, ht.value? hi.id]

end reading

theorem common_outside (h : Heap) (o : ObjectId) : ∀ x ∈ (h.outside o).groups, x.Common P := by
  rintro x hx n rfl
  rw [Heap.outside, View.groups, View.groupsList_map_plain] at hx
  exact (loose_not_mem_outerGroups hx).elim

section paths
variable (ht : h.Twin P R h')
include ht

theorem walk (path : String) (segments : List String) {i i' : Item} (hi : i.Twin R i') :
    SameResult (Item.Twin R) (h.walk path segments i) (h'.walk path segments i') := by
  induction segments generalizing i i' with
  | nil => exact .ok hi
  | cons s segments ih =>
    rw [Heap.walk, Heap.walk, ht.holder hi]
    cases h.holder i path with
    | error e => exact .error e
    | ok o =>
      dsimp only
      rw [ht.outside]
      rcases rel_split (ht.viewFind (common_outside h o) s) with ⟨hn, hn'⟩ | ⟨_, _, hn, hn', htwin⟩
      · rw [hn, hn']
        exact .error _
      · rw [hn, hn']
        exact ih htwin

variable {v : View} (hv : ∀ x ∈ v.groups, x.Common P)
include hv

theorem resolvePath (path : String) :
    SameResult (Item.Twin R) (h.resolvePath v path) (h'.resolvePath v path) := by
  unfold Heap.resolvePath
  split
  · exact .error _
  · split
    · exact .error _
    · next first rest _ =>
      rcases rel_split (ht.viewFind hv first) with ⟨hi, hi'⟩ | ⟨_, _, hi, hi', htwin⟩
      · rw [hi, hi']
        exact .error _
      · rw [hi, hi']
        exact ht.walk path rest htwin

theorem readPath (path : String) : h'.readPath v path = h.readPath v path := by
  unfold Heap.readPath
  rcases (ht.resolvePath hv path).split with ⟨e, hi, hi'⟩ | ⟨_, _, hi, hi', htwin⟩
  · rw [hi, hi']
  · rw [hi, hi']
    simp only [htwin.property, htwin.key, ht.value? htwin.id]

end paths

section writing

theorem withShared (ht : h.Twin P R h') (s : Shared) :
    (h.withShared s).Twin P R (h'.withShared s) :=
  ⟨rfl, rfl, rfl, ht.layered, ht.size, ht.groups, ht.cells, ht.forth, ht.back⟩

theorem shared (ht : h.Twin P R h') : h'.shared = h.shared := by
  rw [Heap.shared, ht.registries, ht.statics, ht.objects, ← Heap.shared]

theorem assign (ht : h.Twin P R h') {id id' : ItemId} (hid : id.Twin R id') (v : Option ObjectId) :
    (h.assign id v).Twin P R (h'.assign id' v) := by
  cases hid with
  | field o w key =>
    refine ⟨ht.registries, ht.statics, ?_, ht.layered, ht.size, ht.groups, ht.cells, ht.forth,
      ht.back⟩
    simp only [Heap.assign, ht.objects]
  | static r t w key =>
    refine ⟨ht.registries, ?_, ht.objects, ht.layered, ht.size, ht.groups, ht.cells, ht.forth,
      ht.back⟩
    simp only [Heap.assign, ht.statics]
  | @loose j j' hj =>
    refine ⟨ht.registries, ht.statics, ht.objects, ht.layered, ht.size, ht.groups, ?_, ht.forth,
      ht.back⟩
    intro k k' hk
    obtain ⟨c, hc, hc'⟩ := ht.cells hk
    simp only [Heap.assign, Table.get?_modify, hc, hc']
    by_cases he : j = k
    · subst he
      rw [if_pos rfl, if_pos (ht.forth hj hk)]
      exact ⟨_, rfl, rfl⟩
    · have he' : j' ≠ k' := by
        rintro rfl
        exact he (ht.back hj hk)
      rw [if_neg he, if_neg he']
      exact ⟨c, rfl, rfl⟩

theorem store (ht : h.Twin P R h') {i i' : Item} (hi : i.Twin R i') (v : ObjectId) :
    Option.Rel (Heap.Twin P R) (h.store i v) (h'.store i' v) := by
  unfold Heap.store
  rw [ht.isA, hi.property]
  split
  · exact .some (ht.assign hi.id _)
  · exact .none

/-- The new cells of both heaps correspond. -/
theorem newItem (ht : h.Twin P R h') (p : Property) :
    (h.newItem p).1.Twin P (pairing R h.cells.size h'.cells.size) (h'.newItem p).1 ∧
      (h.newItem p).2.Twin (pairing R h.cells.size h'.cells.size) (h'.newItem p).2 := by
  have hlt : ∀ {k k'}, R k k' → k < h.cells.size ∧ k' < h'.cells.size := by
    intro k k' hk
    obtain ⟨c, hc, hc'⟩ := ht.cells hk
    exact ⟨Table.lt_size_of_get? hc, Table.lt_size_of_get? hc'⟩
  refine ⟨⟨ht.registries, ht.statics, ht.objects, ht.layered, ht.size, ?_, ?_, ?_, ?_⟩,
    .loose (.inr ⟨rfl, rfl⟩), rfl⟩
  · exact fun hn => rel_imp (ItemGroup.Twin.imp .inl) (ht.groups hn)
  · rintro k k' (hk | ⟨rfl, rfl⟩)
    · obtain ⟨hl, hl'⟩ := hlt hk
      simp only [Heap.newItem, Table.get?_push_of_lt _ _ hl, Table.get?_push_of_lt _ _ hl']
      exact ht.cells hk
    · exact ⟨_, Table.get?_push_size _ _, Table.get?_push_size _ _⟩
  · rintro k k' j' (hk | ⟨rfl, rfl⟩) (hj | ⟨hj, rfl⟩)
    · exact ht.forth hk hj
    · have hl := (hlt hk).1
      omega
    · have hl := (hlt hj).1
      omega
    · rfl
  · rintro k j k' (hk | ⟨rfl, rfl⟩) (hj | ⟨rfl, hj⟩)
    · exact ht.back hk hj
    · have hl := (hlt hk).2
      omega
    · have hl := (hlt hj).2
      omega
    · rfl

theorem insertItem (ht : h.Twin P R h') (n : Nat) {i i' : Item} (hi : i.Twin R i') :
    (h.insertItem n i).Twin P R (h'.insertItem n i') := by
  refine ⟨ht.registries, ht.statics, ht.objects, ht.layered, ?_, ?_, ht.cells, ht.forth, ht.back⟩
  · simp only [Heap.insertItem, Table.size_modify, ht.size]
  · intro m hm
    simp only [Heap.insertItem, Table.get?_modify]
    by_cases hn : n = m
    · rw [if_pos hn, if_pos hn]
      rcases rel_split (ht.groups hm) with ⟨hg, hg'⟩ | ⟨g, g', hg, hg', htwin⟩
      · rw [hg, hg']
        exact .none
      · rw [hg, hg']
        refine .some ⟨htwin.insertable, ?_⟩
        rw [hi.key]
        exact htwin.items.put i.key hi.id
    · rw [if_neg hn, if_neg hn]
      exact ht.groups hm

theorem newGroup (ht : h.Twin P R h') (insertable : Bool) {items items' : List Item}
    (hi : List.Forall₂ (Item.Twin R) items items') :
    (h.newGroup insertable items).1.Twin P R (h'.newGroup insertable items').1 ∧
      (h'.newGroup insertable items').2 = (h.newGroup insertable items).2 := by
  refine ⟨⟨ht.registries, ht.statics, ht.objects, ht.layered, ?_, ?_, ht.cells, ht.forth, ht.back⟩,
    congrArg GroupId.loose ht.size⟩
  · simp only [Heap.newGroup, Table.size_push, ht.size]
  · intro n hn
    simp only [Heap.newGroup, Table.get?_push, ht.size]
    by_cases he : n = h.groups.size
    · rw [if_pos he, if_pos he]
      refine .some ⟨rfl, Assoc.Match.ofList ?_⟩
      rw [List.forall₂_map_left_iff, List.forall₂_map_right_iff]
      exact hi.imp fun _ _ h => ⟨h.key, h.id⟩
    · rw [if_neg he, if_neg he]
      exact ht.groups hn

theorem newStack (ht : h.Twin P R h') :
    h.newStack.1.Twin P R h'.newStack.1 ∧ h'.newStack.2 = h.newStack.2 := by
  refine ⟨⟨ht.registries, ht.statics, ht.objects, ?_, ht.size, ht.groups, ht.cells, ht.forth,
    ht.back⟩, ?_⟩
  · simp only [Heap.newStack, ht.layered]
  · simp only [Heap.newStack, ht.layered]

theorem setLayers (ht : h.Twin P R h') (σ : StackId) (ls : List Group) :
    (h.setLayers σ ls).Twin P R (h'.setLayers σ ls) := by
  refine ⟨ht.registries, ht.statics, ht.objects, ?_, ht.size, ht.groups, ht.cells, ht.forth,
    ht.back⟩
  simp only [Heap.setLayers, ht.layered]

theorem pushEmpty (ht : h.Twin P R h') (σ : StackId) :
    (h.pushEmpty σ).1.Twin P R (h'.pushEmpty σ).1 ∧ (h'.pushEmpty σ).2 = (h.pushEmpty σ).2 := by
  obtain ⟨hg, hid⟩ := ht.newGroup true .nil
  have hl := hg.layers σ
  simp only [Heap.pushEmpty, hl, hid, and_true]
  exact hg.setLayers σ _

theorem setIn (ht : h.Twin P R h') {v : View} (hv : ∀ x ∈ v.groups, x.Common P) (key : String)
    (value : ObjectId) : SameResult (fun p q => q.1 = p.1 ∧ p.2.Twin P R q.2)
      (h.setIn v key value) (h'.setIn v key value) := by
  unfold Heap.setIn Heap.putIn
  rcases rel_split (ht.viewFind hv key) with ⟨hi, hi'⟩ | ⟨_, _, hi, hi', htwin⟩
  · rw [hi, hi']
    exact .error _
  · rw [hi, hi']
    simp only [htwin.property]
    split
    · rcases rel_split (ht.store htwin value) with ⟨hs, hs'⟩ | ⟨_, _, hs, hs', hstored⟩
      · rw [hs, hs']
        exact .ok ⟨rfl, ht⟩
      · rw [hs, hs']
        exact .ok ⟨rfl, hstored⟩
    · exact .error _

theorem setPath (ht : h.Twin P R h') {v : View} (hv : ∀ x ∈ v.groups, x.Common P) (path : String)
    (value : ObjectId) : SameResult (fun p q => q.1 = p.1 ∧ p.2.Twin P R q.2)
      (h.setPath v path value) (h'.setPath v path value) := by
  unfold Heap.setPath Heap.putPath
  split
  · exact ht.setIn hv path value
  · next first last _ =>
    rcases (ht.resolvePath hv first).split with ⟨e, hi, hi'⟩ | ⟨_, _, hi, hi', htwin⟩
    · rw [hi, hi']
      exact .error e
    · rw [hi, hi']
      dsimp only
      rw [ht.holder htwin]
      split
      · exact .error _
      · next o _ =>
        rw [ht.outside]
        exact ht.setIn (common_outside h o) last value

theorem addTo (ht : h.Twin P R h') {v : View} (hv : ∀ x ∈ v.groups, x.Common P) {i i' : Item}
    (hi : i.Twin R i') : SameResult (fun p q => q.1 = p.1 ∧ p.2.Twin P R q.2)
      (h.addTo v i) (h'.addTo v i') := by
  unfold Heap.addTo Heap.offer
  rw [hi.key, ht.slotFor hv]
  split
  · exact .error _
  · exact .ok ⟨rfl, ht⟩
  · exact .ok ⟨rfl, ht.insertItem _ hi⟩

theorem pushChecked (ht : h.Twin P R h') {σ : StackId} {g : Group}
    (hσ : ∀ l ∈ h.layers σ, ∀ x ∈ (h.view l).groups, x.Common P)
    (hg : ∀ x ∈ (h.view g).groups, x.Common P) :
    SameResult (Heap.Twin P R) (h.pushChecked σ g) (h'.pushChecked σ g) := by
  have hviews : (h'.layers σ).map h'.view = (h.layers σ).map h.view := by
    rw [ht.layers]
    exact List.map_congr_left fun l _ => ht.view l
  have hkeys : conflictingKeys h' ((h.layers σ).map h.view) (h.view g) =
      conflictingKeys h ((h.layers σ).map h.view) (h.view g) := by
    have hall : ∀ x ∈ (View.linked ((h.layers σ).map h.view)).groups, x.Common P := by
      intro x hx
      rw [View.groups, View.groupsList_eq_flatMap, List.mem_flatMap] at hx
      obtain ⟨_, hm, hx⟩ := hx
      obtain ⟨l, hl, rfl⟩ := List.mem_map.mp hm
      exact hσ l hl x hx
    have htaken := ht.keys hall
    rw [View.keys, View.keys] at htaken
    simp only [conflictingKeys, View.keyNames, htaken, ht.keys hg]
  unfold Heap.pushChecked
  rw [hviews, ht.view, hkeys, ht.layers]
  split
  · exact .ok (ht.setLayers σ _)
  · exact .error _

end writing

end Heap.Twin

end GuardedScript
