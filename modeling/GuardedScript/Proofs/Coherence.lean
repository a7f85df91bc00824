import GuardedScript.Proofs.Layers

/-!
Groups of all kinds keep to one rule, however they are nested. Whether a key is there, is found and
is listed comes to the same, and what is found has the key that was asked for. An item that is added
goes into one plain group, under a key that was nowhere in the whole, and is found from then on; all
other keys lead where they led before. An item that is not added changes nothing.
-/

namespace GuardedScript

open Relation

/-- What the search for a slot can answer: that the view takes no items, that the key is there, or a
slot among the plain groups of the view, if the key is in none of them. -/
inductive View.Places (h : Heap) (key : String) (v : View) :
    Except MemoryError (Option Nat) → Prop where
  | refused : Places h key v (.error .readOnlyGroup)
  | present (hc : v.contains h key = true) : Places h key v (.ok none)
  | slot {m} (hc : v.contains h key = false) (hm : .loose m ∈ v.groups)
      (hs : h.insertable (.loose m) = true) : Places h key v (.ok (some m))

section slots
variable {h : Heap} {key : String}

theorem View.contains_mono {u v : View} (hsub : v.groups ⊆ u.groups)
    (hc : v.contains h key = true) : u.contains h key = true := by
  obtain ⟨x, hx, hk⟩ := (View.contains_iff v).mp hc
  exact (View.contains_iff u).mpr ⟨x, hsub hx, hk⟩

/-- A slot in a part is one in the whole, if the key is nowhere in the whole. -/
theorem View.Places.outward {u v : View} {r : Except MemoryError (Option Nat)}
    (hp : v.Places h key r) (hsub : v.groups ⊆ u.groups) (hu : u.contains h key = false) :
    u.Places h key r := by
  cases hp with
  | refused => exact .refused
  | present hc =>
    rw [View.contains_mono hsub hc] at hu
    cases hu
  | slot _ hm hs => exact .slot hu (hsub hm) hs

mutual

theorem View.places_slotFor : ∀ v : View, v.Places h key (v.slotFor h key)
  | .plain (.loose n) => by
    rw [View.slotFor]
    split
    · next hi =>
      split
      · next hk => exact .present hk
      · next hk =>
        exact .slot (by simpa [View.contains] using hk) (List.mem_singleton.mpr rfl) hi
    · exact .refused
  | .plain (.fields _ _) => by
    rw [View.slotFor]
    exact .refused
  | .plain (.statics _ _ _) => by
    rw [View.slotFor]
    exact .refused
  | .linked _ => by
    rw [View.slotFor]
    exact .refused
  | .writable parts target => by
    rw [View.slotFor]
    split
    · next hk => exact .present hk
    · next hk =>
      exact (View.places_slotFor target).outward (List.subset_append_right _ _)
        (by simpa [View.contains] using hk)
  | .layered layers => by
    rw [View.slotFor]
    split
    · next hk => exact .present hk
    · next hk => exact View.places_slotOnTop layers (by simpa [View.contains] using hk)

theorem View.places_slotOnTop : ∀ vs : List View, (View.layered vs).contains h key = false →
    (View.layered vs).Places h key (View.slotOnTop h key vs)
  | [], _ => by
    rw [View.slotOnTop]
    exact .refused
  | v :: vs, hc => by
    have hrest : (View.layered vs).contains h key = false := by
      rw [View.contains, View.containsAny, Bool.or_eq_false_iff] at hc
      rw [View.contains]
      exact hc.2
    rw [View.slotOnTop]
    split
    · exact (View.places_slotOnTop vs hrest).outward (List.subset_append_right _ _) hc
    · split
      · exact (View.places_slotFor v).outward (List.subset_append_left _ _) hc
      · exact .refused

end

end slots

theorem Assoc.put_of_not_mem {κ α : Type} [DecidableEq κ] {m : Assoc κ α} {k : κ} {a : α}
    (hk : k ∉ m.keys) : (m.put k a).entries = m.entries ++ [(k, a)] := by
  obtain ⟨l⟩ := m
  change Assoc.replace k a l = l ++ [(k, a)]
  replace hk : k ∉ l.map (·.1) := hk
  induction l with
  | nil => rfl
  | cons e l ih =>
    obtain ⟨j, b⟩ := e
    rw [List.map_cons, List.mem_cons, not_or] at hk
    rw [Assoc.replace, if_neg (Ne.symm hk.1), ih hk.2, List.cons_append]

namespace Heap

variable {h h' : Heap} {key : String} {i : Item}

theorem Proper.key_of_find (hp : h.Proper) {x : GroupId} (hf : h.find x key = some i) :
    i.key = key := by
  cases x with
  | fields o v =>
    obtain ⟨p, hk, rfl⟩ := Option.map_eq_some_iff.mp hf
    exact (withKey_eq_some hk).2
  | statics r t v =>
    obtain ⟨p, hk, rfl⟩ := Option.map_eq_some_iff.mp hf
    exact (withKey_eq_some hk).2
  | loose n =>
    obtain ⟨id, hid, hi⟩ := Option.bind_eq_some_iff.mp hf
    obtain ⟨g, hg, hid⟩ := Option.bind_eq_some_iff.mp hid
    obtain ⟨j, hj, hk⟩ := hp.keyed hg (Assoc.mem_of_get? hid)
    rw [hi] at hj
    cases hj
    exact hk

theorem Proper.contains_iff_find (hp : h.Proper) {v : View} :
    v.contains h key = true ↔ (v.find h key).isSome = true := by
  rw [View.contains_iff, View.find_isSome_iff]
  exact exists_congr fun x => and_congr_right fun _ => by rw [hp.find_isSome]

/-- The plain group has the item besides those that it had, and no other group has changed. -/
structure Gains (h : Heap) (x : GroupId) (i : Item) (h' : Heap) : Prop where
  absent : h.hasKey x i.key = false
  gained : h'.items x = h.items x ++ [i]
  others : ∀ y, y ≠ x → h'.items y = h.items y

theorem group_of_insertable {m : Nat} (hs : h.insertable (.loose m) = true) :
    ∃ g, h.groups.get? m = some g := by
  obtain ⟨g, hg, _⟩ := (Option.any_eq_true _ _).mp hs
  exact ⟨g, hg⟩

theorem gains_insertItem {m : Nat} (hs : h.insertable (.loose m) = true)
    (hk : h.hasKey (.loose m) i.key = false) (hi : h.item? i.id = some i) :
    h.Gains (.loose m) i (h.insertItem m i) := by
  refine ⟨hk, ?_, ?_⟩
  · obtain ⟨g, hg⟩ := group_of_insertable hs
    have hnew : i.key ∉ g.items.keys := by
      rw [← Assoc.contains_iff]
      simpa [hasKey, hg] using hk
    have hsame : (h.insertItem m i).item? = h.item? := funext (item?_insertItem m i)
    simp only [items, hsame]
    simp only [insertItem, Table.get?_modify, if_true, hg, Option.map_some, Assoc.values,
      Assoc.put_of_not_mem hnew, List.map_append, List.filterMap_append, List.map_cons,
      List.map_nil, List.filterMap_cons, hi, List.filterMap_nil]
  · intro y hy
    cases y with
    | fields | statics => rfl
    | loose n =>
      have hne : ¬ m = n := fun hmn => hy (by rw [hmn])
      simp only [items, insertItem, Table.get?_modify, if_neg hne]
      rfl

/-- The item was added to the group. -/
structure Added (h : Heap) (g : Group) (i : Item) (h' : Heap) : Prop where
  absent : (h.view g).contains h i.key = false
  found : (h'.view g).find h' i.key = some i
  place : ∃ x ∈ (h.view g).groups, h.Gains x i h'
  others : ∀ a key, key ≠ i.key → (h'.view a).find h' key = (h.view a).find h key

theorem added_insertItem {g : Group} {m : Nat} (hi : h.item? i.id = some i)
    (hc : (h.view g).contains h i.key = false) (hm : .loose m ∈ (h.view g).groups)
    (hs : h.insertable (.loose m) = true) : h.Added g i (h.insertItem m i) where
  absent := hc
  found := by
    obtain ⟨_, hx⟩ := group_of_insertable hs
    rw [view_insertItem]
    exact find_insertItem (Table.lt_size_of_get? hx) hm hc hi
  place := by
    refine ⟨_, hm, gains_insertItem hs ?_ hi⟩
    by_contra hk
    rw [(View.contains_iff _).mpr ⟨_, hm, eq_true_of_ne_false hk⟩] at hc
    cases hc
  others := by
    intro a key hkey
    rw [view_insertItem]
    exact View.find_congr fun x _ => find_insertItem_of_ne fun hb => hkey hb.2

theorem offer_cases (h : Heap) (v : View) (i : Item) :
    h.offer v i = (.error .readOnlyGroup, h) ∨
    h.offer v i = (.ok false, h) ∧ v.contains h i.key = true ∨
    ∃ m, h.offer v i = (.ok true, h.insertItem m i) ∧ v.contains h i.key = false ∧
      .loose m ∈ v.groups ∧ h.insertable (.loose m) = true := by
  have hplaces : v.Places h i.key (v.slotFor h i.key) := View.places_slotFor v
  unfold offer
  generalize v.slotFor h i.key = r at hplaces
  cases hplaces with
  | refused => exact .inl rfl
  | present hc => exact .inr (.inl ⟨rfl, hc⟩)
  | slot hc hm hs => exact .inr (.inr ⟨_, rfl, hc, hm, hs⟩)

end Heap

/-- In every heap that comes about, for every group: a stack in it is seen as its layers are, a key
is there exactly if it is found and exactly if it is listed, and what is found has the key. An item
is added only under a key that the group does not have, to one plain group below it, and is then
found; no other group gains anything, and no other key leads elsewhere, in this group or any. When
the key is there, or the group takes no items, the heap is left as it is. -/
theorem groups_coherent (host : Host) (hh : host.Stepwise) {h : Heap} (hr : Heap.Reached host h)
    (g : Group) :
    (∀ σ, h.view (.stack σ) = .layered ((h.layers σ).map h.view)) ∧
    (∀ key, ((h.view g).contains h key = true ↔ ((h.view g).find h key).isSome = true) ∧
      (key ∈ (h.view g).keyNames h ↔ ((h.view g).find h key).isSome = true) ∧
      ∀ i, (h.view g).find h key = some i → i.key = key) ∧
    ∀ i, h.item? i.id = some i →
      (∀ h', h.offer (h.view g) i = (.ok true, h') → h.Added g i h') ∧
      (∀ h', h.offer (h.view g) i = (.ok false, h') →
        h' = h ∧ (h.view g).contains h i.key = true) ∧
      ∀ h' e, h.offer (h.view g) i = (.error e, h') → h' = h ∧ e = .readOnlyGroup := by
  have hp : h.Proper := hr.proper hh
  refine ⟨hp.view_stack, fun key => ⟨hp.contains_iff_find, ?_, ?_⟩, ?_⟩
  · rw [hp.mem_keyNames, hp.contains_iff_find]
  · intro i hi
    obtain ⟨x, _, hf⟩ := View.find_groups hi
    exact hp.key_of_find hf
  · intro i hi
    rcases Heap.offer_cases h (h.view g) i with hadd | ⟨hadd, hc⟩ | ⟨m, hadd, hc, hm, hs⟩
    · rw [hadd]
      refine ⟨by rintro _ ⟨⟩, by rintro _ ⟨⟩, ?_⟩
      rintro _ _ ⟨⟩
      exact ⟨rfl, rfl⟩
    · rw [hadd]
      refine ⟨by rintro _ ⟨⟩, ?_, by rintro _ _ ⟨⟩⟩
      rintro _ ⟨⟩
      exact ⟨rfl, hc⟩
    · rw [hadd]
      refine ⟨?_, by rintro _ ⟨⟩, by rintro _ _ ⟨⟩⟩
      rintro _ ⟨⟩
      exact Heap.added_insertItem hi hc hm hs

namespace Desk

/-- The stack on the desk, behind a link to its bottom layer. -/
def drawer : Group := .writable [.linked [.plain (.loose 0)]] (.stack ⟨0⟩)

def filled : Heap := heap.insertItem 1 item

theorem offer_item : heap.offer (heap.view drawer) item = (.ok true, filled) := by cbv

theorem filled_reached : Heap.Reached Host.standard filled :=
  heap_tended.reached.tail (.step (.add (by cbv) (Heap.granted_eq_ok.mpr offer_item)))

end Desk

/-- The pen goes through the link and the stack into the layer on top; the second time it is there,
and a link alone does not take it. -/
theorem pen_added_once :
    Desk.heap.Added Desk.drawer Desk.item Desk.filled ∧
    Desk.filled.offer (Desk.filled.view Desk.drawer) Desk.item = (.ok false, Desk.filled) ∧
    (Desk.filled.view Desk.drawer).contains Desk.filled "pen" = true ∧
    ((Desk.filled.view Desk.drawer).find Desk.filled "pen").isSome = true ∧
    ∃ h e, Desk.heap.offer (Desk.heap.view (.linked [Desk.drawer])) Desk.item = (.error e, h) ∧
      h = Desk.heap := by
  have hreached := Desk.heap_tended.reached
  have hitem : Desk.heap.item? Desk.item.id = some Desk.item := by cbv
  have hagain : Desk.filled.offer (Desk.filled.view Desk.drawer) Desk.item =
      (.ok false, Desk.filled) := by cbv
  have hlink : Desk.heap.offer (Desk.heap.view (.linked [Desk.drawer])) Desk.item =
      (.error .readOnlyGroup, Desk.heap) := by cbv
  obtain ⟨_, _, hadd⟩ := groups_coherent Host.standard Host.standard_stepwise hreached Desk.drawer
  obtain ⟨_, hkeys, hthen⟩ :=
    groups_coherent Host.standard Host.standard_stepwise Desk.filled_reached Desk.drawer
  obtain ⟨_, _, hrefuse⟩ :=
    groups_coherent Host.standard Host.standard_stepwise hreached (.linked [Desk.drawer])
  have hpen := ((hthen Desk.item (by cbv)).2.1 _ hagain).2
  exact ⟨(hadd _ hitem).1 _ Desk.offer_item, hagain, hpen, (hkeys "pen").1.mp hpen, _, _, hlink,
    ((hrefuse _ hitem).2.2 _ _ hlink).1⟩

end GuardedScript
