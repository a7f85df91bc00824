import GuardedScript.Proofs.PathReads
import GuardedScript.Proofs.TwoCalls

/-!
Items that may not be read leak nothing. A path asks for the flag before it asks for the value, on
its way and at its end, so no path shows the value of an unreadable item. One read does not ask for
the flag: that of the value which a thread returns. It looks into the thread's own layer, and an
unreadable item that was there before the call does not get into this layer under the key that is
looked up.
-/

namespace GuardedScript

namespace Heap

/-- The heap has the item, and the item may not be read. -/
def Unreadable (h : Heap) (id : ItemId) : Prop :=
  ∃ i, h.item? id = some i ∧ i.property.flags.readable = false

/-- The heaps differ at most in the values of the items `D`, which may not be read. No group from
the `n`th on has one of them under the key of returned values. -/
structure Conceals (D : ItemId → Prop) (n : Nat) (h h' : Heap) : Prop extends
    h.SameExcept D h' where
  unreadable : ∀ {id}, D id → h.Unreadable id
  groupCount : n ≤ h.groups.size
  slots : ∀ {m id}, n ≤ m → h.itemId? m returnKey = some id → ¬ D id

theorem SameExcept.conceals {h h' : Heap} (hs : h.SameExcept h.Unreadable h') :
    h.Conceals h.Unreadable h.groups.size h' where
  toSameExcept := hs
  unreadable := id
  groupCount := Nat.le_refl _
  slots hm hid := by
    rw [itemId?_eq_none hm] at hid
    cases hid

theorem groups_newObject {h k : Heap} {r : RegistryId} {t : TypeRef} {o : ObjectId}
    (hn : h.newObject r t = .ok (k, o)) : k.groups = h.groups := by
  obtain ⟨_, name, c, _, rfl⟩ := newObject_cases hn
  rfl

theorem groups_setBound {h k : Heap} {o : ObjectId} {v : HostValue}
    (hb : h.setBound o v = .ok k) : k.groups = h.groups := by
  rcases setBound_cases hb with rfl | ⟨x, b, _, rfl⟩
  · rfl
  · rfl

theorem setPath_assigns {h k : Heap} {v : View} {path : String} {value : ObjectId} {b : Bool}
    (hs : h.setPath v path value = .ok (b, k)) : k = h ∨ ∃ id, k = h.assign id (some value) := by
  have hset : ∃ u key, h.setIn u key value = .ok (b, k) := by
    rcases setPath_cases hs with hs | ⟨_, o, key, hs⟩
    · exact ⟨v, path, hs⟩
    · exact ⟨h.outside o, key, hs⟩
  obtain ⟨u, key, hset⟩ := hset
  rcases setIn_cases hset with ⟨_, rfl⟩ | ⟨_, i, _, _, rfl⟩
  · exact .inl rfl
  · exact .inr ⟨i.id, rfl⟩

namespace Conceals

variable {D : ItemId → Prop} {n : Nat} {h h' k k' : Heap} (hc : h.Conceals D n h')
include hc

/-- Items stay, groups are added, and none of the items comes under the key of returned values. -/
theorem next (hs : k.SameExcept D k') (hitems : h.KeepsItems k)
    (hgroups : h.groups.size ≤ k.groups.size)
    (hslots : ∀ {m id}, k.itemId? m returnKey = some id →
      h.itemId? m returnKey = some id ∨ ¬ D id) :
    k.Conceals D n k' where
  toSameExcept := hs
  unreadable hid := by
    obtain ⟨i, hi, hr⟩ := hc.unreadable hid
    exact ⟨i, hitems _ _ hi, hr⟩
  groupCount := Nat.le_trans hc.groupCount hgroups
  slots hm hid := by
    rcases hslots hid with hold | hnew
    · exact hc.slots hm hold
    · exact hnew

/-- The groups are as they were. -/
theorem same_groups (hs : k.SameExcept D k') (hitems : h.KeepsItems k)
    (hgroups : k.groups = h.groups) : k.Conceals D n k' := by
  apply hc.next hs hitems
  · rw [hgroups]
  · intro m id hid
    rw [itemId?, hgroups, ← itemId?] at hid
    exact .inl hid

theorem not_readable {id : ItemId} {i : Item} (hi : h.item? id = some i)
    (hr : i.property.flags.readable = true) : ¬ D i.id := by
  intro hD
  obtain ⟨j, hj, hunread⟩ := hc.unreadable hD
  rw [item?_id hi, hi] at hj
  cases hj
  rw [hr] at hunread
  cases hunread

theorem withholds (v : View) : v.Withholds D h :=
  fun hi hr => hc.not_readable (item?_of_viewFind hi) hr

theorem readPath (v : View) (path : String) : h'.readPath v path = h.readPath v path :=
  hc.toSameExcept.readPath (fun _ => hc.withholds _) (hc.withholds v) path

theorem newItem_snd (p : Property) : (h'.newItem p).2 = (h.newItem p).2 := by
  apply hc.same fun k => (k.newItem p).2
  intro k
  simp only [newItem, outline, Table.size_map]

theorem not_newItem (p : Property) : ¬ D (h.newItem p).2.id := by
  intro hD
  obtain ⟨i, hi, _⟩ := hc.unreadable hD
  simp only [newItem, item?, Table.get?_eq_none (Nat.le_refl _)] at hi
  cases hi

theorem after_assign {id : ItemId} {v : Option ObjectId} (hs : (h.assign id v).SameExcept D k') :
    (h.assign id v).Conceals D n k' :=
  hc.same_groups hs (fun _ _ hi => by rwa [item?_assign]) (groups_assign h id v)

theorem assign (id : ItemId) (v : Option ObjectId) :
    (h.assign id v).Conceals D n (h'.assign id v) :=
  hc.after_assign (hc.toSameExcept.assign id v)

theorem newItem (p : Property) : (h.newItem p).1.Conceals D n (h'.newItem p).1 :=
  hc.same_groups (hc.blind (blind_newItem p)) (fun _ _ => (itemsLast_newItem h p).kept) rfl

theorem newStack : h.newStack.1.Conceals D n h'.newStack.1 := by
  apply hc.same_groups (hc.blind blind_newStack)
  · intro id i hi
    cases id <;> exact hi
  · rfl

theorem setLayers (σ : StackId) (ls : List Group) :
    (h.setLayers σ ls).Conceals D n (h'.setLayers σ ls) := by
  apply hc.same_groups (hc.blind (blind_setLayers σ ls))
  · intro id i hi
    cases id <;> exact hi
  · rfl

theorem insertItem (m : Nat) {i : Item} (hi : i.key = returnKey → ¬ D i.id) :
    (h.insertItem m i).Conceals D n (h'.insertItem m i) := by
  apply hc.next (hc.blind (blind_insertItem m i))
  · intro id j hj
    cases id <;> exact hj
  · simp [Heap.insertItem]
  · intro m' id hid
    rw [itemId?_insertItem] at hid
    split at hid
    · next hplace =>
      cases hid
      exact .inr (hi hplace.2.2)
    · exact .inl hid

theorem newGroup (insertable : Bool) {items : List Item}
    (hi : ∀ i ∈ items, i.key = returnKey → ¬ D i.id) :
    (h.newGroup insertable items).1.Conceals D n (h'.newGroup insertable items).1 := by
  apply hc.next (hc.blind (blind_newGroup insertable items))
  · intro id j hj
    cases id <;> exact hj
  · simp [Heap.newGroup]
  · intro m id hid
    rcases mem_of_itemId?_newGroup hid with hold | ⟨i, hm, hkey, rfl⟩
    · exact .inl hold
    · exact .inr (hi i hm hkey)

theorem newObject (r : RegistryId) (t : TypeRef) :
    SameResult (fun p q => q.2 = p.2 ∧ p.1.Conceals D n q.1)
      (h.newObject r t) (h'.newObject r t) := by
  rcases (hc.toSameExcept.newObject r t).split with ⟨e, he, he'⟩ | ⟨p, q, hp, hq, hid, hs⟩
  · rw [he, he']
    exact .error e
  · rw [hp, hq]
    have hconceals : p.1.Conceals D n q.1 :=
      hc.same_groups hs (fun _ _ => (keeps_newObject hp).items.kept) (groups_newObject hp)
    exact .ok ⟨hid, hconceals⟩

theorem setBound (o : ObjectId) (v : HostValue) :
    SameResult (Conceals D n) (h.setBound o v) (h'.setBound o v) := by
  rcases (hc.toSameExcept.setBound o v).split with ⟨e, he, he'⟩ | ⟨_, _, hk, hk', hs⟩
  · rw [he, he']
    exact .error e
  · rw [hk, hk']
    exact .ok (hc.same_groups hs (fun _ _ => (keeps_setBound hk).items.kept)
      (groups_setBound hk))

theorem store (i : Item) (v : ObjectId) :
    Option.Rel (Conceals D n) (h.store i v) (h'.store i v) := by
  unfold Heap.store
  rw [hc.isA]
  split
  · exact .some (hc.assign i.id _)
  · exact .none

theorem addTo (v : View) {i : Item} (hi : ¬ D i.id) :
    SameResult (fun p q => q.1 = p.1 ∧ p.2.Conceals D n q.2) (h.addTo v i) (h'.addTo v i) := by
  unfold Heap.addTo Heap.offer
  rw [hc.same (v.slotFor · i.key) (slotFor_outline · v i.key)]
  split
  · exact .error _
  · exact .ok ⟨rfl, hc⟩
  · next m _ => exact .ok ⟨rfl, hc.insertItem m fun _ => hi⟩

theorem setPath (v : View) (path : String) (value : ObjectId) :
    SameResult (fun p q => q.1 = p.1 ∧ p.2.Conceals D n q.2)
      (h.setPath v path value) (h'.setPath v path value) := by
  rcases (hc.toSameExcept.setPath (fun _ => hc.withholds _) (hc.withholds v) path value).split_flag
    with ⟨e, he, he'⟩ | ⟨b, k, k', hk, hk', hs⟩
  · rw [he, he']
    exact .error e
  · rw [hk, hk']
    refine .ok ⟨rfl, ?_⟩
    rcases setPath_assigns hk with rfl | ⟨id, rfl⟩
    · exact hc.same_groups hs (fun _ _ => id) rfl
    · exact hc.after_assign hs

/-- A new item is none of those that differ. -/
theorem filledItem (p : Property) (v : Option ObjectId) :
    (h.filledItem p v).1.Conceals D n (h'.filledItem p v).1 ∧
      (h'.filledItem p v).2 = (h.filledItem p v).2 ∧ ¬ D (h.filledItem p v).2.id := by
  cases v with
  | none => exact ⟨hc.newItem p, hc.newItem_snd p, hc.not_newItem p⟩
  | some v =>
    refine ⟨?_, hc.newItem_snd p, hc.not_newItem p⟩
    simp only [Heap.filledItem, hc.newItem_snd]
    rcases rel_split ((hc.newItem p).store (h.newItem p).2 v) with ⟨hs, hs'⟩ | ⟨_, _, hs, hs', hk⟩
    · rw [hs, hs']
      exact hc.newItem p
    · rw [hs, hs']
      exact hk

theorem pushChecked (σ : StackId) (g : Group) :
    SameResult (Conceals D n) (h.pushChecked σ g) (h'.pushChecked σ g) := by
  unfold Heap.pushChecked
  rw [hc.same (fun k => conflictingKeys k ((k.layers σ).map k.view) (k.view g))
    (fun k => by rw [k.conflictingKeys_outline, k.layers_outline, funext k.view_outline])]
  split
  · rw [hc.same (·.layers σ) (layers_outline · σ)]
    exact .ok (hc.setLayers σ _)
  · exact .error _

/-- The new layer is one of the groups that hold none of the items. -/
theorem pushEmpty (σ : StackId) : (h'.pushEmpty σ).2 = (h.pushEmpty σ).2 ∧
    (∃ m, (h.pushEmpty σ).2 = .loose m ∧ n ≤ m) ∧
      (h.pushEmpty σ).1.Conceals D n (h'.pushEmpty σ).1 := by
  have hmade : (h.newGroup true []).1.Conceals D n (h'.newGroup true []).1 := by
    apply hc.newGroup
    intro i hi
    cases hi
  have hid : (h'.newGroup true []).2 = (h.newGroup true []).2 :=
    hc.same (fun k => (k.newGroup true []).2) fun _ => rfl
  refine ⟨hid, ⟨h.groups.size, rfl, hc.groupCount⟩, ?_⟩
  simp only [Heap.pushEmpty, hid, hmade.same (·.layers σ) (layers_outline · σ)]
  exact hmade.setLayers σ _

end Conceals

end Heap

open Heap

section deeds
variable {D : ItemId → Prop} {n : Nat} {h h' : Heap} {t : Thread}

theorem Deed.conceals (hc : h.Conceals D n h') (d : Deed) :
    (d.apply h).Conceals D n (d.apply h') := by
  have hitem : h'.item? = h.item? := hc.same Heap.item? fun k => funext k.item?_outline
  cases d with
  | put id v => exact hc.assign id v
  | newItem p => exact hc.newItem p
  | insert m id =>
    simp only [Deed.apply, hitem]
    cases hi : h.item? id with
    | none => exact hc
    | some i =>
      dsimp only
      by_cases hr : i.returnable = true
      · rw [if_pos hr, if_pos hr]
        exact hc.insertItem m fun hkey => hc.not_readable hi (Item.readable_of_returnable hr hkey)
      · rw [if_neg hr, if_neg hr]
        exact hc
  | newGroup insertable ids =>
    simp only [Deed.apply, hitem]
    apply hc.newGroup
    intro i hi
    obtain ⟨hm, hr⟩ := List.mem_filter.mp hi
    obtain ⟨id, _, hid⟩ := List.mem_filterMap.mp hm
    exact fun hkey => hc.not_readable hid (Item.readable_of_returnable hr hkey)
  | newStack => exact hc.newStack
  | setLayers σ ls => exact hc.setLayers σ ls
  | retype rs =>
    have hnew := hc.blind (blind_withRegistries rs)
    have hkeeps : h'.KeepsItems (h'.withRegistries rs) ↔ h.KeepsItems (h.withRegistries rs) := by
      unfold KeepsItems
      rw [hitem, hnew.same Heap.item? fun k => funext k.item?_outline]
    by_cases hk : h.KeepsItems (h.withRegistries rs)
    · rw [Deed.apply, Deed.apply, if_pos hk, if_pos (hkeeps.mpr hk)]
      exact hc.same_groups hnew hk rfl
    · rw [Deed.apply, Deed.apply, if_neg hk, if_neg fun hk' => hk (hkeeps.mp hk')]
      exact hc
  | newObject r type =>
    simp only [Deed.apply]
    rcases (hc.newObject r type).split with ⟨e, he, he'⟩ | ⟨⟨k, o⟩, ⟨k', o'⟩, hk, hk', _, hs⟩
    · rw [he, he']
      exact hc
    · rw [hk, hk']
      exact hs
  | setBound o v =>
    simp only [Deed.apply]
    rcases (hc.setBound o v).split with ⟨e, he, he'⟩ | ⟨k, k', hk, hk', hs⟩
    · rw [he, he']
      exact hc
    · rw [hk, hk']
      exact hs

/-- The replies differ at most in what their heaps conceal. -/
def HostReply.Conceals (D : ItemId → Prop) (n : Nat) (r r' : HostReply) : Prop :=
  ∃ a', r' = { r with heap := a' } ∧ r.heap.Conceals D n a'

/-- The layer for the returned value is one of the groups from the `n`th on. -/
def Thread.Newer (n : Nat) (t : Thread) : Prop :=
  ∀ x, t.scratch = some x → ∃ m, x = .loose m ∧ n ≤ m

namespace Thread

theorem returnValue_conceals (ht : t.Newer n) (hc : h.Conceals D n h') :
    t.returnValue h' = t.returnValue h := by
  unfold Thread.returnValue
  cases hx : t.scratch with
  | none => rfl
  | some x =>
    obtain ⟨m, rfl, hm⟩ := ht x hx
    rw [Option.bind_some, Option.bind_some, hc.same (·.find (.loose m) returnKey)
      (find_outline · (.loose m) returnKey)]
    cases hi : h.find (.loose m) returnKey with
    | none => rfl
    | some i =>
      rw [find_loose] at hi
      obtain ⟨id, hid, hitem⟩ := Option.bind_eq_some_iff.mp hi
      -- no flag is asked for here, only the layer keeps the items out
      have hD := hc.slots hm hid
      rw [← item?_id hitem] at hD
      exact hc.values hD

theorem setReturn_conceals (hc : h.Conceals D n h') (v : Option ObjectId) :
    SameResult (Conceals D n) (t.setReturn h v) (t.setReturn h' v) := by
  cases v with
  | none => exact .ok hc
  | some v =>
    unfold Thread.setReturn
    cases t.scratch with
    | none => exact .error _
    | some x =>
      simp only [hc.typeOf, hc.newItem_snd]
      generalize ((h.object? v).map Object.type).getD ⟨0⟩ = type
      rcases rel_split ((hc.newItem ⟨returnKey, type, {}⟩).store (h.newItem _).2 v) with
        ⟨hs, hs'⟩ | ⟨_, _, hs, hs', hk⟩
      · rw [hs, hs']
        exact .error _
      · rw [hs, hs']
        dsimp only
        rcases (hk.addTo (.plain x) (hc.not_newItem ⟨returnKey, type, {}⟩)).split_flag with
          ⟨e, he, he'⟩ | ⟨b, _, _, ho, ho', hadded⟩
        · rw [he, he']
          exact .error _
        · rw [ho, ho']
          cases b with
          | true => exact .ok hadded
          | false => exact .error _

theorem setValue_conceals (hc : h.Conceals D n h') (path : String) (v : ObjectId) :
    SameResult (Conceals D n) (t.setValue h path v) (t.setValue h' path v) := by
  unfold Thread.setValue Thread.view
  rw [hc.view]
  rcases (hc.setPath (h.view (.stack t.stack)) path v).split_flag with
    ⟨e, he, he'⟩ | ⟨b, _, _, ho, ho', hset⟩
  · rw [he, he']
    exact .error _
  · rw [ho, ho']
    cases b with
    | true => exact .ok hset
    | false => exact .error _

theorem addLocal_conceals (hc : h.Conceals D n h') (key : String) (type : TypeRef) :
    SameResult (Conceals D n) (t.addLocal h key type) (t.addLocal h' key type) := by
  unfold Thread.addLocal Thread.view
  split
  · exact .error _
  · have hn := hc.newItem ⟨key, type, { isScoped := true }⟩
    simp only [hc.newItem_snd, hn.view]
    rcases (hn.addTo (Heap.view _ (.stack t.stack))
      (hc.not_newItem ⟨key, type, { isScoped := true }⟩)).split_flag with
      ⟨e, he, he'⟩ | ⟨b, _, _, ho, ho', hadded⟩
    · rw [he, he']
      exact .error _
    · rw [ho, ho']
      cases b with
      | true => exact .ok hadded
      | false => exact .error _

/-- An operation that reads along paths only replies alike. -/
theorem Discreet.conceals {f : Heap → HostReply} (hf : t.Discreet f) (ht : t.Newer n)
    (hc : h.Conceals D n h') : (f h).Conceals D n (f h') := by
  -- each case finds the same answer in both heaps and goes on with heaps that are related again
  induction hf generalizing h h' with
  | reply => exact ⟨h', rfl, hc⟩
  | look _ ih =>
    beta_reduce
    rw [hc.outline]
    exact ih h.outline hc
  | read g path _ ih =>
    beta_reduce
    rw [hc.view, hc.readPath]
    exact ih _ hc
  | set g path v _ ih =>
    beta_reduce
    rw [hc.view]
    rcases (hc.setPath (h.view g) path v).split_flag with ⟨e, he, he'⟩ | ⟨b, _, _, ho, ho', hset⟩
    · rw [he, he']
      exact ih _ hc
    · rw [ho, ho']
      exact ih _ hset
  | add g p v _ ih =>
    beta_reduce
    obtain ⟨hfilled, hitem, hfresh⟩ := hc.filledItem p v
    rw [hc.view, hitem]
    rcases (hfilled.addTo (h.view g) hfresh).split_flag with
      ⟨e, he, he'⟩ | ⟨b, _, _, ho, ho', hadded⟩
    · rw [he, he']
      exact ih _ hfilled
    · rw [ho, ho']
      exact ih _ hadded
  | giveBack v _ ih =>
    beta_reduce
    rcases (setReturn_conceals hc v).split with ⟨e, he, he'⟩ | ⟨_, _, ho, ho', hset⟩
    · rw [he, he']
      exact ih _ hc
    · rw [ho, ho']
      exact ih _ hset
  | returned _ ih =>
    beta_reduce
    rw [returnValue_conceals ht hc]
    exact ih _ hc
  | act d _ ih => exact ih (d.conceals hc)

theorem layAll_conceals (hc : h.Conceals D n h') (σ : StackId) (gs : List Group) :
    (layAll h' σ gs).1 = (layAll h σ gs).1 ∧
      (layAll h σ gs).2.Conceals D n (layAll h' σ gs).2 := by
  induction gs generalizing h h' with
  | nil => exact ⟨rfl, hc⟩
  | cons g gs ih =>
    have hdown : SameResult (Conceals D n) (layDown h σ g) (layDown h' σ g) := by
      unfold layDown
      rw [hc.same (fun k => (k.view g).contains k returnKey)
        (fun k => by rw [k.view_outline, k.contains_outline])]
      split
      · exact .error _
      · exact hc.pushChecked σ g
    rw [layAll, layAll]
    rcases hdown.split with ⟨e, he, he'⟩ | ⟨_, _, ho, ho', hlaid⟩
    · rw [he, he']
      exact ⟨rfl, hc⟩
    · rw [ho, ho']
      exact ih hlaid

theorem buildStack_conceals (hc : h.Conceals D n h') (me : ObjectId) (inputs : Group) :
    (t.buildStack h' me inputs).1 = (t.buildStack h me inputs).1 ∧
      (t.buildStack h me inputs).2.Conceals D n (t.buildStack h' me inputs).2 ∧
      ∀ t', (t.buildStack h me inputs).1 = .ok t' → t'.Newer n := by
  obtain ⟨hr, hlaid⟩ := layAll_conceals hc t.stack
    (t.context.ambient.toList ++ [h.memory me, inputs])
  unfold buildStack
  rw [hc.same (·.memory me) (memory_outline · me)]
  rcases hl : layAll h t.stack (t.context.ambient.toList ++ [h.memory me, inputs]) with ⟨r, a⟩
  rcases hl' : layAll h' t.stack (t.context.ambient.toList ++ [h.memory me, inputs]) with ⟨r', a'⟩
  rw [hl, hl'] at hr hlaid
  obtain rfl : r' = r := hr
  cases r' with
  | error e =>
    refine ⟨rfl, hlaid, ?_⟩
    rintro t' ⟨⟩
  | ok _ =>
    obtain ⟨hid, ⟨m, hm, hnm⟩, hpushed⟩ := Conceals.pushEmpty hlaid t.stack
    refine ⟨?_, hpushed, ?_⟩
    · simp only [hid]
    · rintro t' ⟨⟩ x ⟨⟩
      exact ⟨m, hm, hnm⟩

end Thread

theorem Script.fillInputs_conceals (s : Script) (hc : h.Conceals D n h')
    (pairs : List (ScriptInput × ObjectId)) :
    SameResult (fun p q => q.2 = p.2 ∧ p.1.Conceals D n q.1 ∧ ∀ i ∈ p.2, ¬ D i.id)
      (s.fillInputs h pairs) (s.fillInputs h' pairs) := by
  induction pairs generalizing h h' with
  | nil =>
    refine .ok ⟨rfl, hc, ?_⟩
    intro i hi
    cases hi
  | cons e pairs ih =>
    have hn := hc.newItem (inputProperty e.1)
    simp only [Script.fillInputs, hc.newItem_snd]
    rcases rel_split (hn.store (h.newItem (inputProperty e.1)).2 e.2) with
      ⟨hs, hs'⟩ | ⟨_, _, hs, hs', hk⟩
    · rw [hs, hs']
      simp only [hn.nameOf, hn.typeDisplay]
      exact .error _
    · rw [hs, hs']
      dsimp only
      rcases (ih hk).split with
        ⟨e, he, he'⟩ | ⟨⟨k, items⟩, ⟨k', items'⟩, ho, ho', hitems, hfilled, hD⟩
      · rw [he, he']
        exact .error e
      · rw [ho, ho']
        obtain rfl : items' = items := hitems
        exact .ok ⟨rfl, hfilled, List.forall_mem_cons.mpr ⟨hc.not_newItem _, hD⟩⟩

theorem Script.inputMemory_conceals (s : Script) (hc : h.Conceals D n h') (inputs : List ObjectId) :
    SameResult (fun p q => q.2 = p.2 ∧ p.1.Conceals D n q.1)
      (s.inputMemory h inputs) (s.inputMemory h' inputs) := by
  unfold Script.inputMemory
  split
  · exact .error _
  · split
    · exact .error _
    · rcases (s.fillInputs_conceals hc (s.inputs.zip inputs)).split with
        ⟨e, he, he'⟩ | ⟨⟨k, items⟩, ⟨k', items'⟩, ho, ho', hitems, hfilled, hD⟩
      · rw [he, he']
        exact .error _
      · rw [ho, ho']
        obtain rfl : items' = items := hitems
        refine .ok ⟨?_, hfilled.newGroup false fun i hi _ => hD i hi⟩
        exact hfilled.same (fun a => (a.newGroup false items').2) fun _ => rfl

theorem Call.lay_conceals (call : Call) (hc : h.Conceals D n h') :
    SameResult (fun p q => q.1 = p.1 ∧ p.2.Conceals D n q.2 ∧ ∀ t, p.1 = .ok t → t.Newer n)
      (call.lay h) (call.lay h') := by
  unfold Call.lay
  rcases (call.script.inputMemory_conceals hc call.inputs).split with
    ⟨e, he, he'⟩ | ⟨⟨b, g⟩, ⟨b', g'⟩, ho, ho', hid, hmade⟩
  · rw [he, he']
    exact .error e
  · rw [ho, ho']
    obtain rfl : g' = g := hid
    have hstack : b'.newStack.2 = b.newStack.2 := hmade.same (·.newStack.2) fun _ => rfl
    simp only [hstack]
    exact .ok (Thread.buildStack_conceals hmade.newStack call.script.parent (.plain g'))

theorem checkReturn_conceals (hc : h.Conceals D n h') (script : Script) (v : Option ObjectId) :
    checkReturn h' script v = checkReturn h script v := by
  unfold checkReturn
  split
  · next t o _ =>
    rw [hc.isA, hc.nameOf, hc.typeDisplay]
  · rfl

/-- Calls go alike in heaps that differ in concealed values only. -/
theorem conceals_corresponds {host : Host} (hh : host.Discreet) (D : ItemId → Prop) (n : Nat)
    (ambient : Option Group) :
    Corresponds (Heap.Conceals D n) host ambient (Thread.Newer n) where
  read _ hc path := by rw [Thread.view, Thread.view, hc.view, hc.readPath]
  readOf hc o path := by rw [hc.outside, hc.readPath]
  carried hc o := (hc.same (Script.boundTo · o) (boundTo_outline · o)).symm
  set _ hc := Thread.setValue_conceals hc
  add _ hc := Thread.addLocal_conceals hc
  giveBack _ hc := Thread.setReturn_conceals hc
  perform ht hc op me held now pointer args := (hh op ⟨me, _, held⟩ now pointer args).conceals ht hc
  returned ht hc := (Thread.returnValue_conceals ht hc).symm
  checked hc script v := (checkReturn_conceals hc script v).symm
  lay _ hc := Call.lay_conceals _ hc

end deeds

/-- Let two heaps differ at most in the values of items that may not be read, and let the operations
of the host read memory along paths only. Then a call of a script ends alike in both, with the same
result or the same error, the same events and at the same time, and the heaps that it leaves again
differ at most in the values of items that may not be read, as long as neither run tells of a script
that had lost its parent. -/
theorem unreadable_values_leak_nothing {host : Host} (hh : host.Discreet) (call : Call)
    {h h' : Heap} (hs : h.SameExcept h.Unreadable h') (now : Nat)
    (hl : (Script.callIn host call ⟨h, now⟩).Lasting)
    (hl' : (Script.callIn host call ⟨h', now⟩).Lasting) :
    SameReply (fun k k' => k.SameExcept k.Unreadable k')
      (Script.callIn host call ⟨h, now⟩) (Script.callIn host call ⟨h', now⟩) := by
  have hcorresponds : Corresponds (Heap.Conceals h.Unreadable h.groups.size) host
      call.context.ambient (Thread.Newer h.groups.size) :=
    conceals_corresponds hh h.Unreadable h.groups.size call.context.ambient
  have hsame := hcorresponds.callIn call now rfl hs.conceals (Call.attached_of_lasting hl)
    (Call.attached_of_lasting hl')
  exact ⟨hsame.outcome, hsame.events, hsame.now, hsame.heap.mono hsame.heap.unreadable⟩

namespace Safe

/-! A safe in the ambient memo holds a secret, or is empty. A script asks for the secret on a path
through the memo, and then asks another script to look from inside. -/

def secret : Property := ⟨"secret", ⟨0⟩, { readable := false }⟩

def memo : Property := ⟨"memo", ⟨0⟩, {}⟩

def look : Script where
  name := ⟨["Look"], by decide, by decide⟩
  parent := ⟨1⟩
  commands := [.attempt {} (.get {} "secret") (.ret {} (some (.this {})))]

def kind : Namespace := ⟨["Safe"], by decide, by decide⟩

def bare : Heap :=
  { Heap.empty with
    registries := ⟨#[⟨[kind], ⟨[(kind, ⟨0⟩)]⟩,
      [(⟨0⟩, .concrete ⟨none, none, [], [secret], []⟩)]⟩]⟩
    objects := ⟨#[
      ⟨⟨0⟩, ⟨0⟩, kind, none, {}, none⟩,
      ⟨⟨0⟩, ⟨0⟩, kind, none, ⟨[((.exposed, "secret"), ⟨0⟩)]⟩, none⟩,
      ⟨⟨0⟩, ⟨0⟩, kind, some .script, {}, some (.script look)⟩]⟩ }

def full : Heap :=
  (((bare.newItem memo).1.newGroup true [(bare.newItem memo).2]).1).assign (.loose 0) (some ⟨1⟩)

def place : ItemId := .field ⟨1⟩ .exposed "secret"

def emptied : Heap := full.assign place none

def call : Call where
  script :=
    { name := ⟨["Pry"], by decide, by decide⟩, parent := ⟨0⟩,
      commands := [
        .attempt {} (.get {} "memo.secret.secret")
          (.set {} "secret" (.script {} (.value {} ⟨2⟩) [])),
        .native {} { name := "trace", text := "seen " } [.get {} "memo"],
        .ret {} (some (.get {} "memo"))] }
  context := { ambient := some (.plain (.loose 0)) }
  inputs := []
  grant := {}
  held := [.object ⟨0⟩, .object ⟨1⟩]

def run (h : Heap) : Reply ScriptError Moment (Option ObjectId) :=
  Script.callIn Host.standard call ⟨h, 0⟩

theorem place_unreadable : full.Unreadable place := ⟨⟨place, secret⟩, rfl, rfl⟩

theorem lasting_of_done {h : Heap} (ho : (run h).outcome = .done (some ⟨1⟩))
    (he : ((run h).events.all fun e => !e.event.tellsOutlived) = true) : (run h).Lasting :=
  Watch.outlived_of_done (congrArg (Outcome.mapError CommandError.ofCall) ho) he

theorem full_outcome : (run full).outcome = .done (some ⟨1⟩) := by cbv

theorem emptied_outcome : (run emptied).outcome = .done (some ⟨1⟩) := by cbv

end Safe

/-- The secret is still there in one heap and not in the other, a further secret has been stored,
and the runs are alike. -/
theorem secret_of_safe_unseen :
    (Safe.run Safe.full).outcome = .done (some ⟨1⟩) ∧
    (Safe.run Safe.full).state.heap.value? Safe.place = some ⟨0⟩ ∧
    (Safe.run Safe.emptied).state.heap.value? Safe.place = none ∧
    (Safe.run Safe.full).state.heap.value? (.field ⟨0⟩ .exposed "secret") = some ⟨1⟩ ∧
    SameReply (fun k k' => k.SameExcept k.Unreadable k') (Safe.run Safe.full)
      (Safe.run Safe.emptied) := by
  refine ⟨Safe.full_outcome, by cbv, by cbv, by cbv, ?_⟩
  exact unreadable_values_leak_nothing Host.standard_discreet Safe.call
    (.of_assign Safe.full Safe.place none Safe.place_unreadable) 0
    (Safe.lasting_of_done Safe.full_outcome (by cbv))
    (Safe.lasting_of_done Safe.emptied_outcome (by cbv))

end GuardedScript
