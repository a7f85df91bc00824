import GuardedScript.Proofs.Growth
import GuardedScript.Run.Exec

/-!
Return slots and their stacks. A thread's scratch layer is reached through the thread's own stack
and through nothing else, and the cell in its return slot is kept nowhere else. Every command of
another thread therefore leaves the slot as it is, and of the thread's own commands only two reach
it: the one that returns a value, and the one that sets the item under the reserved key.
-/

namespace GuardedScript

namespace Heap

/-- The value in the return slot of a loose group. -/
def returned (h : Heap) (n : Nat) : Option ObjectId := (h.itemId? n returnKey).bind h.value?

/-- Of all stacks and the ambient memory, only this stack reaches the loose group; nothing else on
it has a return slot, and what is in the slot holds a value and is kept nowhere else. -/
structure Owns (h : Heap) (ambient : Option Group) (σ : StackId) (n : Nat) : Prop where
  stack : σ.index < h.layered.size
  group : n < h.groups.size
  known : ∀ g ∈ ambient, h.Knows g
  away : ∀ g ∈ ambient, ¬ h.Within g (.loose n)
  mine : ∀ {τ}, h.Within (.stack τ) (.loose n) → τ = σ
  alone : ∀ {x}, h.Within (.stack σ) x → h.hasKey x returnKey = true → x = .loose n
  loose : ∀ {id}, h.itemId? n returnKey = some id → ∃ k, id = .loose k
  filled : ∀ {id}, h.itemId? n returnKey = some id → (h.value? id).isSome
  unshared : ∀ {id m key}, h.itemId? n returnKey = some id → h.itemId? m key = some id →
    m = n ∧ key = returnKey

/-- The return slots that are meant stay with their stacks and keep their values. -/
def Spares (ambient : Option Group) (meant : StackId → Nat → Prop) (h h' : Heap) : Prop :=
  ∀ σ n, meant σ n → h.Owns ambient σ n →
    h'.Owns ambient σ n ∧ h'.returned n = h.returned n

/-- Nothing changed but that cells were added. -/
structure Fills (h h' : Heap) : Prop where
  grows : h.Grows h'
  groups : h'.groups = h.groups
  layered : h'.layered = h.layered
  values : ∀ {k}, k < h.cells.size → h'.value? (.loose k) = h.value? (.loose k)

/-- The heap grew, and no return slot was opened and no cell written. -/
structure Quiet (h h' : Heap) : Prop where
  grows : h.Grows h'
  closed : ∀ {m id}, h'.itemId? m returnKey = some id → h.itemId? m returnKey = some id
  values : ∀ {k}, k < h.cells.size → h'.value? (.loose k) = h.value? (.loose k)

variable {h h' h'' : Heap} {ambient : Option Group} {meant : StackId → Nat → Prop}
variable {σ : StackId} {n : Nat}

theorem Spares.refl (h : Heap) : Spares ambient meant h h := fun _ _ _ ho => ⟨ho, rfl⟩

theorem Spares.trans (a : Spares ambient meant h h') (b : Spares ambient meant h' h'') :
    Spares ambient meant h h'' := by
  intro σ n hm ho
  obtain ⟨ho', hv'⟩ := a σ n hm ho
  obtain ⟨ho'', hv''⟩ := b σ n hm ho'
  exact ⟨ho'', hv''.trans hv'⟩

theorem Spares.imp {meant' : StackId → Nat → Prop} (a : Spares ambient meant h h')
    (hi : ∀ σ n, meant' σ n → meant σ n) : Spares ambient meant' h h' :=
  fun σ n hm ho => a σ n (hi σ n hm) ho

theorem Owns.slot_lt (ho : h.Owns ambient σ n) (hs : h.Sound) {id : ItemId}
    (he : h.itemId? n returnKey = some id) : ∃ k, id = .loose k ∧ k < h.cells.size := by
  obtain ⟨rank, hs⟩ := hs
  obtain ⟨k, rfl⟩ := ho.loose he
  exact ⟨k, rfl, hs.items he⟩

/-- A growing heap leaves the slot with its stack, unless a slot is opened in another group of the
stack or a new stack reaches the group. -/
theorem Owns.grow (ho : h.Owns ambient σ n) (hs : h.Sound) (hg : h.Grows h')
    (hstack : ∀ {τ}, h.layered.size ≤ τ.index → ¬ h'.Within (.stack τ) (.loose n))
    (hopen : ∀ {m id}, h'.itemId? m returnKey = some id → h.itemId? m returnKey = some id ∨
      m = n ∨ ¬ h.Within (.stack σ) (.loose m))
    (hfill : ∀ {id}, h'.itemId? n returnKey = some id → (h'.value? id).isSome)
    (hfirst : ∀ {id m key}, h.itemId? n returnKey = none → h'.itemId? n returnKey = some id →
      h'.itemId? m key = some id → m = n ∧ key = returnKey) :
    h'.Owns ambient σ n := by
  have hσ := knows_stack ho.stack
  constructor
  · exact Nat.lt_of_lt_of_le ho.stack hg.layered
  · exact Nat.lt_of_lt_of_le ho.group hg.groups
  · intro g hgm
    exact (ho.known g hgm).grow hg
  · intro g hgm hx
    exact ho.away g hgm ((hg.within_iff hs (ho.known g hgm)).mp hx)
  · intro τ hx
    rcases Nat.lt_or_ge τ.index h.layered.size with hτ | hτ
    · exact ho.mine ((hg.within_iff hs (knows_stack hτ)).mp hx)
    · exact (hstack hτ hx).elim
  · intro x hx hk
    have hx' := (hg.within_iff hs hσ).mp hx
    rcases hg.hasKey (hs.hasLeaf hσ hx') hk with hk | ⟨m, k, rfl, he, hk⟩
    · exact ho.alone hx' hk
    · rcases hopen he with he | rfl | hm
      · obtain ⟨rank, hs⟩ := hs
        have hlt := hs.items he
        omega
      · rfl
      · exact (hm hx').elim
  · intro id he
    rcases hg.fresh he with he | ⟨k, rfl, _⟩
    · exact ho.loose he
    · exact ⟨k, rfl⟩
  · exact hfill
  · intro id m key he hm
    cases hn : h.itemId? n returnKey with
    | none => exact hfirst hn he hm
    | some id' =>
      have hid : id' = id := by
        rw [hg.kept hn] at he
        exact Option.some.inj he
      subst hid
      rcases hg.fresh hm with hm | ⟨k, hk, hlt, _⟩
      · exact ho.unshared hn hm
      · obtain ⟨j, hj, hlt'⟩ := ho.slot_lt hs hn
        rw [hj, ItemId.loose.injEq] at hk
        omega

theorem Grows.itemId?_eq (hg : h.Grows h') {key : String}
    (hr : ∀ {id}, h'.itemId? n key = some id → h.itemId? n key = some id) :
    h'.itemId? n key = h.itemId? n key := by
  cases he : h.itemId? n key with
  | some id => exact hg.kept he
  | none =>
    cases he' : h'.itemId? n key with
    | none => rfl
    | some id =>
      rw [hr he'] at he
      cases he

theorem Grows.spares (hg : h.Grows h') (hs : h.Sound)
    (hopen : ∀ {m id}, h'.itemId? m returnKey = some id → h.itemId? m returnKey = some id)
    (hstack : ∀ {σ n τ}, h.Owns ambient σ n → h.layered.size ≤ τ.index →
      ¬ h'.Within (.stack τ) (.loose n))
    (hvalue : ∀ {σ n k}, meant σ n → h.Owns ambient σ n →
      h.itemId? n returnKey = some (.loose k) → h'.value? (.loose k) = h.value? (.loose k)) :
    Spares ambient meant h h' := by
  intro σ n hm ho
  have hsame : ∀ {id}, h.itemId? n returnKey = some id → h'.value? id = h.value? id := by
    intro id he
    obtain ⟨k, rfl⟩ := ho.loose he
    exact hvalue hm ho he
  refine ⟨ho.grow hs hg (hstack ho) (fun he => .inl (hopen he)) ?_ ?_, ?_⟩
  · intro id he
    rw [hsame (hopen he)]
    exact ho.filled (hopen he)
  · intro id m key hn he
    rw [hopen he] at hn
    cases hn
  · rw [returned, returned, hg.itemId?_eq hopen]
    cases he : h.itemId? n returnKey with
    | none => rfl
    | some id => exact hsame he

theorem Quiet.spares (hq : h.Quiet h') (hs : h.Sound)
    (hstack : ∀ {σ n τ}, h.Owns ambient σ n → h.layered.size ≤ τ.index →
      ¬ h'.Within (.stack τ) (.loose n)) : Spares ambient meant h h' := by
  refine hq.grows.spares hs hq.closed hstack ?_
  intro σ n k _ ho he
  obtain ⟨j, hj, hlt⟩ := ho.slot_lt hs he
  cases hj
  exact hq.values hlt

theorem not_within_of_size {τ : StackId} {x : GroupId} (hτ : h.layered.size ≤ τ.index) :
    ¬ h.Within (.stack τ) x := by
  intro hx
  obtain ⟨g, hg, _⟩ := within_stack.mp hx
  have hlt := lt_of_mem_layers hg
  omega

section fills

theorem Fills.refl (h : Heap) : h.Fills h := ⟨.refl h, rfl, rfl, fun _ => rfl⟩

theorem Fills.newItem (hf : h.Fills h') (p : Property) : h.Fills (h'.newItem p).1 :=
  ⟨hf.grows.newItem p, hf.groups, hf.layered,
    fun hk => (value?_newItem h' p _).trans (hf.values hk)⟩

theorem Fills.assign (hf : h.Fills h') {k : Nat} (hk : h.cells.size ≤ k) (v : Option ObjectId) :
    h.Fills (h'.assign (.loose k) v) := by
  refine ⟨hf.grows.assign _ v, ?_, ?_, ?_⟩
  · rw [groups_assign, hf.groups]
  · rw [layered_assign, hf.layered]
  · intro j hj
    have hne : ItemId.loose k ≠ .loose j := by
      intro he
      cases he
      omega
    rw [value?_assign_of_ne hne, hf.values hj]

theorem Fills.itemId? (hf : h.Fills h') (m : Nat) (key : String) :
    h'.itemId? m key = h.itemId? m key := by
  rw [Heap.itemId?, hf.groups, ← Heap.itemId?]

theorem Fills.insertItem (hf : h.Fills h') {m k : Nat} {i : Item} (hn : h.itemId? m i.key = none)
    (hi : i.id = .loose k) (hk : h.cells.size ≤ k) (hk' : k < h'.cells.size) :
    h.Grows (h'.insertItem m i) :=
  hf.grows.insertItem (by rw [hf.itemId?, hn]) hi hk hk'

end fills

/-- A slot with this value was opened in the loose group, and nothing else changed. -/
structure Opened (n : Nat) (v : ObjectId) (h h' : Heap) : Prop where
  grows : h.Grows h'
  layered : h'.layered = h.layered
  items : ∀ m key, h'.itemId? m key =
    if n = m ∧ returnKey = key then some (.loose h.cells.size) else h.itemId? m key
  closed : h.itemId? n returnKey = none
  value : h'.value? (.loose h.cells.size) = some v
  values : ∀ {k}, k < h.cells.size → h'.value? (.loose k) = h.value? (.loose k)

theorem opened_insertItem {p : Property} (hp : p.key = returnKey) (hn : n < h.groups.size)
    (hfree : h.itemId? n returnKey = none) (v : ObjectId) :
    Opened n v h (((h.newItem p).1.assign (.loose h.cells.size) (some v)).insertItem n
      ⟨.loose h.cells.size, p⟩) := by
  have hlt : h.cells.size < (h.newItem p).1.cells.size := by simp [newItem]
  have hf := ((Fills.refl h).newItem p).assign (Nat.le_refl _) (some v)
  have hg := hf.insertItem (m := n) (i := ⟨.loose h.cells.size, p⟩)
    (by rw [Item.key, hp, hfree]) rfl (Nat.le_refl _) (by rwa [size_cells_assign])
  refine ⟨hg, hf.layered, ?_, hfree, value?_assign_self hlt (some v), hf.values⟩
  intro m key
  rw [itemId?_insertItem, hf.itemId?, hf.groups, Item.key, hp]
  simp only [hn, true_and]

namespace Opened

variable {v : ObjectId}

theorem slot (hp : Opened n v h h') : h'.itemId? n returnKey = some (.loose h.cells.size) := by
  rw [hp.items, if_pos ⟨rfl, rfl⟩]

theorem other (hp : Opened n v h h') {m : Nat} (hm : m ≠ n) :
    h'.itemId? m returnKey = h.itemId? m returnKey := by
  rw [hp.items, if_neg fun he => hm he.1.symm]

theorem returned_before (hp : Opened n v h h') : h.returned n = none := by
  rw [returned, hp.closed]
  rfl

theorem returned_after (hp : Opened n v h h') : h'.returned n = some v := by
  rw [returned, hp.slot]
  exact hp.value

theorem not_within (hp : Opened n v h h') {τ : StackId} {x : GroupId}
    (hτ : h.layered.size ≤ τ.index) : ¬ h'.Within (.stack τ) x :=
  not_within_of_size (by rwa [hp.layered])

theorem owns (hp : Opened n v h h') (hs : h.Sound) (ho : h.Owns ambient σ n) :
    h'.Owns ambient σ n := by
  refine ho.grow hs hp.grows hp.not_within ?_ ?_ ?_
  · intro m id he
    by_cases hm : m = n
    · exact .inr (.inl hm)
    · rw [hp.other hm] at he
      exact .inl he
  · intro id he
    rw [hp.slot] at he
    cases he
    rw [hp.value]
    rfl
  · intro id m key _ he hm
    rw [hp.slot] at he
    cases he
    rw [hp.items] at hm
    split at hm
    · next hmk => exact ⟨hmk.1.symm, hmk.2.symm⟩
    · -- an old entry cannot lead to the new cell
      obtain ⟨rank, hs⟩ := hs
      have hlt := hs.items hm
      omega

theorem spares (hp : Opened n v h h') (hs : h.Sound) (ho : h.Owns ambient σ n) :
    Spares ambient (fun τ m => τ ≠ σ ∧ m ≠ n) h h' := by
  rintro τ m ⟨hτ, hm⟩ ho'
  have hsame : ∀ {id}, h.itemId? m returnKey = some id → h'.value? id = h.value? id := by
    intro id he
    obtain ⟨k, rfl, hlt⟩ := ho'.slot_lt hs he
    exact hp.values hlt
  refine ⟨ho'.grow hs hp.grows hp.not_within ?_ ?_ ?_, ?_⟩
  · intro m' id he
    by_cases hm' : m' = n
    · subst hm'
      exact .inr (.inr fun hx => hτ (ho.mine hx))
    · rw [hp.other hm'] at he
      exact .inl he
  · intro id he
    rw [hp.other hm] at he
    rw [hsame he]
    exact ho'.filled he
  · intro id m' key hn he
    rw [hp.other hm, hn] at he
    cases he
  · rw [returned, returned, hp.other hm]
    cases he : h.itemId? m returnKey with
    | none => rfl
    | some id => exact hsame he

end Opened

theorem loose_not_mem_outerGroups {o : ObjectId} {m : Nat} : GroupId.loose m ∉ h.outerGroups o := by
  intro hm
  unfold Heap.outerGroups at hm
  split at hm
  · cases hm
  · simp at hm

theorem find_loose_id {x : GroupId} {key : String} {i : Item} {k : Nat} (hf : h.find x key = some i)
    (hi : i.id = .loose k) : ∃ m, x = .loose m ∧ h.itemId? m key = some (.loose k) := by
  cases x with
  | fields o v =>
    obtain ⟨p, _, rfl⟩ := Option.map_eq_some_iff.mp hf
    cases hi
  | statics r t v =>
    obtain ⟨p, _, rfl⟩ := Option.map_eq_some_iff.mp hf
    cases hi
  | loose m =>
    obtain ⟨id, he, hid⟩ := Option.bind_eq_some_iff.mp hf
    have hii := item?_id hid
    refine ⟨m, rfl, ?_⟩
    rw [← hi, hii]
    exact he

/-- Only a writable item is set, and only if the value fits. -/
theorem setIn_cases {v : View} {key : String} {value : ObjectId} {b : Bool}
    (hs : h.setIn v key value = .ok (b, h')) : b = false ∧ h' = h ∨ b = true ∧
      ∃ i, v.find h key = some i ∧ i.property.flags.writable = true ∧
        h' = h.assign i.id (some value) := by
  unfold setIn putIn at hs
  split at hs
  · cases hs
  · next i hi =>
    split at hs
    · next hw =>
      unfold store at hs
      split at hs
      · next hstore =>
        split at hstore <;> cases hstore
        cases hs
        exact .inr ⟨rfl, i, hi, hw, rfl⟩
      · cases hs
        exact .inl ⟨rfl, rfl⟩
    · cases hs

/-- A path without a dot is a key of the group itself; the last part of any other is a key of an
object. -/
theorem setPath_cases {v : View} {path : String} {value : ObjectId} {b : Bool}
    (hs : h.setPath v path value = .ok (b, h')) : h.setIn v path value = .ok (b, h') ∨
      Text.cutLast path ≠ none ∧ ∃ o key, h.setIn (h.outside o) key value = .ok (b, h') := by
  unfold setPath putPath at hs
  split at hs
  · exact .inl hs
  · next hcut =>
    split at hs
    · cases hs
    · split at hs
      · cases hs
      · exact .inr ⟨by simp [hcut], _, _, hs⟩

theorem find_outside_ne_loose {o : ObjectId} {key : String} {i : Item}
    (hi : (h.outside o).find h key = some i) (k : Nat) : i.id ≠ .loose k := by
  intro hk
  obtain ⟨x, hx, hf⟩ := View.find_groups hi
  obtain ⟨m, rfl, _⟩ := find_loose_id hf hk
  rw [outside, View.groups, View.groupsList_map_plain] at hx
  exact loose_not_mem_outerGroups hx

end Heap

mutual

theorem View.slotFor_free {h : Heap} {key : String} {m : Nat} : ∀ {v : View},
    v.slotFor h key = .ok (some m) → h.hasKey (.loose m) key = false
  | .plain (.loose n), hs => by
    rw [View.slotFor] at hs
    split at hs
    · split at hs
      · cases hs
      · next hk =>
        cases hs
        simpa using hk
    · cases hs
  | .plain (.fields _ _), hs => by
    rw [View.slotFor] at hs
    cases hs
  | .plain (.statics _ _ _), hs => by
    rw [View.slotFor] at hs
    cases hs
  | .linked _, hs => by
    rw [View.slotFor] at hs
    cases hs
  | .writable parts target, hs => by
    rw [View.slotFor] at hs
    split at hs
    · cases hs
    · exact View.slotFor_free hs
  | .layered layers, hs => by
    rw [View.slotFor] at hs
    split at hs
    · cases hs
    · exact View.slotOnTop_free hs

theorem View.slotOnTop_free {h : Heap} {key : String} {m : Nat} : ∀ {vs : List View},
    View.slotOnTop h key vs = .ok (some m) → h.hasKey (.loose m) key = false
  | [], hs => by
    rw [View.slotOnTop] at hs
    cases hs
  | v :: vs, hs => by
    rw [View.slotOnTop] at hs
    split at hs
    · exact View.slotOnTop_free hs
    · split at hs
      · exact View.slotFor_free hs
      · cases hs

end

theorem Heap.addTo_ok {h h' : Heap} {v : View} {i : Item} (ha : h.addTo v i = .ok (true, h')) :
    ∃ m, v.slotFor h i.key = .ok (some m) ∧ h.itemId? m i.key = none ∧ h' = h.insertItem m i := by
  unfold Heap.addTo Heap.offer at ha
  split at ha
  · cases ha
  · cases ha
  · next m hm =>
    cases ha
    have hfree := View.slotFor_free hm
    rw [Heap.hasKey_loose] at hfree
    exact ⟨m, hm, by simpa using hfree, rfl⟩

namespace Thread

open Heap

variable {t : Thread} {h h' : Heap} {ambient : Option Group} {n : Nat} {v : ObjectId}

/-- A path without a dot is looked up on the stack; any other leads to an item of an object. -/
theorem setValue_ok {path : String} (hs : t.setValue h path v = .ok h') :
    ∃ i : Item, h' = h.assign i.id (some v) ∧
      ((∃ x, h.Within (.stack t.stack) x ∧ h.find x path = some i) ∨
        Text.cutLast path ≠ none ∧ ∀ k, i.id ≠ .loose k) := by
  unfold Thread.setValue at hs
  split at hs
  · cases hs
  · next h₁ hset =>
    cases hs
    rcases setPath_cases hset with hset | ⟨hcut, o, key, hset⟩
    · obtain ⟨hb, _⟩ | ⟨_, i, hi, _, rfl⟩ := setIn_cases hset
      · cases hb
      · obtain ⟨x, hx, hf⟩ := View.find_groups hi
        exact ⟨i, rfl, .inl ⟨x, within_of_view hx, hf⟩⟩
    · obtain ⟨hb, _⟩ | ⟨_, i, hi, _, rfl⟩ := setIn_cases hset
      · cases hb
      · exact ⟨i, rfl, .inr ⟨hcut, find_outside_ne_loose hi⟩⟩
  · cases hs

theorem setValue_sound {path : String} (hs : t.setValue h path v = .ok h') (hsound : h.Sound) :
    h'.Sound := by
  obtain ⟨i, rfl, _⟩ := setValue_ok hs
  exact hsound.grow ((Grows.refl h).assign _ _) (by rw [layered_assign])

/-- Setting an item spares the slots of other stacks, and every slot if the key is another one. -/
theorem setValue_spares {path : String} (hs : t.setValue h path v = .ok h') (hsound : h.Sound) :
    Spares ambient (fun τ _ => τ ≠ t.stack ∨ path ≠ returnKey) h h' := by
  obtain ⟨i, rfl, hi⟩ := setValue_ok hs
  refine ((Grows.refl h).assign _ _).spares hsound ?_ ?_ ?_
  · intro m id he
    rwa [itemId?_assign] at he
  · intro σ n τ _ hτ
    exact not_within_of_size (by rwa [layered_assign])
  · intro σ n k hm ho he
    apply value?_assign_of_ne
    intro hid
    rcases hi with ⟨x, hx, hf⟩ | ⟨_, hloose⟩
    · obtain ⟨m, rfl, hitem⟩ := find_loose_id hf hid
      obtain ⟨rfl, hkey⟩ := ho.unshared he hitem
      rcases hm with hτ | hp
      · exact hτ (ho.mine hx).symm
      · exact hp hkey
    · exact hloose k hid

/-- Setting the item under the reserved key replaces the value in the thread's own slot. -/
theorem setValue_return (hs : t.setValue h returnKey v = .ok h') (hsound : h.Sound)
    (ho : h.Owns ambient t.stack n) :
    h'.Owns ambient t.stack n ∧ (h.returned n).isSome ∧ h'.returned n = some v := by
  obtain ⟨i, rfl, hi⟩ := setValue_ok hs
  rcases hi with ⟨x, hx, hf⟩ | ⟨hcut, _⟩
  · obtain rfl := ho.alone hx (hasKey_of_find hf)
    obtain ⟨id, he, hid⟩ := Option.bind_eq_some_iff.mp (find_loose ▸ hf)
    obtain rfl := item?_id hid
    obtain ⟨k, hk, hlt⟩ := ho.slot_lt hsound he
    rw [hk] at he ⊢
    have hnew := value?_assign_self hlt (some v)
    refine ⟨?_, ?_, ?_⟩
    · refine ho.grow hsound ((Grows.refl h).assign _ _) ?_ ?_ ?_ ?_
      · intro τ hτ
        exact not_within_of_size (by rwa [layered_assign])
      · intro m id hm
        rw [itemId?_assign] at hm
        exact .inl hm
      · intro id hm
        rw [itemId?_assign, he] at hm
        cases hm
        rw [hnew]
        rfl
      · intro id m key hn
        rw [he] at hn
        cases hn
    · rw [returned, he]
      exact ho.filled he
    · rw [returned, itemId?_assign, he]
      exact hnew
  · exact (hcut (by decide)).elim

theorem addLocal_slot {key : String} {type : TypeRef} (ha : t.addLocal h key type = .ok h') :
    key ≠ returnKey ∧ ∃ m p, p.key = key ∧ p.flags = { isScoped := true } ∧
      (t.view (h.newItem p).1).slotFor (h.newItem p).1 key = .ok (some m) ∧
      h' = (h.newItem p).1.insertItem m (h.newItem p).2 := by
  unfold Thread.addLocal at ha
  split at ha
  · cases ha
  · next hkey =>
    simp only at ha
    split at ha
    · cases ha
    · next h₁ hadd =>
      cases ha
      obtain ⟨m, hslot, _, rfl⟩ := addTo_ok hadd
      exact ⟨hkey, m, _, rfl, rfl, hslot, rfl⟩
    · cases ha

theorem addLocal_ok {key : String} {type : TypeRef} (ha : t.addLocal h key type = .ok h') :
    key ≠ returnKey ∧ ∃ m p, p.key = key ∧ h.itemId? m key = none ∧
      h' = (h.newItem p).1.insertItem m (h.newItem p).2 := by
  obtain ⟨hkey, m, p, hp, _, hslot, rfl⟩ := addLocal_slot ha
  have hfree := View.slotFor_free hslot
  rw [hasKey_loose, ((Fills.refl h).newItem p).itemId?] at hfree
  exact ⟨hkey, m, p, hp, by simpa using hfree, rfl⟩

theorem addLocal_quiet {key : String} {type : TypeRef} (ha : t.addLocal h key type = .ok h') :
    h.Quiet h' ∧ h'.layered = h.layered := by
  obtain ⟨hkey, m, p, hp, hfree, rfl⟩ := addLocal_ok ha
  have hf := (Fills.refl h).newItem p
  have hlt : h.cells.size < (h.newItem p).1.cells.size := by simp [newItem]
  have hfree' : h.itemId? m (h.newItem p).2.key = none := by rw [← hfree, ← hp]; rfl
  refine ⟨⟨hf.insertItem hfree' rfl (Nat.le_refl _) hlt, ?_, hf.values⟩, rfl⟩
  intro m' id he
  rw [itemId?_insertItem] at he
  split at he
  · next hm => exact (hkey (hp.symm.trans hm.2.2)).elim
  · rwa [hf.itemId?] at he

/-- A value that is returned goes into a new item of the scratch layer. -/
theorem setReturn_ok (hr : t.setReturn h (some v) = .ok h') :
    ∃ m, ∃ p : Property, t.scratch = some (.loose m) ∧ p.key = returnKey ∧ p.flags = {} ∧
      h.itemId? m returnKey = none ∧
      h' = ((h.newItem p).1.assign (.loose h.cells.size) (some v)).insertItem m
        ⟨.loose h.cells.size, p⟩ := by
  simp only [Thread.setReturn] at hr
  split at hr
  · cases hr
  · next scratch ht =>
    split at hr
    · cases hr
    · next h₁ hstore =>
      unfold store at hstore
      split at hstore
      · cases hstore
        split at hr
        · cases hr
        · cases hr
        · next h₂ hadd =>
          cases hr
          obtain ⟨m, hslot, hfree, rfl⟩ := addTo_ok hadd
          cases scratch with
          | fields | statics =>
            rw [View.slotFor] at hslot
            cases hslot
          | loose n =>
            rw [View.slotFor] at hslot
            split at hslot
            · split at hslot <;> cases hslot
              rw [itemId?_assign] at hfree
              exact ⟨_, _, ht, rfl, rfl, hfree, rfl⟩
            · cases hslot
      · cases hstore

theorem setReturn_opened (ht : t.scratch = some (.loose n)) (hn : n < h.groups.size)
    (hr : t.setReturn h (some v) = .ok h') : Opened n v h h' := by
  obtain ⟨m, p, hm, hp, _, hfree, rfl⟩ := setReturn_ok hr
  rw [ht] at hm
  cases hm
  exact opened_insertItem hp hn hfree v

end Thread

end GuardedScript
