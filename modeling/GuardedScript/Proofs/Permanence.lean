import GuardedScript.Proofs.Layers
import GuardedScript.Proofs.Passage

/-!
What no run changes. A thread sets only items that are writable, and what it adds goes into its own
scratch layer, which lies on top of its stack and is newer than the call. So at every heap that a
call passes through, the groups that were there before have the keys they had, items that are not
writable have the values they had, and no item has been emptied.
-/

namespace GuardedScript

open Relation

namespace Heap

/-- Items stay with their properties, one that is not writable keeps its value, and none is
emptied. -/
structure ItemsLast (b h : Heap) : Prop where
  kept : ∀ {id i}, b.item? id = some i → h.item? id = some i
  old : ∀ {id i}, h.item? id = some i → b.item? id = some i ∨ b.value? id = none
  filled : ∀ {id}, (b.value? id).isSome → (h.value? id).isSome
  fixed : ∀ {id i}, h.item? id = some i → i.property.flags.writable = false →
    h.value? id = b.value? id

/-- Items last, old groups keep their items and old stacks their layers. -/
structure Keeps (b h : Heap) : Prop where
  alike : b.Alike h
  items : b.ItemsLast h
  groupCount : b.groups.size ≤ h.groups.size
  groups : ∀ {n}, n < b.groups.size → h.groups.get? n = b.groups.get? n
  stackCount : b.layered.size ≤ h.layered.size
  layers : ∀ {τ}, τ.index < b.layered.size → h.layers τ = b.layers τ

variable {b h h' h'' : Heap}

namespace ItemsLast

theorem of_eq (hi : ∀ id, h'.item? id = h.item? id) (hv : ∀ id, h'.value? id = h.value? id) :
    h.ItemsLast h' where
  kept hid := by rwa [hi]
  old hid := .inl (hi _ ▸ hid)
  filled hid := by rwa [hv]
  fixed _ _ := hv _

theorem empty_before (a : h.ItemsLast h') {id : ItemId} (hv : h'.value? id = none) :
    h.value? id = none := by
  by_contra hn
  have hsome := a.filled (Option.isSome_iff_ne_none.mpr hn)
  rw [hv] at hsome
  cases hsome

theorem trans (a : h.ItemsLast h') (c : h'.ItemsLast h'') : h.ItemsLast h'' where
  kept hid := c.kept (a.kept hid)
  old hid := by
    rcases c.old hid with hid | hv
    · exact a.old hid
    · exact .inr (a.empty_before hv)
  filled hid := c.filled (a.filled hid)
  fixed hid hw := by
    rw [c.fixed hid hw]
    rcases c.old hid with hid | hv
    · exact a.fixed hid hw
    · rw [hv, a.empty_before hv]

end ItemsLast

theorem item?_assign (h : Heap) (id : ItemId) (v : Option ObjectId) (id' : ItemId) :
    (h.assign id v).item? id' = h.item? id' := by
  have hobject : ∀ o, ((h.assign id v).object? o).isSome = (h.object? o).isSome := by
    intro o
    cases id with
    | static | loose => rfl
    | field o' vis key =>
      simp only [object?, assign, Table.get?_modify]
      split
      · rw [Option.isSome_map]
      · rfl
  cases id' with
  | field o vis key =>
    cases ho : h.object? o with
    | some x => rw [item?, (alike_assign h id v).fieldProperties (by rw [ho]; rfl), ← item?]
    | none =>
      have hn : (h.assign id v).object? o = none := by simpa [ho] using hobject o
      simp only [item?, fieldProperties, ho, hn]
  | static r t vis key => rw [item?, (alike_assign h id v).registry, ← item?]
  | loose n =>
    cases id with
    | field | static => rfl
    | loose k =>
      simp only [item?, assign, Table.get?_modify]
      split
      · cases h.cells.get? n <;> rfl
      · rfl

theorem value?_assign_isSome {id id' : ItemId} (v : ObjectId) (hv : (h.value? id').isSome) :
    ((h.assign id (some v)).value? id').isSome := by
  by_cases hid : id = id'
  · subst hid
    cases id with
    | field o vis key =>
      cases ho : h.object? o with
      | none => simp [value?, ho] at hv
      | some x =>
        rw [object?] at ho
        simp [value?, object?, assign, Table.get?_modify, ho]
    | static r t vis key => simp [value?, assign]
    | loose k =>
      cases hc : h.cells.get? k with
      | none => simp [value?, hc] at hv
      | some c => simp [value?, assign, Table.get?_modify, hc]
  · rwa [value?_assign_of_ne hid]

/-- Only writable items are assigned, and only with values. -/
theorem itemsLast_assign {id : ItemId} {i : Item} (hi : h.item? id = some i)
    (hw : i.property.flags.writable = true) (v : ObjectId) :
    h.ItemsLast (h.assign id (some v)) where
  kept hid := by rwa [item?_assign]
  old hid := .inl (item?_assign h id (some v) _ ▸ hid)
  filled hid := value?_assign_isSome v hid
  fixed {id' j} hid hj := by
    apply value?_assign_of_ne
    rintro rfl
    rw [item?_assign, hi] at hid
    cases hid
    rw [hw] at hj
    cases hj

theorem itemsLast_newItem (h : Heap) (p : Property) : h.ItemsLast (h.newItem p).1 where
  kept {id i} hid := by
    cases id with
    | field | static => exact hid
    | loose k =>
      obtain ⟨c, hc, rfl⟩ := Option.map_eq_some_iff.mp hid
      simp [item?, newItem, Table.get?_push_of_lt _ _ (Table.lt_size_of_get? hc), hc]
  old {id i} hid := by
    cases id with
    | field | static => exact .inl hid
    | loose k =>
      simp only [item?, newItem, Table.get?_push] at hid
      split at hid
      · next hk =>
        right
        rw [value?, hk, Table.get?_eq_none (Nat.le_refl _)]
        rfl
      · exact .inl hid
  filled hid := by rwa [value?_newItem]
  fixed _ _ := value?_newItem h p _

/-- New and newly bound objects: the loose items are the same, and no value is touched. -/
theorem ItemsLast.of_alike (ha : h.Alike h') (hc : h'.cells = h.cells)
    (hv : ∀ id, h'.value? id = h.value? id) : h.ItemsLast h' where
  kept {id i} hid := by
    cases id with
    | field o vis key =>
      cases ho : h.object? o with
      | none => simp [item?, fieldProperties, ho, withKey] at hid
      | some x => rwa [item?, ha.fieldProperties (by rw [ho]; rfl), ← item?]
    | static r t vis key => rwa [item?, ha.registry, ← item?]
    | loose n => rwa [item?, hc, ← item?]
  old {id i} hid := by
    cases id with
    | field o vis key =>
      cases ho : h.object? o with
      | none =>
        right
        rw [value?, ho]
        rfl
      | some x =>
        left
        rwa [item?, ha.fieldProperties (by rw [ho]; rfl), ← item?] at hid
    | static r t vis key =>
      left
      rwa [item?, ha.registry, ← item?] at hid
    | loose n =>
      left
      rwa [item?, hc, ← item?] at hid
  filled hid := by rwa [hv]
  fixed _ _ := hv _

theorem Keeps.of_items (ha : h.Alike h') (hi : h.ItemsLast h') (hg : h'.groups = h.groups)
    (hl : h'.layered = h.layered) : h.Keeps h' where
  alike := ha
  items := hi
  groupCount := by rw [hg]
  groups _ := by rw [hg]
  stackCount := by rw [hl]
  layers _ := by rw [Heap.layers, hl, ← Heap.layers]

theorem Keeps.of_objects (ha : h.Alike h') (hv : ∀ id, h'.value? id = h.value? id)
    (hc : h'.cells = h.cells) (hg : h'.groups = h.groups) (hl : h'.layered = h.layered) :
    h.Keeps h' :=
  .of_items ha (.of_alike ha hc hv) hg hl

theorem value?_newObject {r : RegistryId} {t : TypeRef} {o : ObjectId}
    (hn : h.newObject r t = .ok (h', o)) (id : ItemId) : h'.value? id = h.value? id := by
  obtain ⟨_, name, c, _, rfl⟩ := newObject_cases hn
  cases id with
  | static | loose => rfl
  | field o vis key =>
    by_cases ho : o.index = h.objects.size
    · simp only [value?, object?, Table.get?_push, ho, if_true,
        Table.get?_eq_none (Nat.le_refl h.objects.size)]
      rfl
    · simp only [value?, object?, Table.get?_push, ho, if_false]

theorem keeps_newObject {r : RegistryId} {t : TypeRef} {o : ObjectId}
    (hn : h.newObject r t = .ok (h', o)) : h.Keeps h' := by
  have hevolves := evolves_newObject hn
  have hvalues := value?_newObject hn
  obtain ⟨_, name, c, _, rfl⟩ := newObject_cases hn
  exact .of_objects ⟨rfl, hevolves.objects⟩ hvalues rfl rfl rfl

theorem value?_setBound {o : ObjectId} {v : HostValue} (hb : h.setBound o v = .ok h')
    (id : ItemId) : h'.value? id = h.value? id := by
  rcases setBound_cases hb with rfl | ⟨x, b, hx, rfl⟩
  · rfl
  · cases id with
    | static | loose => rfl
    | field o' vis key =>
      simp only [value?, object?, Table.get?_modify]
      split
      · next hi =>
        rw [object?, hi] at hx
        rw [hx, Option.map_some, Option.bind_some, Option.bind_some]
      · rfl

theorem keeps_setBound {o : ObjectId} {v : HostValue} (hb : h.setBound o v = .ok h') :
    h.Keeps h' := by
  have hevolves := evolves_setBound hb
  have hvalues := value?_setBound hb
  rcases setBound_cases hb with rfl | ⟨x, b, _, rfl⟩
  · exact .of_items (.refl _) (.of_eq (fun _ => rfl) fun _ => rfl) rfl rfl
  · exact .of_objects ⟨rfl, hevolves.objects⟩ hvalues rfl rfl rfl

namespace Keeps

theorem refl (h : Heap) : h.Keeps h :=
  .of_items (.refl h) (.of_eq (fun _ => rfl) fun _ => rfl) rfl rfl

theorem trans (a : h.Keeps h') (c : h'.Keeps h'') : h.Keeps h'' where
  alike := a.alike.trans c.alike
  items := a.items.trans c.items
  groupCount := Nat.le_trans a.groupCount c.groupCount
  groups hn := (c.groups (Nat.lt_of_lt_of_le hn a.groupCount)).trans (a.groups hn)
  stackCount := Nat.le_trans a.stackCount c.stackCount
  layers hτ := (c.layers (Nat.lt_of_lt_of_le hτ a.stackCount)).trans (a.layers hτ)

theorem newItem (a : b.Keeps h) (p : Property) : b.Keeps (h.newItem p).1 :=
  a.trans (.of_items ⟨rfl, fun hx => ⟨_, hx, rfl, rfl⟩⟩ (itemsLast_newItem h p) rfl rfl)

theorem assign (a : b.Keeps h) {i : Item} (hi : h.item? i.id = some i)
    (hw : i.property.flags.writable = true) (v : ObjectId) :
    b.Keeps (h.assign i.id (some v)) :=
  a.trans (.of_items (alike_assign h _ _) (itemsLast_assign hi hw v) (groups_assign h _ _)
    (layered_assign h _ _))

theorem newGroup (a : b.Keeps h) (insertable : Bool) (items : List Item) :
    b.Keeps (h.newGroup insertable items).1 where
  alike := ⟨a.alike.registries, a.alike.objects⟩
  items := a.items.trans (.of_eq (fun id => by cases id <;> rfl) fun id => by cases id <;> rfl)
  groupCount := by
    have hb := a.groupCount
    simp only [Heap.newGroup, Table.size_push]
    omega
  groups hn := by
    rw [← a.groups hn]
    exact Table.get?_push_of_lt _ _ (Nat.lt_of_lt_of_le hn a.groupCount)
  stackCount := a.stackCount
  layers := a.layers

/-- Only new groups take new items. -/
theorem insertItem (a : b.Keeps h) {n : Nat} (hn : b.groups.size ≤ n) (i : Item) :
    b.Keeps (h.insertItem n i) where
  alike := ⟨a.alike.registries, a.alike.objects⟩
  items := a.items.trans (.of_eq (item?_insertItem n i) fun id => by cases id <;> rfl)
  groupCount := by simpa [Heap.insertItem] using a.groupCount
  groups {m} hm := by
    have hne : n ≠ m := by omega
    simp only [Heap.insertItem, Table.get?_modify, hne, if_false]
    exact a.groups hm
  stackCount := a.stackCount
  layers := a.layers

theorem newStack (a : b.Keeps h) : b.Keeps h.newStack.1 where
  alike := ⟨a.alike.registries, a.alike.objects⟩
  items := a.items.trans (.of_eq (fun id => by cases id <;> rfl) fun id => by cases id <;> rfl)
  groupCount := a.groupCount
  groups := a.groups
  stackCount := by
    have hb := a.stackCount
    simp only [Heap.newStack, Table.size_push]
    omega
  layers hτ := (layers_newStack h _).trans (a.layers hτ)

/-- Only new stacks get other layers. -/
theorem setLayers (a : b.Keeps h) {σ : StackId} (hσ : b.layered.size ≤ σ.index)
    (hs : σ.index < h.layered.size) (ls : List Group) : b.Keeps (h.setLayers σ ls) where
  alike := ⟨a.alike.registries, a.alike.objects⟩
  items := a.items.trans (.of_eq (SameItems.setLayers h σ ls).item?
    (SameItems.setLayers h σ ls).value?)
  groupCount := a.groupCount
  groups := a.groups
  stackCount := by
    rw [size_layered_setLayers]
    exact a.stackCount
  layers {τ} hτ := by
    have hne : τ ≠ σ := by
      rintro rfl
      omega
    rw [layers_setLayers hs, if_neg hne]
    exact a.layers hτ

/-- In a sound heap, what a group shows stays the same groups. -/
theorem view (a : b.Keeps h) (hs : b.Sound) {g : Group} (hg : b.Knows g) :
    h.view g = b.view g := by
  obtain ⟨rank, hs⟩ := hs
  -- stacks that were added make the views open deeper, but old stacks are not nested that deep
  have stable : ∀ fuel fuel' τ, τ.index < b.layered.size → rank τ < fuel → rank τ < fuel' →
      h.stackView fuel' τ = b.stackView fuel τ := by
    intro fuel
    induction fuel with
    | zero =>
      intro fuel' τ _ hr
      omega
    | succ fuel ih =>
      intro fuel' τ hτ hr hr'
      cases fuel' with
      | zero => omega
      | succ fuel' =>
        rw [stackView, stackView, a.layers hτ]
        refine congrArg View.layered (Group.openList_congr _ ?_ ?_)
        · intro o ho
          obtain ⟨l, hl, ho⟩ := Group.mem_leavesList.mp ho
          exact a.alike.outerGroups (hs.layers hl _ ho)
        · intro ρ hρ
          obtain ⟨l, hl, hρ⟩ := Group.mem_leavesList.mp hρ
          have hlower := hs.nested hl hρ
          exact ih fuel' ρ (hs.layers hl _ hρ) (by omega) (by omega)
  refine Group.openWith_congr g (fun o ho => a.alike.outerGroups (hg _ ho)) fun τ hτ => ?_
  have hr := hs.bounded (hg _ hτ)
  exact stable _ _ τ (hg _ hτ) hr (Nat.lt_of_lt_of_le hr a.stackCount)

theorem hasKey (a : b.Keeps h) {x : GroupId} (hx : b.HasLeaf (.plain x)) (key : String) :
    h.hasKey x key = b.hasKey x key := by
  cases x with
  | fields o v => rw [Heap.hasKey, a.alike.fieldProperties hx, ← Heap.hasKey]
  | statics r t v => rw [Heap.hasKey, a.alike.registry, ← Heap.hasKey]
  | loose n => rw [Heap.hasKey, a.groups hx, ← Heap.hasKey]

theorem contains (a : b.Keeps h) (hs : b.Sound) {g : Group} (hg : b.Knows g) (key : String) :
    (h.view g).contains h key = (b.view g).contains b key := by
  rw [a.view hs hg]
  exact contains_congr fun x hx => a.hasKey (hs.hasLeaf hg (within_of_view hx)) key

end Keeps

theorem keeps_setIn {v : View} {key : String} {value : ObjectId} {r : Bool}
    (hs : h.setIn v key value = .ok (r, h')) : h.Keeps h' := by
  rcases setIn_cases hs with ⟨_, rfl⟩ | ⟨_, i, hi, hw, rfl⟩
  · exact .refl h'
  · exact (Keeps.refl h).assign (item?_of_viewFind hi) hw value

theorem keeps_setPath {v : View} {path : String} {value : ObjectId} {r : Bool}
    (hs : h.setPath v path value = .ok (r, h')) : h.Keeps h' := by
  rcases setPath_cases hs with hs | ⟨_, o, key, hs⟩
  · exact keeps_setIn hs
  · exact keeps_setIn hs

end Heap

theorem View.slotOnTop_append {h : Heap} {key : String} {v : View} (hw : v.isWritable h = true)
    (vs : List View) : View.slotOnTop h key (vs ++ [v]) = v.slotFor h key := by
  induction vs with
  | nil =>
    rw [List.nil_append, View.slotOnTop, View.anyWritable, if_neg Bool.false_ne_true, if_pos hw]
  | cons u vs ih =>
    have hany : View.anyWritable h (vs ++ [v]) = true := by
      by_contra hn
      have hall := View.anyWritable_eq_false.mp (Bool.eq_false_iff.mpr hn)
      rw [hall v (List.mem_append_right _ List.mem_cons_self)] at hw
      cases hw
    rw [List.cons_append, View.slotOnTop, if_pos hany, ih]

open Heap

/-- The thread's scratch layer is newer than the heap `b` and lies on top of its stack. -/
structure Thread.Above (t : Thread) (b h : Heap) (n : Nat) : Prop where
  keeps : b.Keeps h
  scratch : t.scratch = some (.loose n)
  newer : b.groups.size ≤ n
  size : n < h.groups.size
  insertable : h.insertable (.loose n) = true
  top : ∃ below, h.layers t.stack = below ++ [.plain (.loose n)]

/-- What a host may do to the heap that writes through the stack of the asking thread only. -/
inductive Thread.Writes (t : Thread) (h : Heap) : Heap → Prop where
  | set {key v r h'} (hs : h.setIn (t.view h) key v = .ok (r, h')) : Writes t h h'
  | setPath {path v r h'} (hs : h.setPath (t.view h) path v = .ok (r, h')) : Writes t h h'
  | newObject {r type h' o} (hn : h.newObject r type = .ok (h', o)) : Writes t h h'
  | setBound {o v h'} (hb : h.setBound o v = .ok h') : Writes t h h'

/-- Operations set items through the stack of the thread that asks; other than that they make
objects and bind values to them. -/
def Host.WritesThrough (host : Host) : Prop := ∀ op frame s args,
  ReflTransGen frame.thread.Writes s.heap (host.perform op frame s args).heap

theorem Thread.Writes.keeps {t : Thread} {h h' : Heap} (hw : t.Writes h h') : h.Keeps h' := by
  cases hw with
  | set hs => exact keeps_setIn hs
  | setPath hs => exact keeps_setPath hs
  | newObject hn => exact keeps_newObject hn
  | setBound hb => exact keeps_setBound hb

theorem Thread.keeps_of_writes {t : Thread} {h h' : Heap} (hw : ReflTransGen t.Writes h h') :
    h.Keeps h' := by
  induction hw with
  | refl => exact .refl h
  | tail _ hw ih => exact ih.trans hw.keeps

namespace Thread.Above

variable {host : Host} {me : ObjectId} {t : Thread} {b h h' : Heap} {n : Nat}

theorem stack_lt (ha : t.Above b h n) : t.stack.index < h.layered.size := by
  obtain ⟨below, htop⟩ := ha.top
  exact lt_of_mem_layers (g := .plain (.loose n)) (by simp [htop])

theorem next (ha : t.Above b h n) (hk : h.Keeps h') : t.Above b h' n where
  keeps := ha.keeps.trans hk
  scratch := ha.scratch
  newer := ha.newer
  size := Nat.lt_of_lt_of_le ha.size hk.groupCount
  insertable := by
    rw [Heap.insertable, hk.groups ha.size]
    exact ha.insertable
  top := by
    obtain ⟨below, htop⟩ := ha.top
    refine ⟨below, ?_⟩
    rw [hk.layers ha.stack_lt, htop]

theorem insertItem (ha : t.Above b h n) (i : Item) : t.Above b (h.insertItem n i) n where
  keeps := ha.keeps.insertItem ha.newer i
  scratch := ha.scratch
  newer := ha.newer
  size := by simpa [Heap.insertItem] using ha.size
  insertable := by
    have hins := ha.insertable
    simp only [Heap.insertable, Heap.insertItem, Table.get?_modify, if_true] at hins ⊢
    cases hg : h.groups.get? n with
    | none => simp [hg] at hins
    | some g => simpa [hg] using hins
  top := ha.top

/-- New items of the thread go into its scratch layer. -/
theorem slot (ha : t.Above b h n) {key : String} {m : Nat}
    (hs : (t.view h).slotFor h key = .ok (some m)) : m = n := by
  obtain ⟨below, htop⟩ := ha.top
  have hlt := ha.stack_lt
  rw [Thread.view, Heap.view, Group.openWith] at hs
  cases hd : h.layered.size with
  | zero => omega
  | succ depth =>
    rw [hd, stackView, htop, Group.openList_eq_map, List.map_append, View.slotFor] at hs
    split at hs
    · cases hs
    · have hw : (View.plain (.loose n)).isWritable h = true := by
        rw [View.isWritable]
        exact ha.insertable
      rw [List.map_singleton, Group.openWith, View.slotOnTop_append hw, View.slotFor] at hs
      split at hs
      · split at hs <;> cases hs
        rfl
      · cases hs

theorem addLocal (ha : t.Above b h n) {key : String} {type : TypeRef}
    (hs : t.addLocal h key type = .ok h') : t.Above b h' n := by
  obtain ⟨_, m, p, rfl, _, hslot, rfl⟩ := addLocal_slot hs
  have hnew := ha.next ((Keeps.refl h).newItem p)
  obtain rfl := hnew.slot hslot
  exact hnew.insertItem _

theorem setReturn (ha : t.Above b h n) {v : Option ObjectId} (hr : t.setReturn h v = .ok h') :
    t.Above b h' n := by
  cases v with
  | none =>
    cases hr
    exact ha
  | some v =>
    obtain ⟨m, p, hm, _, hp, _, rfl⟩ := setReturn_ok hr
    rw [ha.scratch] at hm
    cases hm
    have hitem := item?_newItem h p
    have hw : p.flags.writable = true := by rw [hp]
    have hnew := ((Keeps.refl h).newItem p).assign (i := (h.newItem p).2) hitem hw v
    exact (ha.next hnew).insertItem _

/-- Every act of the thread leaves what was there before its call. -/
theorem act (hh : host.WritesThrough) (ha : t.Above b h n)
    (hcalls : ∀ inner : Call, t.context.child = .ok inner.context →
      ∀ h', inner.Passes host h h' → h.Keeps h') (hact : t.Act host me h h') :
    t.Above b h' n := by
  cases hact with
  | set hs =>
    unfold Thread.setValue at hs
    split at hs
    · cases hs
    · next hset =>
      cases hs
      exact ha.next (keeps_setPath hset)
    · cases hs
  | add hs => exact ha.addLocal hs
  | giveBack hs => exact ha.setReturn hs
  | perform op held now pointer args =>
    exact ha.next (keeps_of_writes (hh op ⟨me, t, held⟩ ⟨⟨h, now⟩, pointer⟩ args))
  | call inner now hc => exact ha.next (hcalls inner hc _ (callIn_passes inner ⟨h, now⟩))

end Thread.Above

section start
variable {b h h' : Heap}

theorem Script.fillInputs_keeps {s : Script} {pairs : List (ScriptInput × ObjectId)}
    {items : List Item} (hf : s.fillInputs h pairs = .ok (h', items)) : h.Keeps h' := by
  induction pairs generalizing h items with
  | nil =>
    cases hf
    exact .refl _
  | cons e pairs ih =>
    simp only [Script.fillInputs] at hf
    split at hf
    · cases hf
    · next h₁ hstore =>
      unfold store at hstore
      split at hstore <;> cases hstore
      split at hf
      · cases hf
      · next hrest =>
        cases hf
        have hitem := item?_newItem h (inputProperty e.1)
        exact (((Keeps.refl h).newItem _).assign hitem rfl e.2).trans (ih hrest)

theorem Script.inputMemory_keeps {s : Script} {inputs : List ObjectId} {g : GroupId}
    (hi : s.inputMemory h inputs = .ok (h', g)) : h.Keeps h' := by
  unfold Script.inputMemory at hi
  split at hi
  · cases hi
  · split at hi
    · cases hi
    · split at hi
      · cases hi
      · next hfill =>
        cases hi
        exact (Script.fillInputs_keeps hfill).newGroup false _

theorem Thread.layAll_keeps {σ : StackId} (hb : b.layered.size ≤ σ.index)
    (hσ : σ.index < h.layered.size) (hk : b.Keeps h) (gs : List Group) :
    b.Keeps (layAll h σ gs).2 ∧ (layAll h σ gs).2.layered.size = h.layered.size := by
  induction gs generalizing h with
  | nil => exact ⟨hk, rfl⟩
  | cons g gs ih =>
    rw [layAll]
    split
    · exact ⟨hk, rfl⟩
    · next hd =>
      obtain ⟨_, rfl⟩ := layDown_ok hd
      have hsize := size_layered_setLayers h σ (h.layers σ ++ [g])
      obtain ⟨hlast, hlen⟩ := ih (by rwa [hsize]) (hk.setLayers hb hσ _)
      exact ⟨hlast, hlen.trans hsize⟩

theorem Thread.buildStack_keeps {t : Thread} (hb : b.layered.size ≤ t.stack.index)
    (hσ : t.stack.index < h.layered.size) (hk : b.Keeps h) (me : ObjectId) (inputs : Group) :
    b.Keeps (t.buildStack h me inputs).2 ∧ ∀ t', (t.buildStack h me inputs).1 = .ok t' →
      ∃ n, t'.Above b (t.buildStack h me inputs).2 n := by
  obtain ⟨hlaid, hsize⟩ := layAll_keeps hb hσ hk
    (t.context.ambient.toList ++ [h.memory me, inputs])
  unfold Thread.buildStack
  split
  · next hlay =>
    rw [hlay] at hlaid
    exact ⟨hlaid, nofun⟩
  · next h₁ hlay =>
    rw [hlay] at hlaid hsize
    have hσ₁ : t.stack.index < h₁.layered.size := by rwa [hsize]
    have hpushed : b.Keeps (h₁.pushEmpty t.stack).1 :=
      (hlaid.newGroup true []).setLayers hb hσ₁ _
    refine ⟨hpushed, ?_⟩
    rintro _ ⟨⟩
    refine ⟨h₁.groups.size, hpushed, rfl, hlaid.groupCount, ?_, ?_, ?_⟩
    · simp [pushEmpty, Heap.newGroup, Heap.setLayers]
    · simp [pushEmpty, Heap.newGroup, Heap.setLayers, Heap.insertable]
    · have hlayers := layers_pushEmpty hσ₁ t.stack
      rw [if_pos rfl] at hlayers
      exact ⟨_, hlayers⟩

/-- A call lays out its inputs and its stack beside what is there. -/
theorem Call.keeps_layout {call : Call} {g : GroupId}
    (hi : call.script.inputMemory h call.inputs = .ok (b, g)) :
    h.Keeps ((call.thread b.newStack.2).buildStack b.newStack.1 call.script.parent (.plain g)).2 ∧
    ∀ t, ((call.thread b.newStack.2).buildStack b.newStack.1 call.script.parent (.plain g)).1 =
      .ok t → ∃ n, t.Above h ((call.thread b.newStack.2).buildStack b.newStack.1
        call.script.parent (.plain g)).2 n := by
  have hk := Script.inputMemory_keeps hi
  refine Thread.buildStack_keeps (t := call.thread b.newStack.2) hk.stackCount ?_ hk.newStack _ _
  simp [Call.thread, Heap.newStack]

end start

theorem Call.Passes.keeps {host : Host} (hh : host.WritesThrough) {call : Call} {h h' : Heap}
    (hp : call.Passes host h h') : h.Keeps h' := by
  refine Call.passes_induction (K := fun _ h h' => h.Keeps h')
    (I := fun _ b t h => ∃ n, t.Above b h n) ?_ ?_ ?_ ?_ ?_ ?_ hp
  · exact fun _ h => .refl h
  · intro call h b g e h' hi hb
    have hk := (Call.keeps_layout hi).1
    rwa [hb] at hk
  · rintro call h t g h' ⟨b, hi, hb⟩
    have ht := (Call.keeps_layout hi).2
    rw [hb] at ht
    exact ht t rfl
  · rintro call b t h h' ⟨n, ha⟩ hcalls hact
    exact ⟨n, ha.act hh hcalls hact⟩
  · rintro call b t h ⟨n, ha⟩
    exact ha.keeps
  · rintro call b t h inner h' ⟨n, ha⟩ _ hk
    exact ha.keeps.trans hk

/-- What a run can never change, at any heap that it passes through and at its end: the keys of the
groups that were there before, the properties of items, the values of items that are not writable,
and that an item holds a value. -/
theorem run_leaves_keys_and_fixed_items {host : Host} (hh : host.WritesThrough) (call : Call)
    (m : Moment) : call.Passes host m.heap (Script.callIn host call m).state.heap ∧
    ∀ h, call.Passes host m.heap h →
      (∀ x, m.heap.HasLeaf (.plain x) → ∀ key, h.hasKey x key = m.heap.hasKey x key) ∧
      (m.heap.Sound → ∀ g, m.heap.Knows g → ∀ key,
        (h.view g).contains h key = (m.heap.view g).contains m.heap key) ∧
      (∀ id i, m.heap.item? id = some i → h.item? id = some i) ∧
      (∀ id i, h.item? id = some i → i.property.flags.writable = false →
        h.value? id = m.heap.value? id) ∧
      ∀ id, (m.heap.value? id).isSome → (h.value? id).isSome := by
  refine ⟨callIn_passes call m, fun h hp => ?_⟩
  have hk := hp.keeps hh
  refine ⟨fun x hx key => hk.hasKey hx key, fun hs g hg key => hk.contains hs hg key, ?_, ?_, ?_⟩
  · exact fun _ _ hi => hk.items.kept hi
  · exact fun _ _ hi hw => hk.items.fixed hi hw
  · exact fun _ hv => hk.items.filled hv

namespace Vault

/-! A sealed object, an ambient memo that accepts further items, and a script that writes wherever
it can. -/

def sealed : Property := ⟨"seal", ⟨0⟩, { writable := false }⟩

def memo : Property := ⟨"memo", ⟨0⟩, {}⟩

def kind : Namespace := ⟨["Vault"], by decide, by decide⟩

def bare : Heap :=
  { Heap.empty with
    registries := ⟨#[⟨[kind], ⟨[(kind, ⟨0⟩)]⟩,
      [(⟨0⟩, .concrete ⟨none, none, [], [sealed], []⟩)]⟩]⟩
    objects := ⟨#[
      ⟨⟨0⟩, ⟨0⟩, kind, none, ⟨[((.exposed, "seal"), ⟨1⟩)]⟩, none⟩,
      ⟨⟨0⟩, ⟨0⟩, kind, none, {}, none⟩]⟩ }

def heap : Heap :=
  (((bare.newItem memo).1.newGroup true [(bare.newItem memo).2]).1).assign (.loose 0) (some ⟨0⟩)

def ambient : Group := .plain (.loose 0)

/-- Stores the first argument at the path that the operation names. -/
def host : Host := ⟨fun op frame s args =>
  match args.headD none with
  | none => { result := .ok none, heap := s.heap }
  | some o => Operations.storeValue op (frame.thread.view s.heap) s.heap o⟩

def store : Operation := { name := "store", text := "memo" }

def call : Call where
  script :=
    { name := ⟨["Rob"], by decide, by decide⟩, parent := ⟨0⟩,
      commands := [.add {} "draft" ⟨0⟩, .set {} "draft" (.this {}),
        .attempt {} (.set {} "seal" (.this {})) (.native {} store [.get {} "seal"])] }
  context := { ambient := some ambient }
  inputs := []
  grant := {}
  held := [.object ⟨0⟩]

def run : Reply ScriptError Moment (Option ObjectId) := Script.callIn host call ⟨heap, 0⟩

theorem host_writesThrough : host.WritesThrough := by
  intro op frame s args
  unfold host
  dsimp only
  split
  · exact .refl
  · unfold Operations.storeValue
    split
    · next hs => exact .single (.setPath hs)
    · exact .refl

theorem heap_sound : heap.Sound := by
  refine Sound.grow (sound_of_bare (h := bare) rfl rfl) ?_ rfl
  refine (((Grows.refl bare).newItem memo).newGroup ?_).assign _ _
  intro i hi
  rw [List.mem_singleton.mp hi]
  exact ⟨0, rfl, by decide, by decide⟩

theorem heap_knows : heap.Knows ambient := by
  intro leaf hl
  rw [ambient, Group.leaves, List.mem_singleton] at hl
  subst hl
  exact Nat.zero_lt_one

end Vault

/-- The script adds a local, changes the memo and fails to break the seal. The ambient memory has no
new key, the seal is whole, and the memo still holds something. -/
theorem vault_left_alone :
    Vault.run.outcome = .done none ∧ Vault.run.state.heap.value? (.loose 0) = some ⟨1⟩ ∧
    (Vault.run.state.heap.view Vault.ambient).contains Vault.run.state.heap "draft" = false ∧
    Vault.run.state.heap.value? (.field ⟨0⟩ .exposed "seal") = some ⟨1⟩ ∧
    (Vault.run.state.heap.value? (.loose 0)).isSome := by
  obtain ⟨hpasses, hkept⟩ :=
    run_leaves_keys_and_fixed_items Vault.host_writesThrough Vault.call ⟨Vault.heap, 0⟩
  obtain ⟨_, hkeys, hitems, hfixed, hfilled⟩ := hkept _ hpasses
  refine ⟨by cbv, by cbv, ?_, ?_, hfilled (.loose 0) rfl⟩
  · exact (hkeys Vault.heap_sound Vault.ambient Vault.heap_knows "draft").trans (by decide)
  · exact hfixed _ ⟨.field ⟨0⟩ .exposed "seal", Vault.sealed⟩ (hitems _ _ (by decide)) rfl

end GuardedScript
