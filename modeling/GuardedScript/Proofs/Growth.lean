import GuardedScript.Memory.Stack
import GuardedScript.Proofs.Reach

/-!
How runs change the heap. Nothing is taken away: objects, groups, stacks and cells are added, old
stacks keep their layers, and what is newly entered into a group is a new cell. So what a group
reaches stays the same, and a sound heap stays sound.
-/

namespace GuardedScript

theorem Assoc.mem_of_get?_ofList {κ α : Type} [DecidableEq κ] {l : List (κ × α)} {k : κ} {a : α}
    (h : (Assoc.ofList l).get? k = some a) : (k, a) ∈ l := by
  have main : ∀ m : Assoc κ α, (l.foldl (fun m e => m.put e.1 e.2) m).get? k = some a →
      (k, a) ∈ l ∨ m.get? k = some a := by
    clear h
    induction l with
    | nil => exact fun m h => .inr h
    | cons e l ih =>
      intro m h
      rcases ih _ h with h | h
      · exact .inl (List.mem_cons_of_mem e h)
      · rw [Assoc.get?_put] at h
        split at h
        · next he =>
          cases h
          exact .inl (he ▸ List.mem_cons_self)
        · exact .inr h
  rcases main _ h with h | h
  · exact h
  · cases h

namespace Heap

/-- The registries and the types of the objects stay. -/
structure Alike (h h' : Heap) : Prop where
  registries : h'.registries = h.registries
  objects : ∀ {o x}, h.object? o = some x →
    ∃ y, h'.object? o = some y ∧ y.registry = x.registry ∧ y.type = x.type

structure Grows (h h' : Heap) : Prop where
  alike : h.Alike h'
  groups : h.groups.size ≤ h'.groups.size
  cells : h.cells.size ≤ h'.cells.size
  layered : h.layered.size ≤ h'.layered.size
  layers : ∀ {τ}, τ.index < h.layered.size → h'.layers τ = h.layers τ
  kept : ∀ {n key id}, h.itemId? n key = some id → h'.itemId? n key = some id
  fresh : ∀ {n key id}, h'.itemId? n key = some id →
    h.itemId? n key = some id ∨ ∃ k, id = .loose k ∧ h.cells.size ≤ k ∧ k < h'.cells.size

variable {h h' h'' : Heap}

theorem Alike.refl (h : Heap) : h.Alike h := ⟨rfl, fun hx => ⟨_, hx, rfl, rfl⟩⟩

theorem Alike.trans (a : h.Alike h') (b : h'.Alike h'') : h.Alike h'' := by
  refine ⟨b.registries.trans a.registries, fun hx => ?_⟩
  obtain ⟨y, hy, hr, ht⟩ := a.objects hx
  obtain ⟨z, hz, hr', ht'⟩ := b.objects hy
  exact ⟨z, hz, hr'.trans hr, ht'.trans ht⟩

theorem Alike.isSome (a : h.Alike h') {o : ObjectId} (ho : (h.object? o).isSome) :
    (h'.object? o).isSome := by
  obtain ⟨x, hx⟩ := Option.isSome_iff_exists.mp ho
  obtain ⟨y, hy, _⟩ := a.objects hx
  simp [hy]

theorem Alike.registry (a : h.Alike h') (r : RegistryId) : h'.registry r = h.registry r := by
  rw [Heap.registry, a.registries, ← Heap.registry]

theorem Alike.outerGroups (a : h.Alike h') {o : ObjectId} (ho : (h.object? o).isSome) :
    h'.outerGroups o = h.outerGroups o := by
  obtain ⟨x, hx⟩ := Option.isSome_iff_exists.mp ho
  obtain ⟨y, hy, hr, ht⟩ := a.objects hx
  simp only [Heap.outerGroups, hx, hy, hr, ht, a.registry]

theorem Alike.fieldProperties (a : h.Alike h') {o : ObjectId} (ho : (h.object? o).isSome)
    (v : Visibility) : h'.fieldProperties o v = h.fieldProperties o v := by
  obtain ⟨x, hx⟩ := Option.isSome_iff_exists.mp ho
  obtain ⟨y, hy, hr, ht⟩ := a.objects hx
  simp only [Heap.fieldProperties, hx, hy, hr, ht, a.registry]

theorem Grows.refl (h : Heap) : h.Grows h :=
  ⟨.refl h, Nat.le_refl _, Nat.le_refl _, Nat.le_refl _, fun _ => rfl, id, .inl⟩

theorem Grows.trans (a : h.Grows h') (b : h'.Grows h'') : h.Grows h'' where
  alike := a.alike.trans b.alike
  groups := Nat.le_trans a.groups b.groups
  cells := Nat.le_trans a.cells b.cells
  layered := Nat.le_trans a.layered b.layered
  layers hτ := (b.layers (Nat.lt_of_lt_of_le hτ a.layered)).trans (a.layers hτ)
  kept he := b.kept (a.kept he)
  fresh he := by
    rcases b.fresh he with he | ⟨k, rfl, hk, hk'⟩
    · rcases a.fresh he with he | ⟨k, rfl, hk, hk'⟩
      · exact .inl he
      · exact .inr ⟨k, rfl, hk, Nat.lt_of_lt_of_le hk' b.cells⟩
    · exact .inr ⟨k, rfl, Nat.le_trans a.cells hk, hk'⟩

theorem Knows.mono {g : Group} (hk : h.Knows g)
    (ho : ∀ {o}, (h.object? o).isSome → (h'.object? o).isSome)
    (hg : h.groups.size ≤ h'.groups.size) (hl : h.layered.size ≤ h'.layered.size) :
    h'.Knows g := by
  intro leaf hm
  have h₀ := hk leaf hm
  cases leaf with
  | plain x =>
    cases x with
    | loose n => exact Nat.lt_of_lt_of_le h₀ hg
    | fields o v => exact ho h₀
    | statics => trivial
  | object o => exact ho h₀
  | stack τ => exact Nat.lt_of_lt_of_le h₀ hl
  | linked | writable => trivial

theorem Knows.grow {g : Group} (hk : h.Knows g) (hg : h.Grows h') : h'.Knows g :=
  hk.mono hg.alike.isSome hg.groups hg.layered

theorem knows_stack {τ : StackId} (hτ : τ.index < h.layered.size) : h.Knows (.stack τ) := by
  intro leaf hl
  rw [Group.leaves, List.mem_singleton] at hl
  subst hl
  exact hτ

theorem layers_eq_nil {τ : StackId} (hτ : h.layered.size ≤ τ.index) : h.layers τ = [] := by
  rw [layers, Table.get?_eq_none hτ]
  rfl

theorem lt_of_mem_layers {τ : StackId} {g : Group} (hg : g ∈ h.layers τ) :
    τ.index < h.layered.size := by
  rcases Nat.lt_or_ge τ.index h.layered.size with hτ | hτ
  · exact hτ
  · rw [layers_eq_nil hτ] at hg
    cases hg

theorem Sound.hasLeaf (hs : h.Sound) {g : Group} (hk : h.Knows g) {x : GroupId}
    (hx : h.Within g x) : h.HasLeaf (.plain x) := by
  obtain ⟨rank, hs⟩ := hs
  induction hx with
  | plain hl => exact hk _ hl
  | @object g o x hl hx =>
    unfold Heap.outerGroups at hx
    split at hx
    · cases hx
    · next hy =>
      rcases List.mem_cons.mp hx with rfl | hx
      · simp [HasLeaf, hy]
      · obtain ⟨_, _, rfl⟩ := List.mem_map.mp hx
        trivial
  | layer hl hl' _ ih => exact ih (hs.layers hl')

/-- What a known group reaches does not change. -/
theorem Grows.within_iff (hg : h.Grows h') (hs : h.Sound) {g : Group} {x : GroupId}
    (hk : h.Knows g) : h'.Within g x ↔ h.Within g x := by
  obtain ⟨rank, hs⟩ := hs
  constructor
  · intro hx
    induction hx with
    | plain hl => exact .plain hl
    | object hl hx => exact .object hl (hg.alike.outerGroups (hk _ hl) ▸ hx)
    | layer hl hl' _ ih =>
      rw [hg.layers (hk _ hl)] at hl'
      exact .layer hl hl' (ih (hs.layers hl'))
  · intro hx
    induction hx with
    | plain hl => exact .plain hl
    | object hl hx => exact .object hl ((hg.alike.outerGroups (hk _ hl)).symm ▸ hx)
    | layer hl hl' _ ih =>
      refine .layer hl ?_ (ih (hs.layers hl'))
      rwa [hg.layers (hk _ hl)]

theorem Grows.hasKey (hg : h.Grows h') {x : GroupId} (hx : h.HasLeaf (.plain x)) {key : String}
    (hk : h'.hasKey x key = true) : h.hasKey x key = true ∨
      ∃ m k, x = .loose m ∧ h'.itemId? m key = some (.loose k) ∧ h.cells.size ≤ k := by
  cases x with
  | fields o v =>
    left
    rwa [Heap.hasKey, hg.alike.fieldProperties hx] at hk
  | statics r t v =>
    left
    rwa [Heap.hasKey, hg.alike.registry] at hk
  | loose m =>
    rw [hasKey_loose] at hk
    obtain ⟨id, he⟩ := Option.isSome_iff_exists.mp hk
    rcases hg.fresh he with ho | ⟨k, rfl, hk, _⟩
    · left
      rw [hasKey_loose, ho]
      rfl
    · exact .inr ⟨m, k, rfl, he, hk⟩

theorem Grows.hasKey_mono (hg : h.Grows h') {x : GroupId} (hx : h.HasLeaf (.plain x))
    {key : String} (hk : h.hasKey x key = true) : h'.hasKey x key = true := by
  cases x with
  | fields o v => rwa [Heap.hasKey, hg.alike.fieldProperties hx]
  | statics r t v => rwa [Heap.hasKey, hg.alike.registry]
  | loose m =>
    rw [hasKey_loose] at hk ⊢
    obtain ⟨id, he⟩ := Option.isSome_iff_exists.mp hk
    rw [hg.kept he]
    rfl

theorem SoundBy.grow {rank : StackId → Nat} (hs : h.SoundBy rank) (hg : h.Grows h')
    (hl : h'.layered.size = h.layered.size) : h'.SoundBy rank := by
  have hold : ∀ {σ g}, g ∈ h'.layers σ → g ∈ h.layers σ := by
    intro σ g hm
    exact hg.layers (hl ▸ lt_of_mem_layers hm) ▸ hm
  refine ⟨?_, fun hm => (hs.layers (hold hm)).grow hg, fun hm => hs.nested (hold hm),
    fun hσ => hl ▸ hs.bounded (hl ▸ hσ)⟩
  intro n key k he
  rcases hg.fresh he with he | ⟨k', hk, _, hk'⟩
  · exact Nat.lt_of_lt_of_le (hs.items he) hg.cells
  · cases hk
    exact hk'

theorem Sound.grow (hs : h.Sound) (hg : h.Grows h') (hl : h'.layered.size = h.layered.size) :
    h'.Sound := by
  obtain ⟨rank, hs⟩ := hs
  exact ⟨rank, hs.grow hg hl⟩

section operations
variable {b : Heap}

theorem Grows.newItem (hg : b.Grows h) (p : Property) : b.Grows (h.newItem p).1 := by
  refine hg.trans ⟨⟨rfl, fun hx => ⟨_, hx, rfl, rfl⟩⟩, Nat.le_refl _, ?_, Nat.le_refl _,
    fun _ => rfl, id, .inl⟩
  simp [Heap.newItem]

theorem value?_newItem (h : Heap) (p : Property) (id : ItemId) :
    (h.newItem p).1.value? id = h.value? id := by
  cases id with
  | field | static => rfl
  | loose k =>
    simp only [value?, newItem, Table.get?_push]
    split
    · next hk => rw [hk, Table.get?_eq_none (Nat.le_refl _)]; rfl
    · rfl

theorem alike_assign (h : Heap) (id : ItemId) (v : Option ObjectId) : h.Alike (h.assign id v) := by
  cases id with
  | static | loose => exact ⟨rfl, fun hx => ⟨_, hx, rfl, rfl⟩⟩
  | field o vis key =>
    refine ⟨rfl, fun {o' x} hx => ?_⟩
    simp only [object?] at hx
    simp only [object?, assign, Table.get?_modify, hx]
    split
    · exact ⟨_, rfl, rfl, rfl⟩
    · exact ⟨_, rfl, rfl, rfl⟩

@[simp] theorem itemId?_assign (h : Heap) (id : ItemId) (v : Option ObjectId) (n : Nat)
    (key : String) : (h.assign id v).itemId? n key = h.itemId? n key := by
  cases id <;> rfl

@[simp] theorem size_cells_assign (h : Heap) (id : ItemId) (v : Option ObjectId) :
    (h.assign id v).cells.size = h.cells.size := by
  cases id with
  | field | static => rfl
  | loose k => exact Table.size_modify _ _ _

@[simp] theorem layered_assign (h : Heap) (id : ItemId) (v : Option ObjectId) :
    (h.assign id v).layered = h.layered := by
  cases id <;> rfl

@[simp] theorem groups_assign (h : Heap) (id : ItemId) (v : Option ObjectId) :
    (h.assign id v).groups = h.groups := by
  cases id <;> rfl

theorem Grows.assign (hg : b.Grows h) (id : ItemId) (v : Option ObjectId) :
    b.Grows (h.assign id v) := by
  refine hg.trans ⟨alike_assign h id v, ?_, ?_, ?_, ?_, ?_, ?_⟩
  · exact Nat.le_of_eq (by rw [groups_assign])
  · exact Nat.le_of_eq (by rw [size_cells_assign])
  · exact Nat.le_of_eq (by rw [layered_assign])
  · intro τ _
    rw [Heap.layers, layered_assign, ← Heap.layers]
  · intro n key i he
    rwa [itemId?_assign]
  · intro n key i he
    rw [itemId?_assign] at he
    exact .inl he

theorem value?_assign_of_ne {id id' : ItemId} (hne : id ≠ id') (v : Option ObjectId) :
    (h.assign id v).value? id' = h.value? id' := by
  cases id with
  | field o vis key =>
    cases id' with
    | static | loose => rfl
    | field o' vis' key' =>
      simp only [value?, object?, assign, Table.get?_modify]
      split
      · next hi =>
        have hkey : (vis, key) ≠ (vis', key') := by
          intro he
          cases o
          cases o'
          simp_all
        cases h.objects.get? o'.index with
        | none => rfl
        | some x =>
          cases v with
          | none => exact Assoc.get?_erase_of_ne _ hkey
          | some a => exact Assoc.get?_put_of_ne _ a hkey
      · rfl
  | static r t vis key =>
    cases id' with
    | field | loose => rfl
    | static =>
      cases v with
      | none => exact Assoc.get?_erase_of_ne _ hne
      | some a => exact Assoc.get?_put_of_ne _ a hne
  | loose j =>
    cases id' with
    | field | static => rfl
    | loose k =>
      have hjk : j ≠ k := fun e => hne (e ▸ rfl)
      simp [value?, assign, Table.get?_modify, hjk]

theorem value?_assign_self {k : Nat} (hk : k < h.cells.size) (v : Option ObjectId) :
    (h.assign (.loose k) v).value? (.loose k) = v := by
  have hc : h.cells.get? k = some h.cells.rows[k] := Array.getElem?_eq_getElem hk
  simp [value?, assign, Table.get?_modify, hc]

theorem itemId?_insertItem (h : Heap) (n : Nat) (i : Item) (m : Nat) (key : String) :
    (h.insertItem n i).itemId? m key =
      if n = m ∧ n < h.groups.size ∧ i.key = key then some i.id else h.itemId? m key := by
  simp only [itemId?, insertItem, Table.get?_modify]
  by_cases hm : n = m
  · subst hm
    cases hg : h.groups.get? n with
    | none =>
      have hn : ¬ n < h.groups.size := fun hn => by simp [Table.get?, Table.size] at hg hn; omega
      simp [hn]
    | some g =>
      have hn := Table.lt_size_of_get? hg
      simp [hn, Assoc.get?_put]
  · simp [hm]

theorem Grows.insertItem (hg : b.Grows h) {n : Nat} {i : Item} {k : Nat}
    (hn : h.itemId? n i.key = none) (hi : i.id = .loose k) (hb : b.cells.size ≤ k)
    (hk : k < h.cells.size) : b.Grows (h.insertItem n i) := by
  refine ⟨⟨hg.alike.registries, hg.alike.objects⟩, ?_, hg.cells, hg.layered, hg.layers, ?_, ?_⟩
  · simpa [Heap.insertItem] using hg.groups
  · intro m key id he
    rw [itemId?_insertItem]
    split
    · next hm =>
      obtain ⟨rfl, _, rfl⟩ := hm
      rw [hg.kept he] at hn
      cases hn
    · exact hg.kept he
  · intro m key id he
    rw [itemId?_insertItem] at he
    split at he
    · cases he
      exact .inr ⟨k, hi, hb, hk⟩
    · exact hg.fresh he

theorem itemId?_newGroup (h : Heap) (insertable : Bool) (items : List Item) (m : Nat)
    (key : String) : (h.newGroup insertable items).1.itemId? m key =
      if m = h.groups.size then (Assoc.ofList (items.map fun i => (i.key, i.id))).get? key
      else h.itemId? m key := by
  simp only [itemId?, newGroup, Table.get?_push]
  split <;> rfl

theorem itemId?_eq_none {n : Nat} (hn : h.groups.size ≤ n) (key : String) :
    h.itemId? n key = none := by
  rw [itemId?, Table.get?_eq_none hn]
  rfl

theorem sound_of_bare (hg : h.groups.size = 0) (hl : h.layered.size = 0) : h.Sound := by
  refine ⟨fun _ => 0, ?_, ?_, ?_, ?_⟩
  · intro n key k he
    rw [itemId?_eq_none (by omega)] at he
    cases he
  · intro σ g hm
    rw [layers_eq_nil (by omega)] at hm
    cases hm
  · intro σ g τ hm
    rw [layers_eq_nil (by omega)] at hm
    cases hm
  · intro σ hσ
    omega

theorem mem_of_itemId?_newGroup {insertable : Bool} {items : List Item} {m : Nat} {key : String}
    {id : ItemId} (he : (h.newGroup insertable items).1.itemId? m key = some id) :
    h.itemId? m key = some id ∨ ∃ i ∈ items, i.key = key ∧ i.id = id := by
  rw [itemId?_newGroup] at he
  split at he
  · obtain ⟨i, hm, hi⟩ := List.mem_map.mp (Assoc.mem_of_get?_ofList he)
    cases hi
    exact .inr ⟨i, hm, rfl, rfl⟩
  · exact .inl he

theorem Grows.newGroup (hg : b.Grows h) {insertable : Bool} {items : List Item}
    (hi : ∀ i ∈ items, ∃ k, i.id = .loose k ∧ b.cells.size ≤ k ∧ k < h.cells.size) :
    b.Grows (h.newGroup insertable items).1 := by
  refine ⟨⟨hg.alike.registries, hg.alike.objects⟩, ?_, hg.cells, hg.layered, hg.layers, ?_, ?_⟩
  · have hb := hg.groups
    simp only [Heap.newGroup, Table.size_push]
    omega
  · intro m key id he
    rw [itemId?_newGroup]
    split
    · next hm =>
      have hk := hg.kept he
      rw [itemId?_eq_none (Nat.le_of_eq hm.symm)] at hk
      cases hk
    · exact hg.kept he
  · intro m key id he
    rcases mem_of_itemId?_newGroup he with he | ⟨i, hm, _, rfl⟩
    · exact hg.fresh he
    · exact .inr (hi i hm)

theorem layers_newStack (h : Heap) (τ : StackId) : h.newStack.1.layers τ = h.layers τ := by
  simp only [layers, newStack, Table.get?_push]
  split
  · next hτ => rw [hτ, Table.get?_eq_none (Nat.le_refl _)]; rfl
  · rfl

theorem layers_setLayers {σ : StackId} (hσ : σ.index < h.layered.size) (ls : List Group)
    (τ : StackId) : (h.setLayers σ ls).layers τ = if τ = σ then ls else h.layers τ := by
  simp only [layers, setLayers, Table.get?_modify]
  by_cases hτ : τ = σ
  · subst hτ
    have hl : h.layered.get? τ.index = some h.layered.rows[τ.index] :=
      Array.getElem?_eq_getElem hσ
    simp [hl]
  · have hi : σ.index ≠ τ.index := fun e => hτ (by cases σ; cases τ; simp_all)
    simp [hi, hτ]

theorem Grows.newStack (hg : b.Grows h) : b.Grows h.newStack.1 := by
  refine hg.trans ⟨⟨rfl, fun hx => ⟨_, hx, rfl, rfl⟩⟩, Nat.le_refl _, Nat.le_refl _, ?_,
    fun _ => layers_newStack h _, id, .inl⟩
  simp [Heap.newStack]

@[simp] theorem size_layered_setLayers (h : Heap) (σ : StackId) (ls : List Group) :
    (h.setLayers σ ls).layered.size = h.layered.size := by
  simp [setLayers]

theorem Grows.setLayers (hg : b.Grows h) {σ : StackId} (hb : b.layered.size ≤ σ.index)
    (hσ : σ.index < h.layered.size) (ls : List Group) : b.Grows (h.setLayers σ ls) := by
  refine ⟨⟨hg.alike.registries, hg.alike.objects⟩, hg.groups, hg.cells, ?_, ?_, hg.kept, hg.fresh⟩
  · rw [size_layered_setLayers]
    exact hg.layered
  · intro τ hτ
    have hne : τ ≠ σ := by
      rintro rfl
      omega
    rw [layers_setLayers hσ, if_neg hne, hg.layers hτ]

/-- A new stack ranks above all others. -/
theorem SoundBy.newStack {rank : StackId → Nat} (hs : h.SoundBy rank) :
    h.newStack.1.SoundBy fun τ => if τ.index < h.layered.size then rank τ else h.layered.size := by
  refine ⟨hs.items, ?_, ?_, ?_⟩
  · intro σ g hm
    rw [layers_newStack] at hm
    exact (hs.layers hm).grow (Grows.refl h).newStack
  · intro σ g τ hm hl
    rw [layers_newStack] at hm
    have hτ : τ.index < h.layered.size := hs.layers hm _ hl
    simp only [hτ, lt_of_mem_layers hm, if_true]
    exact hs.nested hm hl
  · intro σ _
    simp only [Heap.newStack, Table.size_push]
    split
    · next hσ => exact Nat.lt_succ_of_lt (hs.bounded hσ)
    · exact Nat.lt_succ_self _

theorem SoundBy.setLayers {rank : StackId → Nat} (hs : h.SoundBy rank) {σ : StackId}
    (hσ : σ.index < h.layered.size) {ls : List Group} (hk : ∀ g ∈ ls, h.Knows g)
    (hr : ∀ g ∈ ls, ∀ τ, .stack τ ∈ g.leaves → rank τ < rank σ) :
    (h.setLayers σ ls).SoundBy rank := by
  have hsize := size_layered_setLayers h σ ls
  have hkn : ∀ {g}, h.Knows g → (h.setLayers σ ls).Knows g :=
    fun hg => hg.mono id (Nat.le_refl _) (Nat.le_of_eq hsize.symm)
  refine ⟨hs.items, ?_, ?_, fun hτ => hsize ▸ hs.bounded (hsize ▸ hτ)⟩
  · intro τ g hm
    rw [layers_setLayers hσ] at hm
    split at hm
    · exact hkn (hk g hm)
    · exact hkn (hs.layers hm)
  · intro τ g τ' hm hl
    rw [layers_setLayers hσ] at hm
    split at hm
    · next he => exact he ▸ hr g hm τ' hl
    · exact hs.nested hm hl

theorem layers_pushEmpty {σ : StackId} (hσ : σ.index < h.layered.size) (τ : StackId) :
    (h.pushEmpty σ).1.layers τ =
      if τ = σ then h.layers σ ++ [.plain (.loose h.groups.size)] else h.layers τ :=
  layers_setLayers (h := (h.newGroup true []).1) hσ _ τ

theorem Grows.emptyGroup (hg : b.Grows h) : b.Grows (h.newGroup true []).1 :=
  hg.newGroup fun _ hm => nomatch hm

theorem Grows.pushEmpty (hg : b.Grows h) {σ : StackId} (hb : b.layered.size ≤ σ.index)
    (hσ : σ.index < h.layered.size) : b.Grows (h.pushEmpty σ).1 :=
  hg.emptyGroup.setLayers hb hσ _

theorem SoundBy.pushEmpty {rank : StackId → Nat} (hs : h.SoundBy rank) {σ : StackId}
    (hσ : σ.index < h.layered.size) : (h.pushEmpty σ).1.SoundBy rank := by
  have hs' := hs.grow (Grows.refl h).emptyGroup rfl
  refine hs'.setLayers hσ ?_ ?_
  · intro g hm
    rcases List.mem_append.mp hm with hm | hm
    · exact hs'.layers hm
    · intro leaf hl
      rw [List.mem_singleton.mp hm, Group.leaves, List.mem_singleton] at hl
      subst hl
      simp [HasLeaf, Heap.newGroup]
  · intro g hm τ hτ
    rcases List.mem_append.mp hm with hm | hm
    · exact hs.nested hm hτ
    · rw [List.mem_singleton.mp hm] at hτ
      simp [Group.leaves] at hτ

end operations

end Heap

end GuardedScript
