import Mathlib.Logic.Relation
import GuardedScript.Proofs.Dealing
import GuardedScript.Proofs.Permanence

/-!
Layers of one stack. The layers that a call makes for its thread, one for the inputs and one for the
locals, are reached through the stack of the thread and through nothing else, and their items are
kept nowhere else. What a thread does starts from its own stack, so other threads leave these layers
as they are.
-/

namespace GuardedScript

open Relation

namespace Heap

variable {h h' h'' : Heap} {ambient : Option Group} {σ : StackId} {P : Nat → Prop}

/-- Loose groups are reached through layers alone. -/
theorem within_loose_of_layers (hl : ∀ {τ g}, g ∈ h'.layers τ → g ∈ h.layers τ) {g : Group}
    {n : Nat} (hw : h'.Within g (.loose n)) : h.Within g (.loose n) := by
  generalize hx : GroupId.loose n = x at hw
  induction hw with
  | plain hg => exact .plain hg
  | object _ ho => exact absurd (hx ▸ ho) loose_not_mem_outerGroups
  | layer hg hm _ ih => exact .layer hg (hl hm) (ih hx)

/-- Layers that lead no further than those before leave what is reached. -/
theorem within_loose_setLayers {ρ : StackId} {ls : List Group} {n : Nat}
    (hls : ∀ g ∈ ls, h.Within g (.loose n) → h.Within (.stack ρ) (.loose n)) {g : Group}
    (hw : (h.setLayers ρ ls).Within g (.loose n)) : h.Within g (.loose n) := by
  generalize hx : GroupId.loose n = x at hw
  induction hw with
  | plain hg => exact .plain hg
  | object _ ho => exact absurd (hx ▸ ho) loose_not_mem_outerGroups
  | layer hg hm _ ih =>
    subst hx
    rcases mem_layers_setLayers hm with ⟨rfl, hnew⟩ | hold
    · obtain ⟨l, hl, hw⟩ := within_stack.mp (hls _ hnew (ih rfl))
      exact .layer hg hl hw
    · exact .layer hg hold (ih rfl)

/-- Of all stacks and the ambient memory, only this stack leads to the groups. -/
structure Walled (h : Heap) (ambient : Option Group) (σ : StackId) (P : Nat → Prop) : Prop where
  stack : σ.index < h.layered.size
  groups : ∀ {n}, P n → n < h.groups.size
  away : ∀ g ∈ ambient, ∀ {n}, P n → ¬ h.Within g (.loose n)
  mine : ∀ {τ n}, P n → h.Within (.stack τ) (.loose n) → τ = σ

theorem Walled.of_layers (hw : h.Walled ambient σ P) (hl : ∀ τ, h'.layers τ = h.layers τ)
    (hs : h.layered.size ≤ h'.layered.size) (hg : h.groups.size ≤ h'.groups.size) :
    h'.Walled ambient σ P := by
  have hwithin : ∀ {g n}, h'.Within g (.loose n) → h.Within g (.loose n) :=
    within_loose_of_layers fun {τ _} hm => hl τ ▸ hm
  refine ⟨Nat.lt_of_lt_of_le hw.stack hs, fun hn => Nat.lt_of_lt_of_le (hw.groups hn) hg, ?_, ?_⟩
  · exact fun g hga n hn hx => hw.away g hga hn (hwithin hx)
  · exact fun hn hx => hw.mine hn (hwithin hx)

theorem Walled.setLayers (hw : h.Walled ambient σ P) {ρ : StackId} {ls : List Group}
    (hls : ∀ g ∈ ls, ∀ n, P n → h.Within g (.loose n) → h.Within (.stack ρ) (.loose n)) :
    (h.setLayers ρ ls).Walled ambient σ P := by
  refine ⟨by rw [size_layered_setLayers]; exact hw.stack, hw.groups, ?_, ?_⟩
  · intro g hga n hn hx
    exact hw.away g hga hn (within_loose_setLayers (fun l hl => hls l hl n hn) hx)
  · intro τ n hn hx
    exact hw.mine hn (within_loose_setLayers (fun l hl => hls l hl n hn) hx)

/-- The groups lie behind a wall, and so do their items: these are loose and in no other group. -/
structure Secludes (h : Heap) (ambient : Option Group) (σ : StackId) (P : Nat → Prop) : Prop
    extends h.Walled ambient σ P where
  bounded : ∀ {m key k}, h.itemId? m key = some (.loose k) → k < h.cells.size
  loose : ∀ {n key id}, P n → h.itemId? n key = some id → ∃ k, id = .loose k
  unshared : ∀ {n key m key' k}, P n → h.itemId? n key = some (.loose k) →
    h.itemId? m key' = some (.loose k) → P m

/-- The groups have the items they had, with the values they had. -/
structure Spared (P : Nat → Prop) (h h' : Heap) : Prop where
  groups : ∀ {n}, P n → h'.groups.get? n = h.groups.get? n
  cells : ∀ {n key k}, P n → h.itemId? n key = some (.loose k) →
    h'.cells.get? k = h.cells.get? k

theorem Spared.refl (h : Heap) : h.Spared P h := ⟨fun _ => rfl, fun _ _ => rfl⟩

theorem Spared.itemId? (hs : Spared P h h') {n : Nat} (hn : P n) (key : String) :
    h'.itemId? n key = h.itemId? n key := by
  rw [Heap.itemId?, hs.groups hn, ← Heap.itemId?]

theorem Spared.trans (a : Spared P h h') (b : Spared P h' h'') : Spared P h h'' where
  groups hn := (b.groups hn).trans (a.groups hn)
  cells hn hk := (b.cells hn ((a.itemId? hn _).trans hk)).trans (a.cells hn hk)

/-- Cells may be added and old ones written, but no group is touched. -/
theorem Secludes.still (hs : h.Secludes ambient σ P) (hl : ∀ τ, h'.layers τ = h.layers τ)
    (hsize : h.layered.size ≤ h'.layered.size) (hg : h'.groups = h.groups)
    (hc : h.cells.size ≤ h'.cells.size) : h'.Secludes ambient σ P := by
  have hi : ∀ m key, h'.itemId? m key = h.itemId? m key := fun m key => by
    rw [itemId?, hg, ← itemId?]
  refine ⟨hs.toWalled.of_layers hl hsize (by rw [hg]), ?_, ?_, ?_⟩
  · intro m key k hk
    exact Nat.lt_of_lt_of_le (hs.bounded (hi m key ▸ hk)) hc
  · intro n key id hn hid
    exact hs.loose hn (hi n key ▸ hid)
  · intro n key m key' k hn hk hk'
    exact hs.unshared hn (hi n key ▸ hk) (hi m key' ▸ hk')

/-- New entries lead to new cells, which no group but one takes. -/
theorem Secludes.grow (hs : h.Secludes ambient σ P) (hg : h.Grows h')
    (hl : ∀ τ, h'.layers τ = h.layers τ)
    (hnew : ∀ {n key m key' k}, h.cells.size ≤ k → P n → h'.itemId? n key = some (.loose k) →
      h'.itemId? m key' = some (.loose k) → P m) : h'.Secludes ambient σ P := by
  refine ⟨hs.toWalled.of_layers hl hg.layered hg.groups, ?_, ?_, ?_⟩
  · intro m key k hk
    rcases hg.fresh hk with hk | ⟨j, hj, _, hlt⟩
    · exact Nat.lt_of_lt_of_le (hs.bounded hk) hg.cells
    · cases hj
      exact hlt
  · intro n key id hn hid
    rcases hg.fresh hid with hid | ⟨k, rfl, _⟩
    · exact hs.loose hn hid
    · exact ⟨k, rfl⟩
  · intro n key m key' k hn hk hk'
    rcases hg.fresh hk with ho | ⟨j, hj, hlt, _⟩
    · rcases hg.fresh hk' with ho' | ⟨j, hj, hlt, _⟩
      · exact hs.unshared hn ho ho'
      · cases hj
        have hb := hs.bounded ho
        omega
    · cases hj
      exact hnew hlt hn hk hk'

theorem cells_assign_of_ne {id : ItemId} {k : Nat} (hne : id ≠ .loose k) (v : Option ObjectId) :
    (h.assign id v).cells.get? k = h.cells.get? k := by
  cases id with
  | field | static => rfl
  | loose j =>
    have hjk : j ≠ k := fun e => hne (e ▸ rfl)
    simp [assign, Table.get?_modify, hjk]

/-- The heap with one more loose item, which may be filled. -/
def Made (h : Heap) (p : Property) (h₁ : Heap) : Prop :=
  h₁ = (h.newItem p).1 ∨ ∃ v, h₁ = (h.newItem p).1.assign (.loose h.cells.size) (some v)

section made
variable {p : Property} {h₁ : Heap}

theorem made_filledItem (h : Heap) (p : Property) (v : Option ObjectId) :
    h.Made p (h.filledItem p v).1 ∧ (h.filledItem p v).2 = ⟨.loose h.cells.size, p⟩ := by
  cases v with
  | none => exact ⟨.inl rfl, rfl⟩
  | some v =>
    refine ⟨?_, rfl⟩
    simp only [filledItem, store]
    split
    · exact .inr ⟨v, rfl⟩
    · exact .inl rfl

theorem Made.fills (hm : h.Made p h₁) : h.Fills h₁ := by
  rcases hm with rfl | ⟨v, rfl⟩
  · exact (Fills.refl h).newItem p
  · exact ((Fills.refl h).newItem p).assign (Nat.le_refl _) (some v)

theorem Made.size (hm : h.Made p h₁) : h₁.cells.size = h.cells.size + 1 := by
  rcases hm with rfl | ⟨v, rfl⟩
  · simp [newItem]
  · simp [newItem]

theorem Made.cells (hm : h.Made p h₁) {k : Nat} (hk : k < h.cells.size) :
    h₁.cells.get? k = h.cells.get? k := by
  rcases hm with rfl | ⟨v, rfl⟩
  · exact Table.get?_push_of_lt _ _ hk
  · have hne : ItemId.loose h.cells.size ≠ .loose k := by
      intro he
      cases he
      omega
    rw [cells_assign_of_ne hne]
    exact Table.get?_push_of_lt _ _ hk

theorem Made.layers (hm : h.Made p h₁) (τ : StackId) : h₁.layers τ = h.layers τ := by
  rw [Heap.layers, hm.fills.layered, ← Heap.layers]

end made

end Heap

open Heap

/-- What a thread does to the heap in one move, starting from its stack. -/
inductive Thread.Move (t : Thread) (h : Heap) : Heap → Prop where
  | shared (s) : Move t h (h.withShared s)
  | assign {id} (v) (hid : ∀ k, id = .loose k → ∃ m key, h.itemId? m key = some (.loose k) ∧
      h.Within (.stack t.stack) (.loose m)) : Move t h (h.assign id v)
  | make {p h₁} (hm : h.Made p h₁) : Move t h h₁
  | insert {p h₁ m} (hm : h.Made p h₁) (hfree : h.itemId? m p.key = none)
      (hslot : h.Within (.stack t.stack) (.loose m) ∨ t.scratch = some (.loose m)) :
      Move t h (h₁.insertItem m ⟨.loose h.cells.size, p⟩)
  | layers {ls} (hls : ∀ g ∈ ls, ∀ n, h.Within g (.loose n) →
      h.Within (.stack t.stack) (.loose n)) : Move t h (h.setLayers t.stack ls)
  | pushEmpty : Move t h (h.pushEmpty t.stack).1

/-- The thread works on another stack, and its scratch layer is none of the groups. -/
structure Thread.Outside (t : Thread) (σ : StackId) (P : Nat → Prop) : Prop where
  stack : t.stack ≠ σ
  scratch : ∀ {n}, t.scratch = some (.loose n) → ¬ P n

namespace Heap.Secludes

variable {t : Thread} {h h' : Heap} {ambient : Option Group} {σ : StackId} {P : Nat → Prop}

theorem newGroup (hs : h.Secludes ambient σ P) (hf : h.Fills h') (insertable : Bool)
    {items : List Item} (hi : ∀ i ∈ items,
      ∃ k, i.id = .loose k ∧ h.cells.size ≤ k ∧ k < h'.cells.size) :
    (h'.newGroup insertable items).1.Secludes ambient σ P := by
  refine hs.grow (hf.grows.newGroup hi) ?_ ?_
  · intro τ
    exact congrArg (fun t : Table (List Group) => (t.get? τ.index).getD []) hf.layered
  · intro n key m key' k hk hn he _
    rw [itemId?_newGroup] at he
    split at he
    · next hsize =>
      have hlt := hs.groups hn
      rw [← hf.groups] at hlt
      omega
    · have hlt := hs.bounded (hf.itemId? n key ▸ he)
      omega

theorem pushEmpty (hs : h.Secludes ambient σ P) (ρ : StackId) :
    (h.pushEmpty ρ).1.Secludes ambient σ P ∧ Spared P h (h.pushEmpty ρ).1 := by
  have hg : (h.newGroup true []).1.Secludes ambient σ P :=
    hs.newGroup (.refl h) true fun _ hi => nomatch hi
  constructor
  · refine { hg with toWalled := hg.toWalled.setLayers ?_ }
    intro l hl n hn hw
    rcases List.mem_append.mp hl with hl | hl
    · exact within_stack.mpr ⟨l, hl, hw⟩
    · rw [List.mem_singleton.mp hl] at hw
      have hlt := hs.groups hn
      have he := within_plain.mp hw
      cases he
      omega
  · exact ⟨fun hn => Table.get?_push_of_lt _ _ (hs.groups hn), fun _ _ => rfl⟩

/-- Every move of every thread leaves the groups secluded, and only the thread itself touches
them. -/
theorem move (hs : h.Secludes ambient σ P) (hm : t.Move h h') :
    h'.Secludes ambient σ P ∧ (t.Outside σ P → Spared P h h') := by
  cases hm with
  | shared s => exact ⟨hs.still (fun _ => rfl) (Nat.le_refl _) rfl (Nat.le_refl _), fun _ =>
      ⟨fun _ => rfl, fun _ _ => rfl⟩⟩
  | @assign id v hid =>
    constructor
    · refine hs.still ?_ ?_ (groups_assign h id v) ?_
      · intro τ
        rw [Heap.layers, layered_assign, ← Heap.layers]
      · rw [layered_assign]
      · rw [size_cells_assign]
    · intro ht
      refine ⟨fun _ => by rw [groups_assign], ?_⟩
      intro n key k hn hk
      apply cells_assign_of_ne
      intro he
      -- an item of the groups would be reached through the stack of the thread
      obtain ⟨m, key', hk', hw⟩ := hid k he
      exact ht.stack (hs.mine (hs.unshared hn hk hk') hw)
  | make hm =>
    refine ⟨hs.still hm.layers ?_ hm.fills.groups ?_, fun _ =>
      ⟨fun _ => by rw [hm.fills.groups], ?_⟩⟩
    · rw [hm.fills.layered]
    · exact hm.fills.grows.cells
    · intro n key k hn hk
      exact hm.cells (hs.bounded hk)
  | @insert p h₁ m hm hfree hslot =>
    have hsize := hm.size
    have hg := hm.fills.insertItem (i := ⟨.loose h.cells.size, p⟩) hfree rfl (Nat.le_refl _)
      (by omega)
    constructor
    · refine hs.grow hg hm.layers ?_
      intro n key m' key' k hk hn he he'
      rw [itemId?_insertItem] at he he'
      split at he
      · next hsame =>
        obtain ⟨rfl, _⟩ := hsame
        split at he'
        · next hsame' => exact hsame'.1 ▸ hn
        · have hlt := hs.bounded (hm.fills.itemId? m' key' ▸ he')
          omega
      · have hlt := hs.bounded (hm.fills.itemId? n key ▸ he)
        omega
    · intro ht
      have hm' : ¬ P m := by
        rcases hslot with hw | hscratch
        · exact fun hn => ht.stack (hs.mine hn hw)
        · exact ht.scratch hscratch
      refine ⟨?_, fun hn hk => hm.cells (hs.bounded hk)⟩
      intro n hn
      have hne : m ≠ n := by
        rintro rfl
        exact hm' hn
      simp only [insertItem, Table.get?_modify, hne, if_false, hm.fills.groups]
  | layers hls =>
    refine ⟨{ hs with toWalled := hs.toWalled.setLayers fun g hg n _ => hls g hg n }, fun _ => ?_⟩
    exact ⟨fun _ => rfl, fun _ _ => rfl⟩
  | pushEmpty =>
    obtain ⟨hs', hspared⟩ := hs.pushEmpty t.stack
    exact ⟨hs', fun _ => hspared⟩

theorem moves (hs : h.Secludes ambient σ P) (hm : ReflTransGen t.Move h h') :
    h'.Secludes ambient σ P ∧ (t.Outside σ P → Spared P h h') := by
  induction hm with
  | refl => exact ⟨hs, fun _ => .refl h⟩
  | tail _ hm ih =>
    obtain ⟨hs₁, hspared₁⟩ := ih
    obtain ⟨hs₂, hspared₂⟩ := hs₁.move hm
    exact ⟨hs₂, fun ht => (hspared₁ ht).trans (hspared₂ ht)⟩

end Heap.Secludes

namespace Thread

variable {t : Thread} {h h' : Heap}

theorem within_part {part : Option Nat} {n : Nat} (hw : h.Within (t.part h part) (.loose n)) :
    h.Within (.stack t.stack) (.loose n) := by
  cases part with
  | none => exact hw
  | some i =>
    rw [Thread.part, List.getD_eq_getElem?_getD] at hw
    cases hl : (h.layers t.stack)[i]? with
    | some g =>
      rw [hl] at hw
      exact within_stack.mpr ⟨g, List.mem_of_getElem? hl, hw⟩
    | none =>
      rw [hl] at hw
      cases hw with
      | plain hg | object hg | layer hg => simp [Group.leaves, Group.leavesList] at hg

theorem move_found {part : Option Nat} {key : String} {i : Item}
    (hi : (h.view (t.part h part)).find h key = some i) (v : Option ObjectId) :
    t.Move h (h.assign i.id v) := by
  obtain ⟨x, hx, hf⟩ := View.find_groups hi
  refine .assign v fun k hk => ?_
  obtain ⟨m, rfl, hm⟩ := find_loose_id hf hk
  exact ⟨m, key, hm, within_part (within_of_view hx)⟩

theorem setPath_moves (part : Option Nat) {path : String} {v : ObjectId} {r : Bool}
    (hs : h.setPath (h.view (t.part h part)) path v = .ok (r, h')) :
    ReflTransGen t.Move h h' := by
  rcases setPath_cases hs with hs | ⟨_, o, key, hs⟩
  · obtain ⟨_, rfl⟩ | ⟨_, i, hi, _, rfl⟩ := setIn_cases hs
    · exact .refl
    · exact .single (move_found hi _)
  · obtain ⟨_, rfl⟩ | ⟨_, i, hi, _, rfl⟩ := setIn_cases hs
    · exact .refl
    · exact .single (.assign _ fun k hk => absurd hk (find_outside_ne_loose hi k))

theorem addTo_move {p : Property} {h₁ : Heap} (hm : h.Made p h₁) {v : View} {r : Bool}
    (hv : ∀ m, .loose m ∈ v.groups → h.Within (.stack t.stack) (.loose m))
    (ha : h₁.addTo v ⟨.loose h.cells.size, p⟩ = .ok (r, h')) : t.Move h h' := by
  unfold Heap.addTo Heap.offer at ha
  split at ha
  · cases ha
  · cases ha
    exact .make hm
  · next m hslot =>
    cases ha
    have hfree := View.slotFor_free hslot
    rw [hasKey_loose, hm.fills.itemId?, Item.key] at hfree
    exact .insert hm (by simpa using hfree) (.inl (hv m (View.slotFor_mem hslot).1))

theorem addLocal_move {key : String} {type : TypeRef} (hs : t.addLocal h key type = .ok h') :
    t.Move h h' := by
  obtain ⟨_, m, p, rfl, _, hslot, rfl⟩ := addLocal_slot hs
  have hfree := View.slotFor_free hslot
  rw [hasKey_loose, ((Fills.refl h).newItem p).itemId?] at hfree
  refine .insert (.inl rfl) (by simpa using hfree) (.inl ?_)
  have hw : (h.newItem p).1.Within (.stack t.stack) (.loose m) :=
    within_of_view (View.slotFor_mem hslot).1
  have hl : ∀ {τ g}, g ∈ (h.newItem p).1.layers τ → g ∈ h.layers τ := fun hm => hm
  exact within_loose_of_layers hl hw

theorem setReturn_moves {v : Option ObjectId} (hr : t.setReturn h v = .ok h') :
    ReflTransGen t.Move h h' := by
  cases v with
  | none =>
    cases hr
    exact .refl
  | some v =>
    obtain ⟨n, p, hn, hp, _, hfree, rfl⟩ := setReturn_ok hr
    exact .single (.insert (.inr ⟨v, rfl⟩) (hp ▸ hfree) (.inr hn))

/-- What the memory of a thread is asked for starts from its stack. -/
theorem serve_moves (t : Thread) (h : Heap) (q : Demand) :
    ReflTransGen t.Move h (q.serve t h).2 := by
  cases q with
  | shared change => exact .single (.shared _)
  | read | keys | depth | returned => exact .refl
  | set part path v =>
    simp only [Demand.serve]
    split
    · next hs => exact setPath_moves _ hs
    · exact .refl
  | put part key v =>
    simp only [Demand.serve]
    split
    · exact .refl
    · next i hi =>
      split
      · exact .single (move_found hi none)
      · next v =>
        split
        · next hstore =>
          unfold store at hstore
          split at hstore <;> cases hstore
          exact .single (move_found hi (some v))
        · exact .refl
  | add part p v =>
    obtain ⟨hm, hitem⟩ := made_filledItem h p v
    simp only [Demand.serve]
    split
    · next ha =>
      rw [hitem] at ha
      exact .single (addTo_move hm (fun m hx => within_part (within_of_view hx)) ha)
    · exact .single (.make hm)
  | push o =>
    simp only [Demand.serve]
    rcases push_cases h t.stack (.object o) with ⟨_, _, hp⟩ | ⟨_, _, _, _, hp⟩
    · rw [hp]
      refine .single (.layers fun g hg n hw => ?_)
      rcases List.mem_append.mp hg with hg | hg
      · exact within_stack.mpr ⟨g, hg, hw⟩
      · rw [List.mem_singleton.mp hg] at hw
        cases hw with
        | plain hl | layer hl => simp [Group.leaves] at hl
        | object _ ho => exact absurd ho loose_not_mem_outerGroups
    · rw [hp]
  | pushEmpty => exact .single .pushEmpty
  | pop =>
    refine .single (.layers fun g hg n hw => ?_)
    exact within_stack.mpr ⟨g, List.mem_of_mem_dropLast hg, hw⟩
  | giveBack v =>
    simp only [Demand.serve]
    split
    · next hr => exact setReturn_moves hr
    · exact .refl

theorem run_moves (t : Thread) (d : Dealing) (h : Heap) :
    ReflTransGen t.Move h (d.run t h).heap := by
  induction d generalizing h with
  | reply => exact .refl
  | ask q next ih => exact (serve_moves t h q).trans (ih _ _)

/-- What a thread does is made of moves, but for the calls that it makes. -/
theorem Act.moves {host : Host} (hh : host.Confined) {me : ObjectId} (ha : t.Act host me h h') :
    ReflTransGen t.Move h h' ∨ ∃ (inner : Call) (now : Nat), t.context.child = .ok inner.context ∧
      h' = (Script.callIn host inner ⟨h, now⟩).state.heap := by
  cases ha with
  | set hs =>
    unfold Thread.setValue at hs
    split at hs
    · cases hs
    · next hset =>
      cases hs
      exact .inl (setPath_moves none hset)
    · cases hs
  | add hs => exact .inl (.single (addLocal_move hs))
  | giveBack hs => exact .inl (setReturn_moves hs)
  | perform op held now pointer args =>
    obtain ⟨d, hd⟩ := hh op ⟨me, t, held⟩ now pointer args
    have hr : host.perform op ⟨me, t, held⟩ ⟨⟨h, now⟩, pointer⟩ args = d.run t h := hd h
    rw [hr]
    exact .inl (run_moves t d h)
  | call inner now hc => exact .inr ⟨inner, now, hc, rfl⟩

end Thread

section layout
variable {h h' b : Heap} {g : GroupId} {ambient : Option Group} {σ : StackId} {P : Nat → Prop}

theorem Script.fillInputs_cells {s : Script} {pairs : List (ScriptInput × ObjectId)}
    {items : List Item} (hf : s.fillInputs h pairs = .ok (h', items)) {k : Nat}
    (hk : k < h.cells.size) : h'.cells.get? k = h.cells.get? k := by
  induction pairs generalizing h items with
  | nil =>
    cases hf
    rfl
  | cons e pairs ih =>
    simp only [Script.fillInputs] at hf
    split at hf
    · cases hf
    · next h₁ hstore =>
      unfold store at hstore
      split at hstore <;> cases hstore
      split at hf
      · cases hf
      · next hrest =>
        cases hf
        have hm : h.Made (inputProperty e.1) _ := .inr ⟨e.2, rfl⟩
        have hlt := Nat.lt_of_lt_of_eq (Nat.lt_succ_of_lt hk) hm.size.symm
        exact (ih hrest hlt).trans (hm.cells hk)

theorem Script.inputMemory_filled {s : Script} {inputs : List ObjectId}
    (hi : s.inputMemory h inputs = .ok (b, g)) : ∃ h₁ items,
      s.fillInputs h (s.inputs.zip inputs) = .ok (h₁, items) ∧
        h₁.newGroup false items = (b, g) := by
  unfold Script.inputMemory at hi
  split at hi
  · cases hi
  · split at hi
    · cases hi
    · split at hi
      · cases hi
      · next hfill => exact ⟨_, _, hfill, Except.ok.inj hi⟩

/-- None of the layers that a call lays down leads behind the wall. -/
theorem Heap.Walled.apart (hw : h.Walled ambient σ P) {t : Thread}
    (ht : t.context.ambient = ambient) {n : Nat} (hn : ¬ P n) (me : ObjectId) :
    ∀ l ∈ t.context.ambient.toList ++ [h.memory me, .plain (.loose n)],
      ∀ m, P m → ¬ h.Within l (.loose m) := by
  intro l hl m hm hx
  simp only [List.mem_append, Option.mem_toList, List.mem_cons, List.not_mem_nil, or_false] at hl
  rcases hl with hl | rfl | rfl
  · exact hw.away l (ht ▸ hl) hm hx
  · exact not_within_memory hx
  · have he := within_plain.mp hx
    cases he
    exact hn hm

namespace Heap.Secludes

theorem inputMemory (hs : h.Secludes ambient σ P) {s : Script} {inputs : List ObjectId}
    (hi : s.inputMemory h inputs = .ok (b, g)) : b.Secludes ambient σ P ∧ Spared P h b := by
  obtain ⟨h₁, items, hfill, hnew⟩ := Script.inputMemory_filled hi
  cases hnew
  obtain ⟨hf, hitems⟩ := Script.fillInputs_ok hfill
  refine ⟨hs.newGroup hf false fun i hm => (hitems i hm).1, ?_, ?_⟩
  · intro n hn
    have hlt := hs.groups hn
    rw [← hf.groups] at hlt ⊢
    exact Table.get?_push_of_lt _ _ hlt
  · intro n key k hn hk
    exact Script.fillInputs_cells hfill (hs.bounded hk)

theorem layAll (hs : h.Secludes ambient σ P) (ρ : StackId) {gs : List Group}
    (hgs : ∀ g ∈ gs, ∀ n, P n → ¬ h.Within g (.loose n)) :
    (Thread.layAll h ρ gs).2.Secludes ambient σ P ∧ Spared P h (Thread.layAll h ρ gs).2 ∧
      (Thread.layAll h ρ gs).2.groups = h.groups := by
  induction gs generalizing h with
  | nil => exact ⟨hs, .refl h, rfl⟩
  | cons g gs ih =>
    rw [Thread.layAll]
    split
    · exact ⟨hs, .refl h, rfl⟩
    · next hd =>
      obtain ⟨_, rfl⟩ := Thread.layDown_ok hd
      have hls : ∀ l ∈ h.layers ρ ++ [g], ∀ n, P n → h.Within l (.loose n) →
          h.Within (.stack ρ) (.loose n) := by
        intro l hl n hn hw
        rcases List.mem_append.mp hl with hl | hl
        · exact within_stack.mpr ⟨l, hl, hw⟩
        · rw [List.mem_singleton.mp hl] at hw
          exact absurd hw (hgs g List.mem_cons_self n hn)
      have hs' : (h.setLayers ρ (h.layers ρ ++ [g])).Secludes ambient σ P :=
        { hs with toWalled := hs.toWalled.setLayers hls }
      obtain ⟨hlast, hspared, hgroups⟩ := ih hs' fun l hl n hn hw =>
        hgs l (List.mem_cons_of_mem g hl) n hn
          (within_loose_setLayers (fun a ha => hls a ha n hn) hw)
      exact ⟨hlast, ⟨hspared.groups, hspared.cells⟩, hgroups⟩

/-- A call lays out its thread beside what is secluded. -/
theorem buildStack (hs : h.Secludes ambient σ P) {t : Thread} (ht : t.context.ambient = ambient)
    (hσ : t.stack ≠ σ) {n : Nat} (hn : ¬ P n) (me : ObjectId) :
    (t.buildStack h me (.plain (.loose n))).2.Secludes ambient σ P ∧
      Spared P h (t.buildStack h me (.plain (.loose n))).2 ∧
      ∀ u, (t.buildStack h me (.plain (.loose n))).1 = .ok u → u.Outside σ P := by
  obtain ⟨hlaid, hspared, hgroups⟩ := hs.layAll t.stack (hs.toWalled.apart ht hn me)
  unfold Thread.buildStack
  split
  · next hlay =>
    rw [hlay] at hlaid hspared
    exact ⟨hlaid, hspared, nofun⟩
  · next h₁ hlay =>
    rw [hlay] at hlaid hspared hgroups
    obtain ⟨hlast, hspared'⟩ := hlaid.pushEmpty t.stack
    refine ⟨hlast, hspared.trans hspared', ?_⟩
    rintro _ ⟨⟩
    refine ⟨hσ, ?_⟩
    intro k hk hp
    have hlt := hlaid.groups hp
    cases hk
    exact Nat.lt_irrefl _ hlt

/-- What a call has made before it lays out its thread: a group and a stack on this side of the
wall. -/
theorem ready (hs : h.Secludes ambient σ P) {s : Script} {inputs : List ObjectId}
    (hi : s.inputMemory h inputs = .ok (b, g)) : b.newStack.1.Secludes ambient σ P ∧
      Spared P h b.newStack.1 ∧ b.newStack.2 ≠ σ ∧ ∃ n, g = .loose n ∧ ¬ P n := by
  obtain ⟨hsb, hspared⟩ := hs.inputMemory hi
  obtain ⟨_, hlayered, hg, _⟩ := Script.inputMemory_ok hi
  refine ⟨hsb.still (layers_newStack b) (by simp [newStack]) rfl (Nat.le_refl _),
    ⟨hspared.groups, hspared.cells⟩, ?_, h.groups.size, hg, ?_⟩
  · rintro rfl
    have hlt := hs.stack
    rw [← hlayered] at hlt
    exact Nat.lt_irrefl _ hlt
  · exact fun hp => Nat.lt_irrefl _ (hs.groups hp)

theorem layout {call : Call} (hs : h.Secludes call.context.ambient σ P)
    (hi : call.script.inputMemory h call.inputs = .ok (b, g)) :
    ((call.thread b.newStack.2).buildStack b.newStack.1 call.script.parent (.plain g)).2.Secludes
        call.context.ambient σ P ∧
      Spared P h ((call.thread b.newStack.2).buildStack b.newStack.1 call.script.parent
        (.plain g)).2 ∧
      ∀ t, ((call.thread b.newStack.2).buildStack b.newStack.1 call.script.parent
        (.plain g)).1 = .ok t → t.Outside σ P := by
  obtain ⟨hnew, hspared, hσ, n, rfl, hn⟩ := hs.ready hi
  obtain ⟨hlast, hspared', hout⟩ :=
    hnew.buildStack (t := call.thread b.newStack.2) rfl hσ hn call.script.parent
  exact ⟨hlast, hspared.trans hspared', hout⟩

end Heap.Secludes

end layout

section
variable {host : Host} {h h' : Heap} {σ : StackId} {P : Nat → Prop}

theorem Context.child_ambient {c c' : Context} (hc : c.child = .ok c') :
    c'.ambient = c.ambient := by
  rw [(Context.child_eq_ok.mp hc).2]

/-- At every heap that a call passes through, what is secluded from it is as it was. -/
theorem Call.Passes.secludes (hh : host.Confined) {call : Call} (hp : call.Passes host h h')
    (hs : h.Secludes call.context.ambient σ P) :
    h'.Secludes call.context.ambient σ P ∧ Spared P h h' := by
  refine Call.passes_induction
    (K := fun call h h' => h.Secludes call.context.ambient σ P →
      h'.Secludes call.context.ambient σ P ∧ Spared P h h')
    (I := fun call b t h => t.context = call.context ∧ (b.Secludes call.context.ambient σ P →
      h.Secludes call.context.ambient σ P ∧ Spared P b h ∧ t.Outside σ P)) ?_ ?_ ?_ ?_ ?_ ?_ hp hs
  · exact fun _ h hs => ⟨hs, .refl h⟩
  · intro call h b g e h' hi hb hs
    have hl := hs.layout hi
    rw [hb] at hl
    exact ⟨hl.1, hl.2.1⟩
  · intro call h t g h' hst
    refine ⟨hst.context, fun hs => ?_⟩
    obtain ⟨b, hi, hb⟩ := hst
    have hl := hs.layout hi
    rw [hb] at hl
    exact ⟨hl.1, hl.2.1, hl.2.2 t rfl⟩
  · rintro call b t h h' ⟨ht, hI⟩ hcalls hact
    refine ⟨ht, fun hs => ?_⟩
    obtain ⟨hsh, hspared, hout⟩ := hI hs
    rcases hact.moves hh with hm | ⟨inner, now, hc, rfl⟩
    · obtain ⟨hsh', hspared'⟩ := hsh.moves hm
      exact ⟨hsh', hspared.trans (hspared' hout), hout⟩
    · rw [← ht, ← Context.child_ambient hc] at hsh ⊢
      obtain ⟨hsh', hspared'⟩ := hcalls inner hc _ (callIn_passes inner ⟨h, now⟩) hsh
      exact ⟨hsh', hspared.trans hspared', hout⟩
  · rintro call b t h ⟨_, hI⟩ hs
    obtain ⟨hsh, hspared, _⟩ := hI hs
    exact ⟨hsh, hspared⟩
  · rintro call b t h inner h' ⟨ht, hI⟩ hc hK hs
    obtain ⟨hsh, hspared, _⟩ := hI hs
    rw [← ht, ← Context.child_ambient hc] at hsh ⊢
    obtain ⟨hsh', hspared'⟩ := hK hsh
    exact ⟨hsh', hspared.trans hspared'⟩

theorem Heap.Secludes.acts (hh : host.Confined) {t : Thread} {me : ObjectId}
    (hs : h.Secludes t.context.ambient σ P) (ha : t.Acts host me h h') :
    h'.Secludes t.context.ambient σ P := by
  induction ha with
  | refl => exact hs
  | @tail h₁ h₂ _ hact ih =>
    rcases hact.moves hh with hm | ⟨inner, now, hc, rfl⟩
    · exact (ih.moves hm).1
    · rw [← Context.child_ambient hc] at ih ⊢
      exact ((callIn_passes inner ⟨h₁, now⟩).secludes hh ih).1

/-- The groups have the same keys and the same items, and these hold the same values. -/
def Heap.SameIn (P : Nat → Prop) (h h' : Heap) : Prop :=
  ∀ n, P n → ∀ key, h'.hasKey (.loose n) key = h.hasKey (.loose n) key ∧
    h'.find (.loose n) key = h.find (.loose n) key ∧
    ∀ i, h.find (.loose n) key = some i → h'.value? i.id = h.value? i.id

theorem Heap.Spared.sameIn {ambient : Option Group} (hs : h.Secludes ambient σ P)
    (hsp : h.Spared P h') : h.SameIn P h' := by
  intro n hn key
  refine ⟨by simp only [hasKey, hsp.groups hn], ?_, ?_⟩
  · rw [find_loose, find_loose, hsp.itemId? hn]
    cases hid : h.itemId? n key with
    | none => rfl
    | some id =>
      obtain ⟨k, rfl⟩ := hs.loose hn hid
      simp only [Option.bind_some, item?, hsp.cells hn hid]
  · intro i hi
    rw [find_loose] at hi
    obtain ⟨id, hid, hitem⟩ := Option.bind_eq_some_iff.mp hi
    obtain ⟨k, rfl⟩ := hs.loose hn hid
    rw [item?_id hitem]
    simp only [value?, hsp.cells hn hid]

end

section start
variable {h h' : Heap} {ambient : Option Group} {σ : StackId}

/-- What was made since an earlier heap is secluded by the one stack that was made since. -/
theorem Heap.secludes_new (hs : h.Sound) (hs' : h'.Sound) (hg : h.Grows h')
    (hold : ∀ {m}, m < h.groups.size → h'.groups.get? m = h.groups.get? m)
    (ha : ∀ a ∈ ambient, h.Knows a) (hσ : σ.index < h'.layered.size)
    (hone : ∀ {τ : StackId}, h.layered.size ≤ τ.index → τ.index < h'.layered.size → τ = σ) :
    h'.Secludes ambient σ fun n => h.groups.size ≤ n ∧ n < h'.groups.size := by
  have hfresh : ∀ {l n}, h.Knows l → h.groups.size ≤ n → ¬ h'.Within l (.loose n) := by
    intro l n hk hn hw
    have hlt : n < h.groups.size := hs.hasLeaf hk ((hg.within_iff hs hk).mp hw)
    omega
  obtain ⟨rank, hs⟩ := hs
  obtain ⟨rank', hs'⟩ := hs'
  have hnew : ∀ {n key id}, h.groups.size ≤ n → h'.itemId? n key = some id →
      ∃ k, id = .loose k ∧ h.cells.size ≤ k := by
    intro n key id hn hid
    rcases hg.fresh hid with hid | ⟨k, hk, hle, _⟩
    · rw [itemId?_eq_none hn] at hid
      cases hid
    · exact ⟨k, hk, hle⟩
  refine ⟨⟨hσ, fun hn => hn.2, fun a hm n hn => hfresh (ha a hm) hn.1, ?_⟩, hs'.items, ?_, ?_⟩
  · intro τ n hn hw
    rcases Nat.lt_or_ge τ.index h.layered.size with hτ | hτ
    · exact (hfresh (knows_stack hτ) hn.1 hw).elim
    · obtain ⟨l, hl, _⟩ := within_stack.mp hw
      exact hone hτ (lt_of_mem_layers hl)
  · intro n key id hn hid
    obtain ⟨k, hk, _⟩ := hnew hn.1 hid
    exact ⟨k, hk⟩
  · intro n key m key' k hn hk hk'
    obtain ⟨j, hj, hle⟩ := hnew hn.1 hk
    cases hj
    constructor
    · -- the old groups hold old cells
      by_contra hm
      rw [itemId?, hold (Nat.lt_of_not_le hm), ← itemId?] at hk'
      have hlt := hs.items hk'
      omega
    · by_contra hm
      rw [itemId?_eq_none (Nat.le_of_not_lt hm)] at hk'
      cases hk'

theorem Heap.Secludes.congr {P Q : Nat → Prop} (hs : h.Secludes ambient σ P)
    (hq : ∀ n, Q n ↔ P n) : h.Secludes ambient σ Q := by
  rwa [show Q = P from funext fun n => propext (hq n)]

/-- The two layers that a call made for its thread: that of the inputs and that of the locals. -/
def Thread.Layer (t : Thread) (g : GroupId) (n : Nat) : Prop :=
  g = .loose n ∨ t.scratch = some (.loose n)

/-- A thread starts with its layers behind the wall of its own stack. -/
theorem Call.Starts.secludes {call : Call} {t : Thread} {g : GroupId} (hs : h.Sound)
    (ha : ∀ a ∈ call.context.ambient, h.Knows a) (hst : call.Starts h t g h') :
    h'.Secludes t.context.ambient t.stack (t.Layer g) := by
  rw [hst.context]
  obtain ⟨b, hi, hb⟩ := hst
  have hf := Call.fed (m := ⟨h, 0⟩) hs ha hi
  have hkeeps := (Call.keeps_layout hi).1
  rw [hb] at hkeeps
  unfold Thread.buildStack at hb
  split at hb
  · cases hb
  · next h₁ hlay =>
    have hl := hf.laying hlay
    have hout := hl.pushEmpty hf.sound hf.knows
    have hsize := hf.size
    have hlayered := hl.size
    rw [← hl.groups] at hsize
    rw [hf.layered] at hlayered
    have hstacks : (h₁.pushEmpty ⟨b.layered.size⟩).1.layered.size = h.layered.size + 1 :=
      (size_layered_setLayers _ _ _).trans hlayered
    cases hb
    refine (secludes_new hs hout.sound (hf.quiet.grows.trans hout.quiet.grows) hkeeps.groups ha
      hout.stack ?_).congr ?_
    · intro τ hτ hlt
      have hi : τ.index = b.layered.size := by
        rw [hf.layered]
        exact Nat.le_antisymm (Nat.le_of_lt_succ (Nat.lt_of_lt_of_eq hlt hstacks)) hτ
      exact congrArg StackId.mk hi
    · intro n
      have hgroups : (h₁.pushEmpty ⟨b.layered.size⟩).1.groups.size = h.groups.size + 2 :=
        (Table.size_push _ _).trans (congrArg Nat.succ hsize)
      change _ ↔ h.groups.size ≤ n ∧ n < (h₁.pushEmpty ⟨b.layered.size⟩).1.groups.size
      simp only [Thread.Layer, hf.group, hsize, hgroups, GroupId.loose.injEq, Option.some.injEq]
      omega

end start

end GuardedScript
