import Mathlib.Data.Finset.Card
import GuardedScript.Proofs.HeapSteps

/-!
Views of a heap in order. A look-up asks the plain groups of a view one after the other, so what it
finds depends on those groups only; whether a key is found, is listed and is there comes to the
same. Stacks are nested less deep than there are stacks, so the view of a stack consists of the
views of its layers, whatever lies in them.
-/

namespace GuardedScript

open Relation

namespace View

mutual

/-- The plain groups of a view in the order in which they are asked for a key. -/
def order : View → List GroupId
  | .plain g => [g]
  | .linked parts => orderFirst parts
  | .writable parts target => orderFirst parts ++ order target
  | .layered layers => orderLast layers

def orderFirst : List View → List GroupId
  | [] => []
  | v :: rest => order v ++ orderFirst rest

def orderLast : List View → List GroupId
  | [] => []
  | v :: rest => orderLast rest ++ order v

end

section
variable (h : Heap) (key : String)

mutual

theorem find_eq : ∀ v : View, v.find h key = v.order.findSome? (h.find · key)
  | .plain g => by
    rw [View.find, order, List.findSome?_singleton]
  | .linked parts => by rw [View.find, order, findFirst_eq parts]
  | .writable parts target => by
    rw [View.find, order, List.findSome?_append, findFirst_eq parts, find_eq target]
  | .layered layers => by rw [View.find, order, findLast_eq layers]

theorem findFirst_eq : ∀ vs : List View,
    View.findFirst h key vs = (orderFirst vs).findSome? (h.find · key)
  | [] => by rw [View.findFirst, orderFirst, List.findSome?_nil]
  | v :: vs => by
    rw [View.findFirst, orderFirst, List.findSome?_append, find_eq v, findFirst_eq vs]

theorem findLast_eq : ∀ vs : List View,
    View.findLast h key vs = (orderLast vs).findSome? (h.find · key)
  | [] => by rw [View.findLast, orderLast, List.findSome?_nil]
  | v :: vs => by
    rw [View.findLast, orderLast, List.findSome?_append, find_eq v, findLast_eq vs]

end

mutual

theorem keys_eq : ∀ v : View, v.keys h = v.groups.flatMap fun x => (h.items x).map Item.property
  | .plain g => by simp [keys, groups]
  | .linked parts => by rw [keys, groups, keysList_eq parts]
  | .writable parts target => by
    rw [keys, groups, List.flatMap_append, keysList_eq parts, keys_eq target]
  | .layered layers => by rw [keys, groups, keysList_eq layers]

theorem keysList_eq : ∀ vs : List View,
    View.keysList h vs = (groupsList vs).flatMap fun x => (h.items x).map Item.property
  | [] => by rw [View.keysList, groupsList, List.flatMap_nil]
  | v :: vs => by
    rw [View.keysList, groupsList, List.flatMap_append, keys_eq v, keysList_eq vs]

end

end

mutual

theorem mem_order {x : GroupId} : ∀ v : View, x ∈ v.order ↔ x ∈ v.groups
  | .plain g => by rw [order, groups]
  | .linked parts => by rw [order, groups, mem_orderFirst parts]
  | .writable parts target => by
    rw [order, groups, List.mem_append, List.mem_append, mem_orderFirst parts, mem_order target]
  | .layered layers => by rw [order, groups, mem_orderLast layers]

theorem mem_orderFirst {x : GroupId} : ∀ vs : List View, x ∈ orderFirst vs ↔ x ∈ groupsList vs
  | [] => by rw [orderFirst, groupsList]
  | v :: vs => by
    rw [orderFirst, groupsList, List.mem_append, List.mem_append, mem_order v, mem_orderFirst vs]

theorem mem_orderLast {x : GroupId} : ∀ vs : List View, x ∈ orderLast vs ↔ x ∈ groupsList vs
  | [] => by rw [orderLast, groupsList]
  | v :: vs => by
    rw [orderLast, groupsList, List.mem_append, List.mem_append, mem_order v, mem_orderLast vs,
      or_comm]

end

/-- What is found depends on the groups of the view alone. -/
theorem find_congr {h h' : Heap} {key : String} {v : View}
    (hv : ∀ x ∈ v.groups, h'.find x key = h.find x key) : v.find h' key = v.find h key := by
  rw [find_eq, find_eq]
  have main : ∀ l : List GroupId, (∀ x ∈ l, h'.find x key = h.find x key) →
      l.findSome? (h'.find · key) = l.findSome? (h.find · key) := by
    intro l
    induction l with
    | nil => exact fun _ => rfl
    | cons x l ih =>
      intro hl
      obtain ⟨hx, hl⟩ := List.forall_mem_cons.mp hl
      rw [List.findSome?_cons, List.findSome?_cons, hx, ih hl]
  exact main v.order fun x hx => hv x ((mem_order v).mp hx)

theorem find_isSome_iff {h : Heap} {key : String} {v : View} :
    (v.find h key).isSome ↔ ∃ x ∈ v.groups, (h.find x key).isSome := by
  rw [find_eq, List.findSome?_isSome_iff]
  exact exists_congr fun x => and_congr_left fun _ => mem_order v

theorem groupsList_eq_flatMap (vs : List View) : groupsList vs = vs.flatMap groups := by
  induction vs with
  | nil => rfl
  | cons v vs ih => rw [groupsList, ih, List.flatMap_cons]

end View

theorem Assoc.mem_of_get? {κ α : Type} [DecidableEq κ] {m : Assoc κ α} {k : κ} {a : α}
    (hg : m.get? k = some a) : (k, a) ∈ m.entries := by
  obtain ⟨l⟩ := m
  replace hg : Assoc.find k l = some a := hg
  induction l with
  | nil => cases hg
  | cons e l ih =>
    obtain ⟨j, b⟩ := e
    rw [Assoc.find] at hg
    split at hg
    · next hj =>
      cases hg
      exact hj ▸ List.mem_cons_self
    · exact List.mem_cons_of_mem _ (ih hg)

namespace Heap

variable {h h' : Heap} {x : GroupId} {key : String}

theorem Proper.find_isSome (hp : h.Proper) : (h.find x key).isSome = h.hasKey x key := by
  cases x with
  | fields o v => rw [find, hasKey, Option.isSome_map, withKey_isSome]
  | statics r t v => rw [find, hasKey, Option.isSome_map, withKey_isSome]
  | loose n =>
    rw [hasKey_loose, find_loose]
    cases he : h.itemId? n key with
    | none => rfl
    | some id =>
      obtain ⟨g, hg, hid⟩ := Option.bind_eq_some_iff.mp he
      obtain ⟨i, hi, _⟩ := hp.keyed hg (Assoc.mem_of_get? hid)
      rw [Option.bind_some, hi]
      rfl

theorem Proper.mem_items (hp : h.Proper) :
    key ∈ (h.items x).map Item.key ↔ h.hasKey x key = true := by
  cases x with
  | fields o v => simp [items, hasKey, Item.key, fieldItem]
  | statics r t v => simp [items, hasKey, Item.key, staticItem]
  | loose n =>
    cases hg : h.groups.get? n with
    | none => simp [items, hasKey, hg]
    | some g =>
      simp only [items, hasKey, hg, Option.any_some, Assoc.contains_iff, Assoc.values, Assoc.keys,
        List.mem_map, List.mem_filterMap]
      constructor
      · rintro ⟨i, ⟨id, ⟨e, he, rfl⟩, hi⟩, rfl⟩
        obtain ⟨j, hj, hk⟩ := hp.keyed hg he
        rw [hi] at hj
        cases hj
        exact ⟨e, he, hk.symm⟩
      · rintro ⟨e, he, rfl⟩
        obtain ⟨i, hi, hk⟩ := hp.keyed hg he
        exact ⟨i, ⟨e.2, ⟨e, he, rfl⟩, hi⟩, hk⟩

theorem Proper.mem_keyNames (hp : h.Proper) {v : View} :
    key ∈ v.keyNames h ↔ v.contains h key = true := by
  rw [View.keyNames, View.keys_eq, View.contains_iff, List.map_flatMap, List.mem_flatMap]
  refine exists_congr fun x => and_congr_right fun _ => ?_
  rw [List.map_map]
  exact hp.mem_items

/-- The number of stacks inside a stack bounds how deep it is. -/
theorem Proper.exists_rank (hp : h.Proper) : ∃ rank : StackId → Nat,
    (∀ {τ σ}, h.Inside τ σ → rank τ < rank σ) ∧
      ∀ {σ}, σ.index < h.layered.size → rank σ < h.layered.size := by
  classical
  let below (σ : StackId) : Finset Nat :=
    (Finset.range h.layered.size).filter fun n => TransGen h.Inside ⟨n⟩ σ
  have hself : ∀ σ, σ.index ∉ below σ := by
    intro σ hσ
    have hcycle := (Finset.mem_filter.mp hσ).2
    exact hp.nesting.transGen.asymmetric σ σ hcycle hcycle
  refine ⟨fun σ => (below σ).card, ?_, ?_⟩
  · intro τ σ hin
    apply Finset.card_lt_card
    rw [Finset.ssubset_iff_of_subset]
    · obtain ⟨g, hg, hτ⟩ := hin
      have hlt := (hp.grounded hg).layered hτ
      refine ⟨τ.index, Finset.mem_filter.mpr ⟨Finset.mem_range.mpr hlt, ?_⟩, hself τ⟩
      exact .single ⟨g, hg, hτ⟩
    · intro n hn
      obtain ⟨hlt, hbelow⟩ := Finset.mem_filter.mp hn
      exact Finset.mem_filter.mpr ⟨hlt, hbelow.tail hin⟩
  · intro σ hσ
    have hcard : (below σ).card < (Finset.range h.layered.size).card := by
      apply Finset.card_lt_card
      rw [Finset.ssubset_iff_of_subset (Finset.filter_subset _ _)]
      exact ⟨σ.index, Finset.mem_range.mpr hσ, hself σ⟩
    rwa [Finset.card_range] at hcard

end Heap

section
variable {h h' : Heap} {f f' : StackId → View}

theorem Group.openList_eq_map (gs : List Group) :
    Group.openList h f gs = gs.map (Group.openWith h f) := by
  induction gs with
  | nil => rfl
  | cons g gs ih => rw [Group.openList, ih, List.map_cons]

mutual

/-- The view of a group depends on what its stacks and objects show. -/
theorem Group.openWith_congr : ∀ g : Group,
    (∀ o, .object o ∈ g.leaves → h'.outerGroups o = h.outerGroups o) →
      (∀ τ, .stack τ ∈ g.leaves → f' τ = f τ) → g.openWith h' f' = g.openWith h f
  | .plain g, _, _ => by rw [Group.openWith, Group.openWith]
  | .linked gs, ho, hf => by
    rw [Group.openWith, Group.openWith, Group.openList_congr gs ho hf]
  | .writable gs target, ho, hf => by
    have hgs := Group.openList_congr gs (fun o h => ho o (List.mem_append_left _ h))
      fun τ hτ => hf τ (List.mem_append_left _ hτ)
    have htarget := Group.openWith_congr target (fun o h => ho o (List.mem_append_right _ h))
      fun τ hτ => hf τ (List.mem_append_right _ hτ)
    rw [Group.openWith, Group.openWith, hgs, htarget]
  | .stack τ, _, hf => by
    rw [Group.openWith, Group.openWith]
    exact hf τ (by simp [Group.leaves])
  | .object o, ho, _ => by rw [Group.openWith, Group.openWith, ho o (by simp [Group.leaves])]

theorem Group.openList_congr : ∀ gs : List Group,
    (∀ o, .object o ∈ Group.leavesList gs → h'.outerGroups o = h.outerGroups o) →
      (∀ τ, .stack τ ∈ Group.leavesList gs → f' τ = f τ) →
        Group.openList h' f' gs = Group.openList h f gs
  | [], _, _ => by rw [Group.openList, Group.openList]
  | g :: gs, ho, hf => by
    have hg := Group.openWith_congr g (fun o h => ho o (List.mem_append_left _ h))
      fun τ hτ => hf τ (List.mem_append_left _ hτ)
    have hgs := Group.openList_congr gs (fun o h => ho o (List.mem_append_right _ h))
      fun τ hτ => hf τ (List.mem_append_right _ hτ)
    rw [Group.openList, Group.openList, hg, hgs]

end

end

namespace Heap

variable {h h' : Heap}

/-- Stacks that lead only to unchanged ones look the same. -/
theorem view_congr {S : StackId → Prop} (ho : ∀ o, h'.outerGroups o = h.outerGroups o)
    (hsize : h'.layered.size = h.layered.size)
    (hS : ∀ τ, S τ → h'.layers τ = h.layers τ ∧ ∀ ρ, h.Inside ρ τ → S ρ) {g : Group}
    (hg : ∀ τ, .stack τ ∈ g.leaves → S τ) : h'.view g = h.view g := by
  have main : ∀ fuel τ, S τ → h'.stackView fuel τ = h.stackView fuel τ := by
    intro fuel
    induction fuel with
    | zero => exact fun _ _ => rfl
    | succ fuel ih =>
      intro τ hτ
      obtain ⟨hlayers, hdown⟩ := hS τ hτ
      rw [stackView, stackView, hlayers]
      refine congrArg View.layered (Group.openList_congr _ (fun o _ => ho o) fun ρ hρ =>
        ih ρ (hdown ρ ?_))
      obtain ⟨a, ha, hl⟩ := Group.mem_leavesList.mp hρ
      exact ⟨a, ha, hl⟩
  rw [view, view, hsize]
  exact Group.openWith_congr g (fun o _ => ho o) fun τ hτ => main _ τ (hg τ hτ)

/-- A stack is seen as its layers are seen. -/
theorem Proper.view_stack (hp : h.Proper) (σ : StackId) :
    h.view (.stack σ) = .layered ((h.layers σ).map h.view) := by
  obtain ⟨rank, hlt, hbound⟩ := hp.exists_rank
  have stable : ∀ fuel τ, rank τ < fuel → h.stackView fuel τ = h.stackView (fuel + 1) τ := by
    intro fuel
    induction fuel with
    | zero => exact fun _ hr => absurd hr (Nat.not_lt_zero _)
    | succ fuel ih =>
      intro τ hr
      rw [stackView, stackView]
      refine congrArg View.layered (Group.openList_congr _ (fun _ _ => rfl) fun ρ hρ => ih ρ ?_)
      obtain ⟨a, ha, hl⟩ := Group.mem_leavesList.mp hρ
      have hin := hlt ⟨a, ha, hl⟩
      omega
  rw [view, Group.openWith]
  rcases Nat.lt_or_ge σ.index h.layered.size with hσ | hσ
  · have hr := hbound hσ
    cases hd : h.layered.size with
    | zero => omega
    | succ depth =>
      rw [stackView, Group.openList_eq_map]
      refine congrArg View.layered (List.map_congr_left fun g hg => ?_)
      rw [view, hd]
      refine Group.openWith_congr g (fun _ _ => rfl) fun τ hτ => stable depth τ ?_
      have hin := hlt ⟨g, hg, hτ⟩
      omega
  · rw [layers_eq_nil hσ]
    cases h.layered.size with
    | zero => rfl
    | succ depth => rw [stackView, layers_eq_nil hσ, Group.openList, List.map_nil]

theorem Fits.view_setLayers {σ : StackId} {g : Group} (hf : h.Fits σ g) (ls : List Group) :
    (h.setLayers σ ls).view g = h.view g := by
  refine view_congr (S := fun τ => ¬ ReflTransGen h.Inside σ τ) ?_
    (size_layered_setLayers h σ ls) ?_ hf
  · exact fun _ => rfl
  intro τ hτ
  constructor
  · have hne : ¬ τ = σ := by
      rintro rfl
      exact hτ .refl
    rcases Nat.lt_or_ge σ.index h.layered.size with hσ | hσ
    · rw [layers_setLayers hσ, if_neg hne]
    · have hi : ¬ σ.index = τ.index := fun hi => hne (by cases σ; cases τ; exact congrArg _ hi.symm)
      simp [layers, Heap.setLayers, Table.get?_modify, hi]
  · exact fun ρ hρ hσρ => hτ (hσρ.tail hρ)

/-- Changes to items and groups leave the views as they are. -/
theorem view_eq (ho : ∀ o, h'.outerGroups o = h.outerGroups o) (hl : h'.layered = h.layered)
    (g : Group) : h'.view g = h.view g := by
  refine view_congr (S := fun _ => True) ho (by rw [hl]) ?_ fun _ _ => trivial
  intro τ _
  rw [layers, hl]
  exact ⟨rfl, fun _ _ => trivial⟩

theorem Proper.lt_of_mem_groups (hp : h.Proper) {g : Group} (hg : h.Grounded g) {n : Nat}
    (hx : .loose n ∈ (h.view g).groups) : n < h.groups.size := by
  have hw := within_of_view hx
  generalize hy : GroupId.loose n = y at hw
  clear hx
  induction hw with
  | plain hl => exact hg.groups (hy ▸ hl)
  | object _ hx => exact absurd (hy ▸ hx) loose_not_mem_outerGroups
  | layer _ hl _ ih => exact ih (hp.grounded hl) hy

end Heap

end GuardedScript
