import GuardedScript.Memory.Path
import GuardedScript.Proofs.HeapSteps
import GuardedScript.Proofs.Substitution

/-!
Paths along promised properties. If the type of each item on a path promises the next segment, no
segment is missing: whichever subtypes the objects on the way are of, the path leads to an item with
the property that was promised last, unless an item on the way is empty or may not be read.
-/

namespace GuardedScript

/-- Properties of which each is promised by the type of the one before. -/
inductive Registry.Promises (r : Registry) : TypeRef → List Property → Prop where
  | nil (t) : Promises r t []
  | cons {t p ps} (hp : p ∈ r.promised t) (hps : Promises r p.type ps) : Promises r t (p :: ps)

/-- All objects are of concrete types of the registry, and whatever an item holds is of its type. -/
structure Heap.TypedBy (h : Heap) (r : Registry) : Prop where
  objects : ∀ {o x}, h.object? o = some x → h.registry x.registry = r ∧ r.IsConcrete x.type
  values : ∀ {id i v}, h.item? id = some i → h.value? id = some v →
    h.isA v i.property.type = true

namespace Heap

variable {h : Heap} {r : Registry} {path : String} {i : Item}

/-- The item is empty or may not be read, and the error says so. -/
def Blocked (h : Heap) (path : String) (i : Item) (e : MemoryError) : Prop :=
  i.property.flags.readable = false ∧ e = .notReadable i.key ∨
    i.property.flags.readable = true ∧ h.value? i.id = none ∧ e = .nullReference path i.key

theorem holder_eq_ok {o : ObjectId} : h.holder i path = .ok o ↔
    i.property.flags.readable = true ∧ h.value? i.id = some o := by
  unfold holder
  by_cases hr : i.property.flags.readable = true
  · rw [if_pos hr]
    cases h.value? i.id <;> simp [hr]
  · rw [if_neg hr]
    simp [hr]

theorem holder_blocked {e : MemoryError} (he : h.holder i path = .error e) :
    h.Blocked path i e := by
  unfold holder at he
  split at he
  · next hr =>
    split at he <;> cases he
    next hv => exact .inr ⟨hr, hv, rfl⟩
  · next hr =>
    cases he
    exact .inl ⟨Bool.eq_false_of_not_eq_true hr, rfl⟩

/-- On the object that an item holds, each promise of the item's type is kept. -/
theorem TypedBy.next (ht : h.TypedBy r) (ho : r.Orderly) (hi : h.item? i.id = some i)
    {o : ObjectId} (hv : h.value? i.id = some o) {p : Property}
    (hp : p ∈ r.promised i.property.type) :
    ∃ j, (h.outside o).find h p.key = some j ∧ j.property = p := by
  have hisA := ht.values hi hv
  unfold isA at hisA
  split at hisA
  · next x hx =>
    obtain ⟨hr, hc⟩ := ht.objects hx
    rw [hr] at hisA
    have hmem := ho.keeps_promised hc hisA hp
    rw [← hr] at ho hc hmem
    exact outside_find_exposed ho hx hc hmem
  · cases hisA

/-- The text of a path matters to its errors only. -/
theorem walk_ok_congr {segments : List String} {j : Item} (path' : String)
    (hw : h.walk path segments i = .ok j) : h.walk path' segments i = .ok j := by
  induction segments generalizing i with
  | nil => exact hw
  | cons s segments ih =>
    rw [walk] at hw ⊢
    split at hw
    · cases hw
    · next o ho =>
      rw [holder_eq_ok.mpr (holder_eq_ok.mp ho)]
      dsimp only
      split at hw
      · cases hw
      · exact ih hw

/-- The induction is on the promises: the item that is found for one of them is of the type that
makes the next. -/
theorem TypedBy.walk (ht : h.TypedBy r) (ho : r.Orderly) {ps : List Property}
    (hi : h.item? i.id = some i) (hps : r.Promises i.property.type ps) (path : String) :
    (∃ j, h.walk path (ps.map Property.key) i = .ok j ∧ j.property = ps.getLastD i.property) ∨
      ∃ n < ps.length, ∃ j e, h.walk path ((ps.map Property.key).take n) i = .ok j ∧
        (i.property :: ps)[n]? = some j.property ∧ h.Blocked path j e ∧
        h.walk path (ps.map Property.key) i = .error e := by
  induction ps generalizing i with
  | nil => exact .inl ⟨i, rfl, rfl⟩
  | cons p ps ih =>
    obtain ⟨hp, hps⟩ : p ∈ r.promised i.property.type ∧ r.Promises p.type ps := by
      cases hps with
      | cons hp hps => exact ⟨hp, hps⟩
    cases hh : h.holder i path with
    | error e =>
      right
      refine ⟨0, Nat.zero_lt_succ _, i, e, rfl, rfl, holder_blocked hh, ?_⟩
      rw [List.map_cons, Heap.walk, hh]
    | ok o =>
      obtain ⟨j, hj, rfl⟩ := ht.next ho hi (holder_eq_ok.mp hh).2 hp
      have hstep : ∀ segments, h.walk path (j.property.key :: segments) i =
          h.walk path segments j := by
        intro segments
        simp only [Heap.walk, hh, hj]
      rcases ih (item?_of_viewFind hj) hps with ⟨k, hw, hk⟩ | ⟨n, hn, k, e, hw, hk, hb, he⟩
      · left
        refine ⟨k, ?_, ?_⟩
        · rw [List.map_cons, hstep, hw]
        · rw [hk, List.getLastD_cons]
      · right
        refine ⟨n + 1, Nat.succ_lt_succ hn, k, e, ?_, ?_, hb, ?_⟩
        · rw [List.map_cons, List.take_succ_cons, hstep, hw]
        · rw [List.getElem?_cons_succ, hk]
        · rw [List.map_cons, hstep, he]

/-- A path of good segments starts at the group and goes on from there. -/
theorem resolvePath_dotted {v : View} {first : String} {rest : List String}
    (hk : ∀ k ∈ first :: rest, k ≠ "" ∧ '.' ∉ k.toList) (hi : v.find h first = some i) :
    h.resolvePath v (Text.dotted (first :: rest)) =
      h.walk (Text.dotted (first :: rest)) rest i := by
  have hs : Text.segments (Text.dotted (first :: rest)) = first :: rest :=
    Text.segments_dotted (List.cons_ne_nil _ _) fun k hm => (hk k hm).2
  have hfull : "" ∉ first :: rest := fun hm => (hk "" hm).1 rfl
  rw [resolvePath, hs, if_neg hfull]
  simp only [hi]

end Heap

/-- In a heap with objects of one registry, whatever was asked of it, and with values that fit, let
a group hold an item and let properties be promised from the item's type on, one after the other.
The path along their keys leads to an item that carries the last of the properties. If not, then a
shorter path leads to an item that carries the property promised there, and this item may not be
read or holds nothing; this is the error, and no segment is missing. -/
theorem promised_paths_resolve (qs : List Request) {h : Heap} (ht : h.TypedBy (Registry.built qs))
    (g : Group) {first : String} {i : Item} (hi : (h.view g).find h first = some i)
    {ps : List Property} (hps : (Registry.built qs).Promises i.property.type ps)
    (hk : ∀ k ∈ first :: ps.map Property.key, k ≠ "" ∧ '.' ∉ k.toList) :
    let keys := first :: ps.map Property.key
    let path := Text.dotted keys
    (∃ j, h.resolvePath (h.view g) path = .ok j ∧ j.property = ps.getLastD i.property) ∨
    ∃ n < ps.length, ∃ j, h.resolvePath (h.view g) (Text.dotted (keys.take (n + 1))) = .ok j ∧
      (i.property :: ps)[n]? = some j.property ∧
      (j.property.flags.readable = false ∧
          h.resolvePath (h.view g) path = .error (.notReadable j.key) ∨
        j.property.flags.readable = true ∧ h.value? j.id = none ∧
          h.resolvePath (h.view g) path = .error (.nullReference path j.key)) := by
  intro keys path
  have ho := Registry.built_orderly qs
  have hpath : h.resolvePath (h.view g) path = h.walk path (ps.map Property.key) i :=
    Heap.resolvePath_dotted hk hi
  rcases ht.walk ho (Heap.item?_of_viewFind hi) hps path with
    ⟨j, hw, hj⟩ | ⟨n, hn, j, e, hw, hj, hb, he⟩
  · left
    exact ⟨j, hpath.trans hw, hj⟩
  · right
    refine ⟨n, hn, j, ?_, hj, ?_⟩
    · rw [List.take_succ_cons, Heap.resolvePath_dotted _ hi]
      · exact Heap.walk_ok_congr _ hw
      · intro k hm
        apply hk k
        rw [← List.take_succ_cons] at hm
        exact List.mem_of_mem_take hm
    · rw [hpath, he]
      rcases hb with ⟨hr, rfl⟩ | ⟨hr, hv, rfl⟩
      · exact .inl ⟨hr, rfl⟩
      · exact .inr ⟨hr, hv, rfl⟩

namespace Kennel

def pet : Property := ⟨"pet", ⟨1⟩, {}⟩

/-- The dog is held by an item of which only the contract at the top is known. -/
def visited : Heap :=
  { heap with
    cells := Table.empty.push ⟨pet, some ⟨0⟩⟩
    groups := Table.empty.push ⟨false, .ofList [("pet", .loose 0)]⟩ }

theorem visited_object {o : ObjectId} {x : Object} (hx : visited.object? o = some x) :
    x = ⟨⟨0⟩, ⟨5⟩, ⟨["Dog"], by decide, by decide⟩, none, {}, none⟩ := by
  simp only [Heap.object?, visited, heap, Table.get?_push] at hx
  split at hx <;> cases hx
  rfl

theorem visited_typed : visited.TypedBy (Registry.built requests) := by
  constructor
  · intro o x hx
    rw [visited_object hx]
    exact ⟨rfl, _, rfl⟩
  · intro id i v hi hv
    cases id with
    | field o w key =>
      obtain ⟨x, hx, hf⟩ := Option.bind_eq_some_iff.mp hv
      rw [visited_object hx] at hf
      cases hf
    | static r t w key => cases hv
    | loose n =>
      simp only [Heap.item?, Heap.value?, visited, Table.get?_push] at hi hv
      by_cases hn : n = (Table.empty : Table Cell).size
      · rw [if_pos hn] at hi hv
        cases hi
        cases hv
        cbv
      · rw [if_neg hn] at hi
        cases hi

theorem pet_promises_owner : (Registry.built requests).Promises ⟨1⟩ [owner] :=
  .cons (by decide) (.nil _)

end Kennel

/-- The contract promises the owner, and the path finds it among the statics of the dog's parent. -/
theorem owner_found_through_contract :
    (Kennel.visited.view (.plain (.loose 0))).find Kennel.visited "pet" =
      some ⟨.loose 0, Kennel.pet⟩ ∧
    Kennel.owner ∈ (Registry.built Kennel.requests).promised Kennel.pet.type ∧
    ∃ j, Kennel.visited.resolvePath (Kennel.visited.view (.plain (.loose 0))) "pet.owner" = .ok j ∧
      j.property = Kennel.owner := by
  have hpet : (Kennel.visited.view (.plain (.loose 0))).find Kennel.visited "pet" =
      some ⟨.loose 0, Kennel.pet⟩ := by cbv
  refine ⟨hpet, by decide, ?_⟩
  have hkeys : ∀ k ∈ "pet" :: [Kennel.owner].map Property.key, k ≠ "" ∧ '.' ∉ k.toList := by decide
  rcases promised_paths_resolve Kennel.requests Kennel.visited_typed (.plain (.loose 0)) hpet
    Kennel.pet_promises_owner hkeys with hfound | ⟨n, hn, j, hj, hp, hb⟩
  · exact hfound
  · -- the only item on the way is the pet, which can be read and holds the dog
    exfalso
    obtain rfl : n = 0 := Nat.lt_one_iff.mp hn
    have hpath : Kennel.visited.resolvePath (Kennel.visited.view (.plain (.loose 0)))
        (Text.dotted (("pet" :: [Kennel.owner].map Property.key).take 1)) =
          .ok ⟨.loose 0, Kennel.pet⟩ := by cbv
    rw [hpath] at hj
    cases hj
    rcases hb with ⟨hr, _⟩ | ⟨_, hv, _⟩
    · cases hr
    · cases hv

end GuardedScript
