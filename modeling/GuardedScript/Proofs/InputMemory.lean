import Mathlib.Data.List.Dedup
import Mathlib.Data.List.Induction
import GuardedScript.Proofs.RunSteps

/-!
The memory of a call's inputs. Objects are matched with declared inputs by position and kept by key,
so of several inputs that are declared with one key only the last is kept. No input is lost exactly
if the declared keys are pairwise different.
-/

namespace GuardedScript

namespace Assoc

variable {κ α : Type} [DecidableEq κ] {l : List (κ × α)} {e : κ × α} {k : κ}

theorem ofList_concat (l : List (κ × α)) (e : κ × α) :
    ofList (l ++ [e]) = (ofList l).put e.1 e.2 := by
  rw [ofList, List.foldl_concat, ofList]

theorem keys_put (m : Assoc κ α) (k : κ) (a : α) :
    (m.put k a).keys = if k ∈ m.keys then m.keys else m.keys ++ [k] := by
  obtain ⟨entries⟩ := m
  rw [put, keys, keys]
  induction entries with
  | nil => simp [replace]
  | cons d rest ih =>
    obtain ⟨j, b⟩ := d
    by_cases hj : j = k
    · simp [replace, hj]
    · by_cases hk : k ∈ rest.map (·.1)
      · simp only [if_pos hk] at ih
        simp [replace, hj, ih, List.mem_map.mp hk]
      · simp only [if_neg hk] at ih
        have hcons : k ∉ j :: rest.map (·.1) := by simp [Ne.symm hj, hk]
        simp only [replace, if_neg hj, List.map_cons, ih, if_neg hcons, List.cons_append]

theorem mem_keys_ofList : k ∈ (ofList l).keys ↔ k ∈ l.map (·.1) := by
  induction l using List.reverseRecOn with
  | nil => rfl
  | append_singleton l e ih =>
    rw [ofList_concat, keys_put, List.map_append, List.mem_append, ← ih]
    split
    · next he =>
      constructor
      · exact .inl
      · rintro (hk | hk)
        · exact hk
        · rwa [List.mem_singleton.mp hk]
    · rw [List.mem_append]
      rfl

theorem nodup_keys_ofList (l : List (κ × α)) : (ofList l).keys.Nodup := by
  induction l using List.reverseRecOn with
  | nil => exact List.nodup_nil
  | append_singleton l e ih =>
    rw [ofList_concat, keys_put]
    split
    · exact ih
    · next he => exact List.nodup_append'.mpr ⟨ih, List.nodup_singleton _, by simpa using he⟩

/-- There are as many entries as different keys. -/
theorem length_entries_ofList (l : List (κ × α)) :
    (ofList l).entries.length = (l.map (·.1)).dedup.length := by
  have hperm : (ofList l).keys.Perm (l.map (·.1)).dedup :=
    (List.perm_ext_iff_of_nodup (nodup_keys_ofList l) (List.nodup_dedup _)).mpr fun k => by
      rw [mem_keys_ofList, List.mem_dedup]
  rw [← hperm.length_eq, keys, List.length_map]

/-- The entry of a key is the last one written. -/
theorem get?_ofList_of_last {before after : List (κ × α)} (ha : ∀ x ∈ after, x.1 ≠ e.1) :
    (ofList (before ++ e :: after)).get? e.1 = some e.2 := by
  induction after using List.reverseRecOn with
  | nil => rw [ofList_concat, get?_put_self]
  | append_singleton after d ih =>
    have hlast : d.1 ≠ e.1 := ha d (List.mem_append_right _ (List.mem_singleton.mpr rfl))
    rw [← List.cons_append, ← List.append_assoc, ofList_concat, get?_put_of_ne _ _ hlast]
    exact ih fun x hx => ha x (List.mem_append_left _ hx)

end Assoc

/-- The item of a declared input, with the object supplied for it. -/
structure Heap.HoldsInput (h : Heap) (e : ScriptInput × ObjectId) (i : Item) : Prop where
  item : h.item? i.id = some i
  property : i.property = Script.inputProperty e.1
  value : h.value? i.id = some e.2

/-- The heap with a new item that holds the object supplied for an input. -/
def Heap.withInput (h : Heap) (e : ScriptInput × ObjectId) : Heap :=
  (h.newItem (Script.inputProperty e.1)).1.assign (.loose h.cells.size) (some e.2)

/-- No input is lost: there are as many items as declared inputs, and the one under each declared
key has the declared type and holds the object supplied at that position. -/
structure Script.AllKept (s : Script) (h : Heap) (g : GroupId) (inputs : List ObjectId) : Prop where
  count : (h.items g).length = s.inputs.length
  each : ∀ (n : Nat) (input : ScriptInput) (object : ObjectId),
    s.inputs[n]? = some input → inputs[n]? = some object → ∃ i, h.find g input.key = some i ∧
      i.property.type = input.type ∧ h.value? i.id = some object

namespace Script

variable {s : Script} {h h' : Heap} {inputs : List ObjectId} {g : GroupId}
variable {pairs : List (ScriptInput × ObjectId)} {items : List Item}

/-- The next input is filled if its object fits, and ends the filling otherwise. -/
theorem fillInputs_cons (s : Script) (h : Heap) (e : ScriptInput × ObjectId)
    (rest : List (ScriptInput × ObjectId)) :
    h.isA e.2 e.1.type = true ∧ s.fillInputs h (e :: rest) =
        (s.fillInputs (h.withInput e) rest).map
          (fun r => (r.1, ⟨.loose h.cells.size, inputProperty e.1⟩ :: r.2)) ∨
      h.isA e.2 e.1.type = false ∧ ∃ error, s.fillInputs h (e :: rest) = .error error := by
  have hstore : (h.newItem (inputProperty e.1)).1.store (h.newItem (inputProperty e.1)).2 e.2 =
      if h.isA e.2 e.1.type then some (h.withInput e) else none := rfl
  cases hfit : h.isA e.2 e.1.type with
  | true =>
    refine .inl ⟨rfl, ?_⟩
    rw [hfit, if_pos rfl] at hstore
    simp only [fillInputs, hstore]
    cases s.fillInputs (h.withInput e) rest <;> rfl
  | false =>
    refine .inr ⟨rfl, ?_⟩
    rw [hfit, if_neg Bool.false_ne_true] at hstore
    simp only [fillInputs, hstore]
    exact ⟨_, rfl⟩

/-- New items do not change what an object is, so each object is judged as at the start. -/
theorem fillInputs_ok_iff : (∃ r, s.fillInputs h pairs = .ok r) ↔
    ∀ e ∈ pairs, h.isA e.2 e.1.type = true := by
  induction pairs generalizing h with
  | nil => exact iff_of_true ⟨_, rfl⟩ fun _ he => absurd he List.not_mem_nil
  | cons e rest ih =>
    rw [List.forall_mem_cons]
    rcases fillInputs_cons s h e rest with ⟨hfit, heq⟩ | ⟨hfit, error, heq⟩
    · have hrest : (∃ r, s.fillInputs (h.withInput e) rest = .ok r) ↔
          ∀ e ∈ rest, h.isA e.2 e.1.type = true := ih
      rw [heq, and_iff_right hfit, ← hrest]
      cases s.fillInputs (h.withInput e) rest <;> simp [Except.map]
    · rw [heq, hfit]
      simp

/-- Each item is there, with the input it was made for. -/
theorem fillInputs_rows (hf : s.fillInputs h pairs = .ok (h', items)) :
    ∃ rows : List ((ScriptInput × ObjectId) × Item), rows.map (·.1) = pairs ∧
      rows.map (·.2) = items ∧ ∀ x ∈ rows, h'.HoldsInput x.1 x.2 := by
  induction pairs generalizing h items with
  | nil =>
    cases hf
    exact ⟨[], rfl, rfl, fun _ hx => absurd hx List.not_mem_nil⟩
  | cons e rest ih =>
    have hitems := (fillInputs_steps hf).2
    rcases fillInputs_cons s h e rest with ⟨_, heq⟩ | ⟨_, error, heq⟩
    · rw [heq] at hf
      cases hr : s.fillInputs (h.withInput e) rest with
      | error error =>
        rw [hr] at hf
        cases hf
      | ok r =>
        obtain ⟨k, more⟩ := r
        rw [hr] at hf
        cases hf
        obtain ⟨rows, hpairs, hmore, hholds⟩ := ih hr
        refine ⟨(e, ⟨.loose h.cells.size, inputProperty e.1⟩) :: rows, ?_, ?_, ?_⟩
        · rw [List.map_cons, hpairs]
        · rw [List.map_cons, hmore]
        · refine List.forall_mem_cons.mpr ⟨⟨hitems _ List.mem_cons_self, rfl, ?_⟩, hholds⟩
          -- the cell is written before the others are made
          have hlt : h.cells.size < (h.newItem (inputProperty e.1)).1.cells.size := by
            simp [Heap.newItem]
          have hself : (h.withInput e).value? (.loose h.cells.size) = some e.2 :=
            Heap.value?_assign_self hlt (some e.2)
          have hkept := (fillInputs_ok hr).1.values (k := h.cells.size)
            (by rw [Heap.withInput, Heap.size_cells_assign]; exact hlt)
          exact hkept.trans hself
    · rw [heq] at hf
      cases hf

theorem inputMemory_error_iff : (∃ error, s.inputMemory h inputs = .error error) ↔
    (∃ i ∈ s.inputs, i.key = returnKey) ∨ inputs.length ≠ s.inputs.length ∨
      ∃ e ∈ s.inputs.zip inputs, h.isA e.2 e.1.type = false := by
  unfold inputMemory
  split
  · next hkey =>
    refine iff_of_true ⟨_, rfl⟩ (.inl ?_)
    simpa using hkey
  · next hkey =>
    have hkey : ¬ ∃ i ∈ s.inputs, i.key = returnKey := by simpa using hkey
    rw [or_iff_right hkey]
    split
    · next hcount => exact iff_of_true ⟨_, rfl⟩ (.inl hcount)
    · next hcount =>
      rw [or_iff_right hcount]
      have hfit : (∃ r, s.fillInputs h (s.inputs.zip inputs) = .ok r) ↔
          ∀ e ∈ s.inputs.zip inputs, h.isA e.2 e.1.type = true := fillInputs_ok_iff
      cases hfill : s.fillInputs h (s.inputs.zip inputs) with
      | error error =>
        refine iff_of_true ⟨_, rfl⟩ ?_
        rw [hfill] at hfit
        simpa using hfit
      | ok r =>
        have hall := hfit.mp ⟨r, hfill⟩
        refine iff_of_false (by simp) ?_
        rintro ⟨e, he, hnot⟩
        rw [hall e he] at hnot
        cases hnot

/-- The rows that a group of inputs is made from, in the order of the declared inputs: the item of
each is in the group unless a later one has its key. -/
structure MadeFrom (s : Script) (inputs : List ObjectId) (h' : Heap) (g : GroupId)
    (rows : List ((ScriptInput × ObjectId) × Item)) : Prop where
  pairs : rows.map (·.1) = s.inputs.zip inputs
  total : inputs.length = s.inputs.length
  holds : ∀ x ∈ rows, h'.HoldsInput x.1 x.2
  items : h'.items g =
    (Assoc.ofList (rows.map fun x => (x.1.1.key, x.2.id))).values.filterMap h'.item?
  find : ∀ key, h'.find g key =
    ((Assoc.ofList (rows.map fun x => (x.1.1.key, x.2.id))).get? key).bind h'.item?

theorem inputMemory_made (hi : s.inputMemory h inputs = .ok (h', g)) :
    ∃ rows, s.MadeFrom inputs h' g rows := by
  unfold inputMemory at hi
  split at hi
  · cases hi
  split at hi
  · cases hi
  next hcount =>
  cases hfill : s.fillInputs h (s.inputs.zip inputs) with
  | error error =>
    rw [hfill] at hi
    cases hi
  | ok r =>
    obtain ⟨k, items⟩ := r
    rw [hfill] at hi
    have hnew : k.newGroup false items = (h', g) := Except.ok.inj hi
    have hh : h' = (k.newGroup false items).1 := by rw [hnew]
    have hg : g = .loose k.groups.size := by rw [← (Prod.mk.inj hnew).2]
    subst hh hg
    obtain ⟨rows, hpairs, rfl, hholds⟩ := fillInputs_rows hfill
    have hentries : (rows.map (·.2)).map (fun i : Item => (i.key, i.id)) =
        rows.map fun x => (x.1.1.key, x.2.id) := by
      rw [List.map_map]
      refine List.map_congr_left fun x hx => ?_
      rw [Function.comp_apply, Item.key, (hholds x hx).property, inputProperty]
    have hitem : ∀ id, (k.newGroup false (rows.map (·.2))).1.item? id = k.item? id := by
      intro id
      cases id <;> rfl
    have hvalue : ∀ id, (k.newGroup false (rows.map (·.2))).1.value? id = k.value? id := by
      intro id
      cases id <;> rfl
    refine ⟨rows, hpairs, Decidable.not_not.mp hcount, ?_, ?_, ?_⟩
    · intro x hx
      obtain ⟨hi, hp, hv⟩ := hholds x hx
      exact ⟨(hitem _).trans hi, hp, (hvalue _).trans hv⟩
    · rw [← hentries]
      simp [Heap.items, Heap.newGroup]
    · intro key
      rw [Heap.find_loose, Heap.itemId?_newGroup, if_pos rfl, hentries]

namespace MadeFrom

variable {rows : List ((ScriptInput × ObjectId) × Item)} (hm : s.MadeFrom inputs h' g rows)
include hm

theorem keys : (rows.map fun x => (x.1.1.key, x.2.id)).map (·.1) =
    s.inputs.map ScriptInput.key := by
  have hfst := congrArg (List.map Prod.fst) hm.pairs
  rw [List.map_fst_zip (Nat.le_of_eq hm.total.symm), List.map_map] at hfst
  rw [← hfst, List.map_map, List.map_map]
  rfl

/-- There is one item for each different key. -/
theorem length_items :
    (h'.items g).length = (s.inputs.map ScriptInput.key).dedup.length := by
  have hall : ∀ id ∈ (Assoc.ofList (rows.map fun x => (x.1.1.key, x.2.id))).values,
      (h'.item? id).isSome := by
    intro id hid
    obtain ⟨e, he, rfl⟩ := List.mem_map.mp hid
    obtain ⟨x, hx, rfl⟩ := List.mem_map.mp (Assoc.mem_entries_ofList he)
    rw [(hm.holds x hx).item]
    rfl
  rw [hm.items, List.filterMap_length_eq_length.mpr hall, Assoc.values, List.length_map,
    Assoc.length_entries_ofList, hm.keys]

/-- The item under a key is that of the last input declared with it. -/
theorem find_last {before after : List (ScriptInput × ObjectId)} {e : ScriptInput × ObjectId}
    (he : s.inputs.zip inputs = before ++ e :: after) (ha : ∀ x ∈ after, x.1.key ≠ e.1.key) :
    ∃ i, h'.find g e.1.key = some i ∧ h'.HoldsInput e i := by
  obtain ⟨first, rest, hrows, rfl, hrest⟩ := List.map_eq_append_iff.mp (hm.pairs.trans he)
  obtain ⟨x, last, rfl, rfl, rfl⟩ := List.map_eq_cons_iff.mp hrest
  have hx := hm.holds x (by rw [hrows]; simp)
  have hlast : (Assoc.ofList (rows.map fun x => (x.1.1.key, x.2.id))).get? x.1.1.key =
      some x.2.id := by
    rw [hrows, List.map_append, List.map_cons]
    refine Assoc.get?_ofList_of_last ?_
    intro y hy
    obtain ⟨z, hz, rfl⟩ := List.mem_map.mp hy
    exact ha z.1 (List.mem_map_of_mem hz)
  refine ⟨x.2, ?_, hx⟩
  rw [hm.find, hlast, Option.bind_some, hx.item]

theorem allKept_iff : s.AllKept h' g inputs ↔ (s.inputs.map ScriptInput.key).Nodup := by
  constructor
  · intro hk
    have hlen : (s.inputs.map ScriptInput.key).dedup.length =
        (s.inputs.map ScriptInput.key).length := by
      rw [← hm.length_items, hk.count, List.length_map]
    exact List.dedup_eq_self.mp ((List.dedup_sublist _).eq_of_length hlen)
  · intro hn
    refine ⟨?_, ?_⟩
    · rw [hm.length_items, List.dedup_eq_self.mpr hn, List.length_map]
    · intro n input object hinput hobject
      have hpair : (input, object) ∈ s.inputs.zip inputs :=
        List.mem_of_getElem? (List.getElem?_zip_eq_some.mpr ⟨hinput, hobject⟩)
      obtain ⟨before, after, he⟩ := List.append_of_mem hpair
      have hkeys : ((s.inputs.zip inputs).map fun e => e.1.key).Nodup := by
        have hfst := List.map_fst_zip (Nat.le_of_eq hm.total.symm)
        rwa [← hfst, List.map_map] at hn
      rw [he, List.map_append, List.map_cons] at hkeys
      have hlater := (List.nodup_cons.mp (List.nodup_append.mp hkeys).2.1).1
      obtain ⟨i, hfind, hholds⟩ := hm.find_last he fun x hx hkey =>
        hlater (List.mem_map.mpr ⟨x, hx, hkey⟩)
      exact ⟨i, hfind, by rw [hholds.property]; rfl, hholds.value⟩

end MadeFrom

end Script

/-- The inputs of a call are refused exactly if one is declared under the reserved key, their number
is wrong or an object is not of the declared type. Otherwise the group has one item for each
different key, and under each key the item of the last input that is declared with it. So no input
is lost exactly if all declared keys are different. -/
theorem inputs_kept_unless_keys_repeat (s : Script) (h : Heap) (inputs : List ObjectId) :
    ((∃ error, s.inputMemory h inputs = .error error) ↔
      (∃ i ∈ s.inputs, i.key = returnKey) ∨ inputs.length ≠ s.inputs.length ∨
        ∃ e ∈ s.inputs.zip inputs, h.isA e.2 e.1.type = false) ∧
    ∀ h' g, s.inputMemory h inputs = .ok (h', g) →
      (s.AllKept h' g inputs ↔ (s.inputs.map ScriptInput.key).Nodup) ∧
      (h'.items g).length = (s.inputs.map ScriptInput.key).dedup.length ∧
      ∀ before e after, s.inputs.zip inputs = before ++ e :: after →
        (∀ x ∈ after, x.1.key ≠ e.1.key) → ∃ i, h'.find g e.1.key = some i ∧ h'.HoldsInput e i := by
  refine ⟨Script.inputMemory_error_iff, fun h' g hi => ?_⟩
  obtain ⟨rows, hm⟩ := Script.inputMemory_made hi
  exact ⟨hm.allKept_iff, hm.length_items, fun before e after he ha => hm.find_last he ha⟩

namespace Purse

def coin : Namespace := ⟨["Coin"], by decide, by decide⟩

def piece : Object := ⟨⟨0⟩, ⟨0⟩, coin, none, {}, none⟩

def heap : Heap :=
  { registries := Table.empty.push (Registry.built [.type { name := coin }])
    statics := {}
    objects := (Table.empty.push piece).push piece
    cells := {}
    groups := {}
    layered := {} }

/-- Two inputs are declared with one key. -/
def pay : Script :=
  { name := ⟨["Pay"], by decide, by decide⟩, inputs := [⟨"coin", ⟨0⟩⟩, ⟨"coin", ⟨0⟩⟩],
    parent := ⟨0⟩, commands := [] }

end Purse

theorem first_coin_lost : ∃ h g, Purse.pay.inputMemory Purse.heap [⟨0⟩, ⟨1⟩] = .ok (h, g) ∧
    ¬ Purse.pay.AllKept h g [⟨0⟩, ⟨1⟩] ∧ (h.items g).length = 1 ∧
      ∃ i, h.find g "coin" = some i ∧ h.HoldsInput (⟨"coin", ⟨0⟩⟩, ⟨1⟩) i := by
  obtain ⟨hrefused, hmade⟩ := inputs_kept_unless_keys_repeat Purse.pay Purse.heap [⟨0⟩, ⟨1⟩]
  cases hi : Purse.pay.inputMemory Purse.heap [⟨0⟩, ⟨1⟩] with
  | error error =>
    have hfits : ¬ ((∃ i ∈ Purse.pay.inputs, i.key = returnKey) ∨
        [(⟨0⟩ : ObjectId), ⟨1⟩].length ≠ Purse.pay.inputs.length ∨
          ∃ e ∈ Purse.pay.inputs.zip [⟨0⟩, ⟨1⟩], Purse.heap.isA e.2 e.1.type = false) := by
      decide
    exact absurd (hrefused.mp ⟨error, hi⟩) hfits
  | ok r =>
    obtain ⟨h, g⟩ := r
    obtain ⟨hkept, hcount, hlast⟩ := hmade h g hi
    refine ⟨h, g, rfl, ?_, hcount.trans (by decide), ?_⟩
    · rw [hkept]
      decide
    · exact hlast [(⟨"coin", ⟨0⟩⟩, ⟨0⟩)] (⟨"coin", ⟨0⟩⟩, ⟨1⟩) [] rfl (by simp)

end GuardedScript
