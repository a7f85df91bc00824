import GuardedScript.Proofs.RunSteps

/-!
Store typing. Every item holds a value of its own type, whatever has been done and run; a call gives
back a value of the type that its script declares; and a thread starts with an input of the declared
type in the place of each input of its script.
-/

namespace GuardedScript

open Heap Relation

theorem Assoc.get?_ofList_isSome {κ α : Type} [DecidableEq κ] {l : List (κ × α)} {k : κ}
    (hk : k ∈ l.map (·.1)) : ((Assoc.ofList l).get? k).isSome := by
  have main : ∀ m : Assoc κ α, k ∈ l.map (·.1) ∨ (m.get? k).isSome →
      ((l.foldl (fun m e => m.put e.1 e.2) m).get? k).isSome := by
    clear hk
    induction l with
    | nil =>
      intro m hm
      rcases hm with hm | hm
      · cases hm
      · exact hm
    | cons e l ih =>
      intro m hm
      apply ih
      rw [Assoc.get?_put]
      by_cases hek : e.1 = k
      · rw [if_pos hek]
        exact .inr rfl
      · rw [if_neg hek]
        rcases hm with hm | hm
        · rcases List.mem_cons.mp hm with rfl | hm
          · exact absurd rfl hek
          · exact .inl hm
        · exact .inr hm
  exact main _ (.inl hk)

namespace Heap

variable {h h' : Heap}

theorem Alike.isA (a : h.Alike h') {o : ObjectId} {t : TypeRef} (ha : h.isA o t = true) :
    h'.isA o t = true := by
  unfold Heap.isA at ha
  split at ha
  · next hx =>
    obtain ⟨y, hy, hr, ht⟩ := a.objects hx
    simpa only [Heap.isA, hy, hr, ht, a.registry] using ha
  · cases ha

/-- The item stands for a declared input and holds a value of its type. -/
structure Holds (h : Heap) (d : ScriptInput) (v : ObjectId) (i : Item) : Prop where
  item : h.item? i.id = some i
  property : i.property = Script.inputProperty d
  value : h.value? i.id = some v
  fits : h.isA v d.type = true

/-- Neither items nor their values are touched, and old groups keep their items. -/
structure SameItems (h h' : Heap) : Prop where
  registries : h'.registries = h.registries
  statics : h'.statics = h.statics
  objects : h'.objects = h.objects
  cells : h'.cells = h.cells
  groups : ∀ n, n < h.groups.size → h'.groups.get? n = h.groups.get? n

namespace SameItems

theorem refl (h : Heap) : h.SameItems h := ⟨rfl, rfl, rfl, rfl, fun _ _ => rfl⟩

theorem trans {h'' : Heap} (a : h.SameItems h') (b : h'.SameItems h'')
    (hg : h'.groups = h.groups) : h.SameItems h'' := by
  refine ⟨b.registries.trans a.registries, b.statics.trans a.statics, b.objects.trans a.objects,
    b.cells.trans a.cells, ?_⟩
  intro n hn
  rw [← hg] at hn ⊢
  exact b.groups n hn

theorem setLayers (h : Heap) (σ : StackId) (ls : List Group) : h.SameItems (h.setLayers σ ls) :=
  ⟨rfl, rfl, rfl, rfl, fun _ _ => rfl⟩

theorem pushEmpty (h : Heap) (σ : StackId) : h.SameItems (h.pushEmpty σ).1 :=
  ⟨rfl, rfl, rfl, rfl, fun _ hn => Table.get?_push_of_lt _ _ hn⟩

theorem item? (hs : h.SameItems h') (id : ItemId) : h'.item? id = h.item? id := by
  cases id with
  | field o v key =>
    simp only [Heap.item?, fieldProperties, object?, registry, hs.registries, hs.objects]
  | static r t v key => simp only [Heap.item?, registry, hs.registries]
  | loose n => simp only [Heap.item?, hs.cells]

theorem value? (hs : h.SameItems h') (id : ItemId) : h'.value? id = h.value? id := by
  cases id with
  | field o v key => simp only [Heap.value?, object?, hs.objects]
  | static r t v key => simp only [Heap.value?, hs.statics]
  | loose n => simp only [Heap.value?, hs.cells]

theorem isA (hs : h.SameItems h') (o : ObjectId) (t : TypeRef) : h'.isA o t = h.isA o t := by
  simp only [Heap.isA, object?, registry, hs.registries, hs.objects]

theorem holds (hs : h.SameItems h') {d : ScriptInput} {v : ObjectId} {i : Item}
    (hh : h.Holds d v i) : h'.Holds d v i := by
  refine ⟨?_, hh.property, ?_, ?_⟩
  · rw [hs.item?]
    exact hh.item
  · rw [hs.value?]
    exact hh.value
  · rw [hs.isA]
    exact hh.fits

theorem find (hs : h.SameItems h') {n : Nat} (hn : n < h.groups.size) (key : String) :
    h'.find (.loose n) key = h.find (.loose n) key := by
  rw [find_loose, find_loose, itemId?, itemId?, hs.groups n hn]
  exact congrArg _ (funext hs.item?)

end SameItems

end Heap

theorem Script.fillInputs_holds {s : Script} {pairs : List (ScriptInput × ObjectId)}
    {h h' : Heap} {items : List Item} (hf : s.fillInputs h pairs = .ok (h', items)) :
    (∀ i ∈ items, ∃ e ∈ pairs, h'.Holds e.1 e.2 i) ∧
      ∀ e ∈ pairs, ∃ i ∈ items, h'.Holds e.1 e.2 i := by
  induction pairs generalizing h items with
  | nil =>
    cases hf
    exact ⟨List.forall_mem_nil _, List.forall_mem_nil _⟩
  | cons e pairs ih =>
    have hitems := (Script.fillInputs_steps hf).2
    simp only [Script.fillInputs] at hf
    split at hf
    · cases hf
    · next h₁ hstore =>
      unfold store at hstore
      split at hstore
      · next hfits =>
        cases hstore
        split at hf
        · cases hf
        · next h₂ rest hrest =>
          cases hf
          obtain ⟨hfills, _⟩ := Script.fillInputs_ok hrest
          obtain ⟨hsound, hcomplete⟩ := ih hrest
          have hlt : h.cells.size < (h.newItem (inputProperty e.1)).1.cells.size := by
            simp [newItem]
          -- the inputs after this one leave its item as it is
          have hfirst : h'.Holds e.1 e.2 (h.newItem (inputProperty e.1)).2 := by
            refine ⟨hitems _ List.mem_cons_self, rfl, ?_, ?_⟩
            · have hvalue := hfills.values (k := h.cells.size) (by rwa [size_cells_assign])
              exact hvalue.trans (value?_assign_self hlt (some e.2))
            · exact hfills.grows.alike.isA ((alike_assign _ _ _).isA hfits)
          constructor
          · refine List.forall_mem_cons.mpr ⟨⟨e, List.mem_cons_self, hfirst⟩, ?_⟩
            intro i hi
            obtain ⟨e', he', hh⟩ := hsound i hi
            exact ⟨e', List.mem_cons_of_mem e he', hh⟩
          · refine List.forall_mem_cons.mpr ⟨⟨_, List.mem_cons_self, hfirst⟩, ?_⟩
            intro e' he'
            obtain ⟨i, hi, hh⟩ := hcomplete e' he'
            exact ⟨i, List.mem_cons_of_mem _ hi, hh⟩
      · cases hstore

/-- Each declared input has its item in the group, and each item there holds one of the values, of
the type declared for it. -/
structure Script.Supplied (s : Script) (values : List ObjectId) (h : Heap) (g : GroupId) :
    Prop where
  present : ∀ d ∈ s.inputs, (h.find g d.key).isSome
  fitting : ∀ {key i}, h.find g key = some i →
    ∃ d ∈ s.inputs, d.key = key ∧ ∃ v ∈ values, h.Holds d v i

theorem Script.supplied_newGroup {s : Script} {h : Heap} {inputs : List ObjectId}
    {items : List Item} (hlength : inputs.length = s.inputs.length)
    (hsound : ∀ i ∈ items, ∃ e ∈ s.inputs.zip inputs, h.Holds e.1 e.2 i)
    (hcomplete : ∀ e ∈ s.inputs.zip inputs, ∃ i ∈ items, h.Holds e.1 e.2 i) :
    s.Supplied inputs (h.newGroup false items).1 (.loose h.groups.size) := by
  have hsame : h.SameItems (h.newGroup false items).1 :=
    ⟨rfl, rfl, rfl, rfl, fun n hn => Table.get?_push_of_lt _ _ hn⟩
  have hfind : ∀ key, (h.newGroup false items).1.find (.loose h.groups.size) key =
      ((Assoc.ofList (items.map fun i => (i.key, i.id))).get? key).bind h.item? := by
    intro key
    rw [find_loose, itemId?_newGroup, if_pos rfl]
    exact congrArg _ (funext hsame.item?)
  have hmem : ∀ {key id}, (Assoc.ofList (items.map fun i => (i.key, i.id))).get? key = some id →
      ∃ i ∈ items, i.key = key ∧ i.id = id := by
    intro key id hid
    obtain ⟨i, hi, he⟩ := List.mem_map.mp (Assoc.mem_of_get?_ofList hid)
    exact ⟨i, hi, congrArg Prod.fst he, congrArg Prod.snd he⟩
  constructor
  · intro d hd
    have hd : d ∈ (s.inputs.zip inputs).map Prod.fst := by
      rw [List.map_fst_zip (by omega)]
      exact hd
    obtain ⟨e, he, rfl⟩ := List.mem_map.mp hd
    obtain ⟨i, hi, hh⟩ := hcomplete e he
    have hkey : e.1.key ∈ (items.map fun i => (i.key, i.id)).map (·.1) := by
      rw [List.map_map]
      exact List.mem_map.mpr ⟨i, hi, congrArg Property.key hh.property⟩
    obtain ⟨id, hid⟩ := Option.isSome_iff_exists.mp (Assoc.get?_ofList_isSome hkey)
    obtain ⟨j, hj, _, rfl⟩ := hmem hid
    obtain ⟨_, _, hhj⟩ := hsound j hj
    rw [hfind, hid, Option.bind_some, hhj.item]
    rfl
  · intro key i hf
    rw [hfind] at hf
    obtain ⟨id, hid, hitem⟩ := Option.bind_eq_some_iff.mp hf
    obtain ⟨j, hj, hkey, rfl⟩ := hmem hid
    obtain ⟨e, he, hh⟩ := hsound j hj
    rw [hh.item] at hitem
    cases hitem
    obtain ⟨hd, hv⟩ := List.of_mem_zip he
    refine ⟨e.1, hd, ?_, e.2, hv, hsame.holds hh⟩
    rw [← hkey, Item.key, hh.property]
    rfl

theorem Script.inputMemory_supplied {s : Script} {h h' : Heap} {inputs : List ObjectId}
    {g : GroupId} (hi : s.inputMemory h inputs = .ok (h', g)) : s.Supplied inputs h' g := by
  unfold Script.inputMemory at hi
  split at hi
  · cases hi
  · split at hi
    · cases hi
    · next hlength =>
      split at hi
      · cases hi
      · next h₁ items hfill =>
        cases hi
        obtain ⟨hsound, hcomplete⟩ := Script.fillInputs_holds hfill
        exact Script.supplied_newGroup (by omega) hsound hcomplete

theorem Script.Supplied.same {s : Script} {values : List ObjectId} {h h' : Heap} {n : Nat}
    (hs : s.Supplied values h (.loose n)) (hn : n < h.groups.size) (he : h.SameItems h') :
    s.Supplied values h' (.loose n) := by
  constructor
  · intro d hd
    rw [he.find hn]
    exact hs.present d hd
  · intro key i hf
    rw [he.find hn] at hf
    obtain ⟨d, hd, hkey, v, hv, hh⟩ := hs.fitting hf
    exact ⟨d, hd, hkey, v, hv, he.holds hh⟩

namespace Thread

variable {t t' : Thread} {h h' : Heap} {σ : StackId}

theorem layAll_ok (hσ : σ.index < h.layered.size) {gs : List Group}
    (hl : layAll h σ gs = (.ok (), h')) :
    h.SameItems h' ∧ h'.groups = h.groups ∧ h'.layered.size = h.layered.size ∧
      h'.layers σ = h.layers σ ++ gs := by
  induction gs generalizing h with
  | nil =>
    cases hl
    exact ⟨.refl _, rfl, rfl, (List.append_nil _).symm⟩
  | cons g gs ih =>
    rw [layAll] at hl
    split at hl
    · cases hl
    · next h₁ hd =>
      obtain ⟨_, rfl⟩ := layDown_ok hd
      have hsize := size_layered_setLayers h σ (h.layers σ ++ [g])
      obtain ⟨hsame, hgroups, hlayered, hlayers⟩ := ih (by rwa [hsize]) hl
      refine ⟨(SameItems.setLayers h σ _).trans hsame rfl, hgroups, hlayered.trans hsize, ?_⟩
      rw [hlayers, layers_setLayers hσ, if_pos rfl, List.append_assoc, List.singleton_append]

theorem buildStack_same (hσ : t.stack.index < h.layered.size) {me : ObjectId} {inputs : Group}
    (hb : t.buildStack h me inputs = (.ok t', h')) :
    h.SameItems h' ∧ inputs ∈ h'.layers t'.stack := by
  unfold buildStack at hb
  split at hb
  · cases hb
  · next h₁ hl =>
    cases hb
    obtain ⟨hsame, hgroups, hlayered, hlayers⟩ := layAll_ok hσ hl
    refine ⟨hsame.trans (.pushEmpty h₁ t.stack) hgroups, ?_⟩
    have hσ₁ : t.stack.index < h₁.layered.size := by rwa [hlayered]
    have hlayers₁ := layers_pushEmpty hσ₁ t.stack
    rw [if_pos rfl, hlayers] at hlayers₁
    exact hlayers₁.symm ▸ by simp

end Thread

/-- In the heap `h'` the thread of the call is ready to run, with its inputs in the group `g`. -/
def Call.Starts (call : Call) (h : Heap) (t : Thread) (g : GroupId) (h' : Heap) : Prop :=
  ∃ b, call.script.inputMemory h call.inputs = .ok (b, g) ∧
    (call.thread b.newStack.2).buildStack b.newStack.1 call.script.parent (.plain g) = (.ok t, h')

theorem Call.Starts.supplied {call : Call} {h h' : Heap} {t : Thread} {g : GroupId}
    (hs : call.Starts h t g h') :
    .plain g ∈ h'.layers t.stack ∧ call.script.Supplied call.inputs h' g := by
  obtain ⟨b, hi, hb⟩ := hs
  have hnew : b.SameItems b.newStack.1 := ⟨rfl, rfl, rfl, rfl, fun _ _ => rfl⟩
  have hstack : b.newStack.2.index < b.newStack.1.layered.size := by simp [newStack]
  obtain ⟨hsame, hlayer⟩ := Thread.buildStack_same (t := call.thread b.newStack.2) hstack hb
  obtain ⟨_, _, rfl, hsize⟩ := Script.inputMemory_ok hi
  refine ⟨hlayer, (Script.inputMemory_supplied hi).same ?_ (hnew.trans hsame rfl)⟩
  omega

theorem checkReturn_isA {h : Heap} {s : Script} {t : TypeRef} {v : ObjectId}
    {result : Option ObjectId} (ht : s.returns = some t)
    (hr : checkReturn h s result = .done (some v)) : h.isA v t = true := by
  obtain rfl := checkReturn_done hr
  simp only [checkReturn, ht] at hr
  split at hr
  · assumption
  · cases hr

theorem callAt_isA {host : Host} (levels : Nat) (call : Call) (m : Moment) {t : TypeRef}
    {v : ObjectId} (ht : call.script.returns = some t)
    (hv : (callAt host levels call m).outcome = .done (some v)) :
    (callAt host levels call m).state.heap.isA v t = true := by
  refine callAt_induction host
    (P := fun call _ r => ∀ t v, call.script.returns = some t → r.outcome = .done (some v) →
      r.state.heap.isA v t = true) ?_ levels call m t v ht hv
  intro caller _ call m r hr t v ht hv
  cases hr with
  | refused | unbuilt => cases hv
  | @ran _ _ _ _ o _ _ _ _ _ =>
    cases o with
    | waiting | failed => cases hv
    | done _ => exact checkReturn_isA ht hv

/-- Whatever has been done to a heap and run on it, every value stands in an item of whose type it
is by its own registry. Every call that gives back a value gives back one of the declared type.
Every thread starts with its inputs on its stack, each in an item of its own and of the declared
type. -/
theorem stored_values_fit (host : Host) (hh : host.Stepwise) :
    (∀ h, Heap.Reached host h → ∀ id v, h.value? id = some v →
      ∃ i, h.item? id = some i ∧ h.isA v i.property.type = true) ∧
    (∀ levels (call : Call) (m : Moment) t v, call.script.returns = some t →
      (callAt host levels call m).outcome = .done (some v) →
      (callAt host levels call m).state.heap.isA v t = true) ∧
    ∀ (call : Call) h t g h', call.Starts h t g h' →
      .plain g ∈ h'.layers t.stack ∧ call.script.Supplied call.inputs h' g := by
  refine ⟨?_, ?_, ?_⟩
  · intro h hr id v hv
    exact (hr.proper hh).typed hv
  · intro levels call m t v ht hv
    exact callAt_isA levels call m ht hv
  · intro call h t g h' hs
    exact hs.supplied

namespace Linked

/-! Two objects of one type, and a script that links them to each other. -/

def node : Namespace := ⟨["Node"], by decide, by decide⟩

def next : Property := ⟨"next", ⟨0⟩, {}⟩

def bare : Heap := Heap.empty.newRegistry.1

def announced : Heap :=
  { bare with registries := bare.registries.modify 0 fun _ =>
      ⟨[node], ⟨[(node, ⟨0⟩)]⟩, []⟩ }

def typed : Heap :=
  { announced with registries := announced.registries.modify 0 fun _ =>
      ⟨[node], ⟨[(node, ⟨0⟩)]⟩, [(⟨0⟩, .concrete ⟨none, none, [], [next], []⟩)]⟩ }

def first : Heap :=
  { typed with objects := typed.objects.push ⟨⟨0⟩, ⟨0⟩, node, none, {}, none⟩ }

def heap : Heap :=
  { first with objects := first.objects.push ⟨⟨0⟩, ⟨0⟩, node, none, {}, none⟩ }

def call : Call where
  script :=
    { name := ⟨["Link"], by decide, by decide⟩, inputs := [⟨"other", ⟨0⟩⟩], returns := some ⟨0⟩,
      parent := ⟨0⟩,
      commands := [.set {} "next" (.get {} "other"), .set {} "next.next" (.this {}),
        .native {} { name := "ping" } [],
        .ret {} (some (.get {} "next"))] }
  context := {}
  inputs := [⟨1⟩]
  grant := {}
  held := [.object ⟨0⟩]

def run : Reply ScriptError Moment (Option ObjectId) := Script.callIn Host.standard call ⟨heap, 0⟩

theorem heap_reached : Heap.Reached Host.standard heap := by
  have h₁ : Heap.empty.Change Host.standard bare := .step .newRegistry
  have h₂ : bare.Change Host.standard announced :=
    .step (.define (r := ⟨0⟩) (q := .declare node) (t := ⟨0⟩) (by cbv))
  have h₃ : announced.Change Host.standard typed :=
    .step (.define (r := ⟨0⟩) (q := .type { name := node, exposed := [next] }) (t := ⟨0⟩) (by cbv))
  have h₄ : typed.Change Host.standard first :=
    .step (.newObject (r := ⟨0⟩) (t := ⟨0⟩) (o := ⟨0⟩) rfl)
  have h₅ : first.Change Host.standard heap :=
    .step (.newObject (r := ⟨0⟩) (t := ⟨0⟩) (o := ⟨1⟩) rfl)
  exact ((((ReflTransGen.single h₁).tail h₂).tail h₃).tail h₄).tail h₅

theorem run_reached : Heap.Reached Host.standard run.state.heap :=
  heap_reached.tail (.call call 0 fun _ hg => nomatch hg)

theorem run_outcome : run.outcome = .done (some ⟨1⟩) := by cbv

theorem run_value : run.state.heap.value? (.field ⟨1⟩ .exposed "next") = some ⟨0⟩ := by cbv

theorem call_starts : ∃ t g h', call.Starts heap t g h' := by
  have hok : (match call.script.inputMemory heap call.inputs with
      | .ok (b, g) => ((call.thread b.newStack.2).buildStack b.newStack.1 call.script.parent
          (.plain g)).1.toBool
      | .error _ => false) = true := by cbv
  split at hok
  · next b g hi =>
    cases hb : (call.thread b.newStack.2).buildStack b.newStack.1 call.script.parent (.plain g) with
    | mk r h' =>
      rw [hb] at hok
      cases r with
      | error e => cases hok
      | ok t => exact ⟨t, g, h', b, hi, hb⟩
  · cases hok

end Linked

theorem linked_values_fit :
    (∃ i, Linked.run.state.heap.item? (.field ⟨1⟩ .exposed "next") = some i ∧
      Linked.run.state.heap.isA ⟨0⟩ i.property.type = true) ∧
    Linked.run.outcome = .done (some ⟨1⟩) ∧ Linked.run.state.heap.isA ⟨1⟩ ⟨0⟩ = true ∧
    ∃ t g h', Linked.call.Starts Linked.heap t g h' ∧ .plain g ∈ h'.layers t.stack ∧
      Linked.call.script.Supplied [⟨1⟩] h' g := by
  obtain ⟨hstored, hreturned, hsupplied⟩ := stored_values_fit Host.standard Host.standard_stepwise
  obtain ⟨t, g, h', hs⟩ := Linked.call_starts
  refine ⟨hstored _ Linked.run_reached _ _ Linked.run_value, Linked.run_outcome, ?_,
    t, g, h', hs, ?_⟩
  · exact hreturned _ Linked.call _ _ _ rfl Linked.run_outcome
  · exact hsupplied _ _ _ _ _ hs

end GuardedScript
