import GuardedScript.Proofs.Outline

/-!
Operations that read memory along paths only. Such an operation sees the outline of the heap, which
tells everything but values; it reads values along paths of groups, where the flags are checked, and
it may change the heap in any way that does not need a value. The operations of the standard host
are of this kind.
-/

namespace GuardedScript

/-- An item that may not be read is not entered under the key of returned values. -/
def Item.returnable (i : Item) : Bool := i.property.flags.readable || i.key ≠ returnKey

theorem Item.readable_of_returnable {i : Item} (hr : i.returnable = true)
    (hkey : i.key = returnKey) : i.property.flags.readable = true := by
  simpa [Item.returnable, hkey] using hr

/-- What can be done to a heap without knowing a value. -/
inductive Deed where
  -- fills or empties an item, whatever its type and its flags say
  | put (item : ItemId) (value : Option ObjectId)
  | newItem (property : Property)
  -- enters an item that is there into a loose group
  | insert (group : Nat) (item : ItemId)
  | newGroup (insertable : Bool) (items : List ItemId)
  | newStack
  | setLayers (stack : StackId) (layers : List Group)
  -- puts other types into force, unless one of the items would not be the same under them
  | retype (registries : Table Registry)
  | newObject (registry : RegistryId) (type : TypeRef)
  | setBound (object : ObjectId) (value : HostValue)

/-- Every item stays as it is. -/
def Heap.KeepsItems (h h' : Heap) : Prop := ∀ id i, h.item? id = some i → h'.item? id = some i

open Classical in
noncomputable def Deed.apply (h : Heap) : Deed → Heap
  | .put id value => h.assign id value
  | .newItem p => (h.newItem p).1
  | .insert n id =>
    match h.item? id with
    | some i => if i.returnable then h.insertItem n i else h
    | none => h
  | .newGroup insertable ids =>
    (h.newGroup insertable ((ids.filterMap h.item?).filter Item.returnable)).1
  | .newStack => h.newStack.1
  | .setLayers σ ls => h.setLayers σ ls
  | .retype rs => if h.KeepsItems (h.withRegistries rs) then h.withRegistries rs else h
  | .newObject r t =>
    match h.newObject r t with
    | .ok (h, _) => h
    | .error _ => h
  | .setBound o v =>
    match h.setBound o v with
    | .ok h => h
    | .error _ => h

/-- The replies of an operation, as a function of the heap, when it reads along paths only. -/
inductive Thread.Discreet (t : Thread) : (Heap → HostReply) → Prop where
  | reply (result returned lines delay) : Discreet t fun h => ⟨result, h, returned, lines, delay⟩
  | look {f : Heap → Heap → HostReply} (hf : ∀ o, Discreet t (f o)) :
      Discreet t fun h => f h.outline h
  | read (g path) {f : Except MemoryError (Option ObjectId) → Heap → HostReply}
      (hf : ∀ r, Discreet t (f r)) : Discreet t fun h => f (h.readPath (h.view g) path) h
  | set (g path v) {f : Except MemoryError Bool → Heap → HostReply} (hf : ∀ r, Discreet t (f r)) :
      Discreet t fun h =>
        match h.setPath (h.view g) path v with
        | .ok (b, h) => f (.ok b) h
        | .error e => f (.error e) h
  | add (g p v) {f : Except MemoryError Bool → Heap → HostReply} (hf : ∀ r, Discreet t (f r)) :
      Discreet t fun h =>
        match (h.filledItem p v).1.addTo (h.view g) (h.filledItem p v).2 with
        | .ok (b, h) => f (.ok b) h
        | .error e => f (.error e) (h.filledItem p v).1
  | giveBack (v) {f : Except CommandError Unit → Heap → HostReply} (hf : ∀ r, Discreet t (f r)) :
      Discreet t fun h =>
        match t.setReturn h v with
        | .ok h => f (.ok ()) h
        | .error e => f (.error e) h
  | returned {f : Option ObjectId → Heap → HostReply} (hf : ∀ v, Discreet t (f v)) :
      Discreet t fun h => f (t.returnValue h) h
  | act (d : Deed) {f : Heap → HostReply} (hf : Discreet t f) : Discreet t fun h => f (d.apply h)

/-- Every operation of the host reads memory along paths only. -/
def Host.Discreet (host : Host) : Prop := ∀ op (frame : Frame) now pointer args,
  frame.thread.Discreet fun h => host.perform op frame ⟨⟨h, now⟩, pointer⟩ args

namespace Thread.Discreet

variable {t : Thread} {f g : Heap → HostReply}

theorem congr (hf : t.Discreet f) (hg : ∀ h, g h = f h) : t.Discreet g := by
  obtain rfl : g = f := funext hg
  exact hf

/-- The outline decides how to go on. -/
theorem of_outline (hf : ∀ o : Heap, ∃ f, t.Discreet f ∧ ∀ h, h.outline = o → g h = f h) :
    t.Discreet g := by
  choose f hf hg using hf
  exact (look hf).congr fun h => hg h.outline h rfl

/-- What the outline tells decides how to go on. -/
theorem of_told {α : Type} (told : Heap → α) (ht : ∀ h : Heap, told h.outline = told h)
    {f : α → Heap → HostReply} (hf : ∀ a, t.Discreet (f a)) : t.Discreet fun h => f (told h) h := by
  refine (look fun o => hf (told o)).congr fun h => ?_
  rw [ht]

end Thread.Discreet

namespace Operations

section
variable (op : Operation) (h : Heap)

theorem operand_outline (type : HostType) (v : Value) :
    operand op h.outline type v = operand op h type v := by
  cases v with
  | none => rfl
  | some o => rw [operand, h.getBound_outline, ← operand]

theorem total_outline (args : List Value) (n : Int) :
    total op h.outline n args = total op h n args := by
  induction args generalizing n with
  | nil => rfl
  | cons a args ih => simp only [total, operand_outline, ih]

theorem joined_outline (args : List Value) (s : String) :
    joined op h.outline s args = joined op h s args := by
  induction args generalizing s with
  | nil => rfl
  | cons a args ih => simp only [joined, operand_outline, ih]

theorem traceText_outline (v : Value) : traceText h.outline v = traceText h v := by
  cases v with
  | none => rfl
  | some o =>
    rw [traceText, traceText, h.object?_outline, h.typeDisplay_outline]
    cases h.object? o <;> rfl

/-- The registry in which an object's operations make objects. -/
def home (me : ObjectId) : RegistryId := ((h.object? me).map Object.registry).getD ⟨0⟩

theorem home_outline (me : ObjectId) : home h.outline me = home h me := by
  rw [home, home, h.object?_outline]
  cases h.object? me <;> rfl

theorem make_outline (me : ObjectId) (typeName : String) (v : HostValue) :
    make op h.outline me typeName v =
      (make op h me typeName v).map fun p => (p.1.outline, p.2) := by
  have hhome : ((h.outline.object? me).map Object.registry).getD ⟨0⟩ =
      ((h.object? me).map Object.registry).getD ⟨0⟩ := home_outline h me
  unfold make
  simp only [hhome, Heap.registry_outline]
  cases (h.registry _).resolve typeName with
  | error e => rfl
  | ok t =>
    simp only [Heap.newObject_outline]
    cases h.newObject _ t with
    | error e => rfl
    | ok p =>
      simp only [Except.map, Heap.setBound_outline]
      cases p.1.setBound p.2 v <;> rfl

variable {op h}

theorem make_ok {me o : ObjectId} {typeName : String} {v : HostValue} {k : Heap}
    (hm : make op h me typeName v = .ok (k, o)) :
    ∃ t b, (h.registry (home h me)).resolve typeName = .ok t ∧
      h.newObject (home h me) t = .ok (b, o) ∧ b.setBound o v = .ok k := by
  unfold make at hm
  simp only at hm
  split at hm
  · cases hm
  · next t ht =>
    split at hm
    · cases hm
    · next b o hn =>
      split at hm
      · cases hm
      · next k hb =>
        cases hm
        exact ⟨t, b, ht, hn, hb⟩

end

variable (op : Operation) (me : ObjectId) (t : Thread)

theorem answer_discreet (typeName : String) (v : HostValue) :
    t.Discreet fun h => answer op h me typeName v := by
  apply Thread.Discreet.of_outline
  intro o
  cases hm : make op o me typeName v with
  | error e =>
    refine ⟨_, .reply (.error e) false [] .none, ?_⟩
    rintro h rfl
    rw [make_outline] at hm
    cases hk : make op h me typeName v with
    | error e' =>
      rw [hk] at hm
      cases hm
      rw [answer, hk]
    | ok p =>
      rw [hk] at hm
      cases hm
  | ok p =>
    obtain ⟨k, x⟩ := p
    obtain ⟨type, b, htype, _, _⟩ := make_ok hm
    refine ⟨_, .act (.newObject (home o me) type) (.act (.setBound x v)
      (.reply (.ok (some x)) false [] .none)), ?_⟩
    rintro h rfl
    rw [make_outline] at hm
    cases hk : make op h me typeName v with
    | error e =>
      rw [hk] at hm
      cases hm
    | ok q =>
      obtain ⟨a, y⟩ := q
      rw [hk] at hm
      cases hm
      obtain ⟨type', b', htype', hnew, hbound⟩ := make_ok hk
      rw [home_outline, Heap.registry_outline, htype'] at htype
      cases htype
      simp only [answer, hk, Deed.apply, home_outline, hnew, hbound]

/-- An operation that works out a value or fails, and then answers with the value. -/
theorem worked_out_discreet {α : Type} (work : Heap → Except CommandError α)
    (hwork : ∀ h : Heap, work h.outline = work h) (typeName : String) (value : α → HostValue) :
    t.Discreet fun h =>
      match work h with
      | .ok a => answer op h me typeName (value a)
      | .error e => { result := .error e, heap := h } := by
  apply Thread.Discreet.of_outline
  intro o
  cases ho : work o with
  | error e =>
    refine ⟨_, .reply (.error e) false [] .none, ?_⟩
    rintro h rfl
    rw [← hwork, ho]
  | ok a =>
    refine ⟨_, answer_discreet op me t typeName (value a), ?_⟩
    rintro h rfl
    rw [← hwork, ho]

theorem total_discreet (args : List Value) : t.Discreet fun h =>
    match total op h 0 args with
    | .ok n => answerInt op h me n
    | .error e => { result := .error e, heap := h } := by
  refine (worked_out_discreet op me t (total op · 0 args) (total_outline op · args 0) "Core.Int"
    HostValue.integer).congr fun h => ?_
  cases total op h 0 args <;> rfl

theorem joined_discreet (args : List Value) : t.Discreet fun h =>
    match joined op h "" args with
    | .ok s => answerText op h me s
    | .error e => { result := .error e, heap := h } := by
  refine (worked_out_discreet op me t (joined op · "" args) (joined_outline op · args "")
    "Core.String" HostValue.text).congr fun h => ?_
  cases joined op h "" args <;> rfl

theorem storeValue_discreet (o : ObjectId) :
    t.Discreet fun h => storeValue op (h.view (.stack t.stack)) h o := by
  refine (Thread.Discreet.set (.stack t.stack) op.text o fun (r : Except MemoryError Bool) =>
    .reply (match r with
      | .ok _ => .ok (some o)
      | .error e => .error (.memory e)) false [] .none).congr fun h => ?_
  unfold storeValue
  cases h.setPath (h.view (.stack t.stack)) op.text o <;> rfl

theorem trace_discreet (args : List Value) : t.Discreet fun h =>
    { result := .ok (args.getLastD none), heap := h,
      lines := [op.text ++ String.intercalate "," (args.map (traceText h))] } :=
  (Thread.Discreet.of_told traceText (fun h => funext (traceText_outline h)) fun text =>
    .reply (.ok (args.getLastD none)) false [op.text ++ String.intercalate "," (args.map text)]
      .none).congr fun _ => rfl

theorem keys_discreet : t.Discreet fun h => answerText op h me
    (String.intercalate "," (Text.sorted ((h.view (.stack t.stack)).keyNames h))) := by
  have hkeys : ∀ h : Heap, (h.outline.view (.stack t.stack)).keyNames h.outline =
      (h.view (.stack t.stack)).keyNames h := by
    intro h
    rw [h.view_outline, View.keyNames, View.keyNames, h.keys_outline]
  exact (Thread.Discreet.of_told (fun h => (h.view (.stack t.stack)).keyNames h) hkeys fun keys =>
    answer_discreet op me t "Core.String"
      (.text (String.intercalate "," (Text.sorted keys)))).congr fun _ => rfl

theorem layers_discreet : t.Discreet fun h => answerInt op h me (h.layers t.stack).length :=
  (Thread.Discreet.of_told (·.layers t.stack) (·.layers_outline t.stack) fun layers =>
    answer_discreet op me t "Core.Int" (.integer layers.length)).congr fun _ => rfl

theorem returnFrom_discreet (v : Value) : t.Discreet fun h => returnFrom t h v := by
  have hend : ∀ r, t.Discreet (returned r) := by
    intro r
    cases r with
    | error e => exact .reply _ _ _ _
    | ok _ => exact .reply _ _ _ _
  refine (Thread.Discreet.giveBack v hend).congr fun h => ?_
  unfold returnFrom
  cases t.setReturn h v <;> rfl

theorem push_discreet (o : ObjectId) : t.Discreet fun h =>
    answerFlag op (h.push t.stack (.object o)).2 me (h.push t.stack (.object o)).1 := by
  apply Thread.Discreet.of_outline
  intro k
  cases hc : conflictingKeys k ((k.layers t.stack).map k.view) (k.view (.object o)) with
  | nil =>
    refine ⟨_, .act (.setLayers t.stack (k.layers t.stack ++ [.object o]))
      (answer_discreet op me t "Core.Int" (.integer 1)), ?_⟩
    rintro h rfl
    rw [h.conflictingKeys_outline, h.layers_outline, funext h.view_outline] at hc
    simp only [Heap.push, Heap.pushChecked, hc]
    rfl
  | cons key keys =>
    refine ⟨_, answer_discreet op me t "Core.Int" (.integer 0), ?_⟩
    rintro h rfl
    rw [h.conflictingKeys_outline, h.layers_outline, funext h.view_outline] at hc
    simp only [Heap.push, Heap.pushChecked, hc]
    rfl

theorem pop_discreet : t.Discreet fun h =>
    answerFlag op (h.pop t.stack).2 me (h.pop t.stack).1.isSome :=
  (Thread.Discreet.of_told (·.layers t.stack) (·.layers_outline t.stack) fun layers =>
    .act (.setLayers t.stack layers.dropLast) (answer_discreet op me t "Core.Int"
      (.integer (if layers.getLast?.isSome then 1 else 0)))).congr fun _ => rfl

theorem plantValue_discreet (o : ObjectId) :
    t.Discreet fun h => plantValue op me (h.view (.stack t.stack)) h o := by
  have hend : ∀ r, t.Discreet (planted op me r) := by
    intro r
    cases r with
    | error e => exact .reply _ _ _ _
    | ok b => exact answer_discreet op me t _ _
  refine (Thread.Discreet.of_told (fun h => (h.object? o).map Object.type) (·.typeOf_outline o)
    fun type => .add (.stack t.stack) ⟨op.text, type.getD ⟨0⟩, {}⟩ (some o) hend).congr fun h => ?_
  simp only [plantValue, Heap.filledItem]
  generalize Heap.addTo _ _ _ = r
  cases r <;> rfl

end Operations

theorem Host.standard_discreet : Host.standard.Discreet := by
  intro op frame now pointer args
  apply Operations.ByKind.perform
  exact
    { reply := fun result lines delay => .reply result false lines delay
      answer := Operations.answer_discreet op frame.me frame.thread
      total := Operations.total_discreet op frame.me frame.thread args
      joined := Operations.joined_discreet op frame.me frame.thread args
      store := Operations.storeValue_discreet op frame.thread
      trace := Operations.trace_discreet op frame.thread args
      keys := Operations.keys_discreet op frame.me frame.thread
      layers := Operations.layers_discreet op frame.me frame.thread
      giveBack := Operations.returnFrom_discreet frame.thread
      returned := .returned fun v => .reply (.ok v) false [] .none
      push := Operations.push_discreet op frame.me frame.thread
      pop := Operations.pop_discreet op frame.me frame.thread
      plant := Operations.plantValue_discreet op frame.me frame.thread }

end GuardedScript
