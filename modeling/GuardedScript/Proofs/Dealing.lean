import GuardedScript.Host.Operations

/-!
Operations that reach memory only through the thread that asks. Such an operation makes one demand
after the other, to the stack of the thread or to what all threads share by name, goes on with the
answers, and in the end replies. What it has not asked for it cannot know and cannot change.
-/

namespace GuardedScript

/-- What all threads share by name: types, statics and objects. -/
structure Shared where
  registries : Table Registry
  statics : Assoc ItemId ObjectId
  objects : Table Object

def Heap.shared (h : Heap) : Shared := ⟨h.registries, h.statics, h.objects⟩

def Heap.withShared (h : Heap) (s : Shared) : Heap :=
  { h with registries := s.registries, statics := s.statics, objects := s.objects }

/-- The heap that holds nothing else. -/
def Shared.heap (s : Shared) : Heap := Heap.empty.withShared s

/-- A new loose item that holds the value, if there is one and it fits. -/
def Heap.filledItem (h : Heap) (p : Property) : Option ObjectId → Heap × Item
  | none => h.newItem p
  | some v =>
    let (h, item) := h.newItem p
    ((h.store item v).getD h, item)

/-- The stack of a thread, or one of its layers. -/
def Thread.part (t : Thread) (h : Heap) : Option Nat → Group
  | none => .stack t.stack
  | some i => (h.layers t.stack).getD i (.linked [])

/-- What an operation can ask for. -/
inductive Demand where
  -- to see and to change what is shared
  | shared (change : Shared → Shared)
  | read (part : Option Nat) (path : String)
  | keys (part : Option Nat)
  | depth
  | set (part : Option Nat) (path : String) (value : ObjectId)
  -- to fill or to empty an item, whatever its flags say
  | put (part : Option Nat) (key : String) (value : Option ObjectId)
  | add (part : Option Nat) (property : Property) (value : Option ObjectId)
  | push (object : ObjectId)
  | pushEmpty
  | pop
  | giveBack (value : Option ObjectId)
  | returned

namespace Demand

def Answer : Demand → Type
  | .shared _ => Shared
  | .read _ _ => Except MemoryError (Option ObjectId)
  | .keys _ => List Property
  | .depth => Nat
  | .set _ _ _ => Except MemoryError Bool
  | .put _ _ _ => Option Bool
  | .add _ _ _ => Except MemoryError Bool
  | .push _ => Bool
  | .pushEmpty => Unit
  | .pop => Bool
  | .giveBack _ => Except CommandError Unit
  | .returned => Option ObjectId

/-- Serves a demand on the memory of a thread. -/
def serve (t : Thread) (h : Heap) : (q : Demand) → q.Answer × Heap
  | .shared change => (h.shared, h.withShared (change h.shared))
  | .read part path => (h.readPath (h.view (t.part h part)) path, h)
  | .keys part => ((h.view (t.part h part)).keys h, h)
  | .depth => ((h.layers t.stack).length, h)
  | .set part path value =>
    match h.setPath (h.view (t.part h part)) path value with
    | .ok (b, h) => (.ok b, h)
    | .error e => (.error e, h)
  | .put part key value =>
    match (h.view (t.part h part)).find h key with
    | none => (none, h)
    | some i =>
      match value with
      | none => (some true, h.clear i.id)
      | some v =>
        match h.store i v with
        | some h => (some true, h)
        | none => (some false, h)
  | .add part p value =>
    let (h₁, item) := h.filledItem p value
    match h₁.addTo (h.view (t.part h part)) item with
    | .ok (b, h) => (.ok b, h)
    | .error e => (.error e, h₁)
  | .push o => h.push t.stack (.object o)
  | .pushEmpty => ((), (h.pushEmpty t.stack).1)
  | .pop => (((h.pop t.stack).1).isSome, (h.pop t.stack).2)
  | .giveBack value =>
    match t.setReturn h value with
    | .ok h => (.ok (), h)
    | .error e => (.error e, h)
  | .returned => (t.returnValue h, h)

end Demand

/-- What an operation does: it replies, or it asks and goes on with the answer. -/
inductive Dealing where
  | reply (result : Except CommandError (Option ObjectId)) (returned : Bool) (lines : List String)
      (delay : Delay)
  | ask (q : Demand) (next : q.Answer → Dealing)

def Dealing.run (t : Thread) : Dealing → Heap → HostReply
  | .reply result returned lines delay, h => ⟨result, h, returned, lines, delay⟩
  | .ask q next, h => (next (q.serve t h).1).run t (q.serve t h).2

/-- The replies, depending on the heap, are those of a dealing with the memory of the thread. -/
def Thread.Deals (t : Thread) (f : Heap → HostReply) : Prop := ∃ d : Dealing, ∀ h, f h = d.run t h

/-- Every operation of the host deals with memory through the thread that asks. -/
def Host.Confined (host : Host) : Prop := ∀ op (frame : Frame) now pointer args,
  frame.thread.Deals fun h => host.perform op frame ⟨⟨h, now⟩, pointer⟩ args

namespace Thread.Deals

variable {t : Thread}

theorem reply (result : Except CommandError (Option ObjectId)) (returned : Bool)
    (lines : List String) (delay : Delay) :
    t.Deals fun h => ⟨result, h, returned, lines, delay⟩ :=
  ⟨.reply result returned lines delay, fun _ => rfl⟩

theorem ask (q : Demand) {f : q.Answer → Heap → HostReply} (hf : ∀ a, t.Deals (f a)) :
    t.Deals fun h => f (q.serve t h).1 (q.serve t h).2 :=
  ⟨.ask q fun a => (hf a).choose, fun h => (hf (q.serve t h).1).choose_spec (q.serve t h).2⟩

/-- What is shared can be looked at first. -/
theorem look {f : Shared → Heap → HostReply} (hf : ∀ s, t.Deals (f s)) :
    t.Deals fun h => f h.shared h :=
  ask (.shared id) hf

theorem congr {f g : Heap → HostReply} (hf : t.Deals f) (hg : ∀ h, g h = f h) : t.Deals g := by
  obtain ⟨d, hd⟩ := hf
  exact ⟨d, fun h => (hg h).trans (hd h)⟩

/-- What is worked out from what is shared decides how to go on. -/
theorem check {α : Type} {f : Heap → Except CommandError α} (hf : ∀ h, f h = f h.shared.heap)
    {g : α → Heap → HostReply} (hg : ∀ a, t.Deals (g a)) :
    t.Deals fun h =>
      match f h with
      | .ok a => g a h
      | .error e => { result := .error e, heap := h } := by
  refine (look (f := fun s h =>
    match f s.heap with
    | .ok a => g a h
    | .error e => { result := .error e, heap := h }) fun s => ?_).congr fun h => ?_
  · cases f s.heap with
    | ok a => exact hg a
    | error e => exact .reply _ _ _ _
  · rw [hf h]

end Thread.Deals

theorem Heap.shared_withShared (h k : Heap) : (h.withShared k.shared).shared = k.shared := rfl

theorem Heap.shared_heap (h : Heap) : h.shared = h.shared.heap.shared := rfl

section
variable {h h' : Heap} (hs : h.shared = h'.shared)
include hs

theorem Heap.object?_shared (o : ObjectId) : h.object? o = h'.object? o := by
  rw [object?, object?, show h.objects = h'.objects from congrArg Shared.objects hs]

theorem Heap.registry_shared (r : RegistryId) : h.registry r = h'.registry r := by
  rw [registry, registry, show h.registries = h'.registries from congrArg Shared.registries hs]

theorem Heap.newObject_shared (r : RegistryId) (t : TypeRef) :
    h.newObject r t = (h'.newObject r t).map fun p => (h.withShared p.1.shared, p.2) := by
  unfold newObject
  rw [registry_shared hs]
  cases (h'.registry r).concrete t with
  | error e => rfl
  | ok p =>
    cases h
    cases h'
    cases hs
    rfl

theorem Heap.setBound_shared (o : ObjectId) (v : HostValue) :
    h.setBound o v = (h'.setBound o v).map fun k => h.withShared k.shared := by
  have hmodify : ∀ f, ({ h with objects := h.objects.modify o.index f } : Heap) =
      h.withShared { h' with objects := h'.objects.modify o.index f }.shared := by
    cases h
    cases h'
    cases hs
    exact fun _ => rfl
  unfold setBound putBound
  rw [object?_shared hs]
  cases h'.object? o with
  | none =>
    cases h
    cases h'
    cases hs
    rfl
  | some x =>
    dsimp only
    obtain ⟨e | ⟨⟩, y⟩ := x.putBound v
    · rfl
    · exact congrArg Except.ok (hmodify _)

end

namespace Operations

section kinds
variable (op : Operation) (frame : Frame) (args : List Value)

/-- A law for each kind of reply that the standard operations give, as functions of the heap. -/
structure ByKind (P : (Heap → HostReply) → Prop) : Prop where
  reply : ∀ result lines delay, P fun h => ⟨result, h, false, lines, delay⟩
  answer : ∀ typeName v, P fun h => answer op h frame.me typeName v
  total : P fun h =>
    match total op h 0 args with
    | .ok n => answerInt op h frame.me n
    | .error e => { result := .error e, heap := h }
  joined : P fun h =>
    match joined op h "" args with
    | .ok s => answerText op h frame.me s
    | .error e => { result := .error e, heap := h }
  store : ∀ o, P fun h => storeValue op (h.view (.stack frame.thread.stack)) h o
  trace : P fun h =>
    { result := .ok (args.getLastD none), heap := h,
      lines := [op.text ++ String.intercalate "," (args.map (traceText h))] }
  keys : P fun h => answerText op h frame.me
    (String.intercalate "," (Text.sorted ((h.view (.stack frame.thread.stack)).keyNames h)))
  layers : P fun h => answerInt op h frame.me (h.layers frame.thread.stack).length
  giveBack : ∀ v, P fun h => returnFrom frame.thread h v
  returned : P fun h => { result := .ok (frame.thread.returnValue h), heap := h }
  push : ∀ o, P fun h => answerFlag op (h.push frame.thread.stack (.object o)).2 frame.me
    (h.push frame.thread.stack (.object o)).1
  pop : P fun h => answerFlag op (h.pop frame.thread.stack).2 frame.me
    (h.pop frame.thread.stack).1.isSome
  plant : ∀ o, P fun h => plantValue op frame.me (h.view (.stack frame.thread.stack)) h o

variable {op frame args} {P : (Heap → HostReply) → Prop}

/-- Every operation is of one of these kinds, and its name tells which. -/
theorem ByKind.perform (hk : ByKind op frame args P) (now : Nat) (pointer : Pointer) :
    P fun h => Operations.perform op frame ⟨⟨h, now⟩, pointer⟩ args := by
  by_cases hsum : op.name = "sum"
  · simp only [Operations.perform, hsum]
    exact hk.total
  by_cases hconcat : op.name = "concat"
  · simp only [Operations.perform, hconcat]
    exact hk.joined
  by_cases hecho : op.name = "echo"
  · simp only [Operations.perform, hecho]
    exact hk.reply _ _ _
  by_cases hping : op.name = "ping"
  · simp only [Operations.perform, hping]
    exact hk.reply _ _ _
  by_cases hfail : op.name = "fail"
  · simp only [Operations.perform, hfail]
    exact hk.reply _ _ _
  by_cases hstore : op.name = "store"
  · simp only [Operations.perform, hstore]
    cases args.headD none with
    | none => exact hk.reply _ _ _
    | some o => exact hk.store o
  by_cases htrace : op.name = "trace"
  · simp only [Operations.perform, htrace]
    exact hk.trace
  by_cases hkeys : op.name = "keys"
  · simp only [Operations.perform, hkeys]
    exact hk.keys
  by_cases hlayers : op.name = "layers"
  · simp only [Operations.perform, hlayers]
    exact hk.layers
  by_cases hdepth : op.name = "depth"
  · simp only [Operations.perform, hdepth]
    exact hk.answer _ _
  by_cases hname : op.name = "name"
  · simp only [Operations.perform, hname]
    exact hk.answer _ _
  by_cases hstatus : op.name = "status"
  · simp only [Operations.perform, hstatus]
    exact hk.answer _ _
  by_cases hgrant : op.name = "grant"
  · simp only [Operations.perform, hgrant]
    exact hk.answer _ _
  by_cases hsetReturn : op.name = "set_return"
  · simp only [Operations.perform, hsetReturn]
    exact hk.giveBack _
  by_cases hreturnValue : op.name = "return_value"
  · simp only [Operations.perform, hreturnValue]
    exact hk.returned
  by_cases hpush : op.name = "push"
  · simp only [Operations.perform, hpush]
    cases args.headD none with
    | none => exact hk.reply _ _ _
    | some o => exact hk.push o
  by_cases hpop : op.name = "pop"
  · simp only [Operations.perform, hpop]
    exact hk.pop
  by_cases hplant : op.name = "plant"
  · simp only [Operations.perform, hplant]
    cases args.headD none with
    | none => exact hk.reply _ _ _
    | some o => exact hk.plant o
  by_cases hdeny : op.name = "deny"
  · simp only [Operations.perform, hdeny]
    exact hk.reply _ _ _
  by_cases hdenyNested : op.name = "deny_nested"
  · simp only [Operations.perform, hdenyNested]
    exact hk.reply _ _ _
  by_cases hsleep : op.name = "sleep"
  · simp only [Operations.perform, hsleep]
    exact hk.reply _ _ _
  by_cases hstall : op.name = "stall"
  · simp only [Operations.perform, hstall]
    exact hk.reply _ _ _
  simp only [Operations.perform]
  exact hk.reply _ _ _

end kinds

section
variable {h h' : Heap} (hs : h.shared = h'.shared) (op : Operation)
include hs

/-- Making an object touches only what is shared. -/
theorem make_shared (me : ObjectId) (typeName : String) (v : HostValue) :
    make op h me typeName v =
      (make op h' me typeName v).map fun r => (h.withShared r.1.shared, r.2) := by
  simp only [make, Heap.object?_shared hs, Heap.registry_shared hs, Heap.newObject_shared hs]
  cases (h'.registry _).resolve typeName with
  | error e => rfl
  | ok t =>
    dsimp only
    cases h'.newObject _ t with
    | error e => rfl
    | ok p =>
      obtain ⟨h₁, o⟩ := p
      have hb := Heap.setBound_shared (h.shared_withShared h₁) o v
      simp only [Except.map, hb]
      cases h₁.setBound o v with
      | error e => rfl
      | ok h₂ => rfl

theorem operand_shared (type : HostType) (v : Value) :
    operand op h type v = operand op h' type v := by
  cases v with
  | none => rfl
  | some o => simp only [operand, Heap.getBound, Heap.object?_shared hs]

theorem total_shared (args : List Value) (n : Int) : total op h n args = total op h' n args := by
  induction args generalizing n with
  | nil => rfl
  | cons a args ih => simp only [total, operand_shared hs, ih]

theorem joined_shared (args : List Value) (s : String) :
    joined op h s args = joined op h' s args := by
  induction args generalizing s with
  | nil => rfl
  | cons a args ih => simp only [joined, operand_shared hs, ih]

theorem traceText_shared (v : Value) : traceText h v = traceText h' v := by
  cases v with
  | none => rfl
  | some o => simp only [traceText, Heap.typeDisplay, Heap.object?_shared hs]

end

variable (op : Operation) (me : ObjectId) (t : Thread)

/-- What is shared once an object is made. -/
def making (typeName : String) (v : HostValue) (s : Shared) : Shared :=
  ((make op s.heap me typeName v).toOption.map fun r => r.1.shared).getD s

theorem answer_deals (typeName : String) (v : HostValue) :
    t.Deals fun h => answer op h me typeName v := by
  refine (Thread.Deals.ask (t := t) (.shared (making op me typeName v)) fun (s : Shared) => .reply
    ((make op s.heap me typeName v).map fun r => some r.2) false [] .none).congr ?_
  intro h
  simp only [Demand.serve, making, answer, make_shared h.shared_heap]
  cases make op h.shared.heap me typeName v with
  | error e => rfl
  | ok r => rfl

theorem total_deals (args : List Value) : t.Deals fun h =>
    match total op h 0 args with
    | .ok n => answerInt op h me n
    | .error e => { result := .error e, heap := h } := by
  refine (Thread.Deals.check (f := fun h => total op h 0 args)
    (fun h => total_shared h.shared_heap _ _ _) fun n =>
      answer_deals op me t "Core.Int" (.integer n)).congr fun h => ?_
  cases total op h 0 args <;> rfl

theorem joined_deals (args : List Value) : t.Deals fun h =>
    match joined op h "" args with
    | .ok s => answerText op h me s
    | .error e => { result := .error e, heap := h } := by
  refine (Thread.Deals.check (f := fun h => joined op h "" args)
    (fun h => joined_shared h.shared_heap _ _ _) fun s =>
      answer_deals op me t "Core.String" (.text s)).congr fun h => ?_
  cases joined op h "" args <;> rfl

theorem storeValue_deals (o : ObjectId) :
    t.Deals fun h => storeValue op (h.view (.stack t.stack)) h o := by
  refine (Thread.Deals.ask (t := t) (.set none op.text o) fun (r : Except MemoryError Bool) =>
    .reply (match r with
      | .ok _ => .ok (some o)
      | .error e => .error (.memory e)) false [] .none).congr ?_
  intro h
  simp only [storeValue, Demand.serve, Thread.part]
  cases h.setPath (h.view (.stack t.stack)) op.text o with
  | error e => rfl
  | ok r => rfl

/-- How an operation goes on when it has tried to add an item. -/
def planted : Except MemoryError Bool → Heap → HostReply
  | .ok b, h => answerFlag op h me b
  | .error e, h => { result := .error (.memory e), heap := h }

theorem planted_deals (r : Except MemoryError Bool) : t.Deals (planted op me r) := by
  cases r with
  | error e => exact .reply _ _ _ _
  | ok b => exact answer_deals op me t _ _

theorem plantValue_deals (o : ObjectId) :
    t.Deals fun h => plantValue op me (h.view (.stack t.stack)) h o := by
  refine (Thread.Deals.look (t := t) fun s => Thread.Deals.ask
    (.add none ⟨op.text, ((s.heap.object? o).map Object.type).getD ⟨0⟩, {}⟩ (some o))
    (planted_deals op me t)).congr ?_
  intro h
  have ho : h.shared.heap.object? o = h.object? o := rfl
  simp only [plantValue, Demand.serve, Heap.filledItem, Thread.part, ho]
  generalize Heap.addTo _ _ _ = r
  rcases r with e | ⟨b, h'⟩
  · rfl
  · rfl

/-- How an operation goes on when it has tried to return a value. -/
def returned : Except CommandError Unit → Heap → HostReply
  | .ok (), h => { result := .ok none, heap := h, returned := true }
  | .error e, h => { result := .error e, heap := h }

theorem returned_deals (r : Except CommandError Unit) : t.Deals (returned r) := by
  cases r with
  | error e => exact .reply _ _ _ _
  | ok b => exact .reply _ _ _ _

theorem returnFrom_deals (v : Value) : t.Deals fun h => returnFrom t h v := by
  refine (Thread.Deals.ask (t := t) (.giveBack v) (returned_deals t)).congr ?_
  intro h
  simp only [returnFrom, Demand.serve]
  cases t.setReturn h v with
  | error e => rfl
  | ok h' => rfl

theorem trace_deals (args : List Value) : t.Deals fun h =>
    { result := .ok (args.getLastD none), heap := h,
      lines := [op.text ++ String.intercalate "," (args.map (traceText h))] } := by
  refine (Thread.Deals.look (t := t) fun s => .reply (.ok (args.getLastD none)) false
    [op.text ++ String.intercalate "," (args.map (traceText s.heap))] .none).congr fun h => ?_
  have ht : traceText h = traceText h.shared.heap := funext (traceText_shared h.shared_heap)
  rw [ht]

theorem keys_deals : t.Deals fun h => answerText op h me
    (String.intercalate "," (Text.sorted ((h.view (.stack t.stack)).keyNames h))) :=
  Thread.Deals.ask (t := t) (.keys none) fun (ps : List Property) => answer_deals op me t _
    (.text (String.intercalate "," (Text.sorted (ps.map Property.key))))

theorem layers_deals : t.Deals fun h => answerInt op h me (h.layers t.stack).length :=
  Thread.Deals.ask (t := t) .depth fun (n : Nat) => answer_deals op me t _ (.integer n)

theorem push_deals (o : ObjectId) : t.Deals fun h =>
    answerFlag op (h.push t.stack (.object o)).2 me (h.push t.stack (.object o)).1 :=
  Thread.Deals.ask (t := t) (.push o) (f := fun (b : Bool) h => answerFlag op h me b) fun _ =>
    answer_deals op me t _ _

theorem pop_deals : t.Deals fun h =>
    answerFlag op (h.pop t.stack).2 me (h.pop t.stack).1.isSome :=
  Thread.Deals.ask (t := t) .pop (f := fun (b : Bool) h => answerFlag op h me b) fun _ =>
    answer_deals op me t _ _

theorem returnValue_deals : t.Deals fun h => { result := .ok (t.returnValue h), heap := h } :=
  Thread.Deals.ask (t := t) .returned fun (v : Option ObjectId) => .reply (.ok v) false [] .none

end Operations

theorem Host.standard_confined : Host.standard.Confined := by
  intro op frame now pointer args
  apply Operations.ByKind.perform
  exact
    { reply := fun result lines delay => .reply result false lines delay
      answer := Operations.answer_deals op frame.me frame.thread
      total := Operations.total_deals op frame.me frame.thread args
      joined := Operations.joined_deals op frame.me frame.thread args
      store := Operations.storeValue_deals op frame.thread
      trace := Operations.trace_deals op frame.thread args
      keys := Operations.keys_deals op frame.me frame.thread
      layers := Operations.layers_deals op frame.me frame.thread
      giveBack := Operations.returnFrom_deals frame.thread
      returned := Operations.returnValue_deals frame.thread
      push := Operations.push_deals op frame.me frame.thread
      pop := Operations.pop_deals op frame.me frame.thread
      plant := Operations.plantValue_deals op frame.me frame.thread }

end GuardedScript
