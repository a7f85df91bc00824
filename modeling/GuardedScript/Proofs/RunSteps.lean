import GuardedScript.Host.Operations
import GuardedScript.Proofs.HeapSteps
import GuardedScript.Proofs.ReturnSlot

/-!
Runs are made of steps. Whatever a script does to the heap, at any depth of calls, it does by the
steps that a host can take as well, if the operations of its host do. So what holds of a new heap
and is kept by every step holds whatever is done and run.
-/

namespace GuardedScript

open Heap Relation

/-- The host's operations change the heap by steps. -/
def Host.Stepwise (host : Host) : Prop :=
  ∀ op frame (s : State) args, s.heap.Steps (host.perform op frame s args).heap

section
variable (host : Host)

/-- What can be done to a heap from outside: single steps, groups made and stacks laid out at once,
and runs of commands, threads and calls. -/
inductive Heap.Change (h : Heap) : Heap → Prop where
  | step {h'} (hs : h.Step h') : Change h h'
  | fixedGroup (ps) : Change h (h.newFixedGroup ps []).1
  | inputMemory {script : Script} {inputs h' g} (hi : script.inputMemory h inputs = .ok (h', g)) :
      Change h h'
  | buildStack (t : Thread) (me inputs) (hl : ∀ g ∈ t.context.ambient.toList ++ [inputs],
      h.Grounded g ∧ h.Fits t.stack g) : Change h (t.buildStack h me inputs).2
  | setReturn {t : Thread} {v h'} (hr : t.setReturn h v = .ok h') : Change h h'
  | execute (c) (frame : Frame) (now pointer)
      (ha : ∀ g ∈ frame.thread.context.ambient, h.Grounded g) :
      Change h (exec host (frame.thread.context.caller host) c frame ⟨⟨h, now⟩, pointer⟩).state.heap
  | run (cs) (frame : Frame) (now pointer)
      (ha : ∀ g ∈ frame.thread.context.ambient, h.Grounded g) :
      Change h (runCommands host (frame.thread.context.caller host) cs frame
        ⟨⟨h, now⟩, pointer⟩).state.heap
  | call (call : Call) (now) (ha : ∀ g ∈ call.context.ambient, h.Grounded g) :
      Change h (Script.callIn host call ⟨h, now⟩).state.heap

/-- The heaps that come about from an empty one. -/
def Heap.Reached : Heap → Prop := ReflTransGen (Heap.Change host) Heap.empty

end

namespace Heap

variable {h h' : Heap}

theorem item?_newItem (h : Heap) (p : Property) :
    (h.newItem p).1.item? (.loose h.cells.size) = some (h.newItem p).2 := by
  simp [item?, newItem]

theorem steps_newFixedGroup (ps : List Property) {items : List Item}
    (hi : ∀ i ∈ items, ∃ n, i.id = .loose n ∧ h.item? (.loose n) = some i) :
    h.Steps (h.newFixedGroup ps items).1 := by
  induction ps generalizing h items with
  | nil =>
    refine .single (.newGroup false _ ?_)
    intro i hm
    obtain ⟨n, hn, hi⟩ := hi i (List.mem_reverse.mp hm)
    rw [hn, hi]
  | cons p ps ih =>
    have hnew : h.Steps (h.newItem p).1 := .single (.newItem p)
    refine hnew.trans (ih ?_)
    intro i hm
    rcases List.mem_cons.mp hm with rfl | hm
    · exact ⟨_, rfl, item?_newItem h p⟩
    · obtain ⟨n, hn, hi⟩ := hi i hm
      exact ⟨n, hn, hnew.looseItem hi⟩

/-- A new layer on the stack itself does not open a way back to the stack. -/
theorem Fits.setLayers {σ : StackId} {g : Group} (hf : h.Fits σ g) (ls : List Group) :
    (h.setLayers σ ls).Fits σ g := by
  intro τ hτ hστ
  refine hf τ hτ ?_
  clear hτ hf
  induction hστ with
  | refl => exact .refl
  | @tail ρ τ _ hin ih =>
    obtain ⟨a, ha, hl⟩ := hin
    rcases mem_layers_setLayers ha with ⟨rfl, _⟩ | ha
    · exact .refl
    · exact ih.tail ⟨a, ha, hl⟩

/-- No stack leads to a new one. -/
theorem fits_newStack (hp : h.Proper) {g : Group} (hg : h.Grounded g) :
    h.newStack.1.Fits h.newStack.2 g := by
  intro τ hτ hreach
  rcases hreach.cases_head with rfl | ⟨ρ, ⟨a, ha, hl⟩, _⟩
  · exact Nat.lt_irrefl _ (hg.layered hτ)
  · rw [layers_newStack] at ha
    exact Nat.lt_irrefl _ ((hp.grounded ha).layered hl)

end Heap

namespace Thread

variable {t : Thread} {h h' : Heap} {σ : StackId}

theorem setValue_step {path : String} {v : ObjectId} (hs : t.setValue h path v = .ok h') :
    h.Step h' := by
  unfold Thread.setValue at hs
  split at hs
  · cases hs
  · next hset =>
    cases hs
    exact .setPath hset
  · cases hs

theorem addLocal_steps {key : String} {type : TypeRef} (ha : t.addLocal h key type = .ok h') :
    h.Steps h' := by
  unfold Thread.addLocal at ha
  split at ha
  · cases ha
  · simp only at ha
    split at ha
    · cases ha
    · next hadd =>
      cases ha
      exact (ReflTransGen.single (.newItem _)).tail (.add (item?_newItem h _) hadd)
    · cases ha

theorem setReturn_steps {v : Option ObjectId} (hr : t.setReturn h v = .ok h') : h.Steps h' := by
  cases v with
  | none =>
    cases hr
    exact .refl
  | some v =>
    simp only [Thread.setReturn] at hr
    split at hr
    · cases hr
    · split at hr
      · cases hr
      · next h₁ hstore =>
        split at hr
        · cases hr
        · cases hr
        · next hadd =>
          cases hr
          have hitem := item?_newItem h ⟨returnKey, ((h.object? v).map Object.type).getD ⟨0⟩, {}⟩
          have hs : (h.newItem _).1.Step h₁ := .store hitem hstore
          refine ((ReflTransGen.single (.newItem _)).tail hs).tail (.add ?_ hadd)
          exact Steps.looseItem (.single hs) hitem

theorem layDown_ok {g : Group} (hd : layDown h σ g = .ok h') :
    h.pushChecked σ g = .ok h' ∧ h' = h.setLayers σ (h.layers σ ++ [g]) := by
  unfold layDown at hd
  split at hd
  · cases hd
  · refine ⟨hd, ?_⟩
    unfold pushChecked at hd
    split at hd <;> cases hd
    rfl

theorem layAll_steps {gs : List Group} (hgs : ∀ g ∈ gs, h.Grounded g ∧ h.Fits σ g) :
    h.Steps (layAll h σ gs).2 := by
  induction gs generalizing h with
  | nil => exact .refl
  | cons g gs ih =>
    obtain ⟨hg, hf⟩ := hgs g List.mem_cons_self
    rw [layAll]
    split
    · exact .refl
    · next h₁ hd =>
      obtain ⟨hp, rfl⟩ := layDown_ok hd
      have hstep : h.Steps _ := .single (.pushChecked hg hf hp)
      refine hstep.trans (ih ?_)
      intro a ha
      obtain ⟨hg, hf⟩ := hgs a (List.mem_cons_of_mem g ha)
      exact ⟨hstep.grounded hg, hf.setLayers _⟩

theorem fits_memory (h : Heap) (σ : StackId) (o : ObjectId) : h.Fits σ (h.memory o) := by
  intro τ hτ
  rw [memory, Group.leaves, Group.leavesList_map_plain] at hτ
  obtain ⟨_, _, he⟩ := List.mem_map.mp hτ
  cases he

theorem buildStack_steps {inputs : Group} (hl : ∀ g ∈ t.context.ambient.toList ++ [inputs],
    h.Grounded g ∧ h.Fits t.stack g) (me : ObjectId) : h.Steps (t.buildStack h me inputs).2 := by
  have hlaid : h.Steps
      (layAll h t.stack (t.context.ambient.toList ++ [h.memory me, inputs])).2 := by
    apply layAll_steps
    intro g hg
    simp only [List.mem_append, List.mem_cons, List.not_mem_nil, or_false] at hg hl
    rcases hg with hg | rfl | hg
    · exact hl g (.inl hg)
    · exact ⟨(h.knows_memory me).grounded, fits_memory h t.stack me⟩
    · exact hl g (.inr hg)
  unfold buildStack
  split
  · next hlay =>
    rw [hlay] at hlaid
    exact hlaid
  · next hlay =>
    rw [hlay] at hlaid
    exact hlaid.tail (.pushEmpty _)

end Thread

theorem Script.fillInputs_steps {s : Script} {pairs : List (ScriptInput × ObjectId)}
    {h h' : Heap} {items : List Item} (hf : s.fillInputs h pairs = .ok (h', items)) :
    h.Steps h' ∧ ∀ i ∈ items, h'.item? i.id = some i := by
  induction pairs generalizing h items with
  | nil =>
    cases hf
    exact ⟨.refl, fun _ hm => nomatch hm⟩
  | cons e pairs ih =>
    simp only [Script.fillInputs] at hf
    split at hf
    · cases hf
    · next h₁ hstore =>
      split at hf
      · cases hf
      · next h₂ rest hrest =>
        cases hf
        obtain ⟨hsteps, hitems⟩ := ih hrest
        have hitem := item?_newItem h (inputProperty e.1)
        have hfirst : (h.newItem (inputProperty e.1)).1.Step h₁ := .store hitem hstore
        have hrest : (h.newItem (inputProperty e.1)).1.Steps h' := .head hfirst hsteps
        refine ⟨.head (.newItem _) hrest, List.forall_mem_cons.mpr ⟨?_, hitems⟩⟩
        exact hrest.looseItem hitem

theorem Script.inputMemory_steps {s : Script} {h h' : Heap} {inputs : List ObjectId} {g : GroupId}
    (hi : s.inputMemory h inputs = .ok (h', g)) : h.Steps h' := by
  unfold Script.inputMemory at hi
  split at hi
  · cases hi
  · split at hi
    · cases hi
    · split at hi
      · cases hi
      · next h₁ items hfill =>
        cases hi
        obtain ⟨hsteps, hitems⟩ := Script.fillInputs_steps hfill
        exact hsteps.tail (.newGroup false items hitems)

section
variable {host : Host} {caller : Option Caller} {may : Command → Prop} {me : ObjectId} {t : Thread}

/-- A call in a heap in order, amid memory that the heap has, changes the heap by steps. -/
def Call.Stepwise (call : Call) (m : Moment) (r : Reply ScriptError Moment (Option ObjectId)) :
    Prop :=
  m.heap.Proper → (∀ g ∈ call.context.ambient, m.heap.Grounded g) → m.heap.Steps r.state.heap

/-- All calls that a thread can make change the heap by steps. -/
def Stepwise (caller : Option Caller) : Prop :=
  ∀ run, caller = some run → ∀ (call : Call) (m : Moment), call.Stepwise m (run call m)

theorem Effect.call_steps (hc : Stepwise caller) {script : Script} {inputs : List ObjectId}
    {held : List Holder} {s : State} (hp : s.heap.Proper)
    (ha : ∀ g ∈ t.context.ambient, s.heap.Grounded g) :
    s.heap.Steps (Effect.call caller script inputs ⟨me, t, held⟩ s).state.heap := by
  cases caller with
  | none => exact .refl
  | some run => exact hc run rfl _ s.toMoment hp ha

/-- The induction is on the stretch of the run; a heap in order is what every stretch leaves to the
next. -/
theorem Trail.steps (hh : host.Stepwise) (hc : Stepwise caller) {s s' : State}
    {o : Outcome CommandError Unit} {es : List Entry} (h : Trail host caller may me t s o s' es)
    (hp : s.heap.Proper) (ha : ∀ g ∈ t.context.ambient, s.heap.Grounded g) :
    s.heap.Steps s'.heap := by
  induction h with
  | still | slip | enter | throw => exact .refl
  | set hs => exact .single (Thread.setValue_step hs)
  | add hs => exact Thread.addLocal_steps hs
  | giveBack hs => exact Thread.setReturn_steps hs
  | @perform s held c op args _ _ r hr =>
    obtain ⟨now, hstate⟩ := Effect.perform_state host op args ⟨me, t, held⟩ s
    rw [← hr, hstate]
    exact hh op ⟨me, t, held⟩ s args
  | call s held script inputs hr =>
    rw [← hr]
    exact Effect.call_steps hc hp ha
  | seq _ _ ih₁ ih₂ | caught _ _ _ ih₁ ih₂ | beside _ _ _ _ _ ih₁ ih₂ =>
    have hfirst := ih₁ hp ha
    exact hfirst.trans (ih₂ (hfirst.proper hp) fun g hg => hfirst.grounded (ha g hg))
  | inputsFailed _ ih => exact ih hp ha

theorem Course.steps (hh : host.Stepwise) (hc : Stepwise caller) {s s' : State}
    {o : Outcome CommandError Unit} {es : List Entry} (h : Course host caller me t s o s' es)
    (hp : s.heap.Proper) (ha : ∀ g ∈ t.context.ambient, s.heap.Grounded g) :
    s.heap.Steps s'.heap := by
  induction h with
  | stop | denied => exact .refl
  | fault _ ht | wait _ ht => exact ht.steps hh hc hp ha
  | next _ ht _ ih =>
    have hfirst := ht.steps hh hc hp ha
    exact hfirst.trans (ih (hfirst.proper hp) fun g hg => hfirst.grounded (ha g hg))

/-- The heap in which a call's inputs are ready and its stack is new. -/
theorem Call.steps_newStack {call : Call} {m : Moment} {b : Heap} {g : GroupId}
    (hi : call.script.inputMemory m.heap call.inputs = .ok (b, g)) (hp : m.heap.Proper)
    (ha : ∀ a ∈ call.context.ambient, m.heap.Grounded a) :
    m.heap.Steps b.newStack.1 ∧ ∀ a ∈ call.context.ambient.toList ++ [.plain g],
      b.newStack.1.Grounded a ∧ b.newStack.1.Fits b.newStack.2 a := by
  have hfed := Script.inputMemory_steps hi
  have hpb := hfed.proper hp
  refine ⟨hfed.tail .newStack, ?_⟩
  have hgrounded : ∀ a ∈ call.context.ambient.toList ++ [.plain g], b.Grounded a := by
    intro a hm
    rcases List.mem_append.mp hm with hm | hm
    · exact hfed.grounded (ha a (Option.mem_toList.mp hm))
    · obtain ⟨_, _, rfl, hsize⟩ := Script.inputMemory_ok hi
      rw [List.mem_singleton.mp hm]
      constructor
      · intro n hn
        simp only [Group.leaves, List.mem_singleton, Group.plain.injEq] at hn
        cases hn
        omega
      · intro τ hτ
        simp [Group.leaves] at hτ
  intro a hm
  have hg := hgrounded a hm
  exact ⟨Steps.grounded (.single .newStack) hg, fits_newStack hpb hg⟩

theorem callAt_steps (hh : host.Stepwise) (levels : Nat) (call : Call) (m : Moment) :
    call.Stepwise m (callAt host levels call m) := by
  refine callAt_induction host ?_ levels call m
  intro caller hc call m r hr hp ha
  cases hr with
  | refused => exact .refl
  | @unbuilt b g e h' hi hb =>
    obtain ⟨hsteps, hl⟩ := call.steps_newStack hi hp ha
    have hbuilt := Thread.buildStack_steps (t := call.thread b.newStack.2) hl
      call.script.parent
    rw [hb] at hbuilt
    exact hsteps.trans hbuilt
  | @ran b g t h' o s es hi hb hr =>
    obtain ⟨hsteps, hl⟩ := call.steps_newStack hi hp ha
    have hbuilt := Thread.buildStack_steps (t := call.thread b.newStack.2) hl
      call.script.parent
    rw [hb] at hbuilt
    have hready : m.heap.Steps h' := hsteps.trans hbuilt
    obtain ⟨_, rfl⟩ := Thread.buildStack_ok hb
    exact hready.trans (hr.steps hh hc (hready.proper hp) fun a hm => hready.grounded (ha a hm))

theorem Context.caller_stepwise (hh : host.Stepwise) (c : Context) : Stepwise (c.caller host) := by
  intro run hrun
  unfold Context.caller at hrun
  split at hrun <;> cases hrun
  exact callAt_steps hh _

/-- Whatever is done, it is done by steps. -/
theorem Heap.Change.steps (hh : host.Stepwise) {h h' : Heap} (hc : h.Change host h')
    (hp : h.Proper) : h.Steps h' := by
  cases hc with
  | step hs => exact .single hs
  | fixedGroup ps => exact steps_newFixedGroup ps fun _ hm => nomatch hm
  | inputMemory hi => exact Script.inputMemory_steps hi
  | buildStack t me inputs hl => exact Thread.buildStack_steps hl me
  | setReturn hr => exact Thread.setReturn_steps hr
  | execute c frame now pointer ha =>
    obtain ⟨me, t, held⟩ := frame
    have hfollows : (exec host (t.context.caller host) c).Follows host (t.context.caller host)
        (fun _ => True) me t := exec_follows (fun _ _ _ _ => trivial) c trivial
    exact (hfollows held ⟨⟨h, now⟩, pointer⟩ _ rfl).steps hh (t.context.caller_stepwise hh) hp ha
  | run cs frame now pointer ha =>
    obtain ⟨me, t, held⟩ := frame
    have hcourse := runCommands_course host (t.context.caller host) me t cs held
      ⟨⟨h, now⟩, pointer⟩
    exact hcourse.steps hh (t.context.caller_stepwise hh) hp ha
  | call call now ha => exact callAt_steps hh _ call ⟨h, now⟩ hp ha

/-- The run lemma: every heap that comes about is in order. -/
theorem Heap.Reached.proper (hh : host.Stepwise) {h : Heap} (hr : Heap.Reached host h) :
    h.Proper := by
  induction hr with
  | refl => exact proper_empty
  | tail _ hc ih => exact (hc.steps hh ih).proper ih

end

namespace Operations

variable {op : Operation} {h h' : Heap} {me o : ObjectId}

theorem make_steps {typeName : String} {v : HostValue}
    (hm : make op h me typeName v = .ok (h', o)) : h.Steps h' := by
  unfold make at hm
  simp only at hm
  split at hm
  · cases hm
  · split at hm
    · cases hm
    · next hn =>
      split at hm
      · cases hm
      · next hb =>
        cases hm
        exact (ReflTransGen.single (.newObject hn)).tail (.setBound hb)

theorem answer_steps (op : Operation) (h : Heap) (me : ObjectId) (typeName : String)
    (v : HostValue) : h.Steps (answer op h me typeName v).heap := by
  unfold answer
  split
  · next hm => exact make_steps hm
  · exact .refl

theorem storeValue_steps (stack : View) : h.Steps (storeValue op stack h o).heap := by
  unfold storeValue
  split
  · next hs => exact .single (.setPath hs)
  · exact .refl

/-- A new item is filled if the value fits. -/
theorem storeNew_steps (h : Heap) (p : Property) (o : ObjectId) {h₁ : Heap}
    (hs : ((h.newItem p).1.store (h.newItem p).2 o).getD (h.newItem p).1 = h₁) :
    h.Steps h₁ ∧ h₁.item? (.loose h.cells.size) = some (h.newItem p).2 := by
  have hitem := item?_newItem h p
  have hfilled : (h.newItem p).1.Steps h₁ := by
    subst hs
    cases hs : (h.newItem p).1.store (h.newItem p).2 o with
    | none => exact .refl
    | some h₂ => exact .single (.store hitem hs)
  exact ⟨.head (.newItem p) hfilled, hfilled.looseItem hitem⟩

theorem plantValue_steps (stack : View) : h.Steps (plantValue op me stack h o).heap := by
  unfold plantValue
  simp only
  obtain ⟨hsteps, hitem⟩ := storeNew_steps h _ o rfl
  split
  · next hadd => exact (hsteps.tail (.add hitem hadd)).trans (answer_steps op _ me _ _)
  · exact hsteps

theorem returnFrom_steps (t : Thread) (v : Value) : h.Steps (returnFrom t h v).heap := by
  unfold returnFrom
  split
  · next hr => exact Thread.setReturn_steps hr
  · exact .refl

theorem step_pushObject (h : Heap) (σ : StackId) (o : ObjectId) :
    h.Step (h.push σ (.object o)).2 := by
  apply Step.push
  · constructor
    · intro n hn
      simp [Group.leaves] at hn
    · intro τ hτ
      simp [Group.leaves] at hτ
  · intro τ hτ
    simp [Group.leaves] at hτ

end Operations

theorem Host.standard_stepwise : Host.standard.Stepwise := by
  intro op frame s args
  simp only [Host.standard, Operations.perform]
  split
  · split
    · exact Operations.answer_steps op _ _ _ _
    · exact .refl
  · split
    · exact Operations.answer_steps op _ _ _ _
    · exact .refl
  · exact .refl
  · exact .refl
  · exact .refl
  · split
    · exact .refl
    · exact Operations.storeValue_steps _
  · exact .refl
  · exact Operations.answer_steps op _ _ _ _
  · exact Operations.answer_steps op _ _ _ _
  · exact Operations.answer_steps op _ _ _ _
  · exact Operations.answer_steps op _ _ _ _
  · exact Operations.answer_steps op _ _ _ _
  · exact Operations.answer_steps op _ _ _ _
  · exact Operations.returnFrom_steps _ _
  · exact .refl
  · split
    · exact .refl
    · exact .head (Operations.step_pushObject _ _ _) (Operations.answer_steps op _ _ _ _)
  · exact .head (.pop _) (Operations.answer_steps op _ _ _ _)
  · split
    · exact .refl
    · exact Operations.plantValue_steps _
  all_goals exact .refl

end GuardedScript
