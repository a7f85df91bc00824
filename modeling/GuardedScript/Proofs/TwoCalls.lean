import GuardedScript.Proofs.Likeness

/-!
One call in two heaps. Let a relation of heaps be such that related heaps are read alike and that
whatever a thread, an operation or the layout of a call does to them keeps them related. Then a call
ends alike in both and leaves related heaps, however deep the calls go that it makes. Only the
question whether the parent of a script is alive may be answered differently, since what lives can
depend on values that never show. So calls are compared as they go on without this question, which
is how they go as long as no script has lost its parent.
-/

namespace GuardedScript

/-- The thread of a call with its inputs and its stack, or why there is none, and the heap. -/
def Call.lay (call : Call) (h : Heap) : Except InputError (Except MemoryError Thread × Heap) :=
  match call.script.inputMemory h call.inputs with
  | .error e => .error e
  | .ok (b, g) =>
    .ok ((call.thread b.newStack.2).buildStack b.newStack.1 call.script.parent (.plain g))

/-- Makes a call whether or not its parent is alive. -/
def Call.proceed (host : Host) (caller : Option Caller) (call : Call) (m : Moment) :
    Reply ScriptError Moment (Option ObjectId) :=
  match call.lay m.heap with
  | .error e => ⟨.failed (.input e), m, []⟩
  | .ok (.error e, h) =>
    ⟨.failed (.memory call.script.threadName e), { m with heap := h }, [call.started]⟩
  | .ok (.ok t, h) =>
    let r := runThread host caller call t { m with heap := h }
    ⟨r.outcome, r.state, call.started :: r.events⟩

/-- Calls that go on, and all calls that they make. -/
def proceedAt (host : Host) : Nat → Caller
  | 0 => Call.proceed host none
  | levels + 1 => Call.proceed host (some (proceedAt host levels))

/-- No script that is called has lost its parent: the call goes as it does when parents are not
asked for. -/
def Call.Attached (host : Host) (call : Call) (m : Moment) : Prop :=
  Script.callIn host call m = proceedAt host call.context.levels call m

theorem callScript_of_living {host : Host} {caller : Option Caller} {call : Call} {m : Moment}
    (hl : m.heap.isLiving (call.inputs.map .object ++ call.held) call.script.parent = true) :
    callScript host caller call m = call.proceed host caller m := by
  unfold Call.proceed Call.lay
  cases hi : call.script.inputMemory m.heap call.inputs with
  | error e => exact callScript_unfit call hl hi
  | ok p =>
    obtain ⟨b, g⟩ := p
    rcases hb : (call.thread b.newStack.2).buildStack b.newStack.1 call.script.parent (.plain g)
      with ⟨e | t, a⟩
    · simp only [hb]
      exact callScript_unbuilt call hl hi hb
    · simp only [hb]
      exact callScript_built call hl hi hb

theorem Call.context_of_lay {call : Call} {h a : Heap} {t : Thread}
    (hl : call.lay h = .ok (.ok t, a)) : t.context = call.context := by
  unfold Call.lay at hl
  split at hl
  · cases hl
  · next b g hi => exact Call.Starts.context (h := h) (g := g) ⟨b, hi, Except.ok.inj hl⟩

section agreement
variable (rel : Heap → Heap → Prop)

/-- Two calls ended alike and left related heaps. -/
structure SameReply (r r' : Reply ScriptError Moment (Option ObjectId)) : Prop where
  outcome : r.outcome = r'.outcome
  events : r.events = r'.events
  now : r.state.now = r'.state.now
  heap : rel r.state.heap r'.state.heap

/-- Amid the given memory, calls end alike in related heaps. -/
def Caller.Agrees (ambient : Option Group) (run : Caller) : Prop :=
  ∀ (call : Call) {h h' : Heap} (now : Nat), call.context.ambient = ambient → rel h h' →
    SameReply rel (run call ⟨h, now⟩) (run call ⟨h', now⟩)

/-- Related heaps are read alike by the threads that fit, and stay related under all that is done in
calls amid the given memory. -/
structure Corresponds (host : Host) (ambient : Option Group) (fits : Thread → Prop) : Prop where
  read : ∀ {t h h'}, fits t → rel h h' → ∀ path,
    h.readPath (t.view h) path = h'.readPath (t.view h') path
  readOf : ∀ {h h'}, rel h h' → ∀ o path,
    h.readPath (h.outside o) path = h'.readPath (h'.outside o) path
  carried : ∀ {h h'}, rel h h' → ∀ o, Script.boundTo h o = Script.boundTo h' o
  set : ∀ {t h h'}, fits t → rel h h' → ∀ path v,
    SameResult rel (t.setValue h path v) (t.setValue h' path v)
  add : ∀ {t h h'}, fits t → rel h h' → ∀ key type,
    SameResult rel (t.addLocal h key type) (t.addLocal h' key type)
  giveBack : ∀ {t h h'}, fits t → rel h h' → ∀ v,
    SameResult rel (t.setReturn h v) (t.setReturn h' v)
  perform : ∀ {t h h'}, fits t → rel h h' → ∀ op me held now pointer args, ∃ a',
    host.perform op ⟨me, t, held⟩ ⟨⟨h', now⟩, pointer⟩ args =
      { host.perform op ⟨me, t, held⟩ ⟨⟨h, now⟩, pointer⟩ args with heap := a' } ∧
    rel (host.perform op ⟨me, t, held⟩ ⟨⟨h, now⟩, pointer⟩ args).heap a'
  returned : ∀ {t h h'}, fits t → rel h h' → t.returnValue h = t.returnValue h'
  checked : ∀ {h h'}, rel h h' → ∀ script v, checkReturn h script v = checkReturn h' script v
  lay : ∀ {call : Call} {h h'}, call.context.ambient = ambient → rel h h' →
    SameResult (fun p q => q.1 = p.1 ∧ rel p.2 q.2 ∧ ∀ t, p.1 = .ok t → fits t)
      (call.lay h) (call.lay h')

variable {rel} {host : Host} {caller : Option Caller} {ambient : Option Group}
variable {me : ObjectId} {t : Thread}

theorem SameResult.change {x y : Except CommandError Heap} (h : SameResult rel x y) :
    SameChange rel x y := by
  cases h with
  | ok h => exact h
  | error e => rfl

/-- A thread's calls are made amid the memory of the thread. -/
theorem Effect.call_agree (hrun : ∀ run, caller = some run → run.Agrees rel ambient)
    (ht : t.context.ambient = ambient) (script : Script) (inputs : List ObjectId) :
    (Effect.call caller script inputs).Agree rel .nothing .nothing me t t
      (Effect.call caller script inputs) := by
  rintro held ⟨⟨h, now⟩, pointer⟩ ⟨⟨h', _⟩, _⟩ ⟨hr, rfl, rfl⟩ _ _
  cases caller with
  | none => exact ⟨rfl, rfl, ⟨hr, rfl, rfl⟩⟩
  | some run =>
    have hsame := hrun run rfl (t.calling script inputs held) now ht hr
    exact ⟨congrArg (Outcome.mapError CommandError.ofCall) hsame.outcome, hsame.events,
      ⟨hsame.heap, hsame.now, rfl⟩⟩

namespace Corresponds

variable {fits : Thread → Prop} (hc : Corresponds rel host ambient fits)
include hc

/-- The operations of the host take the same time on both sides. -/
theorem perform_agree (ht : fits t) (op : Operation) (args : List (Option ObjectId)) :
    (Effect.perform host op args).Agree rel .nothing .nothing me t t
      (Effect.perform host op args) := by
  rintro held ⟨⟨h, now⟩, pointer⟩ ⟨⟨h', _⟩, _⟩ ⟨hr, rfl, rfl⟩ _ _
  obtain ⟨a', hreply, ha⟩ := hc.perform ht hr op me held now pointer args
  simp only [Effect.perform, hreply]
  cases (host.perform op ⟨me, t, held⟩ ⟨⟨h, now⟩, pointer⟩ args).delay with
  | none => exact ⟨rfl, rfl, ⟨ha, rfl, rfl⟩⟩
  | forever => exact ⟨rfl, rfl, ⟨ha, rfl, rfl⟩⟩
  | span ms =>
    simp only [Effect.delayed]
    by_cases hdeadline : t.context.deadline.any (· < now + ms) = true
    · simp only [hdeadline, if_true]
      exact ⟨rfl, rfl, ⟨ha, rfl, rfl⟩⟩
    · simp only [hdeadline]
      exact ⟨rfl, rfl, ⟨ha, rfl, rfl⟩⟩

section
variable (hrun : ∀ run, caller = some run → run.Agrees rel ambient)
include hrun

theorem comparable (ht : fits t) (hambient : t.context.ambient = ambient) :
    Comparable rel .nothing .nothing me t t host caller caller where
  toTwin := .refl t
  read := hc.read ht
  readOf := hc.readOf
  carried := hc.carried
  set hr path v := (hc.set ht hr path v).change
  add hr key type := (hc.add ht hr key type).change
  giveBack hr v := (hc.giveBack ht hr v).change
  perform := hc.perform_agree ht
  call := Effect.call_agree hrun hambient
  inputs _ hx := .gather (.refl t) (.evaluateAll (.refl t) rfl hx)

omit hrun in
theorem conclude_same (ht : fits t) {s s' : State} (hm : Matched rel s s') (script : Script)
    (o : Outcome CommandError Unit) : t.conclude script s o = t.conclude script s' o := by
  cases o with
  | waiting => rfl
  | failed e => rfl
  | done _ => simp only [Thread.conclude, hm.pointer, hc.returned ht hm.heap, hc.checked hm.heap]

theorem runThread_same (ht : fits t) (hambient : t.context.ambient = ambient) (call : Call)
    {h h' : Heap} (now : Nat) (hr : rel h h') :
    SameReply rel (runThread host caller call t ⟨h, now⟩)
      (runThread host caller call t ⟨h', now⟩) := by
  have hsteps : Comparable rel .nothing .nothing call.script.parent t t host caller caller :=
    hc.comparable hrun ht hambient
  obtain ⟨ho, he, hs⟩ := runCommands_agree hsteps t.commands
    (.object call.script.parent :: (t.holders ++ call.held))
    ⟨⟨h, now⟩, .start t.commands.length⟩ ⟨⟨h', now⟩, .start t.commands.length⟩ ⟨hr, rfl, rfl⟩
    (Watch.nothing_clear _ _) (Watch.nothing_clear _ _)
  refine ⟨?_, he, hs.now, hs.heap⟩
  simp only [runThread, ← ho]
  exact hc.conclude_same ht hs _ _

theorem proceed_agrees : Caller.Agrees rel ambient (Call.proceed host caller) := by
  intro call h h' now hambient hr
  unfold Call.proceed
  rcases (hc.lay hambient hr).split with ⟨e, hl, hl'⟩ | ⟨p, q, hl, hl', hsame, hlaid, hfits⟩
  · rw [hl, hl']
    exact ⟨rfl, rfl, rfl, hr⟩
  · obtain ⟨r, a⟩ := p
    obtain ⟨r', a'⟩ := q
    obtain rfl : r' = r := hsame
    rw [hl, hl']
    cases r' with
    | error e => exact ⟨rfl, rfl, rfl, hlaid⟩
    | ok t =>
      have hcontext := Call.context_of_lay hl
      have hend := hc.runThread_same hrun (hfits t rfl) (hcontext ▸ hambient) call now hlaid
      exact ⟨hend.outcome, congrArg (call.started :: ·) hend.events, hend.now, hend.heap⟩

end

/-- The induction is on the levels of calls that are left. -/
theorem proceedAt_agrees (levels : Nat) : Caller.Agrees rel ambient (proceedAt host levels) := by
  induction levels with
  | zero =>
    apply hc.proceed_agrees
    rintro run ⟨⟩
  | succ levels ih =>
    apply hc.proceed_agrees
    rintro run ⟨⟩
    exact ih

/-- A call goes alike in related heaps, as long as no script has lost its parent. -/
theorem callIn (call : Call) {h h' : Heap} (now : Nat) (hambient : call.context.ambient = ambient)
    (hr : rel h h') (ha : call.Attached host ⟨h, now⟩) (ha' : call.Attached host ⟨h', now⟩) :
    SameReply rel (Script.callIn host call ⟨h, now⟩) (Script.callIn host call ⟨h', now⟩) := by
  rw [ha, ha']
  exact hc.proceedAt_agrees call.context.levels call now hambient hr

end Corresponds

end agreement

mutual

/-- At the bottom of the failure a script had lost its parent. -/
def CommandError.outlived : CommandError → Bool
  | .script e => e.outlived
  | _ => false

def ScriptError.outlived : ScriptError → Bool
  | .faulted _ source => source.outlived
  | .detached _ => true
  | _ => false

end

/-- Such a failure was caught or dropped. -/
def Event.tellsOutlived : Event → Bool
  | .handling e | .dropped e => e.outlived
  | _ => false

def Watch.outlived : Watch :=
  ⟨fun e => e.tellsOutlived = true, fun e => e.outlived = true, id, id⟩

theorem Watch.outlived_of_done {α : Type} {events : List Entry} {o : Outcome CommandError α} {a : α}
    (ho : o = .done a) (he : (events.all fun e => !e.event.tellsOutlived) = true) :
    Watch.outlived.Clear events o := by
  refine ⟨fun e hm htold => ?_, fun e hf => ?_⟩
  · have hquiet := List.all_eq_true.mp he e hm
    rw [show e.event.tellsOutlived = true from htold] at hquiet
    cases hquiet
  · rw [ho] at hf
    cases hf

theorem CommandError.outlived_ofCall (e : ScriptError) :
    (CommandError.ofCall e).outlived = e.outlived := by
  cases e <;> rfl

theorem ScriptError.outlived_ofRun (name : String) (e : CommandError) :
    (ScriptError.ofRun name e).outlived = e.outlived := by
  cases e <;> rfl

/-- Nothing in the reply tells of a script that had lost its parent. -/
def Reply.Lasting (r : Reply ScriptError Moment (Option ObjectId)) : Prop :=
  Watch.outlived.Clear r.events (r.outcome.mapError .ofCall)

section lasting
variable {host : Host} {t : Thread}

/-- A thread that lost no parent ran without losing one. -/
theorem Thread.clear_of_lasting {script : Script} {s : State} {o : Outcome CommandError Unit}
    {m : Moment} {es : List Entry} (hl : Reply.Lasting ⟨t.conclude script s o, m, es⟩) :
    Watch.outlived.Clear es o := by
  refine ⟨hl.events, ?_⟩
  rintro e rfl he
  refine hl.outcome (.ofCall (.ofRun t.name e)) rfl ?_
  change (CommandError.ofCall (.ofRun t.name e)).outlived = true
  rw [CommandError.outlived_ofCall, ScriptError.outlived_ofRun]
  exact he

/-- The callers make the same of every call that lasts. -/
def Caller.SameIfLasting (run run' : Caller) : Prop :=
  ∀ call m, (run call m).Lasting → run call m = run' call m

variable {caller caller' : Option Caller}

theorem Effect.call_of_lasting (hrun : Option.Rel Caller.SameIfLasting caller caller')
    {script : Script} {inputs : List ObjectId} {frame : Frame} {s : State}
    (hclear : Watch.outlived.Clear (Effect.call caller script inputs frame s).events
      (Effect.call caller script inputs frame s).outcome) :
    Effect.call caller script inputs frame s = Effect.call caller' script inputs frame s := by
  cases hrun with
  | none => rfl
  | some hrun =>
    have hsame := hrun (frame.thread.calling script inputs frame.held) s.toMoment hclear
    exact congrArg (Call.reply · s) hsame

/-- A call that lasts finds its parent alive, and so do the calls that it makes. -/
theorem callScript_of_lasting (hrun : Option.Rel Caller.SameIfLasting caller caller') {call : Call}
    {m : Moment} (hl : (callScript host caller call m).Lasting) :
    callScript host caller call m = call.proceed host caller' m := by
  have hlive :
      m.heap.isLiving (call.inputs.map .object ++ call.held) call.script.parent = true := by
    by_contra hlost
    rw [callScript_detached call (eq_false_of_ne_true hlost)] at hl
    exact hl.outcome _ rfl rfl
  rw [callScript_of_living hlive] at hl ⊢
  unfold Call.proceed at hl ⊢
  split
  · rfl
  · rfl
  · next t a hlay =>
    rw [hlay] at hl
    have hsteps : Comparable Eq .outlived .nothing call.script.parent t t host caller caller' := by
      apply Comparable.of_calls
      rintro script inputs held ⟨⟨h, now⟩, pointer⟩ _ ⟨rfl, rfl, rfl⟩ hclear _
      rw [Effect.call_of_lasting hrun hclear]
      exact ⟨rfl, rfl, ⟨rfl, rfl, rfl⟩⟩
    have hclear := Thread.clear_of_lasting
      (Watch.Clear.mk (fun e he => hl.events e (List.mem_cons_of_mem _ he)) hl.outcome)
    have hagree := runCommands_agree hsteps t.commands
      (.object call.script.parent :: (t.holders ++ call.held))
      ⟨⟨a, m.now⟩, .start t.commands.length⟩ _ ⟨rfl, rfl, rfl⟩ hclear (Watch.nothing_clear _ _)
    simp only [runThread, hagree.eq]

theorem callAt_of_lasting (levels : Nat) :
    Caller.SameIfLasting (callAt host levels) (proceedAt host levels) := by
  induction levels with
  | zero => exact fun call m => callScript_of_lasting .none
  | succ levels ih => exact fun call m => callScript_of_lasting (.some ih)

theorem Call.attached_of_lasting {call : Call} {m : Moment}
    (hl : (Script.callIn host call m).Lasting) : call.Attached host m :=
  callAt_of_lasting call.context.levels call m hl

/-- The calls of a thread go alike in related heaps, if none is reported to have lost its parent. -/
theorem Corresponds.call {rel : Heap → Heap → Prop} {fits : Thread → Prop} {me : ObjectId}
    (hc : Corresponds rel host t.context.ambient fits) (script : Script) (inputs : List ObjectId) :
    (Effect.call (t.context.caller host) script inputs).Agree rel .outlived .outlived me t t
      (Effect.call (t.context.caller host) script inputs) := by
  have hrun : ∃ caller, Option.Rel Caller.SameIfLasting (t.context.caller host) caller ∧
      ∀ run, caller = some run → run.Agrees rel t.context.ambient := by
    unfold Context.caller
    split
    · exact ⟨none, .none, fun _ hn => by cases hn⟩
    · next levels _ =>
      refine ⟨some (proceedAt host levels), .some (callAt_of_lasting levels), ?_⟩
      rintro run ⟨⟩
      exact hc.proceedAt_agrees levels
  obtain ⟨caller, hsame, hagrees⟩ := hrun
  intro held s s' hm hl hr
  rw [Effect.call_of_lasting hsame hl, Effect.call_of_lasting hsame hr]
  exact Effect.call_agree hagrees rfl script inputs held s s' hm (Watch.nothing_clear _ _)
    (Watch.nothing_clear _ _)

end lasting

end GuardedScript
