import GuardedScript.Proofs.CallDepth
import GuardedScript.Proofs.StoreTyping

/-!
Where a failure comes from. A failure that was thrown goes back to one throw, on the thread that
fails or some calls below it. The rules follow the combinators that commands are made of; they tell
exactly the failures that go back to a throw, unless an operation of the host fails with one.
-/

namespace GuardedScript

theorem Outcome.failed_of_forget {ε α : Type} {o : Outcome ε α} {e : ε}
    (h : o.forget = .failed e) : o = .failed e := by
  cases o <;> cases h
  rfl

theorem Effect.call_some (run : Caller) (script : Script) (inputs : List ObjectId) (frame : Frame)
    (s : State) : Effect.call (some run) script inputs frame s =
      Call.reply (run (frame.thread.calling script inputs frame.held) s.toMoment) s := rfl

theorem Call.reply_failed {r : Reply ScriptError Moment (Option ObjectId)} {s : State}
    {e : CommandError} (h : (Call.reply r s).outcome = .failed e) :
    ∃ x, r.outcome = .failed x ∧ e = .ofCall x := by
  rw [Call.reply] at h
  cases ho : r.outcome with
  | done a => rw [ho] at h; cases h
  | waiting => rw [ho] at h; cases h
  | failed x =>
    rw [ho] at h
    cases h
    exact ⟨x, rfl, rfl⟩

/-- A call fails as its thread does, or with a value that its return type does not bind. -/
theorem Thread.conclude_failed {t : Thread} {script : Script} {s : State}
    {o : Outcome CommandError Unit} {e : ScriptError} (h : t.conclude script s o = .failed e) :
    (∃ c, o = .failed c ∧ e = .ofRun t.name c) ∨
      ∃ name want got, e = .returnType name want got := by
  cases o with
  | waiting => cases h
  | failed c =>
    cases h
    exact .inl ⟨c, rfl, rfl⟩
  | done _ =>
    right
    simp only [Thread.conclude, checkReturn] at h
    split at h
    · split at h <;> cases h
      exact ⟨_, _, _, rfl⟩
    · cases h

section throws

mutual

/-- The failure goes back to something that was thrown. -/
def CommandError.fromThrow : CommandError → Bool
  | .thrown _ _ => true
  | .script e => e.fromThrow
  | _ => false

def ScriptError.fromThrow : ScriptError → Bool
  | .faulted _ source => source.fromThrow
  | _ => false

end

/-- The failure of a command when its own thread throws, or the last of the threads below that were
called one from the other. -/
def CommandError.thrownBelow (v : Option ObjectId) : String → List String → CommandError
  | here, [] => .thrown here v
  | _, name :: below => .script (.faulted name (thrownBelow v name below))

/-- Which calls fail because of a throw: the threads called one from the other down to the one that
throws, and what it throws. -/
def Provenance := Call → Moment → List String → Option ObjectId → Prop

variable (host : Host) (caller : Option Caller) (fails : Provenance)

/-- The effect fails because of a throw, on its own thread or on the last of the named threads below
it. With several inputs side by side, the first that fails counts. -/
inductive Effect.Raised : {α : Type} → Effect α → Frame → State → List String →
    Option ObjectId → Prop where
  | throw (v frame s) : Raised (throwValue v) frame s [] v
  | call {script inputs frame s names v}
      (hc : fails (frame.thread.calling script inputs frame.held) s.toMoment names v) :
      Raised (Effect.call caller script inputs) frame s (script.threadName :: names) v
  | first {α β : Type} {x : Effect α} {f : α → Effect β} {frame s names v}
      (hx : Raised x frame s names v) : Raised (x.bind f) frame s names v
  | after {α β : Type} {x : Effect α} {f : α → Effect β} {a frame s names v}
      (hx : (x frame s).outcome = .done a) (hf : Raised (f a) frame (x frame s).state names v) :
      Raised (x.bind f) frame s names v
  | holding {α : Type} {x : Effect α} {held : List Holder} {frame s names v}
      (hx : Raised x { frame with held := held ++ frame.held } s names v) :
      Raised (x.holding held) frame s names v
  | handler {body handler : Effect (Option ObjectId)} {e frame s names v}
      (hb : (body frame s).outcome = .failed e) (he : e.isCatchable = true)
      (hh : Raised (handler.holding (e.cause.toList.map .object)) frame (body frame s).state
        names v) :
      Raised (body.attempt handler) frame s names v
  | input {start x xs frame s names v} (hx : Raised x frame { s with now := start } names v)
      (hw : (inParallelFrom start (x :: xs) frame s).outcome ≠ .waiting) :
      Raised (inParallelFrom start (x :: xs)) frame s names v
  | nextInput {start x xs a frame s names v} {r : Reply CommandError State (Option ObjectId)}
      (hr : x frame { s with now := start } = r) (ha : r.outcome = .done a)
      (hxs : Raised (inParallelFrom start xs)
        { frame with held := leftovers r.outcome ++ frame.held }
        { r.state with now := max s.now r.state.now } names v) :
      Raised (inParallelFrom start (x :: xs)) frame s names v
  | parallel {xs frame s names v} (hp : frame.thread.context.config.parallelInputs = true)
      (hx : Raised (inParallelFrom s.now xs) frame s names v) :
      Raised (evaluateAll xs) frame s names v
  | sequence {xs frame s names v} (hp : frame.thread.context.config.parallelInputs = false)
      (hx : Raised (inSequence xs) frame s names v) : Raised (evaluateAll xs) frame s names v
  | gather {xs frame s names v} (hx : Raised (evaluateAll xs) frame s names v) :
      Raised (gather xs) frame s names v
  | command {c cs frame s names v} (hp : s.pointer.isStopped = false)
      (hg : frame.thread.grant.check c.required frame.thread.name = .ok ())
      (hx : Raised (exec host caller c) frame s names v) :
      Raised (runCommands host caller (c :: cs)) frame s names v
  | nextCommand {c cs a frame s names v} {r : Reply CommandError State (Option ObjectId)}
      (hp : s.pointer.isStopped = false)
      (hg : frame.thread.grant.check c.required frame.thread.name = .ok ())
      (hr : exec host caller c frame s = r) (ha : r.outcome = .done a)
      (hcs : Raised (runCommands host caller cs) frame
        { r.state with pointer := r.state.pointer.advance } names v) :
      Raised (runCommands host caller (c :: cs)) frame s names v

/-- The call fails because of a throw on its thread, or on the last of the named threads below. -/
def Call.RaisedVia (call : Call) (m : Moment) (names : List String) (v : Option ObjectId) : Prop :=
  m.heap.isLiving (call.inputs.map .object ++ call.held) call.script.parent = true ∧
  ∃ t g h, call.Starts m.heap t g h ∧
    Effect.Raised host caller fails (runCommands host caller t.commands)
      ⟨call.script.parent, t, .object call.script.parent :: (t.holders ++ call.held)⟩
      { m with heap := h, pointer := .start t.commands.length } names v

end throws

/-- Calls in a context below which so many levels of calls are allowed. -/
def Call.RaisedAt (host : Host) : Nat → Provenance
  | 0 => Call.RaisedVia host none fun _ _ _ _ => False
  | levels + 1 => Call.RaisedVia host (some (callAt host levels)) (RaisedAt host levels)

/-- The call fails because of a throw, on its own thread or on the last of the named threads below,
as many script calls below as there are names. -/
def Call.Raised (host : Host) : Provenance := fun call =>
  Call.RaisedAt host call.context.levels call

/-- The failure of a call that a throw brought about, on its own thread or on the last of those
below. -/
def Call.thrown (call : Call) (names : List String) (v : Option ObjectId) : ScriptError :=
  .faulted call.script.threadName (.thrownBelow v call.script.threadName names)

mutual

theorem CommandError.isCatchable_of_fromThrow : ∀ {e : CommandError}, e.fromThrow = true →
    e.isCatchable = true
  | .thrown _ _, _ => rfl
  | .script e, h => ScriptError.isCatchable_of_fromThrow (e := e) h

theorem ScriptError.isCatchable_of_fromThrow : ∀ {e : ScriptError}, e.fromThrow = true →
    e.isCatchable = true
  | .faulted _ e, h => CommandError.isCatchable_of_fromThrow (e := e) h

end

theorem CommandError.thrownBelow_spec (v : Option ObjectId) (here : String) (names : List String) :
    (thrownBelow v here names).faults = names.length ∧ (thrownBelow v here names).cause = v := by
  induction names generalizing here with
  | nil => exact ⟨rfl, rfl⟩
  | cons name names ih =>
    obtain ⟨hfaults, hcause⟩ := ih name
    exact ⟨congrArg (· + 1) hfaults, hcause⟩

/-- The reply is this failure, after something was thrown at this depth. -/
structure Reply.Throws {ε σ α : Type} (r : Reply ε σ α) (e : ε) (depth : Nat)
    (v : Option ObjectId) : Prop where
  outcome : r.outcome = .failed e
  event : ⟨depth, .threw v⟩ ∈ r.events

section sound
variable {host : Host} {caller : Option Caller} {fails : Provenance}

/-- The calls that are told of fail with what was thrown. -/
def Provenance.Truthful (fails : Provenance) (caller : Option Caller) : Prop :=
  ∀ call m names v, fails call m names v → ∃ run, caller = some run ∧
    (run call m).Throws (call.thrown names v) (call.context.depth + names.length) v

/-- What fails because of a throw fails with what was thrown, wrapped as often as it was called. -/
theorem Effect.Raised.throws (hc : fails.Truthful caller) {α : Type} {x : Effect α} {frame : Frame}
    {s : State} {names : List String} {v : Option ObjectId}
    (h : Raised host caller fails x frame s names v) :
    (x frame s).Throws (.thrownBelow v frame.thread.name names)
      (frame.thread.context.depth + names.length) v := by
  induction h with
  | throw v frame s => exact ⟨rfl, List.mem_cons_self⟩
  | @call script inputs frame s names v hf =>
    obtain ⟨run, rfl, hr⟩ := hc _ _ _ _ hf
    rw [Effect.call_some]
    refine ⟨?_, ?_⟩
    · rw [Call.reply, hr.outcome]
      rfl
    · have hdepth : frame.thread.context.depth + (script.threadName :: names).length =
          (frame.thread.calling script inputs frame.held).context.depth + names.length := by
        simp only [Thread.calling, List.length_cons]
        omega
      rw [hdepth]
      exact hr.event
  | first _ ih =>
    refine ⟨?_, ?_⟩
    · simp only [Effect.bind, ih.outcome]
    · simp only [Effect.bind, ih.outcome, ih.event]
  | after hx _ ih =>
    refine ⟨?_, ?_⟩
    · simp only [Effect.bind, hx, ih.outcome]
    · simp only [Effect.bind, hx]
      exact List.mem_append_right _ ih.event
  | holding _ ih => exact ih
  | handler hb he _ ih =>
    refine ⟨?_, ?_⟩
    · simp only [Effect.attempt, hb, he, if_true, ih.outcome]
      rfl
    · simp only [Effect.attempt, hb, he, if_true]
      exact List.mem_append_right _ (List.mem_cons_of_mem _ ih.event)
  | @input start x xs frame s names v _ hw ih =>
    refine ⟨?_, ?_⟩
    · simp only [Effect.inParallelFrom, ih.outcome] at hw ⊢
      generalize (Effect.inParallelFrom start xs _ _).outcome = o at hw ⊢
      cases o with
      | waiting => exact absurd rfl hw
      | _ => rfl
    · simp only [Effect.inParallelFrom]
      exact List.mem_append_left _ (List.mem_append_left _ ih.event)
  | nextInput hr ha _ ih =>
    refine ⟨?_, ?_⟩
    · simp only [Effect.inParallelFrom, hr]
      rw [ih.outcome, ha]
      rfl
    · simp only [Effect.inParallelFrom, hr]
      exact List.mem_append_left _ (List.mem_append_right _ ih.event)
  | parallel hp _ ih =>
    rw [Effect.evaluateAll, if_pos hp]
    exact ih
  | sequence hp _ ih =>
    rw [Effect.evaluateAll, if_neg (by rw [hp]; exact Bool.false_ne_true)]
    exact ih
  | gather _ ih =>
    refine ⟨?_, ?_⟩
    · simp only [Effect.gather, ih.outcome]
    · simp only [Effect.gather, ih.outcome]
      exact List.mem_append_left _ ih.event
  | command hp hg _ ih =>
    refine ⟨?_, ?_⟩
    · simp only [runCommands, hp, hg, ih.outcome]
      rfl
    · simp only [runCommands, hp, hg, ih.outcome]
      exact ih.event
  | nextCommand hp hg hr ha _ ih =>
    refine ⟨?_, ?_⟩
    · simp only [runCommands, hp, hg, hr, ha]
      exact ih.outcome
    · simp only [runCommands, hp, hg, hr, ha]
      exact List.mem_append_right _ ih.event

theorem Call.RaisedVia.throws (hc : fails.Truthful caller) {call : Call} {m : Moment}
    {names : List String} {v : Option ObjectId}
    (h : call.RaisedVia host caller fails m names v) :
    (callScript host caller call m).Throws (call.thrown names v)
      (call.context.depth + names.length) v := by
  obtain ⟨hl, t, g, h', ⟨b, hi, hb⟩, hr⟩ := h
  have ht := hr.throws hc
  obtain ⟨scratch, rfl⟩ := Thread.buildStack_ok hb
  rw [callScript_built call hl hi hb]
  refine ⟨?_, List.mem_cons_of_mem _ ht.event⟩
  have hout := ht.outcome
  simp only [runThread]
  rw [hout]
  cases names <;> rfl

theorem Call.RaisedAt.throws {levels : Nat} {call : Call} {m : Moment} {names : List String}
    {v : Option ObjectId} (h : call.RaisedAt host levels m names v) :
    (callAt host levels call m).Throws (call.thrown names v)
      (call.context.depth + names.length) v := by
  induction levels generalizing call m names v with
  | zero => exact Call.RaisedVia.throws (fun _ _ _ _ hf => hf.elim) h
  | succ levels ih => exact Call.RaisedVia.throws (fun _ _ _ _ hf => ⟨_, rfl, ih hf⟩) h

end sound

section complete
variable {host : Host} {caller : Option Caller} {fails : Provenance} {α β : Type}

theorem CommandError.IsLocal.fromThrow {e : CommandError} (he : e.IsLocal) :
    e.fromThrow = false := by
  cases e with
  | capability | thrown | script | callDepthExceeded => exact he.elim
  | _ => rfl

theorem CommandError.fromThrow_ofCall (e : ScriptError) :
    (CommandError.ofCall e).fromThrow = e.fromThrow := by
  cases e <;> rfl

theorem ScriptError.fromThrow_ofRun (thread : String) (e : CommandError) :
    (ScriptError.ofRun thread e).fromThrow = e.fromThrow := by
  cases e <;> rfl

/-- No operation fails with something thrown: what goes back to a throw was thrown by a command. -/
def Host.ThrowsNothing (host : Host) : Prop :=
  ∀ op frame s args e, (host.perform op frame s args).result = .error e → e.fromThrow = false

variable (host caller fails) in
/-- When the effect fails with something thrown, a throw on its thread or below is the cause. -/
def Effect.Traced (x : Effect α) : Prop :=
  ∀ frame s e, (x frame s).outcome = .failed e → e.fromThrow = true →
    ∃ names v, Raised host caller fails x frame s names v

namespace Effect.Traced

theorem of_local {x : Effect α} (hx : ∀ frame s e, (x frame s).outcome = .failed e → e.IsLocal) :
    Traced host caller fails x := by
  intro frame s e he ht
  rw [(hx frame s e he).fromThrow] at ht
  cases ht

theorem pure (a : α) : Traced host caller fails (Effect.pure a) := by
  intro frame s e he
  cases he

theorem bind {x : Effect α} {f : α → Effect β} (hx : Traced host caller fails x)
    (hf : ∀ a, Traced host caller fails (f a)) : Traced host caller fails (x >>= f) := by
  intro frame s e he ht
  simp only [Bind.bind, Effect.bind] at he
  cases ho : (x frame s).outcome with
  | done a =>
    rw [ho] at he
    obtain ⟨names, v, h⟩ := hf a frame _ e he ht
    exact ⟨names, v, .after ho h⟩
  | failed e' =>
    rw [ho] at he
    cases he
    obtain ⟨names, v, h⟩ := hx frame s e ho ht
    exact ⟨names, v, .first h⟩
  | waiting =>
    rw [ho] at he
    cases he

theorem holding {x : Effect α} (held : List Holder) (hx : Traced host caller fails x) :
    Traced host caller fails (x.holding held) := by
  intro frame s e he ht
  obtain ⟨names, v, h⟩ := hx _ s e he ht
  exact ⟨names, v, .holding h⟩

theorem ask {f : Frame → Heap → Except CommandError α}
    (hf : ∀ frame h e, f frame h = .error e → e.IsLocal) :
    Traced host caller fails (Effect.ask f) := by
  refine of_local fun frame s e he => ?_
  simp only [Effect.ask] at he
  cases h : f frame s.heap with
  | ok a => rw [h] at he; cases he
  | error e' =>
    rw [h] at he
    cases he
    exact hf frame s.heap e h

theorem require (context : String) (v : Option α) :
    Traced host caller fails (Effect.require context v) := by
  cases v with
  | none =>
    refine of_local fun frame s e he => ?_
    cases he
    trivial
  | some a => exact .pure a

theorem requireAll (context : Nat → String) (vs : List (Option α)) (i : Nat) :
    Traced host caller fails (Effect.requireAll context i vs) := by
  induction vs generalizing i with
  | nil => exact .pure []
  | cons v vs ih => exact (require (context i) v).bind fun a => (ih (i + 1)).bind fun as => .pure _

/-- The handler alone counts: what was thrown in the body is caught. -/
theorem attempt (body : Effect (Option ObjectId)) {handler : Effect (Option ObjectId)}
    (hh : Traced host caller fails handler) : Traced host caller fails (body.attempt handler) := by
  intro frame s e he ht
  simp only [Effect.attempt] at he
  cases ho : (body frame s).outcome with
  | done a => rw [ho] at he; cases he
  | waiting => rw [ho] at he; cases he
  | failed e' =>
    rw [ho] at he
    by_cases hcatch : e'.isCatchable = true
    · simp only [hcatch, if_true] at he
      cases hq :
        (handler.holding (e'.cause.toList.map .object) frame (body frame s).state).outcome with
      | done a => rw [hq] at he; cases he
      | waiting => rw [hq] at he; cases he
      | failed q =>
        rw [hq] at he
        cases he
        obtain ⟨names, v, h⟩ := hh.holding _ frame _ e hq ht
        exact ⟨names, v, .handler ho hcatch h⟩
    · simp only [hcatch] at he
      cases he
      exact absurd (CommandError.isCatchable_of_fromThrow ht) hcatch

theorem inSequence {xs : List (Effect (Option ObjectId))}
    (hx : ∀ x ∈ xs, Traced host caller fails x) :
    Traced host caller fails (Effect.inSequence xs) := by
  induction xs with
  | nil => exact .pure []
  | cons x xs ih =>
    have hs := ih fun y hy => hx y (List.mem_cons_of_mem x hy)
    exact (hx x List.mem_cons_self).bind fun v => (hs.holding _).bind fun vs => .pure _

theorem inParallelFrom {xs : List (Effect (Option ObjectId))}
    (hx : ∀ x ∈ xs, Traced host caller fails x) (start : Nat) :
    Traced host caller fails (Effect.inParallelFrom start xs) := by
  induction xs with
  | nil => exact .pure []
  | cons x xs ih =>
    intro frame s e he ht
    have hw : (Effect.inParallelFrom start (x :: xs) frame s).outcome ≠ .waiting := by
      rw [he]
      exact fun h => by cases h
    simp only [Effect.inParallelFrom] at he
    cases ho : (x frame { s with now := start }).outcome with
    | waiting =>
      rw [ho] at he
      cases hq : (Effect.inParallelFrom start xs _ _).outcome <;> rw [hq] at he <;> cases he
    | failed e' =>
      obtain rfl : e' = e := by
        rw [ho] at he
        generalize (Effect.inParallelFrom start xs _ _).outcome = q at he
        cases q <;> cases he <;> rfl
      obtain ⟨names, v, h⟩ := hx x List.mem_cons_self frame _ e' ho ht
      exact ⟨names, v, .input h hw⟩
    | done a =>
      rcases Outcome.both_failed he with h | h
      · rw [ho] at h
        cases h
      · obtain ⟨names, v, h⟩ := ih (fun y hy => hx y (List.mem_cons_of_mem x hy)) _ _ e h ht
        exact ⟨names, v, .nextInput rfl ho h⟩

theorem evaluateAll {xs : List (Effect (Option ObjectId))}
    (hx : ∀ x ∈ xs, Traced host caller fails x) :
    Traced host caller fails (Effect.evaluateAll xs) := by
  intro frame s e he ht
  simp only [Effect.evaluateAll] at he
  cases hp : frame.thread.context.config.parallelInputs with
  | true =>
    rw [hp] at he
    obtain ⟨names, v, h⟩ := inParallelFrom hx s.now frame s e he ht
    exact ⟨names, v, .parallel hp h⟩
  | false =>
    rw [hp] at he
    obtain ⟨names, v, h⟩ := inSequence hx frame s e he ht
    exact ⟨names, v, .sequence hp h⟩

theorem gather {xs : List (Effect (Option ObjectId))}
    (hx : ∀ x ∈ xs, Traced host caller fails x) :
    Traced host caller fails (Effect.gather xs) := by
  intro frame s e he ht
  have hall : (Effect.evaluateAll xs frame s).outcome = .failed e := by
    simp only [Effect.gather] at he
    cases ho : (Effect.evaluateAll xs frame s).outcome <;> simp only [ho] at he <;> exact he
  obtain ⟨names, v, h⟩ := evaluateAll hx frame s e hall ht
  exact ⟨names, v, .gather h⟩

theorem change {f : Thread → Heap → Except CommandError Heap} {told : List Event}
    (hf : ∀ t h e, f t h = .error e → e.IsLocal) :
    Traced host caller fails (Effect.change f told) := by
  refine of_local fun frame s e he => ?_
  simp only [Effect.change] at he
  cases h : f frame.thread s.heap with
  | ok h' => rw [h] at he; cases he
  | error e' =>
    rw [h] at he
    cases he
    exact hf _ _ e h

theorem giveBack (v : Option ObjectId) : Traced host caller fails (Effect.giveBack v) := by
  refine of_local fun frame s e he => ?_
  simp only [Effect.giveBack] at he
  cases h : frame.thread.setReturn s.heap v with
  | ok h' => rw [h] at he; cases he
  | error e' =>
    rw [h] at he
    cases he
    exact Thread.setReturn_error h

theorem entering {c : Command} {x : Effect α} (hx : Traced host caller fails x) :
    Traced host caller fails (Effect.entering c x) := by
  refine bind ?_ fun _ => hx
  intro frame s e he
  cases he

end Effect.Traced

theorem throwValue_traced (v : Option ObjectId) : (throwValue v).Traced host caller fails :=
  fun frame s _ _ _ => ⟨[], v, .throw v frame s⟩

theorem perform_traced (hn : host.ThrowsNothing) (op : Operation) (args : List (Option ObjectId)) :
    (Effect.perform host op args).Traced host caller fails := by
  intro frame s e he ht
  have hforget : (Effect.perform host op args frame s).outcome.forget = .failed e := by
    rw [he]
    rfl
  rw [hn op frame s args e (Effect.perform_failed hforget)] at ht
  cases ht

/-- Every call that fails with something thrown is told of. -/
def Provenance.Complete (fails : Provenance) (caller : Option Caller) : Prop :=
  ∀ run, caller = some run → ∀ call m e, (run call m).outcome = .failed e → e.fromThrow = true →
    ∃ names v, fails call m names v

theorem call_traced (hf : fails.Complete caller) (script : Script) (inputs : List ObjectId) :
    (Effect.call caller script inputs).Traced host caller fails := by
  intro frame s e he ht
  cases caller with
  | none =>
    cases he
    cases ht
  | some run =>
    rw [Effect.call_some] at he
    obtain ⟨x, hx, rfl⟩ := Call.reply_failed he
    rw [CommandError.fromThrow_ofCall] at ht
    obtain ⟨names, v, h⟩ := hf run rfl _ _ x hx ht
    exact ⟨_, v, .call h⟩

mutual

/-- What a command fails with, if it was thrown, has its throw. -/
theorem exec_traced (hn : host.ThrowsNothing) (hf : fails.Complete caller) :
    ∀ c, (exec host caller c).Traced host caller fails
  | .this own => by
    rw [exec]
    refine .entering (.ask fun _ _ _ he => ?_)
    cases he
  | .value own o => by
    rw [exec]
    exact .entering (.pure _)
  | .get own path => by
    rw [exec]
    exact .entering (.ask fun _ _ _ he => CommandError.isLocal_memory he)
  | .getOf own target path => by
    rw [exec]
    have ht := exec_traced hn hf target
    exact .entering (ht.bind fun v => (Effect.Traced.require _ v).bind fun o =>
      .ask fun _ _ _ he => CommandError.isLocal_memory he)
  | .set own path operand => by
    rw [exec]
    have ho := exec_traced hn hf operand
    exact .entering (ho.bind fun v => (Effect.Traced.require _ v).bind fun o =>
      (Effect.Traced.change fun _ _ _ he => Thread.setValue_error he).bind fun _ => .pure _)
  | .add own key type => by
    rw [exec]
    exact .entering ((Effect.Traced.change fun _ _ _ he => Thread.addLocal_error he).bind
      fun _ => .pure _)
  | .ret own operand => by
    rw [exec]
    exact .entering ((execOption_traced hn hf operand).bind fun v =>
      (Effect.Traced.giveBack v).bind fun _ => .pure _)
  | .script own target inputs => by
    rw [exec]
    refine .entering ((exec_traced hn hf target).bind fun v => (Effect.Traced.require _ v).bind
      fun carrier => (Effect.Traced.ask fun _ _ _ he => Script.boundTo_error he).bind fun script =>
        .holding _ ?_)
    exact (Effect.Traced.gather (execEach_traced hn hf inputs)).bind fun vs =>
      (Effect.Traced.requireAll _ vs 0).bind fun os => call_traced hf script os
  | .attempt own body handler => by
    rw [exec]
    exact .entering (.attempt _ (exec_traced hn hf handler))
  | .throw own operand => by
    rw [exec]
    exact .entering ((execOption_traced hn hf operand).bind throwValue_traced)
  | .native own op args => by
    rw [exec]
    exact .entering ((Effect.Traced.gather (execEach_traced hn hf args)).bind fun vs =>
      perform_traced hn op vs)

theorem execOption_traced (hn : host.ThrowsNothing) (hf : fails.Complete caller) :
    ∀ o : Option Command, (execOption host caller o).Traced host caller fails
  | none => by
    rw [execOption]
    exact .pure none
  | some c => by
    rw [execOption]
    exact exec_traced hn hf c

theorem execEach_traced (hn : host.ThrowsNothing) (hf : fails.Complete caller) :
    ∀ cs : List Command, ∀ x ∈ execEach host caller cs, x.Traced host caller fails
  | [], x, hx => by simp [execEach] at hx
  | c :: cs, x, hx => by
    rw [execEach, List.mem_cons] at hx
    rcases hx with rfl | hx
    · exact exec_traced hn hf c
    · exact execEach_traced hn hf cs x hx

end

theorem runCommands_traced (hn : host.ThrowsNothing) (hf : fails.Complete caller)
    (cs : List Command) :
    (runCommands host caller cs).Traced host caller fails := by
  induction cs with
  | nil => exact .pure ()
  | cons c cs ih =>
    intro frame s e he ht
    simp only [runCommands] at he
    cases hp : s.pointer.isStopped with
    | true => rw [hp] at he; cases he
    | false =>
      cases hg : frame.thread.grant.check c.required frame.thread.name with
      | error d =>
        simp only [hp, hg] at he
        cases he
        cases ht
      | ok _ =>
        simp only [hp, hg] at he
        cases ho : (exec host caller c frame s).outcome with
        | waiting => simp only [ho] at he; cases he
        | failed e' =>
          simp only [ho] at he
          cases he
          obtain ⟨names, v, h⟩ := exec_traced hn hf c frame s e ho ht
          exact ⟨names, v, .command hp hg h⟩
        | done a =>
          simp only [ho] at he
          obtain ⟨names, v, h⟩ := ih frame _ e he ht
          exact ⟨names, v, .nextCommand hp hg rfl ho h⟩

theorem callScript_traced (hn : host.ThrowsNothing) (hf : fails.Complete caller) (call : Call)
    (m : Moment) (e : ScriptError) (he : (callScript host caller call m).outcome = .failed e)
    (ht : e.fromThrow = true) : ∃ names v, call.RaisedVia host caller fails m names v := by
  cases hl : m.heap.isLiving (call.inputs.map .object ++ call.held) call.script.parent with
  | false =>
    rw [callScript_detached call hl] at he
    cases he
    cases ht
  | true =>
    cases hi : call.script.inputMemory m.heap call.inputs with
    | error x =>
      rw [callScript_unfit call hl hi] at he
      cases he
      cases ht
    | ok b =>
      obtain ⟨b, g⟩ := b
      cases hb : (call.thread b.newStack.2).buildStack b.newStack.1 call.script.parent
        (.plain g) with
      | mk o h =>
        cases o with
        | error x =>
          rw [callScript_unbuilt call hl hi hb] at he
          cases he
          cases ht
        | ok t =>
          rw [callScript_built call hl hi hb] at he
          obtain ⟨c, hr, rfl⟩ | ⟨_, _, _, rfl⟩ := Thread.conclude_failed he
          · rw [ScriptError.fromThrow_ofRun] at ht
            obtain ⟨names, v, h'⟩ := runCommands_traced hn hf t.commands _ _ c hr ht
            exact ⟨names, v, hl, t, g, h, ⟨b, hi, hb⟩, h'⟩
          · cases ht

theorem callAt_traced (hn : host.ThrowsNothing) (levels : Nat) :
    (Call.RaisedAt host levels).Complete (some (callAt host levels)) := by
  intro run hr
  cases hr
  induction levels with
  | zero =>
    refine callScript_traced hn fun run hr => ?_
    cases hr
  | succ levels ih =>
    refine callScript_traced hn fun run hr => ?_
    cases hr
    exact ih

end complete

end GuardedScript
