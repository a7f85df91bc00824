import Mathlib.Data.List.Permutation
import GuardedScript.Proofs.Declared
import GuardedScript.Proofs.TwoRuns

/-!
How deep calls go. A call makes further calls only in the context one level below its own, and
there are finitely many levels. So the equation by which calls unfold has exactly one solution, no
matter which scripts the heap holds. The same levels bound the depth of every thread and the layers
of the error that a call ends with.
-/

namespace GuardedScript

namespace Context

/-- How nested calls are made when only the check of the level below can refuse them. -/
def via (f : Caller) (c : Context) : Option Caller :=
  match c.child with
  | .ok _ => some f
  | .error _ => none

theorem child_eq_ok {c c' : Context} :
    c.child = .ok c' ↔
      c.depth + 1 ≤ c.config.maxCallDepth ∧ c' = { c with depth := c.depth + 1 } := by
  unfold child
  by_cases h : c.depth + 1 > c.config.maxCallDepth
  · rw [if_pos h]
    constructor
    · rintro ⟨⟩
    · rintro ⟨_, _⟩
      omega
  · rw [if_neg h]
    constructor
    · rintro ⟨⟩
      exact ⟨by omega, rfl⟩
    · rintro ⟨_, rfl⟩
      rfl

/-- Going down from level to level comes to an end. -/
theorem child_wellFounded : WellFounded fun below above : Context => above.child = .ok below := by
  refine Subrelation.wf ?_ (measure Context.levels).wf
  intro below above h
  obtain ⟨hd, rfl⟩ := child_eq_ok.mp h
  change above.config.maxCallDepth - (above.depth + 1) < above.config.maxCallDepth - above.depth
  omega

end Context

/-- What holds of a call if it holds of all calls one level below holds of every call. -/
theorem Call.induction_below {P : Call → Prop}
    (step : ∀ call, (∀ below : Call, call.context.child = .ok below.context → P below) → P call)
    (call : Call) : P call :=
  (InvImage.wf Call.context Context.child_wellFounded).induction call step

section
variable {host : Host} {caller caller' : Option Caller}

/-- The call that a thread makes. -/
def Thread.calling (t : Thread) (script : Script) (inputs : List ObjectId) (held : List Holder) :
    Call :=
  ⟨script, { t.context with depth := t.context.depth + 1 }, inputs, t.grant, held⟩

/-- A command of the thread ends as the call ends that it made. -/
def Call.reply (r : Reply ScriptError Moment (Option ObjectId)) (s : State) :
    Reply CommandError State (Option ObjectId) :=
  ⟨r.outcome.mapError .ofCall, { s with toMoment := r.state }, r.events⟩

theorem Effect.call_via (f : Caller) {script : Script} {inputs : List ObjectId} (frame : Frame)
    {s : State} (hd : frame.thread.context.depth + 1 ≤ frame.thread.context.config.maxCallDepth) :
    Effect.call (frame.thread.context.via f) script inputs frame s =
      Call.reply (f (frame.thread.calling script inputs frame.held) s.toMoment) s := by
  have hc := Context.child_eq_ok.mpr ⟨hd, rfl⟩
  simp only [Context.via, hc, Effect.call]
  rfl

theorem Effect.call_via_deep (f : Caller) {script : Script} {inputs : List ObjectId} (frame : Frame)
    {s : State} (hd : frame.thread.context.config.maxCallDepth ≤ frame.thread.context.depth) :
    Effect.call (frame.thread.context.via f) script inputs frame s =
      ⟨.failed (.callDepthExceeded (frame.thread.context.depth + 1)
          frame.thread.context.config.maxCallDepth), s,
        [⟨frame.thread.context.depth, .tooDeep (frame.thread.context.depth + 1)
          frame.thread.context.config.maxCallDepth⟩]⟩ := by
  have hc : frame.thread.context.child = .error (.callDepthExceeded
      (frame.thread.context.depth + 1) frame.thread.context.config.maxCallDepth) :=
    if_pos (by omega)
  simp only [Context.via, hc, Effect.call]

/-- The levels that are left say the same as the check of the level below. -/
theorem Effect.call_caller (host : Host) (script : Script) (inputs : List ObjectId) (frame : Frame)
    (s : State) :
    Effect.call (frame.thread.context.caller host) script inputs frame s =
      Effect.call (frame.thread.context.via (Script.callIn host)) script inputs frame s := by
  by_cases hd : frame.thread.context.depth + 1 ≤ frame.thread.context.config.maxCallDepth
  · rw [Effect.call_via (Script.callIn host) frame hd]
    obtain ⟨n, hn⟩ : ∃ n, frame.thread.context.levels = n + 1 :=
      Nat.exists_eq_add_one.mpr (by unfold Context.levels; omega)
    have hl : (frame.thread.calling script inputs frame.held).context.levels = n := by
      simp only [Context.levels, Thread.calling] at hn ⊢
      omega
    simp only [Context.caller, hn, Script.callIn, hl]
    rfl
  · rw [Effect.call_via_deep (Script.callIn host) frame (Nat.le_of_lt_succ (Nat.lt_of_not_le hd))]
    have hn : frame.thread.context.levels = 0 := by
      unfold Context.levels
      omega
    simp only [Context.caller, hn, Effect.call]

theorem Reply.EndsAlike.eq {α : Type} {r r' : Reply CommandError State α} (h : r.EndsAlike Eq r') :
    r = r' := by
  obtain ⟨o, ⟨⟨heap, now⟩, pointer⟩, es⟩ := r
  obtain ⟨o', ⟨⟨heap', now'⟩, pointer'⟩, es'⟩ := r'
  obtain ⟨rfl, rfl, hs⟩ := h
  obtain ⟨rfl, rfl, rfl⟩ := hs
  rfl

theorem SameChange.refl (x : Except CommandError Heap) : SameChange Eq x x := by
  cases x with
  | ok h => rfl
  | error e => rfl

theorem Effect.Agree.of_eq {α : Type} {left right : Watch} {me : ObjectId} {t : Thread}
    {x y : Effect α} (hxy : ∀ held s, x ⟨me, t, held⟩ s = y ⟨me, t, held⟩ s) :
    x.Agree Eq left right me t t y := by
  rintro held ⟨⟨h, n⟩, p⟩ ⟨⟨h', n'⟩, p'⟩ ⟨rfl, rfl, rfl⟩ _ _
  rw [hxy]
  exact ⟨rfl, rfl, ⟨rfl, rfl, rfl⟩⟩

/-- Only calls tell one way of making them from another. -/
theorem Comparable.of_calls {left right : Watch} {me : ObjectId} {t : Thread}
    (hc : ∀ script inputs, (Effect.call caller script inputs).Agree Eq left right me t t
      (Effect.call caller' script inputs)) :
    Comparable Eq left right me t t host caller caller' where
  toTwin := .refl t
  read := by rintro h _ rfl path; rfl
  readOf := by rintro h _ rfl o path; rfl
  carried := by rintro h _ rfl o; rfl
  set := by rintro h _ rfl path v; exact .refl _
  add := by rintro h _ rfl key type; exact .refl _
  giveBack := by rintro h _ rfl v; exact .refl _
  perform op args := .of_eq fun _ _ => rfl
  call := hc
  inputs _ hx := .gather (.refl t) (.evaluateAll (.refl t) rfl hx)

section stages
variable (call : Call) {m : Moment}

theorem callScript_detached
    (hl : m.heap.isLiving (call.inputs.map .object ++ call.held) call.script.parent = false) :
    callScript host caller call m = ⟨.failed (.detached call.script.name), m, []⟩ := by
  simp only [callScript, hl]
  rfl

variable (hl : m.heap.isLiving (call.inputs.map .object ++ call.held) call.script.parent = true)
include hl

theorem callScript_unfit {e : InputError}
    (hi : call.script.inputMemory m.heap call.inputs = .error e) :
    callScript host caller call m = ⟨.failed (.input e), m, []⟩ := by
  simp only [callScript, hl, hi]
  rfl

theorem callScript_unbuilt {h h' : Heap} {g : GroupId} {e : MemoryError}
    (hi : call.script.inputMemory m.heap call.inputs = .ok (h, g))
    (hb : (call.thread h.newStack.2).buildStack h.newStack.1 call.script.parent (.plain g) =
      (.error e, h')) :
    callScript host caller call m =
      ⟨.failed (.memory call.script.threadName e), { m with heap := h' }, [call.started]⟩ := by
  simp only [callScript, hl, hi, hb]
  rfl

theorem callScript_built {h h' : Heap} {g : GroupId} {t : Thread}
    (hi : call.script.inputMemory m.heap call.inputs = .ok (h, g))
    (hb : (call.thread h.newStack.2).buildStack h.newStack.1 call.script.parent (.plain g) =
      (.ok t, h')) :
    callScript host caller call m =
      let r := runThread host caller call t { m with heap := h' }
      ⟨r.outcome, r.state, call.started :: r.events⟩ := by
  simp only [callScript, hl, hi, hb]
  rfl

end stages

/-- A call depends on the ways to make nested calls only as far as its own thread can use them. -/
theorem callScript_congr {call : Call} (hc : ∀ script inputs frame s,
      frame.thread.context = call.context → Effect.call caller script inputs frame s =
        Effect.call caller' script inputs frame s) (m : Moment) :
    callScript host caller call m = callScript host caller' call m := by
  cases hl : m.heap.isLiving (call.inputs.map .object ++ call.held) call.script.parent with
  | false => rw [callScript_detached call hl, callScript_detached call hl]
  | true =>
    cases hi : call.script.inputMemory m.heap call.inputs with
    | error e => rw [callScript_unfit call hl hi, callScript_unfit call hl hi]
    | ok p =>
      rcases hb : (call.thread p.1.newStack.2).buildStack p.1.newStack.1 call.script.parent
        (.plain p.2) with ⟨e | t, h'⟩
      · rw [callScript_unbuilt call hl hi hb, callScript_unbuilt call hl hi hb]
      · obtain ⟨_, ht⟩ := Thread.buildStack_ok hb
        have hx : Comparable Eq .nothing .nothing call.script.parent t t host caller caller' :=
          .of_calls fun script inputs => .of_eq fun held s =>
            hc script inputs _ s (by rw [ht]; rfl)
        have hr := runCommands_agree hx t.commands
          (.object call.script.parent :: (t.holders ++ call.held))
          { m with heap := h', pointer := .start t.commands.length } _ ⟨rfl, rfl, rfl⟩
          (Watch.nothing_clear _ _) (Watch.nothing_clear _ _)
        rw [callScript_built call hl hi hb, callScript_built call hl hi hb]
        simp only [runThread, hr.eq]

/-- Calls unfold by the check of the level below alone, and this equation says all about them. -/
theorem callIn_iff (f : Caller) :
    (∀ call m, f call m = callScript host (call.context.via f) call m) ↔
      f = Script.callIn host := by
  constructor
  · intro hf
    funext call
    induction call using Call.induction_below with
    | step call ih =>
      funext m
      rw [hf, Script.callIn_eq]
      refine callScript_congr (fun script inputs frame s ht => ?_) m
      rw [← ht, Effect.call_caller]
      by_cases hd : frame.thread.context.depth + 1 ≤ frame.thread.context.config.maxCallDepth
      · rw [Effect.call_via f frame hd, Effect.call_via (Script.callIn host) frame hd, ih]
        exact Context.child_eq_ok.mpr ⟨ht ▸ hd, by rw [← ht]; rfl⟩
      · have hd : frame.thread.context.config.maxCallDepth ≤ frame.thread.context.depth := by omega
        rw [Effect.call_via_deep f frame hd, Effect.call_via_deep (Script.callIn host) frame hd]
  · rintro rfl call m
    rw [Script.callIn_eq]
    refine callScript_congr (fun script inputs frame s ht => ?_) m
    rw [← ht, Effect.call_caller]

end

/-- Operations that come to an end and answer with no failed call of their own. -/
structure Host.Plain (host : Host) : Prop where
  ends : ∀ op frame s args, (host.perform op frame s args).delay ≠ .forever
  direct : ∀ op frame s args e, (host.perform op frame s args).result ≠ .error (.script e)

/-- An operation can itself answer that calls are too deep. -/
def Host.Reports (host : Host) (depth max : Nat) : Prop :=
  ∃ op frame s args, (host.perform op frame s args).result = .error (.callDepthExceeded depth max)

mutual

/-- The number of faulted threads that an error tells of. -/
def CommandError.faults : CommandError → Nat
  | .script e => e.faults
  | _ => 0

def ScriptError.faults : ScriptError → Nat
  | .faulted _ source => source.faults + 1
  | _ => 0

end

mutual

/-- The call that was too deep, at the bottom of an error. -/
def CommandError.tooDeep? : CommandError → Option (Nat × Nat)
  | .callDepthExceeded depth max => some (depth, max)
  | .script e => e.tooDeep?
  | _ => none

def ScriptError.tooDeep? : ScriptError → Option (Nat × Nat)
  | .faulted _ source => source.tooDeep?
  | _ => none

end

/-- The event starts a thread or refuses a call. -/
def Event.tellsDepth : Event → Bool
  | .started _ | .tooDeep _ _ => true
  | _ => false

/-- Threads start within the limit, and a call is refused only just below it. -/
structure Entry.Shallow (max : Nat) (e : Entry) : Prop where
  started : ∀ grant, e.event = .started grant → e.depth ≤ max
  tooDeep : ∀ depth limit, e.event = .tooDeep depth limit → depth = max + 1 ∧ limit = max

/-- A report of a call that was too deep names the level below the limit, unless it is the host's
own. -/
def Host.Sincere (host : Host) (max : Nat) (report : Option (Nat × Nat)) : Prop :=
  ∀ depth limit, report = some (depth, limit) →
    (depth = max + 1 ∧ limit = max) ∨ host.Reports depth limit

section
variable (host : Host) (c : Context)

/-- The end of a stretch on a thread of the context, with its events. -/
structure StretchBound (o : Outcome CommandError Unit) (es : List Entry) : Prop where
  ended : c.deadline = none → o ≠ .waiting
  faults : ∀ e, o = .failed e → e.faults + c.depth ≤ c.config.maxCallDepth
  report : ∀ e, o = .failed e → host.Sincere c.config.maxCallDepth e.tooDeep?
  events : ∀ e ∈ es, e.Shallow c.config.maxCallDepth

/-- The end of a call in the context, with its events. -/
structure CallBound (r : Reply ScriptError Moment (Option ObjectId)) : Prop where
  ended : c.deadline = none → r.outcome ≠ .waiting
  faults : ∀ e, r.outcome = .failed e → e.faults + c.depth ≤ c.config.maxCallDepth + 1
  report : ∀ e, r.outcome = .failed e → host.Sincere c.config.maxCallDepth e.tooDeep?
  events : ∀ e ∈ r.events, e.Shallow c.config.maxCallDepth

end

section
variable {host : Host} {c : Context}

theorem Host.Sincere.none (max : Nat) : host.Sincere max .none := by
  intro depth limit h
  cases h

/-- Events that neither start a thread nor refuse a call say nothing about depth. -/
theorem Entry.Shallow.of_other {max : Nat} {e : Entry} (h : e.event.tellsDepth = false) :
    e.Shallow max := by
  constructor
  · intro grant hs
    rw [hs] at h
    cases h
  · intro depth limit ht
    rw [ht] at h
    cases h

namespace StretchBound

theorem done {es : List Entry} (he : ∀ e ∈ es, e.Shallow c.config.maxCallDepth) :
    StretchBound host c (.done ()) es := by
  constructor
  · rintro _ ⟨⟩
  · rintro e ⟨⟩
  · rintro e ⟨⟩
  · exact he

theorem failed (hd : c.depth ≤ c.config.maxCallDepth) {e : CommandError} {es : List Entry}
    (hf : e.faults = 0) (hr : e.tooDeep? = none)
    (he : ∀ e ∈ es, e.Shallow c.config.maxCallDepth) : StretchBound host c (.failed e) es := by
  constructor
  · rintro _ ⟨⟩
  · rintro _ ⟨⟩
    omega
  · rintro _ ⟨⟩
    rw [hr]
    exact .none _
  · exact he

/-- The end of the last part is the end of the whole. -/
theorem prepend {o : Outcome CommandError Unit} {es fs : List Entry}
    (he : ∀ e ∈ es, e.Shallow c.config.maxCallDepth) (h : StretchBound host c o fs) :
    StretchBound host c o (es ++ fs) :=
  ⟨h.ended, h.faults, h.report, List.forall_mem_append.mpr ⟨he, h.events⟩⟩

end StretchBound

theorem Outcome.both_failed {ε α β γ : Type} {o : Outcome ε α} {p : Outcome ε β} {f : α → β → γ}
    {e : ε} (h : o.both f p = .failed e) : o = .failed e ∨ p = .failed e := by
  cases o <;> cases p <;> cases h
  · exact .inr rfl
  · exact .inl rfl
  · exact .inl rfl

theorem Outcome.both_waiting {ε α β γ : Type} {o : Outcome ε α} {p : Outcome ε β} {f : α → β → γ}
    (h : o.both f p = .waiting) : o = .waiting ∨ p = .waiting := by
  cases o <;> cases p <;> cases h
  · exact .inr rfl
  · exact .inr rfl
  · exact .inl rfl
  · exact .inl rfl
  · exact .inl rfl

theorem StretchBound.beside {o₁ o₂ : Outcome CommandError Unit} {es fs : List Entry}
    (h₁ : StretchBound host c o₁ es) (h₂ : StretchBound host c o₂ fs)
    {told : List Entry} (ht : ∀ e ∈ told, e.Shallow c.config.maxCallDepth) :
    StretchBound host c (o₁.both (fun _ _ => ()) o₂) (es ++ fs ++ told) := by
  constructor
  · intro hd hw
    obtain h | h := Outcome.both_waiting hw
    · exact h₁.ended hd h
    · exact h₂.ended hd h
  · intro e he
    obtain h | h := Outcome.both_failed he
    · exact h₁.faults e h
    · exact h₂.faults e h
  · intro e he
    obtain h | h := Outcome.both_failed he
    · exact h₁.report e h
    · exact h₂.report e h
  · exact List.forall_mem_append.mpr ⟨List.forall_mem_append.mpr ⟨h₁.events, h₂.events⟩, ht⟩

theorem CommandError.IsLocal.shallow {e : CommandError} (he : e.IsLocal) :
    e.faults = 0 ∧ e.tooDeep? = none := by
  cases e with
  | capability | script | callDepthExceeded => exact he.elim
  | _ => exact ⟨rfl, rfl⟩

theorem CommandError.faults_ofCall (e : ScriptError) :
    (CommandError.ofCall e).faults = e.faults := by
  cases e <;> rfl

theorem CommandError.tooDeep?_ofCall (e : ScriptError) :
    (CommandError.ofCall e).tooDeep? = e.tooDeep? := by
  cases e <;> rfl

theorem ScriptError.faults_ofRun (name : String) (e : CommandError) :
    (ScriptError.ofRun name e).faults ≤ e.faults + 1 := by
  cases e <;> simp [ScriptError.ofRun, ScriptError.faults]

theorem ScriptError.tooDeep?_ofRun (name : String) (e : CommandError) :
    (ScriptError.ofRun name e).tooDeep? = e.tooDeep? := by
  cases e <;> rfl

/-- Without a deadline only an endless operation is not waited for. -/
theorem Effect.delayed_none {s : State} {d : Delay} (h : Effect.delayed none s d = none) :
    d = .forever := by
  cases d with
  | none => cases h
  | span ms => cases h
  | forever => rfl

section
variable {op : Operation} {args : List (Option ObjectId)} {frame : Frame} {s : State}

theorem Effect.perform_failed {e : CommandError}
    (h : (Effect.perform host op args frame s).outcome.forget = .failed e) :
    (host.perform op frame s args).result = .error e := by
  simp only [Effect.perform] at h
  split at h
  · cases hr : (host.perform op frame s args).result <;> rw [hr] at h <;> cases h
    rfl
  · cases h

theorem Host.Plain.faults (hh : host.Plain) {e : CommandError}
    (hr : (host.perform op frame s args).result = .error e) : e.faults = 0 := by
  cases e with
  | script e => exact (hh.direct op frame s args e hr).elim
  | _ => rfl

theorem Host.Plain.sincere (hh : host.Plain) {e : CommandError} {max : Nat}
    (hr : (host.perform op frame s args).result = .error e) : host.Sincere max e.tooDeep? := by
  cases e with
  | script e => exact (hh.direct op frame s args e hr).elim
  | callDepthExceeded depth limit =>
    rintro _ _ ⟨⟩
    exact .inr ⟨op, frame, s, args, hr⟩
  | _ => exact .none _

theorem Effect.perform_bound (hh : host.Plain) (hc : frame.thread.context = c)
    (hd : c.depth ≤ c.config.maxCallDepth) :
    StretchBound host c (Effect.perform host op args frame s).outcome.forget
      (Effect.perform host op args frame s).events := by
  constructor
  · intro hn hw
    simp only [Effect.perform, hc, hn] at hw
    split at hw
    · cases hr : (host.perform op frame s args).result <;> rw [hr] at hw <;> cases hw
    · next hs => exact hh.ends op frame s args (Effect.delayed_none hs)
  · intro e he
    rw [hh.faults (Effect.perform_failed he)]
    omega
  · intro e he
    exact hh.sincere (Effect.perform_failed he)
  · rw [Effect.perform_events]
    refine List.forall_mem_cons.mpr ⟨.of_other rfl, ?_⟩
    intro e he
    obtain ⟨text, _, rfl⟩ := List.mem_map.mp he
    exact .of_other rfl

end

/-- A call that a thread makes is bounded if the calls one level below are. -/
theorem Effect.call_bound {frame : Frame} (hc : frame.thread.context = c)
    (hd : c.depth ≤ c.config.maxCallDepth)
    (below : ∀ call m, c.child = .ok call.context →
      CallBound host call.context (Script.callIn host call m))
    (script : Script) (inputs : List ObjectId) (s : State) :
    StretchBound host c (Effect.call (c.caller host) script inputs frame s).outcome.forget
      (Effect.call (c.caller host) script inputs frame s).events := by
  subst hc
  rw [Effect.call_caller]
  by_cases hl : frame.thread.context.depth + 1 ≤ frame.thread.context.config.maxCallDepth
  · rw [Effect.call_via (Script.callIn host) frame hl]
    have hb := below (frame.thread.calling script inputs frame.held) s.toMoment
      (Context.child_eq_ok.mpr ⟨hl, rfl⟩)
    revert hb
    generalize Script.callIn host (frame.thread.calling script inputs frame.held) s.toMoment = r
    intro hb
    obtain ⟨o, m, es⟩ := r
    cases o with
    | done v => exact .done hb.events
    | waiting =>
      refine ⟨fun hn _ => hb.ended hn rfl, ?_, ?_, hb.events⟩ <;> rintro e ⟨⟩
    | failed e =>
      refine ⟨?_, ?_, ?_, hb.events⟩
      · rintro _ ⟨⟩
      · rintro _ ⟨⟩
        have hf := hb.faults e rfl
        rw [CommandError.faults_ofCall]
        simp only [Thread.calling] at hf
        omega
      · rintro _ ⟨⟩
        rw [CommandError.tooDeep?_ofCall]
        exact hb.report e rfl
  · have hn : frame.thread.context.depth = frame.thread.context.config.maxCallDepth := by omega
    rw [Effect.call_via_deep (Script.callIn host) frame (Nat.le_of_eq hn.symm)]
    refine ⟨?_, ?_, ?_, ?_⟩
    · rintro _ ⟨⟩
    · rintro _ ⟨⟩
      simp only [CommandError.faults]
      omega
    · rintro _ ⟨⟩ _ _ ⟨⟩
      exact .inl ⟨congrArg (· + 1) hn, rfl⟩
    · intro e he
      rw [List.mem_singleton] at he
      subst he
      constructor
      · rintro _ ⟨⟩
      · rintro _ _ ⟨⟩
        exact ⟨congrArg (· + 1) hn, rfl⟩

section
variable {may : Command → Prop} {me : ObjectId} {t : Thread} {s s' : State}
  {o : Outcome CommandError Unit} {es : List Entry}

/-- Every stretch of a thread is bounded if the calls one level below are. -/
theorem Trail.bound (hh : host.Plain) (hc : t.context = c) (hd : c.depth ≤ c.config.maxCallDepth)
    (below : ∀ call m, c.child = .ok call.context →
      CallBound host call.context (Script.callIn host call m))
    (h : Trail host (c.caller host) may me t s o s' es) : StretchBound host c o es := by
  have one : ∀ {ev : Event}, ev.tellsDepth = false →
      ∀ e ∈ [(⟨t.context.depth, ev⟩ : Entry)], e.Shallow c.config.maxCallDepth := by
    intro ev hev e he
    rw [List.mem_singleton] at he
    subst he
    exact .of_other hev
  induction h with
  | still | add => exact .done (by simp)
  | slip s he => exact .failed hd he.shallow.1 he.shallow.2 (by simp)
  | enter | set | giveBack => exact .done (one rfl)
  | throw => exact .failed hd rfl rfl (one rfl)
  | perform s held args _ _ hr =>
    subst hr
    exact Effect.perform_bound hh hc hd
  | call s held script inputs hr =>
    subst hr
    exact Effect.call_bound hc hd below script inputs s
  | seq _ _ ih₁ ih₂ => exact .prepend ih₁.events ih₂
  | caught _ _ _ ih₁ ih₂ =>
    rw [← List.singleton_append]
    exact .prepend ih₁.events (.prepend (one rfl) ih₂)
  | beside _ _ _ _ _ ih₁ ih₂ =>
    refine .beside ih₁ ih₂ fun e he => ?_
    obtain ⟨err, _, rfl⟩ := List.mem_map.mp he
    exact .of_other rfl
  | inputsFailed _ ih =>
    exact ⟨ih.ended, ih.faults, ih.report,
      List.forall_mem_append.mpr ⟨ih.events, one rfl⟩⟩

theorem Course.bound (hh : host.Plain) (hc : t.context = c) (hd : c.depth ≤ c.config.maxCallDepth)
    (below : ∀ call m, c.child = .ok call.context →
      CallBound host call.context (Script.callIn host call m))
    (h : Course host (c.caller host) me t s o s' es) : StretchBound host c o es := by
  induction h with
  | stop => exact .done (by simp)
  | denied s hn =>
    refine .failed hd rfl rfl fun e he => ?_
    rw [List.mem_singleton] at he
    subst he
    exact .of_other rfl
  | fault _ h | wait _ h => exact h.bound hh hc hd below
  | next _ h _ ih => exact .prepend (h.bound hh hc hd below).events ih

end

namespace CallBound

variable {m : Moment} {es : List Entry}

theorem done {v : Option ObjectId} (he : ∀ e ∈ es, e.Shallow c.config.maxCallDepth) :
    CallBound host c ⟨.done v, m, es⟩ := by
  constructor
  · rintro _ ⟨⟩
  · rintro e ⟨⟩
  · rintro e ⟨⟩
  · exact he

theorem failed {e : ScriptError} (hf : e.faults + c.depth ≤ c.config.maxCallDepth + 1)
    (hr : host.Sincere c.config.maxCallDepth e.tooDeep?)
    (he : ∀ e ∈ es, e.Shallow c.config.maxCallDepth) : CallBound host c ⟨.failed e, m, es⟩ := by
  constructor
  · rintro _ ⟨⟩
  · rintro _ ⟨⟩
    exact hf
  · rintro _ ⟨⟩
    exact hr
  · exact he

end CallBound

/-- What the end of the thread means for its call. -/
theorem Thread.conclude_bound {t : Thread} {script : Script} {s : State} {m : Moment}
    {o : Outcome CommandError Unit} {es : List Entry} {first : Entry}
    (hd : c.depth ≤ c.config.maxCallDepth) (h : StretchBound host c o es)
    (hf : first.Shallow c.config.maxCallDepth) :
    CallBound host c ⟨t.conclude script s o, m, first :: es⟩ := by
  have he : ∀ e ∈ first :: es, e.Shallow c.config.maxCallDepth :=
    List.forall_mem_cons.mpr ⟨hf, h.events⟩
  cases o with
  | waiting =>
    refine ⟨fun hn _ => h.ended hn rfl, ?_, ?_, he⟩
    · rintro _ ⟨⟩
    · rintro _ ⟨⟩
  | failed e =>
    refine .failed ?_ ?_ he
    · have hb := h.faults e rfl
      have hr := ScriptError.faults_ofRun t.name e
      omega
    · rw [ScriptError.tooDeep?_ofRun]
      exact h.report e rfl
  | done u =>
    simp only [Thread.conclude, checkReturn]
    split
    · split
      · exact .done he
      · refine .failed ?_ (.none _) he
        simp only [ScriptError.faults]
        omega
    · exact .done he

/-- Every call is bounded by the levels of its context. -/
theorem callIn_bound (hh : host.Plain) (call : Call) (m : Moment)
    (hd : call.context.depth ≤ call.context.config.maxCallDepth) :
    CallBound host call.context (Script.callIn host call m) := by
  induction call using Call.induction_below generalizing m with
  | step call ih =>
    have below : ∀ below m, call.context.child = .ok below.context →
        CallBound host below.context (Script.callIn host below m) := by
      intro below m hb
      obtain ⟨hl, hc⟩ := Context.child_eq_ok.mp hb
      exact ih below hb m (by rw [hc]; exact hl)
    have started : call.started.Shallow call.context.config.maxCallDepth :=
      ⟨fun _ _ => hd, by rintro _ _ ⟨⟩⟩
    -- a call that does not come to run fails with an error of its own
    have refused : ∀ {e : ScriptError} {m : Moment} {es : List Entry}, e.faults = 0 →
        e.tooDeep? = none → (∀ x ∈ es, x = call.started) →
          CallBound host call.context ⟨.failed e, m, es⟩ := by
      intro e m es hf hr hes
      refine .failed (by omega) ?_ fun x hx => hes x hx ▸ started
      rw [hr]
      exact .none _
    rw [Script.callIn_eq]
    cases hl : m.heap.isLiving (call.inputs.map .object ++ call.held) call.script.parent with
    | false =>
      rw [callScript_detached call hl]
      exact refused rfl rfl (by simp)
    | true =>
      cases hi : call.script.inputMemory m.heap call.inputs with
      | error e =>
        rw [callScript_unfit call hl hi]
        exact refused rfl rfl (by simp)
      | ok p =>
        rcases hb : (call.thread p.1.newStack.2).buildStack p.1.newStack.1 call.script.parent
          (.plain p.2) with ⟨e | t, h'⟩
        · rw [callScript_unbuilt call hl hi hb]
          exact refused rfl rfl (by simp)
        · obtain ⟨_, ht⟩ := Thread.buildStack_ok hb
          rw [callScript_built call hl hi hb]
          exact Thread.conclude_bound hd ((runCommands_course host _ _ t _ _ _).bound hh
            (by rw [ht]; rfl) hd below) started

end

/-- Every call ends within the limit of its context, whatever scripts the heap holds: calls unfold
by the check of the level below, and going down comes to an end, so the unfolding determines every
call. No call waits forever, no thread starts below the limit, a call is refused exactly one level
below it, and the error of a call tells of no more faulted threads than there are levels. -/
theorem calls_end_within_limit {host : Host} (hh : host.Plain) :
    (WellFounded fun below above : Context => above.child = .ok below) ∧
    (∀ f : Caller, (∀ call m, f call m = callScript host (call.context.via f) call m) ↔
      f = Script.callIn host) ∧
    ∀ call m, call.context.depth ≤ call.context.config.maxCallDepth →
      CallBound host call.context (Script.callIn host call m) :=
  ⟨Context.child_wellFounded, callIn_iff, callIn_bound hh⟩

namespace Sample

theorem host_plain : host.Plain := ⟨fun _ _ _ _ => nofun, fun _ _ _ _ _ => nofun⟩

/-- The carrier calls itself until the limit refuses it. -/
def again : Call := call { config := { maxCallDepth := 1 } } {} [.script {} (.value {} ⟨1⟩) []]

def looping : Heap := heap [.script {} (.value {} ⟨1⟩) []]

end Sample

/-- A script that calls itself without end is refused below the limit, and its error tells of both
threads. -/
theorem endless_recursion_refused :
    (Script.callIn Sample.host Sample.again ⟨Sample.looping, 0⟩).outcome =
      .failed (.faulted "Outer_#" (.script (.faulted "Inner_#" (.callDepthExceeded 2 1)))) ∧
    CallBound Sample.host Sample.again.context
      (Script.callIn Sample.host Sample.again ⟨Sample.looping, 0⟩) :=
  ⟨by cbv, (calls_end_within_limit Sample.host_plain).2.2 _ _ (by decide)⟩

end GuardedScript
