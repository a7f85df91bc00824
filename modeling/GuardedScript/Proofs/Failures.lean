import GuardedScript.Proofs.Provenance

/-!
How failures travel. A denial goes through commands and calls as it is, and every other failure is
wrapped once by the thread that it stops and once by the command that made the call. So a failure is
a denial itself or has none in it, and one that was thrown some calls below tells the threads on the
way and the object that was thrown.
-/

namespace GuardedScript

mutual

/-- The denial stands in the failure, at some depth. -/
inductive CommandError.Bears (d : CapabilityError) : CommandError → Prop where
  | denial : CommandError.Bears d (.capability d)
  | script {e} (h : ScriptError.Bears d e) : CommandError.Bears d (.script e)

inductive ScriptError.Bears (d : CapabilityError) : ScriptError → Prop where
  | denial : ScriptError.Bears d (.capability d)
  | faulted {thread e} (h : CommandError.Bears d e) : ScriptError.Bears d (.faulted thread e)

end

/-- A denial itself, or a failure that can be caught. -/
def CommandError.Normal (e : CommandError) : Prop :=
  (∃ d, e = .capability d) ∨ e.isCatchable = true

def ScriptError.Normal (e : ScriptError) : Prop := (∃ d, e = .capability d) ∨ e.isCatchable = true

mutual

/-- A failure can be caught exactly if no denial stands in it. -/
theorem CommandError.isCatchable_iff : ∀ e : CommandError,
    e.isCatchable = true ↔ ∀ d, ¬ e.Bears d
  | .capability d => by
    refine ⟨fun h => ?_, fun h => (h d .denial).elim⟩
    cases h
  | .script e => by
    rw [CommandError.isCatchable, ScriptError.isCatchable_iff e]
    refine ⟨fun h d hd => ?_, fun h d hd => h d (.script hd)⟩
    cases hd with
    | script hd => exact h d hd
  | .memory _ | .binding _ | .thrown _ _ | .absentValue _ | .notCallable _ | .setRejected _
  | .reservedKey _ | .callDepthExceeded _ _ | .native _ _ => by
    refine ⟨fun _ d hd => ?_, fun _ => rfl⟩
    cases hd

theorem ScriptError.isCatchable_iff : ∀ e : ScriptError, e.isCatchable = true ↔ ∀ d, ¬ e.Bears d
  | .capability d => by
    refine ⟨fun h => ?_, fun h => (h d .denial).elim⟩
    cases h
  | .faulted thread e => by
    rw [ScriptError.isCatchable, CommandError.isCatchable_iff e]
    refine ⟨fun h d hd => ?_, fun h d hd => h d (.faulted hd)⟩
    cases hd with
    | faulted hd => exact h d hd
  | .input _ | .returnType _ _ _ | .detached _ | .memory _ _ => by
    refine ⟨fun _ d hd => ?_, fun _ => rfl⟩
    cases hd

end

theorem CommandError.Normal.unwrapped {e : ScriptError} (h : (CommandError.script e).Normal)
    (d : CapabilityError) : ¬ e.Bears d := by
  obtain ⟨_, ⟨⟩⟩ | h := h
  exact (ScriptError.isCatchable_iff e).mp h d

theorem ScriptError.Normal.unwrapped {thread : String} {e : CommandError}
    (h : (ScriptError.faulted thread e).Normal) (d : CapabilityError) : ¬ e.Bears d := by
  obtain ⟨_, ⟨⟩⟩ | h := h
  exact (CommandError.isCatchable_iff e).mp h d

theorem CommandError.IsLocal.isCatchable {e : CommandError} (he : e.IsLocal) :
    e.isCatchable = true := by
  cases e with
  | capability | thrown | script | callDepthExceeded => exact he.elim
  | _ => rfl

theorem CommandError.normal_ofCall {e : ScriptError} (h : e.Normal) :
    (CommandError.ofCall e).Normal := by
  cases e with
  | capability d => exact .inl ⟨d, rfl⟩
  | _ =>
    obtain ⟨_, ⟨⟩⟩ | h := h
    exact .inr h

theorem ScriptError.normal_ofRun (thread : String) {e : CommandError} (h : e.Normal) :
    (ScriptError.ofRun thread e).Normal := by
  cases e with
  | capability d => exact .inl ⟨d, rfl⟩
  | _ =>
    obtain ⟨_, ⟨⟩⟩ | h := h
    exact .inr h

/-- Operations fail as commands do. -/
def Host.Normal (host : Host) : Prop :=
  ∀ op frame s args e, (host.perform op frame s args).result = .error e → e.Normal

section
variable {host : Host} {caller : Option Caller} {me : ObjectId} {t : Thread}
variable {s s' : State} {o : Outcome CommandError Unit} {es : List Entry}
variable (hh : host.Normal)
variable (hrun : ∀ run, caller = some run → ∀ call m e, (run call m).outcome = .failed e → e.Normal)
include hh hrun

theorem Trail.normal {may : Command → Prop} (h : Trail host caller may me t s o s' es)
    {e : CommandError} (he : o = .failed e) : e.Normal := by
  induction h generalizing e with
  | still | enter | set | add | giveBack => cases he
  | slip _ hl =>
    cases he
    exact .inr hl.isCatchable
  | throw =>
    cases he
    exact .inr rfl
  | perform s held args _ _ hr =>
    subst hr
    exact hh _ _ s args e (Effect.perform_failed he)
  | call s held script inputs hr =>
    subst hr
    cases caller with
    | none =>
      cases he
      exact .inr rfl
    | some run =>
      rw [Effect.call_some] at he
      obtain ⟨x, hx, rfl⟩ := Call.reply_failed (Outcome.failed_of_forget he)
      exact CommandError.normal_ofCall (hrun run rfl _ _ x hx)
  | seq _ _ _ ih | caught _ _ _ _ ih => exact ih he
  | beside _ _ _ _ _ ih₁ ih₂ =>
    rcases Outcome.both_failed he with he | he
    · exact ih₁ he
    · exact ih₂ he
  | inputsFailed _ ih => exact ih he

theorem Course.normal (h : Course host caller me t s o s' es) {e : CommandError}
    (he : o = .failed e) : e.Normal := by
  induction h with
  | stop => cases he
  | denied =>
    cases he
    exact .inl ⟨_, rfl⟩
  | fault _ h | wait _ h => exact h.normal hh hrun he
  | next _ _ _ ih => exact ih he

theorem Calls.normal {call : Call} {m : Moment} {r : Reply ScriptError Moment (Option ObjectId)}
    (hc : Calls host caller call m r) {e : ScriptError} (he : r.outcome = .failed e) :
    e.Normal := by
  cases hc with
  | refused hr =>
    cases he
    exact .inr hr
  | unbuilt =>
    cases he
    exact .inr rfl
  | ran _ _ hr =>
    obtain ⟨c, rfl, rfl⟩ | ⟨_, _, _, rfl⟩ := Thread.conclude_failed he
    · exact ScriptError.normal_ofRun _ (hr.normal hh hrun rfl)
    · exact .inr rfl

end

section
variable {host : Host}

theorem callAt_normal (hh : host.Normal) (levels : Nat) (call : Call) (m : Moment) :
    ∀ e, (callAt host levels call m).outcome = .failed e → e.Normal :=
  callAt_induction host (P := fun _ _ r => ∀ e, r.outcome = .failed e → e.Normal)
    (fun _ hrun _ _ _ hc _ he => hc.normal hh hrun he) levels call m

theorem Context.caller_normal (hh : host.Normal) (c : Context) :
    ∀ run, c.caller host = some run → ∀ call m e, (run call m).outcome = .failed e → e.Normal := by
  intro run hr
  unfold Context.caller at hr
  split at hr
  · cases hr
  · cases hr
    exact callAt_normal hh _

end

/-- If operations fail in normal form, everything does: a failure of a command, of a thread or of a
call is a denial itself or can be caught, and no wrapper has a denial in it. What was thrown some
calls below comes out of a call with one layer for every thread on the way and tells the object that
was thrown. Unless an operation fails with something thrown, every failure that goes back to a throw
comes about like that. -/
theorem failures_travel_in_normal_form (host : Host) (hh : host.Normal) :
    (∀ (context : Context) c frame s e,
      (exec host (context.caller host) c frame s).outcome = .failed e →
      e.Normal ∧ ∀ x, e = .script x → ∀ d, ¬ x.Bears d) ∧
    (∀ (context : Context) cs frame s e,
      (runCommands host (context.caller host) cs frame s).outcome = .failed e →
      e.Normal ∧ ∀ x, e = .script x → ∀ d, ¬ x.Bears d) ∧
    (∀ call m e, (Script.callIn host call m).outcome = .failed e →
      e.Normal ∧ ∀ thread x, e = .faulted thread x → ∀ d, ¬ x.Bears d) ∧
    (∀ call m names v, Call.Raised host call m names v →
      (Script.callIn host call m).outcome = .failed (call.thrown names v) ∧
      (call.thrown names v).faults = names.length + 1 ∧
      (call.thrown names v).diagnostic = v ∧
      ⟨call.context.depth + names.length, .threw v⟩ ∈ (Script.callIn host call m).events) ∧
    (host.ThrowsNothing → ∀ call m e, (Script.callIn host call m).outcome = .failed e →
      e.fromThrow = true → ∃ names v, Call.Raised host call m names v) := by
  refine ⟨?_, ?_, ?_, ?_, ?_⟩
  · intro context c frame s e he
    have hx : (exec host (context.caller host) c).Follows host (context.caller host)
      (fun _ => True) frame.me frame.thread := exec_follows (fun _ _ _ _ => trivial) c trivial
    have hne : e.Normal := (hx frame.held s _ rfl).normal hh (context.caller_normal hh)
      (by rw [he]; rfl)
    refine ⟨hne, ?_⟩
    rintro x rfl
    exact hne.unwrapped
  · intro context cs frame s e he
    have hne : e.Normal := (runCommands_course host (context.caller host) frame.me frame.thread cs
      frame.held s).normal hh (context.caller_normal hh) he
    refine ⟨hne, ?_⟩
    rintro x rfl
    exact hne.unwrapped
  · intro call m e he
    have hne : e.Normal := callAt_normal hh _ call m e he
    refine ⟨hne, ?_⟩
    rintro thread x rfl
    exact hne.unwrapped
  · intro call m names v h
    obtain ⟨hfaults, hcause⟩ := CommandError.thrownBelow_spec v call.script.threadName names
    have ht := Call.RaisedAt.throws h
    exact ⟨ht.outcome, congrArg (· + 1) hfaults, hcause, ht.event⟩
  · intro hn call m
    exact callAt_traced hn call.context.levels _ rfl call m

namespace Sample

theorem host_normal : host.Normal := by
  intro op frame s args e he
  cases he

theorem host_throwsNothing : host.ThrowsNothing := by
  intro op frame s args e he
  cases he

/-- Catches what it throws itself; its handler then calls the carrier. -/
def relaying : Call :=
  call {} {} [.attempt {} (.throw {} none) (.script {} (.value {} ⟨1⟩) [])]

def throwing : Heap := heap [.throw {} (some (.value {} ⟨2⟩))]

end Sample

/-- An object that was thrown one call below comes out under two faulted threads. -/
theorem object_thrown_one_call_below :
    Sample.host.Normal ∧
    Call.Raised Sample.host Sample.relaying ⟨Sample.throwing, 0⟩ ["Inner_#"] (some ⟨2⟩) ∧
    ∃ e, (Script.callIn Sample.host Sample.relaying ⟨Sample.throwing, 0⟩).outcome = .failed e ∧
      e = .faulted "Outer_#" (.script (.faulted "Inner_#" (.thrown "Inner_#" (some ⟨2⟩)))) ∧
      e.faults = 2 ∧ e.diagnostic = some ⟨2⟩ := by
  have ho : (Script.callIn Sample.host Sample.relaying ⟨Sample.throwing, 0⟩).outcome =
      .failed (.faulted "Outer_#" (.script (.faulted "Inner_#"
        (.thrown "Inner_#" (some ⟨2⟩))))) := by cbv
  obtain ⟨_, _, _, hraised, htraced⟩ :=
    failures_travel_in_normal_form Sample.host Sample.host_normal
  obtain ⟨names, v, h⟩ := htraced Sample.host_throwsNothing _ _ _ ho rfl
  obtain ⟨hfailed, hfaults, hdiagnostic, _⟩ := hraised _ _ _ _ h
  have hsame := Outcome.failed.inj (ho.symm.trans hfailed)
  -- The failure tells which threads and which object they were.
  obtain ⟨rfl, rfl⟩ : names = ["Inner_#"] ∧ v = some ⟨2⟩ := by
    cases names with
    | nil => simp [Call.thrown, CommandError.thrownBelow] at hsame
    | cons name names =>
      cases names with
      | nil => simp_all [Call.thrown, CommandError.thrownBelow]
      | cons => simp [Call.thrown, CommandError.thrownBelow] at hsame
  exact ⟨Sample.host_normal, h, _, hfailed, hsame.symm, hfaults, hdiagnostic⟩

end GuardedScript
