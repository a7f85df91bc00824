import GuardedScript.Proofs.Trail

/-!
What a script declares besides the needs of its commands. The declaration counts in the script's
requirement, but a call asks only what its commands require, one by one. So a call that can start is
stopped at the gate exactly when the first command is denied.
-/

namespace GuardedScript

/-- The same call, of a script that declares something else besides its commands. -/
def Call.declaring (call : Call) (extra : Capabilities) : Call :=
  { call with script := { call.script with additional := extra } }

/-- The parent is alive, the inputs are accepted and the stack can be built. -/
def Call.Ready (call : Call) (m : Moment) : Prop :=
  m.heap.isLiving (call.inputs.map .object ++ call.held) call.script.parent = true ∧
    ∃ h g t h', call.script.inputMemory m.heap call.inputs = .ok (h, g) ∧
      (call.thread h.newStack.2).buildStack h.newStack.1 call.script.parent (.plain g) = (.ok t, h')

/-- The first of the script's commands is not covered by the grant. -/
def Call.FirstDenied (call : Call) : Prop :=
  ∃ c cs, call.script.commands = c :: cs ∧ ¬ call.grant.Covers c.required

theorem Script.fillInputs_additional (s : Script) (extra : Capabilities) (h : Heap)
    (inputs : List (ScriptInput × ObjectId)) :
    Script.fillInputs { s with additional := extra } h inputs = s.fillInputs h inputs := by
  induction inputs generalizing h with
  | nil => rfl
  | cons i rest ih => simp only [Script.fillInputs, ih]

theorem Script.inputMemory_additional (s : Script) (extra : Capabilities) (h : Heap)
    (inputs : List ObjectId) :
    Script.inputMemory { s with additional := extra } h inputs = s.inputMemory h inputs := by
  simp only [Script.inputMemory, Script.fillInputs_additional]

theorem callScript_declaring (host : Host) (caller : Option Caller) (call : Call)
    (extra : Capabilities) (m : Moment) :
    callScript host caller (call.declaring extra) m = callScript host caller call m := by
  simp only [callScript, Call.declaring, Script.inputMemory_additional]
  rfl

theorem Script.callIn_eq (host : Host) (call : Call) (m : Moment) :
    Script.callIn host call m = callScript host (call.context.caller host) call m := by
  simp only [Script.callIn, Context.caller]
  cases call.context.levels <;> rfl

theorem exec_eq_entering (host : Host) (caller : Option Caller) (c : Command) :
    ∃ x, exec host caller c = Effect.entering c x := by
  cases c <;> exact ⟨_, by rw [exec]⟩

theorem exec_entered (host : Host) (caller : Option Caller) (c : Command) (frame : Frame)
    (s : State) :
    ⟨frame.thread.context.depth, .entered c⟩ ∈ (exec host caller c frame s).events := by
  obtain ⟨x, hx⟩ := exec_eq_entering host caller c
  rw [hx]
  exact List.mem_append_left _ (List.mem_singleton.mpr rfl)

theorem callScript_not_ready (host : Host) (caller : Option Caller) {call : Call} {m : Moment}
    (hn : ¬ call.Ready m) :
    (∃ e, (callScript host caller call m).outcome = .failed e) ∧
      ∀ e ∈ (callScript host caller call m).events, e = call.started := by
  simp only [callScript]
  split
  · exact ⟨⟨_, rfl⟩, by simp⟩
  · next hl =>
    split
    · exact ⟨⟨_, rfl⟩, by simp⟩
    · next h g hi =>
      split
      · exact ⟨⟨_, rfl⟩, by simp [Call.started]⟩
      · next t h' hb => exact (hn ⟨by simpa using hl, h, g, t, h', hi, hb⟩).elim

theorem callScript_ready (host : Host) (caller : Option Caller) {call : Call} {m : Moment}
    (hr : call.Ready m) :
    ∃ frame s, frame.thread.grant = call.grant ∧
      s.pointer = .start call.script.commands.length ∧
      (callScript host caller call m).outcome = frame.thread.conclude call.script
        (runCommands host caller call.script.commands frame s).state
        (runCommands host caller call.script.commands frame s).outcome ∧
      (callScript host caller call m).events =
        call.started :: (runCommands host caller call.script.commands frame s).events := by
  obtain ⟨hl, h, g, t, h', hi, hb⟩ := hr
  obtain ⟨_, ht⟩ := Thread.buildStack_ok hb
  have hg : t.grant = call.grant := by rw [ht]; rfl
  have hc : t.commands = call.script.commands := by rw [ht]; rfl
  refine ⟨⟨call.script.parent, t, .object call.script.parent :: (t.holders ++ call.held)⟩,
    ⟨⟨h', m.now⟩, .start call.script.commands.length⟩, hg, rfl, ?_⟩
  simp only [callScript, hl, hi, hb, runThread, hc, Bool.not_true]
  exact ⟨rfl, rfl⟩

section
variable (host : Host) (caller : Option Caller) (cs : List Command)
variable {c : Command} {frame : Frame} {s : State}

theorem runCommands_entered (hp : s.pointer.isStopped = false)
    (hc : frame.thread.grant.Covers c.required) :
    ⟨frame.thread.context.depth, .entered c⟩ ∈
      (runCommands host caller (c :: cs) frame s).events := by
  have hx := exec_entered host caller c frame s
  have hk : frame.thread.grant.check c.required frame.thread.name = .ok () :=
    Capabilities.check_eq_ok.mpr hc
  simp only [runCommands, hp, hk]
  cases (exec host caller c frame s).outcome with
  | failed e => exact hx
  | waiting => exact hx
  | done v => exact List.mem_append_left _ hx

theorem runCommands_denied (hp : s.pointer.isStopped = false)
    (hc : ¬ frame.thread.grant.Covers c.required) :
    (runCommands host caller (c :: cs) frame s).outcome = .failed (.capability
        (.denied frame.thread.name (frame.thread.grant.missing c.required))) ∧
      (runCommands host caller (c :: cs) frame s).events =
        [⟨frame.thread.context.depth, .denied (frame.thread.grant.missing c.required)⟩] := by
  have hk : frame.thread.grant.check c.required frame.thread.name =
      .error (.denied frame.thread.name (frame.thread.grant.missing c.required)) :=
    Capabilities.check_eq_error.mpr ⟨hc, rfl⟩
  simp [runCommands, hp, hk]

end

/-- The call enters no command and fails, with a denial if it could start. -/
def Call.StoppedAtGate (call : Call) (m : Moment)
    (r : Reply ScriptError Moment (Option ObjectId)) : Prop :=
  (∀ depth c, ⟨depth, .entered c⟩ ∉ r.events) ∧ (∃ e, r.outcome = .failed e) ∧
    (call.Ready m → ∃ e, r.outcome = .failed (.capability e))

theorem callScript_nil {host : Host} {caller : Option Caller} {call : Call} {m : Moment}
    (hr : call.Ready m) (hc : call.script.commands = []) :
    (callScript host caller call m).outcome = .done none := by
  obtain ⟨frame, s, _, hp, ho, _⟩ := callScript_ready host caller hr
  have hs : s.pointer.status = .completed := by rw [hp, hc]; rfl
  rw [ho, hc]
  simp [runCommands, Effect.pure, Thread.conclude, hs, checkReturn]

theorem Pointer.start_running (n : Nat) : (Pointer.start (n + 1)).isStopped = false := rfl

/-- A call that can start enters its first command unless that is denied. -/
theorem callScript_entered (host : Host) (caller : Option Caller) {call : Call} {m : Moment}
    {c : Command} {cs : List Command} (hr : call.Ready m) (hc : call.script.commands = c :: cs)
    (hk : call.grant.Covers c.required) :
    ∃ depth, ⟨depth, .entered c⟩ ∈ (callScript host caller call m).events := by
  obtain ⟨frame, s, hg, hp, _, hv⟩ := callScript_ready host caller hr
  rw [hc] at hp hv
  have hs : s.pointer.isStopped = false := by rw [hp]; exact Pointer.start_running cs.length
  rw [hv]
  exact ⟨_, List.mem_cons_of_mem _ (runCommands_entered host caller cs hs (hg ▸ hk))⟩

theorem callScript_firstDenied (host : Host) (caller : Option Caller) {call : Call} {m : Moment}
    (hr : call.Ready m) (hf : call.FirstDenied) :
    (∃ e, (callScript host caller call m).outcome = .failed (.capability e)) ∧
      ∀ depth c, ⟨depth, .entered c⟩ ∉ (callScript host caller call m).events := by
  obtain ⟨c, cs, hc, hk⟩ := hf
  obtain ⟨frame, s, hg, hp, ho, hv⟩ := callScript_ready host caller hr
  rw [hc] at hp ho hv
  have hs : s.pointer.isStopped = false := by rw [hp]; exact Pointer.start_running cs.length
  obtain ⟨hd, he⟩ := runCommands_denied host caller cs hs (hg ▸ hk)
  rw [ho, hv, hd, he]
  exact ⟨⟨_, rfl⟩, by simp [Call.started]⟩

/-- Whether a script's declaration is covered makes no difference to its calls. Whatever it
declares, a call is stopped at the gate exactly when it cannot start, or the first of its commands
is denied. -/
theorem declared_requirement_not_enforced (host : Host) (call : Call) (m : Moment) :
    (∀ extra, Script.callIn host (call.declaring extra) m = Script.callIn host call m) ∧
      (call.StoppedAtGate m (Script.callIn host call m) ↔ (call.Ready m → call.FirstDenied)) := by
  constructor
  · intro extra
    rw [Script.callIn_eq, Script.callIn_eq]
    exact callScript_declaring host _ call extra m
  rw [Script.callIn_eq]
  generalize call.context.caller host = caller
  constructor
  · rintro ⟨hn, ⟨e, he⟩, _⟩ hr
    cases hc : call.script.commands with
    | nil => rw [callScript_nil hr hc] at he; cases he
    | cons c cs =>
      refine ⟨c, cs, hc, fun hk => ?_⟩
      obtain ⟨depth, hm⟩ := callScript_entered host caller hr hc hk
      exact hn depth c hm
  · intro h
    by_cases hr : call.Ready m
    · obtain ⟨⟨e, he⟩, hn⟩ := callScript_firstDenied host caller hr (h hr)
      exact ⟨hn, ⟨_, he⟩, fun _ => ⟨e, he⟩⟩
    · obtain ⟨he, hs⟩ := callScript_not_ready host caller hr
      refine ⟨fun d c hm => ?_, he, fun h => (hr h).elim⟩
      cases hs _ hm

end GuardedScript
