import GuardedScript.Proofs.CallDepth

/-!
The order in which inputs are evaluated. With a host that answers at once, evaluating inputs side by
side and one after the other differ only in what runs after a failure. So they give the same values
or the same error, and whole runs in which no inputs fail are the same in both modes. Commands that
only read can be evaluated in any order.
-/

namespace GuardedScript

/-- The context with the way inputs are evaluated replaced. -/
def Context.parallel (b : Bool) (c : Context) : Context :=
  { c with config := { c.config with parallelInputs := b } }

def Thread.parallel (b : Bool) (t : Thread) : Thread := { t with context := t.context.parallel b }

def Frame.parallel (b : Bool) (frame : Frame) : Frame :=
  { frame with thread := frame.thread.parallel b }

def Call.parallel (b : Bool) (call : Call) : Call :=
  { call with context := call.context.parallel b }

/-- The effect neither waits nor takes time. -/
structure Effect.Prompt {α : Type} (x : Effect α) : Prop where
  ended : ∀ frame s, (x frame s).outcome ≠ .waiting
  now : ∀ frame s, (x frame s).state.now = s.now

/-- The effect is the same in both modes. -/
def Effect.Modeless {α : Type} (x : Effect α) : Prop :=
  ∀ b frame s, x (frame.parallel b) s = x frame s

/-- Every operation is answered at once. -/
def Host.Prompt (host : Host) : Prop :=
  ∀ op frame s args, (host.perform op frame s args).delay = .none

/-- No operation looks at the mode. -/
def Host.Modeless (host : Host) : Prop :=
  ∀ b op frame s args, host.perform op (frame.parallel b) s args = host.perform op frame s args

/-! ### Side by side and one after the other -/

section
variable {x : Effect (Option ObjectId)} {xs : List (Effect (Option ObjectId))} {frame : Frame}
  {s : State}

/-- The frame after some inputs, whose values are kept alive. -/
def Frame.keeping (frame : Frame) (vs : List (Option ObjectId)) : Frame :=
  { frame with held := vs.foldl (fun held v => v.toList.map .object ++ held) frame.held }

theorem Effect.bind_map {α β : Type} (x : Effect α) (f : α → β) (frame : Frame) (s : State) :
    (x >>= fun a => Effect.pure (f a)) frame s =
      ⟨(x frame s).outcome.map f, (x frame s).state, (x frame s).events⟩ := by
  cases ho : (x frame s).outcome with
  | done a =>
    rw [Effect.bind_done ho]
    simp [Effect.pure, Outcome.map]
  | failed e => rw [Effect.bind_failed ho]; rfl
  | waiting => rw [Effect.bind_waiting ho]; rfl

theorem Effect.inSequence_done {v : Option ObjectId} (ho : (x frame s).outcome = .done v) :
    Effect.inSequence (x :: xs) frame s =
      ⟨(Effect.inSequence xs (frame.keeping [v]) (x frame s).state).outcome.map (v :: ·),
        (Effect.inSequence xs (frame.keeping [v]) (x frame s).state).state,
        (x frame s).events ++
          (Effect.inSequence xs (frame.keeping [v]) (x frame s).state).events⟩ := by
  have hm := Effect.bind_map (Effect.holding (v.toList.map .object) (Effect.inSequence xs)) (v :: ·)
    frame (x frame s).state
  rw [Effect.inSequence, Effect.bind_done ho]
  exact congrArg (fun q : Reply CommandError State _ =>
    (⟨q.outcome, q.state, (x frame s).events ++ q.events⟩ : Reply CommandError State _)) hm

theorem Effect.inSequence_failed {e : CommandError} (ho : (x frame s).outcome = .failed e) :
    Effect.inSequence (x :: xs) frame s = ⟨.failed e, (x frame s).state, (x frame s).events⟩ := by
  rw [Effect.inSequence, Effect.bind_failed ho]

/-- The rest goes on where an input ended that took no time. -/
theorem Effect.inParallelFrom_cons (hn : (x frame s).state.now = s.now) :
    Effect.inParallelFrom s.now (x :: xs) frame s =
      let r := x frame s
      let q := Effect.inParallelFrom r.state.now xs
        { frame with held := Effect.leftovers r.outcome ++ frame.held } r.state
      ⟨r.outcome.both List.cons q.outcome, q.state, r.events ++ q.events ++
        (r.outcome.hidden q.outcome).toList.map fun e =>
          ⟨frame.thread.context.depth, .dropped e⟩⟩ := by
  obtain ⟨⟨heap, now⟩, pointer⟩ := s
  simp only [Effect.inParallelFrom]
  revert hn
  generalize x frame ⟨⟨heap, now⟩, pointer⟩ = r
  obtain ⟨o, ⟨⟨heap', now'⟩, pointer'⟩, es⟩ := r
  rintro rfl
  simp only [Nat.max_self]

theorem Effect.inParallelFrom_done (hn : (x frame s).state.now = s.now) {v : Option ObjectId}
    (ho : (x frame s).outcome = .done v) :
    Effect.inParallelFrom s.now (x :: xs) frame s =
      let q := Effect.inParallelFrom (x frame s).state.now xs (frame.keeping [v]) (x frame s).state
      ⟨q.outcome.map (v :: ·), q.state, (x frame s).events ++ q.events⟩ := by
  have hf : { frame with held := Effect.leftovers (.done v) ++ frame.held } = frame.keeping [v] :=
    rfl
  rw [Effect.inParallelFrom_cons hn]
  simp only [ho, hf]
  generalize
    Effect.inParallelFrom (x frame s).state.now xs (frame.keeping [v]) (x frame s).state = q
  obtain ⟨o, s', es⟩ := q
  cases o <;> simp [Outcome.both, Outcome.map, Outcome.hidden]

theorem Effect.inParallelFrom_prompt (hx : ∀ x ∈ xs, x.Prompt) :
    (Effect.inParallelFrom s.now xs frame s).outcome ≠ .waiting := by
  induction xs generalizing frame s with
  | nil => rintro ⟨⟩
  | cons x xs ih =>
    have h := hx x List.mem_cons_self
    rw [Effect.inParallelFrom_cons (h.now frame s)]
    intro hw
    obtain hw | hw := Outcome.both_waiting hw
    · exact h.ended frame s hw
    · exact ih (fun y hy => hx y (List.mem_cons_of_mem x hy)) hw

/-- After a failure the rest still runs, but the first failure counts. -/
theorem Effect.inParallelFrom_failed (hx : ∀ x ∈ xs, x.Prompt)
    (hn : (x frame s).state.now = s.now) {e : CommandError}
    (ho : (x frame s).outcome = .failed e) :
    (Effect.inParallelFrom s.now (x :: xs) frame s).outcome = .failed e := by
  rw [Effect.inParallelFrom_cons hn]
  simp only [ho]
  cases hq : (Effect.inParallelFrom (x frame s).state.now xs
      { frame with held := Effect.leftovers (.failed e) ++ frame.held }
      (x frame s).state).outcome with
  | waiting => exact (Effect.inParallelFrom_prompt hx hq).elim
  | done | failed => rfl

/-- Side by side, prompt inputs give what they give one after the other, and if none fails all goes
the same way. -/
theorem Effect.inParallelFrom_eq (hx : ∀ x ∈ xs, x.Prompt) :
    (Effect.inParallelFrom s.now xs frame s).outcome = (Effect.inSequence xs frame s).outcome ∧
      ∀ vs, (Effect.inSequence xs frame s).outcome = .done vs →
        Effect.inParallelFrom s.now xs frame s = Effect.inSequence xs frame s := by
  induction xs generalizing frame s with
  | nil => exact ⟨rfl, fun _ _ => rfl⟩
  | cons x xs ih =>
    have h := hx x List.mem_cons_self
    have hxs : ∀ y ∈ xs, y.Prompt := fun y hy => hx y (List.mem_cons_of_mem x hy)
    cases ho : (x frame s).outcome with
    | waiting => exact (h.ended frame s ho).elim
    | failed e =>
      rw [Effect.inParallelFrom_failed hxs (h.now frame s) ho, Effect.inSequence_failed ho]
      exact ⟨rfl, fun _ hv => nomatch hv⟩
    | done v =>
      obtain ⟨hq, hdone⟩ := @ih (frame.keeping [v]) (x frame s).state hxs
      rw [Effect.inParallelFrom_done (h.now frame s) ho, Effect.inSequence_done ho]
      refine ⟨congrArg (Outcome.map (v :: ·)) hq, fun vs hv => ?_⟩
      cases hws : (Effect.inSequence xs (frame.keeping [v]) (x frame s).state).outcome with
      | done ws => simp only [hdone ws hws, hws]
      | failed | waiting =>
        simp only [hws] at hv
        cases hv

/-- The first input that fails is met after all before it have given their values. -/
theorem Effect.inSequence_first {e : CommandError}
    (he : (Effect.inSequence xs frame s).outcome = .failed e) :
    ∃ before x after vs, xs = before ++ x :: after ∧
      (Effect.inSequence before frame s).outcome = .done vs ∧
      (x (frame.keeping vs) (Effect.inSequence before frame s).state).outcome = .failed e := by
  induction xs generalizing frame s with
  | nil => cases he
  | cons x xs ih =>
    cases ho : (x frame s).outcome with
    | waiting =>
      rw [Effect.inSequence, Effect.bind_waiting ho] at he
      cases he
    | failed e' =>
      rw [Effect.inSequence_failed ho] at he
      cases he
      exact ⟨[], x, xs, [], rfl, rfl, ho⟩
    | done v =>
      rw [Effect.inSequence_done ho] at he
      have hq :
          (Effect.inSequence xs (frame.keeping [v]) (x frame s).state).outcome = .failed e := by
        revert he
        cases (Effect.inSequence xs (frame.keeping [v]) (x frame s).state).outcome <;> rintro ⟨⟩
        rfl
      obtain ⟨before, y, after, vs, rfl, hb, hy⟩ := ih hq
      refine ⟨x :: before, y, after, v :: vs, rfl, ?_, ?_⟩
      · rw [Effect.inSequence_done ho, hb]
        rfl
      · rw [Effect.inSequence_done ho]
        exact hy

/-- One after the other, inputs that do not look at the mode do the same in both. -/
theorem Effect.inSequence_parallel (hx : ∀ x ∈ xs, x.Modeless) (b : Bool) :
    Effect.inSequence xs (frame.parallel b) s = Effect.inSequence xs frame s := by
  induction xs generalizing frame s with
  | nil => rfl
  | cons x xs ih =>
    have h := hx x List.mem_cons_self b frame s
    have hxs : ∀ y ∈ xs, y.Modeless := fun y hy => hx y (List.mem_cons_of_mem x hy)
    cases ho : (x frame s).outcome with
    | waiting =>
      rw [Effect.inSequence, Effect.bind_waiting ho, Effect.bind_waiting (h.symm ▸ ho), h]
    | failed e => rw [Effect.inSequence_failed ho, Effect.inSequence_failed (h.symm ▸ ho), h]
    | done v =>
      rw [Effect.inSequence_done ho, Effect.inSequence_done (h.symm ▸ ho), h]
      have hk : (frame.parallel b).keeping [v] = (frame.keeping [v]).parallel b := rfl
      rw [hk, ih hxs]

/-- Evaluates inputs in a mode. -/
def Effect.inMode (b : Bool) (xs : List (Effect (Option ObjectId))) :
    Effect (List (Option ObjectId)) :=
  if b then Effect.inParallel xs else Effect.inSequence xs

theorem Effect.evaluateAll_parallel (b : Bool) (xs : List (Effect (Option ObjectId)))
    (frame : Frame) (s : State) :
    Effect.evaluateAll xs (frame.parallel b) s = Effect.inMode b xs (frame.parallel b) s := by
  cases b <;> rfl

theorem Effect.inMode_outcome (hx : ∀ x ∈ xs, x.Prompt) (b : Bool) :
    (Effect.inMode b xs frame s).outcome = (Effect.inSequence xs frame s).outcome := by
  cases b with
  | false => rfl
  | true => exact (Effect.inParallelFrom_eq hx).1

theorem Effect.inMode_prompt (hx : ∀ x ∈ xs, x.Prompt) (b : Bool) :
    (Effect.inMode b xs frame s).outcome ≠ .waiting := by
  rw [Effect.inMode_outcome hx, ← (Effect.inParallelFrom_eq hx).1]
  exact Effect.inParallelFrom_prompt hx

theorem Effect.inMode_done (hx : ∀ x ∈ xs, x.Prompt) {b : Bool} {vs : List (Option ObjectId)}
    (hv : (Effect.inMode b xs frame s).outcome = .done vs) (b' : Bool) :
    Effect.inMode b' xs frame s = Effect.inMode b xs frame s := by
  have hs : ∀ c, Effect.inMode c xs frame s = Effect.inSequence xs frame s := by
    rw [Effect.inMode_outcome hx] at hv
    intro c
    cases c with
    | false => rfl
    | true => exact (Effect.inParallelFrom_eq hx).2 vs hv
  rw [hs, hs]

end

/-! ### Runs in which no inputs fail -/

/-- The call neither waits nor takes time. -/
def Caller.Prompt (run : Caller) : Prop :=
  ∀ call m, (run call m).outcome ≠ .waiting ∧ (run call m).state.now = m.now

section
variable {host : Host} {caller : Option Caller}

theorem Effect.perform_prompt (hh : host.Prompt) (op : Operation) (args : List (Option ObjectId)) :
    (Effect.perform host op args).Prompt := by
  constructor
  · intro frame s
    simp only [Effect.perform, hh op frame s args, Effect.delayed]
    cases (host.perform op frame s args).result <;> rintro ⟨⟩
  · intro frame s
    simp only [Effect.perform, hh op frame s args, Effect.delayed]

theorem Outcome.forget_ne_waiting {ε α : Type} {o : Outcome ε α} (h : o ≠ .waiting) :
    o.forget ≠ .waiting := by
  cases o with
  | done | failed => rintro ⟨⟩
  | waiting => exact (h rfl).elim

theorem Outcome.mapError_ne_waiting {ε ε' α : Type} {f : ε → ε'} {o : Outcome ε α}
    (h : o ≠ .waiting) : o.mapError f ≠ .waiting := by
  cases o with
  | done | failed => rintro ⟨⟩
  | waiting => exact (h rfl).elim

theorem Effect.call_prompt (hc : ∀ run, caller = some run → run.Prompt) (script : Script)
    (inputs : List ObjectId) : (Effect.call caller script inputs).Prompt := by
  cases caller with
  | none => exact ⟨fun _ _ => nofun, fun _ _ => rfl⟩
  | some run =>
    exact ⟨fun _ _ => Outcome.mapError_ne_waiting (hc run rfl _ _).1, fun _ _ => (hc run rfl _ _).2⟩

/-- No stretch of a thread waits or takes time if operations and calls do not. -/
theorem Trail.prompt (hh : host.Prompt) (hc : ∀ run, caller = some run → run.Prompt)
    {may : Command → Prop} {me : ObjectId} {t : Thread} {s s' : State}
    {o : Outcome CommandError Unit} {es : List Entry} (h : Trail host caller may me t s o s' es) :
    o ≠ .waiting ∧ s'.now = s.now := by
  induction h with
  | still | slip | enter | throw | set | add | giveBack => exact ⟨nofun, rfl⟩
  | perform s held args _ _ hr =>
    subst hr
    exact ⟨Outcome.forget_ne_waiting ((Effect.perform_prompt hh _ args).ended _ _),
      (Effect.perform_prompt hh _ args).now _ _⟩
  | call s held script inputs hr =>
    subst hr
    have hp := Effect.call_prompt hc script inputs
    exact ⟨Outcome.forget_ne_waiting (hp.ended _ _), hp.now _ _⟩
  | seq _ _ ih₁ ih₂ | caught _ _ _ ih₁ ih₂ => exact ⟨ih₂.1, ih₂.2.trans ih₁.2⟩
  | beside _ start hs _ _ ih₁ ih₂ =>
    refine ⟨fun hw => ?_, ?_⟩
    · obtain hw | hw := Outcome.both_waiting hw
      · exact ih₁.1 hw
      · exact ih₂.1 hw
    · have h₁ := ih₁.2
      have h₂ := ih₂.2
      simp only at h₁ h₂
      omega
  | inputsFailed _ ih => exact ⟨nofun, ih.2⟩

theorem exec_prompt (hh : host.Prompt) (hc : ∀ run, caller = some run → run.Prompt) (c : Command) :
    (exec host caller c).Prompt := by
  have hf : ∀ me t, (exec host caller c).Follows host caller (fun _ => True) me t := fun _ _ =>
    exec_follows (fun _ _ _ _ => trivial) c trivial
  have hp : ∀ frame s, (exec host caller c frame s).outcome.forget ≠ .waiting ∧
      (exec host caller c frame s).state.now = s.now := fun frame s =>
    (hf frame.me frame.thread frame.held s _ rfl).prompt hh hc
  exact ⟨fun frame s hw => (hp frame s).1 (by rw [hw]; rfl), fun frame s => (hp frame s).2⟩

theorem execEach_prompt (hh : host.Prompt) (hc : ∀ run, caller = some run → run.Prompt)
    (cs : List Command) : ∀ x ∈ execEach host caller cs, x.Prompt := by
  induction cs with
  | nil => simp [execEach]
  | cons c cs ih =>
    rw [execEach]
    exact List.forall_mem_cons.mpr ⟨exec_prompt hh hc c, ih⟩

theorem Course.prompt (hh : host.Prompt) (hc : ∀ run, caller = some run → run.Prompt)
    {me : ObjectId} {t : Thread} {s s' : State} {o : Outcome CommandError Unit} {es : List Entry}
    (h : Course host caller me t s o s' es) : o ≠ .waiting ∧ s'.now = s.now := by
  induction h with
  | stop | denied => exact ⟨nofun, rfl⟩
  | fault _ h | wait _ h => exact h.prompt hh hc
  | next _ h _ ih => exact ⟨ih.1, ih.2.trans (h.prompt hh hc).2⟩

theorem callAt_prompt (hh : host.Prompt) (levels : Nat) : Caller.Prompt (callAt host levels) := by
  intro call m
  refine callAt_induction host (P := fun _ m r => r.outcome ≠ .waiting ∧ r.state.now = m.now) ?_
    levels call m
  intro caller hc call m r hr
  cases hr with
  | refused => exact ⟨nofun, rfl⟩
  | unbuilt => exact ⟨nofun, rfl⟩
  | @ran h g t h' o s es _ _ hr =>
    obtain ⟨ho, hn⟩ := hr.prompt hh fun run hrun call m => hc run hrun call m
    refine ⟨?_, hn⟩
    cases o with
    | waiting => exact (ho rfl).elim
    | failed e => rintro ⟨⟩
    | done u =>
      simp only [Thread.conclude, checkReturn]
      split
      · split <;> rintro ⟨⟩
      · rintro ⟨⟩

theorem Context.caller_prompt (hh : host.Prompt) (c : Context) :
    ∀ run, c.caller host = some run → run.Prompt := by
  intro run hr
  unfold Context.caller at hr
  split at hr
  · cases hr
  · cases hr
    exact callAt_prompt hh _

/-- Looks out for inputs that fail. -/
def Watch.failedInputs : Watch := ⟨(· = .inputsFailed), fun _ => False, nofun, nofun⟩

section
variable {caller' : Option Caller} {me : ObjectId} {t : Thread} {b b' : Bool}

theorem Effect.Agree.inMode {left right : Watch} {t u : Thread} (ht : t.Twin u)
    {xs ys : List (Effect (Option ObjectId))}
    (hx : List.Forall₂ (Effect.Agree Eq left right me t u) xs ys) (b : Bool) :
    (Effect.inMode b xs).Agree Eq left right me t u (Effect.inMode b ys) := by
  cases b with
  | false => exact .inSequence hx
  | true => exact .inParallel ht hx

theorem Effect.gather_done {xs : List (Effect (Option ObjectId))} {frame : Frame} {s : State}
    {vs : List (Option ObjectId)} (ho : (Effect.evaluateAll xs frame s).outcome = .done vs) :
    Effect.gather xs frame s = Effect.evaluateAll xs frame s := by
  simp only [Effect.gather, ho]

theorem Thread.parallel_twin (t : Thread) (b b' : Bool) : (t.parallel b).Twin (t.parallel b') :=
  ⟨rfl, rfl, rfl⟩

/-- Prompt inputs of which none fails are gathered alike in both modes. -/
theorem Effect.gather_modes {xs ys : List (Effect (Option ObjectId))} (hp : ∀ x ∈ xs, x.Prompt)
    (hx : List.Forall₂ (Effect.Agree Eq .failedInputs .nothing me (t.parallel b) (t.parallel b'))
      xs ys) :
    (Effect.gather xs).Agree Eq .failedInputs .nothing me (t.parallel b) (t.parallel b')
      (Effect.gather ys) := by
  intro held s s' hm hl hr
  have hleft : Effect.evaluateAll xs ⟨me, t.parallel b, held⟩ s =
      Effect.inMode b xs ⟨me, t.parallel b, held⟩ s :=
    Effect.evaluateAll_parallel b xs ⟨me, t, held⟩ s
  have hright : Effect.evaluateAll ys ⟨me, t.parallel b', held⟩ s' =
      Effect.inMode b' ys ⟨me, t.parallel b', held⟩ s' :=
    Effect.evaluateAll_parallel b' ys ⟨me, t, held⟩ s'
  cases ho : (Effect.evaluateAll xs ⟨me, t.parallel b, held⟩ s).outcome with
  | waiting => exact (Effect.inMode_prompt hp b (hleft ▸ ho)).elim
  | failed e =>
    simp only [Effect.gather, ho] at hl
    exact (hl.events _ (List.mem_append_right _ (List.mem_singleton.mpr rfl)) rfl).elim
  | done vs =>
    -- the left side could as well have run in the mode of the right
    have hmode := Effect.inMode_done hp (hleft ▸ ho) b'
    rw [Effect.gather_done ho, hleft, ← hmode] at hl ⊢
    have ha := Effect.Agree.inMode (t.parallel_twin b b') hx b' held s s' hm hl
      (Watch.nothing_clear _ _)
    rw [hmode, ← hleft] at ha
    have ho' : (Effect.evaluateAll ys ⟨me, t.parallel b', held⟩ s').outcome = .done vs := by
      rw [hright, ← ha.outcome, ho]
    rw [Effect.gather_done ho', hright, hmode, ← hleft]
    exact ha

theorem Reply.EndsAlike.of_eq {α : Type} {r r' : Reply CommandError State α} (h : r = r') :
    r.EndsAlike Eq r' :=
  h ▸ ⟨rfl, rfl, ⟨rfl, rfl, rfl⟩⟩

theorem Matched.eq {s s' : State} (h : Matched Eq s s') : s = s' := by
  obtain ⟨⟨heap, now⟩, pointer⟩ := s
  obtain ⟨⟨heap', now'⟩, pointer'⟩ := s'
  obtain ⟨rfl, rfl, rfl⟩ := h
  rfl

/-- On one thread in both modes all goes alike if it does in the calls one level below. -/
theorem Comparable.of_modes (hp : host.Prompt) (hm : host.Modeless)
    (below : ∀ (call : Call) m, t.context.child = .ok call.context →
      (∀ e ∈ (Script.callIn host (call.parallel b) m).events, e.event ≠ .inputsFailed) →
        Script.callIn host (call.parallel b) m = Script.callIn host (call.parallel b') m) :
    Comparable Eq .failedInputs .nothing me (t.parallel b) (t.parallel b') host
      ((t.context.parallel b).caller host) ((t.context.parallel b').caller host) where
  toTwin := t.parallel_twin b b'
  read := by rintro h _ rfl path; rfl
  readOf := by rintro h _ rfl o path; rfl
  carried := by rintro h _ rfl o; rfl
  set := by rintro h _ rfl path v; exact .refl _
  add := by rintro h _ rfl key type; exact .refl _
  giveBack := by rintro h _ rfl v; exact .refl _
  perform op args := by
    intro held s s' hs _ _
    obtain rfl := hs.eq
    have hr : ∀ c, host.perform op ⟨me, t.parallel c, held⟩ s args =
        host.perform op ⟨me, t, held⟩ s args := fun c => hm c op ⟨me, t, held⟩ s args
    refine .of_eq ?_
    simp only [Effect.perform, hr]
    rfl
  call script inputs := by
    intro held s s' hs hl _
    obtain rfl := hs.eq
    have hcall : ∀ c, Effect.call ((t.context.parallel c).caller host) script inputs
        ⟨me, t.parallel c, held⟩ s = Effect.call ((t.context.parallel c).via (Script.callIn host))
          script inputs ⟨me, t.parallel c, held⟩ s := fun c =>
      Effect.call_caller host script inputs ⟨me, t.parallel c, held⟩ s
    rw [hcall] at hl
    refine .of_eq ?_
    rw [hcall, hcall]
    by_cases hd : t.context.depth + 1 ≤ t.context.config.maxCallDepth
    · have hvia : ∀ c, Effect.call ((t.context.parallel c).via (Script.callIn host)) script inputs
          ⟨me, t.parallel c, held⟩ s = Call.reply (Script.callIn host
            ((t.calling script inputs held).parallel c) s.toMoment) s := fun c =>
        Effect.call_via (Script.callIn host) ⟨me, t.parallel c, held⟩ hd
      rw [hvia] at hl
      rw [hvia, hvia, below _ _ (Context.child_eq_ok.mpr ⟨hd, rfl⟩) hl.events]
    · have hdeep : ∀ c, Effect.call ((t.context.parallel c).via (Script.callIn host)) script inputs
          ⟨me, t.parallel c, held⟩ s = ⟨.failed (.callDepthExceeded (t.context.depth + 1)
            t.context.config.maxCallDepth), s, [⟨t.context.depth, .tooDeep (t.context.depth + 1)
              t.context.config.maxCallDepth⟩]⟩ := fun c =>
        Effect.call_via_deep (Script.callIn host) ⟨me, t.parallel c, held⟩
          (Nat.le_of_lt_succ (Nat.lt_of_not_le hd))
      rw [hdeep, hdeep]
  inputs cs hx := Effect.gather_modes
    (execEach_prompt hp (Context.caller_prompt hp _) cs) hx

theorem Thread.buildStack_parallel (t : Thread) (h : Heap) (me : ObjectId) (inputs : Group)
    (b : Bool) : (t.parallel b).buildStack h me inputs =
      ((t.buildStack h me inputs).1.map (Thread.parallel b), (t.buildStack h me inputs).2) := by
  have hl : Thread.layAll h (t.parallel b).stack ((t.parallel b).context.ambient.toList ++
      [h.memory me, inputs]) = Thread.layAll h t.stack (t.context.ambient.toList ++
        [h.memory me, inputs]) := rfl
  simp only [Thread.buildStack, hl]
  rcases Thread.layAll h t.stack (t.context.ambient.toList ++ [h.memory me, inputs]) with
    ⟨_ | _, h'⟩
  · rfl
  · rfl

end

theorem runThread_modes (hp : host.Prompt) (hm : host.Modeless) {b b' : Bool} {call : Call}
    {t : Thread} {m : Moment} (ht : t.context = call.context)
    (below : ∀ (below : Call) m, call.context.child = .ok below.context →
      (∀ e ∈ (Script.callIn host (below.parallel b) m).events, e.event ≠ .inputsFailed) →
        Script.callIn host (below.parallel b) m = Script.callIn host (below.parallel b') m)
    (hn : ∀ e ∈ (runThread host ((call.context.parallel b).caller host) (call.parallel b)
      (t.parallel b) m).events, e.event ≠ .inputsFailed) :
    runThread host ((call.context.parallel b).caller host) (call.parallel b) (t.parallel b) m =
      runThread host ((call.context.parallel b').caller host) (call.parallel b') (t.parallel b')
        m := by
  rw [← ht] at below hn ⊢
  have hx : Comparable Eq .failedInputs .nothing call.script.parent (t.parallel b) (t.parallel b')
      host ((t.context.parallel b).caller host) ((t.context.parallel b').caller host) :=
    .of_modes hp hm below
  have hr := runCommands_agree hx t.commands
    (.object call.script.parent :: (t.holders ++ call.held))
    { m with pointer := .start t.commands.length } _ ⟨rfl, rfl, rfl⟩
    ⟨hn, fun _ _ => id⟩ (Watch.nothing_clear _ _)
  simp only [runThread]
  exact congrArg (fun r : Reply CommandError State Unit =>
    (⟨t.conclude call.script r.state r.outcome, r.state.toMoment, r.events⟩ :
      Reply ScriptError Moment (Option ObjectId))) hr.eq

/-- A run in which no inputs fail is the same in both modes. -/
theorem callIn_modes (hp : host.Prompt) (hm : host.Modeless) {b : Bool} (b' : Bool) (call : Call)
    (m : Moment)
    (hn : ∀ e ∈ (Script.callIn host (call.parallel b) m).events, e.event ≠ .inputsFailed) :
    Script.callIn host (call.parallel b) m = Script.callIn host (call.parallel b') m := by
  induction call using Call.induction_below generalizing m with
  | step call ih =>
    rw [Script.callIn_eq] at hn
    rw [Script.callIn_eq, Script.callIn_eq]
    cases hl : m.heap.isLiving (call.inputs.map .object ++ call.held) call.script.parent with
    | false =>
      have h : ∀ c caller, callScript host caller (call.parallel c) m = _ := fun c _ =>
        callScript_detached (call.parallel c) hl
      rw [h, h]
      rfl
    | true =>
      cases hi : call.script.inputMemory m.heap call.inputs with
      | error e =>
        have h : ∀ c caller, callScript host caller (call.parallel c) m = _ := fun c _ =>
          callScript_unfit (call.parallel c) hl hi
        rw [h, h]
      | ok p =>
        have hbuilt : ∀ c, ((call.parallel c).thread p.1.newStack.2).buildStack p.1.newStack.1
            call.script.parent (.plain p.2) = _ := fun c =>
          (call.thread p.1.newStack.2).buildStack_parallel p.1.newStack.1 call.script.parent
            (.plain p.2) c
        rcases hb : (call.thread p.1.newStack.2).buildStack p.1.newStack.1 call.script.parent
          (.plain p.2) with ⟨e | t, h'⟩
        · simp only [hb] at hbuilt
          have h : ∀ c caller, callScript host caller (call.parallel c) m = _ := fun c _ =>
            callScript_unbuilt (call.parallel c) hl hi (hbuilt c)
          rw [h, h]
          rfl
        · simp only [hb] at hbuilt
          have h : ∀ c caller, callScript host caller (call.parallel c) m = _ := fun c _ =>
            callScript_built (call.parallel c) hl hi (hbuilt c)
          obtain ⟨_, ht⟩ := Thread.buildStack_ok hb
          rw [h] at hn
          have hr := runThread_modes hp hm (by rw [ht]; rfl) (fun below m hc => ih below hc m)
            (fun e he => hn e (List.mem_cons_of_mem _ he))
          rw [h, h]
          exact congrArg (fun r : Reply ScriptError Moment (Option ObjectId) =>
            (⟨r.outcome, r.state, call.started :: r.events⟩ :
              Reply ScriptError Moment (Option ObjectId))) hr

end

/-! ### Commands that only read -/

/-- The command and all its parts only read. -/
def Command.ReadOnly : Command → Prop
  | .this _ | .value _ _ | .get _ _ => True
  | .getOf _ target _ => target.ReadOnly
  | .throw _ none => True
  | .throw _ (some operand) => operand.ReadOnly
  | .attempt _ body handler => body.ReadOnly ∧ handler.ReadOnly
  | _ => False

/-- The effect changes nothing, and what it gives does not depend on what is kept alive. -/
structure Effect.Still {α : Type} (x : Effect α) : Prop where
  state : ∀ frame s, (x frame s).state = s
  outcome : ∀ me t held held' s, (x ⟨me, t, held⟩ s).outcome = (x ⟨me, t, held'⟩ s).outcome

namespace Effect.Still

variable {α β : Type}

theorem pure (a : α) : (Effect.pure a).Still := ⟨fun _ _ => rfl, fun _ _ _ _ _ => rfl⟩

theorem note (e : Event) : (Effect.note e).Still := ⟨fun _ _ => rfl, fun _ _ _ _ _ => rfl⟩

theorem ask {f : Frame → Heap → Except CommandError α}
    (hf : ∀ me t held held' h, f ⟨me, t, held⟩ h = f ⟨me, t, held'⟩ h) : (Effect.ask f).Still :=
  ⟨fun _ _ => rfl, fun me t held held' s => by simp only [Effect.ask, hf me t held held']⟩

theorem bind {x : Effect α} {f : α → Effect β} (hx : x.Still) (hf : ∀ a, (f a).Still) :
    (x >>= f).Still := by
  constructor
  · intro frame s
    have hs := hx.state frame s
    cases ho : (x frame s).outcome with
    | done a => rw [Effect.bind_done ho, hs, (hf a).state]
    | failed e => rw [Effect.bind_failed ho, hs]
    | waiting => rw [Effect.bind_waiting ho, hs]
  · intro me t held held' s
    have h := hx.outcome me t held held' s
    cases ho : (x ⟨me, t, held⟩ s).outcome with
    | done a =>
      rw [Effect.bind_done ho, Effect.bind_done (h.symm.trans ho), hx.state, hx.state]
      exact (hf a).outcome me t held held' s
    | failed e => rw [Effect.bind_failed ho, Effect.bind_failed (h.symm.trans ho)]
    | waiting => rw [Effect.bind_waiting ho, Effect.bind_waiting (h.symm.trans ho)]

theorem require (context : String) (v : Option α) : (Effect.require context v).Still := by
  cases v with
  | none => exact ⟨fun _ _ => rfl, fun _ _ _ _ _ => rfl⟩
  | some a => exact pure a

theorem entering (c : Command) {x : Effect α} (hx : x.Still) : (Effect.entering c x).Still :=
  (note _).bind fun _ => hx

theorem attempt {body handler : Effect (Option ObjectId)} (hb : body.Still) (hh : handler.Still) :
    (body.attempt handler).Still := by
  constructor
  · intro frame s
    have hs := hb.state frame s
    cases ho : (body frame s).outcome with
    | done v => rw [Effect.attempt_done ho, hs]
    | waiting => rw [Effect.attempt_waiting ho, hs]
    | failed e =>
      cases hc : e.isCatchable with
      | false => rw [Effect.attempt_fatal ho hc, hs]
      | true =>
        rw [Effect.attempt_caught ho hc, hs]
        exact hh.state _ s
  · intro me t held held' s
    have h := hb.outcome me t held held' s
    cases ho : (body ⟨me, t, held⟩ s).outcome with
    | done v => rw [Effect.attempt_done ho, Effect.attempt_done (h.symm.trans ho)]
    | waiting => rw [Effect.attempt_waiting ho, Effect.attempt_waiting (h.symm.trans ho)]
    | failed e =>
      cases hc : e.isCatchable with
      | false => rw [Effect.attempt_fatal ho hc, Effect.attempt_fatal (h.symm.trans ho) hc]
      | true =>
        rw [Effect.attempt_caught ho hc, Effect.attempt_caught (h.symm.trans ho) hc, hb.state,
          hb.state]
        exact congrArg (Outcome.map _) (hh.outcome me t _ _ s)

end Effect.Still

section
variable {host : Host} {caller : Option Caller}

theorem exec_still : ∀ c : Command, c.ReadOnly → (exec host caller c).Still
  | .this own, _ => by
    rw [exec]
    exact .entering _ (.ask fun _ _ _ _ _ => rfl)
  | .value own o, _ => by
    rw [exec]
    exact .entering _ (.pure _)
  | .get own path, _ => by
    rw [exec]
    exact .entering _ (.ask fun _ _ _ _ _ => rfl)
  | .getOf own target path, hc => by
    rw [exec]
    exact .entering _ ((exec_still target hc).bind fun v =>
      (Effect.Still.require _ v).bind fun o => .ask fun _ _ _ _ _ => rfl)
  | .throw own none, _ => by
    rw [exec, execOption]
    exact .entering _ ((Effect.Still.pure none).bind fun v =>
      (Effect.Still.note _).bind fun _ => .ask fun _ _ _ _ _ => rfl)
  | .throw own (some operand), hc => by
    rw [exec, execOption]
    exact .entering _ ((exec_still operand hc).bind fun v =>
      (Effect.Still.note _).bind fun _ => .ask fun _ _ _ _ _ => rfl)
  | .attempt own body handler, hc => by
    rw [exec]
    exact .entering _ (.attempt (exec_still body hc.1) (exec_still handler hc.2))

/-- Runs effects one after the other, whether or not they fail, and gives what each came to and the
state after the last. -/
def Effect.inOrder : List (Effect (Option ObjectId)) → Frame → State →
    List (Outcome CommandError (Option ObjectId)) × State
  | [], _, s => ([], s)
  | x :: rest, frame, s =>
    let r := x frame s
    let q := inOrder rest { frame with held := leftovers r.outcome ++ frame.held } r.state
    (r.outcome :: q.1, q.2)

theorem Effect.inOrder_still {xs : List (Effect (Option ObjectId))} (hx : ∀ x ∈ xs, x.Still)
    (frame : Frame) (s : State) :
    Effect.inOrder xs frame s = (xs.map fun x => (x frame s).outcome, s) := by
  have h : ∀ held, Effect.inOrder xs ⟨frame.me, frame.thread, held⟩ s =
      (xs.map fun x => (x frame s).outcome, s) := by
    induction xs with
    | nil => exact fun _ => rfl
    | cons x xs ih =>
      intro held
      have hx₁ := hx x List.mem_cons_self
      have hih := ih fun y hy => hx y (List.mem_cons_of_mem x hy)
      simp only [Effect.inOrder, hx₁.state, hih, List.map_cons,
        hx₁.outcome frame.me frame.thread held frame.held s]
  exact h frame.held

end

/-- Evaluating inputs side by side and one after the other agree, for effects and a host that are
prompt and do not look at the mode: the result is the same, it is the first failure if there is one,
and otherwise the whole reply is the same. A whole run in which no inputs fail is the same in both
modes. Commands that only read give the same at each place in every order, and change nothing. -/
theorem input_orders_agree {host : Host} (hp : host.Prompt) (hm : host.Modeless) :
    (∀ (xs : List (Effect (Option ObjectId))) frame s, (∀ x ∈ xs, x.Prompt) →
      (∀ x ∈ xs, x.Modeless) →
        (Effect.evaluateAll xs (frame.parallel true) s).outcome =
          (Effect.evaluateAll xs (frame.parallel false) s).outcome ∧
        (∀ vs, (Effect.evaluateAll xs (frame.parallel false) s).outcome = .done vs →
          Effect.evaluateAll xs (frame.parallel true) s =
            Effect.evaluateAll xs (frame.parallel false) s) ∧
        ∀ e, (Effect.evaluateAll xs (frame.parallel true) s).outcome = .failed e →
          ∃ before x after vs, xs = before ++ x :: after ∧
            (Effect.inSequence before frame s).outcome = .done vs ∧
            (x (frame.keeping vs) (Effect.inSequence before frame s).state).outcome = .failed e) ∧
    (∀ (call : Call) m b b',
      (∀ e ∈ (Script.callIn host (call.parallel b) m).events, e.event ≠ .inputsFailed) →
        Script.callIn host (call.parallel b) m = Script.callIn host (call.parallel b') m) ∧
    ∀ caller (cs : List Command), (∀ c ∈ cs, c.ReadOnly) →
      ∀ (order : List (Fin cs.length)) frame s,
        Effect.inOrder (order.map fun i => exec host caller (cs.get i)) frame s =
          (order.map fun i => (exec host caller (cs.get i) frame s).outcome, s) := by
  refine ⟨?_, ?_, ?_⟩
  · intro xs frame s hx hn
    have hseq : ∀ b, (Effect.evaluateAll xs (frame.parallel b) s).outcome =
        (Effect.inSequence xs frame s).outcome := by
      intro b
      rw [Effect.evaluateAll_parallel, Effect.inMode_outcome hx, Effect.inSequence_parallel hn]
    refine ⟨(hseq true).trans (hseq false).symm, ?_, ?_⟩
    · intro vs hv
      rw [Effect.evaluateAll_parallel, Effect.evaluateAll_parallel]
      have ht : (Effect.inMode true xs (frame.parallel true) s).outcome = .done vs := by
        rw [← Effect.evaluateAll_parallel, hseq, ← hseq false, hv]
      calc Effect.inMode true xs (frame.parallel true) s
          = Effect.inMode false xs (frame.parallel true) s := (Effect.inMode_done hx ht false).symm
        _ = Effect.inSequence xs frame s := Effect.inSequence_parallel hn true
        _ = Effect.inMode false xs (frame.parallel false) s :=
          (Effect.inSequence_parallel hn false).symm
    · intro e he
      exact Effect.inSequence_first ((hseq true).symm.trans he)
  · intro call m b b' hn
    exact callIn_modes hp hm b' call m hn
  · intro caller cs hc order frame s
    have hx : ∀ x ∈ order.map fun i => exec host caller (cs.get i), x.Still := by
      intro x hx
      obtain ⟨i, _, rfl⟩ := List.mem_map.mp hx
      exact exec_still _ (hc _ (List.get_mem cs i))
    rw [Effect.inOrder_still hx, List.map_map]
    rfl

namespace Sample

def ping : Operation := { name := "ping" }

/-- One input returns a value, the other calls a script that evaluates inputs itself. -/
def busy : Call :=
  call {} {} [.native {} ping [.ret {} (some (.value {} ⟨2⟩)), .script {} (.value {} ⟨1⟩) []]]

def quiet : Heap := heap [.native {} ping [.this {}, .value {} ⟨2⟩]]

theorem host_prompt : host.Prompt := fun _ _ _ _ => rfl

theorem host_modeless : host.Modeless := fun _ _ _ _ _ => rfl

theorem busy_inputs : ((Script.callIn host (busy.parallel true) ⟨quiet, 0⟩).events.all fun e =>
    match e.event with
    | .inputsFailed => false
    | _ => true) = true := by cbv

end Sample

theorem busy_inputs_agree :
    (Script.callIn Sample.host (Sample.busy.parallel true) ⟨Sample.quiet, 0⟩).outcome =
      .done (some ⟨2⟩) ∧
    Script.callIn Sample.host (Sample.busy.parallel true) ⟨Sample.quiet, 0⟩ =
      Script.callIn Sample.host (Sample.busy.parallel false) ⟨Sample.quiet, 0⟩ := by
  refine ⟨by cbv, ?_⟩
  refine (input_orders_agree Sample.host_prompt Sample.host_modeless).2.1 _ _ true false ?_
  intro e he hf
  have h := List.all_eq_true.mp Sample.busy_inputs e he
  rw [hf] at h
  cases h

end GuardedScript
