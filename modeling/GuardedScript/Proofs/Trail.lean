import GuardedScript.Proofs.Coverage
import GuardedScript.Run.Exec

/-!
What can happen on a thread.

A trail is a stretch of a thread's run: the state before, how it ended, the state after and the
events in between. Its rules say once what the commands can do. That every command follows them is
one induction over the command tree; laws of whole runs are then inductions over trails.
-/

namespace GuardedScript

/-- A failure of the command itself: neither thrown nor a denial, nor a call that failed or was too
deep. -/
def CommandError.IsLocal : CommandError → Prop
  | .capability _ | .thrown _ _ | .script _ | .callDepthExceeded _ _ => False
  | _ => True

namespace Outcome

variable {ε α β γ : Type}

/-- An outcome without its value. -/
def forget (o : Outcome ε α) : Outcome ε Unit := o.map fun _ => ()

@[simp] theorem forget_done (a : α) : (Outcome.done a : Outcome ε α).forget = .done () := rfl
@[simp] theorem forget_failed (e : ε) : (Outcome.failed e : Outcome ε α).forget = .failed e := rfl
@[simp] theorem forget_waiting : (Outcome.waiting : Outcome ε α).forget = .waiting := rfl

theorem forget_map (o : Outcome ε α) (f : α → β) : (o.map f).forget = o.forget := by
  cases o <;> rfl

theorem forget_both (f : α → β → γ) (o : Outcome ε α) (p : Outcome ε β) :
    (o.both f p).forget = o.forget.both (fun _ _ => ()) p.forget := by
  cases o <;> cases p <;> rfl

theorem hidden_forget (o : Outcome ε α) (p : Outcome ε β) :
    o.forget.hidden p.forget = o.hidden p := by
  cases o <;> cases p <;> rfl

end Outcome

theorem Thread.setValue_error {t : Thread} {h : Heap} {path : String} {v : ObjectId}
    {e : CommandError} (he : t.setValue h path v = .error e) : e.IsLocal := by
  unfold Thread.setValue at he
  split at he <;> cases he <;> trivial

theorem Thread.addLocal_error {t : Thread} {h : Heap} {key : String} {type : TypeRef}
    {e : CommandError} (he : t.addLocal h key type = .error e) : e.IsLocal := by
  unfold Thread.addLocal at he
  split at he
  · cases he; trivial
  · simp only at he
    split at he <;> cases he <;> trivial

theorem Thread.setReturn_error {t : Thread} {h : Heap} {v : Option ObjectId}
    {e : CommandError} (he : t.setReturn h v = .error e) : e.IsLocal := by
  cases v with
  | none => cases he
  | some v =>
    simp only [Thread.setReturn] at he
    repeat' split at he
    all_goals cases he
    all_goals trivial

theorem Script.boundTo_error {h : Heap} {o : ObjectId} {e : CommandError}
    (he : Script.boundTo h o = .error e) : e.IsLocal := by
  unfold Script.boundTo at he
  repeat' split at he
  all_goals cases he
  all_goals trivial

section
variable (host : Host) (caller : Option Caller) (may : Command → Prop) (me : ObjectId) (t : Thread)

/-- The stretches of a run of a thread on an object, when it may enter the given commands. Inputs
that stand side by side start at one time, and the last to end sets the time. -/
inductive Trail : State → Outcome CommandError Unit → State → List Entry → Prop where
  | still (s) : Trail s (.done ()) s []
  | slip (s) {e : CommandError} (he : e.IsLocal) : Trail s (.failed e) s []
  | enter (s) {c} (hc : may c) : Trail s (.done ()) s [⟨t.context.depth, .entered c⟩]
  | throw (s) (v) : Trail s (.failed (.thrown t.name v)) s [⟨t.context.depth, .threw v⟩]
  | set {s : State} {path v h} (hs : t.setValue s.heap path v = .ok h) :
      Trail s (.done ()) { s with heap := h } [⟨t.context.depth, .stored path v⟩]
  | add {s : State} {key type h} (hs : t.addLocal s.heap key type = .ok h) :
      Trail s (.done ()) { s with heap := h } []
  | giveBack {s : State} {v h} (hs : t.setReturn s.heap v = .ok h) :
      Trail s (.done ()) { s with heap := h, pointer := s.pointer.markReturned }
        [⟨t.context.depth, .returned v⟩]
  | perform (s held) {c op} (args) (hc : may c) (ho : c.operation? = some op) {r}
      (hr : Effect.perform host op args ⟨me, t, held⟩ s = r) :
      Trail s r.outcome.forget r.state r.events
  | call (s held script inputs) {r} (hr : Effect.call caller script inputs ⟨me, t, held⟩ s = r) :
      Trail s r.outcome.forget r.state r.events
  | seq {s₁ s₂ s₃ o es₁ es₂} : Trail s₁ (.done ()) s₂ es₁ → Trail s₂ o s₃ es₂ →
      Trail s₁ o s₃ (es₁ ++ es₂)
  | caught {s₁ s₂ s₃ e o es₁ es₂} : Trail s₁ (.failed e) s₂ es₁ → e.isCatchable = true →
      Trail s₂ o s₃ es₂ → Trail s₁ o s₃ (es₁ ++ ⟨t.context.depth, .handling e⟩ :: es₂)
  | beside {s₁ s₂ s₃ : State} {o₁ o₂ es₁ es₂} (hp : t.context.config.parallelInputs = true)
      (start : Nat) (hs : start ≤ s₁.now) : Trail { s₁ with now := start } o₁ s₂ es₁ →
      Trail { s₂ with now := max s₁.now s₂.now } o₂ s₃ es₂ →
      Trail s₁ (o₁.both (fun _ _ => ()) o₂) s₃ (es₁ ++ es₂ ++
        (o₁.hidden o₂).toList.map fun e => ⟨t.context.depth, .dropped e⟩)
  | inputsFailed {s₁ s₂ e es} : Trail s₁ (.failed e) s₂ es →
      Trail s₁ (.failed e) s₂ (es ++ [⟨t.context.depth, .inputsFailed⟩])

/-- What holds of a command holds of its parts. -/
def Hereditary : Prop := ∀ c, may c → ∀ d ∈ c.parts, may d

/-- Whatever is kept alive, the effect is such a stretch. -/
def Effect.Follows {α : Type} (x : Effect α) : Prop :=
  ∀ held s r, x ⟨me, t, held⟩ s = r → Trail host caller may me t s r.outcome.forget r.state r.events

end

section
variable {host : Host} {caller : Option Caller} {may : Command → Prop} {me : ObjectId} {t : Thread}
variable {α β : Type}

namespace Effect.Follows

theorem pure (a : α) : Follows host caller may me t (Effect.pure a) := by
  rintro held s _ rfl
  exact .still s

theorem fail {e : CommandError} (he : e.IsLocal) :
    Follows host caller may me t (Effect.fail e : Effect α) := by
  rintro held s _ rfl
  exact .slip s he

theorem bind {x : Effect α} {f : α → Effect β} (hx : Follows host caller may me t x)
    (hf : ∀ a, Follows host caller may me t (f a)) : Follows host caller may me t (x >>= f) := by
  rintro held s _ rfl
  have hr := hx held s _ rfl
  simp only [Bind.bind, Effect.bind]
  cases ho : (x ⟨me, t, held⟩ s).outcome with
  | done a =>
    rw [ho] at hr
    exact hr.seq (hf a held _ _ rfl)
  | failed e => rw [ho] at hr; exact hr
  | waiting => rw [ho] at hr; exact hr

theorem holding {x : Effect α} (held : List Holder) (hx : Follows host caller may me t x) :
    Follows host caller may me t (x.holding held) :=
  fun more s r hr => hx (held ++ more) s r hr

theorem ask {f : Frame → Heap → Except CommandError α}
    (hf : ∀ held h e, f ⟨me, t, held⟩ h = .error e → e.IsLocal) :
    Follows host caller may me t (Effect.ask f) := by
  rintro held s _ rfl
  simp only [Effect.ask]
  cases h : f ⟨me, t, held⟩ s.heap with
  | ok a => exact .still s
  | error e => exact .slip s (hf held s.heap e h)

theorem require (context : String) (v : Option α) :
    Follows host caller may me t (Effect.require context v) := by
  cases v with
  | none => exact .fail trivial
  | some a => exact .pure a

theorem requireAll (context : Nat → String) (vs : List (Option α)) (i : Nat) :
    Follows host caller may me t (Effect.requireAll context i vs) := by
  induction vs generalizing i with
  | nil => exact .pure []
  | cons v vs ih => exact (require (context i) v).bind fun a => (ih (i + 1)).bind fun as => .pure _

theorem attempt {body handler : Effect (Option ObjectId)}
    (hb : Follows host caller may me t body) (hh : Follows host caller may me t handler) :
    Follows host caller may me t (body.attempt handler) := by
  rintro held s _ rfl
  have hr := hb held s _ rfl
  simp only [Effect.attempt]
  cases ho : (body ⟨me, t, held⟩ s).outcome with
  | done a => rw [ho] at hr; exact hr
  | waiting => rw [ho] at hr; exact hr
  | failed e =>
    rw [ho] at hr
    by_cases he : e.isCatchable = true
    · simp only [he, if_true, Outcome.forget_map]
      exact hr.caught he (hh.holding _ held _ _ rfl)
    · simp only [he]
      exact hr

theorem inSequence {xs : List (Effect (Option ObjectId))}
    (hx : ∀ x ∈ xs, Follows host caller may me t x) :
    Follows host caller may me t (Effect.inSequence xs) := by
  induction xs with
  | nil => exact .pure []
  | cons x xs ih =>
    have hs := ih fun y hy => hx y (List.mem_cons_of_mem x hy)
    exact (hx x List.mem_cons_self).bind fun v => (hs.holding _).bind fun vs => .pure _

theorem inParallelFrom {xs : List (Effect (Option ObjectId))}
    (hp : t.context.config.parallelInputs = true)
    (hx : ∀ x ∈ xs, Follows host caller may me t x) {start : Nat} (held : List Holder) (s : State)
    (hs : start ≤ s.now) : Trail host caller may me t s
      (Effect.inParallelFrom start xs ⟨me, t, held⟩ s).outcome.forget
      (Effect.inParallelFrom start xs ⟨me, t, held⟩ s).state
      (Effect.inParallelFrom start xs ⟨me, t, held⟩ s).events := by
  induction xs generalizing held s with
  | nil => exact .still s
  | cons x xs ih =>
    have h₁ := hx x List.mem_cons_self held { s with now := start } _ rfl
    simp only [Effect.inParallelFrom]
    rw [Outcome.forget_both, ← Outcome.hidden_forget]
    refine Trail.beside hp start hs h₁ ?_
    exact ih (fun y hy => hx y (List.mem_cons_of_mem x hy)) _ _
      (Nat.le_trans hs (Nat.le_max_left _ _))

theorem evaluateAll {xs : List (Effect (Option ObjectId))}
    (hx : ∀ x ∈ xs, Follows host caller may me t x) :
    Follows host caller may me t (Effect.evaluateAll xs) := by
  rintro held s _ rfl
  simp only [Effect.evaluateAll]
  split
  · exact inParallelFrom ‹_› hx held s s.now.le_refl
  · exact inSequence hx held s _ rfl

theorem gather {xs : List (Effect (Option ObjectId))}
    (hx : ∀ x ∈ xs, Follows host caller may me t x) :
    Follows host caller may me t (Effect.gather xs) := by
  rintro held s _ rfl
  have hr := evaluateAll hx held s _ rfl
  simp only [Effect.gather]
  cases ho : (Effect.evaluateAll xs ⟨me, t, held⟩ s).outcome with
  | done vs => exact hr
  | waiting => exact hr
  | failed e =>
    simp only [ho] at hr ⊢
    exact hr.inputsFailed

theorem change {f : Thread → Heap → Except CommandError Heap} {told : List Event}
    (hok : ∀ s : State, ∀ h, f t s.heap = .ok h → Trail host caller may me t s (.done ())
      { s with heap := h } (told.map fun e => ⟨t.context.depth, e⟩))
    (herr : ∀ h e, f t h = .error e → e.IsLocal) :
    Follows host caller may me t (Effect.change f told) := by
  rintro held s _ rfl
  simp only [Effect.change]
  cases h : f t s.heap with
  | ok h' => exact hok s h' h
  | error e => exact .slip s (herr s.heap e h)

theorem giveBack (v : Option ObjectId) :
    Follows host caller may me t (Effect.giveBack v) := by
  rintro held s _ rfl
  simp only [Effect.giveBack]
  cases h : t.setReturn s.heap v with
  | ok h' => exact .giveBack h
  | error e => exact .slip s (t.setReturn_error h)

theorem entering {c : Command} {x : Effect α} (hc : may c)
    (hx : Follows host caller may me t x) : Follows host caller may me t (Effect.entering c x) := by
  refine bind ?_ fun _ => hx
  rintro held s _ rfl
  exact .enter s hc

end Effect.Follows

theorem CommandError.isLocal_memory {x : Except MemoryError α} {e : CommandError}
    (he : x.mapError .memory = .error e) : e.IsLocal := by
  cases x with
  | ok a => cases he
  | error m =>
    cases he
    trivial

theorem getValue_follows (path : String) :
    (getValue path).Follows host caller may me t :=
  .ask fun _ _ _ he => CommandError.isLocal_memory he

theorem getValueOf_follows (o : ObjectId) (path : String) :
    (getValueOf o path).Follows host caller may me t :=
  .ask fun _ _ _ he => CommandError.isLocal_memory he

theorem setValue_follows (path : String) (v : ObjectId) :
    (setValue path v).Follows host caller may me t :=
  .change (fun _ _ hs => .set hs) fun _ _ he => t.setValue_error he

theorem addLocal_follows (key : String) (type : TypeRef) :
    (addLocal key type).Follows host caller may me t :=
  .change (fun _ _ hs => .add hs) fun _ _ he => t.addLocal_error he

theorem throwValue_follows (v : Option ObjectId) :
    (throwValue v).Follows host caller may me t := by
  rintro held s _ rfl
  exact .throw s v

theorem call_follows (script : Script) (inputs : List ObjectId) :
    (Effect.call caller script inputs).Follows host caller may me t :=
  fun held s _ hr => .call s held script inputs hr

theorem perform_follows {c : Command} {op : Operation} (args : List (Option ObjectId))
    (hc : may c) (ho : c.operation? = some op) :
    (Effect.perform host op args).Follows host caller may me t :=
  fun held s _ hr => .perform s held args hc ho hr

mutual

/-- A command that may be entered, and so may its parts, follows the rules. -/
theorem exec_follows (hm : Hereditary may) :
    ∀ c, may c → (exec host caller c).Follows host caller may me t
  | .this own, hc => by
    rw [exec]
    exact .entering hc (.ask fun _ _ _ he => nomatch he)
  | .value own o, hc => by
    rw [exec]
    exact .entering hc (.pure _)
  | .get own path, hc => by
    rw [exec]
    exact .entering hc (getValue_follows path)
  | .getOf own target path, hc => by
    rw [exec]
    exact .entering hc ((exec_follows hm target (hm _ hc _ (by simp [Command.parts]))).bind fun v =>
      (Effect.Follows.require _ v).bind fun o => getValueOf_follows o path)
  | .set own path operand, hc => by
    rw [exec]
    have ho := exec_follows hm operand (hm _ hc _ (by simp [Command.parts]))
    exact .entering hc (ho.bind fun v =>
      (Effect.Follows.require _ v).bind fun o => (setValue_follows path o).bind fun _ => .pure _)
  | .add own key type, hc => by
    rw [exec]
    exact .entering hc ((addLocal_follows key type).bind fun _ => .pure _)
  | .ret own operand, hc => by
    rw [exec]
    exact .entering hc ((execOption_follows hm operand fun d hd =>
      hm _ hc d (by simpa [Command.parts] using hd)).bind fun v =>
        (Effect.Follows.giveBack v).bind fun _ => .pure _)
  | .script own target inputs, hc => by
    rw [exec]
    have ht := exec_follows hm target (hm _ hc _ (by simp [Command.parts]))
    have hi := execEach_follows hm inputs fun d hd => hm _ hc d (by simp [Command.parts, hd])
    refine .entering hc (ht.bind fun v => (Effect.Follows.require _ v).bind fun carrier =>
      (Effect.Follows.ask fun _ _ _ he => Script.boundTo_error he).bind fun script =>
        .holding _ ?_)
    exact (Effect.Follows.gather hi).bind fun vs =>
      (Effect.Follows.requireAll _ vs 0).bind fun os => call_follows script os
  | .attempt own body handler, hc => by
    rw [exec]
    exact .entering hc (.attempt (exec_follows hm body (hm _ hc _ (by simp [Command.parts])))
      (exec_follows hm handler (hm _ hc _ (by simp [Command.parts]))))
  | .throw own operand, hc => by
    rw [exec]
    exact .entering hc ((execOption_follows hm operand fun d hd =>
      hm _ hc d (by simpa [Command.parts] using hd)).bind throwValue_follows)
  | .native own op args, hc => by
    rw [exec]
    have hi := execEach_follows hm args fun d hd => hm _ hc d hd
    exact .entering hc ((Effect.Follows.gather hi).bind fun vs => perform_follows vs hc rfl)

theorem execOption_follows (hm : Hereditary may) :
    ∀ o : Option Command, (∀ c, o = some c → may c) →
      (execOption host caller o).Follows host caller may me t
  | none, _ => by
    rw [execOption]
    exact .pure none
  | some c, hc => by
    rw [execOption]
    exact exec_follows hm c (hc c rfl)

theorem execEach_follows (hm : Hereditary may) : ∀ cs : List Command, (∀ c ∈ cs, may c) →
    ∀ x ∈ execEach host caller cs, x.Follows host caller may me t
  | [], _, x, hx => by simp [execEach] at hx
  | c :: cs, hc, x, hx => by
    rw [execEach, List.mem_cons] at hx
    rcases hx with rfl | hx
    · exact exec_follows hm c (hc c List.mem_cons_self)
    · exact execEach_follows hm cs (fun d hd => hc d (List.mem_cons_of_mem c hd)) x hx

end

end

/-- The events that commands tell of themselves. -/
inductive Event.Told (may : Command → Prop) : Event → Prop where
  | entered {c} (hc : may c) : Told may (.entered c)
  | invoked {c op} (hc : may c) (ho : c.operation? = some op) : Told may (.invoked op)
  | handling (e) : Told may (.handling e)
  | returned (v) : Told may (.returned v)
  | stored (path v) : Told may (.stored path v)
  | threw (v) : Told may (.threw v)
  | tooDeep (depth max) : Told may (.tooDeep depth max)
  | inputsFailed : Told may .inputsFailed
  | dropped (e) : Told may (.dropped e)
  | line (text) : Told may (.line text)

/-- An event of a call that a thread made: one level deeper and with the thread's own grant. -/
def Entry.Nested (caller : Option Caller) (t : Thread) (e : Entry) : Prop :=
  ∃ run call m, caller = some run ∧ call.grant = t.grant ∧
    call.context = { t.context with depth := t.context.depth + 1 } ∧ e ∈ (run call m).events

/-- An event of the thread itself, or of a call that it made. -/
def Entry.Known (caller : Option Caller) (may : Command → Prop) (t : Thread) (e : Entry) : Prop :=
  (e.depth = t.context.depth ∧ e.event.Told may) ∨ e.Nested caller t

section
variable {host : Host} {caller : Option Caller} {may : Command → Prop} {me : ObjectId} {t : Thread}

theorem Effect.perform_events (op : Operation) (args : List (Option ObjectId)) (frame : Frame)
    (s : State) : (Effect.perform host op args frame s).events =
      ⟨frame.thread.context.depth, .invoked op⟩ :: (host.perform op frame s args).lines.map
        fun text => ⟨frame.thread.context.depth, .line text⟩ := by
  simp only [Effect.perform]
  split <;> rfl

theorem Effect.call_known (may : Command → Prop) {script : Script} {inputs : List ObjectId}
    {held : List Holder} {s : State} {e : Entry}
    (he : e ∈ (Effect.call caller script inputs ⟨me, t, held⟩ s).events) :
    e.Known caller may t := by
  cases caller with
  | none =>
    rw [Effect.call, List.mem_singleton] at he
    subst he
    exact .inl ⟨rfl, .tooDeep _ _⟩
  | some run => exact .inr ⟨run, ⟨script, _, inputs, t.grant, held⟩, s.toMoment, rfl, rfl, rfl, he⟩

/-- Where the events of a stretch come from. -/
theorem Trail.known {s s' : State} {o : Outcome CommandError Unit} {es : List Entry}
    (h : Trail host caller may me t s o s' es) : ∀ e ∈ es, e.Known caller may t := by
  have one : ∀ {ev : Event}, ev.Told may → ∀ e ∈ [(⟨t.context.depth, ev⟩ : Entry)],
      e.Known caller may t := by
    intro ev hev e he
    rw [List.mem_singleton] at he
    subst he
    exact .inl ⟨rfl, hev⟩
  induction h with
  | still | slip | add => simp
  | enter s hc => exact one (.entered hc)
  | throw s v => exact one (.threw v)
  | set => exact one (.stored _ _)
  | giveBack => exact one (.returned _)
  | perform s held args hc ho hr =>
    subst hr
    rw [Effect.perform_events]
    refine List.forall_mem_cons.mpr ⟨.inl ⟨rfl, .invoked hc ho⟩, ?_⟩
    intro e he
    obtain ⟨text, _, rfl⟩ := List.mem_map.mp he
    exact .inl ⟨rfl, .line text⟩
  | call s held script inputs hr =>
    subst hr
    exact fun _ he => Effect.call_known may he
  | seq _ _ ih₁ ih₂ => exact List.forall_mem_append.mpr ⟨ih₁, ih₂⟩
  | caught _ _ _ ih₁ ih₂ =>
    exact List.forall_mem_append.mpr ⟨ih₁, List.forall_mem_cons.mpr ⟨.inl ⟨rfl, .handling _⟩, ih₂⟩⟩
  | beside _ _ _ _ _ ih₁ ih₂ =>
    refine List.forall_mem_append.mpr ⟨List.forall_mem_append.mpr ⟨ih₁, ih₂⟩, ?_⟩
    intro e he
    obtain ⟨err, _, rfl⟩ := List.mem_map.mp he
    exact .inl ⟨rfl, .dropped err⟩
  | inputsFailed _ ih => exact List.forall_mem_append.mpr ⟨ih, one .inputsFailed⟩

end

/-- The thread's grant covers a command. -/
def Thread.Allows (t : Thread) (c : Command) : Prop := t.grant.Covers c.required

theorem Thread.allows_hereditary (t : Thread) : Hereditary t.Allows :=
  fun _ hc _ hd => Command.covers_part hc hd

section
variable (host : Host) (caller : Option Caller) (me : ObjectId) (t : Thread)

/-- The runs of a thread from some command on. Every command passes the check before it starts, and
starts with a running pointer. -/
inductive Course : State → Outcome CommandError Unit → State → List Entry → Prop where
  | stop (s) : Course s (.done ()) s []
  | denied (s : State) {c} (hc : ¬ t.Allows c) :
      Course s (.failed (.capability (.denied t.name (t.grant.missing c.required))))
        { s with pointer := s.pointer.fault }
        [⟨t.context.depth, .denied (t.grant.missing c.required)⟩]
  | fault {s₁ s₂ : State} {e es} (hp : s₁.pointer.status = .running) :
      Trail host caller t.Allows me t s₁ (.failed e) s₂ es →
      Course s₁ (.failed e) { s₂ with pointer := s₂.pointer.fault } es
  | wait {s₁ s₂ : State} {es} (hp : s₁.pointer.status = .running) :
      Trail host caller t.Allows me t s₁ .waiting s₂ es → Course s₁ .waiting s₂ es
  | next {s₁ s₂ s₃ : State} {o es₁ es₂} (hp : s₁.pointer.status = .running) :
      Trail host caller t.Allows me t s₁ (.done ()) s₂ es₁ →
      Course { s₂ with pointer := s₂.pointer.advance } o s₃ es₂ → Course s₁ o s₃ (es₁ ++ es₂)

variable {host caller me t} in
theorem Course.known {s s' : State} {o : Outcome CommandError Unit} {es : List Entry}
    (h : Course host caller me t s o s' es) :
    ∀ e ∈ es, e.Known caller t.Allows t ∨ ∃ ms, e = ⟨t.context.depth, .denied ms⟩ := by
  induction h with
  | stop => simp
  | denied s hc => simp
  | fault _ h | wait _ h => exact fun e he => .inl (h.known e he)
  | next _ h _ ih => exact List.forall_mem_append.mpr ⟨fun e he => .inl (h.known e he), ih⟩

theorem runCommands_course (cs : List Command) (held : List Holder) (s : State) :
    Course host caller me t s (runCommands host caller cs ⟨me, t, held⟩ s).outcome
      (runCommands host caller cs ⟨me, t, held⟩ s).state
      (runCommands host caller cs ⟨me, t, held⟩ s).events := by
  induction cs generalizing s with
  | nil => exact .stop s
  | cons c cs ih =>
    simp only [runCommands]
    split
    · exact .stop s
    · next hstop =>
      have hp : s.pointer.status = .running := by simpa [Pointer.isStopped] using hstop
      cases hk : t.grant.check c.required t.name with
      | error e =>
        obtain ⟨hc, rfl⟩ := Capabilities.check_eq_error.mp hk
        exact .denied s hc
      | ok _ =>
        have hc : t.Allows c := Capabilities.check_eq_ok.mp hk
        have hx : (exec host caller c).Follows host caller t.Allows me t :=
          exec_follows t.allows_hereditary c hc
        have hr := hx held s _ rfl
        cases ho : (exec host caller c ⟨me, t, held⟩ s).outcome with
        | failed e => rw [ho] at hr; exact .fault hp hr
        | waiting => rw [ho] at hr; exact .wait hp hr
        | done v => rw [ho] at hr; exact .next hp hr (ih _)

end

section
variable (host : Host) (caller : Option Caller)

def Call.started (call : Call) : Entry := ⟨call.context.depth, .started call.grant⟩

/-- The ways a call can go: refused before there is a thread, stopped while the stack is built, or
run. -/
inductive Calls (call : Call) (m : Moment) : Reply ScriptError Moment (Option ObjectId) → Prop where
  | refused {e : ScriptError} (he : e.isCatchable = true) : Calls call m ⟨.failed e, m, []⟩
  | unbuilt {h g e h'} (hi : call.script.inputMemory m.heap call.inputs = .ok (h, g))
      (hb : (call.thread h.newStack.2).buildStack h.newStack.1 call.script.parent (.plain g) =
        (.error e, h')) :
      Calls call m ⟨.failed (.memory call.script.threadName e), { m with heap := h' },
        [call.started]⟩
  | ran {h g t h' o s es} (hi : call.script.inputMemory m.heap call.inputs = .ok (h, g))
      (hb : (call.thread h.newStack.2).buildStack h.newStack.1 call.script.parent (.plain g) =
        (.ok t, h'))
      (hr : Course host caller call.script.parent t
        { m with heap := h', pointer := .start call.script.commands.length } o s es) :
      Calls call m ⟨t.conclude call.script s o, s.toMoment, call.started :: es⟩

theorem Thread.buildStack_ok {t t' : Thread} {h h' : Heap} {me : ObjectId} {inputs : Group}
    (hb : t.buildStack h me inputs = (.ok t', h')) : ∃ g, t' = { t with scratch := some g } := by
  unfold Thread.buildStack at hb
  split at hb
  · cases hb
  · cases hb
    exact ⟨_, rfl⟩

theorem callScript_calls (call : Call) (m : Moment) :
    Calls host caller call m (callScript host caller call m) := by
  simp only [callScript]
  split
  · exact .refused rfl
  · split
    · exact .refused rfl
    · next h g hi =>
      split
      · next e h' hb => exact .unbuilt hi hb
      · next t h' hb =>
        obtain ⟨_, ht⟩ := Thread.buildStack_ok hb
        have hl : t.commands = call.script.commands := by rw [ht]; rfl
        simp only [runThread, hl]
        exact .ran hi hb (runCommands_course host caller call.script.parent t _ _ _)

/-- What every call keeps when the calls inside it do, every call keeps, at all levels. -/
theorem callAt_induction {P : Call → Moment → Reply ScriptError Moment (Option ObjectId) → Prop}
    (step : ∀ caller : Option Caller, (∀ run, caller = some run → ∀ call m, P call m (run call m)) →
      ∀ call m r, Calls host caller call m r → P call m r)
    (levels : Nat) (call : Call) (m : Moment) : P call m (callAt host levels call m) := by
  induction levels generalizing call m with
  | zero => exact step none (fun _ h => nomatch h) call m _ (callScript_calls host none call m)
  | succ levels ih =>
    refine step (some (callAt host levels)) ?_ call m _ (callScript_calls host _ call m)
    intro run hrun
    cases hrun
    exact ih

end

namespace Sample

/-! Two plain objects, one that carries a script, and a host that changes nothing. -/

def object : Object := ⟨⟨0⟩, ⟨0⟩, ⟨["Host"], by decide, by decide⟩, none, {}, none⟩

def carried (commands : List Command) : Script :=
  { name := ⟨["Inner"], by decide, by decide⟩, parent := ⟨0⟩, commands := commands }

def heap (commands : List Command) : Heap :=
  { Heap.empty with
    objects := ⟨#[object,
      { object with binding := some .script, bound := some (.script (carried commands)) },
      object]⟩ }

def call (context : Context) (grant : Capabilities) (commands : List Command) : Call :=
  ⟨{ name := ⟨["Outer"], by decide, by decide⟩, parent := ⟨0⟩, commands := commands }, context, [],
    grant, [.object ⟨0⟩]⟩

/-- Answers every operation with its first argument. -/
def host : Host := ⟨fun _ _ s args => { result := .ok (args.headD none), heap := s.heap }⟩

end Sample

end GuardedScript
