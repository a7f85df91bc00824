import Mathlib.Data.List.Permutation
import GuardedScript.Proofs.Trail

/-!
Denied capabilities. A denial stops the thread, the call and every call around it, and no handler
sees it, as long as inputs are evaluated one after the other. Side by side, an earlier input that
fails as well is reported in its place.
-/

namespace GuardedScript

def Event.IsDenial : Event → Prop
  | .denied _ => True
  | _ => False

def Event.IsHandling : Event → Prop
  | .handling _ => True
  | _ => False

/-- No command was denied. -/
def Undenied (es : List Entry) : Prop := ∀ e ∈ es, ¬ e.event.IsDenial

/-- At most one command was denied; then the stretch ends with it and nothing more is handled. -/
inductive Settled (ends : List Capability → Prop) : List Entry → Prop where
  | clean {es} (hu : Undenied es) : Settled ends es
  | denied {before after} (depth : Nat) (missing : List Capability) (hb : Undenied before)
      (ha : Undenied after) (hh : ∀ e ∈ after, ¬ e.event.IsHandling) (he : ends missing) :
      Settled ends (before ++ ⟨depth, .denied missing⟩ :: after)

theorem undenied_nil : Undenied [] := fun _ h => nomatch h

theorem undenied_cons {e : Entry} {es : List Entry} :
    Undenied (e :: es) ↔ ¬ e.event.IsDenial ∧ Undenied es := List.forall_mem_cons

theorem undenied_append {es fs : List Entry} :
    Undenied (es ++ fs) ↔ Undenied es ∧ Undenied fs := List.forall_mem_append

theorem undenied_told (depth : Nat) (es : List CommandError) :
    Undenied (es.map fun e => ⟨depth, .dropped e⟩) := by
  intro e he
  obtain ⟨_, _, rfl⟩ := List.mem_map.mp he
  exact id

namespace Settled

variable {ends ends' : List Capability → Prop} {es fs : List Entry}

theorem undenied (h : Settled ends es) (hn : ∀ missing, ¬ ends missing) : Undenied es := by
  cases h with
  | clean hu => exact hu
  | denied _ missing _ _ _ he => exact (hn missing he).elim

theorem imp (h : Settled ends es) (hi : ∀ missing, ends missing → ends' missing) :
    Settled ends' es := by
  cases h with
  | clean hu => exact .clean hu
  | denied depth missing hb ha hh he => exact .denied depth missing hb ha hh (hi missing he)

theorem prepend (he : Undenied es) (hf : Settled ends fs) : Settled ends (es ++ fs) := by
  cases hf with
  | clean hu => exact .clean (undenied_append.mpr ⟨he, hu⟩)
  | denied depth missing hb ha hh hm =>
    rw [← List.append_assoc]
    exact .denied depth missing (undenied_append.mpr ⟨he, hb⟩) ha hh hm

theorem append (he : Settled ends es) (hf : Undenied fs)
    (hh : ∀ e ∈ fs, ¬ e.event.IsHandling) : Settled ends (es ++ fs) := by
  cases he with
  | clean hu => exact .clean (undenied_append.mpr ⟨hu, hf⟩)
  | denied depth missing hb ha hq hm =>
    rw [List.append_assoc, List.cons_append]
    exact .denied depth missing hb (undenied_append.mpr ⟨ha, hf⟩)
      (List.forall_mem_append.mpr ⟨hq, hh⟩) hm

/-- Wherever the denial stands in the list, the stretch ends with it. -/
theorem at_denial {before after : List Entry} {depth : Nat} {missing : List Capability}
    (h : Settled ends (before ++ ⟨depth, .denied missing⟩ :: after)) :
    ends missing ∧ ∀ e ∈ after, ¬ e.event.IsHandling := by
  generalize hl : before ++ ⟨depth, .denied missing⟩ :: after = es at h
  cases h with
  | clean hu =>
    have hd : (⟨depth, .denied missing⟩ : Entry) ∈ es := by simp [← hl]
    exact (hu _ hd trivial).elim
  | @denied b a d m hb ha hh he =>
    -- the two lists split at the same place, since either rest would hold a second denial
    rcases List.append_eq_append_iff.mp hl with ⟨as, hbs, has⟩ | ⟨as, hbs, has⟩
    · cases as with
      | nil => cases has; exact ⟨he, hh⟩
      | cons x as =>
        cases has
        exact (hb ⟨depth, .denied missing⟩ (by simp [hbs]) trivial).elim
    · cases as with
      | nil => cases has; exact ⟨he, hh⟩
      | cons x as =>
        cases has
        exact (ha ⟨depth, .denied missing⟩ (by simp) trivial).elim

end Settled

/-- A command ends with the denial of these capabilities. -/
def Outcome.DeniedFor {α : Type} (o : Outcome CommandError α) (missing : List Capability) : Prop :=
  ∃ thread, o = .failed (.capability (.denied thread missing))

/-- A call ends with the denial of these capabilities. -/
def Reply.DeniedFor {σ α : Type} (r : Reply ScriptError σ α) (missing : List Capability) : Prop :=
  ∃ thread, r.outcome = .failed (.capability (.denied thread missing))

theorem Event.Told.not_denial {may : Command → Prop} {ev : Event} (h : ev.Told may) :
    ¬ ev.IsDenial := by
  cases h <;> exact id

section
variable {host : Host} {caller : Option Caller} {me : ObjectId} {t : Thread}
variable {s s' : State} {o : Outcome CommandError Unit} {es : List Entry}

theorem Trail.undenied (h : Trail host none t.Allows me t s o s' es) : Undenied es := by
  intro e he
  rcases h.known e he with ⟨_, hk⟩ | ⟨_, _, _, hr, _⟩
  · exact hk.not_denial
  · cases hr

/-- Calls made in sequence keep a denial. -/
def KeepsDenials (caller : Option Caller) : Prop :=
  ∀ run, caller = some run → ∀ call m, call.context.config.parallelInputs = false →
    Settled (run call m).DeniedFor (run call m).events

theorem call_settled {script : Script} {inputs : List ObjectId} {held : List Holder}
    (hrun : KeepsDenials caller) (hp : t.context.config.parallelInputs = false) (s : State) :
    Settled (Effect.call caller script inputs ⟨me, t, held⟩ s).outcome.forget.DeniedFor
      (Effect.call caller script inputs ⟨me, t, held⟩ s).events := by
  cases caller with
  | none => exact .clean (undenied_cons.mpr ⟨id, undenied_nil⟩)
  | some run =>
    have hc := hrun run rfl ⟨script, { t.context with depth := t.context.depth + 1 }, inputs,
      t.grant, held⟩ s.toMoment hp
    refine hc.imp ?_
    rintro missing ⟨thread, hd⟩
    refine ⟨thread, ?_⟩
    simp only [Effect.call, hd]
    rfl

/-- One after the other, a stretch that denied something ends with it. -/
theorem Trail.settled (h : Trail host caller t.Allows me t s o s' es)
    (hrun : KeepsDenials caller) (hp : t.context.config.parallelInputs = false) :
    Settled o.DeniedFor es := by
  induction h with
  | still | slip | add => exact .clean undenied_nil
  | enter | throw | set | giveBack => exact .clean (undenied_cons.mpr ⟨id, undenied_nil⟩)
  | perform s held args hc ho hr =>
    subst hr
    have hn : Trail host none t.Allows me t s _ _ _ := .perform s held args hc ho rfl
    exact .clean hn.undenied
  | call s held script inputs hr =>
    subst hr
    exact call_settled hrun hp s
  | seq _ _ ih₁ ih₂ =>
    have hu := ih₁.undenied fun missing ⟨_, h⟩ => nomatch h
    exact ih₂.prepend hu
  | @caught _ _ _ e _ _ _ _ hc _ ih₁ ih₂ =>
    -- a denial cannot be caught, so the body told of none
    have hu := ih₁.undenied fun missing ⟨_, h⟩ => by cases h; cases hc
    exact .prepend hu (ih₂.prepend (undenied_cons.mpr ⟨id, undenied_nil⟩))
  | beside hp' => rw [hp] at hp'; cases hp'
  | inputsFailed _ ih =>
    exact ih.append (undenied_cons.mpr ⟨id, undenied_nil⟩) (by simp [Event.IsHandling])

theorem Course.settled (h : Course host caller me t s o s' es)
    (ht : ∀ {s o s' es}, Trail host caller t.Allows me t s o s' es → Settled o.DeniedFor es) :
    Settled o.DeniedFor es := by
  induction h with
  | stop => exact .clean undenied_nil
  | denied s hc =>
    exact .denied t.context.depth _ undenied_nil undenied_nil (fun _ h => nomatch h) ⟨t.name, rfl⟩
  | fault _ h => exact ht h
  | wait _ h => exact ht h
  | next _ h _ ih =>
    have hu := (ht h).undenied fun missing ⟨_, h⟩ => nomatch h
    exact ih.prepend hu

end

theorem Thread.conclude_denied {t : Thread} {script : Script} {s : State} {m : Moment}
    {es : List Entry} {o : Outcome CommandError Unit} {missing : List Capability}
    (h : o.DeniedFor missing) :
    Reply.DeniedFor ⟨t.conclude script s o, m, es⟩ missing := by
  obtain ⟨thread, rfl⟩ := h
  exact ⟨thread, rfl⟩

theorem Calls.settled {host : Host} {caller : Option Caller} {call : Call} {m : Moment}
    {r : Reply ScriptError Moment (Option ObjectId)} (h : Calls host caller call m r)
    (ht : ∀ {t me s o s' es}, t.context = call.context →
      Trail host caller t.Allows me t s o s' es → Settled o.DeniedFor es) :
    Settled r.DeniedFor r.events := by
  have hs : Undenied [call.started] := undenied_cons.mpr ⟨id, undenied_nil⟩
  cases h with
  | refused => exact .clean undenied_nil
  | unbuilt => exact .clean hs
  | ran hi hb hc =>
    obtain ⟨_, rfl⟩ := Thread.buildStack_ok hb
    exact .prepend hs ((hc.settled (ht rfl)).imp fun _ => Thread.conclude_denied)

theorem callAt_settled (host : Host) (levels : Nat) (call : Call) (m : Moment)
    (hp : call.context.config.parallelInputs = false) :
    Settled (callAt host levels call m).DeniedFor (callAt host levels call m).events := by
  refine callAt_induction host (P := fun call _ r => call.context.config.parallelInputs = false →
    Settled r.DeniedFor r.events) ?_ levels call m hp
  intro caller hrun call m r hr hp
  exact hr.settled fun hx ht => ht.settled hrun (hx ▸ hp)

theorem callAt_zero_settled (host : Host) (call : Call) (m : Moment) :
    Settled (callAt host 0 call m).DeniedFor (callAt host 0 call m).events :=
  (callScript_calls host none call m).settled fun _ ht => .clean ht.undenied

/-- If a command was denied, the outcome tells, or an input that failed with it was dropped. -/
def Accounted (fatal : Prop) (es : List Entry) : Prop :=
  Undenied es ∨ fatal ∨ ∃ depth e, ⟨depth, .dropped (.capability e)⟩ ∈ es

namespace Accounted

variable {p q : Prop} {es fs : List Entry}

theorem imp (h : Accounted p es) (hi : p → q) : Accounted q es := h.imp_right (.imp_left hi)

theorem append (he : Accounted p es) (hf : Accounted q fs)
    (hp : p → q ∨ ∃ depth e, ⟨depth, .dropped (.capability e)⟩ ∈ fs) : Accounted q (es ++ fs) := by
  rcases hf with hf | hf | ⟨d, e, hf⟩
  · rcases he with he | he | ⟨d, e, he⟩
    · exact .inl (undenied_append.mpr ⟨he, hf⟩)
    · rcases hp he with hq | ⟨d, e, hd⟩
      · exact .inr (.inl hq)
      · exact .inr (.inr ⟨d, e, List.mem_append_right es hd⟩)
    · exact .inr (.inr ⟨d, e, List.mem_append_left fs he⟩)
  · exact .inr (.inl hf)
  · exact .inr (.inr ⟨d, e, List.mem_append_right es hf⟩)

end Accounted

/-- The outcome is a denial. -/
def Outcome.Fatal {α : Type} (o : Outcome CommandError α) : Prop :=
  ∃ e, o = .failed (.capability e)

theorem Outcome.Fatal.left {o₁ o₂ : Outcome CommandError Unit} (h : o₁.Fatal) :
    (o₁.both (fun _ _ => ()) o₂).Fatal ∨ ∃ e, o₁.hidden o₂ = some (.capability e) := by
  obtain ⟨e, rfl⟩ := h
  cases o₂ with
  | done | failed => exact .inl ⟨e, rfl⟩
  | waiting => exact .inr ⟨e, rfl⟩

theorem Outcome.Fatal.right {o₁ o₂ : Outcome CommandError Unit} (h : o₂.Fatal) :
    (o₁.both (fun _ _ => ()) o₂).Fatal ∨ ∃ e, o₁.hidden o₂ = some (.capability e) := by
  obtain ⟨e, rfl⟩ := h
  cases o₁ with
  | done => exact .inl ⟨e, rfl⟩
  | failed | waiting => exact .inr ⟨e, rfl⟩

section
variable {host : Host} {caller : Option Caller} {me : ObjectId} {t : Thread}
variable {s s' : State} {o : Outcome CommandError Unit} {es : List Entry}

/-- Calls report a denial or tell that it was dropped. -/
def AccountsForDenials (caller : Option Caller) : Prop :=
  ∀ run, caller = some run → ∀ call m,
    Accounted (∃ e, (run call m).outcome = .failed (.capability e)) (run call m).events

theorem call_accounted {script : Script} {inputs : List ObjectId} {held : List Holder}
    (hrun : AccountsForDenials caller) (s : State) :
    Accounted (Effect.call caller script inputs ⟨me, t, held⟩ s).outcome.forget.Fatal
      (Effect.call caller script inputs ⟨me, t, held⟩ s).events := by
  cases caller with
  | none => exact .inl (undenied_cons.mpr ⟨id, undenied_nil⟩)
  | some run =>
    have hc := hrun run rfl ⟨script, { t.context with depth := t.context.depth + 1 }, inputs,
      t.grant, held⟩ s.toMoment
    refine hc.imp ?_
    rintro ⟨e, he⟩
    refine ⟨e, ?_⟩
    simp only [Effect.call, he]
    rfl

theorem Trail.accounted (h : Trail host caller t.Allows me t s o s' es)
    (hrun : AccountsForDenials caller) : Accounted o.Fatal es := by
  induction h with
  | still | slip | add => exact .inl undenied_nil
  | enter | throw | set | giveBack => exact .inl (undenied_cons.mpr ⟨id, undenied_nil⟩)
  | perform s held args hc ho hr =>
    subst hr
    have hn : Trail host none t.Allows me t s _ _ _ := .perform s held args hc ho rfl
    exact .inl hn.undenied
  | call s held script inputs hr =>
    subst hr
    exact call_accounted hrun s
  | seq _ _ ih₁ ih₂ => exact ih₁.append ih₂ fun ⟨_, h⟩ => nomatch h
  | @caught _ _ _ e _ _ _ _ hc _ ih₁ ih₂ =>
    have hh : Undenied [⟨t.context.depth, .handling e⟩] := undenied_cons.mpr ⟨id, undenied_nil⟩
    refine ih₁.append (Accounted.append (p := False) (.inl hh) ih₂ False.elim) fun ⟨_, h⟩ => ?_
    cases h
    cases hc
  | @beside _ _ _ o₁ o₂ _ _ _ _ _ _ _ ih₁ ih₂ =>
    -- the denial of either input is the outcome of both, or the one dropped last
    have hd : ∀ e, o₁.hidden o₂ = some (.capability e) →
        (⟨t.context.depth, .dropped (.capability e)⟩
        : Entry) ∈ (o₁.hidden o₂).toList.map fun e => ⟨t.context.depth, .dropped e⟩ := by
      intro e he
      simp [he]
    have h₂ := ih₂.append (.inl (undenied_told t.context.depth (o₁.hidden o₂).toList))
      fun h => (Outcome.Fatal.right h).imp_right fun ⟨e, he⟩ => ⟨_, e, hd e he⟩
    rw [List.append_assoc]
    exact ih₁.append h₂ fun h => (Outcome.Fatal.left h).imp_right fun ⟨e, he⟩ =>
      ⟨_, e, List.mem_append_right _ (hd e he)⟩
  | @inputsFailed _ _ e _ _ ih =>
    exact ih.append (.inl (undenied_cons.mpr ⟨id, undenied_nil⟩)) .inl

theorem Course.accounted (h : Course host caller me t s o s' es)
    (hrun : AccountsForDenials caller) : Accounted o.Fatal es := by
  induction h with
  | stop => exact .inl undenied_nil
  | denied => exact .inr (.inl ⟨_, rfl⟩)
  | fault _ h | wait _ h => exact h.accounted hrun
  | next _ h _ ih => exact (h.accounted hrun).append ih fun ⟨_, h⟩ => nomatch h

end

theorem callAt_accounted (host : Host) (levels : Nat) (call : Call) (m : Moment) :
    Accounted (∃ e, (callAt host levels call m).outcome = .failed (.capability e))
      (callAt host levels call m).events := by
  refine callAt_induction host (P := fun _ _ r =>
    Accounted (∃ e, r.outcome = .failed (.capability e)) r.events) ?_ levels call m
  intro caller hrun call m r hr
  have hs : Undenied [call.started] := undenied_cons.mpr ⟨id, undenied_nil⟩
  cases hr with
  | refused => exact .inl undenied_nil
  | unbuilt => exact .inl hs
  | @ran _ _ t _ o s es hi hb hc =>
    refine Accounted.append (p := False) (.inl hs) ((hc.accounted hrun).imp ?_) False.elim
    rintro ⟨e, rfl⟩
    exact ⟨e, rfl⟩

/-- A run in which a denial prevails: if any thread denied a command, the call fails with that
denial, and no handler runs after it. -/
def Reply.DenialPrevails (r : Reply ScriptError Moment (Option ObjectId)) : Prop :=
  ∀ before depth missing after, r.events = before ++ ⟨depth, .denied missing⟩ :: after →
    (∃ thread, r.outcome = .failed (.capability (.denied thread missing))) ∧
      ∀ d e, ⟨d, .handling e⟩ ∉ after

theorem Settled.prevails {r : Reply ScriptError Moment (Option ObjectId)}
    (h : Settled r.DeniedFor r.events) : r.DenialPrevails := by
  intro before depth missing after he
  rw [he] at h
  obtain ⟨hd, hh⟩ := h.at_denial
  exact ⟨hd, fun d e hm => hh _ hm trivial⟩

namespace Overlap

/-! Two inputs side by side under a handler. The first throws, and the second calls a script that is
denied. -/

def heap : Heap := Sample.heap [.this (.requiring [.named "network"])]

def call (config : Config) (depth : Nat) : Call :=
  Sample.call { config := config, depth := depth } {}
    [.attempt {} (.native {} { name := "echo" }
      [.throw {} none, .script {} (.value {} ⟨1⟩) []]) (.this {})]

theorem outcome (config : Config) (depth levels : Nat) (hp : config.parallelInputs = true) :
    (callAt Sample.host (levels + 1) (call config depth) ⟨heap, 0⟩).outcome = .done none := by
  obtain ⟨limit, parallel, timeout, grant⟩ := config
  cases hp
  cases levels <;> cbv

theorem denied (config : Config) (depth levels : Nat) (hp : config.parallelInputs = true) :
    (callAt Sample.host (levels + 1) (call config depth) ⟨heap, 0⟩).events[8]? =
      some ⟨depth + 1, .denied [.named "network"]⟩ := by
  obtain ⟨limit, parallel, timeout, grant⟩ := config
  cases hp
  cases levels <;> cbv

/-- The throw is caught, and the denial is lost. -/
theorem lost {config : Config} {depth : Nat} (hp : config.parallelInputs = true)
    (hd : depth < config.maxCallDepth) :
    ¬ (Script.callIn Sample.host (call config depth) ⟨heap, 0⟩).DenialPrevails := by
  intro h
  obtain ⟨levels, hl⟩ : ∃ levels, config.maxCallDepth - depth = levels + 1 :=
    ⟨config.maxCallDepth - depth - 1, by omega⟩
  have hc : Script.callIn Sample.host (call config depth) ⟨heap, 0⟩ =
      callAt Sample.host (levels + 1) (call config depth) ⟨heap, 0⟩ := by
    rw [← hl]
    rfl
  rw [hc] at h
  obtain ⟨before, after, he⟩ := List.append_of_mem
    (List.mem_of_getElem? (denied config depth levels hp))
  obtain ⟨⟨thread, ho⟩, _⟩ := h before _ _ after he
  rw [outcome config depth levels hp] at ho
  cases ho

end Overlap

/-- Denials prevail on all runs of the calls of a context exactly when inputs are evaluated in
sequence or no further call is allowed. Elsewhere a denial that is not reported was dropped for
another input of the same command. -/
theorem denial_prevails_iff (config : Config) (depth : Nat) :
    ((∀ host call m, call.context.config = config → call.context.depth = depth →
        (Script.callIn host call m).DenialPrevails) ↔
      config.parallelInputs = false ∨ config.maxCallDepth ≤ depth) ∧
    ∀ host call m, call.context.config = config → call.context.depth = depth →
      ∀ d missing, ⟨d, .denied missing⟩ ∈ (Script.callIn host call m).events →
        (∃ e, (Script.callIn host call m).outcome = .failed (.capability e)) ∨
          ∃ d e, ⟨d, .dropped (.capability e)⟩ ∈ (Script.callIn host call m).events := by
  refine ⟨⟨fun h => ?_, ?_⟩, ?_⟩
  · cases hp : config.parallelInputs with
    | false => exact .inl rfl
    | true => exact .inr (Nat.le_of_not_lt fun hd => Overlap.lost hp hd (h _ _ _ rfl rfl))
  · rintro h host call m rfl rfl
    apply Settled.prevails
    rcases h with hp | hd
    · exact callAt_settled host _ call m hp
    · have hl : call.context.levels = 0 := Nat.sub_eq_zero_of_le hd
      rw [Script.callIn, hl]
      exact callAt_zero_settled host call m
  · rintro host call m rfl rfl d missing hd
    rcases callAt_accounted host call.context.levels call m with hu | h
    · exact (hu _ hd trivial).elim
    · exact h

theorem denial_dropped_beside_throw :
    (Script.callIn Sample.host (Overlap.call { parallelInputs := true } 0)
      ⟨Overlap.heap, 0⟩).outcome = .done none ∧
    ∃ d e, ⟨d, .dropped (.capability e)⟩ ∈ (Script.callIn Sample.host
      (Overlap.call { parallelInputs := true } 0) ⟨Overlap.heap, 0⟩).events := by
  have ho := Overlap.outcome { parallelInputs := true } 0 63 rfl
  have hd := List.mem_of_getElem? (Overlap.denied { parallelInputs := true } 0 63 rfl)
  obtain ⟨_, hlost⟩ := denial_prevails_iff { parallelInputs := true } 0
  refine ⟨ho, ?_⟩
  rcases hlost Sample.host (Overlap.call { parallelInputs := true } 0) ⟨Overlap.heap, 0⟩ rfl rfl _ _
    hd with ⟨e, he⟩ | h
  · rw [Script.callIn, show (Overlap.call { parallelInputs := true } 0).context.levels = 63 + 1 from
      rfl, ho] at he
    cases he
  · exact h

end GuardedScript
