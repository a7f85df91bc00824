import Mathlib.Logic.Relation
import GuardedScript.Proofs.CallDepth
import GuardedScript.Proofs.StoreTyping

/-!
The heaps that a run passes through. A thread changes the heap act by act, and a call that it makes
is one act. A call passes through the heaps of its thread's acts, and through those of the calls
that the thread makes on the way. Laws about all these heaps are proved from what one act keeps.
-/

namespace GuardedScript

open Relation

section
variable (host : Host) (me : ObjectId) (t : Thread)

/-- What a thread on an object does to the heap at once. -/
inductive Thread.Act (h : Heap) : Heap → Prop where
  | set {path v h'} (hs : t.setValue h path v = .ok h') : Act h h'
  | add {key type h'} (hs : t.addLocal h key type = .ok h') : Act h h'
  | giveBack {v h'} (hs : t.setReturn h v = .ok h') : Act h h'
  | perform (op held now pointer args) :
      Act h (host.perform op ⟨me, t, held⟩ ⟨⟨h, now⟩, pointer⟩ args).heap
  | call (inner : Call) (now : Nat) (hc : t.context.child = .ok inner.context) :
      Act h (Script.callIn host inner ⟨h, now⟩).state.heap

def Thread.Acts : Heap → Heap → Prop := ReflTransGen (t.Act host me)

end

/-- The heaps that a call passes through: the one it starts in, those of its thread, and those of
the calls that the thread makes. -/
inductive Call.Passes (host : Host) : Call → Heap → Heap → Prop where
  | start (call h) : Passes host call h h
  | unbuilt {call h b g e h'} (hi : call.script.inputMemory h call.inputs = .ok (b, g))
      (hb : (call.thread b.newStack.2).buildStack b.newStack.1 call.script.parent (.plain g) =
        (.error e, h')) : Passes host call h h'
  | run {call h t g h₁ h₂} (hs : call.Starts h t g h₁)
      (ha : t.Acts host call.script.parent h₁ h₂) : Passes host call h h₂
  | nested {call h t g h₁ h₂ inner h₃} (hs : call.Starts h t g h₁)
      (ha : t.Acts host call.script.parent h₁ h₂) (hc : t.context.child = .ok inner.context)
      (hp : Passes host inner h₂ h₃) : Passes host call h h₃

section
variable {host : Host} {me : ObjectId} {t : Thread}

theorem Effect.call_acts (script : Script) (inputs : List ObjectId) (held : List Holder)
    (s : State) : t.Acts host me s.heap
      (Effect.call (t.context.caller host) script inputs ⟨me, t, held⟩ s).state.heap := by
  have hcall := Effect.call_caller host script inputs ⟨me, t, held⟩ s
  by_cases hd : t.context.depth + 1 ≤ t.context.config.maxCallDepth
  · rw [hcall, Effect.call_via (Script.callIn host) ⟨me, t, held⟩ hd]
    exact .single (.call _ s.now (Context.child_eq_ok.mpr ⟨hd, rfl⟩))
  · rw [hcall, Effect.call_via_deep (Script.callIn host) ⟨me, t, held⟩
      (Nat.le_of_lt_succ (Nat.lt_of_not_le hd))]
    exact .refl

/-- Every stretch of a thread is made of acts. -/
theorem Trail.acts {may : Command → Prop} {s s' : State} {o : Outcome CommandError Unit}
    {es : List Entry} (h : Trail host (t.context.caller host) may me t s o s' es) :
    t.Acts host me s.heap s'.heap := by
  induction h with
  | still | slip | enter | throw => exact .refl
  | set hs => exact .single (.set hs)
  | add hs => exact .single (.add hs)
  | giveBack hs => exact .single (.giveBack hs)
  | perform s held args _ _ hr =>
    subst hr
    obtain ⟨now, hs⟩ := Effect.perform_state host _ args ⟨me, t, held⟩ s
    rw [hs]
    exact .single (.perform _ held s.now s.pointer args)
  | call s held script inputs hr =>
    subst hr
    exact Effect.call_acts script inputs held s
  | seq _ _ ih₁ ih₂ | caught _ _ _ ih₁ ih₂ | beside _ _ _ _ _ ih₁ ih₂ => exact ih₁.trans ih₂
  | inputsFailed _ ih => exact ih

theorem Course.acts {s s' : State} {o : Outcome CommandError Unit} {es : List Entry}
    (h : Course host (t.context.caller host) me t s o s' es) : t.Acts host me s.heap s'.heap := by
  induction h with
  | stop | denied => exact .refl
  | fault _ h | wait _ h => exact h.acts
  | next _ h _ ih => exact h.acts.trans ih

theorem Call.Starts.context {call : Call} {h h' : Heap} {g : GroupId} (hs : call.Starts h t g h') :
    t.context = call.context := by
  obtain ⟨b, _, hb⟩ := hs
  obtain ⟨_, rfl⟩ := Thread.buildStack_ok hb
  rfl

/-- The heap that a call leaves is one that it passed through. -/
theorem callIn_passes (call : Call) (m : Moment) :
    call.Passes host m.heap (Script.callIn host call m).state.heap := by
  rw [Script.callIn_eq]
  cases hl : m.heap.isLiving (call.inputs.map .object ++ call.held) call.script.parent with
  | false =>
    rw [callScript_detached call hl]
    exact .start call m.heap
  | true =>
    cases hi : call.script.inputMemory m.heap call.inputs with
    | error e =>
      rw [callScript_unfit call hl hi]
      exact .start call m.heap
    | ok p =>
      rcases hb : (call.thread p.1.newStack.2).buildStack p.1.newStack.1 call.script.parent
        (.plain p.2) with ⟨e | t, h'⟩
      · rw [callScript_unbuilt call hl hi hb]
        exact .unbuilt hi hb
      · have hs : call.Starts m.heap t p.2 h' := ⟨p.1, hi, hb⟩
        rw [callScript_built call hl hi hb, ← hs.context]
        have hrun := runCommands_course host (t.context.caller host) call.script.parent t t.commands
          (.object call.script.parent :: (t.holders ++ call.held))
          { m with heap := h', pointer := .start t.commands.length }
        exact .run hs hrun.acts

/-- A law of calls follows from an invariant of their threads that every act keeps, when the calls
among the acts obey the law. -/
theorem Call.passes_induction {K : Call → Heap → Heap → Prop}
    {I : Call → Heap → Thread → Heap → Prop} (still : ∀ call h, K call h h)
    (unbuilt : ∀ {call : Call} {h b g e h'},
      call.script.inputMemory h call.inputs = .ok (b, g) →
      (call.thread b.newStack.2).buildStack b.newStack.1 call.script.parent (.plain g) =
        (.error e, h') → K call h h')
    (starts : ∀ {call : Call} {h t g h'}, call.Starts h t g h' → I call h t h')
    (act : ∀ {call b t h h'}, I call b t h →
      (∀ inner : Call, t.context.child = .ok inner.context → ∀ h', inner.Passes host h h' →
        K inner h h') → t.Act host call.script.parent h h' → I call b t h')
    (ends : ∀ {call b t h}, I call b t h → K call b h)
    (into : ∀ {call b t h} {inner : Call} {h'}, I call b t h → t.context.child = .ok inner.context →
      K inner h h' → K call b h')
    {call : Call} {h h' : Heap} (hp : call.Passes host h h') : K call h h' := by
  induction call using Call.induction_below generalizing h h' with
  | step call ih =>
    have reach : ∀ {t g h₁ h₂}, call.Starts h t g h₁ → t.Acts host call.script.parent h₁ h₂ →
        I call h t h₂ := by
      intro t g h₁ h₂ hs ha
      induction ha with
      | refl => exact starts hs
      | tail _ hact iha =>
        exact act iha (fun inner hc h' hp => ih inner (hs.context ▸ hc) hp) hact
    cases hp with
    | start => exact still call h
    | unbuilt hi hb => exact unbuilt hi hb
    | run hs ha => exact ends (reach hs ha)
    | nested hs ha hc hp => exact into (reach hs ha) hc (ih _ (hs.context ▸ hc) hp)

end

end GuardedScript
