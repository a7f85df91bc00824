import Mathlib.Data.List.Forall2
import GuardedScript.Run.Exec

/-!
Two runs side by side. The same commands run on two threads, from heaps that stand in some relation.
If reading gives the same on both sides and every single change keeps the relation, then the runs
end alike, tell the same events and leave related heaps. Some comparisons hold only as long as the
runs do not show certain events or failures; these are watched for.
-/

namespace GuardedScript

/-- What to look out for in a run. A failure that is watched for can be caught or dropped, so the
events that tell of this are watched for as well. -/
structure Watch where
  event : Event → Prop
  error : CommandError → Prop
  handling : ∀ {e}, error e → event (.handling e)
  dropped : ∀ {e}, error e → event (.dropped e)

namespace Watch

def nothing : Watch := ⟨fun _ => False, fun _ => False, id, id⟩

/-- A stretch of a run that shows nothing that is watched for. -/
structure Clear (w : Watch) {α : Type} (es : List Entry) (o : Outcome CommandError α) : Prop where
  events : ∀ e ∈ es, ¬ w.event e.event
  outcome : ∀ e, o = .failed e → ¬ w.error e

theorem nothing_clear {α : Type} (es : List Entry) (o : Outcome CommandError α) :
    nothing.Clear es o :=
  ⟨fun _ _ => id, fun _ _ => id⟩

variable {w : Watch} {α β γ : Type} {es fs : List Entry}

theorem Clear.first {o : Outcome CommandError α} (h : w.Clear (es ++ fs) o) (b : β) :
    w.Clear es (.done b : Outcome CommandError β) := by
  refine ⟨fun e he => h.events e (List.mem_append_left _ he), fun e hf => ?_⟩
  cases hf

theorem Clear.second {o : Outcome CommandError α} (h : w.Clear (es ++ fs) o) : w.Clear fs o :=
  ⟨fun e he => h.events e (List.mem_append_right _ he), h.outcome⟩

theorem Clear.failed {e : CommandError} (h : w.Clear es (.failed e : Outcome CommandError α)) :
    w.Clear es (.failed e : Outcome CommandError β) := by
  refine ⟨h.events, fun e' hf => ?_⟩
  cases hf
  exact h.outcome e rfl

theorem Clear.done {a : α} (h : w.Clear es (.done a : Outcome CommandError α)) (b : β) :
    w.Clear es (.done b : Outcome CommandError β) := by
  refine ⟨h.events, fun e hf => ?_⟩
  cases hf

theorem Clear.waiting (h : w.Clear es (.waiting : Outcome CommandError α)) :
    w.Clear es (.waiting : Outcome CommandError β) := by
  refine ⟨h.events, fun e hf => ?_⟩
  cases hf

/-- A failure that was caught is told. -/
theorem Clear.caught {e : CommandError} {depth : Nat} {o : Outcome CommandError α}
    (h : w.Clear (es ++ ⟨depth, .handling e⟩ :: fs) o) :
    w.Clear es (.failed e : Outcome CommandError β) := by
  refine ⟨fun e' he => h.events e' (List.mem_append_left _ he), fun e' hf hw => ?_⟩
  cases hf
  exact h.events ⟨depth, .handling e⟩ (by simp) (w.handling hw)

theorem Clear.handler {a : Entry} {o : Outcome CommandError α} {f : α → β}
    (h : w.Clear (es ++ a :: fs) (o.map f)) : w.Clear fs o := by
  refine ⟨fun e he => h.events e (by simp [he]), fun e hf => h.outcome e ?_⟩
  rw [hf]
  rfl

/-- Of two failures one is reported and the other is told as dropped. -/
theorem Clear.both {o : Outcome CommandError α} {p : Outcome CommandError β} {f : α → β → γ}
    {depth : Nat} (h : w.Clear (es ++ fs ++ (o.hidden p).toList.map fun e => ⟨depth, .dropped e⟩)
      (o.both f p)) : w.Clear es o ∧ w.Clear fs p := by
  have hidden : ∀ {e}, o.hidden p = some e → ¬ w.error e := by
    intro e he hw
    refine h.events ⟨depth, .dropped e⟩ ?_ (w.dropped hw)
    simp [he]
  refine ⟨⟨fun e he => h.events e (by simp [he]), ?_⟩, ⟨fun e he => h.events e (by simp [he]), ?_⟩⟩
  · rintro e rfl
    cases p with
    | done | failed => exact h.outcome e rfl
    | waiting => exact hidden rfl
  · rintro e rfl
    cases o with
    | done => exact h.outcome e rfl
    | failed | waiting => exact hidden rfl

end Watch

section
variable (heaps : Heap → Heap → Prop)

/-- The states of two runs at the same time, with heaps that are related. -/
structure Matched (s s' : State) : Prop where
  heap : heaps s.heap s'.heap
  now : s.now = s'.now
  pointer : s.pointer = s'.pointer

/-- The two runs ended alike. -/
structure Reply.EndsAlike {α : Type} (r r' : Reply CommandError State α) : Prop where
  outcome : r.outcome = r'.outcome
  events : r.events = r'.events
  state : Matched heaps r.state r'.state

/-- What two threads have in common that run the same commands. -/
structure Thread.Twin (t u : Thread) : Prop where
  name : t.name = u.name
  grant : t.grant = u.grant
  depth : t.context.depth = u.context.depth

variable (left right : Watch) (me : ObjectId) (t u : Thread)

/-- On the two threads the effects come to the same, as long as neither run shows what is watched
for on its side. -/
def Effect.Agree {α : Type} (x y : Effect α) : Prop :=
  ∀ held s s', Matched heaps s s' →
    left.Clear (x ⟨me, t, held⟩ s).events (x ⟨me, t, held⟩ s).outcome →
    right.Clear (y ⟨me, u, held⟩ s').events (y ⟨me, u, held⟩ s').outcome →
    (x ⟨me, t, held⟩ s).EndsAlike heaps (y ⟨me, u, held⟩ s')

end

theorem Thread.Twin.refl (t : Thread) : t.Twin t := ⟨rfl, rfl, rfl⟩

section equations
variable {α β : Type} {x : Effect α} {f : α → Effect β} {frame : Frame} {s : State}

theorem Effect.bind_done {a : α} (ho : (x frame s).outcome = .done a) :
    (x >>= f) frame s = ⟨(f a frame (x frame s).state).outcome, (f a frame (x frame s).state).state,
      (x frame s).events ++ (f a frame (x frame s).state).events⟩ := by
  simp only [Bind.bind, Effect.bind, ho]

theorem Effect.bind_failed {e : CommandError} (ho : (x frame s).outcome = .failed e) :
    (x >>= f) frame s = ⟨.failed e, (x frame s).state, (x frame s).events⟩ := by
  simp only [Bind.bind, Effect.bind, ho]

theorem Effect.bind_waiting (ho : (x frame s).outcome = .waiting) :
    (x >>= f) frame s = ⟨.waiting, (x frame s).state, (x frame s).events⟩ := by
  simp only [Bind.bind, Effect.bind, ho]

variable {body handler : Effect (Option ObjectId)}

theorem Effect.attempt_done {v : Option ObjectId} (ho : (body frame s).outcome = .done v) :
    body.attempt handler frame s = ⟨.done none, (body frame s).state, (body frame s).events⟩ := by
  simp only [Effect.attempt, ho]

theorem Effect.attempt_waiting (ho : (body frame s).outcome = .waiting) :
    body.attempt handler frame s = ⟨.waiting, (body frame s).state, (body frame s).events⟩ := by
  simp only [Effect.attempt, ho]

theorem Effect.attempt_fatal {e : CommandError} (ho : (body frame s).outcome = .failed e)
    (hc : e.isCatchable = false) :
    body.attempt handler frame s = ⟨.failed e, (body frame s).state, (body frame s).events⟩ := by
  simp [Effect.attempt, ho, hc]

/-- The handler runs where the body left off, while what was thrown is kept alive. -/
def Effect.handling (e : CommandError) (handler : Effect (Option ObjectId)) :
    Effect (Option ObjectId) :=
  holding (e.cause.toList.map .object) handler

theorem Effect.attempt_caught {e : CommandError} (ho : (body frame s).outcome = .failed e)
    (hc : e.isCatchable = true) :
    body.attempt handler frame s =
      ⟨(handling e handler frame (body frame s).state).outcome.map fun _ => none,
        (handling e handler frame (body frame s).state).state,
        (body frame s).events ++ ⟨frame.thread.context.depth, .handling e⟩ ::
          (handling e handler frame (body frame s).state).events⟩ := by
  simp only [Effect.attempt, ho, hc, if_true, Effect.handling]

end equations

section
variable {heaps : Heap → Heap → Prop} {left right : Watch} {me : ObjectId} {t u : Thread}
variable {α β : Type}

namespace Effect.Agree

theorem pure (a : α) : Agree heaps left right me t u (Effect.pure a) (Effect.pure a) :=
  fun _ _ _ hm _ _ => ⟨rfl, rfl, hm⟩

theorem fail (e : CommandError) :
    Agree heaps left right me t u (Effect.fail e : Effect α) (Effect.fail e) :=
  fun _ _ _ hm _ _ => ⟨rfl, rfl, hm⟩

theorem bind {x y : Effect α} {f g : α → Effect β} (hx : Agree heaps left right me t u x y)
    (hf : ∀ a, Agree heaps left right me t u (f a) (g a)) :
    Agree heaps left right me t u (x >>= f) (y >>= g) := by
  intro held s s' hm hl hr
  -- each side is clear up to where its first part ends
  have part : ∀ {w : Watch} {z : Effect α} {k : α → Effect β} {frame : Frame} {s : State},
      w.Clear ((z >>= k) frame s).events ((z >>= k) frame s).outcome →
        w.Clear (z frame s).events (z frame s).outcome := by
    intro w z k frame s h
    cases ho : (z frame s).outcome with
    | done a =>
      rw [Effect.bind_done ho] at h
      exact h.first a
    | failed e =>
      rw [Effect.bind_failed ho] at h
      exact h.failed
    | waiting =>
      rw [Effect.bind_waiting ho] at h
      exact h.waiting
  obtain ⟨ho, he, hs⟩ := hx held s s' hm (part hl) (part hr)
  cases hxo : (x ⟨me, t, held⟩ s).outcome with
  | done a =>
    have hyo := ho.symm.trans hxo
    rw [Effect.bind_done hxo] at hl ⊢
    rw [Effect.bind_done hyo] at hr ⊢
    obtain ⟨ho', he', hs'⟩ := hf a held _ _ hs hl.second hr.second
    exact ⟨ho', by simp only [he, he'], hs'⟩
  | failed e =>
    rw [Effect.bind_failed hxo, Effect.bind_failed (ho.symm.trans hxo)]
    exact ⟨rfl, he, hs⟩
  | waiting =>
    rw [Effect.bind_waiting hxo, Effect.bind_waiting (ho.symm.trans hxo)]
    exact ⟨rfl, he, hs⟩

theorem holding {x y : Effect α} (more : List Holder) (hx : Agree heaps left right me t u x y) :
    Agree heaps left right me t u (x.holding more) (y.holding more) :=
  fun held s s' hm hl hr => hx (more ++ held) s s' hm hl hr

theorem note (ht : t.Twin u) (e : Event) :
    Agree heaps left right me t u (Effect.note e) (Effect.note e) :=
  fun _ _ _ hm _ _ => ⟨rfl, by simp only [Effect.note, ht.depth], hm⟩

theorem ask {f : Frame → Heap → Except CommandError α}
    (hf : ∀ held h h', heaps h h' → f ⟨me, t, held⟩ h = f ⟨me, u, held⟩ h') :
    Agree heaps left right me t u (Effect.ask f) (Effect.ask f) := by
  intro held s s' hm _ _
  refine ⟨?_, rfl, hm⟩
  simp only [Effect.ask, hf held _ _ hm.heap]

theorem require (context : String) (v : Option α) :
    Agree heaps left right me t u (Effect.require context v) (Effect.require context v) := by
  cases v with
  | none => exact fail _
  | some a => exact pure a

theorem requireAll (context : Nat → String) (vs : List (Option α)) (i : Nat) :
    Agree heaps left right me t u (Effect.requireAll context i vs)
      (Effect.requireAll context i vs) := by
  induction vs generalizing i with
  | nil => exact pure []
  | cons v vs ih => exact (require (context i) v).bind fun a => (ih (i + 1)).bind fun as => pure _

theorem entering (ht : t.Twin u) (c : Command) {x y : Effect α}
    (hx : Agree heaps left right me t u x y) :
    Agree heaps left right me t u (Effect.entering c x) (Effect.entering c y) :=
  (note ht _).bind fun _ => hx

theorem attempt {body body' handler handler' : Effect (Option ObjectId)} (ht : t.Twin u)
    (hb : Agree heaps left right me t u body body')
    (hh : Agree heaps left right me t u handler handler') :
    Agree heaps left right me t u (body.attempt handler) (body'.attempt handler') := by
  intro held s s' hm hl hr
  have part : ∀ {w : Watch} {z k : Effect (Option ObjectId)} {frame : Frame} {s : State},
      w.Clear (z.attempt k frame s).events (z.attempt k frame s).outcome →
        w.Clear (z frame s).events (z frame s).outcome := by
    intro w z k frame s h
    cases ho : (z frame s).outcome with
    | done v =>
      rw [Effect.attempt_done ho] at h
      exact h.done v
    | waiting =>
      rw [Effect.attempt_waiting ho] at h
      exact h.waiting
    | failed e =>
      cases hc : e.isCatchable with
      | false =>
        rw [Effect.attempt_fatal ho hc] at h
        exact h.failed
      | true =>
        rw [Effect.attempt_caught ho hc] at h
        exact h.caught
  obtain ⟨ho, he, hs⟩ := hb held s s' hm (part hl) (part hr)
  cases hxo : (body ⟨me, t, held⟩ s).outcome with
  | done v =>
    rw [Effect.attempt_done hxo, Effect.attempt_done (ho.symm.trans hxo)]
    exact ⟨rfl, he, hs⟩
  | waiting =>
    rw [Effect.attempt_waiting hxo, Effect.attempt_waiting (ho.symm.trans hxo)]
    exact ⟨rfl, he, hs⟩
  | failed e =>
    have hyo := ho.symm.trans hxo
    cases hc : e.isCatchable with
    | false =>
      rw [Effect.attempt_fatal hxo hc, Effect.attempt_fatal hyo hc]
      exact ⟨rfl, he, hs⟩
    | true =>
      rw [Effect.attempt_caught hxo hc] at hl ⊢
      rw [Effect.attempt_caught hyo hc] at hr ⊢
      obtain ⟨ho', he', hs'⟩ := hh.holding _ held _ _ hs hl.handler hr.handler
      refine ⟨congrArg (Outcome.map _) ho', ?_, hs'⟩
      simp only [he, ht.depth]
      exact congrArg (_ ++ _ :: ·) he'

theorem inSequence {xs ys : List (Effect (Option ObjectId))}
    (hx : List.Forall₂ (Agree heaps left right me t u) xs ys) :
    Agree heaps left right me t u (Effect.inSequence xs) (Effect.inSequence ys) := by
  induction hx with
  | nil => exact pure []
  | cons hx _ ih => exact hx.bind fun v => (ih.holding _).bind fun vs => pure _

theorem inParallelFrom {xs ys : List (Effect (Option ObjectId))} (ht : t.Twin u)
    (hx : List.Forall₂ (Agree heaps left right me t u) xs ys) (start : Nat) :
    Agree heaps left right me t u (Effect.inParallelFrom start xs)
      (Effect.inParallelFrom start ys) := by
  induction hx with
  | nil => exact pure []
  | @cons x y xs ys hx _ ih =>
    intro held s s' hm hl hr
    obtain ⟨hl₁, hl₂⟩ := hl.both
    obtain ⟨hr₁, hr₂⟩ := hr.both
    have hm₁ : Matched heaps { s with now := start } { s' with now := start } :=
      ⟨hm.heap, rfl, hm.pointer⟩
    obtain ⟨ho, he, hs⟩ := hx held _ _ hm₁ hl₁ hr₁
    have hm₂ : Matched heaps
        { (x ⟨me, t, held⟩ { s with now := start }).state with
          now := max s.now (x ⟨me, t, held⟩ { s with now := start }).state.now }
        { (y ⟨me, u, held⟩ { s' with now := start }).state with
          now := max s'.now (y ⟨me, u, held⟩ { s' with now := start }).state.now } :=
      ⟨hs.heap, by simp only [hm.now, hs.now], hs.pointer⟩
    rw [← ho] at hr₂
    obtain ⟨ho', he', hs'⟩ := ih _ _ _ hm₂ hl₂ hr₂
    simp only [Effect.inParallelFrom, ← ho]
    refine ⟨?_, ?_, hs'⟩
    · simp only [ho']
    · simp only [he, he', ho', ht.depth]

theorem inParallel {xs ys : List (Effect (Option ObjectId))} (ht : t.Twin u)
    (hx : List.Forall₂ (Agree heaps left right me t u) xs ys) :
    Agree heaps left right me t u (Effect.inParallel xs) (Effect.inParallel ys) := by
  intro held s s' hm
  simp only [Effect.inParallel, ← hm.now]
  exact inParallelFrom ht hx s.now held s s' hm

theorem evaluateAll {xs ys : List (Effect (Option ObjectId))} (ht : t.Twin u)
    (hp : t.context.config.parallelInputs = u.context.config.parallelInputs)
    (hx : List.Forall₂ (Agree heaps left right me t u) xs ys) :
    Agree heaps left right me t u (Effect.evaluateAll xs) (Effect.evaluateAll ys) := by
  intro held s s' hm
  simp only [Effect.evaluateAll, ← hp]
  split
  · exact inParallel ht hx held s s' hm
  · exact inSequence hx held s s' hm

theorem gather {xs ys : List (Effect (Option ObjectId))} (ht : t.Twin u)
    (hx : Agree heaps left right me t u (Effect.evaluateAll xs) (Effect.evaluateAll ys)) :
    Agree heaps left right me t u (Effect.gather xs) (Effect.gather ys) := by
  intro held s s' hm hl hr
  have part : ∀ {w : Watch} {zs : List (Effect (Option ObjectId))} {frame : Frame} {s : State},
      w.Clear (Effect.gather zs frame s).events (Effect.gather zs frame s).outcome →
        w.Clear (Effect.evaluateAll zs frame s).events (Effect.evaluateAll zs frame s).outcome := by
    intro w zs frame s h
    simp only [Effect.gather] at h
    split at h
    · exact ⟨fun e he => h.events e (List.mem_append_left _ he), h.outcome⟩
    · exact h
  obtain ⟨ho, he, hs⟩ := hx held s s' hm (part hl) (part hr)
  simp only [Effect.gather, ho]
  split
  · exact ⟨rfl, by simp only [he, ht.depth], hs⟩
  · exact ⟨ho, he, hs⟩

end Effect.Agree

/-- A change of the heap comes to the same on both sides: both fail, with one error, or both leave
heaps that are related. -/
def SameChange (heaps : Heap → Heap → Prop) : Except CommandError Heap →
    Except CommandError Heap → Prop
  | .ok h, .ok h' => heaps h h'
  | .error e, .error e' => e = e'
  | _, _ => False

theorem Effect.Agree.change {f : Thread → Heap → Except CommandError Heap} {told : List Event}
    (ht : t.Twin u) (hf : ∀ h h', heaps h h' → SameChange heaps (f t h) (f u h')) :
    Agree heaps left right me t u (Effect.change f told) (Effect.change f told) := by
  intro held s s' hm _ _
  have hc := hf _ _ hm.heap
  simp only [Effect.change]
  cases h₁ : f t s.heap <;> cases h₂ : f u s'.heap <;> simp only [h₁, h₂, SameChange] at hc ⊢
  · exact ⟨congrArg Outcome.failed hc, rfl, hm⟩
  · exact ⟨rfl, by simp only [ht.depth], ⟨hc, hm.now, hm.pointer⟩⟩

theorem Effect.Agree.giveBack (ht : t.Twin u) (v : Option ObjectId)
    (hf : ∀ h h', heaps h h' → SameChange heaps (t.setReturn h v) (u.setReturn h' v)) :
    Agree heaps left right me t u (Effect.giveBack v) (Effect.giveBack v) := by
  intro held s s' hm _ _
  have hc := hf _ _ hm.heap
  simp only [Effect.giveBack]
  cases h₁ : t.setReturn s.heap v <;> cases h₂ : u.setReturn s'.heap v <;>
    simp only [h₁, h₂, SameChange] at hc ⊢
  · exact ⟨congrArg Outcome.failed hc, rfl, hm⟩
  · exact ⟨rfl, by simp only [ht.depth], ⟨hc, hm.now, congrArg Pointer.markReturned hm.pointer⟩⟩

end

section
variable (heaps : Heap → Heap → Prop) (left right : Watch) (me : ObjectId) (t u : Thread)
variable (host : Host) (caller caller' : Option Caller)

/-- All that single commands do comes to the same on both sides. -/
structure Comparable : Prop extends t.Twin u where
  read : ∀ {h h'}, heaps h h' → ∀ path, h.readPath (t.view h) path = h'.readPath (u.view h') path
  readOf : ∀ {h h'}, heaps h h' → ∀ o path,
    h.readPath (h.outside o) path = h'.readPath (h'.outside o) path
  carried : ∀ {h h'}, heaps h h' → ∀ o, Script.boundTo h o = Script.boundTo h' o
  set : ∀ {h h'}, heaps h h' → ∀ path v,
    SameChange heaps (t.setValue h path v) (u.setValue h' path v)
  add : ∀ {h h'}, heaps h h' → ∀ key type,
    SameChange heaps (t.addLocal h key type) (u.addLocal h' key type)
  giveBack : ∀ {h h'}, heaps h h' → ∀ v, SameChange heaps (t.setReturn h v) (u.setReturn h' v)
  perform : ∀ op args,
    (Effect.perform host op args).Agree heaps left right me t u (Effect.perform host op args)
  call : ∀ script inputs, (Effect.call caller script inputs).Agree heaps left right me t u
    (Effect.call caller' script inputs)
  inputs : ∀ cs, List.Forall₂ (Effect.Agree heaps left right me t u) (execEach host caller cs)
      (execEach host caller' cs) →
    (Effect.gather (execEach host caller cs)).Agree heaps left right me t u
      (Effect.gather (execEach host caller' cs))

end

section
variable {heaps : Heap → Heap → Prop} {left right : Watch} {me : ObjectId} {t u : Thread}
variable {host : Host} {caller caller' : Option Caller}

mutual

/-- Every command comes to the same on both sides if single steps do. -/
theorem exec_agree (hc : Comparable heaps left right me t u host caller caller') :
    ∀ c, (exec host caller c).Agree heaps left right me t u (exec host caller' c)
  | .this own => by
    rw [exec, exec]
    exact .entering hc.toTwin _ (.ask fun _ _ _ _ => rfl)
  | .value own o => by
    rw [exec, exec]
    exact .entering hc.toTwin _ (.pure _)
  | .get own path => by
    rw [exec, exec]
    exact .entering hc.toTwin _ (.ask fun _ _ _ hh => by rw [hc.read hh])
  | .getOf own target path => by
    rw [exec, exec]
    exact .entering hc.toTwin _ ((exec_agree hc target).bind fun v =>
      (Effect.Agree.require _ v).bind fun o => .ask fun _ _ _ hh => by rw [hc.readOf hh])
  | .set own path operand => by
    rw [exec, exec]
    exact .entering hc.toTwin _ ((exec_agree hc operand).bind fun v =>
      (Effect.Agree.require _ v).bind fun o =>
        (Effect.Agree.change hc.toTwin fun _ _ hh => hc.set hh path o).bind fun _ => .pure _)
  | .add own key type => by
    rw [exec, exec]
    exact .entering hc.toTwin _
      ((Effect.Agree.change hc.toTwin fun _ _ hh => hc.add hh key type).bind fun _ => .pure _)
  | .ret own operand => by
    rw [exec, exec]
    exact .entering hc.toTwin _ ((execOption_agree hc operand).bind fun v =>
      (Effect.Agree.giveBack hc.toTwin v fun _ _ hh => hc.giveBack hh v).bind fun _ => .pure _)
  | .script own target inputs => by
    rw [exec, exec]
    refine .entering hc.toTwin _ ((exec_agree hc target).bind fun v =>
      (Effect.Agree.require _ v).bind fun carrier =>
        (Effect.Agree.ask fun _ _ _ hh => hc.carried hh carrier).bind fun script => .holding _ ?_)
    exact (hc.inputs inputs (execEach_agree hc inputs)).bind fun vs =>
      (Effect.Agree.requireAll _ vs 0).bind fun os => hc.call script os
  | .attempt own body handler => by
    rw [exec, exec]
    exact .entering hc.toTwin _ (.attempt hc.toTwin (exec_agree hc body) (exec_agree hc handler))
  | .throw own operand => by
    rw [exec, exec]
    refine .entering hc.toTwin _ ((execOption_agree hc operand).bind fun v =>
      (Effect.Agree.note hc.toTwin _).bind fun _ => .ask fun _ _ _ _ => ?_)
    rw [hc.name]
  | .native own op args => by
    rw [exec, exec]
    exact .entering hc.toTwin _
      ((hc.inputs args (execEach_agree hc args)).bind fun vs => hc.perform op vs)

theorem execOption_agree (hc : Comparable heaps left right me t u host caller caller') :
    ∀ o : Option Command,
      (execOption host caller o).Agree heaps left right me t u (execOption host caller' o)
  | none => by
    rw [execOption, execOption]
    exact .pure none
  | some c => by
    rw [execOption, execOption]
    exact exec_agree hc c

theorem execEach_agree (hc : Comparable heaps left right me t u host caller caller') :
    ∀ cs : List Command, List.Forall₂ (Effect.Agree heaps left right me t u)
      (execEach host caller cs) (execEach host caller' cs)
  | [] => by
    rw [execEach, execEach]
    exact .nil
  | c :: cs => by
    rw [execEach, execEach]
    exact .cons (exec_agree hc c) (execEach_agree hc cs)

end

/-- A command of a thread, and then the rest. -/
def Effect.andThen (x : Effect (Option ObjectId)) (rest : Effect Unit) : Effect Unit :=
  fun frame s =>
  let r := x frame s
  match r.outcome with
  | .failed e => ⟨.failed e, { r.state with pointer := r.state.pointer.fault }, r.events⟩
  | .waiting => ⟨.waiting, r.state, r.events⟩
  | .done _ =>
    let q := rest frame { r.state with pointer := r.state.pointer.advance }
    ⟨q.outcome, q.state, r.events ++ q.events⟩

theorem runCommands_cons {c : Command} {cs : List Command} {frame : Frame} {s : State}
    (hp : s.pointer.isStopped = false)
    (hk : frame.thread.grant.check c.required frame.thread.name = .ok ()) :
    runCommands host caller (c :: cs) frame s =
      (exec host caller c).andThen (runCommands host caller cs) frame s := by
  simp only [runCommands, hp, hk, Effect.andThen]
  rfl

theorem Effect.Agree.andThen {x y : Effect (Option ObjectId)} {rest rest' : Effect Unit}
    (hx : Agree heaps left right me t u x y) (hr : Agree heaps left right me t u rest rest') :
    Agree heaps left right me t u (x.andThen rest) (y.andThen rest') := by
  intro held s s' hm hl hr'
  have part : ∀ {w : Watch} {z : Effect (Option ObjectId)} {k : Effect Unit} {frame : Frame}
      {s : State}, w.Clear (z.andThen k frame s).events (z.andThen k frame s).outcome →
        w.Clear (z frame s).events (z frame s).outcome := by
    intro w z k frame s h
    cases ho : (z frame s).outcome with
    | done v =>
      simp only [Effect.andThen, ho] at h
      exact h.first v
    | failed e =>
      simp only [Effect.andThen, ho] at h
      exact h.failed
    | waiting =>
      simp only [Effect.andThen, ho] at h
      exact h.waiting
  obtain ⟨ho, he, hs⟩ := hx held s s' hm (part hl) (part hr')
  cases hxo : (x ⟨me, t, held⟩ s).outcome with
  | done v =>
    simp only [Effect.andThen, ← ho, hxo] at hl hr' ⊢
    have hm' : Matched heaps
        { (x ⟨me, t, held⟩ s).state with
          pointer := (x ⟨me, t, held⟩ s).state.pointer.advance }
        { (y ⟨me, u, held⟩ s').state with
          pointer := (y ⟨me, u, held⟩ s').state.pointer.advance } :=
      ⟨hs.heap, hs.now, congrArg Pointer.advance hs.pointer⟩
    obtain ⟨ho', he', hs'⟩ := hr held _ _ hm' hl.second hr'.second
    exact ⟨ho', by simp only [he, he'], hs'⟩
  | failed e =>
    simp only [Effect.andThen, ← ho, hxo]
    exact ⟨rfl, he, ⟨hs.heap, hs.now, congrArg Pointer.fault hs.pointer⟩⟩
  | waiting =>
    simp only [Effect.andThen, ← ho, hxo]
    exact ⟨rfl, he, hs⟩

/-- From command to command, the two threads go on alike. -/
theorem runCommands_agree (hc : Comparable heaps left right me t u host caller caller')
    (cs : List Command) :
    (runCommands host caller cs).Agree heaps left right me t u (runCommands host caller' cs) := by
  induction cs with
  | nil => exact .pure ()
  | cons c cs ih =>
    intro held s s' hm hl hr
    cases hp : s.pointer.isStopped with
    | true =>
      have hp' := hm.pointer ▸ hp
      simp only [runCommands, hp, hp', if_true]
      exact ⟨rfl, rfl, hm⟩
    | false =>
      have hp' := hm.pointer ▸ hp
      cases hk : t.grant.check c.required t.name with
      | error e =>
        have hk' : u.grant.check c.required u.name = .error e := by rw [← hc.grant, ← hc.name, hk]
        simp only [runCommands, hp, hp', hk, hk']
        refine ⟨rfl, ?_, ⟨hm.heap, hm.now, congrArg Pointer.fault hm.pointer⟩⟩
        simp only [hc.depth, hc.grant]
        rfl
      | ok _ =>
        have hk' : u.grant.check c.required u.name = .ok () := by rw [← hc.grant, ← hc.name, hk]
        rw [runCommands_cons hp hk] at hl ⊢
        rw [runCommands_cons hp' hk'] at hr ⊢
        exact (exec_agree hc c).andThen ih held s s' hm hl hr

end

end GuardedScript
