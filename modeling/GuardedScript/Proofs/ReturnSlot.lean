import Mathlib.Data.List.Permutation
import GuardedScript.Proofs.Layout
import GuardedScript.Proofs.Trail

/-!
What a call returns. The first value that a thread returns opens its slot; later ones are refused,
and no other thread reaches the slot. But the slot is an item of the scratch layer like any other,
and a command of the same thread may still set it by its key. So a call gives back the value that
was returned first, unless the thread has set the reserved key since; then it gives back the value
set last.
-/

namespace GuardedScript

open Heap

/-- The value that the thread at this depth returned. -/
def Entry.returned? (depth : Nat) (e : Entry) : Option ObjectId :=
  match e.event with
  | .returned v => if e.depth = depth then v else none
  | _ => none

/-- The value that the thread at this depth set under the reserved key. -/
def Entry.rewritten? (depth : Nat) (e : Entry) : Option ObjectId :=
  match e.event with
  | .stored path v => if e.depth = depth ∧ path = returnKey then some v else none
  | _ => none

theorem Entry.returned?_deeper {depth : Nat} {e : Entry} (he : depth < e.depth) :
    e.returned? depth = none := by
  unfold Entry.returned?
  split
  · exact if_neg (Nat.ne_of_gt he)
  · rfl

section
variable (depth : Nat)

/-- The first value that the thread at this depth returned. -/
def firstReturned (es : List Entry) : Option ObjectId := es.findSome? (Entry.returned? depth)

/-- The values that the thread at this depth set under the reserved key, in order. -/
def rewrites (es : List Entry) : List ObjectId := es.filterMap (Entry.rewritten? depth)

/-- How events move the content of the return slot of the thread at this depth. -/
inductive Moves : Option ObjectId → List Entry → Option ObjectId → Prop where
  | nil (slot) : Moves slot [] slot
  | skip {e es a b} (hr : e.returned? depth = none) (hw : e.rewritten? depth = none) :
      Moves a es b → Moves a (e :: es) b
  | first {v es b} : Moves (some v) es b → Moves none (⟨depth, .returned (some v)⟩ :: es) b
  | rewrite {w v es b} : Moves (some v) es b →
      Moves (some w) (⟨depth, .stored returnKey v⟩ :: es) b

end

namespace Moves

variable {depth : Nat} {a b c : Option ObjectId} {es fs : List Entry}

theorem append (h : Moves depth a es b) (h' : Moves depth b fs c) : Moves depth a (es ++ fs) c := by
  induction h with
  | nil => exact h'
  | skip hr hw _ ih => exact .skip hr hw (ih h')
  | first _ ih => exact .first (ih h')
  | rewrite _ ih => exact .rewrite (ih h')

theorem still (hes : ∀ e ∈ es, e.returned? depth = none ∧ e.rewritten? depth = none) :
    Moves depth a es a := by
  induction es with
  | nil => exact .nil a
  | cons e es ih =>
    obtain ⟨⟨hr, hw⟩, hes⟩ := List.forall_mem_cons.mp hes
    exact .skip hr hw (ih hes)

theorem deeper (hes : ∀ e ∈ es, depth < e.depth) : Moves depth a es a := by
  apply still
  intro e he
  refine ⟨Entry.returned?_deeper (hes e he), ?_⟩
  unfold Entry.rewritten?
  split
  · exact if_neg fun hp => Nat.ne_of_gt (hes e he) hp.1
  · rfl

/-- An open slot holds what was last set. -/
theorem of_some {w : ObjectId} (h : Moves depth (some w) es b) :
    b = some ((rewrites depth es).getLastD w) := by
  generalize hs : some w = slot at h
  induction h generalizing w with
  | nil => exact hs.symm
  | skip _ hw _ ih =>
    rw [rewrites, List.filterMap_cons_none hw]
    exact ih hs
  | first => cases hs
  | @rewrite w' v es b _ ih =>
    have hw : Entry.rewritten? depth ⟨depth, .stored returnKey v⟩ = some v := by
      simp [Entry.rewritten?]
    rw [rewrites, List.filterMap_cons_some hw, List.getLastD_cons]
    exact ih rfl

/-- A closed slot is opened by the first value that is returned. -/
theorem of_none (h : Moves depth none es b) :
    b = (firstReturned depth es).map fun v => (rewrites depth es).getLastD v := by
  generalize hs : (none : Option ObjectId) = slot at h
  induction h with
  | nil => exact hs.symm
  | skip hr hw _ ih =>
    rw [rewrites, List.filterMap_cons_none hw, firstReturned, List.findSome?_cons, hr]
    exact ih hs
  | @first v es b h _ =>
    have hr : Entry.returned? depth ⟨depth, .returned (some v)⟩ = some v := by
      simp [Entry.returned?]
    rw [rewrites, List.filterMap_cons_none rfl, firstReturned, List.findSome?_cons, hr]
    exact h.of_some
  | rewrite => cases hs

end Moves

/-- Operations of the host leave every thread's return slot with its thread and as it is. -/
def Host.SparesReturns (host : Host) : Prop :=
  ∀ op (frame : Frame) (s : State) args, s.heap.Sound →
    (host.perform op frame s args).heap.Sound ∧
      Spares frame.thread.context.ambient (fun _ _ => True) s.heap
        (host.perform op frame s args).heap

/-- Calls spare the return slots of the threads around them, and what happens in them happens
deeper. -/
structure Considerate (call : Call) (m : Moment) (r : Reply ScriptError Moment (Option ObjectId)) :
    Prop where
  deep : ∀ e ∈ r.events, call.context.depth ≤ e.depth
  spares : m.heap.Sound → (∀ a ∈ call.context.ambient, m.heap.Knows a) → r.state.heap.Sound ∧
    Spares call.context.ambient (fun _ _ => True) m.heap r.state.heap

section
variable (ambient : Option Group) (σ : StackId) (n : Nat)

/-- A thread between two commands. -/
structure Steady (s : State) : Prop where
  sound : s.heap.Sound
  owns : s.heap.Owns ambient σ n
  marked : (s.heap.returned n).isSome → s.pointer.status = .returned

/-- A thread within a command: it has not been stopped but by returning. -/
structure Busy (s : State) : Prop extends Steady ambient σ n s where
  live : s.pointer.status = .running ∨ s.pointer.status = .returned

/-- What a stretch does to the thread's own slot and to those of other threads. -/
structure Tracks (depth : Nat) (h h' : Heap) (es : List Entry) : Prop where
  spares : Spares ambient (fun τ m => τ ≠ σ ∧ m ≠ n) h h'
  slot : Moves depth (h.returned n) es (h'.returned n)

end

theorem Pointer.markReturned_live {p : Pointer} (hp : p.status = .running ∨ p.status = .returned) :
    p.markReturned.status = .returned := by
  rcases hp with hp | hp <;> simp [Pointer.markReturned, Pointer.stop, Pointer.isStopped, hp]

section
variable {ambient : Option Group} {σ : StackId} {n depth : Nat} {h h' h'' : Heap}
variable {es fs : List Entry}

theorem Tracks.still (hes : ∀ e ∈ es, e.returned? depth = none ∧ e.rewritten? depth = none) :
    Tracks ambient σ n depth h h es :=
  ⟨.refl h, .still hes⟩

theorem Tracks.append (a : Tracks ambient σ n depth h h' es)
    (b : Tracks ambient σ n depth h' h'' fs) : Tracks ambient σ n depth h h'' (es ++ fs) :=
  ⟨a.spares.trans b.spares, a.slot.append b.slot⟩

theorem Tracks.spared (ho : h.Owns ambient σ n) (hs : Spares ambient (fun _ _ => True) h h')
    (hm : ∀ slot, Moves depth slot es slot) :
    h'.Owns ambient σ n ∧ h'.returned n = h.returned n ∧ Tracks ambient σ n depth h h' es := by
  obtain ⟨ho', hv⟩ := hs σ n trivial ho
  refine ⟨ho', hv, hs.imp fun _ _ _ => trivial, ?_⟩
  rw [hv]
  exact hm _

end

section
variable {host : Host} {caller : Option Caller} {may : Command → Prop} {me : ObjectId}
variable {t : Thread} {n : Nat} {s s' : State} {o : Outcome CommandError Unit} {es : List Entry}

theorem Busy.withHeap {ambient : Option Group} {σ : StackId} (hb : Busy ambient σ n s) {h : Heap}
    {now : Nat} (hs : h.Sound) (ho : h.Owns ambient σ n)
    (hm : (h.returned n).isSome → (s.heap.returned n).isSome) :
    Busy ambient σ n ⟨⟨h, now⟩, s.pointer⟩ :=
  ⟨⟨hs, ho, fun hr => hb.marked (hm hr)⟩, hb.live⟩

theorem Busy.marking {ambient : Option Group} {σ : StackId} (hb : Busy ambient σ n s) {h : Heap}
    {now : Nat} (hs : h.Sound) (ho : h.Owns ambient σ n) :
    Busy ambient σ n ⟨⟨h, now⟩, s.pointer.markReturned⟩ :=
  ⟨⟨hs, ho, fun _ => Pointer.markReturned_live hb.live⟩, .inr (Pointer.markReturned_live hb.live)⟩

theorem Busy.set (hb : Busy t.context.ambient t.stack n s) {path : String} {v : ObjectId}
    {h : Heap} (hs : t.setValue s.heap path v = .ok h) :
    Busy t.context.ambient t.stack n { s with heap := h } ∧
      Tracks t.context.ambient t.stack n t.context.depth s.heap h
        [⟨t.context.depth, .stored path v⟩] := by
  have hsound := Thread.setValue_sound hs hb.sound
  have hspares : Spares t.context.ambient (fun τ _ => τ ≠ t.stack ∨ path ≠ returnKey) s.heap h :=
    Thread.setValue_spares hs hb.sound
  by_cases hp : path = returnKey
  · subst hp
    obtain ⟨ho, hold, hnew⟩ := Thread.setValue_return hs hb.sound hb.owns
    refine ⟨hb.withHeap hsound ho fun _ => hold, hspares.imp fun _ _ hm => .inl hm.1, ?_⟩
    obtain ⟨w, hw⟩ := Option.isSome_iff_exists.mp hold
    rw [hw, hnew]
    exact .rewrite (.nil _)
  · obtain ⟨ho, hv⟩ := hspares t.stack n (.inr hp) hb.owns
    refine ⟨hb.withHeap hsound ho fun hr => hv ▸ hr, hspares.imp fun _ _ hm => .inl hm.1, ?_⟩
    rw [hv]
    exact .skip rfl (if_neg fun he => hp he.2) (.nil _)

theorem Busy.add (hb : Busy t.context.ambient t.stack n s) {key : String} {type : TypeRef}
    {h : Heap} (hs : t.addLocal s.heap key type = .ok h) :
    Busy t.context.ambient t.stack n { s with heap := h } ∧
      Tracks t.context.ambient t.stack n t.context.depth s.heap h [] := by
  obtain ⟨hq, hl⟩ := Thread.addLocal_quiet hs
  have hsound : h.Sound := hb.sound.grow hq.grows (by rw [hl])
  have hspares : Spares t.context.ambient (fun _ _ => True) s.heap h :=
    hq.spares hb.sound fun _ hτ => not_within_of_size (by rwa [hl])
  obtain ⟨ho, hv, ht⟩ := Tracks.spared hb.owns hspares fun slot => .nil slot
  exact ⟨hb.withHeap hsound ho fun hr => hv ▸ hr, ht⟩

theorem Busy.giveBack (hb : Busy t.context.ambient t.stack n s) (ht : t.scratch = some (.loose n))
    {v : Option ObjectId} {h : Heap} (hs : t.setReturn s.heap v = .ok h) :
    Busy t.context.ambient t.stack n { s with heap := h, pointer := s.pointer.markReturned } ∧
      Tracks t.context.ambient t.stack n t.context.depth s.heap h
        [⟨t.context.depth, .returned v⟩] := by
  cases v with
  | none =>
    cases hs
    refine ⟨hb.marking hb.sound hb.owns, .still ?_⟩
    simp [Entry.returned?, Entry.rewritten?]
  | some v =>
    have hp := Thread.setReturn_opened ht hb.owns.group hs
    have hsound := hb.sound.grow hp.grows (by rw [hp.layered])
    refine ⟨hb.marking hsound (hp.owns hb.sound hb.owns), hp.spares hb.sound hb.owns, ?_⟩
    rw [hp.returned_before, hp.returned_after]
    exact .first (.nil _)

theorem Effect.perform_state (host : Host) (op : Operation) (args : List (Option ObjectId))
    (frame : Frame) (s : State) : ∃ now, (Effect.perform host op args frame s).state =
      ⟨⟨(host.perform op frame s args).heap, now⟩,
        if (host.perform op frame s args).returned then s.pointer.markReturned else s.pointer⟩ := by
  simp only [Effect.perform]
  cases (host.perform op frame s args).delay with
  | none => exact ⟨_, rfl⟩
  | forever => exact ⟨_, rfl⟩
  | span ms =>
    simp only [Effect.delayed]
    by_cases hd : (frame.thread.context.deadline.any (· < s.now + ms)) = true
    · simp only [hd, if_true]
      exact ⟨_, rfl⟩
    · simp only [hd]
      exact ⟨_, rfl⟩

theorem Busy.perform (hb : Busy t.context.ambient t.stack n s) (hh : host.SparesReturns)
    (op : Operation) (args : List (Option ObjectId)) (held : List Holder) :
    Busy t.context.ambient t.stack n (Effect.perform host op args ⟨me, t, held⟩ s).state ∧
      Tracks t.context.ambient t.stack n t.context.depth s.heap
        (Effect.perform host op args ⟨me, t, held⟩ s).state.heap
        (Effect.perform host op args ⟨me, t, held⟩ s).events := by
  obtain ⟨now, hstate⟩ := Effect.perform_state host op args ⟨me, t, held⟩ s
  obtain ⟨hsound, hspares⟩ := hh op ⟨me, t, held⟩ s args hb.sound
  have hes : ∀ e ∈ (Effect.perform host op args ⟨me, t, held⟩ s).events,
      e.returned? t.context.depth = none ∧ e.rewritten? t.context.depth = none := by
    rw [Effect.perform_events]
    refine List.forall_mem_cons.mpr ⟨⟨rfl, rfl⟩, fun e he => ?_⟩
    obtain ⟨text, _, rfl⟩ := List.mem_map.mp he
    exact ⟨rfl, rfl⟩
  obtain ⟨ho, hv, ht⟩ := Tracks.spared hb.owns hspares fun slot => .still hes
  rw [hstate]
  refine ⟨?_, ht⟩
  split
  · exact hb.marking hsound ho
  · exact hb.withHeap hsound ho fun hr => hv ▸ hr

theorem Busy.call (hb : Busy t.context.ambient t.stack n s)
    (hrun : ∀ run, caller = some run → ∀ call m, Considerate call m (run call m))
    (script : Script) (inputs : List ObjectId) (held : List Holder) :
    Busy t.context.ambient t.stack n (Effect.call caller script inputs ⟨me, t, held⟩ s).state ∧
      Tracks t.context.ambient t.stack n t.context.depth s.heap
        (Effect.call caller script inputs ⟨me, t, held⟩ s).state.heap
        (Effect.call caller script inputs ⟨me, t, held⟩ s).events := by
  cases caller with
  | none =>
    refine ⟨hb, .still ?_⟩
    simp [Effect.call, Entry.returned?, Entry.rewritten?]
  | some run =>
    have hd := hrun run rfl ⟨script, { t.context with depth := t.context.depth + 1 }, inputs,
      t.grant, held⟩ s.toMoment
    obtain ⟨hsound, hspares⟩ := hd.spares hb.sound hb.owns.known
    obtain ⟨ho, hv, ht⟩ := Tracks.spared hb.owns hspares fun slot => .deeper hd.deep
    exact ⟨hb.withHeap hsound ho fun hr => hv ▸ hr, ht⟩

theorem Pointer.stop_returned {p : Pointer} (hp : p.status = .returned) (status : Status) :
    (p.stop status).status = .returned := by
  simp [Pointer.stop, Pointer.isStopped, hp]

theorem Pointer.advance_returned {p : Pointer} (hp : p.status = .returned) :
    p.advance.status = .returned := by
  simp [Pointer.advance, Pointer.isStopped, hp]

section
variable (hh : host.SparesReturns)
variable (hrun : ∀ run, caller = some run → ∀ call m, Considerate call m (run call m))
include hh hrun

/-- Whatever a thread does within a command, its slot moves as the events tell. -/
theorem Trail.tracks (h : Trail host caller may me t s o s' es)
    (ht : t.scratch = some (.loose n)) (hb : Busy t.context.ambient t.stack n s) :
    Busy t.context.ambient t.stack n s' ∧
      Tracks t.context.ambient t.stack n t.context.depth s.heap s'.heap es := by
  induction h with
  | still | slip => exact ⟨hb, .still fun _ he => nomatch he⟩
  | enter s hc => exact ⟨hb, .still (by simp [Entry.returned?, Entry.rewritten?])⟩
  | throw s v => exact ⟨hb, .still (by simp [Entry.returned?, Entry.rewritten?])⟩
  | set hs => exact hb.set hs
  | add hs => exact hb.add hs
  | giveBack hs => exact hb.giveBack ht hs
  | perform s held args hc ho hr =>
    subst hr
    exact hb.perform hh _ args held
  | call s held script inputs hr =>
    subst hr
    exact hb.call hrun script inputs held
  | seq _ _ ih₁ ih₂ =>
    obtain ⟨hb₁, ht₁⟩ := ih₁ hb
    obtain ⟨hb₂, ht₂⟩ := ih₂ hb₁
    exact ⟨hb₂, ht₁.append ht₂⟩
  | caught _ _ _ ih₁ ih₂ =>
    obtain ⟨hb₁, ht₁⟩ := ih₁ hb
    obtain ⟨hb₂, ht₂⟩ := ih₂ hb₁
    exact ⟨hb₂, ht₁.append ⟨ht₂.spares, .skip rfl rfl ht₂.slot⟩⟩
  | beside _ start next _ _ ih₁ ih₂ =>
    obtain ⟨hb₁, ht₁⟩ := ih₁ (hb.withHeap hb.sound hb.owns id)
    obtain ⟨hb₂, ht₂⟩ := ih₂ (hb₁.withHeap hb₁.sound hb₁.owns id)
    refine ⟨hb₂, (ht₁.append ht₂).append (.still fun e he => ?_)⟩
    obtain ⟨err, _, rfl⟩ := List.mem_map.mp he
    exact ⟨rfl, rfl⟩
  | inputsFailed _ ih =>
    obtain ⟨hb₁, ht₁⟩ := ih hb
    exact ⟨hb₁, ht₁.append (.still (by simp [Entry.returned?, Entry.rewritten?]))⟩

/-- From command to command the slot moves as the events tell. -/
theorem Course.tracks (h : Course host caller me t s o s' es)
    (ht : t.scratch = some (.loose n)) (hb : Steady t.context.ambient t.stack n s) :
    Steady t.context.ambient t.stack n s' ∧
      Tracks t.context.ambient t.stack n t.context.depth s.heap s'.heap es := by
  induction h with
  | stop => exact ⟨hb, .still fun _ he => nomatch he⟩
  | denied s hc =>
    refine ⟨⟨hb.sound, hb.owns, fun hr => Pointer.stop_returned (hb.marked hr) _⟩, .still ?_⟩
    simp [Entry.returned?, Entry.rewritten?]
  | fault hp h =>
    obtain ⟨hb₁, ht₁⟩ := h.tracks hh hrun ht ⟨hb, .inl hp⟩
    exact ⟨⟨hb₁.sound, hb₁.owns, fun hr => Pointer.stop_returned (hb₁.marked hr) _⟩, ht₁⟩
  | wait hp h =>
    obtain ⟨hb₁, ht₁⟩ := h.tracks hh hrun ht ⟨hb, .inl hp⟩
    exact ⟨hb₁.toSteady, ht₁⟩
  | next hp h _ ih =>
    obtain ⟨hb₁, ht₁⟩ := h.tracks hh hrun ht ⟨hb, .inl hp⟩
    obtain ⟨hb₂, ht₂⟩ :=
      ih ⟨hb₁.sound, hb₁.owns, fun hr => Pointer.advance_returned (hb₁.marked hr)⟩
    exact ⟨hb₂, ht₁.append ht₂⟩

end

theorem Heap.Owns.returnValue {h : Heap} {ambient : Option Group} {σ : StackId}
    (ho : h.Owns ambient σ n) (hs : h.Sound) (ht : t.scratch = some (.loose n)) :
    t.returnValue h = h.returned n := by
  rw [Thread.returnValue, ht, Option.bind_some, find_loose, returned]
  cases he : h.itemId? n returnKey with
  | none => rfl
  | some id =>
    obtain ⟨k, rfl, hlt⟩ := ho.slot_lt hs he
    have hc : h.cells.get? k = some h.cells.rows[k] := Array.getElem?_eq_getElem hlt
    simp [item?, hc]

theorem checkReturn_done {h : Heap} {script : Script} {v res : Option ObjectId}
    (hr : checkReturn h script v = .done res) : res = v := by
  unfold checkReturn at hr
  split at hr
  · split at hr <;> cases hr
    rfl
  · cases hr
    rfl

/-- Where the slot is open the thread has returned, so the call gives back what is in it. -/
theorem Steady.conclude (hb : Steady t.context.ambient t.stack n s)
    (ht : t.scratch = some (.loose n)) {script : Script} {res : Option ObjectId}
    (hr : t.conclude script s o = .done res) : res = s.heap.returned n := by
  cases o with
  | waiting | failed => cases hr
  | done u =>
    have hres := checkReturn_done hr
    split at hres
    · rw [hres, hb.owns.returnValue hb.sound ht]
    · next hp =>
      cases hv : s.heap.returned n with
      | none => exact hres
      | some v => exact (hp (hb.marked (by rw [hv]; rfl))).elim

end

section
variable {host : Host} {caller : Option Caller} {call : Call} {m : Moment}

/-- What happens in a call happens at its depth or below. -/
theorem Calls.deep {r : Reply ScriptError Moment (Option ObjectId)}
    (hrun : ∀ run, caller = some run → ∀ call m, ∀ e ∈ (run call m).events,
      call.context.depth ≤ e.depth)
    (hc : Calls host caller call m r) : ∀ e ∈ r.events, call.context.depth ≤ e.depth := by
  cases hc with
  | refused => exact fun _ he => nomatch he
  | unbuilt =>
    intro e he
    rw [List.mem_singleton.mp he]
    exact Nat.le_refl _
  | ran hi hb hc =>
    obtain ⟨_, rfl⟩ := Thread.buildStack_ok hb
    refine List.forall_mem_cons.mpr ⟨Nat.le_refl _, fun e he => ?_⟩
    rcases hc.known e he with (⟨hd, _⟩ | ⟨run, call', m', hr, _, hcx, hm⟩) | ⟨ms, rfl⟩
    · exact Nat.le_of_eq hd.symm
    · have hd := hrun run hr call' m' e hm
      rw [hcx] at hd
      exact Nat.le_of_succ_le hd
    · exact Nat.le_refl _

theorem callAt_deep (levels : Nat) (call : Call) (m : Moment) :
    ∀ e ∈ (callAt host levels call m).events, call.context.depth ≤ e.depth :=
  callAt_induction (P := fun call _ r => ∀ e ∈ r.events, call.context.depth ≤ e.depth) host
    (fun _ hrun _ _ _ hc => hc.deep hrun) levels call m

section
variable (hh : host.SparesReturns)
variable (hrun : ∀ run, caller = some run → ∀ call m, Considerate call m (run call m))
include hh hrun

theorem Call.Built.runs {t : Thread} {h : Heap} {n : Nat} (hb : call.Built m t h n)
    {o : Outcome CommandError Unit} {s : State} {es : List Entry} {me : ObjectId} {p : Pointer}
    (hc : Course host caller me t { m with heap := h, pointer := p } o s es) :
    Steady t.context.ambient t.stack n s ∧
      Tracks t.context.ambient t.stack n t.context.depth h s.heap es := by
  have hempty := hb.empty
  have howns := hb.owns
  rw [← hb.context] at howns
  refine hc.tracks hh hrun hb.scratch ⟨hb.sound, howns, ?_⟩
  rw [hempty]
  exact fun hr => nomatch hr

theorem Calls.considerate {r : Reply ScriptError Moment (Option ObjectId)}
    (hc : Calls host caller call m r) : Considerate call m r := by
  refine ⟨hc.deep fun run hr call m => (hrun run hr call m).deep, fun hs ha => ?_⟩
  cases hc with
  | refused => exact ⟨hs, .refl _⟩
  | unbuilt hi hb => exact (Call.fed hs ha hi).unbuilt hb
  | @ran b g t h o s es hi hb hc =>
    obtain ⟨n, hbuilt⟩ := (Call.fed hs ha hi).built hb
    obtain ⟨hsteady, htracks⟩ := hbuilt.runs hh hrun hc
    refine ⟨hsteady.sound, fun σ k _ ho => ?_⟩
    obtain ⟨ho', hv'⟩ := hbuilt.spares σ k trivial ho
    have hcontext := hbuilt.context
    obtain ⟨ho'', hv''⟩ := htracks.spares σ k (hbuilt.apart ho) (hcontext ▸ ho')
    exact ⟨hcontext ▸ ho'', hv''.trans hv'⟩

theorem Calls.returns {r : Reply ScriptError Moment (Option ObjectId)}
    (hc : Calls host caller call m r) (hs : m.heap.Sound)
    (ha : ∀ a ∈ call.context.ambient, m.heap.Knows a) {res : Option ObjectId}
    (hr : r.outcome = .done res) :
    res = (firstReturned call.context.depth r.events).map fun v =>
      (rewrites call.context.depth r.events).getLastD v := by
  cases hc with
  | refused | unbuilt => cases hr
  | @ran b g t h o s es hi hb hc =>
    obtain ⟨n, hbuilt⟩ := (Call.fed hs ha hi).built hb
    obtain ⟨hsteady, htracks⟩ := hbuilt.runs hh hrun hc
    have hslot := htracks.slot
    rw [hbuilt.empty, hbuilt.context, ← hsteady.conclude hbuilt.scratch hr] at hslot
    exact (Moves.skip rfl rfl hslot).of_none

end

theorem callAt_discreet (hh : host.SparesReturns) (levels : Nat) (call : Call) (m : Moment) :
    Considerate call m (callAt host levels call m) :=
  callAt_induction host (P := Considerate) (fun _ hrun _ _ _ hc => hc.considerate hh hrun) levels
    call m

theorem callAt_returns (hh : host.SparesReturns) (levels : Nat) (hs : m.heap.Sound)
    (ha : ∀ a ∈ call.context.ambient, m.heap.Knows a) {res : Option ObjectId}
    (hr : (callAt host levels call m).outcome = .done res) :
    res = (firstReturned call.context.depth (callAt host levels call m).events).map fun v =>
      (rewrites call.context.depth (callAt host levels call m).events).getLastD v := by
  cases levels with
  | zero =>
    refine (callScript_calls host none call m).returns hh ?_ hs ha hr
    intro run hrun
    cases hrun
  | succ levels =>
    refine (callScript_calls host (some (callAt host levels)) call m).returns hh ?_ hs ha hr
    intro run hrun
    cases hrun
    exact callAt_discreet hh levels

end

theorem firstReturned_isSome {depth : Nat} {es : List Entry} :
    (firstReturned depth es).isSome ↔ ∃ v, ⟨depth, .returned (some v)⟩ ∈ es := by
  rw [firstReturned, List.isSome_findSome?, List.any_eq_true]
  constructor
  · rintro ⟨⟨d, ev⟩, he, hs⟩
    unfold Entry.returned? at hs
    split at hs
    · next v hev =>
      split at hs
      · next hd =>
        obtain ⟨w, rfl⟩ := Option.isSome_iff_exists.mp hs
        cases hev
        cases hd
        exact ⟨w, he⟩
      · cases hs
    · cases hs
  · rintro ⟨v, he⟩
    exact ⟨_, he, by simp [Entry.returned?]⟩

/-- A call that succeeds gives back a value exactly if its own thread returned one. It is the first
one returned, unless the thread has set the reserved key to another value since; then it is the one
set last. Nothing else on this thread or any other has a say. -/
theorem returned_first_unless_rewritten (host : Host) (call : Call) (m : Moment)
    {res : Option ObjectId} (hh : host.SparesReturns) (hs : m.heap.Sound)
    (ha : ∀ g ∈ call.context.ambient, m.heap.Knows g)
    (hr : (Script.callIn host call m).outcome = .done res) :
    let es := (Script.callIn host call m).events
    let depth := call.context.depth
    (res.isSome ↔ ∃ v, ⟨depth, .returned (some v)⟩ ∈ es) ∧
    res = (firstReturned depth es).map (fun v => (rewrites depth es).getLastD v) ∧
    (res = firstReturned depth es ↔ ∀ v w, firstReturned depth es = some v →
      (rewrites depth es).getLast? = some w → w = v) := by
  intro es depth
  have hres : res = (firstReturned depth es).map fun v => (rewrites depth es).getLastD v :=
    callAt_returns hh _ hs ha hr
  refine ⟨?_, hres, ?_⟩
  · rw [← firstReturned_isSome, hres, Option.isSome_map]
  · rw [hres]
    cases firstReturned depth es with
    | none => simp
    | some v =>
      simp only [Option.map_some, List.getLastD_eq_getLast?]
      cases (rewrites depth es).getLast? with
      | none => simp
      | some w => simp

namespace Rewriting

/-! A thread returns one value, calls a script that returns another, and then sets the reserved
key. -/

def heap : Heap := Sample.heap [.ret {} (some (.this {}))]

def call : Call :=
  Sample.call {} {} [.native {} { name := "ping" }
    [.ret {} (some (.value {} ⟨1⟩)), .script {} (.value {} ⟨1⟩) [],
      .set {} returnKey (.value {} ⟨2⟩)]]

def run : Reply ScriptError Moment (Option ObjectId) := Script.callIn Sample.host call ⟨heap, 0⟩

theorem host_spares : Sample.host.SparesReturns := fun _ _ _ _ hs => ⟨hs, .refl _⟩

theorem heap_sound : heap.Sound := sound_of_bare rfl rfl

theorem heap_knows : ∀ g ∈ call.context.ambient, heap.Knows g := by
  intro g hg
  cases hg

theorem run_outcome : run.outcome = .done (some ⟨2⟩) := by cbv

theorem run_first : firstReturned 0 run.events = some ⟨1⟩ := by cbv

end Rewriting

/-- The value set last comes back in place of the one returned first. -/
theorem returned_value_rewritten :
    Rewriting.run.outcome = .done (some ⟨2⟩) ∧ firstReturned 0 Rewriting.run.events = some ⟨1⟩ ∧
    ¬ ∀ v w, firstReturned 0 Rewriting.run.events = some v →
      (rewrites 0 Rewriting.run.events).getLast? = some w → w = v := by
  obtain ⟨_, _, hiff⟩ := returned_first_unless_rewritten Sample.host Rewriting.call
    ⟨Rewriting.heap, 0⟩ Rewriting.host_spares Rewriting.heap_sound Rewriting.heap_knows
    Rewriting.run_outcome
  refine ⟨Rewriting.run_outcome, Rewriting.run_first, fun hall => ?_⟩
  have he : some ⟨2⟩ = firstReturned 0 Rewriting.run.events := hiff.mpr hall
  rw [Rewriting.run_first] at he
  cases he

end GuardedScript
