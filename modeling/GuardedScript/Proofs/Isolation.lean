import GuardedScript.Proofs.Awaiting
import GuardedScript.Proofs.TwoCalls

/-!
Calls and the locals of their callers. The layers that a call made for its thread can be reached
from no other thread, so a nested call leaves them as they are. And it runs alike in two heaps that
differ in these layers only, as long as no script is reported to have lost its parent: what lives
may depend on what the layers hold. While a call has not ended, its caller is left alone only where
inputs are evaluated in sequence or nothing waits: inputs beside the call run on the thread of its
caller.
-/

namespace GuardedScript

open Relation

/-- The heaps differ in the groups `P` only, and the given cells still correspond. -/
def Heap.Likened (P : Nat → Prop) (R : Nat → Nat → Prop) (h h' : Heap) : Prop :=
  ∃ Q : Nat → Nat → Prop, (∀ {k k'}, R k k' → Q k k') ∧ h.Twin P Q h'

namespace Heap

variable {P : Nat → Prop} {R : Nat → Nat → Prop} {h h' : Heap}

theorem Twin.likened (ht : h.Twin P R h') : h.Likened P R h' := ⟨R, id, ht⟩

theorem Likened.weaken {Q : Nat → Nat → Prop} (hR : ∀ {k k'}, R k k' → Q k k')
    (hl : h.Likened P Q h') : h.Likened P R h' := by
  obtain ⟨S, hS, ht⟩ := hl
  exact ⟨S, fun hk => hS (hR hk), ht⟩

theorem view_newItem (h : Heap) (p : Property) (g : Group) : (h.newItem p).1.view g = h.view g := by
  apply view_eq
  · exact fun _ => rfl
  · rfl

theorem common_view {g : Group} (hg : ∀ n, P n → ¬ h.Within g (.loose n)) :
    ∀ x ∈ (h.view g).groups, x.Common P := by
  rintro x hx n rfl hn
  exact hg n hn (within_of_view hx)

end Heap

open Heap

theorem SameResult.imp {ε α β : Type} {r q : α → β → Prop} (hq : ∀ {a b}, r a b → q a b)
    {x : Except ε α} {y : Except ε β} (h : SameResult r x y) : SameResult q x y := by
  cases h with
  | ok h => exact .ok (hq h)
  | error e => exact .error e

namespace Thread

variable {P : Nat → Prop} {R : Nat → Nat → Prop} {h h' : Heap} {σ : StackId} {t : Thread}
variable {ambient : Option Group}

theorem Outside.common (hout : t.Outside σ P) (hw : h.Walled ambient σ P) (part : Option Nat) :
    ∀ x ∈ (h.view (t.part h part)).groups, x.Common P :=
  common_view fun _ hn hx => hout.stack (hw.mine hn (within_part hx))

theorem Outside.common_scratch (hout : t.Outside σ P) {x : GroupId} (hx : t.scratch = some x) :
    x.Common P := by
  rintro n rfl
  exact hout.scratch hx

theorem part_twin (ht : h.Twin P R h') (part : Option Nat) : t.part h' part = t.part h part := by
  cases part with
  | none => rfl
  | some i => rw [Thread.part, Thread.part, ht.layers]

section
variable (ht : h.Twin P R h') (hw : h.Walled ambient σ P) (hout : t.Outside σ P)
include ht hw hout

theorem setValue_twin (path : String) (v : ObjectId) :
    SameResult (Heap.Twin P R) (t.setValue h path v) (t.setValue h' path v) := by
  have hv : ∀ x ∈ (h.view (.stack t.stack)).groups, x.Common P := hout.common hw none
  unfold Thread.setValue Thread.view
  rw [ht.view]
  rcases (ht.setPath hv path v).split_flag with ⟨e, he, he'⟩ | ⟨b, _, _, ho, ho', htwin⟩
  · rw [he, he']
    exact .error _
  · rw [ho, ho']
    cases b with
    | true => exact .ok htwin
    | false => exact .error _

theorem addLocal_twin (key : String) (type : TypeRef) :
    SameResult (Likened P R) (t.addLocal h key type) (t.addLocal h' key type) := by
  unfold Thread.addLocal
  split
  · exact .error _
  · obtain ⟨hn, hi⟩ := ht.newItem ⟨key, type, { isScoped := true }⟩
    have hsame : t.view (h.newItem ⟨key, type, { isScoped := true }⟩).1 =
        h.view (.stack t.stack) := view_newItem h _ _
    have hview : t.view (h'.newItem ⟨key, type, { isScoped := true }⟩).1 =
        h.view (.stack t.stack) := (hn.view _).trans hsame
    have hv : ∀ x ∈ (h.view (.stack t.stack)).groups, x.Common P := hout.common hw none
    dsimp only
    rw [hsame, hview]
    rcases (hn.addTo hv hi).split_flag with ⟨e, he, he'⟩ | ⟨b, _, _, ho, ho', htwin⟩
    · rw [he, he']
      exact .error _
    · rw [ho, ho']
      cases b with
      | true => exact .ok (htwin.likened.weaken .inl)
      | false => exact .error _

end

section
variable (ht : h.Twin P R h') (hout : t.Outside σ P)
include ht hout

theorem setReturn_twin (v : Option ObjectId) :
    SameResult (Likened P R) (t.setReturn h v) (t.setReturn h' v) := by
  cases v with
  | none => exact .ok ht.likened
  | some v =>
    unfold Thread.setReturn
    cases hscratch : t.scratch with
    | none => exact .error _
    | some x =>
      dsimp only
      rw [ht.object?]
      generalize ((h.object? v).map Object.type).getD ⟨0⟩ = type
      obtain ⟨hn, hi⟩ := ht.newItem ⟨returnKey, type, {}⟩
      rcases rel_split (hn.store hi v) with ⟨hs, hs'⟩ | ⟨b, b', hs, hs', hstored⟩
      · rw [hs, hs']
        exact .error _
      · rw [hs, hs']
        have hv : ∀ y ∈ (View.plain x).groups, y.Common P := by
          intro y hy
          rw [List.mem_singleton.mp hy]
          exact hout.common_scratch hscratch
        dsimp only
        rcases (hstored.addTo hv hi).split_flag with ⟨e, he, he'⟩ | ⟨b, _, _, ho, ho', htwin⟩
        · rw [he, he']
          exact .error _
        · rw [ho, ho']
          cases b with
          | true => exact .ok (htwin.likened.weaken .inl)
          | false => exact .error _

theorem returnValue_twin : t.returnValue h' = t.returnValue h := by
  unfold Thread.returnValue
  cases hscratch : t.scratch with
  | none => rfl
  | some x =>
    rw [Option.bind_some, Option.bind_some]
    rcases rel_split (ht.find (hout.common_scratch hscratch) returnKey) with
      ⟨hi, hi'⟩ | ⟨_, _, hi, hi', htwin⟩
    · rw [hi, hi']
      rfl
    · rw [hi, hi']
      exact ht.value? htwin.id

end

theorem push_twin (ht : h.Twin P R h') (hw : h.Walled ambient σ P) (hout : t.Outside σ P)
    (o : ObjectId) : (h'.push t.stack (.object o)).1 = (h.push t.stack (.object o)).1 ∧
      (h.push t.stack (.object o)).2.Twin P R (h'.push t.stack (.object o)).2 := by
  have hlayers : ∀ l ∈ h.layers t.stack, ∀ x ∈ (h.view l).groups, x.Common P := fun l hl =>
    common_view fun n hn hx => hout.stack (hw.mine hn (within_stack.mpr ⟨l, hl, hx⟩))
  have hobject : ∀ x ∈ (h.view (.object o)).groups, x.Common P := Twin.common_outside h o
  unfold Heap.push
  rcases (ht.pushChecked hlayers hobject).split with ⟨e, he, he'⟩ | ⟨_, _, ho, ho', htwin⟩
  · rw [he, he']
    exact ⟨rfl, ht⟩
  · rw [ho, ho']
    exact ⟨rfl, htwin⟩

theorem filledItem_twin (ht : h.Twin P R h') (p : Property) (v : Option ObjectId) :
    (h.filledItem p v).1.Twin P (pairing R h.cells.size h'.cells.size) (h'.filledItem p v).1 ∧
      (h.filledItem p v).2.Twin (pairing R h.cells.size h'.cells.size) (h'.filledItem p v).2 := by
  obtain ⟨hn, hi⟩ := ht.newItem p
  cases v with
  | none => exact ⟨hn, hi⟩
  | some v =>
    refine ⟨?_, hi⟩
    simp only [filledItem]
    rcases rel_split (hn.store hi v) with ⟨hs, hs'⟩ | ⟨_, _, hs, hs', hstored⟩
    · rw [hs, hs']
      exact hn
    · rw [hs, hs']
      exact hstored

/-- The memory of a thread outside answers alike in both heaps. -/
theorem serve_twin (ht : h.Twin P R h') (hw : h.Walled ambient σ P) (hout : t.Outside σ P)
    (q : Demand) : (q.serve t h').1 = (q.serve t h).1 ∧
      (q.serve t h).2.Likened P R (q.serve t h').2 := by
  have hview : ∀ part, h'.view (t.part h' part) = h.view (t.part h part) := fun part => by
    rw [part_twin ht, ht.view]
  have hcommon := hout.common hw
  cases q with
  | shared change =>
    simp only [Demand.serve, ht.shared]
    exact ⟨rfl, (ht.withShared _).likened⟩
  | read part path =>
    refine ⟨?_, ht.likened⟩
    simp only [Demand.serve, hview]
    exact ht.readPath (hcommon part) path
  | keys part =>
    refine ⟨?_, ht.likened⟩
    simp only [Demand.serve, hview]
    exact ht.keys (hcommon part)
  | depth =>
    refine ⟨?_, ht.likened⟩
    simp only [Demand.serve, ht.layers]
    rfl
  | set part path v =>
    simp only [Demand.serve, hview]
    rcases (ht.setPath (hcommon part) path v).split_flag with
      ⟨e, he, he'⟩ | ⟨b, _, _, ho, ho', htwin⟩
    · rw [he, he']
      exact ⟨rfl, ht.likened⟩
    · rw [ho, ho']
      exact ⟨rfl, htwin.likened⟩
  | put part key v =>
    simp only [Demand.serve, hview]
    rcases rel_split (ht.viewFind (hcommon part) key) with ⟨hi, hi'⟩ | ⟨_, _, hi, hi', hitem⟩
    · rw [hi, hi']
      exact ⟨rfl, ht.likened⟩
    · rw [hi, hi']
      cases v with
      | none => exact ⟨rfl, (ht.assign hitem.id none).likened⟩
      | some v =>
        dsimp only
        rcases rel_split (ht.store hitem v) with ⟨hs, hs'⟩ | ⟨_, _, hs, hs', hstored⟩
        · rw [hs, hs']
          exact ⟨rfl, ht.likened⟩
        · rw [hs, hs']
          exact ⟨rfl, hstored.likened⟩
  | add part p v =>
    obtain ⟨hn, hi⟩ := filledItem_twin ht p v
    simp only [Demand.serve, hview]
    rcases (hn.addTo (hcommon part) hi).split_flag with ⟨e, he, he'⟩ | ⟨b, _, _, ho, ho', htwin⟩
    · rw [he, he']
      exact ⟨rfl, hn.likened.weaken .inl⟩
    · rw [ho, ho']
      exact ⟨rfl, htwin.likened.weaken .inl⟩
  | push o =>
    obtain ⟨hb, htwin⟩ := push_twin ht hw hout o
    exact ⟨hb, htwin.likened⟩
  | pushEmpty => exact ⟨rfl, (ht.pushEmpty t.stack).1.likened⟩
  | pop =>
    simp only [Demand.serve, Heap.pop, ht.layers]
    exact ⟨rfl, (ht.setLayers t.stack _).likened⟩
  | giveBack v =>
    simp only [Demand.serve]
    rcases (setReturn_twin ht hout v).split with ⟨e, he, he'⟩ | ⟨_, _, ho, ho', hl⟩
    · rw [he, he']
      exact ⟨rfl, ht.likened⟩
    · rw [ho, ho']
      exact ⟨rfl, hl⟩
  | returned => exact ⟨returnValue_twin ht hout, ht.likened⟩

/-- From demand to demand, a dealing goes the same way in both heaps. -/
theorem run_twin (ht : h.Twin P R h') (hs : h.Secludes ambient σ P) (hout : t.Outside σ P)
    (d : Dealing) : ∃ a', d.run t h' = { d.run t h with heap := a' } ∧
      (d.run t h).heap.Likened P R a' := by
  induction d generalizing R h h' with
  | reply => exact ⟨h', rfl, ht.likened⟩
  | ask q next ih =>
    obtain ⟨hanswer, Q, hQ, htwin⟩ := serve_twin ht hs.toWalled hout q
    have hs' := (hs.moves (serve_moves t h q)).1
    obtain ⟨a', hrun, hl⟩ := ih _ htwin hs'
    refine ⟨a', ?_, hl.weaken hQ⟩
    rw [Dealing.run, hanswer]
    exact hrun

end Thread

section layout
variable {P : Nat → Prop} {R : Nat → Nat → Prop} {h h' : Heap} {σ : StackId}
variable {ambient : Option Group}

theorem Script.fillInputs_twin (s : Script) (ht : h.Twin P R h')
    (pairs : List (ScriptInput × ObjectId)) :
    SameResult (fun p q => ∃ Q : Nat → Nat → Prop, (∀ {k k'}, R k k' → Q k k') ∧
        p.1.Twin P Q q.1 ∧ List.Forall₂ (Item.Twin Q) p.2 q.2)
      (s.fillInputs h pairs) (s.fillInputs h' pairs) := by
  induction pairs generalizing R h h' with
  | nil => exact .ok ⟨R, id, ht, .nil⟩
  | cons e pairs ih =>
    obtain ⟨hn, hi⟩ := ht.newItem (inputProperty e.1)
    simp only [Script.fillInputs]
    rcases rel_split (hn.store hi e.2) with ⟨hs, hs'⟩ | ⟨_, _, hs, hs', hstored⟩
    · rw [hs, hs']
      simp only [hn.object?, hn.registry, hn.typeDisplay]
      exact .error _
    · rw [hs, hs']
      dsimp only
      rcases (ih hstored).split with ⟨e, he, he'⟩ | ⟨_, _, ho, ho', Q, hQ, htwin, hitems⟩
      · rw [he, he']
        exact .error e
      · rw [ho, ho']
        exact .ok ⟨Q, fun hk => hQ (.inl hk), htwin, .cons (hi.imp hQ) hitems⟩

theorem Script.inputMemory_twin (s : Script) (ht : h.Twin P R h') (inputs : List ObjectId) :
    SameResult (fun p q => q.2 = p.2 ∧ p.1.Likened P R q.1)
      (s.inputMemory h inputs) (s.inputMemory h' inputs) := by
  unfold Script.inputMemory
  split
  · exact .error _
  · split
    · exact .error _
    · rcases (s.fillInputs_twin ht (s.inputs.zip inputs)).split with
        ⟨e, he, he'⟩ | ⟨_, _, ho, ho', Q, hQ, htwin, hitems⟩
      · rw [he, he']
        exact .error _
      · rw [ho, ho']
        obtain ⟨hgroup, hid⟩ := htwin.newGroup false hitems
        exact .ok ⟨hid, Q, hQ, hgroup⟩

theorem Thread.layAll_twin (ht : h.Twin P R h') (hw : h.Walled ambient σ P) {ρ : StackId}
    (hρ : ρ ≠ σ) {gs : List Group} (hgs : ∀ g ∈ gs, ∀ n, P n → ¬ h.Within g (.loose n)) :
    (Thread.layAll h' ρ gs).1 = (Thread.layAll h ρ gs).1 ∧
      (Thread.layAll h ρ gs).2.Twin P R (Thread.layAll h' ρ gs).2 := by
  induction gs generalizing h h' with
  | nil => exact ⟨rfl, ht⟩
  | cons g gs ih =>
    have hg := common_view (hgs g List.mem_cons_self)
    have hlayers : ∀ l ∈ h.layers ρ, ∀ x ∈ (h.view l).groups, x.Common P := fun l hl =>
      common_view fun n hn hx => hρ (hw.mine hn (within_stack.mpr ⟨l, hl, hx⟩))
    have hdown : SameResult (Heap.Twin P R) (Thread.layDown h ρ g) (Thread.layDown h' ρ g) := by
      unfold Thread.layDown
      rw [ht.view, ht.contains hg]
      split
      · exact .error _
      · exact ht.pushChecked hlayers hg
    rw [Thread.layAll, Thread.layAll]
    rcases hdown.split with ⟨e, he, he'⟩ | ⟨_, _, ho, ho', htwin⟩
    · rw [he, he']
      exact ⟨rfl, ht⟩
    · rw [ho, ho']
      obtain ⟨_, rfl⟩ := Thread.layDown_ok ho
      have hls : ∀ l ∈ h.layers ρ ++ [g], ∀ n, P n → h.Within l (.loose n) →
          h.Within (.stack ρ) (.loose n) := by
        intro l hl n hn hx
        rcases List.mem_append.mp hl with hl | hl
        · exact within_stack.mpr ⟨l, hl, hx⟩
        · rw [List.mem_singleton.mp hl] at hx
          exact absurd hx (hgs g List.mem_cons_self n hn)
      exact ih htwin (hw.setLayers hls) fun l hl n hn hx =>
        hgs l (List.mem_cons_of_mem g hl) n hn
          (within_loose_setLayers (fun a ha => hls a ha n hn) hx)

theorem Thread.buildStack_twin (ht : h.Twin P R h') (hw : h.Walled ambient σ P) {t : Thread}
    (hambient : t.context.ambient = ambient) (hσ : t.stack ≠ σ) {n : Nat} (hn : ¬ P n)
    (me : ObjectId) : (t.buildStack h' me (.plain (.loose n))).1 =
        (t.buildStack h me (.plain (.loose n))).1 ∧
      (t.buildStack h me (.plain (.loose n))).2.Twin P R
        (t.buildStack h' me (.plain (.loose n))).2 := by
  obtain ⟨hr, htwin⟩ := Thread.layAll_twin ht hw hσ (hw.apart hambient hn me)
  unfold Thread.buildStack
  rw [ht.memory]
  rcases hlay : Thread.layAll h t.stack (t.context.ambient.toList ++
    [h.memory me, .plain (.loose n)]) with ⟨e | _, a⟩
  · rcases hlay' : Thread.layAll h' t.stack (t.context.ambient.toList ++
      [h.memory me, .plain (.loose n)]) with ⟨r, a'⟩
    rw [hlay, hlay'] at hr htwin
    cases hr
    exact ⟨rfl, htwin⟩
  · rcases hlay' : Thread.layAll h' t.stack (t.context.ambient.toList ++
      [h.memory me, .plain (.loose n)]) with ⟨r, a'⟩
    rw [hlay, hlay'] at hr htwin
    cases hr
    obtain ⟨hpushed, hid⟩ := htwin.pushEmpty t.stack
    refine ⟨?_, hpushed⟩
    simp only [hid]

end layout

/-- Heaps that differ in groups which one of them secludes. -/
def Parted (P : Nat → Prop) (R : Nat → Nat → Prop) (ambient : Option Group) (σ : StackId)
    (h h' : Heap) : Prop :=
  h.Secludes ambient σ P ∧ h.Likened P R h'

section
variable {host : Host} {P : Nat → Prop} {R : Nat → Nat → Prop} {σ : StackId} {t : Thread}
variable {me : ObjectId} {ambient : Option Group}

theorem SameResult.parted {x y : Except CommandError Heap} (hr : SameResult (Likened P R) x y)
    (hx : ∀ a, x = .ok a → a.Secludes ambient σ P) : SameResult (Parted P R ambient σ) x y := by
  cases hr with
  | ok hl => exact .ok ⟨hx _ rfl, hl⟩
  | error e => exact .error e

theorem Effect.call_pointer (host : Host) (script : Script) (inputs : List ObjectId) (frame : Frame)
    (s : State) :
    (Effect.call (frame.thread.context.caller host) script inputs frame s).state.pointer =
      s.pointer := by
  unfold Effect.call
  split
  · rfl
  · rfl

/-- The heap that a call leaves is one that it passed through, unless it was refused. -/
theorem Effect.call_heap (host : Host) (script : Script) (inputs : List ObjectId) (frame : Frame)
    (s : State) :
    (Effect.call (frame.thread.context.caller host) script inputs frame s).state.heap = s.heap ∨
      (frame.thread.calling script inputs frame.held).Passes host s.heap
        (Effect.call (frame.thread.context.caller host) script inputs frame s).state.heap := by
  rw [Effect.call_caller]
  by_cases hd : frame.thread.context.depth + 1 ≤ frame.thread.context.config.maxCallDepth
  · rw [Effect.call_via (Script.callIn host) frame hd]
    exact .inr (callIn_passes _ s.toMoment)
  · rw [Effect.call_via_deep (Script.callIn host) frame (Nat.le_of_lt_succ (Nat.lt_of_not_le hd))]
    exact .inl rfl

/-- The threads of a call are laid out alike. -/
theorem Call.build_twin {call : Call} {h b b' : Heap} {g : GroupId}
    (hs : h.Secludes call.context.ambient σ P)
    (hi : call.script.inputMemory h call.inputs = .ok (b, g)) (ht : b.Twin P R b') :
    ((call.thread b'.newStack.2).buildStack b'.newStack.1 call.script.parent (.plain g)).1 =
        ((call.thread b.newStack.2).buildStack b.newStack.1 call.script.parent (.plain g)).1 ∧
      ((call.thread b.newStack.2).buildStack b.newStack.1 call.script.parent (.plain g)).2.Twin P R
        ((call.thread b'.newStack.2).buildStack b'.newStack.1 call.script.parent (.plain g)).2 := by
  obtain ⟨hnew, _, hσ, n, rfl, hn⟩ := hs.ready hi
  obtain ⟨hstack, hid⟩ := ht.newStack
  rw [hid]
  exact Thread.buildStack_twin hstack hnew.toWalled rfl hσ hn call.script.parent

/-- Calls go alike in heaps that differ in secluded groups only. -/
theorem parted_corresponds (hh : host.Confined) : Corresponds (Parted P R ambient σ) host ambient
    fun t => t.Outside σ P ∧ t.context.ambient = ambient where
  read := by
    rintro t h h' ⟨hout, _⟩ ⟨hs, Q, _, ht⟩ path
    rw [Thread.view, Thread.view, ht.view]
    exact (ht.readPath (hout.common hs.toWalled none) path).symm
  readOf := by
    rintro h h' ⟨_, Q, _, ht⟩ o path
    rw [ht.outside]
    exact (ht.readPath (Twin.common_outside h o) path).symm
  carried := by
    rintro h h' ⟨_, Q, _, ht⟩ o
    rw [Script.boundTo, Script.boundTo, ht.object?]
  set := by
    rintro t h h' ⟨hout, rfl⟩ ⟨hs, Q, hQ, ht⟩ path v
    refine ((Thread.setValue_twin ht hs.toWalled hout path v).imp
      fun hl => hl.likened.weaken hQ).parted fun a ha => ?_
    have hact : t.Act host ⟨0⟩ h a := .set ha
    exact hs.acts hh (.single hact)
  add := by
    rintro t h h' ⟨hout, rfl⟩ ⟨hs, Q, hQ, ht⟩ key type
    refine ((Thread.addLocal_twin ht hs.toWalled hout key type).imp
      fun hl => hl.weaken hQ).parted fun a ha => ?_
    have hact : t.Act host ⟨0⟩ h a := .add ha
    exact hs.acts hh (.single hact)
  giveBack := by
    rintro t h h' ⟨hout, rfl⟩ ⟨hs, Q, hQ, ht⟩ v
    refine ((Thread.setReturn_twin ht hout v).imp
      fun hl => hl.weaken hQ).parted fun a ha => ?_
    have hact : t.Act host ⟨0⟩ h a := .giveBack ha
    exact hs.acts hh (.single hact)
  perform := by
    rintro t h h' ⟨hout, rfl⟩ ⟨hs, Q, hQ, ht⟩ op me held now pointer args
    obtain ⟨d, hd⟩ := hh op ⟨me, t, held⟩ now pointer args
    have hr : ∀ a, host.perform op ⟨me, t, held⟩ ⟨⟨a, now⟩, pointer⟩ args = d.run t a := hd
    obtain ⟨a', hrun, hl⟩ := Thread.run_twin ht hs hout d
    rw [hr, hr]
    exact ⟨a', hrun, (hs.moves (Thread.run_moves t d h)).1, hl.weaken hQ⟩
  returned := by
    rintro t h h' ⟨hout, _⟩ ⟨_, Q, _, ht⟩
    exact (Thread.returnValue_twin ht hout).symm
  checked := by
    rintro h h' ⟨_, Q, _, ht⟩ script v
    simp only [checkReturn, ht.isA, ht.object?, ht.registry, ht.typeDisplay]
  lay := by
    rintro call h h' rfl ⟨hs, Q, hQ, ht⟩
    unfold Call.lay
    rcases (call.script.inputMemory_twin ht call.inputs).split with
      ⟨e, hi, hi'⟩ | ⟨⟨b, g⟩, ⟨b', g'⟩, hi, hi', hg, S, hS, hmade⟩
    · rw [hi, hi']
      exact .error e
    · obtain rfl : g' = g := hg
      obtain ⟨hlaid, _, hout⟩ := hs.layout hi
      obtain ⟨hthread, hbuilt⟩ := Call.build_twin hs hi hmade
      rw [hi, hi']
      refine .ok ⟨hthread, ⟨hlaid, S, fun hk => hS (hQ hk), hbuilt⟩, fun t ht => ⟨hout t ht, ?_⟩⟩
      have hstarts : call.Starts h t g' _ := ⟨b, hi, Prod.ext ht rfl⟩
      rw [hstarts.context]

end

/-- The thread calls a script. -/
def Thread.nest (host : Host) (me : ObjectId) (t : Thread) (script : Script)
    (inputs : List ObjectId) (held : List Holder) (k : State) :
    Reply CommandError State (Option ObjectId) :=
  Effect.call (t.context.caller host) script inputs ⟨me, t, held⟩ k

/-- No script is reported to have lost its parent. -/
def Reply.Parented (r : Reply CommandError State (Option ObjectId)) : Prop :=
  Watch.outlived.Clear r.events r.outcome

/-- The pointer of the thread and the layers of its inputs and its locals are the same. -/
structure Thread.Untouched (t : Thread) (g : GroupId) (k u : State) : Prop where
  pointer : u.pointer = k.pointer
  layers : k.heap.SameIn (t.Layer g) u.heap

/-- A thread has started in `h₁` with its inputs in `g`. Wherever it comes to, its next call leaves
its locals alone: in every heap on the way, when the call has ended, and where the thread stands
while the call has not ended. In any other heap that differs in the layers of the thread only, the
call ends alike, with the same events, and leaves heaps that again differ in these layers only, as
long as neither run reports a script that has lost its parent. -/
structure Thread.Isolated (t : Thread) (host : Host) (me : ObjectId) (g : GroupId) (h₁ : Heap) :
    Prop where
  passing : ∀ {h}, t.Acts host me h₁ h → ∀ script inputs held {h'},
    (t.calling script inputs held).Passes host h h' → h.SameIn (t.Layer g) h'
  ended : ∀ {k}, t.Acts host me h₁ k.heap → ∀ script inputs held,
    t.Untouched g k (t.nest host me script inputs held k).state
  awaited : ∀ {k}, t.Acts host me h₁ k.heap → ∀ command held {s u},
    (exec host (t.context.caller host) command).Awaits (t.context.caller host) ⟨me, t, held⟩ s k u →
      t.Untouched g k u
  unseen : ∀ {k}, t.Acts host me h₁ k.heap → ∀ script inputs held {R k'},
    k.heap.Twin (t.Layer g) R k'.heap → k.now = k'.now → k.pointer = k'.pointer →
    (t.nest host me script inputs held k).Parented →
    (t.nest host me script inputs held k').Parented →
      (t.nest host me script inputs held k).EndsAlike (Heap.Likened (t.Layer g) R)
        (t.nest host me script inputs held k')

/-- The call has started on a sound heap. -/
structure Call.Opens (outer : Call) (h₀ : Heap) (t : Thread) (g : GroupId) (h₁ : Heap) : Prop where
  sound : h₀.Sound
  known : ∀ a ∈ outer.context.ambient, h₀.Knows a
  starts : outer.Starts h₀ t g h₁

namespace Call.Opens

variable {host : Host} {outer : Call} {h₀ h₁ h : Heap} {t : Thread} {g : GroupId}

theorem secludes (hh : host.Confined) (ho : outer.Opens h₀ t g h₁)
    (ha : t.Acts host outer.script.parent h₁ h) :
    h.Secludes t.context.ambient t.stack (t.Layer g) :=
  (ho.starts.secludes ho.sound ho.known).acts hh ha

theorem passing (hh : host.Confined) (ho : outer.Opens h₀ t g h₁)
    (ha : t.Acts host outer.script.parent h₁ h) {script : Script} {inputs : List ObjectId}
    {held : List Holder} {h' : Heap} (hp : (t.calling script inputs held).Passes host h h') :
    h.SameIn (t.Layer g) h' := by
  have hsecludes := ho.secludes hh ha
  exact (hp.secludes hh hsecludes).2.sameIn hsecludes

theorem ended (hh : host.Confined) (ho : outer.Opens h₀ t g h₁) {k : State}
    (ha : t.Acts host outer.script.parent h₁ k.heap) (script : Script) (inputs : List ObjectId)
    (held : List Holder) :
    t.Untouched g k (t.nest host outer.script.parent script inputs held k).state := by
  refine ⟨Effect.call_pointer host script inputs ⟨outer.script.parent, t, held⟩ k, ?_⟩
  rcases Effect.call_heap host script inputs ⟨outer.script.parent, t, held⟩ k with hstill | hpass
  · rw [Thread.nest, hstill]
    exact (Heap.Spared.refl k.heap).sameIn (ho.secludes hh ha)
  · exact ho.passing hh ha hpass

theorem unseen (hh : host.Confined) (ho : outer.Opens h₀ t g h₁) {k k' : State}
    (ha : t.Acts host outer.script.parent h₁ k.heap) (script : Script) (inputs : List ObjectId)
    (held : List Holder) {R : Nat → Nat → Prop} (ht : k.heap.Twin (t.Layer g) R k'.heap)
    (hn : k.now = k'.now) (hp : k.pointer = k'.pointer)
    (hl : (t.nest host outer.script.parent script inputs held k).Parented)
    (hr : (t.nest host outer.script.parent script inputs held k').Parented) :
    (t.nest host outer.script.parent script inputs held k).EndsAlike (Heap.Likened (t.Layer g) R)
      (t.nest host outer.script.parent script inputs held k') := by
  have hcall : (Effect.call (t.context.caller host) script inputs).Agree
      (Parted (t.Layer g) R t.context.ambient t.stack) .outlived .outlived outer.script.parent t t
      (Effect.call (t.context.caller host) script inputs) :=
    (parted_corresponds hh).call script inputs
  have hagree := hcall held k k' ⟨⟨ho.secludes hh ha, ht.likened⟩, hn, hp⟩ hl hr
  exact ⟨hagree.outcome, hagree.events, hagree.state.heap.2, hagree.state.now,
    hagree.state.pointer⟩

/-- All but what happens while a call has not ended holds in every context. -/
theorem isolated (hh : host.Confined) (ho : outer.Opens h₀ t g h₁)
    (hw : ∀ {k}, t.Acts host outer.script.parent h₁ k.heap → ∀ command held {s u},
      (exec host (t.context.caller host) command).Awaits (t.context.caller host)
        ⟨outer.script.parent, t, held⟩ s k u → t.Untouched g k u) :
    t.Isolated host outer.script.parent g h₁ where
  passing ha _ _ _ _ hp := ho.passing hh ha hp
  ended := ho.ended hh
  awaited := hw
  unseen ha script inputs held _ _ := ho.unseen hh ha script inputs held

/-- In sequence the thread stands where its call stands. -/
theorem isolated_of_sequence (hh : host.Confined) (ho : outer.Opens h₀ t g h₁)
    (hp : outer.context.config.parallelInputs = false) :
    t.Isolated host outer.script.parent g h₁ := by
  refine ho.isolated hh fun ha command held s u hw => ?_
  obtain ⟨script, inputs, held', _, hu⟩ := hw.call_waiting
  rw [hu (by rw [ho.starts.context]; exact hp)]
  exact ho.ended hh ha script inputs held'

theorem isolated_of_deepest (hh : host.Confined) (ho : outer.Opens h₀ t g h₁)
    (hd : outer.context.config.maxCallDepth ≤ outer.context.depth) :
    t.Isolated host outer.script.parent g h₁ := by
  refine ho.isolated hh fun _ command held s u hw => ?_
  have hl : t.context.levels = 0 := by
    rw [ho.starts.context]
    exact Nat.sub_eq_zero_of_le hd
  rw [Context.caller, hl] at hw
  exact (Effect.not_awaits_of_deepest hw).elim

theorem isolated_of_prompt (hh : host.Confined) (hp : host.Prompt) (ho : outer.Opens h₀ t g h₁) :
    t.Isolated host outer.script.parent g h₁ :=
  ho.isolated hh fun _ _ _ _ _ hw => (Effect.not_awaits_of_prompt hp _ hw).elim

end Call.Opens

namespace Stalling

/-! Of two inputs side by side the first calls a script that never ends, and the second returns. -/

def stall : Command := .native {} { name := "stall" } []

def nested : Command := .script {} (.value {} ⟨1⟩) []

def early : Command := .ret {} (some (.value {} ⟨2⟩))

def both : Command := .native {} { name := "echo" } [nested, early]

def heap : Heap := Sample.heap [stall]

def outer (config : Config) (depth : Nat) : Call :=
  Sample.call { config := config, depth := depth } {} [both]

def ready : Heap :=
  ((heap.newGroup false []).1.newStack.1.setLayers ⟨0⟩
    [heap.memory ⟨0⟩, .plain (.loose 0)]).pushEmpty ⟨0⟩ |>.1

def thread (config : Config) (depth : Nat) : Thread :=
  { (outer config depth).thread ⟨0⟩ with scratch := some (.loose 1) }

def frame (config : Config) (depth : Nat) : Frame := ⟨⟨0⟩, thread config depth, [.object ⟨0⟩]⟩

def start : State := ⟨⟨ready, 0⟩, .start 1⟩

theorem outer_opens (config : Config) (depth : Nat) :
    (outer config depth).Opens heap (thread config depth) (.loose 0) ready where
  sound := sound_of_bare rfl rfl
  known := by rintro a ⟨⟩
  starts := ⟨(heap.newGroup false []).1, by cbv, by cbv⟩

def caller (levels : Nat) : Option Caller := some (callAt Host.standard levels)

/-- Where the thread stands while its first input waits. -/
def halted (config : Config) (depth levels : Nat) : State :=
  (Effect.inParallelFrom 0 (execEach Host.standard (caller levels) [nested, early])
    (frame config depth) start).state

theorem waits {config : Config} (hp : config.parallelInputs = true) (depth levels : Nat) :
    (Effect.call (caller levels) (Sample.carried [stall]) []
      { frame config depth with held := [.object ⟨1⟩, .commands [stall], .object ⟨0⟩] }
      start).outcome = .waiting := by
  obtain ⟨limit, parallel, timeout, grant⟩ := config
  cases hp
  cases levels <;> cbv

/-- The target and the empty inputs of the call are evaluated before it is made. -/
theorem awaits {config : Config} (hp : config.parallelInputs = true) (depth levels : Nat) :
    (exec Host.standard (caller levels) both).Awaits (caller levels) (frame config depth) start
      start (halted config depth levels) := by
  obtain ⟨limit, parallel, timeout, grant⟩ := config
  cases hp
  have hcall : (exec Host.standard (caller levels) nested).Awaits (caller levels)
      (frame ⟨limit, true, timeout, grant⟩ depth) start start _ :=
    .next rfl (.next rfl (.next rfl (.next rfl (.holding (.next rfl (.next rfl
      (.call (waits rfl depth levels))))))))
  exact .next rfl (.first (.parallel rfl (.beside rfl hcall)))

theorem halted_status {config : Config} (hp : config.parallelInputs = true) (depth levels : Nat) :
    (halted config depth levels).pointer.status = .returned := by
  obtain ⟨limit, parallel, timeout, grant⟩ := config
  cases hp
  cases levels <;> cbv

/-- The call has not ended, and its caller has returned. -/
theorem not_isolated {config : Config} {depth : Nat} (hp : config.parallelInputs = true)
    (hd : depth < config.maxCallDepth) :
    ¬ (thread config depth).Isolated Host.standard ⟨0⟩ (.loose 0) ready := by
  intro hi
  obtain ⟨levels, hl⟩ : ∃ levels, config.maxCallDepth - depth = levels + 1 :=
    ⟨config.maxCallDepth - depth - 1, by omega⟩
  have hc : (thread config depth).context.caller Host.standard = caller levels := by
    have hlevels : (thread config depth).context.levels = levels + 1 := hl
    rw [Context.caller, hlevels, caller]
  have hu := hi.awaited (k := start) .refl both [.object ⟨0⟩] (hc ▸ awaits hp depth levels)
  have hstatus := halted_status hp depth levels
  rw [hu.pointer] at hstatus
  cases hstatus

end Stalling

namespace Draft

/-! A thread has an input and a local, and calls a script on its own object. The script looks for
the input of its caller, uses a local of the same name, and changes the ambient memo. -/

def paper : ScriptInput := ⟨"paper", ⟨0⟩⟩

def draft : Property := ⟨"draft", ⟨0⟩, { isScoped := true }⟩

def outer : Call where
  script :=
    { name := ⟨["Write"], by decide, by decide⟩, inputs := [paper], parent := ⟨0⟩, commands := [] }
  context := { ambient := some Vault.ambient, config := { parallelInputs := false } }
  inputs := [⟨1⟩]
  grant := {}
  held := [.object ⟨0⟩]

def fed : Heap :=
  (((Vault.heap.newItem (Script.inputProperty paper)).1.assign (.loose 1) (some ⟨1⟩)).newGroup false
    [⟨.loose 1, Script.inputProperty paper⟩]).1

/-- The thread is laid out and has no local yet. -/
def ready : Heap :=
  ((fed.newStack.1.setLayers ⟨0⟩
    [Vault.ambient, fed.memory ⟨0⟩, .plain (.loose 1)]).pushEmpty ⟨0⟩).1

def thread : Thread := { outer.thread ⟨0⟩ with scratch := some (.loose 2) }

def added : Heap := (ready.newItem draft).1.insertItem 2 ⟨.loose 2, draft⟩

def drafted : Heap := added.assign (.loose 2) (some ⟨0⟩)

def script : Script where
  name := ⟨["Copy"], by decide, by decide⟩
  inputs := [⟨"source", ⟨0⟩⟩]
  parent := ⟨0⟩
  commands := [.add {} "draft" ⟨0⟩, .set {} "draft" (.get {} "source"),
    .attempt {} (.get {} "paper") (.set {} "memo" (.get {} "draft")),
    .ret {} (some (.get {} "memo"))]

def stage (h : Heap) : State := ⟨⟨h, 0⟩, .start 0⟩

def run (h : Heap) : Reply CommandError State (Option ObjectId) :=
  thread.nest Host.standard ⟨0⟩ script [⟨1⟩] [.object ⟨0⟩] (stage h)

theorem outer_opens : outer.Opens Vault.heap thread (.loose 1) ready where
  sound := Vault.heap_sound
  known := by
    rintro a ⟨⟩
    exact Vault.heap_knows
  starts := ⟨fed, by cbv, by cbv⟩

theorem thread_acts : thread.Acts Host.standard ⟨0⟩ ready drafted := by
  have hadd : thread.addLocal ready "draft" ⟨0⟩ = .ok added := by cbv
  have hset : thread.setValue added "draft" ⟨0⟩ = .ok drafted := by cbv
  exact (ReflTransGen.single (.add hadd)).tail (.set hset)

/-- The heaps differ in the layers of the thread only; outside these there is one cell, the memo. -/
theorem drafted_twin :
    drafted.Twin (thread.Layer (.loose 1)) (fun k k' => k = 0 ∧ k' = 0) ready := by
  refine ⟨rfl, rfl, rfl, rfl, rfl, ?_, ?_, ?_, ?_⟩
  · intro n hn
    match n with
    | 0 => exact .some ⟨rfl, .cons ⟨rfl, .loose ⟨rfl, rfl⟩⟩ .nil⟩
    | 1 => exact (hn (.inl rfl)).elim
    | 2 => exact (hn (.inr rfl)).elim
    | n + 3 => exact .none
  · rintro k k' ⟨rfl, rfl⟩
    exact ⟨_, rfl, rfl⟩
  · rintro k k' j' ⟨_, rfl⟩ ⟨_, rfl⟩
    rfl
  · rintro k j k' ⟨rfl, _⟩ ⟨rfl, _⟩
    rfl

theorem parented_of_done {h : Heap} (ho : (run h).outcome = .done (some ⟨1⟩))
    (he : ((run h).events.all fun e => !e.event.tellsOutlived) = true) : (run h).Parented :=
  Watch.outlived_of_done ho he

theorem drafted_outcome : (run drafted).outcome = .done (some ⟨1⟩) := by cbv

theorem ready_outcome : (run ready).outcome = .done (some ⟨1⟩) := by cbv

end Draft

/-- In a context every thread is isolated from its calls exactly when inputs are evaluated in
sequence or no further call is allowed. With a host that answers at once it is isolated in every
context. -/
theorem calls_isolated_iff_in_sequence (config : Config) (depth : Nat) :
    ((∀ host outer h₀ t g h₁, host.Confined → Call.Opens outer h₀ t g h₁ →
        outer.context.config = config → outer.context.depth = depth →
          t.Isolated host outer.script.parent g h₁) ↔
      config.parallelInputs = false ∨ config.maxCallDepth ≤ depth) ∧
    ∀ host outer h₀ t g h₁, host.Confined → host.Prompt → Call.Opens outer h₀ t g h₁ →
      outer.context.config = config → outer.context.depth = depth →
        t.Isolated host outer.script.parent g h₁ := by
  refine ⟨⟨fun h => ?_, ?_⟩, ?_⟩
  · cases hp : config.parallelInputs with
    | false => exact .inl rfl
    | true =>
      exact .inr (Nat.le_of_not_lt fun hd => Stalling.not_isolated hp hd
        (h _ _ _ _ _ _ Host.standard_confined (Stalling.outer_opens config depth) rfl rfl))
  · rintro h host outer h₀ t g h₁ hh ho rfl rfl
    rcases h with hp | hd
    · exact ho.isolated_of_sequence hh hp
    · exact ho.isolated_of_deepest hh hd
  · intro host outer h₀ t g h₁ hh hp ho _ _
    exact ho.isolated_of_prompt hh hp

/-- In sequence, the script has changed the memo, and the caller's local of the same name as its own
is as it was. Without this local the call goes alike. Side by side with a call that stalls, its
caller returns. -/
theorem draft_untouched_and_unseen :
    (Draft.run Draft.drafted).outcome = .done (some ⟨1⟩) ∧
    (Draft.run Draft.drafted).state.heap.value? (.loose 0) = some ⟨1⟩ ∧
    (Draft.run Draft.drafted).state.heap.value? (.loose 2) = some ⟨0⟩ ∧
    (Draft.run Draft.drafted).state.pointer = .start 0 ∧
    (Draft.run Draft.drafted).EndsAlike
      (Heap.Likened (Draft.thread.Layer (.loose 1)) fun k k' => k = 0 ∧ k' = 0)
      (Draft.run Draft.ready) ∧
    (Stalling.halted {} 0 63).pointer.status = .returned := by
  obtain ⟨hiff, _⟩ := calls_isolated_iff_in_sequence { parallelInputs := false } 0
  have hi := hiff.mpr (.inl rfl) Host.standard Draft.outer Vault.heap Draft.thread (.loose 1)
    Draft.ready Host.standard_confined Draft.outer_opens rfl rfl
  have hended := hi.ended (k := Draft.stage Draft.drafted) Draft.thread_acts Draft.script [⟨1⟩]
    [.object ⟨0⟩]
  refine ⟨Draft.drafted_outcome, by cbv, ?_, hended.pointer, ?_, Stalling.halted_status rfl 0 63⟩
  · obtain ⟨_, _, hvalue⟩ := hended.layers 2 (.inr rfl) "draft"
    exact hvalue ⟨.loose 2, Draft.draft⟩ (by cbv)
  · exact hi.unseen (k := Draft.stage Draft.drafted) Draft.thread_acts Draft.script [⟨1⟩]
      [.object ⟨0⟩] Draft.drafted_twin rfl rfl
      (Draft.parented_of_done Draft.drafted_outcome (by cbv))
      (Draft.parented_of_done Draft.ready_outcome (by cbv))

end GuardedScript
