import GuardedScript.Proofs.Coherence
import GuardedScript.Proofs.Unreadable

/-!
Host values have the kind that is declared for them. A slot checks a value when it is set, and the
value and its declared kind once more when it is asked for. Whatever is asked of a slot, the second
check never fails: a slot answers with the value that was set last, and refuses only by what is
declared. All that can happen to the slot of an object is such calls, so this holds of every object
of a heap that comes about, and tells which objects carry a script.
-/

namespace GuardedScript

open Relation

namespace HostSlot

inductive Call (τ ν : Type) where
  | set (v : ν)
  | get (requested : τ)

section calls
variable {τ ν : Type} [DecidableEq τ] (kind : ν → τ)

/-- The slot after a call. -/
def next (s : HostSlot τ ν) : Call τ ν → HostSlot τ ν
  | .set v => (s.put kind v).2
  | .get _ => s

/-- The slot after calls, one after another. -/
def after (s : HostSlot τ ν) (calls : List (Call τ ν)) : HostSlot τ ν := calls.foldl (next kind) s

/-- The values that were set and not refused, in the order of the calls. -/
def accepted (s : HostSlot τ ν) : List (Call τ ν) → List ν
  | [] => []
  | .get _ :: calls => accepted s calls
  | .set v :: calls =>
    match s.put kind v with
    | (.error _, s) => accepted s calls
    | (.ok (), s) => v :: accepted s calls

/-- The value that was set last, or the one from before the calls if none was. -/
def last (s : HostSlot τ ν) (calls : List (Call τ ν)) : Option ν :=
  (s.accepted kind calls).getLast?.or s.held

/-- A value that is held has the declared kind. -/
def Typed (s : HostSlot τ ν) : Prop := ∀ v, s.held = some v → s.declared = some (kind v)

end calls

/-- What is answered about a value `last`, where `declared` is declared for it. -/
structure Answers {τ ν ε : Type} (kind : ν → τ) (declared : Option τ) (last : Option ν)
    (undeclared : ε) (mismatch : τ → τ → ε) (get : τ → Except ε (Option ν)) : Prop where
  typed : ∀ v, last = some v → declared = some (kind v)
  undeclared_iff : ∀ t, get t = .error undeclared ↔ declared = none
  mismatch_iff : ∀ t t' d, get t = .error (mismatch t' d) ↔ t' = t ∧ declared = some d ∧ d ≠ t
  value_iff : ∀ t r, get t = .ok r ↔ declared = some t ∧ r = last

/-- A slot that holds `last`, of the kind `declared`, and answers accordingly. -/
structure Faithful {τ ν : Type} [DecidableEq τ] (kind : ν → τ) (s : HostSlot τ ν)
    (declared : Option τ) (last : Option ν) : Prop where
  held : s.held = last
  -- a value that is held is of the kind asked for as soon as this kind is the declared one
  kind_eq : ∀ t d v, s.check t = .ok d → s.held = some v → kind v = t
  answers : Answers kind declared last .undeclared .mismatch (s.get kind)
  -- a value is refused as a request for its kind is
  put_error_iff : ∀ v e, (s.put kind v).1 = .error e ↔ s.get kind (kind v) = .error e
  put_error : ∀ v e, (s.put kind v).1 = .error e → (s.put kind v).2 = s

section kinds
variable {τ ν : Type} {kind : ν → τ}

theorem typed_empty (k : ν → τ) (declared : Option τ) : Typed k ⟨declared, none⟩ := by
  rintro v ⟨⟩

/-- The same answers under other names of the refusals. -/
theorem Answers.rename {ε ε' : Type} {declared : Option τ} {last : Option ν} {undeclared : ε}
    {mismatch : τ → τ → ε} {get : τ → Except ε (Option ν)}
    (ha : Answers kind declared last undeclared mismatch get) {f : ε → ε'}
    (hf : ∀ a b, f a = f b → a = b) :
    Answers kind declared last (f undeclared) (fun t d => f (mismatch t d))
      fun t => (get t).mapError f := by
  have herror : ∀ t e, (get t).mapError f = .error (f e) ↔ get t = .error e := by
    intro t e
    cases get t with
    | ok r => simp [Except.mapError]
    | error e' => simpa [Except.mapError] using ⟨hf e' e, congrArg f⟩
  refine ⟨ha.typed, fun t => ?_, fun t t' d => ?_, fun t r => ?_⟩
  · rw [herror]
    exact ha.undeclared_iff t
  · rw [herror]
    exact ha.mismatch_iff t t' d
  · rw [← ha.value_iff t r]
    cases get t <;> simp [Except.mapError]

end kinds

section laws
variable {τ ν : Type} [DecidableEq τ] {kind : ν → τ} {s : HostSlot τ ν}

theorem check_cases (s : HostSlot τ ν) (t : τ) :
    s.declared = none ∧ s.check t = .error .undeclared ∨
    s.declared = some t ∧ s.check t = .ok t ∨
    ∃ d, d ≠ t ∧ s.declared = some d ∧ s.check t = .error (.mismatch t d) := by
  unfold check
  cases s.declared with
  | none => exact .inl ⟨rfl, rfl⟩
  | some d =>
    right
    by_cases hd : d = t
    · rw [hd]
      exact .inl ⟨rfl, if_pos rfl⟩
    · exact .inr ⟨d, hd, rfl, if_neg hd⟩

theorem declared_of_check {t d : τ} (hc : s.check t = .ok d) : s.declared = some t := by
  rcases s.check_cases t with ⟨_, hc'⟩ | ⟨hd, _⟩ | ⟨_, _, _, hc'⟩
  · cases hc.symm.trans hc'
  · exact hd
  · cases hc.symm.trans hc'

theorem Typed.kind_eq (hs : s.Typed kind) {t d : τ} {v : ν} (hc : s.check t = .ok d)
    (hv : s.held = some v) : kind v = t := by
  exact Option.some.inj ((hs v hv).symm.trans (declared_of_check hc))

/-- In a typed slot the kind of the value need not be looked at: what is declared decides. -/
theorem Typed.get_eq (hs : s.Typed kind) (t : τ) :
    s.get kind t = (s.check t).map fun _ => s.held := by
  unfold get
  cases hc : s.check t with
  | error e => rfl
  | ok d =>
    cases hv : s.held with
    | none => rfl
    | some v => exact if_pos (hs.kind_eq hc hv)

theorem Typed.get_cases (hs : s.Typed kind) (t : τ) :
    s.declared = none ∧ s.get kind t = .error .undeclared ∨
    s.declared = some t ∧ s.get kind t = .ok s.held ∨
    ∃ d, d ≠ t ∧ s.declared = some d ∧ s.get kind t = .error (.mismatch t d) := by
  rw [hs.get_eq]
  rcases s.check_cases t with ⟨hd, hc⟩ | ⟨hd, hc⟩ | ⟨d, hne, hd, hc⟩
  · exact .inl ⟨hd, by rw [hc]; rfl⟩
  · exact .inr (.inl ⟨hd, by rw [hc]; rfl⟩)
  · exact .inr (.inr ⟨d, hne, hd, by rw [hc]; rfl⟩)

/-- A call leaves what is declared, and leaves the value or puts one of the declared kind there. -/
theorem next_cases (s : HostSlot τ ν) (k : ν → τ) (call : Call τ ν) :
    s.next k call = s ∨
      ∃ v, s.declared = some (k v) ∧ s.next k call = { s with held := some v } := by
  cases call with
  | get t => exact .inl rfl
  | set v =>
    rw [next]
    rcases s.put_cases k v with ⟨e, _, hp⟩ | ⟨⟨d, hc⟩, hp⟩
    · exact .inl (by rw [hp])
    · exact .inr ⟨v, declared_of_check hc, by rw [hp]⟩

theorem declared_next (s : HostSlot τ ν) (call : Call τ ν) :
    (s.next kind call).declared = s.declared := by
  rcases s.next_cases kind call with hn | ⟨v, _, hn⟩ <;> rw [hn]

theorem Typed.next (hs : s.Typed kind) (call : Call τ ν) : (s.next kind call).Typed kind := by
  rcases s.next_cases kind call with hn | ⟨v, hd, hn⟩
  · rw [hn]
    exact hs
  · rw [hn]
    intro w hw
    rw [← Option.some.inj hw]
    exact hd

theorem after_cons (s : HostSlot τ ν) (call : Call τ ν) (calls : List (Call τ ν)) :
    s.after kind (call :: calls) = (s.next kind call).after kind calls := rfl

theorem after_append (s : HostSlot τ ν) (calls more : List (Call τ ν)) :
    s.after kind (calls ++ more) = (s.after kind calls).after kind more :=
  List.foldl_append

theorem declared_after (s : HostSlot τ ν) (calls : List (Call τ ν)) :
    (s.after kind calls).declared = s.declared := by
  induction calls generalizing s with
  | nil => rfl
  | cons call calls ih => rw [after_cons, ih, declared_next]

theorem Typed.after (hs : s.Typed kind) (calls : List (Call τ ν)) :
    (s.after kind calls).Typed kind := by
  induction calls generalizing s with
  | nil => exact hs
  | cons call calls ih =>
    rw [after_cons]
    exact ih (hs.next call)

/-- What a slot holds after calls is the value that was set last. -/
theorem held_after (s : HostSlot τ ν) (calls : List (Call τ ν)) :
    (s.after kind calls).held = s.last kind calls := by
  induction calls generalizing s with
  | nil => rfl
  | cons call calls ih =>
    rw [after_cons, ih]
    cases call with
    | get t => rfl
    | set v =>
      rcases s.put_cases kind v with ⟨e, _, hp⟩ | ⟨_, hp⟩
      · rw [next, last, last, accepted, hp]
      · rw [next, last, last, accepted, hp, List.getLast?_cons]
        -- The new value counts as long as none of the later calls sets another.
        cases (accepted kind _ calls).getLast? <;> rfl

theorem Typed.answers (hs : s.Typed kind) :
    Answers kind s.declared s.held .undeclared .mismatch (s.get kind) := by
  refine ⟨hs, fun t => ?_, fun t t' d => ?_, fun t r => ?_⟩
  all_goals
    rcases hs.get_cases t with ⟨hd, hg⟩ | ⟨hd, hg⟩ | ⟨d', hne, hd, hg⟩
    all_goals
      rw [hg, hd]
      grind

theorem Typed.faithful (hs : s.Typed kind) : s.Faithful kind s.declared s.held where
  held := rfl
  kind_eq _ _ _ hc hv := hs.kind_eq hc hv
  answers := hs.answers
  put_error_iff v e := by
    rw [hs.get_eq]
    rcases s.put_cases kind v with ⟨e', hc, hp⟩ | ⟨⟨d, hc⟩, hp⟩ <;> simp [hp, hc, Except.map]
  put_error v e he := by
    rcases s.put_cases kind v with ⟨_, _, hp⟩ | ⟨_, hp⟩
    · rw [hp]
    · rw [hp] at he
      cases he

theorem faithful_after (kind : ν → τ) (declared : Option τ) (calls : List (Call τ ν)) :
    Faithful kind (after kind ⟨declared, none⟩ calls) declared
      (accepted kind ⟨declared, none⟩ calls).getLast? := by
  have hfaithful := ((typed_empty kind declared).after calls).faithful
  rwa [declared_after, held_after, last, Option.or_none] at hfaithful

end laws

end HostSlot

theorem Object.refusal_inj (x : Object) (a b : HostSlot.Refusal HostType)
    (hab : x.refusal a = x.refusal b) : a = b := by
  cases a <;> cases b <;> cases hab <;> rfl

theorem Object.slot_after (x : Object) (calls : List (HostSlot.Call HostType HostValue)) :
    ({ x with bound := (x.slot.after HostValue.type calls).held } : Object).slot =
      x.slot.after HostValue.type calls :=
  congrArg (fun d => (⟨d, _⟩ : HostSlot HostType HostValue)) (x.slot.declared_after calls).symm

theorem Object.getBound_answers {x : Object} (hx : x.slot.Typed HostValue.type) :
    HostSlot.Answers HostValue.type x.binding x.bound (.notBindable x.typeName)
      (.mismatch x.typeName) x.getBound :=
  hx.answers.rename x.refusal_inj

theorem Object.putBound_error_iff {x : Object} (hx : x.slot.Typed HostValue.type) (v : HostValue)
    (e : BindingError) : (x.putBound v).1 = .error e ↔ x.getBound v.type = .error e := by
  rw [Object.getBound, hx.get_eq]
  rcases x.putBound_cases v with ⟨e', hc, hp⟩ | ⟨⟨d, hc⟩, hp⟩ <;>
    rw [hp, hc] <;> simp [Except.map, Except.mapError]

namespace Heap

/-- The heap after a call on the slot of an object. -/
def hostCall (h : Heap) (o : ObjectId) : HostSlot.Call HostType HostValue → Heap
  | .set v => (h.putBound o v).2
  | .get _ => h

/-- The heap after calls on the slots of objects, one after another. -/
def hostCalls (h : Heap) (calls : List (ObjectId × HostSlot.Call HostType HostValue)) : Heap :=
  calls.foldl (fun h c => h.hostCall c.1 c.2) h

/-- The calls on the slot of one object. -/
def callsOn (o : ObjectId) (calls : List (ObjectId × HostSlot.Call HostType HostValue)) :
    List (HostSlot.Call HostType HostValue) :=
  calls.filterMap fun c => if c.1 = o then some c.2 else none

section hostCalls
variable {h h' : Heap} {o : ObjectId} {x : Object}

theorem putBound_error_iff (hx : h.object? o = some x) (v : HostValue) (e : BindingError) :
    (h.putBound o v).1 = .error e ↔ (x.putBound v).1 = .error e := by
  rw [putBound, hx]

/-- A value that is refused leaves the heap as it was. -/
theorem putBound_error {v : HostValue} {e : BindingError} (he : (h.putBound o v).1 = .error e) :
    (h.putBound o v).2 = h := by
  rcases h.putBound_cases o v with ⟨_, hp⟩ | ⟨_, _, _, _, hp⟩ | ⟨_, _, _, hp⟩
  · rw [hp]
  · rw [hp]
  · rw [hp] at he
    cases he

/-- A call on a slot changes this slot as the call does, and no other object. -/
theorem object?_hostCall (h : Heap) (o a : ObjectId) (call : HostSlot.Call HostType HostValue) :
    (h.hostCall a call).object? o = if a = o then
      (h.object? o).map fun x => { x with bound := (x.slot.next HostValue.type call).held }
    else h.object? o := by
  have hindex : a.index = o.index ↔ a = o := by
    cases a
    cases o
    simp
  cases call with
  | get t =>
    split
    · cases hx : h.object? o <;> exact hx
    · rfl
  | set v =>
    rw [hostCall, putBound]
    cases hx : h.object? a with
    | none =>
      by_cases hao : a = o
      · subst hao
        rw [if_pos rfl, hx]
        rfl
      · rw [if_neg hao]
    | some x =>
      dsimp only
      rw [object?, Table.get?_modify]
      by_cases hao : a = o
      · subst hao
        rw [if_pos rfl, if_pos rfl, ← object?, hx]
        rfl
      · rw [if_neg (hindex.not.mpr hao), if_neg hao]
        rfl

/-- Calls on slots change the slot of an object as those on it do. -/
theorem object?_hostCalls (calls : List (ObjectId × HostSlot.Call HostType HostValue))
    (hx : h.object? o = some x) : (h.hostCalls calls).object? o =
      some { x with bound := (x.slot.after HostValue.type (callsOn o calls)).held } := by
  induction calls generalizing h x with
  | nil => exact hx
  | cons c calls ih =>
    obtain ⟨a, call⟩ := c
    have hnext := object?_hostCall h o a call
    by_cases hao : a = o
    · rw [if_pos hao, hx, Option.map_some] at hnext
      have hslot : ({ x with bound := (x.slot.next HostValue.type call).held } : Object).slot =
          x.slot.next HostValue.type call := x.slot_after [call]
      have hcalls : callsOn o ((a, call) :: calls) = call :: callsOn o calls :=
        List.filterMap_cons_some (if_pos hao)
      have hrest := ih hnext
      rw [hslot] at hrest
      rw [hcalls]
      exact hrest
    · rw [if_neg hao, hx] at hnext
      have hcalls : callsOn o ((a, call) :: calls) = callsOn o calls :=
        List.filterMap_cons_none (if_neg hao)
      rw [hcalls]
      exact ih hnext

end hostCalls

section steps
variable {h h' : Heap}

/-- A step makes an object, sets a host value, or leaves all of the objects but their items. -/
theorem Step.objects_cases (hs : h.Step h') :
    (∃ r t o, h.newObject r t = .ok (h', o)) ∨ (∃ o v, h.setBound o v = .ok h') ∨
    ∀ o, (h'.object? o).map Object.bare = (h.object? o).map Object.bare := by
  have hassign : ∀ id v o,
      ((h.assign id v).object? o).map Object.bare = (h.object? o).map Object.bare := by
    intro id v o
    rw [← object?_outline, outline_assign, object?_outline]
  cases hs with
  | newObject hn => exact .inl ⟨_, _, _, hn⟩
  | setBound hb => exact .inr (.inl ⟨_, _, hb⟩)
  | newRegistry | define | newItem | newGroup | newStack | pushEmpty | pop =>
    exact .inr (.inr fun _ => rfl)
  | clear id => exact .inr (.inr (hassign id none))
  | store hi hs =>
    unfold Heap.store at hs
    split at hs <;> cases hs
    exact .inr (.inr (hassign _ _))
  | set hs =>
    rcases setIn_cases hs with ⟨_, rfl⟩ | ⟨_, i, _, _, rfl⟩
    · exact .inr (.inr fun _ => rfl)
    · exact .inr (.inr (hassign _ _))
  | setPath hs =>
    rcases setPath_assigns hs with rfl | ⟨id, rfl⟩
    · exact .inr (.inr fun _ => rfl)
    · exact .inr (.inr (hassign _ _))
  | @add view i b _ hi ha =>
    have hoffer := granted_eq_ok.mp ha
    rcases offer_cases h view i with hadd | ⟨hadd, _⟩ | ⟨m, hadd, _⟩
    all_goals cases hoffer.symm.trans hadd
    · exact .inr (.inr fun _ => rfl)
    · exact .inr (.inr fun _ => rfl)
  | @push σ g hg hf =>
    rcases push_cases h σ g with ⟨_, _, hpush⟩ | ⟨keys, _, _, _, hpush⟩
    all_goals
      rw [hpush]
      exact .inr (.inr fun _ => rfl)
  | @pushChecked σ g _ hg hf hp =>
    rcases push_cases h σ g with ⟨_, hpush, _⟩ | ⟨keys, _, _, hpush, _⟩
    all_goals
      rw [hpush] at hp
      cases hp
    exact .inr (.inr fun _ => rfl)

theorem object?_newObject {r : RegistryId} {t : TypeRef} {o : ObjectId}
    (hn : h.newObject r t = .ok (h', o)) : ∃ x, h'.object? o = some x ∧ x.bound = none := by
  obtain ⟨rfl, name, c, _, rfl⟩ := newObject_cases hn
  exact ⟨_, Table.get?_push_size _ _, rfl⟩

/-- After a step an object is one from before, with calls made on its slot, or it is new: then its
type is concrete, its slot is as the type declares it, and nothing is held yet. -/
theorem Step.slot_cases (hs : h.Step h') {o : ObjectId} {y : Object}
    (hy : h'.object? o = some y) :
    (∃ x calls, h.object? o = some x ∧ y.registry = x.registry ∧ y.type = x.type ∧
      y.slot = x.slot.after HostValue.type calls) ∨
    ∃ c, (h.registry y.registry).definition? y.type = some (.concrete c) ∧
      y.slot = ⟨c.binding, none⟩ := by
  rcases hs.objects_cases with ⟨r, t, o', hn⟩ | ⟨o', v, hb⟩ | hsame
  · obtain ⟨_, name, c, hc, rfl⟩ := newObject_cases hn
    rw [object?, Table.get?_push] at hy
    split at hy
    · cases hy
      exact .inr ⟨c, hc, rfl⟩
    · exact .inl ⟨y, [], hy, rfl, rfl, rfl⟩
  · have hcall : h.hostCall o' (.set v) = h' := congrArg Prod.snd (setBound_eq_ok.mp hb)
    rw [← hcall, object?_hostCall] at hy
    split at hy
    · obtain ⟨x, hx, rfl⟩ := Option.map_eq_some_iff.mp hy
      exact .inl ⟨x, [.set v], hx, rfl, rfl, x.slot_after [.set v]⟩
    · exact .inl ⟨y, [], hy, rfl, rfl, rfl⟩
  · have hbare := hsame o
    rw [hy, Option.map_some] at hbare
    obtain ⟨x, hx, hxy⟩ := Option.map_eq_some_iff.mp hbare.symm
    have hfields : x.registry = y.registry ∧ x.type = y.type ∧ x.slot = y.slot :=
      ⟨congrArg (fun z => z.registry) hxy, congrArg (fun z => z.type) hxy,
        congrArg (fun z => z.slot) hxy⟩
    exact .inl ⟨x, [], hx, hfields.1.symm, hfields.2.1.symm, hfields.2.2.symm⟩

/-- The slot of every object is what calls have made of a new slot of the object's type. -/
def SlotsDeclared (h : Heap) : Prop :=
  ∀ o x, h.object? o = some x →
    ∃ c calls, (h.registry x.registry).definition? x.type = some (.concrete c) ∧
      x.slot = HostSlot.after HostValue.type ⟨c.binding, none⟩ calls

/-- So an object has its slot from its type, and the value in it is of the declared kind. -/
theorem SlotsDeclared.typed (hd : h.SlotsDeclared) {o : ObjectId} {x : Object}
    (hx : h.object? o = some x) : x.slot.Typed HostValue.type ∧
      ∃ c, (h.registry x.registry).definition? x.type = some (.concrete c) ∧
        c.binding = x.binding := by
  obtain ⟨c, calls, hc, hslot⟩ := hd o x hx
  have hdeclared := congrArg HostSlot.declared hslot
  rw [HostSlot.declared_after] at hdeclared
  refine ⟨?_, c, hc, hdeclared.symm⟩
  rw [hslot]
  exact (HostSlot.typed_empty HostValue.type c.binding).after calls

theorem Step.slotsDeclared (hs : h.Step h') (hp : h.Proper) (hd : h.SlotsDeclared) :
    h'.SlotsDeclared := by
  have hfinal : ∀ r t d, (h.registry r).definition? t = some d →
      (h'.registry r).definition? t = some d := by
    intro r t d hdef
    have hkept : h'.Proper ∧ (h'.registry r).definition? t = some d :=
      Steps.keep (P := fun k => k.Proper ∧ (k.registry r).definition? t = some d)
        (fun he hk => ⟨hk.1.evolve he, he.definition? hk.1 hk.2⟩) (.single hs) ⟨hp, hdef⟩
    exact hkept.2
  intro o y hy
  rcases hs.slot_cases hy with ⟨x, more, hx, hr, ht, hslot⟩ | ⟨c, hc, hslot⟩
  · obtain ⟨c, calls, hc, hxslot⟩ := hd o x hx
    refine ⟨c, calls ++ more, ?_, ?_⟩
    · rw [hr, ht]
      exact hfinal _ _ _ hc
    · rw [hslot, hxslot, HostSlot.after_append]
  · exact ⟨c, [], hfinal _ _ _ hc, hslot⟩

theorem Steps.slotsDeclared (hs : h.Steps h') (hp : h.Proper) (hd : h.SlotsDeclared) :
    h'.SlotsDeclared := by
  induction hs with
  | refl => exact hd
  | tail hsteps hstep ih => exact hstep.slotsDeclared (Steps.proper hsteps hp) ih

theorem Reached.slotsDeclared {host : Host} (hh : host.Stepwise) (hr : Heap.Reached host h) :
    h.SlotsDeclared := by
  induction hr with
  | refl => rintro o x ⟨⟩
  | tail hreached hc ih =>
    have hp := Heap.Reached.proper hh hreached
    exact Steps.slotsDeclared (hc.steps hh hp) hp ih

end steps

end Heap

/-- What is answered to the request for the script of an object named `name` by its type, which
declares `binding`, while it holds `last`. -/
structure Script.Carried (binding : Option HostType) (last : Option HostValue) (name : Namespace)
    (answer : Except CommandError Script) : Prop where
  script_iff : ∀ s, answer = .ok s ↔ binding = some .script ∧ last = some (.script s)
  notCallable_iff : answer = .error (.notCallable name) ↔
    binding = none ∨ binding = some .script ∧ last = none
  mismatch_iff : ∀ d, answer = .error (.binding (.mismatch name .script d)) ↔
    binding = some d ∧ d ≠ .script

theorem Script.boundTo_carried {h : Heap} {o : ObjectId} {x : Object} (hx : h.object? o = some x)
    (ht : x.slot.Typed HostValue.type) :
    Script.Carried x.binding x.bound x.typeName (Script.boundTo h o) := by
  have ha := Object.getBound_answers ht
  rw [Script.boundTo, hx]
  cases hb : x.binding with
  | none =>
    have hget := (ha.undeclared_iff .script).mpr hb
    simp only [hget]
    constructor <;> simp
  | some d =>
    by_cases hd : d = .script
    · subst hd
      have hget := (ha.value_iff .script x.bound).mpr ⟨hb, rfl⟩
      cases hv : x.bound with
      | none =>
        simp only [hget, hv]
        constructor <;> simp
      | some v =>
        have hkind : v.type = .script := Option.some.inj ((ha.typed v hv).symm.trans hb)
        cases v with
        | script s =>
          simp only [hget, hv]
          constructor <;> simp
        | integer | text | truth => cases hkind
    · have hget := (ha.mismatch_iff .script .script d).mpr ⟨rfl, hb, hd⟩
      simp only [hget]
      constructor <;> simp [hd]

/-- Host values stay of the declared kind, for all kinds and values that a host may have: whatever
is asked of a slot, it answers with the value that was set last, if its own kind is asked for, and
with the refusal that its declaration tells otherwise. The slots of objects are such slots, declared
by the types of the objects. So an object carries a script exactly if its type is declared to and a
script was set. -/
theorem host_values_typed (host : Host) (hh : host.Stepwise) {h : Heap} (hr : Heap.Reached host h)
    {o : ObjectId} {x : Object} (hx : h.object? o = some x)
    (calls : List (ObjectId × HostSlot.Call HostType HostValue)) :
    (∀ (τ ν : Type) [DecidableEq τ] (kind : ν → τ) (declared : Option τ)
      (cs : List (HostSlot.Call τ ν)),
      HostSlot.Faithful kind (HostSlot.after kind ⟨declared, none⟩ cs) declared
        (HostSlot.accepted kind ⟨declared, none⟩ cs).getLast?) ∧
    (∃ c, (h.registry x.registry).definition? x.type = some (.concrete c) ∧
      c.binding = x.binding) ∧
    (∀ r t k a, h.newObject r t = .ok (k, a) → ∃ y, k.object? a = some y ∧ y.bound = none) ∧
    (h.hostCalls calls).object? o =
      some { x with bound := x.slot.last HostValue.type (Heap.callsOn o calls) } ∧
    HostSlot.Answers HostValue.type x.binding (x.slot.last HostValue.type (Heap.callsOn o calls))
      (.notBindable x.typeName) (.mismatch x.typeName) ((h.hostCalls calls).getBound o) ∧
    (∀ v e, (((h.hostCalls calls).putBound o v).1 = .error e ↔
        (h.hostCalls calls).getBound o v.type = .error e) ∧
      (((h.hostCalls calls).putBound o v).1 = .error e →
        ((h.hostCalls calls).putBound o v).2 = h.hostCalls calls)) ∧
    Script.Carried x.binding (x.slot.last HostValue.type (Heap.callsOn o calls)) x.typeName
      (Script.boundTo (h.hostCalls calls) o) := by
  obtain ⟨htyped, hdefined⟩ := (hr.slotsDeclared hh).typed hx
  obtain ⟨y, hy, hytyped⟩ : ∃ y, y = { x with
      bound := x.slot.last HostValue.type (Heap.callsOn o calls) } ∧
      y.slot.Typed HostValue.type := by
    refine ⟨_, rfl, ?_⟩
    rw [← HostSlot.held_after, x.slot_after]
    exact htyped.after _
  have hafter : (h.hostCalls calls).object? o = some y := by
    rw [Heap.object?_hostCalls calls hx, HostSlot.held_after, hy]
  have hget : (h.hostCalls calls).getBound o = y.getBound := by
    funext t
    rw [Heap.getBound, hafter]
  have hanswers := Object.getBound_answers hytyped
  have hcarried := Script.boundTo_carried hafter hytyped
  rw [← hget] at hanswers
  rw [hy] at hanswers hcarried
  refine ⟨fun τ ν _ => HostSlot.faithful_after, hdefined, fun _ _ _ _ => Heap.object?_newObject,
    hy ▸ hafter, hanswers, fun v e => ⟨?_, Heap.putBound_error⟩, hcarried⟩
  rw [Heap.putBound_error_iff hafter, hget]
  exact Object.putBound_error_iff hytyped v e

namespace Beacon

/-! An object whose type declares a script for it. -/

def title : Namespace := ⟨["Beacon"], by decide, by decide⟩

def signal : Script where
  name := ⟨["Beacon", "Signal"], by decide, by decide⟩
  parent := ⟨0⟩
  commands := []

def bare : Heap := Heap.empty.newRegistry.1

def typed : Heap :=
  { bare with registries := bare.registries.modify 0 fun _ =>
      ⟨[title], ⟨[(title, ⟨0⟩)]⟩, [(⟨0⟩, .concrete ⟨some .script, none, [], [], []⟩)]⟩ }

def tower : Object := ⟨⟨0⟩, ⟨0⟩, title, some .script, {}, none⟩

def heap : Heap := { typed with objects := typed.objects.push tower }

/-- Two values that the object does not take, and a script in between. -/
def calls : List (ObjectId × HostSlot.Call HostType HostValue) :=
  [(⟨0⟩, .set (.truth true)), (⟨0⟩, .set (.script signal)), (⟨0⟩, .get .text),
    (⟨0⟩, .set (.integer 3))]

theorem heap_reached : Heap.Reached Host.standard heap := by
  have h₁ : Heap.empty.Change Host.standard bare := .step .newRegistry
  have h₂ : bare.Change Host.standard typed :=
    .step (.define (r := ⟨0⟩) (q := .type { name := title, binding := some .script }) (t := ⟨0⟩)
      (by cbv))
  have h₃ : typed.Change Host.standard heap :=
    .step (.newObject (r := ⟨0⟩) (t := ⟨0⟩) (o := ⟨0⟩) rfl)
  exact ((ReflTransGen.single h₁).tail h₂).tail h₃

end Beacon

/-- The script is kept through the values that are refused; without the calls there is none. -/
theorem signal_kept :
    Beacon.heap.object? ⟨0⟩ = some Beacon.tower ∧
    Script.boundTo Beacon.heap ⟨0⟩ = .error (.notCallable Beacon.title) ∧
    Script.boundTo (Beacon.heap.hostCalls Beacon.calls) ⟨0⟩ = .ok Beacon.signal ∧
    (Beacon.heap.hostCalls Beacon.calls).getBound ⟨0⟩ .script =
      .ok (some (.script Beacon.signal)) ∧
    (Beacon.heap.hostCalls Beacon.calls).getBound ⟨0⟩ .text =
      .error (.mismatch Beacon.title .text .script) := by
  have hx : Beacon.heap.object? ⟨0⟩ = some Beacon.tower := rfl
  have hlast : Beacon.tower.slot.last HostValue.type (Heap.callsOn ⟨0⟩ Beacon.calls) =
      some (.script Beacon.signal) := rfl
  obtain ⟨_, _, _, _, _, _, hbefore⟩ :=
    host_values_typed Host.standard Host.standard_stepwise Beacon.heap_reached hx []
  obtain ⟨_, _, _, _, hanswers, _, hcarried⟩ :=
    host_values_typed Host.standard Host.standard_stepwise Beacon.heap_reached hx Beacon.calls
  rw [hlast] at hanswers hcarried
  exact ⟨hx, hbefore.notCallable_iff.mpr (.inr ⟨rfl, rfl⟩),
    (hcarried.script_iff _).mpr ⟨rfl, rfl⟩, (hanswers.value_iff _ _).mpr ⟨rfl, rfl⟩,
    (hanswers.mismatch_iff _ _ _).mpr ⟨rfl, rfl, by decide⟩⟩

end GuardedScript
