import GuardedScript.Memory.Heap
import GuardedScript.Text.Quoted

/-!
Host values: what an object carries for the host, of the kind its type declares.
-/

namespace GuardedScript

/-- A place for one value of the host: the kind that is declared for it, if there is one, and the
value that it holds. What kinds and values there are is up to the host. -/
structure HostSlot (τ ν : Type) where
  declared : Option τ
  held : Option ν

namespace HostSlot

inductive Refusal (τ : Type) where
  | undeclared
  | mismatch (requested declared : τ)
  deriving DecidableEq

variable {τ ν : Type} [DecidableEq τ] (kind : ν → τ)

/-- The kind that is declared, which has to be the one asked for. -/
def check (s : HostSlot τ ν) (requested : τ) : Except (Refusal τ) τ :=
  match s.declared with
  | none => .error .undeclared
  | some declared =>
    if declared = requested then .ok declared else .error (.mismatch requested declared)

/-- The value held, whose own kind has to be the one asked for as well. -/
def get (s : HostSlot τ ν) (requested : τ) : Except (Refusal τ) (Option ν) :=
  match s.check requested with
  | .error e => .error e
  | .ok declared =>
    match s.held with
    | none => .ok none
    | some v =>
      if kind v = requested then .ok (some v) else .error (.mismatch requested declared)

/-- Takes a value of the declared kind. -/
def put (s : HostSlot τ ν) (v : ν) : Except (Refusal τ) Unit × HostSlot τ ν :=
  match s.check (kind v) with
  | .error e => (.error e, s)
  | .ok _ => (.ok (), { s with held := some v })

theorem put_cases (s : HostSlot τ ν) (v : ν) :
    (∃ e, s.check (kind v) = .error e ∧ s.put kind v = (.error e, s)) ∨
      (∃ d, s.check (kind v) = .ok d) ∧ s.put kind v = (.ok (), { s with held := some v }) := by
  unfold put
  cases hc : s.check (kind v) with
  | error e => exact .inl ⟨e, rfl, rfl⟩
  | ok d => exact .inr ⟨⟨d, rfl⟩, rfl⟩

end HostSlot

inductive BindingError where
  | notBindable (type : Namespace)
  | mismatch (type : Namespace) (requested declared : HostType)
  deriving DecidableEq

def BindingError.message : BindingError → String
  | .notBindable type => "Type " ++ type.display ++ " has no native binding"
  | .mismatch type requested declared =>
    "Type " ++ type.display ++ " binds " ++ declared.name ++ ", not " ++ requested.name

namespace Object

/-- The place for the host value of an object. -/
def slot (x : Object) : HostSlot HostType HostValue := ⟨x.binding, x.bound⟩

def refusal (x : Object) : HostSlot.Refusal HostType → BindingError
  | .undeclared => .notBindable x.typeName
  | .mismatch requested declared => .mismatch x.typeName requested declared

def getBound (x : Object) (requested : HostType) : Except BindingError (Option HostValue) :=
  (x.slot.get HostValue.type requested).mapError x.refusal

def putBound (x : Object) (v : HostValue) : Except BindingError Unit × Object :=
  let (answer, s) := x.slot.put HostValue.type v
  (answer.mapError x.refusal, { x with bound := s.held })

theorem putBound_cases (x : Object) (v : HostValue) :
    (∃ e, x.slot.check v.type = .error e ∧ x.putBound v = (.error (x.refusal e), x)) ∨
      (∃ d, x.slot.check v.type = .ok d) ∧ x.putBound v = (.ok (), { x with bound := some v }) := by
  unfold putBound
  rcases x.slot.put_cases HostValue.type v with ⟨e, hc, hp⟩ | ⟨hc, hp⟩
  · rw [hp]
    exact .inl ⟨e, hc, rfl⟩
  · rw [hp]
    exact .inr ⟨hc, rfl⟩

end Object

namespace Heap

def getBound (h : Heap) (o : ObjectId) (requested : HostType) :
    Except BindingError (Option HostValue) :=
  match h.object? o with
  | some x => x.getBound requested
  | none => .ok none

def putBound (h : Heap) (o : ObjectId) (v : HostValue) : Except BindingError Unit × Heap :=
  match h.object? o with
  | none => (.ok (), h)
  | some x =>
    let (answer, x) := x.putBound v
    (answer, { h with objects := h.objects.modify o.index fun _ => x })

/-- A value that is refused leaves the heap as it was. -/
theorem putBound_cases (h : Heap) (o : ObjectId) (v : HostValue) :
    h.object? o = none ∧ h.putBound o v = (.ok (), h) ∨
    (∃ x e, h.object? o = some x ∧ x.slot.check v.type = .error e ∧
      h.putBound o v = (.error (x.refusal e), h)) ∨
    ∃ x, h.object? o = some x ∧ (∃ d, x.slot.check v.type = .ok d) ∧ h.putBound o v =
      (.ok (),
        { h with objects := h.objects.modify o.index fun _ => { x with bound := some v } }) := by
  unfold putBound
  cases hx : h.object? o with
  | none => exact .inl ⟨rfl, rfl⟩
  | some x =>
    right
    rcases x.putBound_cases v with ⟨e, hc, hp⟩ | ⟨hc, hp⟩
    · have hsame : h.objects.modify o.index (fun _ => x) = h.objects := Table.modify_self hx
      refine .inl ⟨x, e, rfl, hc, ?_⟩
      simp only [hp, hsame]
    · refine .inr ⟨x, rfl, hc, ?_⟩
      simp only [hp]

def setBound (h : Heap) (o : ObjectId) (v : HostValue) : Except BindingError Heap :=
  match h.putBound o v with
  | (.ok (), h) => .ok h
  | (.error e, _) => .error e

theorem setBound_eq_ok {h h' : Heap} {o : ObjectId} {v : HostValue} :
    h.setBound o v = .ok h' ↔ h.putBound o v = (.ok (), h') := by
  unfold setBound
  obtain ⟨e | ⟨⟩, k⟩ := h.putBound o v <;> simp

def hasBound (h : Heap) (o : ObjectId) : Bool := (h.object? o).any fun x => x.bound.isSome

/-- The name of an object's type for diagnostics. -/
def typeDisplay (h : Heap) (o : ObjectId) : String :=
  ((h.object? o).map fun x => x.typeName.display).getD ""

/-- The text that describes an object for diagnostics. -/
def describeObject (h : Heap) (o : ObjectId) : String :=
  match h.object? o with
  | none => ""
  | some x =>
    "DataObject \x7b type: Namespace \x7b parts: " ++ Text.quotedList x.typeName.parts
      ++ " \x7d, public: " ++ Text.quotedList ((h.fieldProperties o .exposed).map Property.key)
      ++ ", bound: " ++ (if x.bound.isSome then "true" else "false") ++ " \x7d"

end Heap

end GuardedScript
