/-!
Growing tables: an entry is found by its number, new entries go last, and none is ever removed.
-/

namespace GuardedScript

structure Table (α : Type) where
  rows : Array α
  deriving DecidableEq, Repr

namespace Table

variable {α : Type}

def empty : Table α := ⟨#[]⟩

instance : Inhabited (Table α) := ⟨empty⟩
instance : EmptyCollection (Table α) := ⟨empty⟩

def size (t : Table α) : Nat := t.rows.size

def get? (t : Table α) (i : Nat) : Option α := t.rows[i]?

/-- Adds an entry, whose number is the size so far. -/
def push (t : Table α) (a : α) : Table α := ⟨t.rows.push a⟩

def modify (t : Table α) (i : Nat) (f : α → α) : Table α := ⟨t.rows.modify i f⟩

@[simp] theorem size_empty : (empty : Table α).size = 0 := rfl

@[simp] theorem get?_empty (i : Nat) : (empty : Table α).get? i = none := rfl

@[simp] theorem size_push (t : Table α) (a : α) : (t.push a).size = t.size + 1 := by
  simp [size, push]

@[simp] theorem size_modify (t : Table α) (i : Nat) (f : α → α) : (t.modify i f).size = t.size := by
  simp [size, modify]

theorem get?_push (t : Table α) (a : α) (i : Nat) :
    (t.push a).get? i = if i = t.size then some a else t.get? i := by
  by_cases h : i = t.rows.size <;> simp [get?, push, size, Array.getElem?_push, h]

theorem get?_push_of_lt (t : Table α) (a : α) {i : Nat} (h : i < t.size) :
    (t.push a).get? i = t.get? i := by
  rw [get?_push, if_neg (Nat.ne_of_lt h)]

@[simp] theorem get?_push_size (t : Table α) (a : α) : (t.push a).get? t.size = some a := by
  simp [get?_push]

theorem get?_modify (t : Table α) (i j : Nat) (f : α → α) :
    (t.modify i f).get? j = if i = j then (t.get? j).map f else t.get? j := by
  simp [get?, modify, Array.getElem?_modify]

/-- Writing an entry over itself changes nothing. -/
theorem modify_self {t : Table α} {i : Nat} {a : α} (h : t.get? i = some a) :
    t.modify i (fun _ => a) = t := by
  obtain ⟨rows⟩ := t
  refine congrArg Table.mk (Array.ext_getElem? fun j => ?_)
  rw [Array.getElem?_modify]
  split
  · next hij =>
    subst hij
    have hrow : rows[i]? = some a := h
    rw [hrow, Option.map_some]
  · rfl

theorem lt_size_of_get? {t : Table α} {i : Nat} {a : α} (h : t.get? i = some a) : i < t.size := by
  simp only [get?, Array.getElem?_eq_some_iff] at h
  exact h.1

theorem get?_eq_none {t : Table α} {i : Nat} (h : t.size ≤ i) : t.get? i = none := by
  simpa [get?, size] using h

end Table

end GuardedScript
