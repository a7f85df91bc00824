/-!
Association lists: the entry of a key is the one written last.
-/

namespace GuardedScript

structure Assoc (κ α : Type) where
  entries : List (κ × α)
  deriving DecidableEq, Repr

namespace Assoc

variable {κ α : Type} [DecidableEq κ]

def empty : Assoc κ α := ⟨[]⟩

instance : Inhabited (Assoc κ α) := ⟨empty⟩
instance : EmptyCollection (Assoc κ α) := ⟨empty⟩

def find (k : κ) : List (κ × α) → Option α
  | [] => none
  | (j, a) :: rest => if j = k then some a else find k rest

def replace (k : κ) (a : α) : List (κ × α) → List (κ × α)
  | [] => [(k, a)]
  | (j, b) :: rest => if j = k then (k, a) :: rest else (j, b) :: replace k a rest

def get? (m : Assoc κ α) (k : κ) : Option α := find k m.entries

def contains (m : Assoc κ α) (k : κ) : Bool := (m.get? k).isSome

/-- Gives `k` the entry `a`; a new key goes last. -/
def put (m : Assoc κ α) (k : κ) (a : α) : Assoc κ α := ⟨replace k a m.entries⟩

def erase (m : Assoc κ α) (k : κ) : Assoc κ α := ⟨m.entries.filter fun e => e.1 ≠ k⟩

def keys (m : Assoc κ α) : List κ := m.entries.map (·.1)

def values (m : Assoc κ α) : List α := m.entries.map (·.2)

/-- Later entries win over earlier ones of the same key. -/
def ofList (entries : List (κ × α)) : Assoc κ α :=
  entries.foldl (fun m e => m.put e.1 e.2) empty

theorem find_replace (k j : κ) (a : α) (l : List (κ × α)) :
    find j (replace k a l) = if k = j then some a else find j l := by
  induction l with
  | nil => simp [replace, find]
  | cons e rest ih =>
    obtain ⟨i, b⟩ := e
    by_cases hi : i = k
    · subst hi; by_cases hj : i = j <;> simp [replace, find, hj]
    · by_cases hj : i = j
      · subst hj; simp [replace, find, hi, Ne.symm hi]
      · simp [replace, find, hi, hj, ih]

theorem find_filter_ne (k j : κ) (l : List (κ × α)) :
    find j (l.filter fun e => e.1 ≠ k) = if k = j then none else find j l := by
  induction l with
  | nil => simp [find]
  | cons e rest ih =>
    obtain ⟨i, b⟩ := e
    by_cases hi : i = k
    · subst hi; by_cases hj : i = j <;> simp_all [find]
    · by_cases hj : i = j
      · subst hj; simp [find, hi, Ne.symm hi]
      · simp_all [find]

@[simp] theorem get?_empty (k : κ) : (empty : Assoc κ α).get? k = none := rfl

theorem get?_put (m : Assoc κ α) (k j : κ) (a : α) :
    (m.put k a).get? j = if k = j then some a else m.get? j := find_replace k j a m.entries

theorem get?_erase (m : Assoc κ α) (k j : κ) :
    (m.erase k).get? j = if k = j then none else m.get? j := find_filter_ne k j m.entries

@[simp] theorem get?_put_self (m : Assoc κ α) (k : κ) (a : α) : (m.put k a).get? k = some a := by
  simp [get?_put]

theorem get?_put_of_ne (m : Assoc κ α) {k j : κ} (a : α) (h : k ≠ j) :
    (m.put k a).get? j = m.get? j := by simp [get?_put, h]

@[simp] theorem get?_erase_self (m : Assoc κ α) (k : κ) : (m.erase k).get? k = none := by
  simp [get?_erase]

theorem get?_erase_of_ne (m : Assoc κ α) {k j : κ} (h : k ≠ j) :
    (m.erase k).get? j = m.get? j := by simp [get?_erase, h]

theorem find_isSome (k : κ) (l : List (κ × α)) : (find k l).isSome ↔ k ∈ l.map (·.1) := by
  induction l with
  | nil => simp [find]
  | cons e rest ih =>
    obtain ⟨i, b⟩ := e
    by_cases hi : i = k
    · simp [find, hi]
    · simp [find, hi, ih, Ne.symm hi]

theorem contains_iff (m : Assoc κ α) (k : κ) : m.contains k ↔ k ∈ m.keys :=
  find_isSome k m.entries

end Assoc

end GuardedScript
