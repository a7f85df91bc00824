/-!
Capabilities, sets of them told apart by name, and the requirement or grant made of two such sets.
-/

namespace GuardedScript

structure Capability where
  name : String
  displayName : String
  description : String
  deriving DecidableEq, Repr

def Capability.named (name : String) : Capability := ⟨name, name, ""⟩

/-- Capabilities with distinct names. -/
structure CapabilitySet where
  members : List Capability
  distinct : (members.map Capability.name).Nodup
  deriving DecidableEq

namespace CapabilitySet

def names (s : CapabilitySet) : List String := s.members.map Capability.name

def empty : CapabilitySet := ⟨[], List.nodup_nil⟩

instance : Inhabited CapabilitySet := ⟨empty⟩
instance : EmptyCollection CapabilitySet := ⟨empty⟩

def has (s : CapabilitySet) (name : String) : Bool := s.names.contains name

theorem has_iff {s : CapabilitySet} {name : String} : s.has name = true ↔ name ∈ s.names := by
  simp [has]

/-- Adds a capability unless one of that name is there. -/
def insert (s : CapabilitySet) (c : Capability) : CapabilitySet :=
  if h : c.name ∈ s.names then s
  else ⟨s.members ++ [c], by
    rw [List.map_append, List.nodup_append]
    refine ⟨s.distinct, by simp, ?_⟩
    intro a ha b hb
    simp only [List.map_cons, List.map_nil, List.mem_singleton] at hb
    subst hb
    intro e; subst e; exact h ha⟩

def filter (s : CapabilitySet) (p : Capability → Bool) : CapabilitySet :=
  ⟨s.members.filter p, s.distinct.sublist ((List.filter_sublist).map _)⟩

def erase (s : CapabilitySet) (name : String) : CapabilitySet := s.filter (·.name ≠ name)

/-- The members whose names are not in `t`. -/
def minus (s t : CapabilitySet) : CapabilitySet := s.filter (fun c => !t.has c.name)

def insertAll (s : CapabilitySet) (cs : List Capability) : CapabilitySet := cs.foldl insert s

/-- Of several capabilities of one name the first stays. -/
def ofList (cs : List Capability) : CapabilitySet := empty.insertAll cs

def union (s t : CapabilitySet) : CapabilitySet := s.insertAll t.members

def subset (s t : CapabilitySet) : Bool := s.names.all t.has

/-- Members by name, in code point order. -/
def sorted (s : CapabilitySet) : List Capability := s.members.mergeSort (fun a b => a.name ≤ b.name)

@[simp] theorem names_empty : empty.names = [] := rfl

theorem mem_names_insert {s : CapabilitySet} {c : Capability} {n : String} :
    n ∈ (s.insert c).names ↔ n ∈ s.names ∨ n = c.name := by
  unfold insert
  split
  · rename_i h
    exact ⟨Or.inl, fun e => e.elim id fun e => e ▸ h⟩
  · simp [names]

theorem mem_names_filter {s : CapabilitySet} {p : Capability → Bool} {n : String} :
    n ∈ (s.filter p).names ↔ ∃ c ∈ s.members, p c = true ∧ c.name = n := by
  simp [filter, names, and_assoc]

theorem mem_names_erase {s : CapabilitySet} {m n : String} :
    n ∈ (s.erase m).names ↔ n ∈ s.names ∧ n ≠ m := by
  rw [erase, mem_names_filter]
  simp only [names, List.mem_map]
  constructor
  · rintro ⟨c, hc, hp, rfl⟩; exact ⟨⟨c, hc, rfl⟩, by simpa using hp⟩
  · rintro ⟨⟨c, hc, rfl⟩, hp⟩; exact ⟨c, hc, by simpa using hp, rfl⟩

theorem mem_names_minus {s t : CapabilitySet} {n : String} :
    n ∈ (s.minus t).names ↔ n ∈ s.names ∧ n ∉ t.names := by
  rw [minus, mem_names_filter]
  simp only [names, List.mem_map]
  constructor
  · rintro ⟨c, hc, hp, rfl⟩
    exact ⟨⟨c, hc, rfl⟩, by simpa [has, names] using hp⟩
  · rintro ⟨⟨c, hc, rfl⟩, hp⟩; exact ⟨c, hc, by simpa [has, names] using hp, rfl⟩

theorem mem_names_insertAll {s : CapabilitySet} {cs : List Capability} {n : String} :
    n ∈ (s.insertAll cs).names ↔ n ∈ s.names ∨ n ∈ cs.map Capability.name := by
  induction cs generalizing s with
  | nil => simp [insertAll]
  | cons c cs ih =>
    have := ih (s := s.insert c)
    simp only [insertAll, List.foldl_cons] at this ⊢
    rw [this, mem_names_insert]
    simp [or_assoc]

theorem mem_names_union {s t : CapabilitySet} {n : String} :
    n ∈ (s.union t).names ↔ n ∈ s.names ∨ n ∈ t.names := mem_names_insertAll

theorem mem_names_ofList {cs : List Capability} {n : String} :
    n ∈ (ofList cs).names ↔ n ∈ cs.map Capability.name := by
  simp [ofList, mem_names_insertAll]

theorem subset_iff {s t : CapabilitySet} :
    s.subset t = true ↔ ∀ n ∈ s.names, n ∈ t.names := by
  simp [subset, has_iff]

end CapabilitySet

/-- What a command, script or operation needs, or what a thread is granted. -/
structure Capabilities where
  required : CapabilitySet
  optional : CapabilitySet
  deriving DecidableEq

inductive CapabilityError where
  | denied (thread : String) (missing : List Capability)
  deriving DecidableEq, Repr

def CapabilityError.message : CapabilityError → String
  | .denied thread missing =>
    "Thread " ++ thread ++ " does not have the required capabilities to execute command; missing: "
      ++ String.intercalate ", " (missing.map Capability.name)

namespace Capabilities

def empty : Capabilities := ⟨{}, {}⟩

instance : Inhabited Capabilities := ⟨empty⟩
instance : EmptyCollection Capabilities := ⟨empty⟩

/-- What is required is not listed as optional. -/
def make (required optional : List Capability) : Capabilities :=
  let r := CapabilitySet.ofList required
  ⟨r, CapabilitySet.ofList (optional.filter fun c => !r.has c.name)⟩

def requiring (caps : List Capability) : Capabilities := make caps []

def require (c : Capabilities) (cap : Capability) : Capabilities :=
  ⟨c.required.insert cap, c.optional.erase cap.name⟩

def allow (c : Capabilities) (cap : Capability) : Capabilities :=
  if c.required.has cap.name then c else { c with optional := c.optional.insert cap }

def isEmpty (c : Capabilities) : Bool := c.required.members.isEmpty && c.optional.members.isEmpty

/-- Every capability that `other` requires is granted here. -/
def canAccess (c other : Capabilities) : Bool := other.required.subset c.required

/-- What `other` requires and is not granted here, by name. -/
def missing (c other : Capabilities) : List Capability :=
  (other.required.minus c.required).sorted

def check (c other : Capabilities) (thread : String) : Except CapabilityError Unit :=
  match c.missing other with
  | [] => .ok ()
  | lacking => .error (.denied thread lacking)

/-- The union of all, in which a required name is not optional. -/
def merge (cs : List Capabilities) : Capabilities :=
  let required := cs.foldl (fun s c => s.union c.required) CapabilitySet.empty
  let optional := cs.foldl (fun s c => s.union c.optional) CapabilitySet.empty
  ⟨required, optional.minus required⟩

def union (c d : Capabilities) : Capabilities := merge [c, d]

/-- Equality of the two sets of names. -/
def sameNames (c d : Capabilities) : Bool :=
  c.required.subset d.required && d.required.subset c.required
    && c.optional.subset d.optional && d.optional.subset c.optional

/-- The required names in order. -/
def display (c : Capabilities) : String :=
  String.intercalate ", " (c.required.sorted.map Capability.name)

end Capabilities

end GuardedScript
