import GuardedScript.Script.Command
import Mathlib.Logic.Basic

/-!
What a grant covers. A requirement is covered when each name that it requires is granted. What a
command requires is the union over its tree, so a grant that covers a command covers every part of
it, and nothing is lost on the way down.
-/

namespace GuardedScript

namespace CapabilitySet

theorem mem_names_foldl_union (f : Capabilities → CapabilitySet) (cs : List Capabilities)
    (s : CapabilitySet) {n : String} :
    n ∈ (cs.foldl (fun s c => s.union (f c)) s).names ↔
      n ∈ s.names ∨ ∃ c ∈ cs, n ∈ (f c).names := by
  induction cs generalizing s with
  | nil => simp
  | cons c cs ih =>
    rw [List.foldl_cons, ih, mem_names_union]
    simp [or_assoc]

theorem sorted_eq_nil {s : CapabilitySet} : s.sorted = [] ↔ s.names = [] := by
  have hl : s.sorted.length = s.members.length := List.length_mergeSort _
  rw [← List.length_eq_zero_iff, hl, List.length_eq_zero_iff]
  simp [names]

end CapabilitySet

namespace Capabilities

/-- Every name that `other` requires is granted. -/
def Covers (grant other : Capabilities) : Prop :=
  ∀ n ∈ other.required.names, n ∈ grant.required.names

theorem canAccess_iff {grant other : Capabilities} :
    grant.canAccess other = true ↔ grant.Covers other := CapabilitySet.subset_iff

instance (grant other : Capabilities) : Decidable (grant.Covers other) :=
  decidable_of_iff _ canAccess_iff

theorem mem_required_merge {cs : List Capabilities} {n : String} :
    n ∈ (merge cs).required.names ↔ ∃ c ∈ cs, n ∈ c.required.names := by
  simp [merge, CapabilitySet.mem_names_foldl_union]

theorem missing_eq_nil {grant other : Capabilities} :
    grant.missing other = [] ↔ grant.Covers other := by
  rw [missing, CapabilitySet.sorted_eq_nil, List.eq_nil_iff_forall_not_mem]
  simp [CapabilitySet.mem_names_minus, Covers]

theorem check_eq_ok {grant other : Capabilities} {thread : String} :
    grant.check other thread = .ok () ↔ grant.Covers other := by
  rw [← missing_eq_nil]
  cases h : grant.missing other <;> simp [check, h]

theorem check_eq_error {grant other : Capabilities} {thread : String} {e : CapabilityError} :
    grant.check other thread = .error e ↔
      ¬ grant.Covers other ∧ e = .denied thread (grant.missing other) := by
  rw [← missing_eq_nil]
  cases h : grant.missing other <;> simp [check, h, eq_comm]

end Capabilities

namespace Command

/-- The commands directly inside a command. -/
def parts : Command → List Command
  | .this _ | .value _ _ | .get _ _ | .add _ _ _ => []
  | .getOf _ target _ => [target]
  | .set _ _ operand => [operand]
  | .ret _ operand | .throw _ operand => operand.toList
  | .script _ target inputs => target :: inputs
  | .attempt _ body handler => [body, handler]
  | .native _ _ args => args

/-- The operation that a command asks the host for. -/
def operation? : Command → Option Operation
  | .native _ operation _ => some operation
  | _ => none

theorem requiredList_eq_map (cs : List Command) : requiredList cs = cs.map required := by
  induction cs with
  | nil => rfl
  | cons c cs ih => rw [requiredList, ih, List.map_cons]

theorem requiredOption_eq_map (o : Option Command) : requiredOption o = o.toList.map required := by
  cases o <;> rfl

/-- A command requires what it declares, what its parts require and what its operation requires. -/
theorem mem_required {c : Command} {n : String} :
    n ∈ c.required.required.names ↔
      n ∈ c.own.required.names ∨ (∃ d ∈ c.parts, n ∈ d.required.required.names) ∨
        ∃ op ∈ c.operation?, n ∈ op.requires.required.names := by
  cases c <;> simp [required, own, parts, operation?, Capabilities.mem_required_merge,
    requiredList_eq_map, requiredOption_eq_map]

theorem covers_own {grant : Capabilities} {c : Command} (h : grant.Covers c.required) :
    grant.Covers c.own := fun n hn => h n (mem_required.mpr (.inl hn))

theorem covers_part {grant : Capabilities} {c d : Command} (h : grant.Covers c.required)
    (hd : d ∈ c.parts) : grant.Covers d.required :=
  fun n hn => h n (mem_required.mpr (.inr (.inl ⟨d, hd, hn⟩)))

theorem covers_operation {grant : Capabilities} {c : Command} {op : Operation}
    (h : grant.Covers c.required) (ho : c.operation? = some op) : grant.Covers op.requires :=
  fun n hn => h n (mem_required.mpr (.inr (.inr ⟨op, ho, hn⟩)))

end Command

end GuardedScript
