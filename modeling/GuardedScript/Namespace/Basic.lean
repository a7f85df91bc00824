import GuardedScript.Text.Segments

/-!
Namespaces: the qualified names of types and scripts, a non-empty list of non-empty parts.
-/

namespace GuardedScript

structure Namespace where
  parts : List String
  nonempty : parts ≠ []
  filled : ∀ p ∈ parts, p ≠ ""
  deriving DecidableEq

inductive NamespaceError where
  | empty
  deriving DecidableEq, Repr

def NamespaceError.message : NamespaceError → String
  | .empty => "A namespace must consist of at least one name part"

namespace Namespace

theorem ext_parts {n m : Namespace} (h : n.parts = m.parts) : n = m := by
  cases n; cases m; simp_all

/-- The parts that are not empty. -/
def keep (parts : List String) : List String := parts.filter (· ≠ "")

theorem keep_filled (parts : List String) : ∀ p ∈ keep parts, p ≠ "" := by
  intro p hp; simpa using (List.mem_filter.mp hp).2

theorem keep_of_filled {parts : List String} (h : ∀ p ∈ parts, p ≠ "") : keep parts = parts := by
  simpa [keep, List.filter_eq_self] using h

@[simp] theorem keep_append (a b : List String) : keep (a ++ b) = keep a ++ keep b := by
  simp [keep]

/-- The namespace with the given parts. Empty parts are dropped; a part is taken whole, dots
included. -/
def ofParts (parts : List String) : Except NamespaceError Namespace :=
  if h : keep parts = [] then .error .empty else .ok ⟨keep parts, h, keep_filled parts⟩

/-- Reads a dotted text. -/
def parse (text : String) : Except NamespaceError Namespace := ofParts (Text.segments text)

/-- Appends the parts of a dotted text. -/
def join (n : Namespace) (text : String) : Namespace where
  parts := n.parts ++ keep (Text.segments text)
  nonempty := by simp [n.nonempty]
  filled := by
    intro p hp
    rcases List.mem_append.mp hp with h | h
    · exact n.filled p h
    · exact keep_filled _ p h

def short (n : Namespace) : String := n.parts.getLast n.nonempty

def dotted (n : Namespace) : String := Text.dotted n.parts

/-- The dotted text in braces. -/
def display (n : Namespace) : String := "\x7b" ++ n.dotted ++ "\x7d"

def compareParts : List String → List String → Ordering
  | [], [] => .eq
  | [], _ :: _ => .lt
  | _ :: _, [] => .gt
  | a :: as, b :: bs => if a < b then .lt else if b < a then .gt else compareParts as bs

/-- Part by part, each by code points; a shorter name goes before its extensions. -/
def compare (n m : Namespace) : Ordering := compareParts n.parts m.parts

end Namespace

end GuardedScript
