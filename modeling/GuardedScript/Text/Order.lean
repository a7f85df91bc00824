/-!
Sorted texts, by code points.
-/

namespace GuardedScript.Text

def sorted (texts : List String) : List String := texts.mergeSort (fun a b => a ≤ b)

/-- Of equal texts that stand next to each other, one. -/
def squeezed : List String → List String
  | a :: b :: rest => if a = b then squeezed (b :: rest) else a :: squeezed (b :: rest)
  | texts => texts

/-- Whether no text comes that has been seen before. -/
def allNew (seen : List String) : List String → Bool
  | [] => true
  | t :: rest => t ∉ seen && allNew (t :: seen) rest

/-- The texts that stand right before an equal one. -/
def doubled : List String → List String
  | a :: b :: rest => if a = b then a :: doubled (b :: rest) else doubled (b :: rest)
  | _ => []

@[simp] theorem mem_squeezed {texts : List String} {t : String} :
    t ∈ squeezed texts ↔ t ∈ texts := by
  fun_induction squeezed texts with
  | case1 b rest ih => simp [ih]
  | case2 a b rest hne ih => simp [ih]
  | case3 texts _ => rfl

@[simp] theorem mem_sorted {texts : List String} {t : String} : t ∈ sorted texts ↔ t ∈ texts :=
  List.mem_mergeSort

end GuardedScript.Text
