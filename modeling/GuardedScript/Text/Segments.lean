/-!
Dotted texts: the segments between the dots, and the cut at the last dot.
-/

namespace GuardedScript.Text

/-- The pieces between dots; there is always at least one. -/
def splitDots : List Char → List (List Char)
  | [] => [[]]
  | c :: rest =>
    if c = '.' then [] :: splitDots rest
    else match splitDots rest with
      | [] => [[c]]
      | s :: more => (c :: s) :: more

/-- The text before the last dot and the text after it. -/
def cutLastDot : List Char → Option (List Char × List Char)
  | [] => none
  | c :: rest =>
    match cutLastDot rest with
    | some (before, after) => some (c :: before, after)
    | none => if c = '.' then some ([], rest) else none

def segments (s : String) : List String := (splitDots s.toList).map String.ofList

def cutLast (s : String) : Option (String × String) :=
  (cutLastDot s.toList).map fun p => (String.ofList p.1, String.ofList p.2)

def dotted : List String → String := String.intercalate "."

theorem splitDots_ne_nil (cs : List Char) : splitDots cs ≠ [] := by
  cases cs with
  | nil => simp [splitDots]
  | cons c rest =>
    simp only [splitDots]
    split
    · simp
    · split <;> simp

theorem splitDots_append_dot (s t : List Char) :
    splitDots (s ++ '.' :: t) = splitDots s ++ splitDots t := by
  induction s with
  | nil => simp [splitDots]
  | cons c rest ih =>
    by_cases hc : c = '.'
    · simp [splitDots, hc, ih]
    · cases h : splitDots rest with
      | nil => exact absurd h (splitDots_ne_nil rest)
      | cons a b => simp [splitDots, hc, ih, h]

theorem segments_append_dot (s t : String) :
    segments (s ++ "." ++ t) = segments s ++ segments t := by
  simp [segments, splitDots_append_dot]

theorem splitDots_of_not_mem {cs : List Char} (h : '.' ∉ cs) : splitDots cs = [cs] := by
  induction cs with
  | nil => rfl
  | cons c cs ih =>
    rw [List.mem_cons, not_or] at h
    rw [splitDots, if_neg (Ne.symm h.1), ih h.2]

/-- Segments without dots are found again. -/
theorem segments_dotted {ks : List String} (hne : ks ≠ []) (hk : ∀ k ∈ ks, '.' ∉ k.toList) :
    segments (dotted ks) = ks := by
  induction ks with
  | nil => exact absurd rfl hne
  | cons k ks ih =>
    have hfirst : segments k = [k] := by
      rw [segments, splitDots_of_not_mem (hk k List.mem_cons_self)]
      simp
    by_cases hks : ks = []
    · rw [hks, dotted, String.intercalate_singleton, hfirst]
    · have hrest := ih hks fun j hj => hk j (List.mem_cons_of_mem k hj)
      rw [dotted, String.intercalate_cons_of_ne_nil hks, ← dotted, segments_append_dot, hfirst,
        hrest, List.singleton_append]

theorem cutLastDot_eq_none {cs : List Char} (h : cutLastDot cs = none) : '.' ∉ cs := by
  induction cs with
  | nil => exact List.not_mem_nil
  | cons c cs ih =>
    rw [cutLastDot] at h
    split at h
    · cases h
    · next hrest =>
      split at h
      · cases h
      · next hc =>
        rw [List.mem_cons, not_or]
        exact ⟨Ne.symm hc, ih hrest⟩

/-- A path of several segments has a last dot. -/
theorem cutLast_isSome {s : String} (h : 2 ≤ (segments s).length) :
    ∃ before last, cutLast s = some (before, last) := by
  cases hc : cutLastDot s.toList with
  | none =>
    rw [segments, splitDots_of_not_mem (cutLastDot_eq_none hc)] at h
    simp at h
  | some p =>
    refine ⟨String.ofList p.1, String.ofList p.2, ?_⟩
    rw [cutLast, hc, Option.map_some]

end GuardedScript.Text
