import Mathlib.Logic.ExistsUnique
import GuardedScript.Proofs.Names

/-!
How a text spells a name. Dots stand between the words of a text, and any number of them more stand
anywhere. Reading a text, joining it to a name and finding a type by it depend on the words alone,
in their order. So two texts with a dot between them read as the first name joined with the second
text, and a text of dots adds nothing.
-/

namespace GuardedScript

namespace Text

/-- The words of a text, which are not empty and have no dots in them. -/
inductive Spells : String → List String → Prop where
  | blank : Spells "" []
  | dot {s ws} (hs : Spells s ws) : Spells ("." ++ s) ws
  | last {w} (hw : w ≠ "") (hd : '.' ∉ w.toList) : Spells w [w]
  | word {w s ws} (hw : w ≠ "") (hd : '.' ∉ w.toList) (hs : Spells s ws) :
      Spells (w ++ "." ++ s) (w :: ws)

variable {s t w : String} {ws : List String}

theorem segments_of_undotted (hd : '.' ∉ w.toList) : segments w = [w] := by
  rw [segments, splitDots_of_not_mem hd, List.map_singleton, String.ofList_toList]

theorem segments_dot (s : String) : segments ("." ++ s) = "" :: segments s :=
  segments_append_dot "" s

theorem keep_word (hw : w ≠ "") : Namespace.keep [w] = [w] :=
  Namespace.keep_of_filled (by simpa using hw)

theorem Spells.keep_segments (hs : Spells s ws) : Namespace.keep (segments s) = ws := by
  induction hs with
  | blank => rfl
  | dot _ ih =>
    rw [segments_dot, ← List.singleton_append, Namespace.keep_append, ih]
    rfl
  | last hw hd => rw [segments_of_undotted hd, keep_word hw]
  | word hw hd _ ih =>
    rw [segments_append_dot, Namespace.keep_append, ih, segments_of_undotted hd, keep_word hw,
      List.singleton_append]

theorem spells_dotted {ks : List String} (hd : ∀ k ∈ ks, '.' ∉ k.toList) :
    Spells (dotted ks) (Namespace.keep ks) := by
  induction ks with
  | nil => exact .blank
  | cons k ks ih =>
    obtain ⟨hk, hd⟩ := List.forall_mem_cons.mp hd
    rw [← List.singleton_append, Namespace.keep_append, List.singleton_append]
    by_cases hks : ks = []
    · rw [hks, dotted, String.intercalate_singleton]
      by_cases he : k = ""
      · rw [he]
        exact .blank
      · rw [keep_word he]
        exact .last he hk
    · rw [dotted, String.intercalate_cons_of_ne_nil hks, ← dotted]
      by_cases he : k = ""
      · rw [he]
        exact .dot (ih hd)
      · rw [keep_word he]
        exact .word he hk (ih hd)

theorem spells_iff : Spells s ws ↔ Namespace.keep (segments s) = ws := by
  refine ⟨Spells.keep_segments, ?_⟩
  rintro rfl
  have hs := spells_dotted fun k hk => not_mem_segments (s := s) hk
  rwa [dotted_segments] at hs

theorem spells_keep (s : String) : Spells s (Namespace.keep (segments s)) := spells_iff.mpr rfl

theorem Spells.append_dot {vs : List String} (hs : Spells s ws) (ht : Spells t vs) :
    Spells (s ++ "." ++ t) (ws ++ vs) := by
  rw [spells_iff] at hs ht ⊢
  rw [segments_append_dot, Namespace.keep_append, hs, ht]

theorem spells_ofList_dots {cs : List Char} (hc : ∀ c ∈ cs, c = '.') :
    Spells (String.ofList cs) [] := by
  induction cs with
  | nil => exact .blank
  | cons c cs ih =>
    obtain ⟨rfl, hcs⟩ := List.forall_mem_cons.mp hc
    rw [← List.singleton_append, String.ofList_append]
    exact .dot (ih hcs)

/-- Only dots spell no words. -/
theorem spells_nil_iff : Spells s [] ↔ ∀ c ∈ s.toList, c = '.' := by
  constructor
  · intro hs
    generalize hws : ([] : List String) = ws at hs
    induction hs with
    | blank => simp
    | dot _ ih => simpa [String.toList_append] using ih hws
    | last => cases hws
    | word => cases hws
  · intro hc
    have hs := spells_ofList_dots hc
    rwa [String.ofList_toList] at hs

end Text

namespace Namespace

variable {n m : Namespace} {s t : String}

theorem parse_eq_ok : parse s = .ok n ↔ Text.Spells s n.parts := by
  rw [parse, ofParts_eq_ok, Text.spells_iff]

theorem parse_eq_error {e : NamespaceError} : parse s = .error e ↔ Text.Spells s [] := by
  rw [parse, Text.spells_iff, ofParts]
  cases e
  split
  · next h => exact iff_of_true rfl h
  · next h => exact iff_of_false (by rintro ⟨⟩) h

/-- Texts are read alike exactly if they spell the same words. -/
theorem parse_eq_parse : parse s = parse t ↔ ∃ ws, Text.Spells s ws ∧ Text.Spells t ws := by
  constructor
  · intro h
    cases ht : parse t with
    | error e => exact ⟨[], parse_eq_error.mp (h.trans ht), parse_eq_error.mp ht⟩
    | ok n => exact ⟨n.parts, parse_eq_ok.mp (h.trans ht), parse_eq_ok.mp ht⟩
  · rintro ⟨ws, hs, ht⟩
    rw [Text.spells_iff] at hs ht
    unfold parse ofParts
    simp only [hs, ht]

theorem parse_append_of_ok (hs : parse s = .ok m) : parse (s ++ "." ++ t) = .ok (m.join t) :=
  parse_eq_ok.mpr ((parse_eq_ok.mp hs).append_dot (Text.spells_keep t))

theorem parse_append_of_error {e : NamespaceError} (hs : parse s = .error e) :
    parse (s ++ "." ++ t) = parse t :=
  parse_eq_parse.mpr
    ⟨_, (parse_eq_error.mp hs).append_dot (Text.spells_keep t), Text.spells_keep t⟩

theorem join_join (n : Namespace) (s t : String) :
    (n.join s).join t = n.join (s ++ "." ++ t) := by
  apply ext_parts
  change n.parts ++ keep (Text.segments s) ++ keep (Text.segments t) =
    n.parts ++ keep (Text.segments (s ++ "." ++ t))
  rw [Text.segments_append_dot, keep_append, List.append_assoc]

end Namespace

/-- In any registry a text leads to the place of the name that it is read as. -/
theorem Registry.resolve_ok_iff {r : Registry} {text : String} {t : TypeRef} :
    r.resolve text = .ok t ↔ ∃ n, Namespace.parse text = .ok n ∧ r.lookup n = some t := by
  unfold resolve
  cases Namespace.parse text with
  | error e => simp
  | ok n =>
    cases hl : r.lookup n with
    | none => simp [hl]
    | some u => simp [hl]

/-- A text spells one list of words, and is read as the name with these parts; with no words, which
is to say with nothing but dots, it is not read. Two texts with a dot between them are read as the
first name joined with the second text, or as the second text if the first has no words, and joining
both one after the other is joining them together. Texts are read alike exactly if they spell the
same words, and then every registry has the same type for both. -/
theorem words_decide_names (s t : String) :
    (∃! ws, Text.Spells s ws) ∧
    (∀ m, Namespace.parse s = .ok m ↔ Text.Spells s m.parts) ∧
    (∀ m, Namespace.parse s = .ok m → Namespace.parse (s ++ "." ++ t) = .ok (m.join t)) ∧
    (∀ e, Namespace.parse s = .error e → Namespace.parse (s ++ "." ++ t) = Namespace.parse t) ∧
    (∀ n : Namespace, (n.join s).join t = n.join (s ++ "." ++ t)) ∧
    ((∃ e, Namespace.parse s = .error e) ↔ ∀ c ∈ s.toList, c = '.') ∧
    (Namespace.parse s = Namespace.parse t ↔ ∃ ws, Text.Spells s ws ∧ Text.Spells t ws) ∧
    ((∃ ws, Text.Spells s ws ∧ Text.Spells t ws) →
      ∀ (r : Registry) (u : TypeRef), r.resolve s = .ok u ↔ r.resolve t = .ok u) := by
  refine ⟨⟨_, Text.spells_keep s, fun ws hs => hs.keep_segments.symm⟩,
    fun m => Namespace.parse_eq_ok, fun m => Namespace.parse_append_of_ok,
    fun e => Namespace.parse_append_of_error, fun n => n.join_join s t, ?_,
    Namespace.parse_eq_parse, fun hws r u => ?_⟩
  · rw [← Text.spells_nil_iff]
    constructor
    · rintro ⟨e, he⟩
      exact Namespace.parse_eq_error.mp he
    · intro hs
      exact ⟨.empty, Namespace.parse_eq_error.mpr hs⟩
  · rw [Registry.resolve_ok_iff, Registry.resolve_ok_iff, Namespace.parse_eq_parse.mpr hws]

namespace Crate

def lid : Namespace := ⟨["Crate", "Lid"], List.cons_ne_nil _ _, by decide⟩

def registry : Registry := Registry.built [.declare lid]

end Crate

/-- Doubled and trailing dots, a text of dots in front, and one type for both spellings. -/
theorem lid_found_by_words :
    Namespace.parse "Crate..Lid." = .ok Crate.lid ∧
    Namespace.parse ("Crate..Lid." ++ "." ++ ".Knob") = .ok (Crate.lid.join ".Knob") ∧
    Namespace.parse ".." = .error .empty ∧
    Namespace.parse (".." ++ "." ++ "Crate.Lid") = Namespace.parse "Crate.Lid" ∧
    Crate.registry.resolve "Crate.Lid" = .ok ⟨0⟩ ∧
    Crate.registry.resolve "Crate..Lid." = .ok ⟨0⟩ := by
  have hlid : Namespace.parse "Crate..Lid." = .ok Crate.lid := by cbv
  have hplain : Namespace.parse "Crate.Lid" = .ok Crate.lid := by cbv
  have hdots : Namespace.parse ".." = .error .empty := by cbv
  have hfound : Crate.registry.resolve "Crate.Lid" = .ok ⟨0⟩ := by cbv
  obtain ⟨_, _, hjoin, _⟩ := words_decide_names "Crate..Lid." ".Knob"
  obtain ⟨_, _, _, hskip, _⟩ := words_decide_names ".." "Crate.Lid"
  obtain ⟨_, _, _, _, _, _, hread, hsame⟩ := words_decide_names "Crate..Lid." "Crate.Lid"
  refine ⟨hlid, hjoin _ hlid, hdots, hskip _ hdots, hfound, ?_⟩
  exact (hsame (hread.mp (hlid.trans hplain.symm)) _ _).mpr hfound

end GuardedScript
