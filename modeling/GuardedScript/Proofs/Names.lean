import GuardedScript.Namespace.Json
import GuardedScript.Proofs.Finality
import GuardedScript.Proofs.JsonText

/-!
Names and their dotted texts. A text is cut at its dots and the pieces make up the text again, so a
name is told by its text exactly if none of its parts has a dot in it. Names that were read have no
such part; names made from a list of parts may have.
-/

namespace GuardedScript

namespace Text

theorem not_mem_splitDots {cs p : List Char} (hp : p ∈ splitDots cs) : '.' ∉ p := by
  induction cs generalizing p with
  | nil => rw [List.mem_singleton.mp hp]; exact List.not_mem_nil
  | cons c rest ih =>
    rw [splitDots] at hp
    split at hp
    · rcases List.mem_cons.mp hp with rfl | hp
      · exact List.not_mem_nil
      · exact ih hp
    · next hc =>
      cases hs : splitDots rest with
      | nil => exact absurd hs (splitDots_ne_nil rest)
      | cons s more =>
        rw [hs] at hp ih
        rcases List.mem_cons.mp hp with rfl | hp
        · rw [List.mem_cons, not_or]
          exact ⟨Ne.symm hc, ih List.mem_cons_self⟩
        · exact ih (List.mem_cons_of_mem s hp)

theorem not_mem_segments {s p : String} (hp : p ∈ segments s) : '.' ∉ p.toList := by
  obtain ⟨q, hq, rfl⟩ := List.mem_map.mp hp
  rw [String.toList_ofList]
  exact not_mem_splitDots hq

theorem intercalate_splitDots (cs : List Char) : ['.'].intercalate (splitDots cs) = cs := by
  induction cs with
  | nil => rfl
  | cons c rest ih =>
    cases hs : splitDots rest with
    | nil => exact absurd hs (splitDots_ne_nil rest)
    | cons s more =>
      rw [hs] at ih
      by_cases hc : c = '.'
      · rw [splitDots, if_pos hc, hs, List.intercalate_cons_cons, ih, hc]
        rfl
      · rw [splitDots, if_neg hc, hs, ← ih]
        cases more with
        | nil => rfl
        | cons t more => simp [List.intercalate_cons_cons]

/-- The segments of a text make up the text. -/
theorem dotted_segments (s : String) : dotted (segments s) = s := by
  have hchars : (dotted (segments s)).toList = s.toList := by
    rw [dotted, String.toList_intercalate, segments, List.map_map]
    simpa [Function.comp_def] using intercalate_splitDots s.toList
  exact String.toList_inj.mp hchars

theorem segments_dotted_flatMap {ks : List String} (hne : ks ≠ []) :
    segments (dotted ks) = ks.flatMap segments := by
  induction ks with
  | nil => exact absurd rfl hne
  | cons k ks ih =>
    by_cases hks : ks = []
    · rw [hks, dotted, String.intercalate_singleton, List.flatMap_singleton]
    · rw [dotted, String.intercalate_cons_of_ne_nil hks, ← dotted, segments_append_dot, ih hks,
        List.flatMap_cons]

end Text

namespace Namespace

variable {n m : Namespace}

/-- No part has a dot in it. -/
def Undotted (n : Namespace) : Prop := ∀ p ∈ n.parts, '.' ∉ p.toList

instance (n : Namespace) : Decidable n.Undotted := inferInstanceAs (Decidable (∀ p ∈ n.parts, _))

/-- The pieces of the parts between their dots. -/
def segments (n : Namespace) : List String := n.parts.flatMap Text.segments

theorem segments_dotted (n : Namespace) : Text.segments n.dotted = n.segments :=
  Text.segments_dotted_flatMap n.nonempty

theorem Undotted.segments_eq (hn : n.Undotted) : n.segments = n.parts := by
  rw [← segments_dotted, dotted, Text.segments_dotted n.nonempty hn]

theorem dotted_eq_iff : n.dotted = m.dotted ↔ n.segments = m.segments := by
  rw [← segments_dotted, ← segments_dotted]
  refine ⟨fun h => by rw [h], fun h => ?_⟩
  rw [← Text.dotted_segments n.dotted, h, Text.dotted_segments]

theorem display_eq_iff : n.display = m.display ↔ n.dotted = m.dotted := by
  rw [display, display, String.append_left_inj, String.append_right_inj]

theorem ofParts_eq_ok {parts : List String} : ofParts parts = .ok n ↔ keep parts = n.parts := by
  unfold ofParts
  split
  · next h =>
    refine ⟨fun e => ?_, fun e => absurd (e.symm.trans h) n.nonempty⟩
    cases e
  · refine ⟨fun e => ?_, fun e => congrArg Except.ok (ext_parts e)⟩
    cases e
    rfl

theorem undotted_keep_segments {text p : String} (hp : p ∈ keep (Text.segments text)) :
    '.' ∉ p.toList := Text.not_mem_segments (List.mem_of_mem_filter hp)

theorem undotted_of_parse {text : String} (h : parse text = .ok n) : n.Undotted := by
  intro p hp
  rw [← ofParts_eq_ok.mp h] at hp
  exact undotted_keep_segments hp

theorem parse_of_ofJson? {v : Json} (h : ofJson? v = some n) : ∃ text, parse text = .ok n := by
  obtain ⟨text, _, ht⟩ := Option.bind_eq_some_iff.mp h
  refine ⟨text, ?_⟩
  cases hp : parse text with
  | error e => rw [hp] at ht; cases ht
  | ok m => rw [hp] at ht; cases ht; rfl

theorem undotted_of_read? {text : String} (h : read? text = some n) : n.Undotted := by
  obtain ⟨v, _, hv⟩ := Option.bind_eq_some_iff.mp h
  obtain ⟨text, ht⟩ := parse_of_ofJson? hv
  exact undotted_of_parse ht

/-- An empty part that is dropped has no dot either. -/
theorem undotted_ofParts_iff {parts : List String} (h : ofParts parts = .ok n) :
    n.Undotted ↔ ∀ p ∈ parts, '.' ∉ p.toList := by
  rw [Undotted, ← ofParts_eq_ok.mp h]
  refine ⟨fun hk p hp => ?_, fun hk p hp => hk p (List.mem_of_mem_filter hp)⟩
  by_cases he : p = ""
  · rw [he]
    exact List.not_mem_nil
  · exact hk p (List.mem_filter.mpr ⟨hp, by simpa using he⟩)

theorem undotted_join_iff {text : String} : (n.join text).Undotted ↔ n.Undotted := by
  refine ⟨fun h p hp => h p (List.mem_append_left _ hp), fun h p hp => ?_⟩
  rcases List.mem_append.mp hp with hp | hp
  · exact h p hp
  · exact undotted_keep_segments hp

theorem parse_dotted_iff : parse n.dotted = .ok n ↔ n.Undotted := by
  refine ⟨undotted_of_parse, fun h => ?_⟩
  rw [parse, segments_dotted, h.segments_eq, ofParts_eq_ok]
  exact keep_of_filled n.filled

theorem read?_render_iff : read? n.toJson.render = some n ↔ n.Undotted := by
  refine ⟨undotted_of_read?, fun h => ?_⟩
  have hlegible : n.toJson.Legible := rfl
  rw [read?, Json.parse?_render hlegible, Option.bind_some]
  change (parse n.dotted).toOption = some n
  rw [parse_dotted_iff.mpr h]
  rfl

theorem Undotted.eq_of_segments (hn : n.Undotted) (hm : m.Undotted)
    (h : n.segments = m.segments) : n = m :=
  ext_parts (by rw [← hn.segments_eq, ← hm.segments_eq, h])

end Namespace

namespace Registry

/-- A text leads to the place of the name that it is read as. -/
theorem Orderly.resolve_eq_ok {r : Registry} (ho : r.Orderly) {text : String} {t : TypeRef} :
    r.resolve text = .ok t ↔
      ∃ n d, Namespace.parse text = .ok n ∧ r.slot? t = some ⟨n, d⟩ := by
  unfold resolve
  constructor
  · intro h
    split at h
    · cases h
    · next n hn =>
      split at h
      · next u hu =>
        cases h
        obtain ⟨d, hd⟩ := ho.lookup_iff.mp hu
        exact ⟨n, d, hn, hd⟩
      · cases h
  · rintro ⟨n, d, hn, hd⟩
    simp only [hn, ho.lookup_iff.mpr ⟨d, hd⟩]

/-- A place is found by the text of its name exactly if the text is read as that name. -/
theorem Orderly.resolve_dotted_iff {r : Registry} (ho : r.Orderly) {t : TypeRef} {n : Namespace}
    {d : Option Definition} (ht : r.slot? t = some ⟨n, d⟩) :
    r.resolve n.dotted = .ok t ↔ n.Undotted := by
  rw [ho.resolve_eq_ok, ← Namespace.parse_dotted_iff]
  constructor
  · rintro ⟨m, _, hm, hslot⟩
    cases ht.symm.trans hslot
    exact hm
  · intro hn
    exact ⟨n, d, hn, ht⟩

end Registry

/-- The text of a name is read as that name, plainly or as JSON, exactly if no part of it has a dot.
Two names have one text, or one display text, exactly if the pieces of their parts are the same, and
without dots they are then one name. A name that was read has no dots, one that was made of parts
has those of the parts, and joining adds none. In a registry a place is found by the text of its
name exactly if that name has no dots. -/
theorem dotted_text_identifies (n : Namespace) :
    (Namespace.parse n.dotted = .ok n ↔ n.Undotted) ∧
    (Namespace.read? n.toJson.render = some n ↔ n.Undotted) ∧
    (∀ m : Namespace, (n.dotted = m.dotted ↔ n.segments = m.segments) ∧
      (n.display = m.display ↔ n.segments = m.segments) ∧
      (n.Undotted → m.Undotted → n.segments = m.segments → n = m)) ∧
    (∀ text, Namespace.parse text = .ok n ∨ Namespace.read? text = some n → n.Undotted) ∧
    (∀ parts, Namespace.ofParts parts = .ok n → (n.Undotted ↔ ∀ p ∈ parts, '.' ∉ p.toList)) ∧
    (∀ text : String, (n.join text).Undotted ↔ n.Undotted) ∧
    (∀ qs t d, (Registry.built qs).slot? t = some ⟨n, d⟩ →
      ((Registry.built qs).resolve n.dotted = .ok t ↔ n.Undotted)) := by
  refine ⟨Namespace.parse_dotted_iff, Namespace.read?_render_iff, fun m => ?_, ?_,
    fun parts => Namespace.undotted_ofParts_iff, fun text => Namespace.undotted_join_iff,
    fun qs t d => (Registry.built_orderly qs).resolve_dotted_iff⟩
  · exact ⟨Namespace.dotted_eq_iff, Namespace.display_eq_iff.trans Namespace.dotted_eq_iff,
      Namespace.Undotted.eq_of_segments⟩
  · rintro text (h | h)
    · exact Namespace.undotted_of_parse h
    · exact Namespace.undotted_of_read? h

namespace Shelf

/-- One part with a dot in it, and two parts. -/
def whole : Namespace := ⟨["Shelf.Box"], List.cons_ne_nil _ _, by decide⟩

def parted : Namespace := ⟨["Shelf", "Box"], List.cons_ne_nil _ _, by decide⟩

def requests : List Request := [.declare whole, .declare parted]

end Shelf

/-- Two names of one text: the text is read as the second, and leads to its place only. -/
theorem whole_read_as_parted :
    Namespace.ofParts ["Shelf.Box"] = .ok Shelf.whole ∧ ¬ Shelf.whole.Undotted ∧
    Shelf.parted.Undotted ∧ Shelf.whole.dotted = Shelf.parted.dotted ∧
    Namespace.parse Shelf.whole.dotted ≠ .ok Shelf.whole ∧
    (Registry.built Shelf.requests).slot? ⟨0⟩ = some ⟨Shelf.whole, none⟩ ∧
    (Registry.built Shelf.requests).resolve Shelf.whole.dotted ≠ .ok ⟨0⟩ ∧
    (Registry.built Shelf.requests).slot? ⟨1⟩ = some ⟨Shelf.parted, none⟩ ∧
    (Registry.built Shelf.requests).resolve Shelf.parted.dotted = .ok ⟨1⟩ := by
  obtain ⟨hread, _, htext, _, _, _, hresolve⟩ := dotted_text_identifies Shelf.whole
  obtain ⟨_, _, _, _, _, _, hfound⟩ := dotted_text_identifies Shelf.parted
  have hwhole : ¬ Shelf.whole.Undotted := by decide
  have hparted : Shelf.parted.Undotted := by decide
  have hfirst : (Registry.built Shelf.requests).slot? ⟨0⟩ = some ⟨Shelf.whole, none⟩ := by cbv
  have hsecond : (Registry.built Shelf.requests).slot? ⟨1⟩ = some ⟨Shelf.parted, none⟩ := by cbv
  refine ⟨by cbv, hwhole, hparted, (htext _).1.mpr (by cbv), ?_, hfirst, ?_, hsecond, ?_⟩
  · exact fun h => hwhole (hread.mp h)
  · exact fun h => hwhole ((hresolve _ _ _ hfirst).mp h)
  · exact (hfound _ _ _ hsecond).mpr hparted

end GuardedScript
