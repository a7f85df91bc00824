import GuardedScript.Proofs.Outline
import GuardedScript.Proofs.TypedPaths

/-!
Writing along paths. A look-up goes through all the segments of a path; a write cuts the path at its
last dot, looks up what comes before and sets the key that comes after. Both come to the same item,
and where a look-up fails a write fails for the same reason, as long as no segment is empty. A
look-up refuses every empty segment, a write only those before the last dot.
-/

namespace GuardedScript

namespace Text

theorem cutLastDot_eq_some {cs before after : List Char} :
    cutLastDot cs = some (before, after) ↔ cs = before ++ '.' :: after ∧ '.' ∉ after := by
  induction cs generalizing before after with
  | nil => simp [cutLastDot]
  | cons c cs ih =>
    rw [cutLastDot]
    cases hcut : cutLastDot cs with
    | some p =>
      obtain ⟨b, a⟩ := p
      obtain ⟨rfl, ha⟩ := ih.mp hcut
      constructor
      · rintro ⟨⟩
        exact ⟨rfl, ha⟩
      · rintro ⟨hcs, hafter⟩
        cases before with
        | nil =>
          obtain ⟨_, rfl⟩ := List.cons.inj hcs
          simp at hafter
        | cons d before =>
          obtain ⟨rfl, htail⟩ := List.cons.inj hcs
          cases hcut.symm.trans (ih.mpr ⟨htail, hafter⟩)
          rfl
    | none =>
      have hdot := cutLastDot_eq_none hcut
      constructor
      · intro h
        dsimp only at h
        split at h <;> cases h
        next hc => exact ⟨by rw [hc, List.nil_append], hdot⟩
      · rintro ⟨hcs, hafter⟩
        cases before with
        | nil =>
          obtain ⟨rfl, rfl⟩ := List.cons.inj hcs
          rfl
        | cons d before =>
          obtain ⟨_, rfl⟩ := List.cons.inj hcs
          simp at hdot

/-- The last dot of a text is where it is cut. -/
theorem cutLast_eq_some {s before last : String} :
    cutLast s = some (before, last) ↔ s = before ++ "." ++ last ∧ '.' ∉ last.toList := by
  have hparts : cutLast s = some (before, last) ↔
      cutLastDot s.toList = some (before.toList, last.toList) := by
    rw [cutLast, Option.map_eq_some_iff]
    constructor
    · rintro ⟨⟨b, a⟩, hcut, hp⟩
      cases hp
      simpa using hcut
    · intro hcut
      exact ⟨_, hcut, by simp⟩
  rw [hparts, cutLastDot_eq_some, ← String.toList_inj]
  simp

theorem segments_ne_nil (s : String) : segments s ≠ [] := by
  rw [segments, ne_eq, List.map_eq_nil_iff]
  exact splitDots_ne_nil _

theorem segments_of_uncut {s : String} (h : cutLast s = none) : segments s = [s] := by
  rw [cutLast, Option.map_eq_none_iff] at h
  rw [segments, splitDots_of_not_mem (cutLastDot_eq_none h)]
  simp

theorem segments_of_cut {s before last : String} (h : cutLast s = some (before, last)) :
    segments s = segments before ++ [last] := by
  obtain ⟨rfl, hlast⟩ := cutLast_eq_some.mp h
  rw [segments_append_dot]
  congr 1
  rw [segments, splitDots_of_not_mem hlast]
  simp

end Text

/-- The same failure at the same key or segment; only the path that is told may be another. -/
inductive MemoryError.SameSpot : MemoryError → MemoryError → Prop where
  | refl (e) : SameSpot e e
  | nullReference (path path' segment) :
    SameSpot (.nullReference path segment) (.nullReference path' segment)

namespace Heap

variable {h h' : Heap} {v : View} {path before last key : String} {value : ObjectId} {i j : Item}
  {e : MemoryError}

/-- The item a write comes to, with the key it is set under. -/
def target (h : Heap) (v : View) (path : String) : Except MemoryError (String × Item) :=
  match Text.cutLast path with
  | none =>
    match v.find h path with
    | none => .error (.keyNotFound path)
    | some i => .ok (path, i)
  | some (before, last) =>
    match h.resolvePath v before with
    | .error e => .error e
    | .ok j =>
      match h.walk path [last] j with
      | .error e => .error e
      | .ok i => .ok (last, i)

/-- Puts a value into the item that stands under a key. -/
def putItem (h : Heap) (key : String) (i : Item) (value : ObjectId) :
    Except MemoryError Bool × Heap :=
  if i.property.flags.writable then
    if h.isA value i.property.type then (.ok true, h.assign i.id (some value)) else (.ok false, h)
  else (.error (.notWritable key), h)

theorem putIn_of_find (hi : v.find h key = some i) :
    h.putIn v key value = h.putItem key i value := by
  rw [putIn, hi, putItem]
  by_cases hf : h.isA value i.property.type = true <;> simp [store, hf]

theorem putIn_missing (hi : v.find h key = none) :
    h.putIn v key value = (.error (.keyNotFound key), h) := by
  rw [putIn, hi]

/-- A write finds its item first and then puts the value there, or it stops before. -/
theorem putPath_cases (h : Heap) (v : View) (path : String) (value : ObjectId) :
    (∃ key i, h.target v path = .ok (key, i) ∧ h.putPath v path value = h.putItem key i value) ∨
      ∃ e, h.target v path = .error e ∧ h.putPath v path value = (.error e, h) := by
  rw [putPath, target]
  cases Text.cutLast path with
  | none =>
    cases hi : v.find h path with
    | none => exact .inr ⟨_, rfl, putIn_missing hi⟩
    | some i => exact .inl ⟨path, i, rfl, putIn_of_find hi⟩
  | some cut =>
    obtain ⟨before, last⟩ := cut
    cases hr : h.resolvePath v before with
    | error e => exact .inr ⟨e, by simp only [hr], by simp only [hr]⟩
    | ok j =>
      cases hh : h.holder j path with
      | error e => exact .inr ⟨e, by simp only [hr, walk, hh], by simp only [hr, hh]⟩
      | ok o =>
        cases hi : (h.outside o).find h last with
        | none =>
          exact .inr ⟨.keyNotFound last, by simp only [hr, walk, hh, hi],
            by simp only [hr, hh, putIn_missing hi]⟩
        | some i =>
          exact .inl ⟨last, i, by simp only [hr, walk, hh, hi],
            by simp only [hr, hh, putIn_of_find hi]⟩

theorem putPath_of_target (ht : h.target v path = .ok (key, i)) :
    h.putPath v path value = h.putItem key i value := by
  rcases h.putPath_cases v path value with ⟨_, _, ht', hput⟩ | ⟨_, ht', _⟩
  · cases ht.symm.trans ht'
    exact hput
  · cases ht.symm.trans ht'

theorem putPath_of_target_error (ht : h.target v path = .error e) :
    h.putPath v path value = (.error e, h) := by
  rcases h.putPath_cases v path value with ⟨_, _, ht', _⟩ | ⟨_, ht', hput⟩
  · cases ht.symm.trans ht'
  · cases ht.symm.trans ht'
    exact hput

theorem putItem_eq_true :
    h.putItem key i value = (.ok true, h') ↔ i.property.flags.writable = true ∧
      h.isA value i.property.type = true ∧ h' = h.assign i.id (some value) := by
  unfold putItem
  split
  · next hw =>
    split
    · next hf => simp [hw, hf, eq_comm]
    · next hf => simp [hf]
  · next hw => simp [hw]

theorem hasPlace_of_item? {id : ItemId} (hi : h.item? id = some i) : h.hasPlace id = true := by
  cases id with
  | field o w k =>
    rw [hasPlace]
    cases ho : h.object? o with
    | none =>
      rw [item?, fieldProperties, ho] at hi
      cases hi
    | some x => rfl
  | static r t w k => rfl
  | loose n =>
    obtain ⟨c, hc, _⟩ := Option.map_eq_some_iff.mp hi
    rw [hasPlace, hc]
    rfl

theorem walk_append (h : Heap) (path : String) (ss ts : List String) (i : Item) :
    h.walk path (ss ++ ts) i = (h.walk path ss i).bind (h.walk path ts) := by
  induction ss generalizing i with
  | nil => rfl
  | cons s ss ih =>
    rw [List.cons_append, walk, walk]
    cases h.holder i path with
    | error e => rfl
    | ok o =>
      dsimp only
      cases (h.outside o).find h s with
      | none => rfl
      | some next => exact ih next

theorem holder_alike (path' : String) (hh : h.holder i path = .error e) :
    ∃ e', h.holder i path' = .error e' ∧ e'.SameSpot e := by
  unfold holder
  rcases holder_blocked hh with ⟨hr, rfl⟩ | ⟨hr, hv, rfl⟩
  · exact ⟨_, by rw [hr]; rfl, .refl _⟩
  · exact ⟨_, by rw [hr, hv]; rfl, .nullReference _ _ _⟩

/-- What stops a walk does not depend on the text that is told. -/
theorem walk_alike {ss : List String} (path' : String) (hw : h.walk path ss i = .error e) :
    ∃ e', h.walk path' ss i = .error e' ∧ e'.SameSpot e := by
  induction ss generalizing i with
  | nil => cases hw
  | cons s ss ih =>
    rw [walk] at hw ⊢
    cases hh : h.holder i path with
    | error e₀ =>
      rw [hh] at hw
      cases hw
      obtain ⟨e', he', halike⟩ := holder_alike path' hh
      exact ⟨e', by rw [he'], halike⟩
    | ok o =>
      rw [hh] at hw
      rw [holder_eq_ok.mpr (holder_eq_ok.mp hh)]
      dsimp only at hw ⊢
      split at hw
      · cases hw
        exact ⟨_, rfl, .refl _⟩
      · exact ih hw

theorem target_of_uncut (hcut : Text.cutLast path = none) (hi : v.find h path = some i) :
    h.target v path = .ok (path, i) := by
  simp only [target, hcut, hi]

theorem target_of_cut (hcut : Text.cutLast path = some (before, last))
    (hr : h.resolvePath v before = .ok j) (hw : h.walk path [last] j = .ok i) :
    h.target v path = .ok (last, i) := by
  simp only [target, hcut, hr, hw]

/-- What a write comes to has been found under the last part of the path. -/
theorem target_cases (ht : h.target v path = .ok (key, i)) :
    Text.cutLast path = none ∧ key = path ∧ v.find h path = some i ∨
      ∃ before j, Text.cutLast path = some (before, key) ∧ h.resolvePath v before = .ok j ∧
        h.walk path [key] j = .ok i := by
  unfold target at ht
  split at ht
  · next hcut =>
    split at ht <;> cases ht
    next hi => exact .inl ⟨hcut, rfl, hi⟩
  · next before last hcut =>
    split at ht
    · cases ht
    · next j hr =>
      split at ht <;> cases ht
      next hw => exact .inr ⟨before, j, hcut, hr, hw⟩

theorem target_key (ht : h.target v path = .ok (key, i)) :
    (Text.segments path).getLast? = some key := by
  rcases target_cases ht with ⟨hcut, rfl, _⟩ | ⟨before, j, hcut, _, _⟩
  · rw [Text.segments_of_uncut hcut, List.getLast?_singleton]
  · rw [Text.segments_of_cut hcut, List.getLast?_concat]

theorem not_blank_of_resolved (hr : h.resolvePath v path = .ok i) : "" ∉ Text.segments path := by
  intro hb
  rw [resolvePath, if_pos hb] at hr
  cases hr

theorem resolvePath_cons {first : String} {rest : List String} (hp : "" ∉ Text.segments path)
    (hs : Text.segments path = first :: rest) :
    h.resolvePath v path =
      (v.find h first).elim (.error (.keyNotFound first)) (h.walk path rest) := by
  rw [resolvePath, if_neg hp, hs]
  cases hk : v.find h first <;> simp only [hk, Option.elim]

section cut

variable (hcut : Text.cutLast path = some (before, last)) (hp : "" ∉ Text.segments path)
include hcut hp

theorem resolvePath_cut : ∃ first rest, Text.segments before = first :: rest ∧
    "" ∉ Text.segments before ∧ Text.segments path = first :: (rest ++ [last]) := by
  obtain ⟨first, rest, hbefore⟩ := List.exists_cons_of_ne_nil (Text.segments_ne_nil before)
  have hs := Text.segments_of_cut hcut
  refine ⟨first, rest, hbefore, ?_, ?_⟩
  · intro hb
    apply hp
    rw [hs]
    exact List.mem_append_left _ hb
  · rw [hs, hbefore, List.cons_append]

/-- The look-up of a whole path goes on where that of its first part ended. -/
theorem resolvePath_of_cut (hr : h.resolvePath v before = .ok j) :
    h.resolvePath v path = h.walk path [last] j := by
  obtain ⟨first, rest, hbefore, hb, hs⟩ := resolvePath_cut hcut hp
  rw [resolvePath_cons hb hbefore] at hr
  rw [resolvePath_cons hp hs]
  cases hk : v.find h first with
  | none =>
    rw [hk] at hr
    cases hr
  | some k =>
    rw [hk] at hr
    rw [Option.elim_some, walk_append, walk_ok_congr path hr]
    rfl

/-- If the look-up of the first part of a path fails, so does that of the whole path. -/
theorem resolvePath_of_cut_error (hr : h.resolvePath v before = .error e) :
    ∃ e', h.resolvePath v path = .error e' ∧ e'.SameSpot e := by
  obtain ⟨first, rest, hbefore, hb, hs⟩ := resolvePath_cut hcut hp
  rw [resolvePath_cons hb hbefore] at hr
  rw [resolvePath_cons hp hs]
  cases hk : v.find h first with
  | none =>
    rw [hk] at hr
    cases hr
    exact ⟨_, rfl, .refl _⟩
  | some k =>
    rw [hk] at hr
    obtain ⟨e', hw, halike⟩ := walk_alike path hr
    rw [Option.elim_some, walk_append, hw]
    exact ⟨e', rfl, halike⟩

end cut

/-- Where a look-up comes to an item, a write does too. -/
theorem target_of_resolved (hr : h.resolvePath v path = .ok i) :
    ∃ key, h.target v path = .ok (key, i) := by
  have hp := not_blank_of_resolved hr
  cases hcut : Text.cutLast path with
  | none =>
    rw [resolvePath_cons hp (Text.segments_of_uncut hcut)] at hr
    cases hi : v.find h path with
    | none =>
      rw [hi] at hr
      cases hr
    | some k =>
      rw [hi] at hr
      cases hr
      exact ⟨path, target_of_uncut hcut hi⟩
  | some cut =>
    obtain ⟨before, last⟩ := cut
    cases hb : h.resolvePath v before with
    | error e =>
      obtain ⟨e', he', _⟩ := resolvePath_of_cut_error hcut hp hb
      cases he'.symm.trans hr
    | ok j =>
      rw [resolvePath_of_cut hcut hp hb] at hr
      exact ⟨last, target_of_cut hcut hb hr⟩

/-- Where a look-up without empty segments fails, a write fails alike. -/
theorem target_of_unresolved (hp : "" ∉ Text.segments path)
    (hr : h.resolvePath v path = .error e) :
    ∃ e', h.target v path = .error e' ∧ e.SameSpot e' := by
  cases hcut : Text.cutLast path with
  | none =>
    rw [resolvePath_cons hp (Text.segments_of_uncut hcut)] at hr
    cases hi : v.find h path with
    | none =>
      rw [hi] at hr
      cases hr
      exact ⟨_, by simp only [target, hcut, hi], .refl _⟩
    | some k =>
      rw [hi] at hr
      cases hr
  | some cut =>
    obtain ⟨before, last⟩ := cut
    cases hb : h.resolvePath v before with
    | error e₀ =>
      obtain ⟨e', he', halike⟩ := resolvePath_of_cut_error hcut hp hb
      cases he'.symm.trans hr
      -- the write tells the error of the shorter path
      exact ⟨e₀, by simp only [target, hcut, hb], halike⟩
    | ok j =>
      have hw := (resolvePath_of_cut hcut hp hb).symm.trans hr
      exact ⟨e, by simp only [target, hcut, hb, hw], .refl _⟩

/-- What a write comes to and a look-up does not has been found under the empty key. -/
theorem target_blank (ht : h.target v path = .ok (key, i)) :
    h.resolvePath v path = .ok i ∨ key = "" := by
  by_cases hp : "" ∈ Text.segments path
  · right
    rcases target_cases ht with ⟨hcut, rfl, _⟩ | ⟨before, j, hcut, hb, _⟩
    · rw [Text.segments_of_uncut hcut, List.mem_singleton] at hp
      exact hp.symm
    · -- what comes before the last dot has been looked up, so the empty segment comes after it
      rw [Text.segments_of_cut hcut, List.mem_append, List.mem_singleton] at hp
      exact (hp.resolve_left (not_blank_of_resolved hb)).symm
  · left
    cases hr : h.resolvePath v path with
    | error e =>
      obtain ⟨e', he', _⟩ := target_of_unresolved hp hr
      cases he'.symm.trans ht
    | ok k =>
      obtain ⟨_, hk⟩ := target_of_resolved hr
      cases hk.symm.trans ht
      rfl

theorem item?_of_target (ht : h.target v path = .ok (key, i)) : h.item? i.id = some i := by
  rcases target_cases ht with ⟨_, _, hi⟩ | ⟨before, j, _, _, hw⟩
  · exact item?_of_viewFind hi
  · rcases walk_ok hw with ⟨hnil, _⟩ | ⟨o, k, hi⟩
    · cases hnil
    · exact item?_of_viewFind hi

end Heap

/-- Let no segment of a path be empty. If a look-up of the path comes to an item, a write along it
is a write of this item: refused when the item is not writable, without effect when the value is not
of its type, and otherwise the item holds the value and all else is as before, also where the path
runs through the item itself. If a look-up fails, a write fails in the same way, at the same key or
segment. A write that fails leaves the heap as it was. -/
theorem setPath_writes_resolved (h : Heap) (g : Group) (path : String) (value : ObjectId)
    (hp : ∀ segment ∈ Text.segments path, segment ≠ "") :
    (∀ i, h.resolvePath (h.view g) path = .ok i →
      (i.property.flags.writable = false →
        ∃ key, (Text.segments path).getLast? = some key ∧
          h.putPath (h.view g) path value = (.error (.notWritable key), h)) ∧
      (i.property.flags.writable = true → h.isA value i.property.type = false →
        h.putPath (h.view g) path value = (.ok false, h)) ∧
      (i.property.flags.writable = true → h.isA value i.property.type = true →
        ∃ h', h.putPath (h.view g) path value = (.ok true, h') ∧ h'.value? i.id = some value ∧
          h.SameExcept (· = i.id) h')) ∧
    ∀ e, h.resolvePath (h.view g) path = .error e →
      ∃ e', h.putPath (h.view g) path value = (.error e', h) ∧ e.SameSpot e' := by
  constructor
  · intro i hr
    obtain ⟨key, ht⟩ := Heap.target_of_resolved hr
    rw [Heap.putPath_of_target ht, Heap.putItem]
    refine ⟨?_, ?_, ?_⟩
    · intro hw
      exact ⟨key, Heap.target_key ht, by rw [hw]; rfl⟩
    · intro hw hf
      rw [hw, hf]
      rfl
    · intro hw hf
      refine ⟨h.assign i.id (some value), by rw [hw, hf]; rfl, ?_, .of_assign h i.id _ rfl⟩
      rw [Heap.value?_assign_place, if_pos]
      exact Heap.hasPlace_of_item? (Heap.item?_of_target ht)
  · intro e hr
    obtain ⟨e', he', halike⟩ := Heap.target_of_unresolved (fun hb => hp "" hb rfl) hr
    exact ⟨e', Heap.putPath_of_target_error he', halike⟩

namespace Ring

def link : Namespace := ⟨["Ring", "Link"], List.cons_ne_nil _ _, by decide⟩

def next : Property := ⟨"next", ⟨0⟩, {}⟩

/-- A property with the empty key. -/
def blank : Property := ⟨"", ⟨0⟩, {}⟩

def requests : List Request := [.declare link, .type { name := link, exposed := [next, blank] }]

/-- The first link is followed by itself, the second by none. -/
def heap : Heap :=
  { Heap.empty with
    registries := ⟨#[Registry.built requests]⟩
    objects := ⟨#[⟨⟨0⟩, ⟨0⟩, link, none, ⟨[((.exposed, "next"), ⟨0⟩)]⟩, none⟩,
      ⟨⟨0⟩, ⟨0⟩, link, none, {}, none⟩]⟩ }

def first : Group := .object ⟨0⟩
def second : Group := .object ⟨1⟩

def nextOfFirst : Item := ⟨.field ⟨0⟩ .exposed "next", next⟩

end Ring

/-- The path runs twice through the item that it comes to. On the link with no next one the same
path is stopped. -/
theorem ring_opened :
    Ring.heap.resolvePath (Ring.heap.view Ring.first) "next.next.next" = .ok Ring.nextOfFirst ∧
    (∃ h', Ring.heap.putPath (Ring.heap.view Ring.first) "next.next.next" ⟨1⟩ = (.ok true, h') ∧
      h'.value? Ring.nextOfFirst.id = some ⟨1⟩ ∧
      Ring.heap.SameExcept (· = Ring.nextOfFirst.id) h') ∧
    ∃ e, Ring.heap.putPath (Ring.heap.view Ring.second) "next.next.next" ⟨1⟩ =
        (.error e, Ring.heap) ∧
      MemoryError.SameSpot (.nullReference "next.next.next" "next") e := by
  have hp : ∀ segment ∈ Text.segments "next.next.next", segment ≠ "" := by decide
  have hfound : Ring.heap.resolvePath (Ring.heap.view Ring.first) "next.next.next" =
      .ok Ring.nextOfFirst := by cbv
  have hstopped : Ring.heap.resolvePath (Ring.heap.view Ring.second) "next.next.next" =
      .error (.nullReference "next.next.next" "next") := by cbv
  have hfits : Ring.heap.isA ⟨1⟩ Ring.nextOfFirst.property.type = true := by cbv
  refine ⟨hfound, ?_, ?_⟩
  · have hwrite := (setPath_writes_resolved Ring.heap Ring.first "next.next.next" ⟨1⟩ hp).1 _ hfound
    exact hwrite.2.2 rfl hfits
  · exact (setPath_writes_resolved Ring.heap Ring.second "next.next.next" ⟨1⟩ hp).2 _ hstopped

namespace Heap

/-- The path ends in an empty segment, and under the empty key an item is found there: in the group
itself, or on the object that the rest of the path leads to. -/
inductive BlankEnd (h : Heap) (v : View) : String → Item → Prop where
  | group {i} (hi : v.find h "" = some i) : BlankEnd h v "" i
  | object {before j o i} (hr : h.resolvePath v before = .ok j)
    (hread : j.property.flags.readable = true) (ho : h.value? j.id = some o)
    (hi : (h.outside o).find h "" = some i) : BlankEnd h v (before ++ ".") i

theorem walk_single {h : Heap} {path key : String} {i j : Item} :
    h.walk path [key] j = .ok i ↔ ∃ o, j.property.flags.readable = true ∧
      h.value? j.id = some o ∧ (h.outside o).find h key = some i := by
  constructor
  · intro hw
    rw [walk] at hw
    split at hw
    · cases hw
    · next o ho =>
      split at hw
      · cases hw
      · next hi =>
        cases hw
        obtain ⟨hread, hvalue⟩ := holder_eq_ok.mp ho
        exact ⟨o, hread, hvalue, hi⟩
  · rintro ⟨o, hread, hvalue, hi⟩
    simp only [walk, holder_eq_ok.mpr ⟨hread, hvalue⟩, hi]

theorem blankEnd_iff {h : Heap} {v : View} {path : String} {i : Item} :
    h.BlankEnd v path i ↔ h.target v path = .ok ("", i) := by
  constructor
  · rintro (hi | ⟨hr, hread, ho, hi⟩)
    · exact target_of_uncut rfl hi
    · apply target_of_cut _ hr (walk_single.mpr ⟨_, hread, ho, hi⟩)
      exact Text.cutLast_eq_some.mpr ⟨by simp, by simp⟩
  · intro ht
    rcases target_cases ht with ⟨_, rfl, hi⟩ | ⟨before, j, hcut, hr, hw⟩
    · exact .group hi
    · obtain ⟨o, hread, ho, hi⟩ := walk_single.mp hw
      obtain ⟨rfl, _⟩ := Text.cutLast_eq_some.mp hcut
      rw [String.append_empty]
      exact .object hr hread ho hi

theorem BlankEnd.not_resolved {h : Heap} {v : View} {path : String} {i : Item}
    (hb : h.BlankEnd v path i) : h.resolvePath v path = .error (.invalidPath path) := by
  have hmem := List.mem_of_getLast? (target_key (blankEnd_iff.mp hb))
  rw [resolvePath, if_pos hmem]

end Heap

/-- A write goes to the item that a look-up of the path comes to, or to one under the empty key at a
path that ends in an empty segment. A look-up refuses such a path, and the write succeeds when the
item is writable and the value of its type. So what can be written and not looked up are exactly
these. -/
theorem unresolved_writes (h : Heap) (g : Group) (path : String) (value : ObjectId) :
    (∀ h', h.setPath (h.view g) path value = .ok (true, h') →
      ∃ i, h' = h.assign i.id (some value) ∧
        (h.resolvePath (h.view g) path = .ok i ∨ h.BlankEnd (h.view g) path i)) ∧
    (∀ i, h.BlankEnd (h.view g) path i →
      h.resolvePath (h.view g) path = .error (.invalidPath path)) ∧
    ((∃ h', h.setPath (h.view g) path value = .ok (true, h')) ∧
        (∀ i, h.resolvePath (h.view g) path ≠ .ok i) ↔
      ∃ i, h.BlankEnd (h.view g) path i ∧ i.property.flags.writable = true ∧
        h.isA value i.property.type = true) := by
  have hwritten : ∀ {h'}, h.setPath (h.view g) path value = .ok (true, h') →
      ∃ i, (i.property.flags.writable = true ∧ h.isA value i.property.type = true ∧
          h' = h.assign i.id (some value)) ∧
        (h.resolvePath (h.view g) path = .ok i ∨ h.BlankEnd (h.view g) path i) := by
    intro h' hs
    have hput := Heap.granted_eq_ok.mp hs
    rcases h.putPath_cases (h.view g) path value with ⟨key, i, ht, hitem⟩ | ⟨e, _, hstop⟩
    · rw [hitem] at hput
      refine ⟨i, Heap.putItem_eq_true.mp hput, ?_⟩
      rcases Heap.target_blank ht with hr | rfl
      · exact .inl hr
      · exact .inr (Heap.blankEnd_iff.mpr ht)
    · cases hstop.symm.trans hput
  refine ⟨?_, fun i hb => hb.not_resolved, ?_, ?_⟩
  · intro h' hs
    obtain ⟨i, ⟨_, _, hassign⟩, hend⟩ := hwritten hs
    exact ⟨i, hassign, hend⟩
  · rintro ⟨⟨h', hs⟩, hunresolved⟩
    obtain ⟨i, ⟨hw, hf, _⟩, hend⟩ := hwritten hs
    exact ⟨i, hend.resolve_left (hunresolved i), hw, hf⟩
  · rintro ⟨i, hb, hw, hf⟩
    refine ⟨⟨h.assign i.id (some value), ?_⟩, ?_⟩
    · apply Heap.granted_eq_ok.mpr
      rw [Heap.putPath_of_target (Heap.blankEnd_iff.mp hb)]
      exact Heap.putItem_eq_true.mpr ⟨hw, hf, rfl⟩
    · intro k hk
      cases hb.not_resolved.symm.trans hk

def Ring.blankOfFirst : Item := ⟨.field ⟨0⟩ .exposed "", Ring.blank⟩

/-- The empty path, and a path with a dot at its end. -/
theorem blank_key_written :
    (Ring.heap.resolvePath (Ring.heap.view Ring.first) "" = .error (.invalidPath "") ∧
      ∃ h', Ring.heap.setPath (Ring.heap.view Ring.first) "" ⟨1⟩ = .ok (true, h')) ∧
    Ring.heap.resolvePath (Ring.heap.view Ring.first) "next." = .error (.invalidPath "next.") ∧
      ∃ h', Ring.heap.setPath (Ring.heap.view Ring.first) "next." ⟨1⟩ = .ok (true, h') := by
  have hfits : Ring.heap.isA ⟨1⟩ Ring.blankOfFirst.property.type = true := by cbv
  have hgroup : Ring.heap.BlankEnd (Ring.heap.view Ring.first) "" Ring.blankOfFirst :=
    .group (by cbv)
  have hnext : Ring.heap.resolvePath (Ring.heap.view Ring.first) "next" = .ok Ring.nextOfFirst := by
    cbv
  have hvalue : Ring.heap.value? Ring.nextOfFirst.id = some ⟨0⟩ := by cbv
  have hobject : Ring.heap.BlankEnd (Ring.heap.view Ring.first) "next." Ring.blankOfFirst :=
    .object hnext rfl hvalue (by cbv)
  obtain ⟨_, hrefused, hwritten⟩ := unresolved_writes Ring.heap Ring.first "" ⟨1⟩
  obtain ⟨_, hrefused', hwritten'⟩ := unresolved_writes Ring.heap Ring.first "next." ⟨1⟩
  exact ⟨⟨hrefused _ hgroup, (hwritten.mpr ⟨_, hgroup, rfl, hfits⟩).1⟩,
    hrefused' _ hobject, (hwritten'.mpr ⟨_, hobject, rfl, hfits⟩).1⟩

end GuardedScript
