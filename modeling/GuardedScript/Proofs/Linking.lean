import GuardedScript.Proofs.Layers

/-!
Three ways to find keys in common. Groups can be linked if no key comes that has been seen before;
they can be laid on a stack if each shares no key with those below it; and the report of a refused
link looks for equal neighbours among all keys, sorted. If no group lists a key twice, the three
come to the same: no two of the groups have a key in common.
-/

namespace GuardedScript

namespace Text

variable {seen texts : List String} {t : String}

theorem allNew_iff : allNew seen texts = true ↔ texts.Nodup ∧ ∀ t ∈ texts, t ∉ seen := by
  induction texts generalizing seen with
  | nil => simp [allNew]
  | cons a rest ih =>
    rw [allNew, Bool.and_eq_true, decide_eq_true_eq, ih, List.nodup_cons, List.forall_mem_cons]
    constructor
    · rintro ⟨ha, hn, hrest⟩
      refine ⟨⟨fun hm => hrest a hm List.mem_cons_self, hn⟩, ha, ?_⟩
      exact fun b hb hs => hrest b hb (List.mem_cons_of_mem a hs)
    · rintro ⟨⟨hm, hn⟩, ha, hrest⟩
      refine ⟨ha, hn, fun b hb hs => ?_⟩
      rcases List.mem_cons.mp hs with rfl | hs
      · exact hm hb
      · exact hrest b hb hs

theorem doubled_sublist (texts : List String) : (doubled texts).Sublist texts := by
  fun_induction doubled texts with
  | case1 a rest ih => exact ih.cons_cons a
  | case2 a b rest _ ih => exact ih.cons a
  | case3 => exact List.nil_sublist _

/-- In a sorted list a text that occurs again does so at the next place. -/
theorem mem_doubled (hs : texts.Pairwise (· ≤ ·)) : t ∈ doubled texts ↔ 2 ≤ texts.count t := by
  fun_induction doubled texts with
  | case1 a rest ih =>
    rw [List.mem_cons, ih hs.of_cons]
    by_cases ht : a = t
    · subst ht
      have htwice : (a :: a :: rest).count a = rest.count a + 2 := by simp
      exact iff_of_true (.inl rfl) (by omega)
    · have hskip : (a :: a :: rest).count t = (a :: rest).count t := List.count_cons_of_ne ht
      rw [hskip, or_iff_right (Ne.symm ht)]
  | case2 a b rest hab ih =>
    obtain ⟨ha, hrest⟩ := List.pairwise_cons.mp hs
    rw [ih hrest]
    by_cases ht : a = t
    · -- all that follow are greater
      subst ht
      have hlt : a < b := lt_of_le_of_ne (ha b List.mem_cons_self) hab
      have hnone : (b :: rest).count a = 0 := by
        apply List.count_eq_zero.mpr
        intro hm
        rcases List.mem_cons.mp hm with rfl | hm
        · exact lt_irrefl _ hlt
        · exact lt_irrefl _ (lt_of_lt_of_le hlt ((List.pairwise_cons.mp hrest).1 a hm))
      rw [List.count_cons_self, hnone]
      omega
    · rw [List.count_cons_of_ne ht]
  | case3 texts hshort =>
    cases texts with
    | nil => simp
    | cons a rest =>
      cases rest with
      | nil =>
        rw [List.count_singleton]
        split <;> simp
      | cons b rest => exact absurd rfl (hshort a b rest)

theorem mem_squeezed_doubled : t ∈ squeezed (doubled (sorted texts)) ↔ 2 ≤ texts.count t := by
  have hperm : (sorted texts).count t = texts.count t := (List.mergeSort_perm texts _).count_eq t
  rw [mem_squeezed, mem_doubled (pairwise_sorted texts), hperm]

theorem pairwise_squeezed_doubled (texts : List String) :
    (squeezed (doubled (sorted texts))).Pairwise (· < ·) :=
  pairwise_squeezed ((pairwise_sorted texts).sublist (doubled_sublist (sorted texts)))

end Text

theorem View.names_keysList (h : Heap) (vs : List View) :
    (View.keysList h vs).map Property.key = vs.flatMap (View.keyNames h) := by
  induction vs with
  | nil => rfl
  | cons v vs ih => rw [View.keysList, List.map_append, ih, List.flatMap_cons, View.keyNames]

namespace Heap

/-- The keys that a group lists. -/
def listed (h : Heap) (g : Group) : List String := (h.view g).keyNames h

/-- No key is listed by both groups. -/
def KeysApart (h : Heap) (a b : Group) : Prop := (h.listed a).Disjoint (h.listed b)

/-- Lays layers on a stack one after the other, up to the first that is refused. -/
def pushAll (h : Heap) (σ : StackId) : List Group → Except MemoryError Heap
  | [] => .ok h
  | g :: rest => (h.pushChecked σ g).bind fun h => h.pushAll σ rest

variable {h h' : Heap} {σ : StackId} {g : Group} {groups : List Group} {key : String}

theorem names_views (h : Heap) (groups : List Group) :
    (View.keysList h (groups.map h.view)).map Property.key = groups.flatMap h.listed := by
  rw [View.names_keysList, List.flatMap_map]
  rfl

/-- The links are checked with one list of all keys. -/
theorem canLink_iff_pairwise (hn : ∀ g ∈ groups, (h.listed g).Nodup) :
    canLink h (groups.map h.view) = true ↔ groups.Pairwise h.KeysApart := by
  rw [canLink, Text.allNew_iff, names_views, List.nodup_flatMap]
  constructor
  · rintro ⟨⟨_, hd⟩, _⟩
    exact hd
  · intro hd
    exact ⟨⟨hn, hd⟩, fun _ _ => List.not_mem_nil⟩

/-- A layer is laid if it has no key in common with those below. -/
theorem pushChecked_ok_iff : (∃ h', h.pushChecked σ g = .ok h') ↔
    ∀ a ∈ h.layers σ, h.KeysApart a g := by
  have hnil : conflictingKeys h ((h.layers σ).map h.view) (h.view g) = [] ↔
      ∀ a ∈ h.layers σ, h.KeysApart a g := by
    rw [List.eq_nil_iff_forall_not_mem]
    constructor
    · intro hnone a ha key hka hkg
      refine hnone key (mem_conflictingKeys.mpr ⟨hkg, ?_⟩)
      rw [View.keyNames, View.keys, names_views]
      exact List.mem_flatMap.mpr ⟨a, ha, hka⟩
    · intro hapart key hkey
      obtain ⟨hkg, hkeys⟩ := mem_conflictingKeys.mp hkey
      rw [View.keyNames, View.keys, names_views] at hkeys
      obtain ⟨a, ha, hka⟩ := List.mem_flatMap.mp hkeys
      exact hapart a ha hka hkg
  rcases push_cases h σ g with ⟨hnone, hok, _⟩ | ⟨keys, hne, hkeys, herror, _⟩
  · exact iff_of_true ⟨_, hok⟩ (hnil.mp hnone)
  · refine iff_of_false ?_ ?_
    · rintro ⟨h', hok⟩
      rw [herror] at hok
      cases hok
    · intro hapart
      exact hne (hkeys.symm.trans (hnil.mpr hapart))

theorem keyNames_setLayers (ls : List Group) (v : View) :
    v.keyNames (h.setLayers σ ls) = v.keyNames h := by
  have hitems : ∀ x, (h.setLayers σ ls).items x = h.items x := by
    intro x
    cases x <;> rfl
  rw [View.keyNames, View.keyNames, View.keys_eq, View.keys_eq]
  simp only [hitems]

/-- What a group lists stays the same while layers are laid on a stack that it does not lead to. -/
theorem Fits.listed_setLayers (hf : h.Fits σ g) (ls : List Group) :
    (h.setLayers σ ls).listed g = h.listed g := by
  rw [listed, hf.view_setLayers ls, keyNames_setLayers, listed]

/-- On a stack without keys in common, one layer after the other is laid exactly if there are none
in common then. -/
theorem pushAll_ok_iff (hσ : σ.index < h.layered.size)
    (hf : ∀ a ∈ h.layers σ ++ groups, h.Fits σ a) (hd : (h.layers σ).Pairwise h.KeysApart) :
    (∃ h', h.pushAll σ groups = .ok h' ∧ h'.layers σ = h.layers σ ++ groups) ↔
      (h.layers σ ++ groups).Pairwise h.KeysApart := by
  induction groups generalizing h with
  | nil =>
    rw [List.append_nil]
    exact iff_of_true ⟨h, rfl, rfl⟩ hd
  | cons g rest ih =>
    rw [List.append_cons] at hf ⊢
    rcases push_cases h σ g with ⟨_, hok, _⟩ | ⟨_, _, _, herror, _⟩
    · have hbelow := pushChecked_ok_iff.mp ⟨_, hok⟩
      have hlayers : (h.setLayers σ (h.layers σ ++ [g])).layers σ = h.layers σ ++ [g] := by
        rw [layers_setLayers hσ, if_pos rfl]
      have hsame : ∀ {a b}, a ∈ (h.layers σ ++ [g]) ++ rest → b ∈ (h.layers σ ++ [g]) ++ rest →
          ((h.setLayers σ (h.layers σ ++ [g])).KeysApart a b ↔ h.KeysApart a b) := by
        intro a b ha hb
        rw [KeysApart, (hf a ha).listed_setLayers, (hf b hb).listed_setLayers, KeysApart]
      have hlaid : (h.layers σ ++ [g]).Pairwise h.KeysApart := by
        refine List.pairwise_append.mpr ⟨hd, List.pairwise_singleton _ _, ?_⟩
        intro a ha b hb
        rw [List.mem_singleton.mp hb]
        exact hbelow a ha
      have hnext := ih (h := h.setLayers σ (h.layers σ ++ [g]))
        (by rwa [size_layered_setLayers])
        (by
          rw [hlayers]
          exact fun a ha => (hf a ha).setLayers _)
        (by
          rw [hlayers]
          exact hlaid.imp_of_mem fun ha hb => (hsame (List.mem_append_left _ ha)
            (List.mem_append_left _ hb)).mpr)
      rw [hlayers] at hnext
      rw [pushAll, hok, Except.bind, hnext]
      exact List.Pairwise.iff_of_mem hsame
    · refine iff_of_false ?_ ?_
      · rintro ⟨h', hok, _⟩
        rw [pushAll, herror] at hok
        cases hok
      · intro hp
        have hlaid := (List.pairwise_append.mp hp).1
        have hbelow : ∀ a ∈ h.layers σ, h.KeysApart a g :=
          fun a ha => (List.pairwise_append.mp hlaid).2.2 a ha g (List.mem_singleton.mpr rfl)
        obtain ⟨h', hok⟩ := pushChecked_ok_iff.mpr hbelow
        rw [herror] at hok
        cases hok

/-- A key occurs among all that are listed as often as there are groups that list it. -/
theorem count_listed (hn : ∀ g ∈ groups, (h.listed g).Nodup) (key : String) :
    (groups.flatMap h.listed).count key = groups.countP (key ∈ h.listed ·) := by
  induction groups with
  | nil => rfl
  | cons g groups ih =>
    obtain ⟨hg, hrest⟩ := List.forall_mem_cons.mp hn
    rw [List.flatMap_cons, List.count_append, ih hrest, List.countP_cons, hg.count, Nat.add_comm]
    simp only [decide_eq_true_eq]

theorem mem_sharedKeys (hn : ∀ g ∈ groups, (h.listed g).Nodup) :
    key ∈ sharedKeys h (groups.map h.view) ↔ 2 ≤ groups.countP (key ∈ h.listed ·) := by
  rw [sharedKeys, names_views, Text.mem_squeezed_doubled, count_listed hn]

end Heap

/-- For groups that list no key twice each, the check of links and the check of layers agree, on any
empty stack that none of the groups leads to. A link that is refused reports the keys that at least
two of the groups list, strictly sorted. -/
theorem disjointness_checks_agree (h : Heap) (groups : List Group)
    (hn : ∀ g ∈ groups, (h.listed g).Nodup) :
    (∀ σ, σ.index < h.layered.size → h.layers σ = [] → (∀ g ∈ groups, h.Fits σ g) →
      (canLink h (groups.map h.view) = true ↔
        ∃ h', h.pushAll σ groups = .ok h' ∧ h'.layers σ = groups)) ∧
    (canLink h (groups.map h.view) = true ↔ Group.linkChecked h groups = .ok (.linked groups)) ∧
    ∀ e, Group.linkChecked h groups = .error e → ∃ keys : List String,
      e = .layerConflict keys ∧ keys.Pairwise (· < ·) ∧
        ∀ key, key ∈ keys ↔ 2 ≤ groups.countP (key ∈ h.listed ·) := by
  refine ⟨?_, ?_, ?_⟩
  · intro σ hσ hempty hf
    rw [Heap.canLink_iff_pairwise hn]
    have hlaid : (∃ h', h.pushAll σ groups = .ok h' ∧ h'.layers σ = h.layers σ ++ groups) ↔
        (h.layers σ ++ groups).Pairwise h.KeysApart :=
      Heap.pushAll_ok_iff hσ (by rwa [hempty]) (by rw [hempty]; exact .nil)
    rw [hempty, List.nil_append] at hlaid
    exact hlaid.symm
  · unfold Group.linkChecked
    split
    · next hlink => exact iff_of_true hlink rfl
    · next hlink => exact iff_of_false hlink (by simp)
  · intro e he
    unfold Group.linkChecked at he
    split at he <;> cases he
    exact ⟨_, rfl, Text.pairwise_squeezed_doubled _, fun key => Heap.mem_sharedKeys hn⟩

namespace Desk

def cup : Property := ⟨"cup", ⟨0⟩, {}⟩

/-- Three groups, the second of which has the key of the first, and a new stack. -/
def spread : Heap :=
  ((furnished.newFixedGroup [pen, lamp] []).1.newFixedGroup [cup] []).1.newStack.1

def parts (ns : List Nat) : List Group := ns.map fun n => .plain (.loose n)

theorem parts_fit (ns : List Nat) : ∀ g ∈ parts ns, spread.Fits ⟨0⟩ g := by
  intro g hg τ hτ
  obtain ⟨n, _, rfl⟩ := List.mem_map.mp hg
  cases List.mem_singleton.mp hτ

end Desk

theorem desk_checks_agree :
    (∃ h, Desk.spread.pushAll ⟨0⟩ (Desk.parts [1, 2]) = .ok h ∧
      h.layers ⟨0⟩ = Desk.parts [1, 2]) ∧
    Group.linkChecked Desk.spread (Desk.parts [1, 0, 2, 1]) =
      .error (.layerConflict ["lamp", "pen"]) ∧
    (∀ key, key ∈ ["lamp", "pen"] ↔
      2 ≤ (Desk.parts [1, 0, 2, 1]).countP (key ∈ Desk.spread.listed ·)) ∧
    ¬ ∃ h, Desk.spread.pushAll ⟨0⟩ (Desk.parts [1, 0, 2, 1]) = .ok h ∧
      h.layers ⟨0⟩ = Desk.parts [1, 0, 2, 1] := by
  have hlisted : Desk.spread.listed (.plain (.loose 0)) = ["lamp"] ∧
      Desk.spread.listed (.plain (.loose 1)) = ["pen", "lamp"] ∧
      Desk.spread.listed (.plain (.loose 2)) = ["cup"] := by cbv
  obtain ⟨h0, h1, h2⟩ := hlisted
  have happart : ∀ g ∈ Desk.parts [1, 2], (Desk.spread.listed g).Nodup := by
    simp [Desk.parts, h1, h2]
  have hshared : ∀ g ∈ Desk.parts [1, 0, 2, 1], (Desk.spread.listed g).Nodup := by
    simp [Desk.parts, h0, h1, h2]
  have herror : Group.linkChecked Desk.spread (Desk.parts [1, 0, 2, 1]) =
      .error (.layerConflict ["lamp", "pen"]) := by cbv
  obtain ⟨hlay, _, _⟩ := disjointness_checks_agree Desk.spread _ happart
  obtain ⟨hrefuse, _, hreport⟩ := disjointness_checks_agree Desk.spread _ hshared
  obtain ⟨keys, heq, _, hkeys⟩ := hreport _ herror
  cases heq
  refine ⟨(hlay ⟨0⟩ (by decide) rfl (Desk.parts_fit _)).mp (by cbv), herror, hkeys, ?_⟩
  rw [← hrefuse ⟨0⟩ (by decide) rfl (Desk.parts_fit _)]
  cbv
  decide

end GuardedScript
