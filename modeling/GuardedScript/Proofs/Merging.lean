import GuardedScript.Proofs.ConfigText
import GuardedScript.Proofs.Coverage

/-!
The algebra of requirements and grants. Capabilities are joined by name: what one of them requires
the whole requires, and what one of them leaves optional stays optional unless another requires it.
So neither the grouping nor the order of joining matters, even if some of them list a name on both
sides; and what a grant covers is an order on the required names alone.
-/

namespace GuardedScript

namespace CapabilitySet

variable {s t : CapabilitySet}

theorem ext_members (h : s.members = t.members) : s = t := by
  cases s
  cases t
  congr

theorem insertAll_of_known {cs : List Capability} (h : ∀ c ∈ cs, c.name ∈ s.names) :
    s.insertAll cs = s := by
  induction cs with
  | nil => rfl
  | cons c cs ih =>
    obtain ⟨hc, hcs⟩ := List.forall_mem_cons.mp h
    have hinsert : s.insert c = s := by rw [insert, dif_pos hc]
    rw [insertAll, List.foldl_cons, hinsert]
    exact ih hcs

@[simp] theorem empty_union (s : CapabilitySet) : empty.union s = s :=
  ext_members (members_insertAll s.distinct)

@[simp] theorem union_self (s : CapabilitySet) : s.union s = s :=
  insertAll_of_known fun _ hc => List.mem_map_of_mem hc

theorem minus_eq_self (h : ∀ n ∈ s.names, n ∉ t.names) : s.minus t = s := by
  apply ext_members
  rw [minus, filter, List.filter_eq_self]
  intro c hc
  have hname : c.name ∉ t.names := h c.name (List.mem_map_of_mem hc)
  simpa [has] using hname

/-- No name stands twice, so the order by name is strict. -/
theorem sorted_strict (s : CapabilitySet) : (s.sorted.map Capability.name).Pairwise (· < ·) := by
  have hne : (s.sorted.map Capability.name).Nodup :=
    (s.sorted_perm.map Capability.name).nodup_iff.mpr s.distinct
  have hle : (s.sorted.map Capability.name).Pairwise (· ≤ ·) := by
    rw [List.pairwise_map]
    exact s.pairwise_sorted.imp of_decide_eq_true
  exact (hle.and hne).imp fun ⟨hle, hne⟩ => lt_of_le_of_ne hle hne

theorem mem_names_sorted {n : String} : n ∈ s.sorted.map Capability.name ↔ n ∈ s.names :=
  (s.sorted_perm.map Capability.name).mem_iff

end CapabilitySet

namespace Capabilities

/-- What can be made by the operations, without reading a text. -/
inductive Built : Capabilities → Prop where
  | empty : Built empty
  | make (required optional) : Built (make required optional)
  | require {c} (hc : Built c) (cap) : Built (c.require cap)
  | allow {c} (hc : Built c) (cap) : Built (c.allow cap)
  | union {c d} (hc : Built c) (hd : Built d) : Built (c.union d)
  | merge {cs} (hcs : ∀ c ∈ cs, Built c) : Built (merge cs)

variable {a b c d : Capabilities} {cs : List Capabilities} {n : String}

/-- No name is both required and optional. -/
def Exclusive (c : Capabilities) : Prop := ∀ n ∈ c.required.names, n ∉ c.optional.names

instance (c : Capabilities) : Decidable c.Exclusive :=
  inferInstanceAs (Decidable (∀ n ∈ c.required.names, _))

theorem sameNames_iff : c.sameNames d = true ↔
    (∀ n, n ∈ c.required.names ↔ n ∈ d.required.names) ∧
      ∀ n, n ∈ c.optional.names ↔ n ∈ d.optional.names := by
  simp only [sameNames, Bool.and_eq_true, CapabilitySet.subset_iff]
  constructor
  · rintro ⟨⟨⟨hcd, hdc⟩, hcd'⟩, hdc'⟩
    exact ⟨fun n => ⟨hcd n, hdc n⟩, fun n => ⟨hcd' n, hdc' n⟩⟩
  · rintro ⟨hr, ho⟩
    exact ⟨⟨⟨fun n => (hr n).mp, fun n => (hr n).mpr⟩, fun n => (ho n).mp⟩, fun n => (ho n).mpr⟩

theorem mem_optional_merge : n ∈ (merge cs).optional.names ↔
    (∃ c ∈ cs, n ∈ c.optional.names) ∧ n ∉ (merge cs).required.names := by
  simp only [merge, CapabilitySet.mem_names_minus, CapabilitySet.mem_names_foldl_union,
    CapabilitySet.names_empty, List.not_mem_nil, false_or]

theorem merge_exclusive (cs : List Capabilities) : (merge cs).Exclusive :=
  fun _ hn hopt => (mem_optional_merge.mp hopt).2 hn

theorem union_exclusive (c d : Capabilities) : (c.union d).Exclusive := merge_exclusive [c, d]

section building

theorem make_exclusive (required optional : List Capability) :
    (make required optional).Exclusive := by
  intro n hn hopt
  simp only [make, CapabilitySet.mem_names_ofList, List.mem_map, List.mem_filter] at hn hopt
  obtain ⟨cap, ⟨_, hfree⟩, rfl⟩ := hopt
  have hhas : (CapabilitySet.ofList required).has cap.name = true :=
    CapabilitySet.has_iff.mpr (CapabilitySet.mem_names_ofList.mpr (List.mem_map.mpr hn))
  rw [hhas] at hfree
  cases hfree

theorem Exclusive.require (hc : c.Exclusive) (cap : Capability) : (c.require cap).Exclusive := by
  intro n hn hopt
  obtain ⟨hold, hne⟩ := CapabilitySet.mem_names_erase.mp hopt
  rcases CapabilitySet.mem_names_insert.mp hn with hn | hn
  · exact hc n hn hold
  · exact hne hn

theorem Exclusive.allow (hc : c.Exclusive) (cap : Capability) : (c.allow cap).Exclusive := by
  unfold Capabilities.allow
  split
  · exact hc
  · next hfree =>
    intro n hn hopt
    rcases CapabilitySet.mem_names_insert.mp hopt with hold | rfl
    · exact hc n hn hold
    · exact hfree (CapabilitySet.has_iff.mpr hn)

/-- Each operation moves a name out of the optional ones when it comes to be required. -/
theorem Built.exclusive (hc : Built c) : c.Exclusive := by
  induction hc with
  | empty => exact fun _ hn => nomatch hn
  | make required optional => exact make_exclusive required optional
  | require _ cap ih => exact ih.require cap
  | allow _ cap ih => exact ih.allow cap
  | union => exact union_exclusive _ _
  | merge => exact merge_exclusive _

theorem Exclusive.union_self (hc : c.Exclusive) : c.union c = c := by
  have hoptional : c.optional.minus c.required = c.optional :=
    CapabilitySet.minus_eq_self fun n hopt hreq => hc n hreq hopt
  simp only [union, merge, List.foldl_cons, List.foldl_nil, CapabilitySet.empty_union,
    CapabilitySet.union_self, hoptional]

end building

section joining

/-- A way of joining capabilities two at a time. -/
inductive Joining where
  | one (c : Capabilities)
  | two (left right : Joining)

namespace Joining

def members : Joining → List Capabilities
  | .one c => [c]
  | .two left right => left.members ++ right.members

def result : Joining → Capabilities
  | .one c => c
  | .two left right => left.result.union right.result

theorem mem_required (j : Joining) :
    n ∈ j.result.required.names ↔ n ∈ (merge j.members).required.names := by
  rw [mem_required_merge]
  induction j with
  | one c => simp [members, result]
  | two left right ihl ihr =>
    simp only [result, members, union, mem_required_merge, List.exists_mem_cons_iff, ihl, ihr,
      List.mem_append, or_and_right, exists_or, List.not_mem_nil, false_and, exists_false, or_false]

/-- Apart from names that are required, nothing optional is lost. A single member may list a name
on both sides, which is why those names are left out. -/
theorem mem_optional (j : Joining) (hn : n ∉ j.result.required.names) :
    n ∈ j.result.optional.names ↔ ∃ c ∈ j.members, n ∈ c.optional.names := by
  induction j with
  | one c => simp [members, result]
  | two left right ihl ihr =>
    have hsides : n ∉ left.result.required.names ∧ n ∉ right.result.required.names := by
      simpa [result, union, mem_required_merge] using hn
    have hunion : n ∈ (left.result.union right.result).optional.names ↔
        n ∈ left.result.optional.names ∨ n ∈ right.result.optional.names := by
      rw [union, mem_optional_merge, ← union]
      simp only [List.exists_mem_cons_iff, List.not_mem_nil, false_and, exists_false, or_false]
      exact and_iff_left hn
    rw [result, hunion, ihl hsides.1, ihr hsides.2, members]
    simp only [List.mem_append, or_and_right, exists_or]

theorem exclusive {j : Joining} (hj : 2 ≤ j.members.length) : j.result.Exclusive := by
  cases j with
  | one c => simp [members] at hj
  | two left right => exact union_exclusive _ _

/-- Joining two or more at a time in any way gives what joining them all at once gives. -/
theorem sameNames_merge {j : Joining} (hj : 2 ≤ j.members.length) :
    (merge j.members).sameNames j.result = true := by
  rw [sameNames_iff]
  refine ⟨fun n => j.mem_required.symm, fun n => ?_⟩
  rw [mem_optional_merge, ← j.mem_required]
  constructor
  · rintro ⟨hopt, hreq⟩
    exact (j.mem_optional hreq).mpr hopt
  · intro hopt
    have hreq : n ∉ j.result.required.names := fun hreq => exclusive hj n hreq hopt
    exact ⟨(j.mem_optional hreq).mp hopt, hreq⟩

end Joining

theorem sameNames_of_perm {ds : List Capabilities} (hp : cs.Perm ds) :
    (merge cs).sameNames (merge ds) = true := by
  have hreq : ∀ n, n ∈ (merge cs).required.names ↔ n ∈ (merge ds).required.names := by
    intro n
    simp only [mem_required_merge, hp.mem_iff]
  refine sameNames_iff.mpr ⟨hreq, fun n => ?_⟩
  simp only [mem_optional_merge, hreq, hp.mem_iff]

theorem sameNames_trans (hab : a.sameNames b = true) (hbc : b.sameNames c = true) :
    a.sameNames c = true := by
  rw [sameNames_iff] at *
  exact ⟨fun n => (hab.1 n).trans (hbc.1 n), fun n => (hab.2 n).trans (hbc.2 n)⟩

end joining

section covering

theorem Covers.refl (a : Capabilities) : a.Covers a := fun _ hn => hn

theorem Covers.trans (hab : a.Covers b) (hbc : b.Covers c) : a.Covers c :=
  fun n hn => hab n (hbc n hn)

theorem covers_merge : a.Covers (merge cs) ↔ ∀ c ∈ cs, a.Covers c := by
  simp only [Covers, mem_required_merge]
  constructor
  · intro h c hc n hn
    exact h n ⟨c, hc, hn⟩
  · rintro h n ⟨c, hc, hn⟩
    exact h c hc n hn

theorem merge_covers_member (hc : c ∈ cs) : (merge cs).Covers c :=
  covers_merge.mp (.refl _) c hc

theorem mem_names_missing : n ∈ (a.missing b).map Capability.name ↔
    n ∈ b.required.names ∧ n ∉ a.required.names :=
  CapabilitySet.mem_names_sorted.trans CapabilitySet.mem_names_minus

end covering

/-- The laws of joining and granting, for all capabilities, also those that list a name on both
sides. Joining two or more gives the same names in every grouping and order, with no name on both
sides; what the operations build has none either, and is unchanged by being joined with itself.
Access is an order in which a joined whole is the least that gives access to all its members. What
is missing is told strictly by name, and it alone decides a check; optional names decide nothing. -/
theorem join_and_grant_laws (a b c : Capabilities) (cs : List Capabilities) (thread : String) :
    (2 ≤ cs.length → ∀ j : Joining, j.members.Perm cs →
      (merge cs).sameNames j.result = true) ∧
    (merge cs).Exclusive ∧
    (c.Built → c.Exclusive ∧ c.union c = c) ∧
    a.canAccess a = true ∧
    (a.canAccess b = true → b.canAccess c = true → a.canAccess c = true) ∧
    (a.canAccess (merge cs) = true ↔ ∀ d ∈ cs, a.canAccess d = true) ∧
    ((∃ d ∈ cs, d.canAccess a = true) → (merge cs).canAccess a = true) ∧
    ((a.missing b).map Capability.name).Pairwise (· < ·) ∧
    (∀ n, n ∈ (a.missing b).map Capability.name ↔
      n ∈ b.required.names ∧ n ∉ a.required.names) ∧
    (a.check b thread = .ok () ↔ a.missing b = []) ∧
    (a.missing b = [] ↔ a.canAccess b = true) ∧
    ∀ x y : CapabilitySet,
      canAccess { a with optional := x } { b with optional := y } = a.canAccess b ∧
      missing { a with optional := x } { b with optional := y } = a.missing b ∧
      check { a with optional := x } { b with optional := y } thread = a.check b thread := by
  simp only [canAccess_iff]
  refine ⟨?_, merge_exclusive cs, ?_, .refl a, .trans, covers_merge, ?_,
    CapabilitySet.sorted_strict _, fun n => mem_names_missing,
    check_eq_ok.trans missing_eq_nil.symm, missing_eq_nil, fun x y => ⟨rfl, rfl, rfl⟩⟩
  · intro hlen j hj
    have hgrouped := Joining.sameNames_merge (j := j) (hj.length_eq ▸ hlen)
    exact sameNames_trans (sameNames_of_perm hj.symm) hgrouped
  · exact fun hc => ⟨hc.exclusive, hc.exclusive.union_self⟩
  · rintro ⟨d, hd, hda⟩
    exact (merge_covers_member hd).trans hda

namespace Mixed

/-- Lists the network on both sides. -/
def text : String :=
  "\x7b\"required\":[\x7b\"name\":\"network\"\x7d],\"optional\":[\x7b\"name\":\"network\"\x7d]\x7d"

def network : CapabilitySet := .ofList [⟨"network", "", ""⟩]

def both : Capabilities := ⟨network, network⟩

def timed : Capabilities := empty.allow (.named "network") |>.require (.named "clock")

theorem timed_built : timed.Built := (Built.empty.allow _).require _

end Mixed

/-- What was read with the network on both sides is joined with what allows it only. -/
theorem mixed_joined_with_timed :
    read? Mixed.text = some Mixed.both ∧ ¬ Mixed.both.Exclusive ∧
    (merge [Mixed.both, Mixed.timed]).sameNames
      (Joining.two (.one Mixed.timed) (.one Mixed.both)).result = true ∧
    (merge [Mixed.both, Mixed.timed]).Exclusive ∧
    Mixed.timed.union Mixed.timed = Mixed.timed ∧
    (merge [Mixed.both, Mixed.timed]).canAccess Mixed.timed = true ∧
    (Mixed.both.check Mixed.timed "main" = .ok () ↔ Mixed.both.missing Mixed.timed = []) := by
  obtain ⟨hjoin, hexcl, hbuilt, hrefl, _, _, hmember, _⟩ :=
    join_and_grant_laws Mixed.timed Mixed.both Mixed.timed [Mixed.both, Mixed.timed] "main"
  obtain ⟨_, _, _, _, _, _, _, _, _, hcheck, _⟩ :=
    join_and_grant_laws Mixed.both Mixed.timed Mixed.timed [] "main"
  refine ⟨by decide +kernel, by decide, ?_, hexcl, (hbuilt Mixed.timed_built).2, ?_, hcheck⟩
  · exact hjoin (by decide) (.two (.one _) (.one _)) (List.Perm.swap _ _ _)
  · exact hmember ⟨Mixed.timed, by simp, hrefl⟩

end Capabilities

end GuardedScript
