import Mathlib.Data.List.Nodup
import Mathlib.Data.String.Basic
import GuardedScript.Config.Basic
import GuardedScript.Proofs.JsonText

/-!
Settings and their text. A record is read back from the object that lists its fields, a set of
capabilities from the list of its members by name, and so the settings from what is written for
them. A text gives every number as a word, so whatever was read can be written and read again.
-/

namespace GuardedScript

namespace Json

theorem knownMembers_zipWith {fields keys : List String} (values : List Json)
    (hk : ∀ k ∈ keys, k ∈ fields) :
    knownMembers fields (List.zipWith member keys values) = some (keys.zip values) := by
  induction keys generalizing values with
  | nil => rfl
  | cons k keys ih =>
    cases values with
    | nil => rfl
    | cons v values =>
      have hrest := ih values fun j hj => hk j (List.mem_cons_of_mem k hj)
      simp [member, knownMembers, hrest, hk k List.mem_cons_self]

theorem map_lookup_zip {keys : List String} {values : List Json} (hn : keys.Nodup)
    (hl : keys.length = values.length) :
    keys.map (fun k => (keys.zip values).lookup k) = values.map some := by
  induction keys generalizing values with
  | nil => rw [List.eq_nil_of_length_eq_zero hl.symm]; rfl
  | cons k keys ih =>
    cases values with
    | nil => cases hl
    | cons v values =>
      obtain ⟨hk, hn⟩ := List.nodup_cons.mp hn
      have hrest : ∀ j ∈ keys,
          ((k, v) :: keys.zip values).lookup j = (keys.zip values).lookup j := by
        intro j hj
        have hne : (j == k) = false := beq_false_of_ne fun h => hk (h ▸ hj)
        rw [List.lookup_cons, hne]
      rw [List.zip_cons_cons, List.map_cons, List.map_congr_left hrest, ih hn (Nat.succ.inj hl)]
      simp

/-- An object that lists the fields of a record is read as their values. -/
theorem record?_object (fields : List String) (values : List Json) (hn : fields.Nodup)
    (hl : fields.length = values.length) :
    record? fields (.object (List.zipWith member fields values)) = some (values.map some) := by
  have hkeys : (fields.zip values).map (·.1) = fields := List.map_fst_zip (Nat.le_of_eq hl)
  rw [record?, knownMembers_zipWith values fun _ h => h]
  simp only [Option.bind_eq_bind, Option.bind_some, hkeys, if_pos hn, map_lookup_zip hn hl]
  rfl

theorem legible_nat (n : Nat) : (nat n).Legible := ⟨n, rfl⟩

theorem word?_nat {n : Nat} (hn : n < UInt64.size) : (nat n).word? = some n := by
  have hdigits : (toString n).toList = Nat.toDigits 10 n := by
    rw [Nat.toString_eq_ofList_toDigits, String.toList_ofList]
  have hall : (Nat.toDigits 10 n).all Char.isDigit = true :=
    List.all_eq_true.mpr fun _ hc => isDigit_toDigits hc
  have hvalue : (Nat.toDigits 10 n).foldl (fun m c => m * 10 + (c.toNat - '0'.toNat)) 0 = n := by
    have hread := Nat.ofDigitChars_ten_toDigits (n := n)
    rw [Nat.ofDigitChars_eq_foldl] at hread
    simpa only [Nat.mul_comm] using hread
  rw [nat, word?, hdigits, if_pos hall, hvalue, if_pos hn]
  rfl

/-- Numbers that are no words are not read. -/
theorem word?_lt {v : Json} {n : Nat} (h : v.word? = some n) : n < UInt64.size := by
  unfold word? at h
  split at h
  · simp only [Option.ite_none_right_eq_some, pure, Option.some.injEq] at h
    exact h.2.2 ▸ h.2.1
  · cases h

end Json

theorem Capability.ofJson?_toJson (c : Capability) : Capability.ofJson? c.toJson = some c := by
  have hrecord : c.toJson.record? ["name", "display_name", "description"] =
      some [some (.text c.name), some (.text c.displayName), some (.text c.description)] :=
    Json.record?_object _ [.text c.name, .text c.displayName, .text c.description] (by decide) rfl
  rw [ofJson?, hrecord]
  rfl

theorem Capability.legible_toJson (c : Capability) : c.toJson.Legible := by
  simp [toJson, Json.member, Json.text, Json.Legible, Json.MembersLegible]

namespace CapabilitySet

theorem members_insertAll {s : CapabilitySet} {cs : List Capability}
    (h : (s.names ++ cs.map Capability.name).Nodup) :
    (s.insertAll cs).members = s.members ++ cs := by
  induction cs generalizing s with
  | nil => simp [insertAll]
  | cons c cs ih =>
    have hc : c.name ∉ s.names := fun hc =>
      (List.nodup_append.mp h).2.2 c.name hc c.name List.mem_cons_self rfl
    have hinsert : (s.insert c).members = s.members ++ [c] := by
      rw [insert, dif_neg hc]
    rw [insertAll, List.foldl_cons, ← insertAll, ih, hinsert, List.append_assoc]
    · rfl
    · rw [names, hinsert]
      simpa [names] using h

theorem sorted_perm (s : CapabilitySet) : s.sorted.Perm s.members := List.mergeSort_perm _ _

theorem pairwise_sorted (s : CapabilitySet) :
    s.sorted.Pairwise fun a b => decide (a.name ≤ b.name) = true := by
  refine List.pairwise_mergeSort ?_ ?_ s.members
  · simpa using fun a b c : Capability => String.le_trans
  · simpa using fun a b : Capability => String.le_total a.name b.name

/-- Two members of one name are the same member, so a set has one order by name. -/
theorem sorted_eq_of_perm {s t : CapabilitySet} (h : s.members.Perm t.members) :
    s.sorted = t.sorted := by
  refine List.Perm.eq_of_pairwise ?_ s.pairwise_sorted t.pairwise_sorted
    (s.sorted_perm.trans (h.trans t.sorted_perm.symm))
  intro a b ha hb hab hba
  have ha : a ∈ t.members := h.subset (s.sorted_perm.subset ha)
  have hb : b ∈ t.members := t.sorted_perm.subset hb
  have hname := String.le_antisymm (of_decide_eq_true hab) (of_decide_eq_true hba)
  exact List.inj_on_of_nodup_map t.distinct ha hb hname

/-- A list that has the members of a set is read as a set with these members. -/
theorem members_ofList {s : CapabilitySet} {cs : List Capability} (h : cs.Perm s.members) :
    (ofList cs).members = cs :=
  members_insertAll ((h.map Capability.name).nodup_iff.mpr s.distinct)

theorem ofJson?_listed (cs : List Capability) : ofJson? (listed cs) = some (ofList cs) := by
  have hread : (cs.map Capability.toJson).mapM Capability.ofJson? = some cs := by
    induction cs with
    | nil => rfl
    | cons c cs ih =>
      rw [List.map_cons, List.mapM_cons, Capability.ofJson?_toJson, ih]
      rfl
  rw [ofJson?, listed, Json.elements?]
  simp only [Option.bind_eq_bind, Option.bind_some, hread]
  rfl

theorem legible_listed (cs : List Capability) : (listed cs).Legible := by
  rw [listed, Json.Legible]
  induction cs with
  | nil => trivial
  | cons c cs ih => exact ⟨c.legible_toJson, ih⟩

end CapabilitySet

namespace Capabilities

theorem ofJson?_listed (required optional : List Capability) :
    ofJson? (listed required optional) = some ⟨.ofList required, .ofList optional⟩ := by
  have hrecord : (listed required optional).record? ["required", "optional"] =
      some [some (CapabilitySet.listed required), some (CapabilitySet.listed optional)] :=
    Json.record?_object _ [CapabilitySet.listed required, CapabilitySet.listed optional]
      (by decide) rfl
  rw [ofJson?, hrecord]
  simp [Json.fieldOr, CapabilitySet.ofJson?_listed]

theorem legible_listed (required optional : List Capability) :
    (listed required optional).Legible := by
  simp [listed, Json.member, Json.Legible, Json.MembersLegible, CapabilitySet.legible_listed]

end Capabilities

namespace Config

/-- The numbers of the settings are words. -/
structure WordSized (c : Config) : Prop where
  depth : c.maxCallDepth < UInt64.size
  timeout : ∀ ms ∈ c.callTimeout, ms < UInt64.size

/-- The same settings, with the same capabilities in each of the two sets. -/
structure Agrees (c d : Config) : Prop where
  depth : c.maxCallDepth = d.maxCallDepth
  parallel : c.parallelInputs = d.parallelInputs
  timeout : c.callTimeout = d.callTimeout
  required : c.defaultGrant.required.members.Perm d.defaultGrant.required.members
  optional : c.defaultGrant.optional.members.Perm d.defaultGrant.optional.members

/-- The lists have the members of the two sets, in whatever order. -/
structure Lists (c : Config) (required optional : List Capability) : Prop where
  required : required.Perm c.defaultGrant.required.members
  optional : optional.Perm c.defaultGrant.optional.members

/-- The settings are written as this text, in some order of the members of each set. -/
def Written (c : Config) (text : String) : Prop :=
  ∃ required optional, c.Lists required optional ∧ (c.listed required optional).render = text

variable {c d : Config} {required optional : List Capability}

/-- The settings with the sets that two lists are read as. -/
def relisted (c : Config) (required optional : List Capability) : Config :=
  { c with defaultGrant := ⟨.ofList required, .ofList optional⟩ }

theorem Lists.relisted_agrees (h : c.Lists required optional) :
    (c.relisted required optional).Agrees c where
  depth := rfl
  parallel := rfl
  timeout := rfl
  required := by
    rw [relisted, CapabilitySet.members_ofList h.required]
    exact h.required
  optional := by
    rw [relisted, CapabilitySet.members_ofList h.optional]
    exact h.optional

theorem lists_sorted (c : Config) :
    c.Lists c.defaultGrant.required.sorted c.defaultGrant.optional.sorted :=
  ⟨CapabilitySet.sorted_perm _, CapabilitySet.sorted_perm _⟩

theorem written_write (c : Config) : c.Written c.write := ⟨_, _, c.lists_sorted, rfl⟩

theorem Agrees.symm (h : c.Agrees d) : d.Agrees c :=
  ⟨h.depth.symm, h.parallel.symm, h.timeout.symm, h.required.symm, h.optional.symm⟩

theorem Agrees.written (h : c.Agrees d) {text : String} (hw : c.Written text) :
    d.Written text := by
  obtain ⟨required, optional, hl, rfl⟩ := hw
  refine ⟨required, optional, ⟨hl.required.trans h.required, hl.optional.trans h.optional⟩, ?_⟩
  simp only [listed, h.depth, h.parallel, h.timeout]

theorem Agrees.write_eq (h : c.Agrees d) : c.write = d.write := by
  have hrequired := CapabilitySet.sorted_eq_of_perm h.required
  have hoptional := CapabilitySet.sorted_eq_of_perm h.optional
  simp only [write, toJson, listed, h.depth, h.parallel, h.timeout, hrequired, hoptional]

theorem Agrees.wordSized (h : c.Agrees d) (hc : c.WordSized) : d.WordSized :=
  ⟨h.depth ▸ hc.depth, h.timeout ▸ hc.timeout⟩

theorem timeout?_toJson (hc : c.WordSized) :
    timeout? ((c.callTimeout.map fun ms => Json.nat (ms % UInt64.size)).getD .null) =
      some c.callTimeout := by
  cases hms : c.callTimeout with
  | none => rfl
  | some ms =>
    have hlt := hc.timeout ms hms
    rw [Option.map_some, Option.getD_some, Nat.mod_eq_of_lt hlt]
    exact congrArg (Option.map some) (Json.word?_nat hlt)

theorem ofJson?_listed (hc : c.WordSized) (required optional : List Capability) :
    ofJson? (c.listed required optional) = some (c.relisted required optional) := by
  have hrecord : (c.listed required optional).record?
      ["max_call_depth", "parallel_inputs", "call_timeout", "default_grant"] = some [
        some (.nat c.maxCallDepth), some (.bool c.parallelInputs),
        some ((c.callTimeout.map fun ms => Json.nat (ms % UInt64.size)).getD .null),
        some (Capabilities.listed required optional)] :=
    Json.record?_object _ [.nat c.maxCallDepth, .bool c.parallelInputs,
      (c.callTimeout.map fun ms => Json.nat (ms % UInt64.size)).getD .null,
      Capabilities.listed required optional] (by decide) rfl
  rw [ofJson?, hrecord]
  simp [Json.fieldOr, Json.word?_nat hc.depth, Json.bool?, timeout?_toJson hc,
    Capabilities.ofJson?_listed, relisted]

theorem legible_listed (c : Config) (required optional : List Capability) :
    (c.listed required optional).Legible := by
  have htimeout :
      ((c.callTimeout.map fun ms => Json.nat (ms % UInt64.size)).getD .null).Legible := by
    cases c.callTimeout with
    | none => trivial
    | some ms => exact Json.legible_nat _
  simp [listed, Json.member, Json.Legible, Json.MembersLegible, Json.legible_nat, htimeout,
    Capabilities.legible_listed]

/-- Whatever the order in which the members of the sets were written. -/
theorem parse_written (hc : c.WordSized) {text : String} (hw : c.Written text) :
    ∃ d, parse text = .ok d ∧ d.Agrees c := by
  obtain ⟨required, optional, hl, rfl⟩ := hw
  refine ⟨c.relisted required optional, ?_, hl.relisted_agrees⟩
  rw [parse, read?, Json.parse?_render (c.legible_listed required optional), Option.bind_some,
    ofJson?_listed hc]
  rfl

theorem fieldOr_word {fallback n : Nat} {v : Option Json}
    (h : Json.fieldOr fallback Json.word? v = some n) (hf : fallback < UInt64.size) :
    n < UInt64.size := by
  cases v with
  | none => exact Option.some.inj h ▸ hf
  | some v => exact Json.word?_lt h

theorem fieldOr_timeout {t : Option Nat} {v : Option Json}
    (h : Json.fieldOr none timeout? v = some t) : ∀ ms ∈ t, ms < UInt64.size := by
  intro ms hms
  cases v with
  | none => cases (Option.some.inj h ▸ hms : ms ∈ none)
  | some v =>
    rw [Json.fieldOr] at h
    unfold timeout? at h
    split at h
    · cases (Option.some.inj h ▸ hms : ms ∈ none)
    · obtain ⟨n, hn, rfl⟩ := Option.map_eq_some_iff.mp h
      exact Option.some.inj hms ▸ Json.word?_lt hn

theorem wordSized_of_parse {text : String} (h : parse text = .ok c) : c.WordSized := by
  have hread : read? text = some c := by
    rw [parse] at h
    cases hr : read? text with
    | none => rw [hr] at h; cases h
    | some d => rw [hr] at h; cases h; rfl
  obtain ⟨v, _, hv⟩ := Option.bind_eq_some_iff.mp hread
  rw [ofJson?] at hv
  split at hv
  · simp only [Option.bind_eq_bind, Option.bind_eq_some_iff, pure, Option.some.injEq] at hv
    obtain ⟨depth, hdepth, _, _, timeout, htimeout, _, _, rfl⟩ := hv
    exact ⟨fieldOr_word hdepth (by decide), fieldOr_timeout htimeout⟩
  · cases hv

/-- What a text was read as is read back as the same settings from whatever is written for it, in
any order of the members of the sets. The settings that are read back can be written in the same
ways, and by name in one. The settings that some text gives are those whose numbers are words. -/
theorem parse_write_parse :
    (∀ (text : String) (c : Config), parse text = .ok c → c.Written c.write ∧
      ∀ written, c.Written written → ∃ d, parse written = .ok d ∧ d.Agrees c ∧
        d.write = c.write ∧ ∀ text, d.Written text ↔ c.Written text) ∧
    (∀ c d : Config, c.Agrees d → c.write = d.write) ∧
    (∀ c : Config, c.WordSized ↔ ∃ text d, parse text = .ok d ∧ d.Agrees c) := by
  refine ⟨fun text c h => ⟨c.written_write, fun written hw => ?_⟩, fun c d h => h.write_eq,
    fun c => ⟨fun h => ?_, ?_⟩⟩
  · obtain ⟨d, hd, hagree⟩ := parse_written (wordSized_of_parse h) hw
    exact ⟨d, hd, hagree, hagree.write_eq, fun _ => ⟨hagree.written, hagree.symm.written⟩⟩
  · obtain ⟨d, hd, hagree⟩ := parse_written h c.written_write
    exact ⟨c.write, d, hd, hagree⟩
  · rintro ⟨text, d, hd, hagree⟩
    exact hagree.wordSized (wordSized_of_parse hd)

/-- The largest time limit, fields in order without their names, and one name in both sets. The
members are written in the order of the text, which is not that of their names. -/
theorem parse_write_parse_positional :
    ∃ c, parse "[3,false,18446744073709551615,[[[\"b\"],[\"\\n\"]],[[\"b\",\"B\"]]]]" = .ok c ∧
      c.callTimeout = some 18446744073709551615 ∧ c.defaultGrant.required.names = ["b", "\n"] ∧
      c.defaultGrant.optional.names = ["b"] ∧
      ∃ d, parse (c.listed c.defaultGrant.required.members
        c.defaultGrant.optional.members).render = .ok d ∧ d.Agrees c ∧ d.write = c.write := by
  have hread : parse "[3,false,18446744073709551615,[[[\"b\"],[\"\\n\"]],[[\"b\",\"B\"]]]]" =
      .ok ⟨3, false, some 18446744073709551615,
        .ofList [⟨"b", "", ""⟩, ⟨"\n", "", ""⟩], .ofList [⟨"b", "B", ""⟩]⟩ := by decide +kernel
  obtain ⟨d, hd, hagree, hwrite, _⟩ :=
    (parse_write_parse.1 _ _ hread).2 _ ⟨_, _, ⟨.refl _, .refl _⟩, rfl⟩
  exact ⟨_, hread, rfl, rfl, rfl, d, hd, hagree, hwrite⟩

end Config

end GuardedScript
