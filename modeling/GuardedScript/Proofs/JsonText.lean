import Mathlib.Data.List.TakeWhile
import GuardedScript.Json.Reader
import GuardedScript.Json.Record

/-!
Written JSON is read back. Between the characters of a text and the value that they stand for lie
its tokens: the scanner finds the tokens of every value that was written, and the reader builds the
value from its tokens.
-/

namespace GuardedScript.Json

/-- The tokens of a string that is written plainly. -/
def glyphs (s : String) : List Glyph := s.toList.map .char

mutual

/-- The tokens that a value is written with. -/
def toTokens : Json → List Token
  | .null => [.null]
  | .bool b => [.bool b]
  | .number literal => [.number literal.toList]
  | .string s => [.string (glyphs (s.getD ""))]
  | .array elements => .openBracket :: (elementTokens elements ++ [.closeBracket])
  | .object members => .openBrace :: (memberTokens members ++ [.closeBrace])

def elementTokens : List Json → List Token
  | [] => []
  | [v] => toTokens v
  | v :: w :: rest => toTokens v ++ .comma :: elementTokens (w :: rest)

def memberTokens : List (Option String × Json) → List Token
  | [] => []
  | [(k, v)] => .string (glyphs (k.getD "")) :: .colon :: toTokens v
  | (k, v) :: w :: rest =>
    .string (glyphs (k.getD "")) :: .colon :: (toTokens v ++ .comma :: memberTokens (w :: rest))

end

mutual

/-- Every number is a natural one, and every string and key has a text. -/
def Legible : Json → Prop
  | .null => True
  | .bool _ => True
  | .number literal => ∃ n : Nat, literal = toString n
  | .string s => s.isSome
  | .array elements => AllLegible elements
  | .object members => MembersLegible members

def AllLegible : List Json → Prop
  | [] => True
  | v :: rest => Legible v ∧ AllLegible rest

def MembersLegible : List (Option String × Json) → Prop
  | [] => True
  | (k, v) :: rest => k.isSome ∧ Legible v ∧ MembersLegible rest

end

section characters

/-- The text after a value, which cannot be taken for more of it. -/
def Delimited (rest : List Char) : Prop := ∀ c ∈ rest.head?, c = ',' ∨ c = ']' ∨ c = '\x7d'

theorem delimited_nil : Delimited [] := by
  intro c hc
  cases hc

theorem delimited_cons {c : Char} (hc : c = ',' ∨ c = ']' ∨ c = '\x7d') (rest : List Char) :
    Delimited (c :: rest) := by
  intro d hd
  cases hd
  exact hc

variable {rest : List Char}

theorem scan_cons (mode : Mode) (c : Char) (rest : List Char) :
    scan mode (c :: rest) =
      (advance mode c).bind fun p => (scan p.2 rest).map (p.1 ++ ·) := by
  rw [scan]
  cases advance mode c with
  | none => rfl
  | some p => cases h : scan p.2 rest <;> simp [h]

/-- A character inside a token. -/
theorem scan_inside {mode next : Mode} {c : Char} (h : advance mode c = some ([], next))
    (rest : List Char) : scan mode (c :: rest) = scan next rest := by
  rw [scan_cons, h]
  cases hs : scan next rest <;> simp [hs]

/-- A number or a word takes one character after the other and ends where the next token begins. -/
theorem scan_run (mode : List Char → Mode) {c : Char} {cs : List Char} {t : Token}
    (hr : Delimited rest) (hc : enter c = some ([], mode [c]))
    (hcs : ∀ d ∈ cs, ∀ read, advance (mode read) d = some ([], mode (d :: read)))
    (hf : finish (mode (c :: cs).reverse) = some [t])
    (ha : ∀ d, d = ',' ∨ d = ']' ∨ d = '\x7d' →
      advance (mode (c :: cs).reverse) d = (enter d).map fun p => (t :: p.1, p.2)) :
    scan .between (c :: cs ++ rest) = (scan .between rest).map (t :: ·) := by
  have more : ∀ ds, (∀ d ∈ ds, d ∈ cs) → ∀ read,
      scan (mode read) (ds ++ rest) = scan (mode (ds.reverse ++ read)) rest := by
    intro ds
    induction ds with
    | nil => exact fun _ _ => rfl
    | cons d ds ih =>
      intro hds read
      rw [List.cons_append, scan_inside (hcs d (hds d List.mem_cons_self) read),
        ih fun e he => hds e (List.mem_cons_of_mem d he)]
      simp
  have last : scan (mode (c :: cs).reverse) rest = (scan .between rest).map (t :: ·) := by
    cases rest with
    | nil =>
      rw [scan, hf]
      rfl
    | cons d rest =>
      rw [scan_cons, scan_cons, ha d (hr d rfl), advance]
      cases enter d with
      | none => rfl
      | some p => simp [Function.comp_def]
  have hfirst : advance .between c = some ([], mode [c]) := by rw [advance, hc]
  rw [← last, List.reverse_cons, ← more cs fun _ hd => hd]
  exact scan_inside hfirst (cs ++ rest)

theorem scan_word {c : Char} {cs : List Char} {t : Token} (hr : Delimited rest)
    (hc : enter c = some ([], .word [c])) (hcs : cs.all Char.isLower = true)
    (ht : wordToken (c :: cs) = some t) :
    scan .between (c :: cs ++ rest) = (scan .between rest).map (t :: ·) := by
  refine scan_run .word hr hc ?_ ?_ ?_
  · intro d hd read
    rw [advance, if_pos (List.all_eq_true.mp hcs d hd)]
  · rw [finish, List.reverse_reverse, ht, Option.map_some]
  · intro d hd
    have hlower : d.isLower = false := by
      rcases hd with rfl | rfl | rfl <;> decide
    rw [advance, hlower, List.reverse_reverse, ht]
    cases enter d <;> rfl

/-- Only zero is written with a leading zero. -/
theorem toDigits_eq_cons (n : Nat) :
    ∃ k ds, k < 10 ∧ Nat.toDigits 10 n = k.digitChar :: ds ∧ (k = 0 → n = 0) := by
  induction n using Nat.strongRecOn with
  | ind n ih =>
    by_cases hn : n < 10
    · exact ⟨n, [], hn, Nat.toDigits_of_lt_base hn, id⟩
    · obtain ⟨k, ds, hk, hds, hzero⟩ := ih (n / 10) (by omega)
      refine ⟨k, ds ++ [(n % 10).digitChar], hk, ?_, fun h => ?_⟩
      · rw [Nat.toDigits_of_base_le (by decide) (by omega), hds, List.cons_append]
      · have := hzero h
        omega

theorem isDigit_toDigits {n : Nat} {c : Char} (hc : c ∈ Nat.toDigits 10 n) : c.isDigit = true :=
  Nat.isDigit_of_mem_toDigits (by decide) (by decide) hc

theorem isNumber_toDigits (n : Nat) : isNumber (Nat.toDigits 10 n) = true := by
  by_cases hn : n = 0
  · subst hn
    decide
  · obtain ⟨k, ds, hk, hds, hzero⟩ := toDigits_eq_cons n
    have hrest : ds.dropWhile Char.isDigit = [] := by
      rw [List.dropWhile_eq_nil_iff]
      intro c hc
      exact isDigit_toDigits (hds ▸ List.mem_cons_of_mem _ hc)
    have hfirst : ∀ k, k < 10 → k ≠ 0 → k.digitChar ≠ '-' ∧ k.digitChar ≠ '0' ∧
        k.digitChar.isDigit = true := by decide
    obtain ⟨hminus, hlead, hdigit⟩ := hfirst k hk fun h => hn (hzero h)
    rw [hds, isNumber, isUnsigned, hdigit, hrest]
    · rfl
    · exact hlead
    · exact fun _ h => hminus (List.cons.inj h).1

/-- Every natural number is scanned as it is written. -/
theorem scan_nat (n : Nat) (hr : Delimited rest) :
    scan .between (Nat.toDigits 10 n ++ rest) =
      (scan .between rest).map (.number (Nat.toDigits 10 n) :: ·) := by
  obtain ⟨k, ds, hk, hds, _⟩ := toDigits_eq_cons n
  have hfirst : ∀ k, k < 10 → enter k.digitChar = some ([], .number [k.digitChar]) := by decide
  have htoken : numberToken (k.digitChar :: ds) = some (.number (k.digitChar :: ds)) :=
    if_pos (hds ▸ isNumber_toDigits n)
  rw [hds]
  refine scan_run .number hr (hfirst k hk) ?_ ?_ ?_
  · intro d hd read
    have hdigit := isDigit_toDigits (hds ▸ List.mem_cons_of_mem _ hd)
    rw [advance, isNumberChar, hdigit]
    rfl
  · rw [finish, List.reverse_reverse, htoken, Option.map_some]
  · intro d hd
    have hnumber : isNumberChar d = false := by
      rcases hd with rfl | rfl | rfl <;> decide
    rw [advance, hnumber, List.reverse_reverse, htoken]
    cases enter d <;> rfl

/-- A character is written as it is, as a letter after a backslash, or by its number. -/
theorem escape_cases (c : Char) :
    (c ≠ '"' ∧ c ≠ '\\' ∧ 32 ≤ c.toNat ∧ escape c = [c]) ∨
    (∃ e, e ≠ 'u' ∧ escaped e = some c ∧ escape c = ['\\', e]) ∨
    (c.toNat < 32 ∧ escape c =
      ['\\', 'u', '0', '0', Text.hexDigit (c.toNat / 16), Text.hexDigit (c.toNat % 16)]) := by
  have number : ∀ n, c.toNat = n → Char.ofNat n = c := by
    rintro _ rfl
    exact Char.ofNat_toNat c
  unfold escape
  by_cases hquote : c = '"'
  · exact .inr (.inl ⟨'"', by decide, by rw [hquote]; rfl, if_pos hquote⟩)
  by_cases hslash : c = '\\'
  · exact .inr (.inl ⟨'\\', by decide, by rw [hslash]; rfl, by simp [hslash]⟩)
  rw [if_neg hquote, if_neg hslash]
  split
  · next h => exact .inr (.inl ⟨'b', by decide, congrArg some (number 8 h), rfl⟩)
  split
  · next h => exact .inr (.inl ⟨'f', by decide, congrArg some (number 12 h), rfl⟩)
  split
  · next h => exact .inr (.inl ⟨'n', by decide, congrArg some h.symm, rfl⟩)
  split
  · next h => exact .inr (.inl ⟨'r', by decide, congrArg some h.symm, rfl⟩)
  split
  · next h => exact .inr (.inl ⟨'t', by decide, congrArg some h.symm, rfl⟩)
  split
  · next h => exact .inr (.inr ⟨h, rfl⟩)
  · next h => exact .inl ⟨hquote, hslash, Nat.le_of_not_lt h, rfl⟩

theorem hexValue_hexDigit : ∀ d, d < 16 → hexValue (Text.hexDigit d) = some d := by decide

/-- Every character of a string is scanned from what it is written as. -/
theorem scan_escape (c : Char) (read : List Glyph) :
    scan (.string read) (escape c ++ rest) = scan (.string (.char c :: read)) rest := by
  have hescape : advance (.string read) '\\' = some ([], .escape read) := rfl
  rcases escape_cases c with ⟨hquote, hslash, hlow, he⟩ | ⟨e, hu, hc, he⟩ | ⟨hlow, he⟩
  · have hchar : advance (.string read) c = some ([], .string (.char c :: read)) := by
      rw [advance, if_neg hquote, if_neg hslash, if_neg (Nat.not_lt.mpr hlow)]
    rw [he]
    exact scan_inside hchar rest
  · have hchar : advance (.escape read) e = some ([], .string (.char c :: read)) := by
      rw [advance, if_neg hu, hc]
      rfl
    rw [he, List.cons_append, scan_inside hescape]
    exact scan_inside hchar rest
  · have hhigh := hexValue_hexDigit (c.toNat / 16) (by omega)
    have hlast := hexValue_hexDigit (c.toNat % 16) (by omega)
    have hglyph : glyphOfUnit (c.toNat / 16 * 16 + c.toNat % 16) = .char c := by
      rw [Nat.div_add_mod', glyphOfUnit, if_neg (by omega), Char.ofNat_toNat]
    -- Two zeros, then the two digits of the number.
    have hmark : advance (.escape read) 'u' = some ([], .unicode read 3 0) := rfl
    have hzero : advance (.unicode read 3 0) '0' = some ([], .unicode read 2 0) := rfl
    have hzero' : advance (.unicode read 2 0) '0' = some ([], .unicode read 1 0) := rfl
    have hfirst : advance (.unicode read 1 0) (Text.hexDigit (c.toNat / 16)) =
        some ([], .unicode read 0 (c.toNat / 16)) := by simp [advance, hhigh]
    have hsecond : advance (.unicode read 0 (c.toNat / 16)) (Text.hexDigit (c.toNat % 16)) =
        some ([], .string (.char c :: read)) := by simp [advance, hlast, hglyph]
    simp only [he, List.cons_append, List.nil_append]
    rw [scan_inside hescape, scan_inside hmark, scan_inside hzero, scan_inside hzero',
      scan_inside hfirst, scan_inside hsecond]

theorem scan_quote (s : String) :
    scan .between (quote s ++ rest) = (scan .between rest).map (.string (glyphs s) :: ·) := by
  have inside : ∀ (cs : List Char) (read : List Glyph),
      scan (.string read) (cs.flatMap escape ++ '"' :: rest) =
        (scan .between rest).map (.string (read.reverse ++ cs.map .char) :: ·) := by
    intro cs
    induction cs with
    | nil =>
      intro read
      simp [scan_cons, advance]
    | cons c cs ih =>
      intro read
      rw [List.flatMap_cons, List.append_assoc, scan_escape, ih]
      simp
  have henter : enter '"' = some ([], .string []) := by decide
  rw [quote, List.cons_append, List.append_assoc, List.singleton_append, scan_cons, advance, henter]
  simp [inside, glyphs, Function.comp_def]

/-- A mark between values is a token of its own. -/
theorem scan_mark {c : Char} {t : Token} (hc : enter c = some ([t], .between)) :
    scan .between (c :: rest) = (scan .between rest).map (t :: ·) := by
  rw [scan_cons, advance, hc]
  simp

end characters

mutual

/-- The scanner finds the tokens of a value that was written. -/
theorem scan_chars : ∀ (v : Json) (rest : List Char), v.Legible → Delimited rest →
    scan .between (v.chars ++ rest) = (scan .between rest).map (v.toTokens ++ ·)
  | .null, _, _, hr => by
    rw [chars, toTokens, scan_word (t := .null) hr (by decide) (by decide) rfl]
    rfl
  | .bool true, _, _, hr => by
    rw [chars, toTokens, scan_word (t := .bool true) hr (by decide) (by decide) rfl]
    rfl
  | .bool false, _, _, hr => by
    rw [chars, toTokens, scan_word (t := .bool false) hr (by decide) (by decide) rfl]
    rfl
  | .number literal, _, ⟨n, hn⟩, hr => by
    rw [chars, toTokens, hn, Nat.toString_eq_ofList_toDigits, String.toList_ofList, scan_nat n hr]
    rfl
  | .string s, _, _, _ => by
    rw [chars, toTokens, scan_quote]
    rfl
  | .array elements, rest, hv, _ => by
    have hinner := scan_elementChars elements (']' :: rest) hv
      (delimited_cons (.inr (.inl rfl)) rest)
    rw [chars, toTokens, List.cons_append, List.append_assoc, List.singleton_append,
      scan_mark (t := .openBracket) rfl, hinner, scan_mark (t := .closeBracket) rfl]
    simp [Function.comp_def]
  | .object members, rest, hv, _ => by
    have hinner := scan_memberChars members ('\x7d' :: rest) hv
      (delimited_cons (.inr (.inr rfl)) rest)
    rw [chars, toTokens, List.cons_append, List.append_assoc, List.singleton_append,
      scan_mark (t := .openBrace) rfl, hinner, scan_mark (t := .closeBrace) rfl]
    simp [Function.comp_def]

theorem scan_elementChars : ∀ (vs : List Json) (rest : List Char), AllLegible vs → Delimited rest →
    scan .between (elementChars vs ++ rest) = (scan .between rest).map (elementTokens vs ++ ·)
  | [], _, _, _ => by simp [elementChars, elementTokens]
  | [v], rest, hv, hr => by
    rw [elementChars, elementTokens]
    exact scan_chars v rest hv.1 hr
  | v :: w :: vs, rest, hv, hr => by
    have hfirst := scan_chars v (',' :: (elementChars (w :: vs) ++ rest)) hv.1
      (delimited_cons (.inl rfl) _)
    rw [elementChars, elementTokens, List.append_assoc, List.cons_append, hfirst,
      scan_mark (t := .comma) rfl, scan_elementChars (w :: vs) rest hv.2 hr]
    simp [Function.comp_def]

theorem scan_memberChars : ∀ (ms : List (Option String × Json)) (rest : List Char),
    MembersLegible ms → Delimited rest →
    scan .between (memberChars ms ++ rest) = (scan .between rest).map (memberTokens ms ++ ·)
  | [], _, _, _ => by simp [memberChars, memberTokens]
  | [(k, v)], rest, hm, hr => by
    rw [memberChars, memberTokens, List.append_assoc, List.cons_append, scan_quote,
      scan_mark (t := .colon) rfl, scan_chars v rest hm.2.1 hr]
    simp [Function.comp_def]
  | (k, v) :: w :: ms, rest, hm, hr => by
    have hfirst := scan_chars v (',' :: (memberChars (w :: ms) ++ rest)) hm.2.1
      (delimited_cons (.inl rfl) _)
    have htext : memberChars ((k, v) :: w :: ms) ++ rest =
        quote (k.getD "") ++ ':' :: (v.chars ++ ',' :: (memberChars (w :: ms) ++ rest)) := by
      simp [memberChars]
    rw [htext, memberTokens, scan_quote, scan_mark (t := .colon) rfl, hfirst,
      scan_mark (t := .comma) rfl, scan_memberChars (w :: ms) rest hm.2.2 hr]
    simp [Function.comp_def]

end

theorem glyphText_glyphs (s : String) : glyphText (glyphs s) = some s := by
  have join : ∀ cs : List Char, joinGlyphs (cs.map .char) = some cs := by
    intro cs
    induction cs with
    | nil => rfl
    | cons c cs ih => rw [List.map_cons, joinGlyphs, ih, Option.map_some]
  rw [glyphText, glyphs, join, Option.map_some, String.ofList_toList]

theorem glyphText_getD {s : Option String} (hs : s.isSome) :
    glyphText (glyphs (s.getD "")) = s := by
  obtain ⟨t, rfl⟩ := Option.isSome_iff_exists.mp hs
  exact glyphText_glyphs t

theorem toTokens_eq_cons (v : Json) : ∃ t ts, v.toTokens = t :: ts ∧ t ≠ .closeBracket := by
  cases v <;> rw [toTokens] <;> exact ⟨_, _, rfl, by simp⟩

theorem elementTokens_eq_cons (v : Json) (vs : List Json) :
    ∃ t ts, elementTokens (v :: vs) = t :: ts ∧ t ≠ .closeBracket := by
  obtain ⟨t, ts, hv, ht⟩ := toTokens_eq_cons v
  cases vs with
  | nil => exact ⟨t, ts, by rw [elementTokens, hv], ht⟩
  | cons w vs => exact ⟨t, _, by rw [elementTokens, hv, List.cons_append], ht⟩

theorem memberTokens_eq_cons (m : Option String × Json) (ms : List (Option String × Json)) :
    ∃ gs ts, memberTokens (m :: ms) = .string gs :: ts := by
  cases ms <;> exact ⟨_, _, by rw [memberTokens]⟩

/-- After an opening bracket, anything but the closing one is read as an element. -/
theorem foldlM_valueOrClose {t : Token} (ht : t ≠ .closeBracket) (ts : List Token)
    (stack : List Frame) : (t :: ts).foldlM read (.valueOrClose stack) =
      (t :: ts).foldlM read (.value (.element [] :: stack)) := by
  rw [List.foldlM_cons, List.foldlM_cons]
  cases t with
  | closeBracket => exact absurd rfl ht
  | _ => rfl

mutual

/-- The reader builds a value from its tokens, wherever the value stands. -/
theorem read_toTokens : ∀ (v : Json) (stack : List Frame), v.Legible →
    v.toTokens.foldlM read (.value stack) = some (settle v stack)
  | .null, _, _ => by
    rw [toTokens]
    rfl
  | .bool b, _, _ => by
    rw [toTokens]
    rfl
  | .number literal, _, _ => by
    rw [toTokens, List.foldlM_cons, read, begin, String.ofList_toList]
    rfl
  | .string s, _, hs => by
    rw [toTokens, List.foldlM_cons, read, begin, glyphText_getD hs]
    rfl
  | .array [], _, _ => by
    rw [toTokens, elementTokens]
    rfl
  | .array (v :: vs), stack, hv => by
    have hinner := read_elementTokens (v :: vs) [] stack (List.cons_ne_nil v vs) hv
    obtain ⟨t, ts, hts, ht⟩ := elementTokens_eq_cons v vs
    rw [hts, ← foldlM_valueOrClose ht] at hinner
    rw [toTokens, hts, List.foldlM_cons, read, begin, Option.bind_eq_bind, Option.bind_some,
      List.foldlM_append, hinner]
    simp [read]
  | .object [], _, _ => by
    rw [toTokens, memberTokens]
    rfl
  | .object (m :: ms), stack, hm => by
    have hinner := read_memberTokens (m :: ms) [] stack (List.cons_ne_nil m ms) hm
    obtain ⟨gs, ts, hts⟩ := memberTokens_eq_cons m ms
    rw [hts] at hinner
    have hfirst : (.string gs :: ts).foldlM read (.keyOrClose stack) =
        (.string gs :: ts).foldlM read (.key [] stack) := rfl
    rw [toTokens, hts, List.foldlM_cons, read, begin, Option.bind_eq_bind, Option.bind_some,
      List.foldlM_append, hfirst, hinner]
    simp [read]

theorem read_elementTokens : ∀ (vs before : List Json) (stack : List Frame), vs ≠ [] →
    AllLegible vs → (elementTokens vs).foldlM read (.value (.element before :: stack)) =
      some (.nextElement (vs.reverse ++ before) stack)
  | [], _, _, hne, _ => absurd rfl hne
  | [v], before, stack, _, hv => by
    rw [elementTokens, read_toTokens v _ hv.1]
    rfl
  | v :: w :: vs, before, stack, _, hv => by
    have hrest := read_elementTokens (w :: vs) (v :: before) stack (List.cons_ne_nil w vs) hv.2
    rw [elementTokens, List.foldlM_append, read_toTokens v _ hv.1, Option.bind_eq_bind,
      Option.bind_some, settle, List.foldlM_cons, read, Option.bind_eq_bind, Option.bind_some,
      hrest]
    simp

theorem read_memberTokens : ∀ (ms before : List (Option String × Json)) (stack : List Frame),
    ms ≠ [] → MembersLegible ms → (memberTokens ms).foldlM read (.key before stack) =
      some (.nextMember (ms.reverse ++ before) stack)
  | [], _, _, hne, _ => absurd rfl hne
  | [(k, v)], before, stack, _, hm => by
    have hvalue := read_toTokens v (.member before k :: stack) hm.2.1
    rw [memberTokens]
    simp [read, glyphText_getD hm.1, hvalue, settle]
  | (k, v) :: w :: ms, before, stack, _, hm => by
    have hvalue := read_toTokens v (.member before k :: stack) hm.2.1
    have hrest := read_memberTokens (w :: ms) ((k, v) :: before) stack (List.cons_ne_nil w ms)
      hm.2.2
    rw [memberTokens]
    simp [read, glyphText_getD hm.1, hvalue, settle, hrest]

end

/-- Whatever was written is read back as it was. -/
theorem parse?_render {v : Json} (hv : v.Legible) : parse? v.render = some v := by
  have hscan := scan_chars v [] hv delimited_nil
  rw [List.append_nil] at hscan
  have hread := read_toTokens v [] hv
  rw [parse?, tokens, render, String.toList_ofList, hscan]
  simp [scan, finish, ofTokens?, hread, settle]

end GuardedScript.Json
