/-!
JSON tokens, and the scanner that cuts a text into them.

The scanner takes one character at a time; its mode says what kind of token it is inside of.
-/

namespace GuardedScript.Json

/-- A character of a string, or half of a surrogate pair. -/
inductive Glyph where
  | char (c : Char)
  | surrogate (unit : Nat)
  deriving DecidableEq, Repr

inductive Token where
  | openBrace
  | closeBrace
  | openBracket
  | closeBracket
  | comma
  | colon
  | null
  | bool (value : Bool)
  | number (literal : List Char)
  | string (glyphs : List Glyph)
  deriving DecidableEq, Repr

/-- Joins surrogate pairs; a surrogate without its partner has no text. -/
def joinGlyphs : List Glyph → Option (List Char)
  | [] => some []
  | .char c :: rest => (joinGlyphs rest).map (c :: ·)
  | .surrogate hi :: .surrogate lo :: rest =>
    if hi < 0xdc00 ∧ 0xdc00 ≤ lo then
      (joinGlyphs rest).map (Char.ofNat (0x10000 + (hi - 0xd800) * 0x400 + (lo - 0xdc00)) :: ·)
    else none
  | .surrogate _ :: _ => none

def glyphText (glyphs : List Glyph) : Option String := (joinGlyphs glyphs).map String.ofList

def glyphOfUnit (n : Nat) : Glyph :=
  if 0xd800 ≤ n ∧ n ≤ 0xdfff then .surrogate n else .char (Char.ofNat n)

def isExponent : List Char → Bool
  | [] => true
  | e :: rest =>
    (e = 'e' || e = 'E') &&
      match rest with
      | '+' :: ds => !ds.isEmpty && ds.all Char.isDigit
      | '-' :: ds => !ds.isEmpty && ds.all Char.isDigit
      | ds => !ds.isEmpty && ds.all Char.isDigit

def isFraction : List Char → Bool
  | '.' :: rest =>
    match rest with
    | d :: more => d.isDigit && isExponent (more.dropWhile Char.isDigit)
    | [] => false
  | rest => isExponent rest

def isUnsigned : List Char → Bool
  | [] => false
  | '0' :: rest => isFraction rest
  | d :: rest => d.isDigit && isFraction (rest.dropWhile Char.isDigit)

/-- An optional minus, an integer without leading zeros, then a fraction and an exponent if any. -/
def isNumber : List Char → Bool
  | '-' :: rest => isUnsigned rest
  | cs => isUnsigned cs

def isNumberChar (c : Char) : Bool :=
  c.isDigit || c = '-' || c = '+' || c = '.' || c = 'e' || c = 'E'

def isBlank (c : Char) : Bool := c = ' ' || c = '\n' || c = '\t' || c = '\r'

/-- What the scanner is inside of; what it has read comes newest first. -/
inductive Mode where
  | between
  | number (read : List Char)
  | word (read : List Char)
  | string (read : List Glyph)
  | escape (read : List Glyph)
  | unicode (read : List Glyph) (left : Nat) (unit : Nat)
  deriving DecidableEq, Repr

def wordToken (letters : List Char) : Option Token :=
  if letters = ['t', 'r', 'u', 'e'] then some (.bool true)
  else if letters = ['f', 'a', 'l', 's', 'e'] then some (.bool false)
  else if letters = ['n', 'u', 'l', 'l'] then some .null
  else none

def numberToken (literal : List Char) : Option Token :=
  if isNumber literal then some (.number literal) else none

/-- The mode and the finished token, if any, after a character between tokens. -/
def enter (c : Char) : Option (List Token × Mode) :=
  if isBlank c then some ([], .between)
  else if c = '\x7b' then some ([.openBrace], .between)
  else if c = '\x7d' then some ([.closeBrace], .between)
  else if c = '[' then some ([.openBracket], .between)
  else if c = ']' then some ([.closeBracket], .between)
  else if c = ',' then some ([.comma], .between)
  else if c = ':' then some ([.colon], .between)
  else if c = '"' then some ([], .string [])
  else if c.isDigit || c = '-' then some ([], .number [c])
  else if c.isLower then some ([], .word [c])
  else none

def escaped (c : Char) : Option Char :=
  if c = '"' then some '"'
  else if c = '\\' then some '\\'
  else if c = '/' then some '/'
  else if c = 'b' then some (Char.ofNat 8)
  else if c = 'f' then some (Char.ofNat 12)
  else if c = 'n' then some '\n'
  else if c = 'r' then some '\r'
  else if c = 't' then some '\t'
  else none

def hexValue (c : Char) : Option Nat :=
  if c.isDigit then some (c.toNat - '0'.toNat)
  else if 'a' ≤ c ∧ c ≤ 'f' then some (c.toNat - 'a'.toNat + 10)
  else if 'A' ≤ c ∧ c ≤ 'F' then some (c.toNat - 'A'.toNat + 10)
  else none

/-- The tokens finished by one character, and the mode after it. -/
def advance : Mode → Char → Option (List Token × Mode)
  | .between, c => enter c
  | .number read, c =>
    if isNumberChar c then some ([], .number (c :: read))
    else do
      let token ← numberToken read.reverse
      let (tokens, mode) ← enter c
      return (token :: tokens, mode)
  | .word read, c =>
    if c.isLower then some ([], .word (c :: read))
    else do
      let token ← wordToken read.reverse
      let (tokens, mode) ← enter c
      return (token :: tokens, mode)
  | .string read, c =>
    if c = '"' then some ([.string read.reverse], .between)
    else if c = '\\' then some ([], .escape read)
    else if c.toNat < 32 then none
    else some ([], .string (.char c :: read))
  | .escape read, c =>
    if c = 'u' then some ([], .unicode read 3 0)
    else (escaped c).map fun e => ([], .string (.char e :: read))
  | .unicode read left unit, c => do
    let digit ← hexValue c
    match left with
    | 0 => return ([], .string (glyphOfUnit (unit * 16 + digit) :: read))
    | more + 1 => return ([], .unicode read more (unit * 16 + digit))

/-- The last token, when the text ends. -/
def finish : Mode → Option (List Token)
  | .between => some []
  | .number read => (numberToken read.reverse).map ([·])
  | .word read => (wordToken read.reverse).map ([·])
  | .string _ => none
  | .escape _ => none
  | .unicode _ _ _ => none

def scan : Mode → List Char → Option (List Token)
  | mode, [] => finish mode
  | mode, c :: rest => do
    let (tokens, next) ← advance mode c
    let more ← scan next rest
    return tokens ++ more

def tokens (text : String) : Option (List Token) := scan .between text.toList

end GuardedScript.Json
