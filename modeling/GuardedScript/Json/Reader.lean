import GuardedScript.Json.Basic
import GuardedScript.Json.Token

/-!
Reading JSON: the tokens drive a machine that keeps a stack of the containers still open.
-/

namespace GuardedScript.Json

/-- An open container, waiting for the value now being read. -/
inductive Frame where
  | element (before : List Json)
  | member (before : List (Option String × Json)) (key : Option String)

/-- What may come next. Values already read come newest first. -/
inductive Reading where
  | value (stack : List Frame)
  | valueOrClose (stack : List Frame)
  | key (before : List (Option String × Json)) (stack : List Frame)
  | keyOrClose (stack : List Frame)
  | colon (before : List (Option String × Json)) (key : Option String) (stack : List Frame)
  | nextElement (before : List Json) (stack : List Frame)
  | nextMember (before : List (Option String × Json)) (stack : List Frame)
  | done (value : Json)

def settle (v : Json) : List Frame → Reading
  | [] => .done v
  | .element before :: stack => .nextElement (v :: before) stack
  | .member before key :: stack => .nextMember ((key, v) :: before) stack

def begin (stack : List Frame) : Token → Option Reading
  | .null => some (settle .null stack)
  | .bool b => some (settle (.bool b) stack)
  | .number literal => some (settle (.number (String.ofList literal)) stack)
  | .string glyphs => some (settle (.string (glyphText glyphs)) stack)
  | .openBracket => some (.valueOrClose stack)
  | .openBrace => some (.keyOrClose stack)
  | _ => none

def read : Reading → Token → Option Reading
  | .value stack, t => begin stack t
  | .valueOrClose stack, .closeBracket => some (settle (.array []) stack)
  | .valueOrClose stack, t => begin (.element [] :: stack) t
  | .key before stack, .string glyphs => some (.colon before (glyphText glyphs) stack)
  | .keyOrClose stack, .closeBrace => some (settle (.object []) stack)
  | .keyOrClose stack, .string glyphs => some (.colon [] (glyphText glyphs) stack)
  | .colon before key stack, .colon => some (.value (.member before key :: stack))
  | .nextElement before stack, .comma => some (.value (.element before :: stack))
  | .nextElement before stack, .closeBracket => some (settle (.array before.reverse) stack)
  | .nextMember before stack, .comma => some (.key before stack)
  | .nextMember before stack, .closeBrace => some (settle (.object before.reverse) stack)
  | _, _ => none

def ofTokens? (ts : List Token) : Option Json :=
  match ts.foldlM read (.value []) with
  | some (.done v) => some v
  | _ => none

def parse? (text : String) : Option Json := (tokens text).bind ofTokens?

end GuardedScript.Json
