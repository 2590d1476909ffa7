import FlowIR.Json.Lexer

/-!
# From tokens to documents

The reader keeps the open lists and objects on a stack, so documents may nest to any depth.
-/
namespace FlowIR.Json

/-- A list or an object that is not closed yet. Its parts stand in reverse. -/
inductive Frame where
  | list (items : List Json)
  | object (fields : List (Option String × Json)) (key : Option String)

/-- What the next token has to be. -/
inductive Expected where
  | value
  | valueOrClose
  | key (fields : List (Option String × Json))
  | keyOrClose
  | colon (fields : List (Option String × Json)) (key : Option String)
  | commaOrClose (last : Json)
  deriving Inhabited

structure ReadState where
  expected : Expected
  frames : List Frame

/-- A value that is not a list or an object. -/
def scalar? : Token → Option Json
  | .null => some .null
  | .bool value => some (.bool value)
  | .number numeral => some (.number numeral)
  | .text chars => some (.text chars)
  | _ => none

def startValue? (frames : List Frame) : Token → Option ReadState
  | .openList => some { expected := .valueOrClose, frames := .list [] :: frames }
  | .openObject => some { expected := .keyOrClose, frames }
  | token => (scalar? token).map fun value => { expected := .commaOrClose value, frames }

def readStep (state : ReadState) (token : Token) : Option ReadState :=
  match state.expected, token, state.frames with
  | .value, token, frames => startValue? frames token
  | .valueOrClose, .closeList, .list _ :: frames =>
    some { expected := .commaOrClose (.list []), frames }
  | .valueOrClose, token, frames => startValue? frames token
  | .keyOrClose, .closeObject, frames => some { expected := .commaOrClose (.object []), frames }
  | .keyOrClose, .text key, frames => some { expected := .colon [] key, frames }
  | .key fields, .text key, frames => some { expected := .colon fields key, frames }
  | .colon fields key, .colon, frames =>
    some { expected := .value, frames := .object fields key :: frames }
  | .commaOrClose last, .comma, .list items :: frames =>
    some { expected := .value, frames := .list (last :: items) :: frames }
  | .commaOrClose last, .closeList, .list items :: frames =>
    some { expected := .commaOrClose (.list (last :: items).reverse), frames }
  | .commaOrClose last, .comma, .object fields key :: frames =>
    some { expected := .key ((key, last) :: fields), frames }
  | .commaOrClose last, .closeObject, .object fields key :: frames =>
    some { expected := .commaOrClose (.object ((key, last) :: fields).reverse), frames }
  | _, _, _ => none

def readEnd? (state : ReadState) : Option Json :=
  match state.expected, state.frames with
  | .commaOrClose document, [] => some document
  | _, _ => none

def ofTokens? (tokens : List Token) : Option Json := do
  readEnd? (← tokens.foldlM readStep { expected := .value, frames := [] })

/-- A text that is one document, with blanks around it. -/
def parse? (text : String) : Option Json := (lex? text.toList).bind ofTokens?

end FlowIR.Json
