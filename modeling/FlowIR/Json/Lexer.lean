import FlowIR.Json.Basic

/-!
# From characters to tokens

The lexer looks at one character at a time. Words and numerals run as far as they can, texts run up
to their closing quote.
-/
namespace FlowIR.Json

/-- A character of a text, or a unit named by an escape with four hexadecimal digits. -/
inductive Piece where
  | char (c : Char)
  | unit (n : Nat)
  deriving DecidableEq, Repr

def isHighSurrogate (unit : Nat) : Bool := 0xD800 ≤ unit && unit < 0xDC00

def isLowSurrogate (unit : Nat) : Bool := 0xDC00 ≤ unit && unit < 0xE000

/-- The characters of a text. A high surrogate has to be followed at once by a low one, and a low
one does not stand elsewhere. -/
def charsOfPieces? : List Piece → Option (List Char)
  | [] => some []
  | .char c :: rest => (charsOfPieces? rest).map (c :: ·)
  | .unit high :: .unit low :: rest =>
    if isHighSurrogate high then
      if isLowSurrogate low then
        let code := 0x10000 + (high - 0xD800) * 0x400 + (low - 0xDC00)
        (charsOfPieces? rest).map (Char.ofNat code :: ·)
      else none
    else if isLowSurrogate high then none
    else (charsOfPieces? (.unit low :: rest)).map (Char.ofNat high :: ·)
  | .unit unit :: rest =>
    if isHighSurrogate unit || isLowSurrogate unit then none
    else (charsOfPieces? rest).map (Char.ofNat unit :: ·)

/-- What the lexer is inside of. Gathered characters and pieces stand in reverse. -/
inductive Mode where
  | between
  | word (letters : List Char)
  | numeral (chars : List Char)
  | quoted (pieces : List Piece)
  | escaped (pieces : List Piece)
  | hex (pieces : List Piece) (value count : Nat)
  deriving DecidableEq, Repr

def isBlank (c : Char) : Bool := c = ' ' || c = '\t' || c = '\n' || c = '\r'

def isNumeralChar (c : Char) : Bool :=
  c.isDigit || c = '+' || c = '-' || c = '.' || c = 'e' || c = 'E'

def wordToken? (letters : List Char) : Option Token :=
  if letters = ['t', 'r', 'u', 'e'] then some (.bool true)
  else if letters = ['f', 'a', 'l', 's', 'e'] then some (.bool false)
  else if letters = ['n', 'u', 'l', 'l'] then some .null
  else none

def punctuation? (c : Char) : Option Token :=
  if c = '[' then some .openList
  else if c = ']' then some .closeList
  else if c = '\x7b' then some .openObject
  else if c = '\x7d' then some .closeObject
  else if c = ',' then some .comma
  else if c = ':' then some .colon
  else none

/-- The character that an escape with one letter stands for. -/
def simpleEscape? (c : Char) : Option Char :=
  if c = '"' ∨ c = '\\' ∨ c = '/' then some c
  else if c = 'b' then some '\x08'
  else if c = 'f' then some '\x0c'
  else if c = 'n' then some '\n'
  else if c = 'r' then some '\r'
  else if c = 't' then some '\t'
  else none

def hexValue? (c : Char) : Option Nat :=
  if '0' ≤ c ∧ c ≤ '9' then some (c.toNat - '0'.toNat)
  else if 'a' ≤ c ∧ c ≤ 'f' then some (c.toNat - 'a'.toNat + 10)
  else if 'A' ≤ c ∧ c ≤ 'F' then some (c.toNat - 'A'.toNat + 10)
  else none

/-- The tokens so far stand in reverse. -/
structure LexState where
  mode : Mode
  tokens : List Token

/-- A character that starts a token or stands between two. -/
def startToken? (tokens : List Token) (c : Char) : Option LexState :=
  if isBlank c then some { mode := .between, tokens }
  else if c = '"' then some { mode := .quoted [], tokens }
  else if c = '-' || c.isDigit then some { mode := .numeral [c], tokens }
  else if c.isLower then some { mode := .word [c], tokens }
  else (punctuation? c).map fun token => { mode := .between, tokens := token :: tokens }

def finishWord? (letters : List Char) (tokens : List Token) : Option (List Token) :=
  (wordToken? letters.reverse).map (· :: tokens)

def finishNumeral? (chars : List Char) (tokens : List Token) : Option (List Token) :=
  (Decimal.Numeral.parse? chars.reverse).map fun numeral => .number numeral :: tokens

def textToken (pieces : List Piece) : Token :=
  .text ((charsOfPieces? pieces.reverse).map String.ofList)

def lexStep (state : LexState) (c : Char) : Option LexState :=
  match state.mode with
  | .between => startToken? state.tokens c
  | .word letters =>
    if c.isLower then some { state with mode := .word (c :: letters) }
    else (finishWord? letters state.tokens).bind (startToken? · c)
  | .numeral chars =>
    if isNumeralChar c then some { state with mode := .numeral (c :: chars) }
    else (finishNumeral? chars state.tokens).bind (startToken? · c)
  | .quoted pieces =>
    if c = '"' then some { mode := .between, tokens := textToken pieces :: state.tokens }
    else if c = '\\' then some { state with mode := .escaped pieces }
    else if c.toNat < 0x20 then none
    else some { state with mode := .quoted (.char c :: pieces) }
  | .escaped pieces =>
    if c = 'u' then some { state with mode := .hex pieces 0 0 }
    else (simpleEscape? c).map fun plain => { state with mode := .quoted (.char plain :: pieces) }
  | .hex pieces value count =>
    (hexValue? c).map fun digit =>
      let value := 16 * value + digit
      if count = 3 then { state with mode := .quoted (.unit value :: pieces) }
      else { state with mode := .hex pieces value (count + 1) }

def lexEnd? (state : LexState) : Option (List Token) :=
  match state.mode with
  | .between => some state.tokens
  | .word letters => finishWord? letters state.tokens
  | .numeral chars => finishNumeral? chars state.tokens
  | _ => none

/-- The tokens of a text, or nothing if some part of it is not a token. -/
def lex? (text : List Char) : Option (List Token) := do
  let state ← text.foldlM lexStep { mode := .between, tokens := [] }
  return (← lexEnd? state).reverse

end FlowIR.Json
