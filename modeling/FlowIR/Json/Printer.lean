import FlowIR.Json.Basic

/-!
# Writing documents

Lists and objects are written with one item on a line, indented by two blanks for each level. Empty
ones stay on their line.
-/
namespace FlowIR.Json

def hexDigit (n : Nat) : Char := ("0123456789abcdef".toList[n]?).getD '0'

/-- Only quotes, backslashes and control characters are written as escapes. -/
def escapeChar (c : Char) : List Char :=
  if c = '"' then ['\\', '"']
  else if c = '\\' then ['\\', '\\']
  else if c = '\x08' then ['\\', 'b']
  else if c = '\x0c' then ['\\', 'f']
  else if c = '\n' then ['\\', 'n']
  else if c = '\r' then ['\\', 'r']
  else if c = '\t' then ['\\', 't']
  else if c.toNat < 0x20 then
    ['\\', 'u', '0', '0', hexDigit (c.toNat / 16), hexDigit (c.toNat % 16)]
  else [c]

def quote (text : String) : List Char := '"' :: text.toList.flatMap escapeChar ++ ['"']

def newline (depth : Nat) : List Char := '\n' :: List.replicate (2 * depth) ' '

mutual

/-- The characters of a document inside of so many lists and objects. A text without characters is
written as an empty one. -/
def chars (depth : Nat) : Json → List Char
  | null => ['n', 'u', 'l', 'l']
  | bool true => ['t', 'r', 'u', 'e']
  | bool false => ['f', 'a', 'l', 's', 'e']
  | number numeral => numeral.chars
  | text characters => quote (characters.getD "")
  | list [] => ['[', ']']
  | list (item :: items) =>
    '[' :: newline (depth + 1) ++ chars (depth + 1) item ++ itemChars (depth + 1) items
      ++ newline depth ++ [']']
  | object [] => ['\x7b', '\x7d']
  | object ((key, value) :: fields) =>
    '\x7b' :: newline (depth + 1) ++ quote (key.getD "") ++ [':', ' '] ++ chars (depth + 1) value
      ++ fieldChars (depth + 1) fields ++ newline depth ++ ['\x7d']

def itemChars (depth : Nat) : List Json → List Char
  | [] => []
  | item :: items => ',' :: newline depth ++ chars depth item ++ itemChars depth items

def fieldChars (depth : Nat) : List (Option String × Json) → List Char
  | [] => []
  | (key, value) :: fields =>
    ',' :: newline depth ++ quote (key.getD "") ++ [':', ' '] ++ chars depth value
      ++ fieldChars depth fields

end

def print (document : Json) : String := String.ofList (document.chars 0)

end FlowIR.Json
