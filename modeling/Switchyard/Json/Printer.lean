import Switchyard.Json
import Switchyard.Text.Digits

/-
  Switchyard.Json.Printer — JSON text: compact, and laid out with two spaces a level.

  In strings the quote, the backslash and the control characters are escaped, the
  common controls by a letter and the others by four lower-case hexadecimal digits;
  every other character stands for itself.
-/

namespace Switchyard.Json

def escapeChar (c : Char) : List Char :=
  if c = '"' then ['\\', '"']
  else if c = '\\' then ['\\', '\\']
  else if c = '\x08' then ['\\', 'b']
  else if c = '\x0c' then ['\\', 'f']
  else if c = '\n' then ['\\', 'n']
  else if c = '\r' then ['\\', 'r']
  else if c = '\t' then ['\\', 't']
  else if c.toNat < 0x20 then ['\\', 'u', '0', '0', Text.hexDigit (c.toNat / 16), Text.hexDigit (c.toNat % 16)]
  else [c]

def quote (s : String) : String := String.ofList ('"' :: s.toList.flatMap escapeChar ++ ['"'])

mutual

def compact : Json → String
  | .null => "null"
  | .bool true => "true"
  | .bool false => "false"
  | .int n => toString n
  | .real x => x.text
  | .str s => quote s
  | .arr items => "[" ++ String.intercalate "," (compactItems items) ++ "]"
  | .obj members => "\x7b" ++ String.intercalate "," (compactMembers members) ++ "\x7d"

def compactItems : List Json → List String
  | [] => []
  | j :: rest => j.compact :: compactItems rest

def compactMembers : List (String × Json) → List String
  | [] => []
  | (k, j) :: rest => (quote k ++ ":" ++ j.compact) :: compactMembers rest

end

def newline (level : Nat) : String := "\n" ++ String.ofList (List.replicate (2 * level) ' ')

mutual

/-- The text with each item and member on a line of its own; empty ones stay closed. -/
def pretty (level : Nat) : Json → String
  | .arr [] => "[]"
  | .arr (j :: rest) =>
    let items := prettyItems (level + 1) (j :: rest)
    "[" ++ String.intercalate "," items ++ newline level ++ "]"
  | .obj [] => "\x7b\x7d"
  | .obj (m :: rest) =>
    let members := prettyMembers (level + 1) (m :: rest)
    "\x7b" ++ String.intercalate "," members ++ newline level ++ "\x7d"
  | .null => "null"
  | .bool true => "true"
  | .bool false => "false"
  | .int n => toString n
  | .real x => x.text
  | .str s => quote s

def prettyItems (level : Nat) : List Json → List String
  | [] => []
  | j :: rest => (newline level ++ j.pretty level) :: prettyItems level rest

def prettyMembers (level : Nat) : List (String × Json) → List String
  | [] => []
  | (k, j) :: rest => (newline level ++ quote k ++ ": " ++ j.pretty level) :: prettyMembers level rest

end

end Switchyard.Json
