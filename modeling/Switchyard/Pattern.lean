/-
  Switchyard.Pattern — exit-code patterns with two wildcards: `*` for any run of
  characters, the empty one included, and `?` for exactly one.

  A pattern matches a whole text, case by case. The matcher reads a piece of the
  pattern up to the next `*` against the text. On a mismatch the last `*` passed takes
  one more character of the text and the piece after it is tried again; earlier stars
  are never taken back. That is enough because the first place a piece fits leaves the
  most text for the pieces after it. The number of tries is at most the length of the
  pattern and the text together, which is the fuel of `afterStar`.

  `Matches` is the language of a pattern by recursion on the pattern, the definition
  the matcher is measured against.
-/

namespace Switchyard.Pattern

def Matches : List Char → List Char → Prop
  | [], t => t = []
  | c :: p, t =>
    if c = '*' then ∃ rest, rest <:+ t ∧ Matches p rest
    else ∃ x rest, t = x :: rest ∧ (c = '?' ∨ c = x) ∧ Matches p rest

/-- How far one piece of a pattern got. -/
inductive Piece where
  /-- The text ended; whether the pattern left over admits no more text. -/
  | ended (accepted : Bool)
  /-- A star was reached with text left over. -/
  | star (pattern text : List Char)
  | mismatch
  deriving DecidableEq, Repr

def piece : List Char → List Char → Piece
  | p, [] => .ended (p.all (· = '*'))
  | [], _ :: _ => .mismatch
  | c :: p, x :: t =>
    if c = '*' then .star p (x :: t)
    else if c = '?' ∨ c = x then piece p t
    else .mismatch

def afterStar : Nat → List Char → List Char → Bool
  | 0, _, _ => false
  | fuel + 1, p, t =>
    match piece p t with
    | .ended accepted => accepted
    | .star p' t' => afterStar fuel p' t'
    | .mismatch =>
      match t with
      | [] => false
      | _ :: t' => afterStar fuel p t'

def matchesChars (p t : List Char) : Bool :=
  match piece p t with
  | .ended accepted => accepted
  | .star p' t' => afterStar (p.length + t.length + 1) p' t'
  | .mismatch => false

def accepts (pattern text : String) : Bool := matchesChars pattern.toList text.toList

def isWildcard (c : Char) : Bool := c = '*' || c = '?'

end Switchyard.Pattern
