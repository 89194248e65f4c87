import Switchyard.Pattern

/-
  Switchyard.Pattern.Specificity — which of two patterns is tried first.

  A pattern without wildcards comes before one with any. Then the pattern with more
  literal characters, with fewer `*`, with fewer `?` and with the longer literal start
  comes first, and the pattern's text settles what is left, so two patterns compare
  equal only if they are the same.
-/

namespace Switchyard.Pattern

structure Specificity where
  literals : Nat
  stars : Nat
  questions : Nat
  literalStart : Nat
  pattern : String
  deriving DecidableEq, Repr

namespace Specificity

def of (pattern : String) : Specificity :=
  let cs := pattern.toList
  { literals := cs.countP fun c => !isWildcard c
    stars := cs.count '*'
    questions := cs.count '?'
    literalStart := (cs.takeWhile fun c => !isWildcard c).length
    pattern }

def isLiteral (s : Specificity) : Bool := s.stars = 0 && s.questions = 0

/-- The most specific pattern is the least. -/
def compare (a b : Specificity) : Ordering :=
  (Ord.compare b.isLiteral a.isLiteral).then <|
  (Ord.compare b.literals a.literals).then <|
  (Ord.compare a.stars b.stars).then <|
  (Ord.compare a.questions b.questions).then <|
  (Ord.compare b.literalStart a.literalStart).then <|
  Ord.compare a.pattern b.pattern

end Specificity

def precedes (p q : String) : Bool := (Specificity.of p).compare (Specificity.of q) = .lt

end Switchyard.Pattern
