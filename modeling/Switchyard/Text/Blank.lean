/-
  Switchyard.Text.Blank — the characters that count as white space, and text without
  the white space at its ends.

  The class is the Unicode property White_Space: the controls from tab to carriage
  return, the space, next line, no-break space and the spaces and separators of the
  general punctuation block and beyond.
-/

namespace Switchyard.Text

/-- The ranges of the property White_Space, in order of code point. -/
def blankRanges : List (Nat × Nat) :=
  [(0x09, 0x0D), (0x20, 0x20), (0x85, 0x85), (0xA0, 0xA0), (0x1680, 0x1680), (0x2000, 0x200A),
   (0x2028, 0x2029), (0x202F, 0x202F), (0x205F, 0x205F), (0x3000, 0x3000)]

def isBlank (c : Char) : Bool := blankRanges.any fun r => r.1 ≤ c.toNat && c.toNat ≤ r.2

example : blankRanges.Pairwise (fun a b => a.2 < b.1) := by decide

def trimStart (cs : List Char) : List Char := cs.dropWhile isBlank

def trimEnd (cs : List Char) : List Char := (cs.reverse.dropWhile isBlank).reverse

def trim (s : String) : String := String.ofList (trimEnd (trimStart s.toList))

end Switchyard.Text
