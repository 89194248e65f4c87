import Switchyard.Text.Digits
import Switchyard.Toml

/-
  Switchyard.Toml.Reader — reading the text of a document.

  A document is a list of lines: a header, a key with its value, or nothing, each
  followed by a comment if there is one. Lines end in a line feed, which a carriage
  return may precede. Values are strings of four kinds, numbers, moments, booleans,
  arrays and inline tables; only arrays and strings of several lines go on over the end
  of a line. Arrays and inline tables are nested less than 80 deep.

  Values are read as JSON. A number that is no finite one reads as a real, and a moment
  as an object that holds its text.
-/

namespace Switchyard.Toml

def isBlankChar (c : Char) : Bool := c = ' ' || c = '\t'

def skipBlanks (cs : List Char) : List Char := cs.dropWhile isBlankChar

def isPlain (c : Char) : Bool := c = '\t' || (0x20 ≤ c.toNat && c ≠ '\x7f')

/-- What follows the end of a line; nothing follows the end of the text. -/
def newline? : List Char → Option (List Char)
  | '\n' :: rest => some rest
  | '\r' :: '\n' :: rest => some rest
  | _ => none

def skipComment : List Char → List Char
  | '#' :: rest => rest.dropWhile isPlain
  | cs => cs

def lineEnd? (cs : List Char) : Option (List Char) :=
  match skipComment (skipBlanks cs) with
  | [] => some []
  | rest => newline? rest

def skipLines : Nat → List Char → List Char
  | 0, cs => cs
  | fuel + 1, cs =>
    let rest := skipComment (skipBlanks cs)
    match newline? rest with
    | some tail => skipLines fuel tail
    | none => rest

/-! ## Strings -/

def hexNumber? (ds : List Char) : Option Nat := ds.foldlM (fun acc c => (Text.hexValue? c).map (acc * 16 + ·)) 0

def scalar? (n : Nat) : Option Char := if n.isValidChar then some (Char.ofNat n) else none

def simpleEscape? : Char → Option Char
  | 'b' => some '\x08'
  | 't' => some '\t'
  | 'n' => some '\n'
  | 'f' => some '\x0c'
  | 'r' => some '\r'
  | '"' => some '"'
  | '\\' => some '\\'
  | _ => none

def escape? : List Char → Option (Char × List Char)
  | 'u' :: rest =>
    if rest.length < 4 then none
    else (hexNumber? (rest.take 4) >>= scalar?).map fun c => (c, rest.drop 4)
  | 'U' :: rest =>
    if rest.length < 8 then none
    else (hexNumber? (rest.take 8) >>= scalar?).map fun c => (c, rest.drop 8)
  | c :: rest => (simpleEscape? c).map fun x => (x, rest)
  | [] => none

/-- A string of one line with escapes, after its opening quote. -/
def basic? : Nat → List Char → List Char → Option (String × List Char)
  | 0, _, _ => none
  | fuel + 1, acc, cs =>
    match cs with
    | '"' :: rest => some (String.ofList acc.reverse, rest)
    | '\\' :: rest =>
      match escape? rest with
      | some (c, rest) => basic? fuel (c :: acc) rest
      | none => none
    | c :: rest => if isPlain c then basic? fuel (c :: acc) rest else none
    | [] => none

def literal? : List Char → List Char → Option (String × List Char)
  | acc, '\'' :: rest => some (String.ofList acc.reverse, rest)
  | acc, c :: rest => if isPlain c then literal? (c :: acc) rest else none
  | _, [] => none

/-- The end of a string of several lines: three quotes, and up to two more in front that
    belong to the string. -/
def close? (quote : Char) (acc cs : List Char) : Option (String × List Char) :=
  let n := (cs.takeWhile (· = quote)).length
  if n < 3 then none
  else
    let own := min (n - 3) 2
    some (String.ofList (acc.reverse ++ List.replicate own quote), cs.drop (own + 3))

def dropFirstNewline (cs : List Char) : List Char := (newline? cs).getD cs

/-- White space at a line that ends in a backslash; none if more than blanks follows the
    backslash on its line. -/
def foldLine? (fuel : Nat) (cs : List Char) : Option (List Char) :=
  (newline? (skipBlanks cs)).map (skipAll fuel)
where
  skipAll : Nat → List Char → List Char
    | 0, cs => cs
    | fuel + 1, cs =>
      match newline? (skipBlanks cs) with
      | some tail => skipAll fuel tail
      | none => skipBlanks cs

def basicLines? : Nat → List Char → List Char → Option (String × List Char)
  | 0, _, _ => none
  | fuel + 1, acc, cs =>
    match close? '"' acc cs with
    | some r => some r
    | none =>
      match cs with
      | '\\' :: rest =>
        match foldLine? fuel rest with
        | some tail => basicLines? fuel acc tail
        | none =>
          match escape? rest with
          | some (c, rest) => basicLines? fuel (c :: acc) rest
          | none => none
      | c :: rest =>
        match newline? cs with
        | some tail => basicLines? fuel ('\n' :: acc) tail
        | none => if isPlain c then basicLines? fuel (c :: acc) rest else none
      | [] => none

def literalLines? : Nat → List Char → List Char → Option (String × List Char)
  | 0, _, _ => none
  | fuel + 1, acc, cs =>
    match close? '\'' acc cs with
    | some r => some r
    | none =>
      match cs with
      | c :: rest =>
        match newline? cs with
        | some tail => literalLines? fuel ('\n' :: acc) tail
        | none => if isPlain c then literalLines? fuel (c :: acc) rest else none
      | [] => none

/-! ## Keys -/

def isBare (c : Char) : Bool := c.isAlphanum || c = '_' || c = '-'

def simpleKey? (cs : List Char) : Option (String × List Char) :=
  match cs with
  | '"' :: rest => basic? (rest.length + 1) [] rest
  | '\'' :: rest => literal? [] rest
  | cs =>
    match cs.takeWhile isBare with
    | [] => none
    | bare => some (String.ofList bare, cs.dropWhile isBare)

def key? : Nat → List Char → Option (List String × List Char)
  | 0, _ => none
  | fuel + 1, cs => do
    let (k, rest) ← simpleKey? (skipBlanks cs)
    match skipBlanks rest with
    | '.' :: rest =>
      let (ks, rest) ← key? fuel rest
      some (k :: ks, rest)
    | rest => some ([k], rest)

/-! ## Numbers and moments -/

/-- Digits with single underscores between them, without the underscores. -/
def digitGroups? (isDigit : Char → Bool) : List Char → Option (List Char)
  | [] => none
  | [c] => if isDigit c then some [c] else none
  | c :: '_' :: rest => if isDigit c then (digitGroups? isDigit rest).map (c :: ·) else none
  | c :: rest => if isDigit c then (digitGroups? isDigit rest).map (c :: ·) else none

def fitting (n : Int) : Option Json :=
  if -(Text.maxI64 + 1 : Int) ≤ n ∧ n ≤ Text.maxI64 then some (.int n) else none

def ofBase (base : Nat) (ds : List Char) : Option Json := do
  let ds ← digitGroups? (fun c => ((Text.hexValue? c).map (fun v => decide (v < base))).getD false) ds
  fitting (ds.foldl (fun acc c => acc * base + (Text.hexValue? c).getD 0) 0 : Nat)

def decimal? (ds : List Char) : Option (List Char) := do
  let ds ← digitGroups? Char.isDigit ds
  if ds.head? = some '0' ∧ 1 < ds.length then none else some ds

def natOf (ds : List Char) : Nat := ds.foldl (fun acc c => acc * 10 + (c.toNat - '0'.toNat)) 0

def unsign : List Char → Bool × List Char
  | '-' :: rest => (true, rest)
  | '+' :: rest => (false, rest)
  | cs => (false, cs)

def integer? (cs : List Char) : Option Json :=
  match cs with
  | '0' :: 'x' :: ds => ofBase 16 ds
  | '0' :: 'o' :: ds => ofBase 8 ds
  | '0' :: 'b' :: ds => ofBase 2 ds
  | cs => do
    let (negative, ds) := unsign cs
    let n := natOf (← decimal? ds)
    fitting (if negative then -(n : Int) else n)

/-- A number that is not whole: with a fraction, an exponent or both, or none that is
    finite. -/
def float? (cs : List Char) : Option Json := do
  let (negative, cs) := unsign cs
  if cs = "inf".toList ∨ cs = "nan".toList then some (.real ⟨negative, 0, Binary64.leastExponent⟩)
  else
    let (mantissa, exponent) := cs.span fun c => c ≠ 'e' ∧ c ≠ 'E'
    let (whole, fraction) := mantissa.span (· ≠ '.')
    if exponent = [] ∧ fraction = [] then none
    else
      let whole ← decimal? whole
      let fraction ← if fraction = [] then some [] else digitGroups? Char.isDigit (fraction.drop 1)
      let e ←
        if exponent = [] then some (0 : Int)
        else
          let (down, ds) := unsign (exponent.drop 1)
          (digitGroups? Char.isDigit ds).map fun ds => if down then -(natOf ds : Int) else (natOf ds : Int)
      let n := natOf (whole ++ fraction)
      if n = 0 then some (.real ⟨negative, 0, Binary64.leastExponent⟩)
      else (Binary64.ofDecimal negative n (e - fraction.length)).map .real

def twoDigits? (low high : Nat) (a b : Char) : Option Nat := do
  let n := (← Text.digitValue? a) * 10 + (← Text.digitValue? b)
  if low ≤ n ∧ n ≤ high then some n else none

def isLeapYear (y : Nat) : Bool := y % 4 = 0 && (y % 100 ≠ 0 || y % 400 = 0)

def daysIn (y m : Nat) : Nat :=
  if m = 2 then (if isLeapYear y then 29 else 28) else if m ∈ [4, 6, 9, 11] then 30 else 31

def afterDate? : List Char → Option (List Char)
  | y1 :: y2 :: y3 :: y4 :: '-' :: m1 :: m2 :: '-' :: d1 :: d2 :: rest => do
    let y := (← twoDigits? 0 99 y1 y2) * 100 + (← twoDigits? 0 99 y3 y4)
    let m ← twoDigits? 1 12 m1 m2
    let _ ← twoDigits? 1 (daysIn y m) d1 d2
    some rest
  | _ => none

def afterTime? : List Char → Option (List Char)
  | h1 :: h2 :: ':' :: m1 :: m2 :: ':' :: s1 :: s2 :: rest => do
    let _ ← twoDigits? 0 23 h1 h2
    let _ ← twoDigits? 0 59 m1 m2
    let _ ← twoDigits? 0 60 s1 s2
    match rest with
    | '.' :: tail => if (tail.takeWhile Char.isDigit) = [] then none else some (tail.dropWhile Char.isDigit)
    | rest => some rest
  | _ => none

def isOffset : List Char → Bool
  | [] => true
  | ['Z'] | ['z'] => true
  | [sign, h1, h2, ':', m1, m2] =>
    (sign = '+' || sign = '-') && (twoDigits? 0 23 h1 h2).isSome && (twoDigits? 0 59 m1 m2).isSome
  | _ => false

def isMoment (cs : List Char) : Bool :=
  match afterDate? cs with
  | some [] => true
  | some (c :: time) => (c = 'T' || c = 't' || c = ' ') && ((afterTime? time).map isOffset).getD false
  | none => afterTime? cs = some []

def word? (cs : List Char) : Option Json :=
  if cs = "true".toList then some (.bool true)
  else if cs = "false".toList then some (.bool false)
  else if isMoment cs then some (.obj [("moment", .str (String.ofList cs))])
  else integer? cs <|> float? cs

def isWordChar (c : Char) : Bool := isBare c || c = '+' || c = '.' || c = ':'

/-- The word at the front of a text; a date and a time of day may have a space between. -/
def takeWord (cs : List Char) : List Char × List Char :=
  let (w, rest) := cs.span isWordChar
  match rest with
  | ' ' :: c :: tail =>
    if afterDate? w = some [] ∧ c.isDigit then
      let (time, tail) := (c :: tail).span isWordChar
      (w ++ ' ' :: time, tail)
    else (w, rest)
  | rest => (w, rest)

/-! ## Values -/

/-- Arrays and inline tables nest less than this deep. -/
def depthLimit : Nat := 80

mutual

def value? (room : Nat) : Nat → List Char → Option (Json × List Char)
  | 0, _ => none
  | fuel + 1, cs =>
    match cs with
    | '"' :: '"' :: '"' :: rest =>
      (basicLines? (rest.length + 1) [] (dropFirstNewline rest)).map fun (s, tail) => (.str s, tail)
    | '\'' :: '\'' :: '\'' :: rest =>
      (literalLines? (rest.length + 1) [] (dropFirstNewline rest)).map fun (s, tail) => (.str s, tail)
    | '"' :: rest => (basic? (rest.length + 1) [] rest).map fun (s, tail) => (.str s, tail)
    | '\'' :: rest => (literal? [] rest).map fun (s, tail) => (.str s, tail)
    | '[' :: rest =>
      match room with
      | 0 => none
      | room + 1 => (items? room fuel rest).map fun (items, tail) => (.arr items, tail)
    | '\x7b' :: rest =>
      match room with
      | 0 => none
      | room + 1 =>
        match skipBlanks rest with
        | '\x7d' :: tail => some (.obj [], tail)
        | rest => (pairs? room fuel [] rest).map fun (members, tail) => (.obj (membersJson members), tail)
    | cs =>
      let (w, rest) := takeWord cs
      (word? w).map fun j => (j, rest)

/-- The items of an array up to its end; a comma may follow the last. -/
def items? (room : Nat) : Nat → List Char → Option (List Json × List Char)
  | 0, _ => none
  | fuel + 1, cs =>
    match skipLines (cs.length + 1) cs with
    | ']' :: tail => some ([], tail)
    | cs => do
      let (j, rest) ← value? room fuel cs
      match skipLines (rest.length + 1) rest with
      | ',' :: rest =>
        let (items, tail) ← items? room fuel rest
        some (j :: items, tail)
      | ']' :: tail => some ([j], tail)
      | _ => none

def pairs? (room : Nat) : Nat → Members → List Char → Option (Members × List Char)
  | 0, _, _ => none
  | fuel + 1, members, cs => do
    let (ks, rest) ← key? depthLimit cs
    match rest with
    | '=' :: rest =>
      let (j, rest) ← value? room fuel (skipBlanks rest)
      let k ← ks.getLast?
      let members ← assign ks.dropLast k j .declared members
      match skipBlanks rest with
      | ',' :: rest => pairs? room fuel members rest
      | '\x7d' :: tail => some (members, tail)
      | _ => none
    | _ => none

end

/-! ## Documents -/

/-- A document under way: the header that keys belong to, and everything so far. -/
structure Draft where
  header : List String := []
  members : Members := []

def headerEnd? (close rest : List Char) : Option (List Char) :=
  if rest.take close.length = close then lineEnd? (rest.drop close.length) else none

def line? (d : Draft) (cs : List Char) : Option (Draft × List Char) :=
  match cs with
  | '[' :: '[' :: rest => do
    let (ks, rest) ← key? depthLimit rest
    let rest ← headerEnd? [']', ']'] rest
    let k ← ks.getLast?
    let members ← update false (fun _ ms => lengthen k ms) ks.dropLast .declared d.members
    some ({ header := ks, members }, rest)
  | '[' :: rest => do
    let (ks, rest) ← key? depthLimit rest
    let rest ← headerEnd? [']'] rest
    let k ← ks.getLast?
    let members ← update false (fun _ ms => declare k ms) ks.dropLast .declared d.members
    some ({ header := ks, members }, rest)
  | cs => do
    let (ks, rest) ← key? depthLimit cs
    match rest with
    | '=' :: rest =>
      let rest := skipBlanks rest
      let (j, rest) ← value? (depthLimit - 1) (2 * rest.length + 2) rest
      let rest ← lineEnd? rest
      let k ← ks.getLast?
      let members ← update false (assign ks.dropLast k j) d.header .declared d.members
      some ({ d with members }, rest)
    | _ => none

def lines? : Nat → Draft → List Char → Option Members
  | 0, _, _ => none
  | fuel + 1, d, cs =>
    match skipLines (cs.length + 1) cs with
    | [] => some d.members
    | cs => do
      let (d, rest) ← line? d cs
      lines? fuel d rest

def skipMark : List Char → List Char
  | '\ufeff' :: rest => rest
  | cs => cs

/-- The document a text holds, as a JSON object. -/
def parse? (s : String) : Option Json :=
  let cs := skipMark s.toList
  (lines? (cs.length + 1) {} cs).map fun members => .obj (membersJson members)

end Switchyard.Toml
