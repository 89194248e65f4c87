import Switchyard.Json
import Switchyard.Text.Digits

/-
  Switchyard.Json.Reader — reading JSON text strictly.

  The text is one value with white space around it and nothing after it. Arrays and
  objects may be nested 127 deep. A number without fraction and exponent is whole if
  it fits 64 bits, signed or not; every other number is rounded, and one too large to
  round is refused. A significand keeps the leading digits that fit 64 bits.
  Strings may hold no raw control character, and escaped surrogates must pair up.
-/

namespace Switchyard.Json

def isSpace (c : Char) : Bool := c = ' ' || c = '\n' || c = '\t' || c = '\r'

def skipSpace (cs : List Char) : List Char := cs.dropWhile isSpace

/-! ## Strings -/

def hex4? (a b c d : Char) : Option Nat := do
  let a ← Text.hexValue? a
  let b ← Text.hexValue? b
  let c ← Text.hexValue? c
  let d ← Text.hexValue? d
  some (((a * 16 + b) * 16 + c) * 16 + d)

def isHighSurrogate (n : Nat) : Bool := 0xD800 ≤ n && n ≤ 0xDBFF
def isLowSurrogate (n : Nat) : Bool := 0xDC00 ≤ n && n ≤ 0xDFFF

def simpleEscape? : Char → Option Char
  | '"' => some '"'
  | '\\' => some '\\'
  | '/' => some '/'
  | 'b' => some '\x08'
  | 'f' => some '\x0c'
  | 'n' => some '\n'
  | 'r' => some '\r'
  | 't' => some '\t'
  | _ => none

def readString : List Char → List Char → Option (String × List Char)
  | acc, '"' :: rest => some (String.ofList acc.reverse, rest)
  | acc, '\\' :: 'u' :: a :: b :: c :: d :: rest =>
    match hex4? a b c d with
    | none => none
    | some n =>
      if isLowSurrogate n then none
      else if isHighSurrogate n then
        match rest with
        | '\\' :: 'u' :: e :: f :: g :: h :: rest' =>
          match hex4? e f g h with
          | none => none
          | some m =>
            if isLowSurrogate m then
              readString (Char.ofNat (0x10000 + (n - 0xD800) * 0x400 + (m - 0xDC00)) :: acc) rest'
            else none
        | _ => none
      else readString (Char.ofNat n :: acc) rest
  | acc, '\\' :: c :: rest =>
    match simpleEscape? c with
    | some x => readString (x :: acc) rest
    | none => none
  | acc, c :: rest => if c.toNat < 0x20 then none else readString (c :: acc) rest
  | _, [] => none

/-! ## Numbers -/

/-- A significand under construction: digits that no longer fit raise the exponent
    before the point and are dropped after it. -/
structure Significand where
  value : Nat := 0
  exponent : Int := 0
  full : Bool := false

def Significand.push (s : Significand) (fraction : Bool) (d : Nat) : Significand :=
  if s.full ∨ Text.maxU64 < s.value * 10 + d then
    { s with full := true, exponent := if fraction then s.exponent else s.exponent + 1 }
  else { s with value := s.value * 10 + d, exponent := if fraction then s.exponent - 1 else s.exponent }

def takeDigits : List Char → List Nat × List Char
  | [] => ([], [])
  | c :: rest =>
    match Text.digitValue? c with
    | some d => let (ds, tail) := takeDigits rest; (d :: ds, tail)
    | none => ([], c :: rest)

def natOfDigits (ds : List Nat) : Nat := ds.foldl (fun acc d => acc * 10 + d) 0

def readExponent : List Char → Option (Int × List Char)
  | c :: rest =>
    if c = 'e' ∨ c = 'E' then
      let (negative, digits) :=
        match rest with
        | '+' :: r => (false, r)
        | '-' :: r => (true, r)
        | r => (false, r)
      match takeDigits digits with
      | ([], _) => none
      | (ds, tail) =>
        let n := natOfDigits ds
        some (if negative then -(n : Int) else n, tail)
    else some (0, c :: rest)
  | [] => some (0, [])

def real? (negative : Bool) (s : Significand) (exponent : Int) : Option Json :=
  if s.value = 0 then some (.real ⟨negative, 0, Binary64.leastExponent⟩)
  else (Binary64.ofDecimal negative s.value (s.exponent + exponent)).map .real

def startsExponent : List Char → Bool
  | c :: _ => c = 'e' || c = 'E'
  | [] => false

def readNumber (negative : Bool) (cs : List Char) : Option (Json × List Char) :=
  match takeDigits cs with
  | ([], _) => none
  | (0 :: _ :: _, _) => none
  | (whole, rest) =>
    let s := whole.foldl (fun s d => s.push false d) {}
    match rest with
    | '.' :: tail =>
      match takeDigits tail with
      | ([], _) => none
      | (fraction, tail) => do
        let s := fraction.foldl (fun s d => s.push true d) s
        let (e, tail) ← readExponent tail
        let j ← real? negative s e
        some (j, tail)
    | rest =>
      if startsExponent rest then do
        let (e, tail) ← readExponent rest
        let j ← real? negative s e
        some (j, tail)
      else if s.full then do
        let j ← real? negative s 0
        some (j, rest)
      else if negative then
        if s.value = 0 ∨ Text.maxI64 + 1 < s.value then do
          let j ← real? true s 0
          some (j, rest)
        else some (.int (-(s.value : Int)), rest)
      else some (.int s.value, rest)

/-! ## Values -/

def maxDepth : Nat := 127

mutual

def readValue (room : Nat) : Nat → List Char → Option (Json × List Char)
  | 0, _ => none
  | fuel + 1, cs =>
    match skipSpace cs with
    | 'n' :: 'u' :: 'l' :: 'l' :: rest => some (.null, rest)
    | 't' :: 'r' :: 'u' :: 'e' :: rest => some (.bool true, rest)
    | 'f' :: 'a' :: 'l' :: 's' :: 'e' :: rest => some (.bool false, rest)
    | '"' :: rest => (readString [] rest).map fun (s, tail) => (.str s, tail)
    | '-' :: rest => readNumber true rest
    | '[' :: rest =>
      match room with
      | 0 => none
      | room + 1 =>
        match skipSpace rest with
        | ']' :: tail => some (.arr [], tail)
        | rest => (readItems room fuel rest).map fun (items, tail) => (.arr items, tail)
    | '\x7b' :: rest =>
      match room with
      | 0 => none
      | room + 1 =>
        match skipSpace rest with
        | '\x7d' :: tail => some (.obj [], tail)
        | rest => (readMembers room fuel rest).map fun (members, tail) => (.obj members, tail)
    | rest => readNumber false rest

def readItems (room : Nat) : Nat → List Char → Option (List Json × List Char)
  | 0, _ => none
  | fuel + 1, cs => do
    let (j, rest) ← readValue room fuel cs
    match skipSpace rest with
    | ',' :: tail =>
      let (items, tail) ← readItems room fuel tail
      some (j :: items, tail)
    | ']' :: tail => some ([j], tail)
    | _ => none

def readMembers (room : Nat) : Nat → List Char → Option (List (String × Json) × List Char)
  | 0, _ => none
  | fuel + 1, cs =>
    match skipSpace cs with
    | '"' :: rest => do
      let (k, rest) ← readString [] rest
      match skipSpace rest with
      | ':' :: rest =>
        let (j, rest) ← readValue room fuel rest
        match skipSpace rest with
        | ',' :: tail =>
          let (members, tail) ← readMembers room fuel tail
          some ((k, j) :: members, tail)
        | '\x7d' :: tail => some ([(k, j)], tail)
        | _ => none
      | _ => none
    | _ => none

end

/-- The value a text holds, members as written. -/
def parse? (s : String) : Option Json :=
  let cs := s.toList
  match readValue maxDepth (2 * cs.length + 2) cs with
  | some (j, rest) => if (skipSpace rest).isEmpty then some j else none
  | none => none

end Switchyard.Json
