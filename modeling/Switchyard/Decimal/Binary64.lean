/-
  Switchyard.Decimal.Binary64 — finite binary numbers of 64 bits in exact arithmetic:
  rounding a quotient, scaling by powers of ten, and the fewest digits that read back.

  A number is a sign, a mantissa below 2^53 and a power of two from 2^-1074 to 2^971.
  `nearest` rounds a quotient of natural numbers, a tie to the even mantissa.
  `ofDecimal` rounds the significand, then rounds once more at each scaling by a power
  of ten that is itself rounded: a product for a positive exponent, a quotient for a
  negative one. `shortest` asks for each number of digits from one to seventeen whether
  one of the two neighbours of the value on that decimal grid rounds back to it, and
  takes the nearer one on the first grid that has any.
-/

namespace Switchyard

/-- A finite binary number: `mantissa * 2 ^ exponent` with a sign. -/
structure Binary64 where
  negative : Bool
  mantissa : Nat
  exponent : Int
  deriving DecidableEq, Repr, Inhabited

namespace Binary64

def leastExponent : Int := -1074
def greatestExponent : Int := 971

/-- A quotient of natural numbers, rounded, a half to the even neighbour. -/
def roundDiv (num den : Nat) : Nat :=
  let q := num / den
  let r := num % den
  if 2 * r < den then q else if den < 2 * r then q + 1 else if q % 2 = 0 then q else q + 1

def shifted (num den : Nat) (e : Int) : Nat × Nat :=
  if 0 ≤ e then (num, den <<< e.toNat) else (num <<< (-e).toNat, den)

/-- The number nearest to a quotient, without sign; none if it is too large. -/
def nearest (num den : Nat) : Option (Nat × Int) :=
  if num = 0 then some (0, leastExponent)
  else
    let guess : Int := (num.log2 : Int) - (den.log2 : Int) - 53
    let low := max guess leastExponent
    let (n, d) := shifted num den low
    let e := if Nat.pow 2 53 ≤ n / d then low + 1 else low
    let (n, d) := shifted num den e
    let q := roundDiv n d
    let (q, e) := if q = Nat.pow 2 53 then (Nat.pow 2 52, e + 1) else (q, e)
    if greatestExponent < e then none else some (q, e)

def quotient (x : Nat × Int) : Nat × Nat :=
  if 0 ≤ x.2 then (x.1 <<< x.2.toNat, 1) else (x.1, 1 <<< (-x.2).toNat)

def times (x y : Nat × Int) : Option (Nat × Int) :=
  let (a, b) := quotient x
  let (c, d) := quotient y
  nearest (a * c) (b * d)

def dividedBy (x y : Nat × Int) : Option (Nat × Int) :=
  let (a, b) := quotient x
  let (c, d) := quotient y
  nearest (a * d) (b * c)

def powerOfTen (k : Nat) : Option (Nat × Int) := nearest (Nat.pow 10 k) 1

def scale : Nat → Nat × Int → Int → Option (Nat × Int)
  | 0, x, _ => some x
  | fuel + 1, x, e =>
    if e.natAbs ≤ 308 then do
      let p ← powerOfTen e.natAbs
      if 0 ≤ e then times x p else dividedBy x p
    else if x.1 = 0 then some x
    else if 0 ≤ e then none
    else do
      let p ← powerOfTen 308
      let y ← dividedBy x p
      scale fuel y (e + 308)

/-- The number written as a significand and a power of ten; none if it is too large. -/
def ofDecimal (negative : Bool) (significand : Nat) (exponent : Int) : Option Binary64 := do
  let x ← nearest significand 1
  let y ← scale 5 x exponent
  some ⟨negative, y.1, y.2⟩

/-! ## The fewest digits that read back -/

/-- The numbers that round to `m * 2 ^ q` lie between `low` and `high` times
    `2 ^ (q - 2)`, the ends included if `m` is even. -/
structure Interval where
  low : Nat
  high : Nat
  closed : Bool

def interval (m : Nat) (q : Int) : Interval :=
  { low := if m = Nat.pow 2 52 ∧ leastExponent < q then 4 * m - 1 else 4 * m - 2
    high := 4 * m + 2
    closed := m % 2 = 0 }

def magnitudeUp (num den : Nat) : Nat → Int → Int
  | 0, k => k
  | fuel + 1, k =>
    let below := if 0 ≤ k then num < den * Nat.pow 10 k.toNat else num * Nat.pow 10 (-k).toNat < den
    if below then k else magnitudeUp num den fuel (k + 1)

/-- The place of the decimal point: the least `k` with the value below `10 ^ k`. -/
def magnitude (num den : Nat) : Int := magnitudeUp num den 640 (-324)

/-- The decimal `digits * 10 ^ power` as a multiple of `2 ^ (q - 2)`, as a quotient. -/
def onGrid (digits : Nat) (power q : Int) : Nat × Nat :=
  let (n, d) := if 0 ≤ power then (digits * Nat.pow 10 power.toNat, 1) else (digits, Nat.pow 10 (-power).toNat)
  if 0 ≤ q - 2 then (n, d <<< (q - 2).toNat) else (n <<< (2 - q).toNat, d)

def Interval.has (i : Interval) (x : Nat × Nat) : Bool :=
  if i.closed then i.low * x.2 ≤ x.1 && x.1 ≤ i.high * x.2
  else i.low * x.2 < x.1 && x.1 < i.high * x.2

/-- The neighbours of the value on the grid of `10 ^ power` that read back, the nearer
    one, a tie to the even digits. -/
def onePlace (m : Nat) (q power : Int) : Option Nat :=
  let (num, den) := quotient (m, q)
  let (n, d) := if 0 ≤ power then (num, den * Nat.pow 10 power.toNat) else (num * Nat.pow 10 (-power).toNat, den)
  let down := n / d
  let up := down + 1
  let range := interval m q
  let downFits := range.has (onGrid down power q)
  let upFits := range.has (onGrid up power q)
  match downFits && down ≠ 0, upFits with
  | true, true =>
    let r := n % d
    if 2 * r < d then some down else if d < 2 * r then some up else if down % 2 = 0 then some down else some up
  | true, false => some down
  | false, true => some up
  | false, false => none

def search (m : Nat) (q point : Int) : Nat → Nat → Option (Nat × Int)
  | 0, _ => none
  | fuel + 1, places =>
    match onePlace m q (point - places) with
    | some digits => some (digits, point - places)
    | none => search m q point fuel (places + 1)

def dropZeros : Nat → Nat → Int → Nat × Int
  | 0, digits, power => (digits, power)
  | fuel + 1, digits, power =>
    if digits ≠ 0 ∧ digits % 10 = 0 then dropZeros fuel (digits / 10) (power + 1) else (digits, power)

def shortest (m : Nat) (q : Int) : Nat × Int :=
  let (num, den) := quotient (m, q)
  let point := magnitude num den
  match search m q point 18 1 with
  | some (digits, power) => dropZeros 20 digits power
  | none => (m, q)

def zeros (n : Nat) : String := String.ofList (List.replicate n '0')

/-- The text of a number: positional with at least one digit after the point while
    the point stands from five places left of the digits up to the sixteenth place,
    with an exponent elsewhere. -/
def text (x : Binary64) : String :=
  let sign := if x.negative then "-" else ""
  if x.mantissa = 0 then sign ++ "0.0"
  else
    let (digits, power) := shortest x.mantissa x.exponent
    let ds := toString digits
    let length : Int := ds.length
    let point := length + power
    let body :=
      if 0 ≤ power ∧ point ≤ 16 then ds ++ zeros power.toNat ++ ".0"
      else if 0 < point ∧ point ≤ 16 then
        String.ofList (ds.toList.take point.toNat) ++ "." ++ String.ofList (ds.toList.drop point.toNat)
      else if -5 < point ∧ point ≤ 0 then "0." ++ zeros (-point).toNat ++ ds
      else if ds.length = 1 then ds ++ "e" ++ toString (point - 1)
      else String.ofList (ds.toList.take 1) ++ "." ++ String.ofList (ds.toList.drop 1) ++ "e" ++ toString (point - 1)
    sign ++ body

end Binary64

end Switchyard
