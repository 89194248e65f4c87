import Switchyard.Decimal.Binary64
import Switchyard.Text.Digits

/-
  Switchyard.Text.Duration — lengths of time for people: milliseconds below a second,
  seconds to one place below a minute, and minutes with seconds from there on.

  Seconds are first rounded to a binary number, and that number's exact value then to
  the nearest tenth, a tie to the even one.
-/

namespace Switchyard.Text

def tenths (millis : Nat) : Nat :=
  match Binary64.nearest millis 1000 with
  | some x =>
    let (num, den) := Binary64.quotient x
    Binary64.roundDiv (num * 10) den
  | none => 0

def duration (millis : Int) : String :=
  if millis < 1000 then toString millis ++ "ms"
  else
    let n := millis.toNat
    if n < 60000 then toString (tenths n / 10) ++ "." ++ toString (tenths n % 10) ++ "s"
    else toString (n / 60000) ++ "m" ++ padded 2 (n % 60000 / 1000) ++ "s"

example : duration 12 = "12ms" := by decide +kernel
example : duration 3449 = "3.4s" := by decide +kernel
example : duration 125000 = "2m05s" := by decide +kernel

end Switchyard.Text
