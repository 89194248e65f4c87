import Switchyard.Text.Digits

/-
  Switchyard.ExecutionId — the identifier of one attempt: a number of 128 bits.

  It is written as 32 lower-case hexadecimal digits in groups of 8, 4, 4, 4 and 12. It
  is read in that form in either case, without the hyphens, in braces, or behind the
  name of its registry. `numbered` gives the identifiers of one clock tick in order.
-/

namespace Switchyard

structure ExecutionId where
  bits : BitVec 128
  deriving DecidableEq, Repr, Inhabited

namespace ExecutionId

def digits (id : ExecutionId) : List Char :=
  (List.range 32).map fun i => Text.hexDigit (id.bits.toNat / Nat.pow 16 (31 - i) % 16)

/-- Digits with hyphens after the 8th, 12th, 16th and 20th. -/
def group (ds : List Char) : List Char :=
  ds.take 8 ++ '-' :: (ds.drop 8).take 4 ++ '-' :: (ds.drop 12).take 4 ++ '-' :: (ds.drop 16).take 4 ++
    '-' :: ds.drop 20

def text (id : ExecutionId) : String := String.ofList (group id.digits)

def ofDigits? (ds : List Char) : Option ExecutionId :=
  if ds.length = 32 then
    (ds.foldlM (fun acc c => (Text.hexValue? c).map (acc * 16 + ·)) 0).map fun n => ⟨BitVec.ofNat 128 n⟩
  else none

def ungroup? (cs : List Char) : Option (List Char) :=
  if cs.length = 36 ∧ cs[8]? = some '-' ∧ cs[13]? = some '-' ∧ cs[18]? = some '-' ∧ cs[23]? = some '-' then
    some (cs.take 8 ++ (cs.drop 9).take 4 ++ (cs.drop 14).take 4 ++ (cs.drop 19).take 4 ++ cs.drop 24)
  else none

def registryName : List Char := "urn:uuid:".toList

def parse? (s : String) : Option ExecutionId :=
  let cs := s.toList
  if cs.length = 32 then ofDigits? cs
  else if cs.length = 38 ∧ cs.head? = some '\x7b' ∧ cs.getLast? = some '\x7d' then
    ungroup? ((cs.drop 1).take 36) >>= ofDigits?
  else if cs.length = 45 ∧ cs.take 9 = registryName then ungroup? (cs.drop 9) >>= ofDigits?
  else ungroup? cs >>= ofDigits?

/-- The `n`th identifier of a millisecond: the time, the version and the variant in
    their places, and the count in the bits that are left. -/
def numbered (millis n : Nat) : ExecutionId :=
  ⟨BitVec.ofNat 128 (millis <<< 80 + 7 <<< 76 + 2 <<< 62 + n)⟩

end ExecutionId

end Switchyard
