import Switchyard.Identity.Sha256
import Switchyard.Parameters

/-
  Switchyard.Identity — which runs of a job share a history.

  An instance is a job's name with its identifying parameters. `encoding` writes them
  as bytes, each text behind its length in eight bytes, least significant first, so
  that no two instances have one encoding. The identifier is the digest of the encoding
  in hexadecimal.
-/

namespace Switchyard

structure InstanceId where
  text : String
  deriving DecidableEq, Repr, Inhabited

namespace InstanceId

def littleEndian (n value : Nat) : List UInt8 := (List.range n).map fun i => UInt8.ofNat (value / Nat.pow 256 i)

/-- A text's bytes behind their count. -/
def field (s : String) : List UInt8 := littleEndian 8 s.utf8ByteSize ++ s.toUTF8.toList

def encoding (job : String) (parameters : Parameters) : List UInt8 :=
  field job ++ parameters.identifying.flatMap fun e => field e.1 ++ field e.2

def derive (job : String) (parameters : Parameters) : InstanceId :=
  ⟨Text.hex (Sha256.digest (encoding job parameters))⟩

/-- The characters whose bytes lie in the first `n`; none if a character straddles the
    end. -/
def cut? : Nat → List Char → Option (List Char)
  | 0, _ => some []
  | _, [] => some []
  | n, c :: rest => if c.utf8Size ≤ n then (cut? (n - c.utf8Size) rest).map (c :: ·) else none

/-- The first twelve bytes, for display; none if they end inside a character. -/
def short? (id : InstanceId) : Option String := (cut? 12 id.text.toList).map String.ofList

/-- The characters before the one that the byte after the first `n` is in, and those from it on. -/
def around : Nat → List Char → List Char × List Char
  | _, [] => ([], [])
  | n, c :: rest =>
    if c.utf8Size ≤ n then
      let (before, after) := around (n - c.utf8Size) rest
      (c :: before, after)
    else ([], c :: rest)

/-- What is told of an identifier that cannot be cut after twelve bytes: the character that
    straddles the end and the bytes it takes, with the text, cut off where it is long. -/
def straddle (id : InstanceId) : String :=
  let cs := id.text.toList
  let (before, after) := around 12 cs
  let c := after.headD default
  let start := (String.ofList before).utf8ByteSize
  let (shown, hidden) := around 256 cs
  "byte index 12 is not a char boundary; it is inside '" ++ c.toString ++ "' (bytes " ++ toString start ++ ".." ++
    toString (start + c.utf8Size) ++ ") of `" ++ String.ofList shown ++ "`" ++ if hidden.isEmpty then "" else "[...]"

end InstanceId

end Switchyard
