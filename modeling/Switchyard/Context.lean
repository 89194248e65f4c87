import Switchyard.Json.Printer

/-
  Switchyard.Context — the values that the nodes of an attempt hand on to one another.

  Units never change the context themselves: they return entries, which are written
  over it once their node is done.
-/

namespace Switchyard

abbrev Context := Dict Json

/-- A value as text: a string as it is, any other value as compact JSON. -/
def Json.asText : Json → String
  | .str s => s
  | j => j.compact

def Context.text? (c : Context) (key : String) : Option String := (c.get? key).map Json.asText

end Switchyard
