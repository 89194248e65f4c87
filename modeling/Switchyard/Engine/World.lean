import Switchyard.Bus
import Switchyard.Engine.Unit
import Switchyard.Event
import Switchyard.Store.Repository

/-
  Switchyard.Engine.World — everything the engine changes.

  The world holds the history, the live views, the claims of running instances with
  their stop tokens, the registered jobs, the event channel, a clock, and the units' own
  memory.

  The clock moves only when a unit waits. Every look at it is a little later than the
  one before, so no two records start at one instant.
-/

namespace Switchyard

/-- The number of a stop request that an attempt listens to. -/
abbrev Token := Nat

structure Clock where
  origin : Instant
  /-- The origin in milliseconds since 1970, for identifiers. -/
  originMillis : Nat := 0
  /-- Milliseconds that units have waited. -/
  waited : Nat := 0
  /-- How often the clock was looked at. -/
  looks : Nat := 0
  /-- How many identifiers were given out. -/
  issued : Nat := 0
  deriving Inhabited

structure World (σ : Type) where
  repository : Repository
  /-- The live view of each attempt under way, by instance. -/
  live : Dict Snapshot := Dict.empty
  /-- The claimed instances, each with the token of its attempt. -/
  running : Dict Token := Dict.empty
  /-- The tokens given out, and those among them that were cancelled. -/
  tokens : Nat := 0
  cancelled : List Token := []
  jobs : Dict Definition := Dict.empty
  bus : Bus Event
  clock : Clock
  /-- The deadlines of the guards under way, innermost first. -/
  deadlines : List Nat := []
  memory : σ

end Switchyard
