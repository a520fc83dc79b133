import ProbeForge.Json.Basic
import ProbeForge.OrderedMap

/-!
# Rehearsals

A backend for tournaments without a database: call number `i` gives prepared outcome `i`, and after
the last one the first comes again. The probes of all calls are kept.
-/

namespace ProbeForge

structure Rehearsal where
  outcomes : List (OrderedMap String Json)
  /-- The probes of each call, the last call first. -/
  calls : List (List String)

namespace Rehearsal

def prepared (outcomes : List (OrderedMap String Json)) : Rehearsal := ⟨outcomes, []⟩

def execute (probes : List String) : Attempt Rehearsal (OrderedMap String Json) := do
  let r ← get
  -- without prepared outcomes there is no turn to take
  if r.outcomes.isEmpty then throw .divisionByZero
  set { r with calls := probes :: r.calls }
  require .outOfRange r.outcomes[r.calls.length % r.outcomes.length]?

/-- The probes of each call in the order of the calls. -/
def statements (r : Rehearsal) : List (List String) := r.calls.reverse

end Rehearsal

end ProbeForge
