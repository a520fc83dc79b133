import ProbeForge.Derivation.Engine

/-!
# Node limits as they were given

A limit may be any number, and is shown in a failure the way it was given. What is no number is
refused when a tree is first measured by it.
-/

namespace ProbeForge

structure NodeLimit where
  given : Json

namespace NodeLimit

/-- The most nodes that are within the limit. No tree is within one that is no number. -/
def nodes (l : NodeLimit) : Int :=
  match l.given.toNumber with
  | .ok (.whole n) => n
  | .ok (.real x) => -((Scalar.ceil (-x)).toOption.getD 0)
  | .error _ => -1

/-- A statement as this limit shows it. -/
def settle (l : NodeLimit) (r : Generation) : Except Fault Generation :=
  match r.failure with
  | some (.tooManyNodes _ symbol) => do
    let _ ← l.given.toNumber
    return { r with failure := some (.tooManyNodes l.given.plain symbol) }
  | _ => .ok r

end NodeLimit

end ProbeForge
