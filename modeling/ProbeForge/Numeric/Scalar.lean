import ProbeForge.Fault
import ProbeForge.Numeric.Binary64

/-!
# Scalars

The numbers that radii and scores are computed in. The algorithms are written once over `Scalar`;
they run on `Float`, where an integer can be too large, and are reasoned about on the rationals,
where every conversion is exact.
-/

namespace ProbeForge

class Scalar (α : Type) extends Zero α, One α, Add α, Sub α, Mul α, Div α, LT α, LE α where
  decidableLT : DecidableLT α
  decidableLE : DecidableLE α
  ofInt : Int → Except Fault α
  /-- `ratio n d` is `n / d` for small literals with `d ≠ 0`. -/
  ratio : Nat → Nat → α
  ofFloat : Float → α
  /-- Toward zero. -/
  truncate : α → Except Fault Int
  ceil : α → Except Fault Int
  /-- To the nearest integer, a half to the even one. -/
  round : α → Except Fault Int
  /-- Whether arithmetic has stayed in range. -/
  isFinite : α → Bool

attribute [reducible, instance] Scalar.decidableLT Scalar.decidableLE

namespace Scalar

variable {α : Type} [Scalar α]

/-- Zero is the one value that is neither below nor above zero. -/
@[specialize] def isZero (x : α) : Bool := !(x < 0) && !(0 < x)

@[specialize] def divide (x y : α) : Except Fault α :=
  if isZero y then .error .divisionByZero else .ok (x / y)

@[specialize] def larger (x y : α) : α := if x < y then y else x

@[specialize] def smaller (x y : α) : α := if y < x then y else x

/-- The distance between `x` and `y`. -/
@[specialize] def gap (x y : α) : α := if x < y then y - x else x - y

end Scalar

namespace Numeric

/-- The float nearest to an integer. -/
def floatOfInt (n : Int) : Except Fault Float :=
  match nearest? n.natAbs 1 with
  | some x => .ok (if n < 0 then -x else x)
  | none => .error .tooLarge

/-- The float nearest to a quotient of integers. The sign of a zero follows both signs. -/
def quotient (num den : Int) : Except Fault Float :=
  if den = 0 then .error .divisionByZero
  else
    match nearest? num.natAbs den.natAbs with
    | some x => .ok (if (num < 0) != (den < 0) then -x else x)
    | none => .error .tooLarge

def integerOf (f : Dyadic → Int) (x : Float) : Except Fault Int :=
  match Dyadic.ofFloat? x with
  | some d => .ok (f d)
  | none => .error (if x.isNaN then .unacceptable else .tooLarge)

end Numeric

instance : Scalar Float where
  zero := 0
  one := 1
  decidableLT := inferInstance
  decidableLE := inferInstance
  ofInt := Numeric.floatOfInt
  ratio n d := Float.ofNat n / Float.ofNat d
  ofFloat := id
  truncate := Numeric.integerOf Numeric.Dyadic.truncate
  ceil := Numeric.integerOf Numeric.Dyadic.ceil
  round := Numeric.integerOf Numeric.Dyadic.round
  isFinite := Float.isFinite

/-- Scalars with square roots, which distances need. -/
class Rooted (α : Type) extends Scalar α where
  sqrt : α → α

instance : Rooted Float where
  sqrt := Float.sqrt

/-- An integer that stays exact until arithmetic with a scalar needs it. -/
inductive Quantity (α : Type) where
  | whole (n : Int)
  | real (x : α)
deriving Repr

namespace Quantity

variable {α : Type} [Scalar α]

@[specialize] def toScalar : Quantity α → Except Fault α
  | whole n => Scalar.ofInt n
  | real x => .ok x

/-- Two integers add exactly. -/
@[specialize] def add : Quantity α → Quantity α → Except Fault (Quantity α)
  | whole m, whole n => .ok (whole (m + n))
  | x, y => do return real ((← x.toScalar) + (← y.toScalar))

@[specialize] def sub : Quantity α → Quantity α → Except Fault (Quantity α)
  | whole m, whole n => .ok (whole (m - n))
  | x, y => do return real ((← x.toScalar) - (← y.toScalar))

@[specialize] def square : Quantity α → Except Fault (Quantity α)
  | whole n => .ok (whole (n * n))
  | real x =>
    if Scalar.isFinite x && !Scalar.isFinite (x * x) then .error .tooLarge else .ok (real (x * x))

/-- Only a whole quantity can count things. -/
@[specialize] def toWhole : Quantity α → Except Fault Int
  | whole n => .ok n
  | real _ => .error .wrongType

@[specialize] def ceil : Quantity α → Except Fault Int
  | whole n => .ok n
  | real x => Scalar.ceil x

@[specialize] def isZero : Quantity α → Bool
  | whole n => n = 0
  | real x => Scalar.isZero x

@[specialize] def isPositive : Quantity α → Bool
  | whole n => 0 < n
  | real x => 0 < x

end Quantity

end ProbeForge
