import ProbeForge.Numeric.Fixed

/-!
# Shortest decimals

A float is written with the fewest digits that read back to it; of two such decimals the nearer one
is taken. The reals that round to a float are an interval, and if a decimal grid meets the interval
then one of the two grid points next to the float lies in it.
-/

namespace ProbeForge.Numeric

/-- A positive value `num / den` and the ends of the interval that rounds to it, over the same
denominator. `closed` tells whether the ends belong to the interval. -/
structure RoundingInterval where
  num : Nat
  low : Nat
  high : Nat
  den : Nat
  closed : Bool

/-- Below a power of two the gap to the neighbour is half as wide. -/
def Dyadic.interval (d : Dyadic) : RoundingInterval :=
  let (scale, den) := (Dyadic.mk false 1 (d.exponent - 2)).fraction
  let below := if d.mantissa = twoTo 52 ∧ d.exponent > -1074 then 1 else 2
  { num := 4 * d.mantissa * scale, low := (4 * d.mantissa - below) * scale,
    high := (4 * d.mantissa + 2) * scale, den, closed := d.mantissa % 2 == 0 }

def RoundingInterval.contains (i : RoundingInterval) (num den : Nat) : Bool :=
  let value := num * i.den
  let low := i.low * den
  let high := i.high * den
  if i.closed then low ≤ value && value ≤ high else low < value && value < high

/-- Whether `num / den < 10 ^ p`. -/
def belowPower (num den : Nat) : Int → Bool
  | .ofNat e => num < den * tenTo e
  | .negSucc e => num * tenTo (e + 1) < den

/-- The least `p` with `num / den < 10 ^ p`, searched downward from an upper bound. -/
def decimalPoint (num den : Nat) : Nat → Int → Int
  | 0, p => p
  | fuel + 1, p => if belowPower num den (p - 1) then decimalPoint num den fuel (p - 1) else p

/-- The decimal of `count` digits in the interval that is nearest to its value, as digits and the
exponent of the last one. -/
def RoundingInterval.onGrid? (i : RoundingInterval) (point : Int) (count : Nat) :
    Option (Nat × Int) :=
  let unit := point - count
  let (n, d) := match unit with
    | .ofNat e => (i.num, i.den * tenTo e)
    | .negSucc e => (i.num * tenTo (e + 1), i.den)
  let inside (k : Nat) : Bool := match unit with
    | .ofNat e => i.contains (k * tenTo e) 1
    | .negSucc e => i.contains k (tenTo (e + 1))
  let below := n / d
  let above := below + 1
  -- of two equally near decimals the even one counts
  let nearerAbove := 2 * (n % d) > d || (2 * (n % d) == d && below % 2 == 1)
  match inside below, inside above with
  | true, true => some (if nearerAbove then above else below, unit)
  | true, false => some (below, unit)
  | false, true => some (above, unit)
  | false, false => none

/-- Seventeen digits always read back. -/
def Dyadic.shortest (d : Dyadic) : Nat × Int :=
  let i := d.interval
  let point := decimalPoint i.num i.den 700 310
  ((List.range' 1 17).findSome? (i.onGrid? point)).getD (0, 0)

def dropZeros : Nat → Nat → Nat × Nat
  | 0, n => (n, 0)
  | fuel + 1, n =>
    if n ≠ 0 ∧ n % 10 = 0 then
      let (m, k) := dropZeros fuel (n / 10)
      (m, k + 1)
    else (n, 0)

/-- Positional from `0.0001` up to below `10 ^ 16`, with `.0` after a whole number; otherwise one
digit before the point and an exponent of at least two digits. -/
def layOut (digits : Nat) (exponent : Int) : String :=
  let (digits, zeros) := dropZeros 400 digits
  let exponent := exponent + zeros
  let text := toString digits
  let lead := exponent + text.length - 1
  if -4 ≤ lead ∧ lead < 16 then
    if exponent ≥ 0 then text ++ String.ofList (List.replicate exponent.toNat '0') ++ ".0"
    else placed (-exponent).toNat digits
  else
    let rest := String.ofList (text.toList.drop 1)
    String.ofList (text.toList.take 1) ++ (if rest.isEmpty then "" else "." ++ rest) ++ "e" ++
      (if lead < 0 then "-" else "+") ++ padLeft 2 '0' (toString lead.natAbs)

def shortestText (x : Float) : String :=
  match Dyadic.ofFloat? x with
  | some d =>
    (if d.negative then "-" else "") ++
      (if d.mantissa = 0 then "0.0" else let (n, e) := d.shortest; layOut n e)
  | none => if x.isNaN then "nan" else if x < 0 then "-inf" else "inf"

end ProbeForge.Numeric
