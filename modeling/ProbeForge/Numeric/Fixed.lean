import ProbeForge.Numeric.Binary64

/-!
# Fixed decimals

A float written with a fixed number of decimals is its exact value rounded once, a half to the even
digit. A negative zero keeps its sign.
-/

namespace ProbeForge.Numeric

def padLeft (width : Nat) (fill : Char) (s : String) : String :=
  String.ofList (List.replicate (width - s.length) fill) ++ s

/-- `units / 10 ^ places` in positional notation. -/
def placed (places units : Nat) : String :=
  let digits := padLeft (places + 1) '0' (toString units)
  let cs := digits.toList
  let whole := cs.take (cs.length - places)
  if places = 0 then digits
  else String.ofList (whole ++ '.' :: cs.drop whole.length)

def fixed (places : Nat) (x : Float) : String :=
  match Dyadic.ofFloat? x with
  | some d =>
    let (num, den) := d.fraction
    (if d.negative then "-" else "") ++ placed places (roundDiv (num * tenTo places) den)
  | none => if x.isNaN then "nan" else if x < 0 then "-inf" else "inf"

end ProbeForge.Numeric
