import ProbeForge.Numeric.Power

/-!
# Exact arithmetic on binary64

A finite float is `± mantissa * 2 ^ exponent`. Conversions to and from it are done on natural
numbers, so every rounding below is a choice between two neighbours of an exact value.
-/

namespace ProbeForge.Numeric

/-- The quotient rounded to the nearest natural number, a half to the even one. -/
def roundDiv (num den : Nat) : Nat :=
  let quotient := num / den
  let remainder := num % den
  if 2 * remainder > den || (2 * remainder == den && quotient % 2 == 1) then quotient + 1
  else quotient

structure Dyadic where
  negative : Bool
  mantissa : Nat
  exponent : Int
deriving DecidableEq, Repr

/-- `none` for the infinities and NaN. -/
def Dyadic.ofFloat? (x : Float) : Option Dyadic :=
  let bits := x.toBits.toNat
  let field : Nat := bits / twoTo 52 % 2048
  let fraction : Nat := bits % twoTo 52
  let negative := bits / twoTo 63 == 1
  if field = 2047 then none
  else if field = 0 then some ⟨negative, fraction, -1074⟩
  else some ⟨negative, twoTo 52 + fraction, (field : Int) - 1075⟩

/-- The magnitude as a fraction. -/
def Dyadic.fraction (d : Dyadic) : Nat × Nat :=
  match d.exponent with
  | .ofNat e => (d.mantissa * twoTo e, 1)
  | .negSucc e => (d.mantissa, twoTo (e + 1))

def Dyadic.signed (d : Dyadic) (n : Nat) : Int := if d.negative then -(n : Int) else n

/-- Toward zero. -/
def Dyadic.truncate (d : Dyadic) : Int :=
  let (num, den) := d.fraction
  d.signed (num / den)

def Dyadic.ceil (d : Dyadic) : Int :=
  let (num, den) := d.fraction
  if d.negative then -((num / den : Nat) : Int) else ((num + den - 1) / den : Nat)

/-- To the nearest integer, a half to the even one. -/
def Dyadic.round (d : Dyadic) : Int :=
  let (num, den) := d.fraction
  d.signed (roundDiv num den)

def infinity : Float := Float.ofBits 0x7FF0000000000000

/-- `mantissa * 2 ^ exponent` for a mantissa up to `2 ^ 53`; below `2 ^ 52` only with the least
exponent, -1074. A mantissa of `2 ^ 53` carries into the exponent field. -/
def encode (mantissa : Nat) (exponent : Int) : Float :=
  Float.ofBits (UInt64.ofNat
    (if mantissa < twoTo 52 then mantissa
     else (exponent + 1075).toNat * twoTo 52 + (mantissa - twoTo 52)))

/-- `num * 2 ^ -exponent / den` as a fraction. -/
def scaled (num den : Nat) (exponent : Int) : Nat × Nat :=
  match exponent with
  | .ofNat e => (num, den * twoTo e)
  | .negSucc e => (num * twoTo (e + 1), den)

/-- The float nearest to `num / den`, a tie to the even mantissa; `none` if that is too large for a
float. -/
def nearest? (num den : Nat) : Option Float :=
  if num = 0 then some (encode 0 (-1074))
  else
    let low := max ((num.log2 : Int) - den.log2 - 53) (-1074)
    let (n, d) := scaled num den low
    -- the quotient of the leading bits may need one more bit
    let exponent := if twoTo 53 ≤ n / d then low + 1 else low
    let (n, d) := scaled num den exponent
    let mantissa := roundDiv n d
    if exponent > 971 || (exponent = 971 && mantissa = twoTo 53) then none
    else some (encode mantissa exponent)

/-- `n * 10 ^ exponent`, infinite if too large. Exponents that no float reaches are cut off before
the power is computed. -/
def ofDecimal (n : Nat) (exponent : Int) : Float :=
  let digits : Int := n.log2 / 3 + 1
  if n = 0 || exponent + digits < -400 then 0
  else if exponent > 400 then infinity
  else
    match exponent with
    | .ofNat e => (nearest? (n * tenTo e) 1).getD infinity
    | .negSucc e => (nearest? n (tenTo (e + 1))).getD infinity

end ProbeForge.Numeric
