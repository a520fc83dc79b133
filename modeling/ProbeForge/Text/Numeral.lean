import ProbeForge.Text.Blank
import ProbeForge.Numeric.Binary64

/-!
# Numerals

Numbers as people type them: space around them, a sign, any decimal digits of Unicode, and single
underscores between digits.
-/

namespace ProbeForge.Text

/-- The digit zero of every script; nine digits follow each. -/
def digitZeros : List Nat := [
  0x30, 0x660, 0x6F0, 0x7C0, 0x966, 0x9E6, 0xA66, 0xAE6, 0xB66, 0xBE6, 0xC66, 0xCE6, 0xD66, 0xDE6,
  0xE50, 0xED0, 0xF20, 0x1040, 0x1090, 0x17E0, 0x1810, 0x1946, 0x19D0, 0x1A80, 0x1A90, 0x1B50,
  0x1BB0, 0x1C40, 0x1C50, 0xA620, 0xA8D0, 0xA900, 0xA9D0, 0xA9F0, 0xAA50, 0xABF0, 0xFF10, 0x104A0,
  0x10D30, 0x11066, 0x110F0, 0x11136, 0x111D0, 0x112F0, 0x11450, 0x114D0, 0x11650, 0x116C0,
  0x11730, 0x118E0, 0x11950, 0x11C50, 0x11D50, 0x11DA0, 0x16A60, 0x16AC0, 0x16B50, 0x1D7CE,
  0x1D7D8, 0x1D7E2, 0x1D7EC, 0x1D7F6, 0x1E140, 0x1E2F0, 0x1E950, 0x1FBF0]

def digitValue? (c : Char) : Option Nat :=
  let n := c.toNat
  (digitZeros.find? fun start => start ≤ n && n < start + 10).map (n - ·)

/-- The space that may surround a numeral. The ASCII separators 0x1C to 0x1F are blank but do not
count here. -/
def isNumeralSpace (c : Char) : Bool := isBlank c && !(0x1C ≤ c.toNat && c.toNat ≤ 0x1F)

/-- Digits with single underscores between them; `mayEnd` tells whether an underscore or the end may
come next. -/
def readDigits : List Char → Bool → Nat → Option Nat
  | [], mayEnd, n => if mayEnd then some n else none
  | c :: rest, mayEnd, n =>
    if c = '_' then if mayEnd then readDigits rest false n else none
    else (digitValue? c).bind fun d => readDigits rest true (10 * n + d)

def splitSign : List Char → Bool × List Char
  | '-' :: rest => (true, rest)
  | '+' :: rest => (false, rest)
  | cs => (false, cs)

def readInteger (s : String) : Option Int :=
  let (negative, digits) := splitSign (trimBy isNumeralSpace s.toList)
  (readDigits digits false 0).map fun n => if negative then -(n : Int) else n

/-- Digits, possibly none, with the number of digits read. -/
def readFraction (cs : List Char) (n : Nat) : Option (Nat × Nat) :=
  if cs.isEmpty then some (n, 0)
  else (readDigits cs false n).map fun m => (m, (cs.filter (· != '_')).length)

def isExponentMark (c : Char) : Bool := c = 'e' || c = 'E'

/-- A decimal with an optional point and exponent; at least one side of the point has digits. -/
def readDecimal (cs : List Char) : Option Float := do
  let mantissa := cs.takeWhile (!isExponentMark ·)
  let exponent ← match cs.dropWhile (!isExponentMark ·) with
    | [] => some (0 : Int)
    | _ :: digits =>
      let (negative, digits) := splitSign digits
      (readDigits digits false 0).map fun n => if negative then -(n : Int) else n
  let whole := mantissa.takeWhile (· != '.')
  let fraction := (mantissa.dropWhile (· != '.')).drop 1
  if whole.isEmpty && fraction.isEmpty then none
  else
    let (n, _) ← readFraction whole 0
    let (n, places) ← readFraction fraction n
    some (Numeric.ofDecimal n (exponent - places))

def readReal (s : String) : Option Float :=
  let (negative, cs) := splitSign (trimBy isNumeralSpace s.toList)
  let value :=
    match String.ofList (cs.map Char.toLower) with
    | "inf" | "infinity" => some Numeric.infinity
    | "nan" => some (0 / 0)
    | _ => readDecimal cs
  value.map fun x => if negative then -x else x

end ProbeForge.Text
