import ProbeForge.Json.Basic
import ProbeForge.OrderedMap

/-!
# Reading JSON

Strict JSON, with `NaN` and the infinities admitted as numbers. Of two fields with one key the later
value counts, at the place of the first. A byte order mark is not white space.
-/

namespace ProbeForge.Json

def isSpace (c : Char) : Bool := c = ' ' || c = '\t' || c = '\n' || c = '\r'

def skipSpace (cs : List Char) : List Char := cs.dropWhile isSpace

def isDigit (c : Char) : Bool := '0' ≤ c && c ≤ '9'

def digits (cs : List Char) : Nat := cs.foldl (fun n c => 10 * n + (c.toNat - 48)) 0

def hexDigit? (c : Char) : Option Nat :=
  if '0' ≤ c && c ≤ '9' then some (c.toNat - 48)
  else if 'a' ≤ c && c ≤ 'f' then some (c.toNat - 87)
  else if 'A' ≤ c && c ≤ 'F' then some (c.toNat - 55)
  else none

def hexUnit? : List Char → Option (Nat × List Char)
  | a :: b :: c :: d :: rest => do
    let a ← hexDigit? a
    let b ← hexDigit? b
    let c ← hexDigit? c
    let d ← hexDigit? d
    some (((a * 16 + b) * 16 + c) * 16 + d, rest)
  | _ => none

/-- The character of an escape `\uXXXX` whose first unit is `unit`; a high surrogate takes the low
one that follows it. A lone surrogate is no character and becomes U+FFFD. -/
def escapedChar (unit : Nat) (rest : List Char) : Char × List Char :=
  if 0xD800 ≤ unit ∧ unit < 0xDC00 then
    match rest with
    -- a low surrogate must follow at once
    | '\\' :: 'u' :: more =>
      match hexUnit? more with
      | some (low, after) =>
        if 0xDC00 ≤ low ∧ low < 0xE000 then
          (Char.ofNat (0x10000 + (unit - 0xD800) * 0x400 + (low - 0xDC00)), after)
        else (Char.ofNat 0xFFFD, rest)
      | none => (Char.ofNat 0xFFFD, rest)
    | _ => (Char.ofNat 0xFFFD, rest)
  else if 0xDC00 ≤ unit ∧ unit < 0xE000 then (Char.ofNat 0xFFFD, rest)
  else (Char.ofNat unit, rest)

def simpleEscape? : Char → Option Char
  | '"' => some '"'
  | '\\' => some '\\'
  | '/' => some '/'
  | 'b' => some (Char.ofNat 8)
  | 'f' => some (Char.ofNat 12)
  | 'n' => some '\n'
  | 'r' => some '\r'
  | 't' => some '\t'
  | _ => none

/-- The rest of a string after its opening quote; `done` is what was read, backwards. -/
def string? : Nat → List Char → List Char → Option (String × List Char)
  | 0, _, _ => none
  | _ + 1, _, [] => none
  | fuel + 1, done, c :: rest =>
    if c = '"' then some (String.ofList done.reverse, rest)
    else if c = '\\' then
      match rest with
      | 'u' :: more =>
        match hexUnit? more with
        | some (unit, after) =>
          let (c, after) := escapedChar unit after
          string? fuel (c :: done) after
        | none => none
      | e :: more =>
        match simpleEscape? e with
        | some c => string? fuel (c :: done) more
        | none => none
      | [] => none
    else if c.toNat < 0x20 then none
    else string? fuel (c :: done) rest

/-- The exponent after its mark, if one is there with a digit. -/
def exponent? : List Char → Option (Int × List Char)
  | mark :: rest =>
    if mark = 'e' ∨ mark = 'E' then
      let (negative, rest) := Text.splitSign rest
      let ds := rest.takeWhile isDigit
      if ds.isEmpty then none
      else some (if negative then -(digits ds : Int) else digits ds, rest.dropWhile isDigit)
    else none
  | [] => none

/-- The digits in front of a point. A zero stands alone. -/
def wholeDigits : List Char → List Char
  | '0' :: _ => ['0']
  | cs => cs.takeWhile isDigit

/-- The digits behind a point, if one is there with a digit. -/
def placeDigits : List Char → List Char × List Char
  | '.' :: more =>
    let ds := more.takeWhile isDigit
    if ds.isEmpty then ([], '.' :: more) else (ds, more.dropWhile isDigit)
  | rest => ([], rest)

/-- A number without its sign: a whole number, or a decimal as soon as a point or an exponent
follows. -/
def magnitude? (negative : Bool) (cs : List Char) : Option (Json × List Char) :=
  let whole := wholeDigits cs
  if whole.isEmpty then none
  else
    let (places, rest) := placeDigits (cs.drop whole.length)
    let signed (x : Float) := if negative then -x else x
    match exponent? rest with
    | some (e, rest) =>
      some (real (signed (Numeric.ofDecimal (digits (whole ++ places)) (e - places.length))), rest)
    | none =>
      if places.isEmpty then
        some (int (if negative then -(digits whole : Int) else digits whole), rest)
      else
        some (real (signed (Numeric.ofDecimal (digits (whole ++ places)) (-(places.length : Int)))),
          rest)

def literal? : List Char → Option (Json × List Char)
  | 'n' :: 'u' :: 'l' :: 'l' :: rest => some (null, rest)
  | 't' :: 'r' :: 'u' :: 'e' :: rest => some (bool true, rest)
  | 'f' :: 'a' :: 'l' :: 's' :: 'e' :: rest => some (bool false, rest)
  | 'N' :: 'a' :: 'N' :: rest => some (real (0 / 0), rest)
  | 'I' :: 'n' :: 'f' :: 'i' :: 'n' :: 'i' :: 't' :: 'y' :: rest =>
    some (real Numeric.infinity, rest)
  | '-' :: 'I' :: 'n' :: 'f' :: 'i' :: 'n' :: 'i' :: 't' :: 'y' :: rest =>
    some (real (-Numeric.infinity), rest)
  | '-' :: rest => magnitude? true rest
  | cs => magnitude? false cs

mutual

/-- One value, with white space allowed only inside it. -/
def value? : Nat → List Char → Option (Json × List Char)
  | 0, _ => none
  | fuel + 1, cs =>
    match cs with
    | '"' :: rest => (string? (rest.length + 1) [] rest).map fun (s, rest) => (text s, rest)
    | '[' :: rest =>
      match skipSpace rest with
      | ']' :: rest => some (list [], rest)
      | rest => elements? fuel [] rest
    | '\x7b' :: rest =>
      match skipSpace rest with
      | '\x7d' :: rest => some (record [], rest)
      | rest => fields? fuel [] rest
    | cs => literal? cs

/-- The elements of a list from the first or next one on; `done` holds the earlier ones,
backwards. -/
def elements? : Nat → List Json → List Char → Option (Json × List Char)
  | 0, _, _ => none
  | fuel + 1, done, cs =>
    match value? fuel cs with
    | none => none
    | some (x, rest) =>
      match skipSpace rest with
      | ',' :: rest => elements? fuel (x :: done) (skipSpace rest)
      | ']' :: rest => some (list (x :: done).reverse, rest)
      | _ => none

def fields? : Nat → List (String × Json) → List Char → Option (Json × List Char)
  | 0, _, _ => none
  | fuel + 1, done, cs =>
    match cs with
    | '"' :: rest =>
      match string? (rest.length + 1) [] rest with
      | none => none
      | some (key, rest) =>
        match skipSpace rest with
        | ':' :: rest =>
          match value? fuel (skipSpace rest) with
          | none => none
          | some (x, rest) =>
            match skipSpace rest with
            | ',' :: rest => fields? fuel ((key, x) :: done) (skipSpace rest)
            | '\x7d' :: rest =>
              some (record (OrderedMap.ofList ((key, x) :: done).reverse).toList, rest)
            | _ => none
        | _ => none
    | _ => none

end

/-- The value a text holds, with nothing but white space around it. -/
def read? (s : String) : Option Json :=
  let cs := s.toList
  match value? (cs.length + 1) (skipSpace cs) with
  | some (x, rest) => if (skipSpace rest).isEmpty then some x else none
  | none => none

end ProbeForge.Json
