import ProbeForge.Json.Basic
import ProbeForge.Numeric.Scalar
import ProbeForge.OrderedMap

/-!
# Access to JSON values

Lookups are total: what is missing, or of another kind, reads as nothing. The readings `to…` refuse a
value of another kind; `toReal` and `toQuantity` accept any value that stands for a number.
-/

namespace ProbeForge

/-- What entries of a table can be found by. -/
inductive Key where
  | null
  | whole (n : Int)
  | fraction (x : Float)
  | text (s : String)
deriving DecidableEq

namespace Json

/-! ### Lookups -/

/-- The value of a field, or a default if there is none. -/
def getOr (j : Json) (key : String) (absent : Json) : Json :=
  match j with
  | record fields => (field? fields key).getD absent
  | _ => absent

/-- The value of a field; null if there is none. -/
def get (j : Json) (key : String) : Json := j.getOr key null

def fields : Json → List (String × Json)
  | record fields => fields
  | _ => []

def list? : Json → Option (List Json)
  | list xs => some xs
  | _ => none

def items (j : Json) : List Json := j.list?.getD []

def text? : Json → Option String
  | text s => some s
  | _ => none

def str (j : Json) : String := j.text?.getD ""

/-- A truth value counts as zero or one. -/
def int? : Json → Option Int
  | int n => some n
  | bool b => some (if b then 1 else 0)
  | _ => none

def isNull : Json → Bool
  | null => true
  | _ => false

/-- A value, or another one in place of null. -/
def orElse (j absent : Json) : Json := if j.isNull then absent else j

/-- A value, or another one in place of an empty one. -/
def orFilled (j absent : Json) : Json := if j.isFilled then j else absent

/-! ### Readings -/

def toText (j : Json) : Except Fault String := require .wrongType j.text?

def toIndex (j : Json) : Except Fault Int := require .wrongType j.int?

/-- The parts of a value: the items of a list, the characters of a text, the keys of a record. -/
def elements : Json → Except Fault (List Json)
  | list xs => .ok xs
  | text s => .ok (s.toList.map fun c => text c.toString)
  | record fields => .ok (fields.map fun (key, _) => text key)
  | _ => .error .wrongType

def toTexts (j : Json) : Except Fault (List String) := do (← j.elements).mapM toText

/-- A number with integers kept exact. -/
def toNumber (j : Json) : Except Fault (Quantity Float) :=
  match j with
  | real x => .ok (.real x)
  | j => .whole <$> j.toIndex

/-- A number to compare floats with. An integer beyond the largest float counts as infinite. -/
def toBound (j : Json) : Except Fault Float := do
  match ← j.toNumber with
  | .real x => return x
  | .whole n =>
    match Numeric.floatOfInt n with
    | .ok x => return x
    | .error _ => return if n < 0 then -Numeric.infinity else Numeric.infinity

/-- The float nearest to a number; a text is read as a numeral. -/
def toReal : Json → Except Fault Float
  | int n => Numeric.floatOfInt n
  | real x => .ok x
  | bool b => .ok (if b then 1 else 0)
  | text s => require .unacceptable (Text.readReal s)
  | _ => .error .wrongType

/-- Like `toReal`, with integers kept exact. -/
def toQuantity (j : Json) : Except Fault (Quantity Float) :=
  match j.int? with
  | some n => .ok (.whole n)
  | none => .real <$> j.toReal

/-- A count added to another value; two texts, and two lists, are joined. -/
def plus : Json → Json → Except Fault Json
  | text a, text b => .ok (text (a ++ b))
  | list xs, list ys => .ok (list (xs ++ ys))
  | a, b => do
    match ← (← a.toNumber).add (← b.toNumber) with
    | .whole n => return int n
    | .real x => return real x

/-! ### Keys -/

/-- Numbers of one value are one key. Lists and records are no keys. -/
def toKey : Json → Except Fault Key
  | null => .ok .null
  | text s => .ok (.text s)
  | real x =>
    let whole := (Numeric.Dyadic.ofFloat? x).map (·.truncate)
    .ok <| match whole with
    | some n => if (Numeric.floatOfInt n).toOption.any (· == x) then .whole n else .fraction x
    | none => .fraction x
  | j => .whole <$> j.toIndex

def requireKey (j : Json) : Except Fault Unit := do let _ ← j.toKey

/-- Whether two values are one: they are one key, or lists or records that show the same. -/
def same (a b : Json) : Bool :=
  match a.toKey, b.toKey with
  | .ok x, .ok y => x = y
  | .error _, .error _ => a.shown = b.shown
  | _, _ => false

/-- The entries of a list of pairs. -/
def entries (j : Json) : Except Fault (List (Json × Json)) := do
  (← j.elements).mapM fun pair => do
    match ← pair.elements with
    | [key, x] => return (key, x)
    | _ => .error .unacceptable

/-- The entries of a list of pairs, each key once: the later value counts, at the place of the
first. -/
def table (j : Json) : Except Fault (List (Json × Json)) := do
  let entries ← (← j.entries).foldlM
    (fun (m : OrderedMap Key (Json × Json)) (key, x) => do
      let k ← key.toKey
      return m.insert k ((m.find? k).elim key (·.1), x))
    ∅
  return entries.values

/-- A list of pairs as a map if its keys are texts. -/
def pairs (j : Json) : Except Fault (OrderedMap String Json) := do
  return .ofList (← (← j.entries).mapM fun (key, x) => do return (← key.toText, x))

end Json

end ProbeForge
