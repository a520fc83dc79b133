import ProbeForge.Fault
import ProbeForge.Numeric.Shortest
import ProbeForge.Text.Numeral
import ProbeForge.Text.Quoted

/-!
# JSON values

Data that arrive from outside keep the difference between `1` and `1.0`, and the order of the fields
of an object. `toInteger` reads a number where any value that stands for one is accepted.
-/

namespace ProbeForge

inductive Json where
  | null
  | bool (b : Bool)
  | int (n : Int)
  | real (x : Float)
  | text (s : String)
  | list (xs : List Json)
  | record (fields : List (String × Json))
deriving Inhabited

namespace Json

instance : Coe String Json := ⟨text⟩

/-- A value as messages show it. -/
def shown : Json → String
  | null => "None"
  | bool b => if b then "True" else "False"
  | int n => toString n
  | real x => Numeric.shortestText x
  | text s => Text.quoted s
  | list xs => "[" ++ ", ".intercalate (shownList xs) ++ "]"
  | record fields => "\x7b" ++ ", ".intercalate (shownFields fields) ++ "\x7d"
where
  shownList : List Json → List String
    | [] => []
    | x :: xs => x.shown :: shownList xs
  shownFields : List (String × Json) → List String
    | [] => []
    | (key, x) :: fields => (Text.quoted key ++ ": " ++ x.shown) :: shownFields fields

/-- Like `shown`, with a text as it is. -/
def plain : Json → String
  | text s => s
  | value => value.shown

/-- Whether a value counts as given where an empty one is ignored. -/
def isFilled : Json → Bool
  | null => false
  | bool b => b
  | int n => n ≠ 0
  | real x => !(x == 0)
  | text s => !s.isEmpty
  | list xs => !xs.isEmpty
  | record fields => !fields.isEmpty

/-- A decimal is cut toward zero, a text is read as a numeral. -/
def toInteger : Json → Except Fault Int
  | int n => .ok n
  | bool b => .ok (if b then 1 else 0)
  | real x =>
    match Numeric.Dyadic.ofFloat? x with
    | some d => .ok d.truncate
    | none => .error (if x.isNaN then .unacceptable else .tooLarge)
  | text s =>
    match Text.readInteger s with
    | some n => .ok n
    | none => .error .unacceptable
  | null | list _ | record _ => .error .wrongType

@[simp] theorem toInteger_int (n : Int) : (int n).toInteger = .ok n := rfl

def field? (fields : List (String × Json)) (key : String) : Option Json := fields.lookup key

end Json

end ProbeForge
