import ProbeForge.Grammar.Definition

/-!
# Declarations as data

A definition can be written as a list of declarations, each the name of a kind of declaration with
its arguments. A declaration with too few or too many arguments is refused.
-/

namespace ProbeForge.Definition

/-- The right side of a rule is a list of names or a text of words. -/
def rightSide : Json → Except Fault (List Json)
  | .text names => .ok ((Text.words names).map .text)
  | names => names.elements

def declareRule (d : Definition) (weight left right generator representer : Json) :
    Except Fault Definition := do
  return d.addRule { weight, left, right := ← rightSide right, generator, representer }

/-- A rule as a row of a table: both sides, the weight and the behaviours, which may be left out. -/
def declareRow (d : Definition) (row : Json) : Except Fault Definition := do
  match ← row.elements with
  | left :: right :: weight :: behaviours =>
    d.declareRule weight left right (behaviours.getD 0 .null) (behaviours.getD 1 .null)
  | _ => throw .unacceptable

def declare (d : Definition) (call : Json) : Except Fault Definition := do
  match ← call.elements with
  | .text "nonterminals" :: names => return d.declareNonterminals names
  | .text "terminals" :: names => d.declareTerminals names
  | .text "keywords" :: words => d.declareKeywords words
  | .text "stub" :: names => return d.declareStubs names
  | [.text "start", name] => return d.startAt name
  | [.text "terminal", name] => d.declareTerminal name name
  | [.text "terminal", name, text] => d.declareTerminal name (text.orElse name)
  | [.text "rule", weight, left] => d.declareRule weight left (.list []) .null .null
  | [.text "rule", weight, left, right] => d.declareRule weight left right .null .null
  | [.text "rule", weight, left, right, representer] =>
    d.declareRule weight left right .null representer
  | [.text "rule", weight, left, right, representer, generator] =>
    d.declareRule weight left right generator representer
  | [.text "rules", rows] => do (← rows.elements).foldlM declareRow d
  | .text name :: _ =>
    throw (if ["start", "terminal", "rule", "rules"].contains name then .wrongType else .noAttribute)
  | _ => throw .wrongType

/-- The definition that declarations give, up to the first that is refused. -/
def ofDeclarations (name description : Json) (calls : List Json) : Except Fault Definition :=
  calls.foldlM declare (empty name description)

end ProbeForge.Definition
