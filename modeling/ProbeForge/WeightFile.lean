import ProbeForge.Files
import ProbeForge.Grammar.Basic
import ProbeForge.Json.Access
import ProbeForge.Json.Reader

/-!
# Weight files

A weight file is a JSON array of integers, one for each rule in table order. The writer notes each
rule behind its weight so that the file can be edited by hand; the reader takes these notes and a
comma after the last entry away.
-/

namespace ProbeForge.WeightFile

/-! ### Writing -/

def line (weight : Int) (isLast : Bool) (rule : Rule) : String :=
  toString weight ++ (if isLast then "" else ",") ++ "  # " ++ rule.text

def entryLines : List Int → List RuleEntry → List String
  | weight :: weights, entry :: entries =>
    line weight weights.isEmpty entry.rule :: entryLines weights entries
  | _, _ => []

def format (g : Grammar) (weights : List Int) : Except Fault String :=
  if weights.length ≠ g.ruleCount then refuse (.weightCount weights.length g.ruleCount)
  else
    .ok ("\n".intercalate ("[" :: entryLines weights g.table.toList ++ ["]"]) ++ "\n")

/-- Null stands for the grammar's own weights. The number of values is checked before the values. -/
def formatValues (g : Grammar) (values : Json) : Except Fault String := do
  if values.isNull then format g g.weights
  else
    let values ← values.elements
    if values.length ≠ g.ruleCount then refuse (.weightCount values.length g.ruleCount)
    else format g (← values.mapM (·.toInteger))

/-- Writes a file and gives its place. If the weights are refused, only its folder is made. -/
def write (g : Grammar) (path : String) (values : Json) : Attempt Files Place := do
  let place := Place.ofPath path
  Files.save place (formatValues g values)
  return place

/-! ### Reading -/

/-- A note runs from its mark to the end of the line. -/
def dropNotes : Bool → List Char → List Char
  | _, [] => []
  | inNote, c :: rest =>
    if c = '\n' then c :: dropNotes false rest
    else if inNote || c = '#' then dropNotes true rest
    else c :: dropNotes false rest

/-- Takes away each comma before a closing bracket, with the space between them. -/
def dropTrailingCommas : List Char → List Char
  | [] => []
  | c :: rest =>
    if c = ',' ∧ (rest.dropWhile Text.isBlank).head? = some ']' then
      dropTrailingCommas (rest.dropWhile Text.isBlank)
    else c :: dropTrailingCommas rest
termination_by cs => cs.length
decreasing_by
  · have := (List.dropWhile_suffix Text.isBlank (l := rest)).length_le
    simp only [List.length_cons]
    omega
  · simp

def integers? : List Json → Option (List Int)
  | [] => some []
  | .int n :: rest => (integers? rest).map (n :: ·)
  | _ :: _ => none

def parse (text : String) : Except Fault (List Int) :=
  let cleaned := dropTrailingCommas (dropNotes false text.toList)
  match Json.read? (String.ofList cleaned) with
  | none => refuse .weightsMalformed
  | some (.list values) =>
    match integers? values with
    | some weights => .ok weights
    | none => refuse .weightsNotIntegers
  | some _ => refuse .weightsNotIntegers

/-- The weights of a file, which must fit the grammar if one is given. -/
def read (files : Files) (path : String) (g : Option Grammar) : Except Fault (List Int) := do
  let place := Place.ofPath path
  if !files.contains place then refuse (.weightsMissing path)
  else
    let weights ← parse (← files.read place)
    match g with
    | some g =>
      if weights.length ≠ g.ruleCount then
        refuse (.weightsFileCount path weights.length g.name.plain g.ruleCount)
      else return weights
    | none => return weights

end ProbeForge.WeightFile
