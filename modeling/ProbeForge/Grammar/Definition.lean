import ProbeForge.Behaviour
import ProbeForge.Grammar.Basic
import ProbeForge.Text.Blank
import ProbeForge.Text.UpperCase

/-!
# Grammar definitions

A definition declares names and rules in any order and is checked as a whole when it is built. A
built grammar is closed: each symbol on a right side has a rule or was declared a terminal, and each
behaviour that a rule names exists.
-/

namespace ProbeForge

/-- Names for initial weights. The low class is one more than the root of the normal one, and the
medium class is the low one times the square of the normal one's natural logarithm. -/
inductive WeightClass where
  | normal
  | low
  | medium
  | rare
deriving DecidableEq, Repr

namespace WeightClass

def all : List WeightClass := [normal, low, medium, rare]

def code : WeightClass → String
  | normal => "N"
  | low => "L"
  | medium => "M"
  | rare => "O"

def weight : WeightClass → Int
  | normal => 1000000
  | low => 1001
  | medium => 191059
  | rare => 10

def find? (code : String) : Option WeightClass := all.find? (·.code == code)

/-- An integer is a weight itself; anything else must be the code of a class. -/
def weightOf : Json → Except Fault Int
  | .int n => .ok n
  | .bool b => .ok (if b then 1 else 0)
  | .text code =>
    match find? code with
    | some c => .ok c.weight
    | none => refuse (.weightClassUnknown (Text.quoted code))
  | .list _ | .record _ => .error .wrongType
  | value => refuse (.weightClassUnknown value.shown)

end WeightClass

/-- A rule as it was declared. -/
structure RuleSpec where
  weight : Json
  left : Json
  right : List Json
  generator : Json
  representer : Json

def RuleSpec.named (weight : WeightClass) (left right : String)
    (generator representer : Option String) : RuleSpec :=
  let orNull (id : Option String) : Json := id.elim .null .text
  { weight := weight.code, left, right := (Text.words right).map .text,
    generator := orNull generator, representer := orNull representer }

/-- Names are meant to be texts; what was given instead is refused when the definition is built. -/
structure Definition where
  name : Json
  description : Json
  nonterminals : List Json
  /-- Each terminal with its text. -/
  terminals : OrderedMap Key (Json × Json)
  rules : List RuleSpec
  stubs : List Json
  /-- Null for none. -/
  start : Json

namespace Definition

def empty (name description : Json) : Definition :=
  { name, description, nonterminals := [], terminals := ∅, rules := [], stubs := [],
    start := .null }

/-- A definition whose terminals stand for themselves. -/
def named (name description : String) (nonterminals terminals : List String) : Definition :=
  { empty name description with
    nonterminals := nonterminals.map .text
    terminals := ⟨terminals.map fun name => (.text name, name, name)⟩ }

/-! ### Declarations -/

def declareNonterminal (d : Definition) (name : Json) : Definition :=
  if d.nonterminals.any (·.same name) then d
  else { d with nonterminals := d.nonterminals ++ [name] }

def declareNonterminals (d : Definition) (names : List Json) : Definition :=
  names.foldl declareNonterminal d

/-- A terminal of a name that was declared before gets the new text. -/
def declareTerminal (d : Definition) (name text : Json) : Except Fault Definition := do
  let key ← name.toKey
  let name := (d.terminals.find? key).elim name (·.1)
  return { d with terminals := d.terminals.insert key (name, text) }

def declareTerminals (d : Definition) (names : List Json) : Except Fault Definition :=
  names.foldlM (fun d name => d.declareTerminal name name) d

/-- Reserved words are written in upper case. -/
def declareKeywords (d : Definition) (words : List Json) : Except Fault Definition :=
  words.foldlM
    (fun d word => do
      let word := Text.upperCase (← require .noAttribute word.text?)
      d.declareTerminal word word)
    d

def addRule (d : Definition) (spec : RuleSpec) : Definition := { d with rules := d.rules ++ [spec] }

/-- Nonterminals that exist but fail a statement when it reaches them. -/
def declareStubs (d : Definition) (names : List Json) : Definition :=
  names.foldl (fun d name => { d.declareNonterminal name with stubs := d.stubs ++ [name] }) d

def startAt (d : Definition) (name : Json) : Definition := { d with start := name }

/-! ### Building -/

/-- A grammar under construction with the rules it has so far. -/
structure Draft where
  grammar : Grammar
  rules : RuleCatalog

def registerAll (symbols : SymbolCatalog) (names : List Json) : Except Fault SymbolCatalog :=
  names.foldlM (fun symbols name => (symbols.registerValue name).map (·.2)) symbols

/-- The symbol that a declared name stands for. -/
def symbolOf? (symbols : SymbolCatalog) (name : Json) : Except Fault (Option Symbol) := do
  name.requireKey
  return name.text?.bind symbols.find?

def resolveRight (d : Definition) (symbols : SymbolCatalog) (left : Json) :
    List Json → Except Fault (List Symbol)
  | [] => .ok []
  | name :: rest => do
    match ← symbolOf? symbols name with
    | some symbol => return symbol :: (← resolveRight d symbols left rest)
    | none => refuse (.symbolUndeclared d.name.plain name.plain left.plain)

def isTerminal (d : Definition) (symbol : Symbol) : Bool := d.terminals.contains (.text symbol.name)

/-- Unknown behaviours and duplicate rules are found before the weight is looked at. -/
def addTo (d : Definition) (draft : Draft) (spec : RuleSpec) : Except Fault Draft := do
  let symbols := draft.grammar.symbols
  match (← symbolOf? symbols spec.left).filter (!d.isTerminal ·) with
  | some left =>
    let right ← d.resolveRight symbols spec.left spec.right
    let _ ← Generator.resolve spec.generator
    let _ ← Representer.resolve spec.representer
    let ((_, rule), rules) ← draft.rules.register ⟨left, right⟩
    let weight ← WeightClass.weightOf spec.weight
    let grammar ← draft.grammar.addRule rule weight spec.generator spec.representer
    return { grammar, rules }
  | none => refuse (.leftUndeclared d.name.plain spec.left.plain)

/-- A stub has one rule, to a terminal named after it whose rendering fails. -/
def addStub (d : Definition) (draft : Draft) (name : Json) : Except Fault Draft := do
  let placeholder := s!"<{name.plain}>"
  let symbols := draft.grammar.symbols
  let symbols := if symbols.contains placeholder then symbols
    else ⟨symbols.symbols ++ [⟨placeholder⟩]⟩
  let grammar := { draft.grammar with symbols }.declare [⟨placeholder⟩]
  d.addTo { draft with grammar }
    { weight := WeightClass.normal.code, left := name, right := [placeholder],
      generator := .null, representer := Representer.unimplemented.id }

/-- The names that are declared both ways. -/
def clashes (d : Definition) : Except Fault (List Json) := do
  let keys ← d.nonterminals.mapM (·.toKey)
  let clashing := (d.nonterminals.zip keys).filter fun (_, key) => d.terminals.contains key
  return (clashing.map (·.1)).mergeSort fun a b => a.plain ≤ b.plain

/-- The grammar with the declared names and without rules. -/
def outline (d : Definition) : Except Fault Grammar := do
  let terminals := d.terminals.values
  let symbols ← registerAll .empty (d.nonterminals ++ terminals.map (·.1))
  -- all names are known to be texts now
  let texts := terminals.map fun (name, text) => ((⟨name.plain⟩ : Symbol), text)
  return { Grammar.empty d.name with symbols, declared := texts.map (·.1), texts := ⟨texts⟩ }

def build (d : Definition) : Except Fault Grammar := do
  let clash ← d.clashes
  if !clash.isEmpty then
    refuse (.nameClash d.name.plain (Json.list clash).shown)
  let draft ← d.rules.foldlM d.addTo { grammar := ← d.outline, rules := .empty }
  let draft ← d.stubs.foldlM d.addStub draft
  let grammar := draft.grammar
  -- by now every stub has its rule
  let missing := (d.nonterminals.map (·.plain)).filter fun name => !grammar.isNonterminal ⟨name⟩
  if !missing.isEmpty then
    refuse (.withoutRules d.name.plain (Text.quotedList missing))
  if d.start.isNull then return grammar
  else
    match (← symbolOf? grammar.symbols d.start).filter grammar.isNonterminal with
    | some start => return { grammar with start := some start }
    | none => refuse (.startNotNonterminal d.name.plain d.start.plain)

def summary (d : Definition) : String :=
  s!"GrammarDefinition(name={d.name.shown}, rules={d.rules.length}, " ++
    s!"nonterminals={d.nonterminals.length})"

end Definition

end ProbeForge
