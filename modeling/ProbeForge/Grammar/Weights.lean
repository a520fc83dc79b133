import ProbeForge.Grammar.Basic
import ProbeForge.Json.Access

/-!
# Weight vectors

A vector replaces all weights at once or not at all. A gene, the weights of one nonterminal, is
written weight by weight: if one of them is no number, the ones before it stay written and the
group's total is not brought up to date.
-/

namespace ProbeForge.Grammar

def setWeightAt (table : Array RuleEntry) (i : Nat) (weight : Int) : Array RuleEntry :=
  table.modify i ({ · with weight })

/-- Every group's total as the sum of its rules' weights. -/
def syncTotals (g : Grammar) : Grammar :=
  { g with groups := g.groups.map fun group => { group with total := g.weightSum group.rules } }

def syncTotal (g : Grammar) (symbol : Symbol) : Grammar :=
  { g with groups := g.groups.map fun group =>
      if group.symbol = symbol then { group with total := g.weightSum group.rules } else group }

/-- The numbers of a vector; the first that is none, or is below one where that is refused, decides
the fault. -/
def readWeights (requirePositive : Bool) : Nat → List Json → Except Fault (List Int)
  | _, [] => .ok []
  | i, value :: rest => do
    let weight ← value.toInteger
    if requirePositive && weight < 1 then refuse (.weightNotPositive i weight)
    else return weight :: (← readWeights requirePositive (i + 1) rest)

def replaceWeights (g : Grammar) (weights : List Int) : Grammar :=
  syncTotals { g with
    table := (g.table.toList.zipWith (fun entry weight => { entry with weight }) weights).toArray }

def importWeights (g : Grammar) (values : List Json) (requirePositive : Bool) :
    Except Fault Grammar :=
  if values.length ≠ g.ruleCount then refuse (.weightCount values.length g.ruleCount)
  else (readWeights requirePositive 0 values).map g.replaceWeights

/-- `importWeights` for a value that holds the weights. -/
def importValue (g : Grammar) (values : Json) (requirePositive : Bool) : Except Fault Grammar := do
  g.importWeights (← values.elements) requirePositive

def setWeights (g : Grammar) (weights : List Int) (requirePositive : Bool) :
    Except Fault Grammar :=
  g.importWeights (weights.map .int) requirePositive

/-- A place in the table; a negative one counts from the end. -/
def place? (g : Grammar) (i : Int) : Option Nat :=
  let i := if i < 0 then i + g.ruleCount else i
  if 0 ≤ i ∧ i < g.ruleCount then some i.toNat else none

def putWeight (g : Grammar) (i : Nat) (weight : Int) : Grammar :=
  match g.table[i]? with
  | some entry => syncTotal { g with table := setWeightAt g.table i weight } entry.rule.left
  | none => g

def setRuleWeight (g : Grammar) (i : Int) (weight : Json) : Except Fault Grammar :=
  match g.place? i with
  | some i => weight.toInteger.map (g.putWeight i)
  | none => .error .outOfRange

/-! ### Genes -/

structure Gene where
  symbol : Symbol
  weights : List Int
deriving DecidableEq, Repr

def project (g : Grammar) (symbol : Symbol) : Except Fault Gene :=
  (g.group symbol).map fun group => ⟨symbol, group.rules.map g.weightAt⟩

/-- Writes the weights one after another up to the first that is no number. -/
def writeGene (table : Array RuleEntry) : List Nat → List Json → Array RuleEntry × Option Fault
  | i :: rules, value :: values =>
    match value.toInteger with
    | .ok weight => writeGene (setWeightAt table i weight) rules values
    | .error fault => (table, some fault)
  | _, _ => (table, none)

/-- The grammar afterwards, with the fault that cut the update short. -/
def updateGeneWith (g : Grammar) (symbol : Symbol) (values : List Json) :
    Option Fault × Grammar :=
  match g.group? symbol with
  | none => (some .absent, g)
  | some group =>
    if values.length ≠ group.rules.length then
      (some (.configuration (.geneCount symbol.name values.length group.rules.length)), g)
    else
      match writeGene g.table group.rules values with
      | (table, none) => (none, syncTotal { g with table } symbol)
      -- the total waits for the next change of the group
      | (table, some fault) => (some fault, { g with table })

def updateGene (g : Grammar) (gene : Gene) : Option Fault × Grammar :=
  g.updateGeneWith gene.symbol (gene.weights.map .int)

/-- `updateGeneWith` for a value that holds the weights. An unknown symbol is the first fault. -/
def updateGeneValue (g : Grammar) (symbol : Symbol) (values : Json) : Option Fault × Grammar :=
  match values.elements with
  | .ok values => g.updateGeneWith symbol values
  | .error fault => (some (if g.isNonterminal symbol then fault else .absent), g)

variable {ρ : Type} [RandomSource ρ]

def randomGene (g : Grammar) (source : ρ) : Except Fault Gene × ρ :=
  let (symbol, source) := RandomSource.choose? g.nonterminals source
  (symbol.bind g.project, source)

end ProbeForge.Grammar
