import ProbeForge.Json.Access
import ProbeForge.Random.Source
import ProbeForge.Rule

/-!
# Weighted grammars

A grammar is a table of weighted rules. The place of a rule in the table is its place in a weight
vector. The rules of one left side form a group, and the group's total is kept beside the table
because every draw needs it.
-/

namespace ProbeForge

structure RuleEntry where
  rule : Rule
  weight : Int
  /-- The names of its behaviours, or null. -/
  generator : Json
  representer : Json
deriving Inhabited

/-- The rules of one nonterminal, as places in the table. -/
structure RuleGroup where
  symbol : Symbol
  total : Int
  rules : List Nat
deriving DecidableEq, Repr, Inhabited

structure Grammar where
  name : Json
  start : Option Symbol
  table : Array RuleEntry
  /-- A nonterminal's index is the place of its group. -/
  groups : Array RuleGroup
  /-- Symbols that are meant to have no rule. -/
  declared : List Symbol
  texts : OrderedMap Symbol Json
  symbols : SymbolCatalog

namespace Grammar

def empty (name : Json) : Grammar :=
  { name, start := none, table := #[], groups := #[], declared := [], texts := ∅,
    symbols := .empty }

def ruleCount (g : Grammar) : Nat := g.table.size

def nonterminalCount (g : Grammar) : Nat := g.groups.size

def weightAt (g : Grammar) (i : Nat) : Int := (g.table[i]?.map (·.weight)).getD 0

def weights (g : Grammar) : List Int := g.table.toList.map (·.weight)

def weightSum (g : Grammar) (rules : List Nat) : Int := (rules.map g.weightAt).foldr (· + ·) 0

/-! ### Adding rules -/

/-- The groups with one more rule, in its own group or a new last one. -/
def joinGroup (groups : Array RuleGroup) (left : Symbol) (weight : Int) (index : Nat) :
    Array RuleGroup :=
  match groups.findIdx? (·.symbol == left) with
  -- rule places grow, so a group's list stays sorted
  | some i =>
    groups.modify i fun group =>
      { group with total := group.total + weight, rules := group.rules ++ [index] }
  | none => groups.push ⟨left, weight, [index]⟩

/-- A rule comes once and with a weight of at least one. -/
def addRule (g : Grammar) (rule : Rule) (weight : Int) (generator representer : Json) :
    Except Fault Grammar :=
  if weight < 1 then refuse (.weightBelowOne weight rule.text)
  else if g.table.any (·.rule == rule) then refuse (.ruleTwice rule.text)
  else
    .ok { g with
      table := g.table.push ⟨rule, weight, generator, representer⟩
      groups := joinGroup g.groups rule.left weight g.table.size }

/-- `addRule` for a rule and a weight that may be missing. -/
def addRuleValue (g : Grammar) (rule : Option Rule) (weight : Json)
    (generator representer : Json) : Except Fault Grammar :=
  match rule, weight with
  | none, _ => refuse .ruleMissing
  | some _, .null => refuse .weightMissing
  | some rule, weight => do g.addRule rule (← weight.toInteger) generator representer

/-! ### Structure -/

def index? (g : Grammar) (symbol : Symbol) : Option Nat :=
  g.groups.findIdx? (·.symbol == symbol)

def group? (g : Grammar) (symbol : Symbol) : Option RuleGroup :=
  g.groups.find? (·.symbol == symbol)

/-- The nonterminal of an index; a negative one counts from the end. -/
def symbolAt (g : Grammar) (i : Int) : Option Symbol :=
  let i := if i < 0 then i + g.nonterminalCount else i
  if i < 0 then none else g.groups[i.toNat]?.map (·.symbol)

def isNonterminal (g : Grammar) (symbol : Symbol) : Bool := (g.group? symbol).isSome

/-- The group of a symbol that is known to have one. -/
def group (g : Grammar) (symbol : Symbol) : Except Fault RuleGroup :=
  match g.group? symbol with
  | some group => .ok group
  | none => .error .absent

/-- In index order. -/
def nonterminals (g : Grammar) : List Symbol := g.groups.toList.map (·.symbol)

/-- The symbols without rules on right sides, each once, in symbol order. -/
def terminals (g : Grammar) : List Symbol :=
  let right := g.table.toList.flatMap (·.rule.right)
  Symbol.sort ((right.filter (!g.isNonterminal ·)).foldl
    (fun seen s => if seen.contains s then seen else seen ++ [s]) [])

def declare (g : Grammar) (symbols : List Symbol) : Grammar :=
  let join (all : List Symbol) (s : Symbol) := if all.contains s then all else all ++ [s]
  { g with declared := symbols.foldl join g.declared }

/-- The text of a terminal is its name unless another was given. -/
def textOf (g : Grammar) (symbol : Symbol) : Json := (g.texts.find? symbol).getD symbol.name

/-- Symbols that have no rule and were not meant to have none. -/
def undefined (g : Grammar) : List Symbol := g.terminals.filter (!g.declared.contains ·)

def symbol (g : Grammar) (name : String) : Except Fault Symbol :=
  match g.symbols.find? name with
  | some symbol => .ok symbol
  | none => refuse (.symbolUnknown name g.name.plain)

/-- Like `symbol`, where a value that is no text names no symbol. -/
def symbolOf (g : Grammar) : Json → Except Fault Symbol
  | .text name => g.symbol name
  | name => do
    name.requireKey
    refuse (.symbolUnknown name.plain g.name.plain)

/-! ### Selection -/

structure RuleChoice where
  index : Nat
  entry : RuleEntry

def RuleChoice.name (c : RuleChoice) : String := s!"Rule.{c.entry.rule.left.name}.{c.index}"

/-- The first of the rules at which the running total reaches `draw`. -/
def reach (g : Grammar) (draw : Int) : List Nat → Int → Option Nat
  | [], _ => none
  | i :: rest, running =>
    let running := running + g.weightAt i
    if draw ≤ running then some i else reach g draw rest running

/-- The rule that a draw between 1 and the group's total selects. -/
def pick (g : Grammar) (group : RuleGroup) (draw : Int) : Except Fault RuleChoice :=
  match g.reach draw group.rules 0 with
  | some i =>
    match g.table[i]? with
    | some entry => .ok ⟨i, entry⟩
    | none => refuse (.totalOutOfSync group.symbol.name)
  | none => refuse (.totalOutOfSync group.symbol.name)

variable {ρ : Type} [RandomSource ρ]

def randomRuleOf (g : Grammar) (group : RuleGroup) (source : ρ) : Except Fault RuleChoice × ρ :=
  match RandomSource.between 1 group.total source with
  | (.ok draw, source) => (g.pick group draw, source)
  | (.error fault, source) => (.error fault, source)

/-- A rule of a nonterminal, with probability proportional to its weight. -/
def randomRule (g : Grammar) (symbol : Symbol) (source : ρ) : Except Fault RuleChoice × ρ :=
  match g.group? symbol with
  | some group => g.randomRuleOf group source
  | none => (refuse (.notNonterminal symbol.name), source)

def probabilities (g : Grammar) (symbol : Symbol) : Except Fault (List Float) := do
  let group ← g.group symbol
  group.rules.mapM fun i => Numeric.quotient (g.weightAt i) group.total

end Grammar

end ProbeForge
