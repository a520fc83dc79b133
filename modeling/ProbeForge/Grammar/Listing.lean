import ProbeForge.Grammar.Basic

/-!
# Grammar listings

A listing for people, with weights and sorted symbols, and one in Backus-Naur form for other tools.
-/

namespace ProbeForge.Grammar

/-- A number at the right end of a column. -/
def column (width : Nat) (n : Int) : String := Numeric.padLeft width ' ' (toString n)

def numbered (items : List String) : List String :=
  items.mapIdx fun i item => s!"  {column 4 (i + 1)}. {item}"

/-- As wide as the longest weight. -/
def weightWidth (g : Grammar) : Nat :=
  (g.weights.map fun w => (toString w).length).max?.getD 1

def describeGroup (g : Grammar) (width : Nat) (group : RuleGroup) : List String :=
  s!"  Rules starting with {group.symbol.name}; weight = {group.total}" ::
    group.rules.filterMap fun i =>
      g.table[i]?.map fun entry =>
        s!"    {column width entry.weight}. {entry.rule.text}"

def listing (g : Grammar) : String :=
  let sorted := Symbol.sort g.nonterminals
  "\n".intercalate
    ([s!"Grammar '{g.name.plain}'", "", "Nonterminals:"] ++ numbered (sorted.map (·.name)) ++
      ["", "Terminals:"] ++ numbered (g.terminals.map (·.name)) ++
      ["", "Production rules:"] ++
      (sorted.filterMap g.group?).flatMap (g.describeGroup g.weightWidth))

def backusNaur (g : Grammar) : String :=
  "\n".intercalate (g.groups.toList.map fun group =>
    let alternatives := group.rules.filterMap fun i =>
      g.table[i]?.map fun entry => " ".intercalate (entry.rule.right.map (·.name))
    s!"{group.symbol.name} ::= " ++ "\n    | ".intercalate alternatives ++ " ;")

def summary (g : Grammar) : String :=
  s!"WeightedGrammar(name={g.name.shown}, rules={g.ruleCount}, " ++
    s!"nonterminals={g.nonterminalCount})"

end ProbeForge.Grammar
