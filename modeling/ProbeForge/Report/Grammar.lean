import ProbeForge.Consistency.Repair
import ProbeForge.Json.Form

/-!
# Grammars as JSON

What a reader is shown of a grammar: its rules in table order, its symbols, and how a repair of its
weights came out.
-/

namespace ProbeForge

open Json

def Symbol.names : List Symbol → Json := many fun s => s.name

def RuleEntry.toJson (e : RuleEntry) : Json :=
  .list [e.rule.left.name, Symbol.names e.rule.right, .int e.weight, e.generator, e.representer]

namespace Grammar

def totalsJson (g : Grammar) : Json := ints (g.groups.toList.map (·.total))

/-- The weights of the rules and the totals of the nonterminals. -/
def weightsJson (g : Grammar) : Json :=
  .record [("weights", ints g.weights), ("totals", g.totalsJson)]

def toJson (g : Grammar) : Json :=
  .record [("name", g.name), ("start", maybe (fun s => s.name) g.start),
    ("rules", many (·.toJson) g.table.toList), ("nonterminals", Symbol.names g.nonterminals),
    ("totals", g.totalsJson),
    ("terminals", many (fun s => .list [s.name, g.textOf s]) g.terminals),
    ("undefined", Symbol.names g.undefined), ("declared", Symbol.names (Symbol.sort g.declared)),
    ("symbols", Symbol.names g.symbols.symbols)]

def Gene.toJson (gene : Gene) : Json := .list [gene.symbol.name, ints gene.weights]

def RuleChoice.toJson (c : RuleChoice) : Json :=
  .list [c.name, .nat c.index, c.entry.rule.text, c.entry.generator, c.entry.representer]

end Grammar

/-- A budget that was used up is shown as it was given. -/
def RepairReport.toJson (r : RepairReport Float) (budget : Json) : Json :=
  .record [("radius", fixed r.radius), ("within", .bool r.withinBound),
    ("attempts", if r.exhausted then budget else .int r.attempts), ("weights", ints r.weights)]

def Grid.toJson {m n : Nat} (a : Grid Float m n) : Json := many (many fixed) a.toLists

end ProbeForge
