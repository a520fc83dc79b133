import ProbeForge.Consistency.Radius
import ProbeForge.Grammar.Basic

/-!
# Production matrices

`choice` holds the probability with which a nonterminal is expanded by a rule, `yield` how often a
nonterminal stands on the right side of a rule. Their product `expected` holds how many copies of a
nonterminal one expansion of another gives on average. Derivations end almost surely if its spectral
radius is below one.
-/

namespace ProbeForge

structure ProductionMatrices (α : Type) (nonterminals rules : Nat) where
  choice : Grid α nonterminals rules
  yield : Grid α rules nonterminals
  expected : Grid α nonterminals nonterminals

namespace Grammar

variable {α : Type} [Scalar α]

/-- The rules of a group, each with its probability. -/
@[specialize] def shares (g : Grammar) (group : RuleGroup) : Except Fault (List (Nat × α)) := do
  let total ← Scalar.ofInt group.total
  group.rules.mapM fun i => do
    return (i, ← Scalar.divide (← Scalar.ofInt (g.weightAt i)) total)

@[specialize] def choiceRow (g : Grammar) (rules : Nat) (group : RuleGroup) :
    Except Fault (Vector α rules) := do
  let shares ← g.shares group
  return .ofFn fun r => (shares.lookup r.val).getD 0

/-- How often nonterminal `j` stands on the right side of rule `r`. -/
def occurrences (g : Grammar) (r j : Nat) : Nat :=
  match g.table[r]?, g.groups[j]? with
  | some entry, some group => entry.rule.right.count group.symbol
  | _, _ => 0

@[specialize] def yieldMatrix (g : Grammar) (nonterminals rules : Nat) :
    Grid α rules nonterminals :=
  .ofFn fun r j => Scalar.ratio (g.occurrences r j) 1

@[specialize] def choiceMatrix (g : Grammar) (nonterminals rules : Nat) :
    Except Fault (Grid α nonterminals rules) := do
  let rows ← g.groups.toList.mapM (g.choiceRow rules)
  return ⟨.ofFn fun i => rows.getD i (.replicate rules 0)⟩

@[specialize] def matricesOf (g : Grammar) (nonterminals rules : Nat) :
    Except Fault (ProductionMatrices α nonterminals rules) := do
  let choice ← g.choiceMatrix nonterminals rules
  let yield := g.yieldMatrix nonterminals rules
  return { choice, yield, expected := choice.mul yield }

@[specialize] def matrices (α : Type) [Scalar α] (g : Grammar) :
    Except Fault (ProductionMatrices α g.nonterminalCount g.ruleCount) :=
  g.matricesOf g.nonterminalCount g.ruleCount

/-- The radius of the expected productions. -/
@[specialize] def spectralRadius (α : Type) [Scalar α] (g : Grammar) : Except Fault α := do
  return Grid.spectralRadius .standard (← g.matrices α).expected

/-- Whether the radius is below a bound. A bound that is no number is refused after the radius is
found. -/
@[specialize] def isConsistent (α : Type) [Scalar α] (g : Grammar) (bound : Except Fault α) :
    Except Fault Bool := do
  let radius ← g.spectralRadius α
  return radius < (← bound)

end Grammar

end ProbeForge
