import ProbeForge.Grammar.Weights

/-!
# Normal weights

Normalisation scales the weights of each nonterminal so that the largest is a given target. No
weight falls below a hundredth of the target or below one, and a nonterminal without a positive
weight gets the target for all its rules.
-/

namespace ProbeForge.Grammar

variable {α : Type} [Scalar α]

/-- The least weight that a scaled rule keeps. -/
@[specialize] def leastWeight (top : α) : Except Fault Int := do
  return max (← Scalar.ceil (Scalar.ratio 1 100 * top)) 1

@[specialize] def scaleWeight (ratio : α) (least weight : Int) : Except Fault Int := do
  return max (← Scalar.round ((← Scalar.ofInt weight) * ratio)) least

/-- The new weights of a group, in the order of its rules. -/
@[specialize] def scaleGroup (top : α) (least : Int) (weights : List Int) :
    Except Fault (List Int) := do
  match weights with
  -- a single rule is certain whatever its weight
  | [_] => return [← Scalar.round top]
  | weights =>
    let biggest := weights.max?.getD 0
    if biggest ≤ 0 then
      let top ← Scalar.round top
      return weights.map fun _ => top
    else
      let ratio := top / (← Scalar.ofInt biggest)
      weights.mapM (scaleWeight ratio least)

/-- Each rule with its new weight. -/
@[specialize] def scaledWeights (g : Grammar) (top : α) : Except Fault (List (Nat × Int)) := do
  let least ← leastWeight top
  let groups ← g.groups.toList.mapM fun group => do
    return group.rules.zip (← scaleGroup top least (group.rules.map g.weightAt))
  return groups.flatten

@[specialize] def normalWeights (g : Grammar) (target : Quantity α) : Except Fault (List Int) := do
  let scaled ← g.scaledWeights (← target.toScalar)
  return g.weights.mapIdx fun i weight => (scaled.lookup i).getD weight

/-- A target near zero may give weights that are refused. -/
@[specialize] def normalize (g : Grammar) (target : Quantity α) : Except Fault Grammar := do
  g.setWeights (← g.normalWeights target) true

end ProbeForge.Grammar
