import ProbeForge.Consistency.Matrices
import ProbeForge.Consistency.Normalization
import ProbeForge.Grammar.Tuning

/-!
# Repair

Lowers weights of a normalised grammar until its radius is below a bound. Each attempt draws an
expected production that is not zero, of a nonterminal with more than one rule, and shrinks the rule
that contributes most to it. An attempt that raises the radius is taken back and makes the next
shrink stronger; an improvement relaxes it again. How the radius of a grid is found is a parameter.
-/

namespace ProbeForge

/-- How radii are found: of any grid, and of a grid that is known to have a cycle. -/
structure Gauge (α : Type) (n : Nat) where
  overall : Grid α n n → α
  cyclic : Grid α n n → α

@[specialize] def Gauge.standard {α : Type} [Scalar α] {n : Nat} : Gauge α n :=
  ⟨Grid.spectralRadius .standard, Grid.iteratedRadius .standard⟩

structure RepairReport (α : Type) where
  radius : α
  withinBound : Bool
  attempts : Int
  /-- Whether the attempts used up their budget. -/
  exhausted : Bool
  weights : List Int

/-- What a repair is asked to do. What is not a number is refused when it is needed. -/
structure RepairPlan (α : Type) where
  target : Except Fault (Quantity α)
  bound : Except Fault α
  budget : Except Fault Int
  /-- Whether weights may be lowered; otherwise the radius is only reported. -/
  adjust : Bool

/-- What the radius is measured against, and what the largest weights are then to be. -/
structure RepairGoal (α : Type) where
  target : Quantity α
  bound : α

namespace Repair

open Tuning

variable {α : Type} [Scalar α] {ρ : Type} [RandomSource ρ] {n r : Nat}

/-- The strongest and the weakest shrink. -/
def strongest : α := Scalar.ratio 1 10

def weakest : α := Scalar.ratio 9 10

@[specialize] def strengthen (shrink : α) : α :=
  Scalar.larger strongest (shrink * Scalar.ratio 99 100)

@[specialize] def relax (shrink : α) : α :=
  Scalar.smaller weakest ((shrink + weakest) / Scalar.ratio 2 1)

/-- The expected productions that repair may lower. -/
@[specialize] def adjustable (g : Grammar) (a : Grid α n n) : List (Fin n × Fin n) :=
  (List.finRange n).flatMap fun i =>
    let single := (g.groups[i.val]?.map (·.rules.length)).getD 1 = 1
    if single then []
    else ((List.finRange n).filter fun j => !Scalar.isZero (a.entry i j)).map (i, ·)

/-- The rule of nonterminal `i` that contributes most to `expected i j`; of two equal ones the
later. -/
@[specialize] def worst? (g : Grammar) (m : ProductionMatrices α n r) (i j : Fin n) :
    Option (Fin r) :=
  let rules := (g.groups[i.val]?.map (·.rules)).getD []
  let share (k : Fin r) : α := m.choice.entry i k * m.yield.entry k j
  let contributing := (List.finRange r).filter fun k =>
    rules.contains k.val && !Scalar.isZero (share k)
  contributing.foldl
    (fun best k =>
      match best with
      | some b => if share k < share b then some b else some k
      | none => some k)
    none

/-- The matrices with the row of a nonterminal computed afresh from its weights. -/
@[specialize] def refresh (g : Grammar) (m : ProductionMatrices α n r) (i : Fin n) :
    Except Fault (ProductionMatrices α n r) := do
  match g.groups[i.val]? with
  | none => return m
  | some group =>
    let choice ← g.choiceRow r group
    return { m with
      choice := m.choice.setRow i choice
      expected := m.expected.setRow i (Grid.combine choice m.yield) }

def report (radius : α) (withinBound : Bool) (attempts : Int) (exhausted : Bool) :
    Attempt (Tuning ρ) (RepairReport α) := fun s =>
  .ok ⟨radius, withinBound, attempts, exhausted, s.grammar.weights⟩ s

@[specialize] def radiusOf (gauge : Gauge α n) (r : Nat) : Attempt (Tuning ρ) α := fun s =>
  match s.grammar.matricesOf n r with
  | .ok m => .ok (gauge.overall m.expected) s
  | .error fault => .error fault s

@[specialize] def shrunk (weight : Int) (shrink : α) : Except Fault Int := do
  return max (← Scalar.ceil ((← Scalar.ofInt weight) * shrink)) 1

/-- Ends a repair that met the bound: the weights are normalised again if that keeps the bound. -/
@[specialize] def finish (gauge : Gauge α n) (r : Nat) (goal : RepairGoal α) (radius : α)
    (attempt : Int) : Attempt (Tuning ρ) (RepairReport α) := do
  let snapshot := (← current).weights
  change (·.normalize goal.target)
  let normal ← radiusOf gauge r
  if normal < goal.bound then report normal true attempt false
  else
    -- normal weights were over the bound again
    change (·.setWeights snapshot true)
    report radius true attempt false

/-- Up to `left` further attempts. -/
@[specialize] def attempts (gauge : Gauge α n) (goal : RepairGoal α) (budget : Int)
    (first : Fin n × Fin n) (rest : List (Fin n × Fin n)) :
    Nat → Int → ProductionMatrices α n r → α → α → Attempt (Tuning ρ) (RepairReport α)
  | 0, _, _, old, _ => report old false budget true
  | left + 1, done, m, old, shrink => do
    let (i, j) ← draw (RandomSource.choose first rest)
    match worst? (← current) m i j with
    | none => throw .unacceptable
    | some rule =>
      let weight := (← current).weightAt rule
      let lower ← shrunk weight shrink
      change (·.setRuleWeight rule (.int lower))
      let lowered ← refresh (← current) m i
      -- the pattern of entries stays the same, so there is still a cycle
      let radius := gauge.cyclic lowered.expected
      if radius < goal.bound then finish gauge r goal radius (done + 1)
      else if old < radius then
        change (·.setRuleWeight rule (.int weight))
        attempts gauge goal budget first rest left (done + 1) m old (strengthen shrink)
      else attempts gauge goal budget first rest left (done + 1) lowered radius (relax shrink)

/-- Normalises the weights and repairs them if the radius is not below the bound. -/
@[specialize] def run (gauge : Gauge α n) (r : Nat) (plan : RepairPlan α) :
    Attempt (Tuning ρ) (RepairReport α) := do
  let target ← plan.target
  change (·.normalize target)
  let radius ← radiusOf gauge r
  let bound ← plan.bound
  if radius < bound then report radius true 0 false
  else if !plan.adjust then report radius false 0 false
  else
    let m ← (← current).matricesOf n r
    match adjustable (← current) m.expected with
    | [] => report radius false 0 false
    | first :: rest => do
      let budget ← plan.budget
      attempts gauge ⟨target, bound⟩ budget first rest budget.toNat 0 m radius weakest

end Repair

namespace Grammar

variable {ρ : Type} [RandomSource ρ]

/-- Imports weights unless they are null, where zero and negative ones are allowed, and repairs them.
What happened to the grammar and the source before a fault stays. -/
@[specialize] def repairBy {α : Type} [Scalar α] (gauge : (n : Nat) → Gauge α n) (g : Grammar)
    (weights : Json) (plan : RepairPlan α) (source : ρ) :
    Except Fault (RepairReport α) × Tuning ρ :=
  match if weights.isNull then .ok g else g.importValue weights false with
  | .error fault => (.error fault, ⟨g, source⟩)
  | .ok g =>
    match Repair.run (gauge g.nonterminalCount) g.ruleCount plan ⟨g, source⟩ with
    | .ok report s => (.ok report, s)
    | .error fault s => (.error fault, s)

def repair (g : Grammar) (weights : Json) (plan : RepairPlan Float) (source : ρ) :
    Except Fault (RepairReport Float) × Tuning ρ :=
  g.repairBy (fun _ => .standard) weights plan source

end Grammar

end ProbeForge
