import ProbeForge.Consistency.Repair
import ProbeForge.Evolution.Candidate
import ProbeForge.Settings

/-!
# Breeding

New generations come from scored candidates by copying, crossover and mutation. Every change of a
candidate's weights is tried until the weights are accepted; an attempt that is not accepted is
taken back before the next one, and a candidate for which none is accepted keeps its weights.
-/

namespace ProbeForge

structure Breeder (α : Type) where
  prototype : Grammar
  accepts : Grammar → Except Fault Bool
  /-- How many candidates a generation has, and how often a change is tried. -/
  population : Quantity α
  mutation : GeneMode
  crossover : GeneMode
  mutationRate : Float
  passThrough : α

/-- The state of breeding: the number that the next candidate gets and the source of draws. -/
structure Nursery (ρ : Type) where
  nextId : Nat
  source : ρ

/-- How a change of weights came out: the attempt that was accepted, if one was. -/
structure Outcome where
  accepted : Option Nat
  label : String
deriving DecidableEq, Repr

namespace Outcome

def changed (o : Outcome) : Bool := o.accepted.isSome

/-- Why nothing changed in a number of attempts. -/
def reason (o : Outcome) (retries : String) : Option String :=
  if o.changed then none else some s!"{o.label} found no consistent weights in {retries} attempts"

end Outcome

namespace Breeder

variable {α : Type}

/-- Weights are accepted if their radius is below the bound. -/
def ofSettings (prototype : Grammar) (s : Settings) : Except Fault (Breeder Float) := do
  return {
    prototype
    accepts := fun g => g.isConsistent Float s.maxRadius.toBound
    population := ← s.population.toNumber
    mutation := s.mutation
    crossover := s.crossover
    mutationRate := ← s.mutationRate.toBound
    passThrough := ← s.passThroughFraction.toBound }

variable [Scalar α] {ρ : Type} [RandomSource ρ]

/-! ### Operators on weights -/

open Tuning in
/-- Tries an operator up to `left` more times, each time on the initial weights. -/
def tryFrom (accepts : Grammar → Except Fault Bool) (operator : Attempt (Tuning ρ) Unit)
    (initial : List Int) : Nat → Nat → Attempt (Tuning ρ) (Option Nat)
  | 0, _ => return none
  | left + 1, done => do
    operator
    if ← accepts (← current) then return some (done + 1)
    else
      change (·.setWeights initial true)
      tryFrom accepts operator initial left (done + 1)

def retry (b : Breeder α) (label : String) (operator : Attempt (Tuning ρ) Unit) :
    Attempt (Tuning ρ) Outcome := do
  let initial := (← Tuning.current).weights
  let retries ← b.population.toWhole
  return ⟨← tryFrom b.accepts operator initial (max retries 1).toNat 0, label⟩

/-- A normal draw with the given mean and a tenth as deviation. -/
@[specialize] def noise (mean : α) (source : ρ) : α × ρ :=
  let (z, source) := RandomSource.normal source
  (mean + Scalar.ofFloat z * Scalar.ratio 1 10, source)

/-- A weight times noise around one; at least one. -/
@[specialize] def perturb (α : Type) [Scalar α] (weight : Int) (source : ρ) :
    Except Fault Int × ρ :=
  let (factor, source) := noise (1 : α) source
  let scaled : Except Fault Int := do
    Scalar.truncate ((← Scalar.ofInt weight) * factor)
  (scaled.map (max · 1), source)

@[specialize] def perturbAll (α : Type) [Scalar α] : List Int → ρ → Except Fault (List Int) × ρ
  | [], source => (.ok [], source)
  | weight :: rest, source =>
    match perturb α weight source with
    | (.error fault, source) => (.error fault, source)
    | (.ok weight, source) =>
      let (rest, source) := perturbAll α rest source
      (rest.map (weight :: ·), source)

/-- The weights with those at some places perturbed, in the order of the places. -/
@[specialize] def perturbAt (α : Type) [Scalar α] : List Nat → List Int → ρ →
    Except Fault (List Int) × ρ
  | [], weights, source => (.ok weights, source)
  | i :: rest, weights, source =>
    match perturb α (weights.getD i 0) source with
    | (.error fault, source) => (.error fault, source)
    | (.ok weight, source) => perturbAt α rest (weights.set i weight) source

/-- One rule in twenty, and at least one. -/
def ruleMutations (rules : Nat) : Nat := max 1 (rules / 20)

/-- One nonterminal in ten, rounded up. -/
def nonterminalMutations (nonterminals : Nat) : Nat := (nonterminals + 9) / 10

open Tuning in
@[specialize] def mutateRuleWeights (α : Type) [Scalar α] : Attempt (Tuning ρ) Unit := do
  let weights := (← current).weights
  let places ← drawOrFail
    (RandomSource.sample (List.range weights.length) (ruleMutations weights.length))
  let weights ← drawOrFail (perturbAt α places weights)
  change (·.setWeights weights true)

open Tuning in
@[specialize] def mutateGene (α : Type) [Scalar α] (symbol : Symbol) :
    Attempt (Tuning ρ) Unit := do
  let gene ← (← current).project symbol
  let weights ← drawOrFail (perturbAll α gene.weights)
  write { gene with weights }

open Tuning in
@[specialize] def mutateNonterminals (α : Type) [Scalar α] : Attempt (Tuning ρ) Unit := do
  let symbols := (← current).nonterminals
  let drawn ← drawOrFail (RandomSource.sample symbols (nonterminalMutations symbols.length))
  drawn.forM (mutateGene α)

/-- A random length around half of `n` rules, between one and half of them. -/
@[specialize] def swapLength (α : Type) [Scalar α] (n : Nat) (source : ρ) :
    Except Fault Nat × ρ :=
  let (share, source) := noise (Scalar.ratio 1 2 : α) source
  let length : Except Fault Int := do Scalar.truncate (share * (← Scalar.ofInt n))
  let longest : Nat := max (n / 2) 1
  (length.map fun length => min (max length 1).toNat longest, source)

/-- The cyclic segment of a length from a start taken from the other weights. -/
def swapSegment (start length : Nat) (weights donor : List Int) : List Int :=
  weights.mapIdx fun i weight =>
    if (i + weights.length - start) % weights.length < length then donor.getD i weight else weight

open Tuning in
@[specialize] def crossRules (α : Type) [Scalar α] (donor : Grammar) :
    Attempt (Tuning ρ) Unit := do
  let weights := (← current).weights
  let length ← drawOrFail (swapLength α weights.length)
  match weights.length with
  | 0 => throw .unacceptable
  | n + 1 =>
    let start ← draw (RandomSource.below n)
    change (·.setWeights (swapSegment start length weights donor.weights) true)

/-- More than half of the nonterminals. -/
def crossedNonterminals (nonterminals : Nat) : Nat := min nonterminals (nonterminals / 2 + 1)

open Tuning in
def crossNonterminals (donor : Grammar) : Attempt (Tuning ρ) Unit := do
  let symbols := (← current).nonterminals
  let drawn ← drawOrFail (RandomSource.sample symbols (crossedNonterminals symbols.length))
  drawn.forM fun symbol => do write (← donor.project symbol)

/-! ### Candidates -/

def draw {β : Type} (f : ρ → β × ρ) : Attempt (Nursery ρ) β := fun s =>
  let (b, source) := f s.source
  .ok b { s with source }

/-- A new candidate for a grammar, with the next number. -/
def enrol (grammar : Grammar) (parents : List Nat) : Attempt (Nursery ρ) (Candidate α) := fun s =>
  .ok (.fresh s.nextId grammar parents) { s with nextId := s.nextId + 1 }

/-- A copy of the prototype, with given weights if there are any. -/
def spawn (b : Breeder α) (weights : Option (List Int)) (parents : List Nat) :
    Attempt (Nursery ρ) (Candidate α) := do
  match weights with
  | none => enrol b.prototype parents
  | some weights => enrol (← b.prototype.setWeights weights true) parents

/-- Runs an operator on a candidate's grammar. What it changed before a fault stays in the
candidate. -/
def tune {β : Type} (c : Candidate α) (operator : Attempt (Tuning ρ) β) (source : ρ) :
    Except Fault β × Candidate α × ρ :=
  match operator ⟨c.grammar, source⟩ with
  | .ok b s => (.ok b, { c with grammar := s.grammar }, s.source)
  | .error fault s => (.error fault, { c with grammar := s.grammar }, s.source)

def tuned {β : Type} (c : Candidate α) (operator : Attempt (Tuning ρ) β) :
    Attempt (Nursery ρ) (β × Candidate α) := fun s =>
  match tune c operator s.source with
  | (.ok b, c, source) => .ok (b, c) { s with source }
  | (.error fault, _, source) => .error fault { s with source }

/-- Generates probes for a candidate with the nursery's source. -/
def probed (setting : Setting) (count : Nat) (c : Candidate α) :
    Attempt (Nursery ρ) (List Generation × Candidate α) := fun s =>
  match c.probe setting count s.source with
  | (.ok probes, c, source) => .ok (probes, c) { s with source }
  | (.error fault, _, source) => .error fault { s with source }

def mutationBy (b : Breeder α) : GeneMode → Attempt (Tuning ρ) Outcome
  | .rule => b.retry "rule mutation" (mutateRuleWeights α)
  | .nonterminal => b.retry "nonterminal mutation" (mutateNonterminals α)

def mutate (b : Breeder α) : Attempt (Tuning ρ) Outcome := b.mutationBy b.mutation

/-- Whether a candidate's turn to mutate has come. A forced mutation draws nothing. -/
def isChosen (rate : Float) (force : Bool) (source : ρ) : Bool × ρ :=
  if force then (true, source)
  else
    let (x, source) := RandomSource.unit source
    (x < rate, source)

def mutateSome (b : Breeder α) (rate : Float) (force : Bool) (c : Candidate α) :
    Attempt (Nursery ρ) (Candidate α) := do
  if ← draw (isChosen rate force) then return (← tuned c b.mutate).2
  else return c

def mutateGeneration (b : Breeder α) (force : Bool) (generation : List (Candidate α)) :
    Attempt (Nursery ρ) (List (Candidate α)) :=
  generation.mapM (b.mutateSome b.mutationRate force)

def crossing (b : Breeder α) (donor : Grammar) : Attempt (Tuning ρ) Outcome :=
  b.retry "crossover" (match b.crossover with
    | .rule => crossRules α donor
    | .nonterminal => crossNonterminals donor)

/-- A child with the mother's weights that takes genes of the father. -/
def cross (b : Breeder α) (mother father : Candidate α) :
    Attempt (Nursery ρ) (Outcome × Candidate α) := do
  let child ← b.spawn (some mother.weights) [mother.id, father.id]
  tuned child (b.crossing father.grammar)

/-! ### Selection -/

/-- From the lowest score to the highest, equal scores in the given order. -/
@[specialize] def rank (candidates : List (Candidate α)) : List (Candidate α) :=
  candidates.mergeSort fun a b => a.score ≤ b.score

/-- The first candidate once, the second twice, and so on. -/
def fitness (ranked : List (Candidate α)) : List (Candidate α) :=
  (ranked.mapIdx fun i c => List.replicate (i + 1) c).flatten

/-- Redraws up to a number of times while the mother is drawn. -/
def drawOther (mother first : Candidate α) (rest : List (Candidate α)) :
    Nat → ρ → Candidate α × ρ
  | 0, source => (((first :: rest).find? (·.id ≠ mother.id)).getD mother, source)
  | tries + 1, source =>
    let (c, source) := RandomSource.choose first rest source
    if c.id = mother.id then drawOther mother first rest tries source else (c, source)

/-- Another candidate than the mother if there is one. -/
def pickFather (mother first : Candidate α) (rest : List (Candidate α)) (source : ρ) :
    Candidate α × ρ :=
  if rest.all (·.id = first.id) then (mother, source)
  else drawOther mother first rest RandomSource.patience source

/-- Candidates that get a place without a draw: the special ones and the winner. -/
def guaranteed (ranked : List (Candidate α)) (winner : Candidate α) : List (Candidate α) :=
  ranked.filter (·.special) ++ if winner.special then [] else [winner]

def copy (b : Breeder α) (c : Candidate α) : Attempt (Nursery ρ) (Candidate α) :=
  b.spawn (some c.weights) [c.id]

/-- How many of the remaining places go to copies. A share of a place cannot be given away. -/
@[specialize] def copies (b : Breeder α) : Quantity α → Except Fault Int
  | .whole n => do
    return min n (← Scalar.truncate ((← Scalar.ofInt n) * b.passThrough + 1))
  | .real x => do
    let copies ← Scalar.truncate (x * b.passThrough + 1)
    if x ≤ (← Scalar.ofInt copies) then .error .wrongType else return copies

def drawCopies (b : Breeder α) (first : Candidate α) (rest : List (Candidate α)) :
    Nat → Attempt (Nursery ρ) (List (Candidate α))
  | 0 => return []
  | k + 1 => do
    let c ← b.copy (← draw (RandomSource.choose first rest))
    return c :: (← drawCopies b first rest k)

def drawChildren (b : Breeder α) (first : Candidate α) (rest : List (Candidate α)) :
    Nat → Attempt (Nursery ρ) (List (Candidate α))
  | 0 => return []
  | k + 1 => do
    let mother ← draw (RandomSource.choose first rest)
    let father ← draw (pickFather mother first rest)
    let (_, child) ← b.cross mother father
    return child :: (← drawChildren b first rest k)

def spawnMany (b : Breeder α) (weights : Option (List Int)) :
    Nat → Attempt (Nursery ρ) (List (Candidate α))
  | 0 => return []
  | k + 1 => do
    let c ← b.spawn weights []
    return c :: (← spawnMany b weights k)

/-- A generation before its mutation: guaranteed places, copies, children. -/
def assemble (b : Breeder α) (first : Candidate α) (others : List (Candidate α))
    (size : Quantity α) : Attempt (Nursery ρ) (List (Candidate α)) := do
  let ranked := rank (first :: others)
  let winner := ranked.getLastD first
  let places ← size.ceil
  -- the guaranteed places come out of the size, as far as it goes
  let kept ← ((guaranteed ranked winner).take places.toNat).mapM b.copy
  let copies ← b.copies (← size.add (.whole (-kept.length)))
  match fitness ranked with
  | [] => return kept
  | first :: rest =>
    let copied ← b.drawCopies first rest copies.toNat
    -- whatever is left is bred
    let children ← b.drawChildren first rest (places - kept.length - max copies 0).toNat
    return kept ++ copied ++ children

/-- The next generation from scored candidates. -/
def breed (b : Breeder α) (candidates : List (Candidate α)) (size : Quantity α) :
    Attempt (Nursery ρ) (List (Candidate α)) := do
  match candidates with
  | [] => b.spawnMany none (← size.toWhole).toNat
  | first :: others => do b.mutateGeneration false (← b.assemble first others size)

end Breeder

end ProbeForge
