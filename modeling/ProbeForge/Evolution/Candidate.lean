import ProbeForge.Derivation.Engine
import ProbeForge.Files
import ProbeForge.Json.Access
import ProbeForge.ProbeFile

/-!
# Candidates

A candidate is a grammar with weights of its own and the records of the round it is playing: outcome
counts, production counts and the score it was given.
-/

namespace ProbeForge

structure Candidate (α : Type) where
  id : Nat
  grammar : Grammar
  parents : List Nat
  score : α
  special : Bool
  /-- The counts of outcomes, as they were given. -/
  results : OrderedMap String Json
  productionCounts : OrderedMap String Int
  probeFile : Option Place

/-- What all candidates generate their probes from, apart from their grammars. -/
structure Setting where
  objects : Option Universe
  startSymbol : Json

namespace Candidate

variable {α : Type}

def fresh [Zero α] (id : Nat) (grammar : Grammar) (parents : List Nat) : Candidate α :=
  { id, grammar, parents, score := 0, special := false, results := ∅, productionCounts := ∅,
    probeFile := none }

def weights (c : Candidate α) : List Int := c.grammar.weights

def reset [Zero α] (c : Candidate α) : Candidate α :=
  { c with score := 0, special := false, results := ∅, productionCounts := ∅, probeFile := none }

/-- Adds counts one by one, up to the first that is no number. -/
def tallyFrom (results : OrderedMap String Json) :
    List (String × Json) → Option Fault × OrderedMap String Json
  | [] => (none, results)
  | (outcome, n) :: rest =>
    match n.plus ((results.find? outcome).getD (.int 0)) with
    | .ok sum => tallyFrom (results.insert outcome sum) rest
    | .error fault => (some fault, results)

/-- The first counts are taken as they are. -/
def tally (results outcomes : OrderedMap String Json) : Option Fault × OrderedMap String Json :=
  if results.isEmpty then (none, outcomes) else tallyFrom results outcomes.entries

def record (c : Candidate α) (outcomes : OrderedMap String Json) :
    Option Fault × Candidate α :=
  let (fault, results) := tally c.results outcomes
  (fault, { c with results })

/-- Outcomes of probes that are not executed anywhere: whether they could be rendered. -/
def generationOutcomes (probes : List Generation) : OrderedMap String Int :=
  probes.foldl (fun counts p => counts.count (if p.succeeded then "ok" else "fallback") 1) ∅

variable {ρ : Type} [RandomSource ρ]

/-- The largest probe seed. -/
def lastSeed : Nat := 2147483647

/-- Generates probes, each from a seed drawn for it, and counts the productions used. -/
def probe (setting : Setting) : Nat → Candidate α → ρ →
    Except Fault (List Generation) × Candidate α × ρ
  | 0, c, source => (.ok [], c, source)
  | count + 1, c, source =>
    let engine := Engine.make c.grammar setting.objects Engine.defaultMaxNodes
    let (seed, source) := RandomSource.below lastSeed source
    match engine.generate ρ setting.startSymbol seed.val ⟨true, false, false⟩ with
    | .error fault => (.error fault, c, source)
    | .ok result =>
      let c := { c with productionCounts := c.productionCounts.countAll result.counts }
      let (rest, c, source) := probe setting count c source
      (rest.map (result :: ·), c, source)

/-- Writes the probes of a round into a folder. -/
def save (c : Candidate α) (folder : String) (round : String) (probes : List Generation) :
    Attempt Files (Candidate α) := do
  let place := (Place.ofPath folder).inside s!"r{round}_c{c.id}.prb"
  Files.save place (.ok (ProbeFile.format (probes.map (·.probeText))))
  return { c with probeFile := some place }

end Candidate

end ProbeForge
