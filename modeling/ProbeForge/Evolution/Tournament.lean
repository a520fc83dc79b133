import ProbeForge.Evolution.Breeder
import ProbeForge.Evolution.Scoring
import ProbeForge.WeightFile

/-!
# Tournaments

In each round every candidate generates probes, the probes are executed or else judged by whether
they could be rendered, the judge scores the candidates, and the breeder builds the next generation.
The champion is the best candidate of all rounds; of equals the latest round counts, and in it the
first.
-/

namespace ProbeForge

/-- Scores a candidate by its results. -/
def Scorer.judgeCandidate (s : Scorer Float) (c : Candidate Float) : Except Fault (Float × Bool) := do
  let verdict ← s.judge Json.toNumber c.results
  return (verdict.score, verdict.special)

/-- Runs the probes of a candidate on a backend and counts how they ended. -/
abbrev Execution (σ : Type) : Type := List String → Attempt σ (OrderedMap String Json)

/-- What a tournament is asked to do. What is not a number is refused when it is needed. -/
structure Tournament (α σ : Type) where
  breeder : Breeder α
  setting : Setting
  rounds : Except Fault Int
  probeCount : Except Fault Int
  judge : Candidate α → Except Fault (α × Bool)
  execute : Option (Execution σ)
  initialWeights : Option (List Int)
  /-- A folder for probes and weights. -/
  workDir : Json
  saveFiles : Bool

def Tournament.ofSettings {σ : Type} (s : Settings) (prototype : Grammar)
    (objects : Option Universe) (judge : Candidate Float → Except Fault (Float × Bool))
    (execute : Option (Execution σ)) (initialWeights : Option (List Int)) :
    Except Fault (Tournament Float σ) := do
  return {
    breeder := ← Breeder.ofSettings prototype s
    setting := ⟨objects, s.startSymbol⟩
    rounds := s.rounds.toIndex
    probeCount := s.probeCount.toIndex
    judge
    execute
    initialWeights
    workDir := s.workDir
    saveFiles := s.saveFiles.isFilled }

/-- The state of a tournament; `backend` is what probes are executed on. -/
structure Arena (α σ ρ : Type) where
  nursery : Nursery ρ
  files : Files
  backend : σ
  champion : Option (Candidate α)
  /-- The best candidate of each round played. -/
  history : List (Candidate α)

namespace Tournament

variable {α : Type} [Scalar α] {σ : Type} {ρ : Type} [RandomSource ρ]

def inNursery {β : Type} : Attempt (Nursery ρ) β → Attempt (Arena α σ ρ) β :=
  Attempt.on (·.nursery) fun nursery s => { s with nursery }

def inFiles {β : Type} : Attempt Files β → Attempt (Arena α σ ρ) β :=
  Attempt.on (·.files) fun files s => { s with files }

/-- The first generation: copies of the prototype, each of them mutated. -/
def initialPopulation (t : Tournament α σ) : Attempt (Nursery ρ) (List (Candidate α)) := do
  let size ← t.breeder.population.toWhole
  t.breeder.mutateGeneration true (← t.breeder.spawnMany t.initialWeights size.toNat)

/-- Generates the probes of a candidate, and saves them if that is asked for. -/
def probe (t : Tournament α σ) (round : Int) (c : Candidate α) :
    Attempt (Arena α σ ρ) (List Generation × Candidate α) := do
  let count ← t.probeCount
  let (probes, c) ← inNursery (Breeder.probed t.setting count.toNat c.reset)
  if t.saveFiles && t.workDir.isFilled then
    return (probes, ← inFiles (c.save (← t.workDir.toText) (toString round) probes))
  else return (probes, c)

def outcomes (t : Tournament α σ) (probes : List Generation) :
    Attempt (Arena α σ ρ) (OrderedMap String Json) :=
  match t.execute with
  | some execute =>
    Attempt.on (·.backend) (fun backend s => { s with backend }) (execute (probes.map (·.probeText)))
  | none => return (Candidate.generationOutcomes probes).mapValues .int

def play (t : Tournament α σ) (round : Int) (c : Candidate α) :
    Attempt (Arena α σ ρ) (Candidate α) := do
  let (probes, c) ← t.probe round c
  match c.record (← t.outcomes probes) with
  | (none, c) => return c
  | (some fault, _) => throw fault

def score (t : Tournament α σ) (c : Candidate α) : Except Fault (Candidate α) := do
  let (score, special) ← t.judge c
  return { c with score, special }

/-- From the highest score to the lowest, equal scores in the given order. -/
@[specialize] def standings (population : List (Candidate α)) : List (Candidate α) :=
  population.mergeSort fun a b => b.score ≤ a.score

/-- Whether a round's best takes the title. -/
def succeeds (best : Candidate α) (champion : Option (Candidate α)) : Bool :=
  match champion with
  | none => true
  | some c => c.score ≤ best.score

/-- Enters a round's best into the history. -/
def crown (best : Candidate α) : Attempt (Arena α σ ρ) Unit := fun s =>
  .ok () { s with
    history := s.history ++ [best]
    champion := if succeeds best s.champion then some best else s.champion }

/-- Plays a round and gives its standings. -/
def playRound (t : Tournament α σ) (round : Int) (population : List (Candidate α)) :
    Attempt (Arena α σ ρ) (List (Candidate α)) := do
  let played ← population.mapM (t.play round)
  -- all have played before the first is scored
  let ranked := standings (← played.mapM fun c => t.score c)
  match ranked with
  | [] => throw .outOfRange
  | best :: _ => crown best
  return ranked

/-- `left + 1` rounds from a round on. -/
def playRounds (t : Tournament α σ) (round : Int) :
    Nat → List (Candidate α) → Attempt (Arena α σ ρ) Unit
  | 0, population => do let _ ← t.playRound round population
  | left + 1, population => do
    let ranked ← t.playRound round population
    playRounds t (round + 1) left (← inNursery (t.breeder.breed ranked t.breeder.population))

/-- Saves the champion's weights if files are kept. -/
def saveChampion (t : Tournament α σ) (champion : Option (Candidate α)) :
    Attempt (Arena α σ ρ) Unit := do
  match champion with
  | some c =>
    if t.saveFiles then
      let folder := Place.ofPath (← t.workDir.toText)
      let _ ← inFiles (WeightFile.write c.grammar (folder.inside "winner.weights").path .null)
  | none => return ()

/-- A whole tournament; without rounds there is no champion. -/
def run (t : Tournament α σ) : Attempt (Arena α σ ρ) (Option (Candidate α)) := do
  let population ← inNursery t.initialPopulation
  match (← t.rounds).toNat with
  | 0 => pure ()
  | left + 1 => t.playRounds 1 left population
  let champion := (← get).champion
  t.saveChampion champion
  return champion

/-- An arena before its tournament. Candidates are numbered from one. -/
def arena (seed : Int) (files : Files) (backend : σ) : Arena α σ ρ :=
  { nursery := ⟨1, RandomSource.seeded seed⟩, files, backend, champion := none, history := [] }

end Tournament

end ProbeForge
