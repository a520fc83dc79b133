import ProbeForge.Evolution.Breeder
import ProbeForge.Json.Form

/-!
# Breeding by hand

A herd is bred step by step: its members are asked for by number, and marks are given to them
instead of being worked out. A mark is kept as it was given, whatever it is; what is no number is
refused where a number is needed.
-/

namespace ProbeForge

structure Member where
  candidate : Candidate Float
  /-- The parents as they were given. -/
  parents : List Json
  score : Json
  special : Json

namespace Member

/-- A candidate with the marks it has by itself. -/
def ofCandidate (candidate : Candidate Float) : Member :=
  { candidate, parents := candidate.parents.map .nat, score := .real candidate.score
    special := .bool candidate.special }

/-- Scores are not read as numerals. -/
def scoreNumber (m : Member) : Except Fault Float := do
  let _ ← m.score.toNumber
  m.score.toReal

def toJson (m : Member) : Except Fault Json := do
  return .record [("id", .nat m.candidate.id), ("parents", .list m.parents),
    ("score", .fixed (← m.scoreNumber)), ("special", m.special),
    ("weights", .ints m.candidate.weights)]

/-- A text is no number to be written with four decimals. -/
def summary (m : Member) : Except Fault String := do
  if m.score.text?.isSome then throw .unacceptable
  return s!"Candidate(id={m.candidate.id}, score={Numeric.fixed 4 (← m.scoreNumber)}, " ++
    s!"special={m.special.plain})"

end Member

structure Herd (ρ : Type) where
  nursery : Nursery ρ
  members : List Member
  files : Files

namespace Herd

variable {ρ : Type}

/-- The member of a number. -/
def find (id : Json) : Attempt (Herd ρ) Member := do
  let key ← id.toKey
  require .absent ((← get).members.find? fun m => key = .whole m.candidate.id)

def put (m : Member) : Attempt (Herd ρ) Unit := modify fun s =>
  { s with members := s.members.filter (·.candidate.id != m.candidate.id) ++ [m] }

def nursing {α : Type} : Attempt (Nursery ρ) α → Attempt (Herd ρ) α :=
  Attempt.on (·.nursery) fun nursery s => { s with nursery }

def inFiles {α : Type} : Attempt Files α → Attempt (Herd ρ) α :=
  Attempt.on (·.files) fun files s => { s with files }

def reseed (source : ρ) : Attempt (Herd ρ) Unit :=
  modify fun s => { s with nursery := { s.nursery with source } }

/-- Takes a new candidate in. -/
def enrol (c : Candidate Float) : Attempt (Herd ρ) Json := do
  let m := Member.ofCandidate c
  put m
  m.toJson

variable [RandomSource ρ]

/-- A candidate with these weights, or with the prototype's for null. -/
def spawn (b : Breeder Float) (weights parents : Json) : Attempt (Herd ρ) Json := do
  let parents ← parents.elements
  let g ← if weights.isNull then pure b.prototype else b.prototype.importValue weights true
  let m := { Member.ofCandidate (← nursing (Breeder.enrol g [])) with parents }
  put m
  m.toJson

/-- Gives a score and a mark, which stay even if they cannot be shown. -/
def mark (id score special : Json) : Attempt (Herd ρ) String := do
  let m := { ← find id with score, special }
  put m
  m.summary

def record (id : Json) (counts : OrderedMap String Json) : Attempt (Herd ρ) Json := do
  let m ← find id
  let (fault, candidate) := m.candidate.record counts
  put { m with candidate }
  if let some fault := fault then throw fault
  return .byKey (fun n => n) candidate.results.toList

/-- Generates probes for a member and saves them in the folder `out` if that is asked for. -/
def probe (setting : Setting) (id count round save : Json) : Attempt (Herd ρ) Json := do
  let m ← find id
  let count ← count.toIndex
  let (probes, candidate, source) := m.candidate.probe setting count.toNat (← get).nursery.source
  put { m with candidate }
  reseed source
  let probes ← probes
  let candidate ← if save.isFilled then inFiles (candidate.save "out" round.plain probes)
    else pure candidate
  put { m with candidate }
  return .record [("probes", .texts (probes.map (·.probeText))),
    ("counts", .counts candidate.productionCounts),
    ("outcomes", .counts (Candidate.generationOutcomes probes)),
    ("file", .maybeText (candidate.probeFile.map (·.path)))]

def reset (id : Json) : Attempt (Herd ρ) Json := do
  let m ← find id
  let candidate := m.candidate.reset
  let m := { m with candidate, score := .real 0, special := .bool false }
  put m
  return .list [← m.toJson, .list [], .list []]

/-- A weight times noise around one, which is drawn before the weight is looked at. -/
def perturb (weight : Json) : Attempt (Herd ρ) Int := do
  let (factor, source) := Breeder.noise (1 : Float) (← get).nursery.source
  reseed source
  let scaled := (← (← weight.toNumber).toScalar) * factor
  return max (← Scalar.truncate scaled) 1

/-! ### Operators -/

def outcomeJson (population : Json) (o : Outcome) (m : Member) : Except Fault Json := do
  return .record [("candidate", ← m.toJson), ("changed", .bool o.changed),
    ("attempts", o.accepted.elim population .nat), ("reason", .maybeText (o.reason population.plain))]

/-- Runs an operator on a member. -/
def tune (id : Json) (operator : Attempt (Tuning ρ) Outcome) : Attempt (Herd ρ) Outcome := do
  let m ← find id
  let (outcome, candidate, source) := Breeder.tune m.candidate operator (← get).nursery.source
  put { m with candidate }
  reseed source
  outcome

def mutate (population id : Json) (operator : Attempt (Tuning ρ) Outcome) :
    Attempt (Herd ρ) Json := do
  let o ← tune id operator
  outcomeJson population o (← find id)

def cross (b : Breeder Float) (population mother father : Json) : Attempt (Herd ρ) Json := do
  let mother ← find mother
  let father ← find father
  let (o, c) ← nursing (b.cross mother.candidate father.candidate)
  let m := Member.ofCandidate c
  put m
  outcomeJson population o m

/-- Mutates a member if its turn has come; null stands for the breeder's own rate. A forced mutation
draws nothing. -/
def mutateSome (b : Breeder Float) (rate : Json) (force : Bool) (id : Json) :
    Attempt (Herd ρ) (Option (Json × Outcome)) := do
  if !force then
    let (x, source) := RandomSource.unit (← get).nursery.source
    reseed source
    if !(x < (← (rate.orElse (.real b.mutationRate)).toBound)) then return none
  return some (id, ← tune id b.mutate)

/-- Mutates members one after another and shows how they are in the end. -/
def mutateGeneration (b : Breeder Float) (population ids rate force : Json) :
    Attempt (Herd ρ) Json := do
  let ids ← ids.elements
  ids.forM fun id => do let _ ← find id
  let outcomes ← ids.filterMapM (mutateSome b rate force.isFilled)
  return .list (← outcomes.mapM fun (id, o) => do outcomeJson population o (← find id))

/-! ### Selection -/

def findAll (ids : Json) : Attempt (Herd ρ) (List Member) := do (← ids.elements).mapM find

def fitness (ids : Json) : Attempt (Herd ρ) Json := do
  return .nats ((Breeder.fitness ((← findAll ids).map (·.candidate))).map (·.id))

/-- The candidates of members with their marks. A single one needs no score. -/
def marked (members : List Member) : Except Fault (List (Candidate Float)) :=
  members.mapM fun m => do
    let score ← if members.length = 1 then pure 0 else m.score.toBound
    return { m.candidate with score, special := m.special.isFilled }

def breed (b : Breeder Float) (ids size : Json) : Attempt (Herd ρ) Json := do
  let members ← findAll ids
  let size ← if size.isNull then pure b.population else size.toNumber
  let bred ← nursing (b.breed (← marked members) size)
  return .list (← bred.mapM enrol)

end Herd

end ProbeForge
