import ProbeForge.Database.Executor
import ProbeForge.Database.Introspection
import ProbeForge.Evolution.Scoring
import ProbeForge.Evolution.Tournament
import ProbeForge.Library
import ProbeForge.MetadataFile
import ProbeForge.Random.MersenneTwister

/-!
# Sessions

One set of settings with a grammar library, a universe that is loaded when it is first needed, the
files, and the database server if there is a client for it. Grammars are built afresh for every use.
-/

namespace ProbeForge

open Database

structure Session where
  settings : Settings
  library : Library
  objects : Option Universe
  files : Files
  /-- `none` if no database client is installed. -/
  server : Option Server

namespace Session

/-- A session with the built-in grammars and those that the environment lists. -/
def start (settings : Settings) (environment : Settings.Environment) (objects : Option Universe)
    (files : Files) (server : Option Server) : Session :=
  let (_, library) := Library.empty.loadBuiltIns
  let (_, library) := library.loadListed
    ((Settings.environmentValue environment Library.pathVariable).getD "")
  { settings, library, objects, files, server }

/-! ### Grammars and universes -/

/-- The names of the grammars with their descriptions. -/
def descriptions (s : Session) : List (String × Json) :=
  s.library.definitions.entries.map fun (name, d) => (name, d.description.orFilled "Custom grammar")

def addGrammar (s : Session) (name : String) (d : Definition) : Session :=
  { s with library := s.library.register name d }

/-- Grammars are not read from files. -/
def loadGrammarFile (path : Json) : Attempt Session Unit := do
  throw (.noGrammarIn (← path.toText))

/-- A fresh grammar, with the weights of a file if one is given or set. -/
def grammar (name weightsFile : Json) : Attempt Session Grammar := do
  let s ← get
  let name ← Library.nameOf (name.orFilled s.settings.grammar)
  let (built, library) := s.library.build name
  set { s with library }
  let g ← built
  let path := weightsFile.orFilled s.settings.weightsFile
  if path.isFilled then g.setWeights (← WeightFile.read s.files (← path.toText) (some g)) true
  else return g

/-- The objects of the database that is set; none without a client. -/
def introspected (schemas : List Json) (s : Session) : Universe × Session :=
  match s.server with
  | none => (.empty, s)
  | some server =>
    let (u, server) := introspect s.settings.dsn schemas server
    (u, { s with server := some server })

/-- From a metadata file, or from a database that has objects, or else the demonstration schema. -/
def loadUniverse : Attempt Session Universe := do
  let s ← get
  if s.settings.universeFile.isFilled then
    MetadataFile.read s.files (← s.settings.universeFile.toText)
  else if s.settings.dsn.isFilled then
    let u ← modifyGet (introspected (← s.settings.schemas.elements))
    return if u.size = 0 then Universe.demo else u
  else return Universe.demo

/-- The universe, loaded on first use. -/
def currentObjects : Attempt Session Universe := do
  match (← get).objects with
  | some u => return u
  | none =>
    let u ← loadUniverse
    modify ({ · with objects := some u })
    return u

/-! ### Generation -/

/-- An engine with the seed and the start symbol to use. -/
structure Order where
  engine : Engine
  start : Json
  seed : Int

def engine (name : Json) : Attempt Session Engine := do
  let g ← grammar name .null
  return .make g (some (← currentObjects)) Engine.defaultMaxNodes

def order (name seed start : Json) : Attempt Session Order := do
  let settings := (← get).settings
  let engine ← engine name
  return ⟨engine, start.orFilled settings.startSymbol, (seed.orElse settings.seed).int?.getD 0⟩

def generations (name count seed start : Json) (counts : Bool) :
    Attempt Session (List Generation) := do
  let o ← order name seed start
  o.engine.generateMany MersenneTwister (← count.toIndex) o.start o.seed counts

/-- One statement with its counts, its trace and its tree. -/
def analyze (name seed start : Json) : Attempt Session Generation := do
  let o ← order name seed start
  o.engine.generate MersenneTwister o.start o.seed ⟨true, true, true⟩

/-! ### Evolution -/

/-- Normalises and repairs a grammar as the settings say; with the grammar as it is afterwards. -/
def validate (g : Grammar) (adjust : Json) :
    Attempt Session (RepairReport Float × Grammar) := do
  let settings := (← get).settings
  let plan : RepairPlan Float :=
    { target := settings.topWeight.toQuantity
      bound := settings.maxRadius.toBound
      budget := settings.maxRepairAttempts.toIndex
      adjust := (adjust.orElse settings.adjustConsistency).isFilled }
  let source : MersenneTwister := .ofSeed (settings.seed.int?.getD 0)
  let (report, tuned) := g.repair (.list (g.weights.map .int)) plan source
  return (← report, tuned.grammar)

def scorer : Attempt Session (Scorer Float) := do
  let s ← get
  let path := s.settings.exemplarsFile
  let exemplars ← if path.isFilled then ExemplarFile.read s.files (← path.toText) else pure []
  Scorer.ofCounts (fun x => .ok (.real x)) exemplars s.settings.specialCodes

/-- The tournament of a grammar that is consistent or can be made so. -/
def tournament {σ : Type} (execute : Option (Execution σ)) :
    Attempt Session (Tournament Float σ) := do
  let settings := (← get).settings
  let (report, g) ← validate (← grammar .null .null) .null
  if !report.withinBound then
    throw (.configuration (.grammarInconsistent g.name.plain (Numeric.fixed 6 report.radius)))
  let u ← currentObjects
  let scorer ← scorer
  Tournament.ofSettings settings g (some u) scorer.judgeCandidate execute (some report.weights)

/-- Plays a tournament on a backend taken from the session, which is given back whatever happens. -/
def play {σ : Type} (execute : Option (Execution σ)) (backend : Session → σ)
    (giveBack : σ → Session → Session) : Attempt Session (Option (Candidate Float)) := do
  let t ← tournament execute
  fun s =>
    let arena : Arena Float σ MersenneTwister :=
      Tournament.arena (s.settings.seed.int?.getD 0) s.files (backend s)
    -- the backend goes back to the session also after a fault
    match t.run arena with
    | .ok champion arena => .ok champion (giveBack arena.backend { s with files := arena.files })
    | .error fault arena => .error fault (giveBack arena.backend { s with files := arena.files })

/-- Without a database, probes count by whether they could be rendered. -/
def playDry : Attempt Session (Option (Candidate Float)) :=
  play none (fun _ => ()) fun () s => s

/-- Executes probes on the server. The connection is given up in the end. -/
def playLive : Attempt Session (Option (Candidate Float)) := fun s =>
  match s.server with
  | none => .error .clientMissing s
  | some server =>
    let executor : Executor := ⟨s.settings.dsnOrDefault, s.settings.statementTimeout⟩
    let execute (probes : List String) : Attempt Database.Execution (OrderedMap String Json) := do
      return (← executor.run (probes.map .text)).outcomes.mapValues .int
    play (some execute) (fun s => ⟨s.server.getD server, none⟩)
      (fun x s => { s with server := some (Client.release x).server }) s

end Session

end ProbeForge
