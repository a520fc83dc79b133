import ProbeForge.CommandLine.Arguments
import ProbeForge.Grammar.Listing
import ProbeForge.Session

/-!
# Commands

Each command prints to the terminal and ends with a code: 0 for success, 1 for a statement that
could not be rendered, 2 for a refused request. What was printed before a fault stays printed.
-/

namespace ProbeForge.CommandLine

open Database

/-- A session with what was printed so far. -/
structure Terminal where
  session : Session
  printed : String

def inSession {α : Type} (run : Attempt Session α) : Attempt Terminal α := fun t =>
  match run t.session with
  | .ok a session => .ok a { t with session }
  | .error fault session => .error fault { t with session }

def print (text : String) : Attempt Terminal Unit := fun t =>
  .ok () { t with printed := t.printed ++ text }

def printLine (line : String) : Attempt Terminal Unit := print (line ++ "\n")

def printLines (lines : List String) : Attempt Terminal Unit := lines.forM printLine

def inFiles {α : Type} (run : Attempt Files α) : Attempt Terminal α :=
  inSession (Attempt.on (·.files) (fun files s => { s with files }) run)

def saveWeights (g : Grammar) (path : String) : Attempt Terminal Unit := do
  let _ ← inFiles (WeightFile.write g path .null)

def listGrammars : Attempt Terminal Int := do
  printLine "Available grammars (name: description):"
  let grammars := (← get).session.descriptions.mergeSort fun a b => a.1 ≤ b.1
  printLines (grammars.map fun (name, description) => s!"- {name}: {description.plain}")
  return 0

/-- Statements up to a fault are written before the fault is raised. -/
def generate (a : Arguments) : Attempt Terminal Int := do
  let o ← inSession (Session.order .null .null (a.value "start_symbol"))
  let count := (a.value "count").int?.getD 10
  let (results, fault) :=
    o.engine.produce MersenneTwister o.start false count.toNat o.seed
  let statement (r : Generation) := if a.isSet "tag_seed" then r.probeText else r.text
  let text := String.join (results.map fun r => statement r ++ ";\n")
  -- the fault comes after what was written, but an unwritable file comes first
  match a.output? with
  | some path => inFiles (Files.writeTo path text)
  | none => print text
  if let some fault := fault then throw fault
  if let some path := a.output? then printLine s!"Saved {count} statements to {path}"
  return 0

def stepLines (frontier : Bool) (i : Nat) (step : TraceStep) : List String :=
  s!"  {Grammar.column 4 (i + 1)}. {step.rule}" ::
    if frontier then ["        frontier: " ++ " ".intercalate step.frontier] else []

def analysis (frontier : Bool) (r : Generation) (tree : Option String) : List String :=
  let success := match r.reason with
    | none => "True"
    | some reason => s!"False ({reason})"
  [s!"Seed: {r.seed}", s!"Success: {success}", "Derivation:"] ++
    (r.trace.mapIdx (stepLines frontier)).flatten ++
    (match tree with
      | some text => ["Tree:", text]
      | none => []) ++
    ["Statement:", r.text ++ ";"]

def analyze (a : Arguments) : Attempt Terminal Int := do
  let r ← inSession (Session.analyze .null .null (a.value "start_symbol"))
  let tree ← match r.tree with
    | some tree => inSession (return some (← tree.format))
    | none => pure none
  printLines (analysis (a.isSet "frontier") r tree)
  return if r.succeeded then 0 else 1

def validate (a : Arguments) : Attempt Terminal Int := do
  let g ← inSession (Session.grammar .null .null)
  let (report, g) ← inSession (Session.validate g (.bool !(a.isSet "no_adjust")))
  let verdict := if report.withinBound then "consistent" else "inconsistent"
  let radius := Numeric.fixed 6 report.radius
  printLine (s!"Grammar '{g.name.plain}': {verdict}; spectral radius = {radius} after " ++
    s!"{report.attempts} repair attempts")
  if !g.undefined.isEmpty then
    printLine ("Undefined symbols: " ++ ", ".intercalate (g.undefined.map (·.name)))
  if let some path := a.output? then
    saveWeights g path
    printLine s!"Saved weights to {path}"
  return if report.withinBound then 0 else 2

def dump (a : Arguments) : Attempt Terminal Int := do
  let g ← inSession (Session.grammar .null .null)
  printLine (if a.isSet "bnf" then g.backusNaur else g.listing)
  return 0

/-- Counts in the order in which they first came. -/
def countsText (counts : OrderedMap String Json) : String := (Json.record counts.entries).shown

def reportChampion (a : Arguments) (champion : Option (Candidate Float)) :
    Attempt Terminal Int := do
  match champion with
  | none => throw .noAttribute
  | some c =>
    printLine (s!"Winner: candidate {c.id} score={Numeric.fixed 6 c.score} " ++
      s!"results={countsText c.results}")
    if let some path := a.output? then
      saveWeights c.grammar path
      printLine s!"Saved winning weights to {path}"
    return 0

def tournament (a : Arguments) : Attempt Terminal Int := do
  reportChampion a (← inSession (if a.isSet "dry_run" then Session.playDry else Session.playLive))

def act (a : Arguments) : Attempt Terminal Int :=
  match a.command with
  | .list => listGrammars
  | .generate => generate a
  | .analyze => analyze a
  | .validate => validate a
  | .dump => dump a
  | .tournament => tournament a

/-! ### Running -/

inductive Ending where
  | code (n : Int)
  | usage (usage : Usage)
  /-- A fault that no code stands for. -/
  | fault (fault : Fault)

/-- The status that a usage ends with. -/
def Usage.status : Usage → Int
  | help => 0
  | wrong => 2

structure Completion where
  ending : Ending
  printed : String
  files : Files
  server : Option Server

/-- Misconfigurations and misuses end with code 2. -/
def endingOf : Fault → Ending
  | .configuration _ | .misuse _ => .code 2
  | fault => .fault fault

/-- A whole run. The server is used only by the session. -/
def run (args : List String) (environment : Settings.Environment) (files : Files)
    (server : Option Server) : Completion :=
  match read args with
  | .error usage => ⟨.usage usage, "", files, server⟩
  | .ok a =>
    match Settings.read environment a.settings with
    | .error fault => ⟨endingOf fault, "", files, server⟩
    | .ok settings =>
      match act a ⟨.start settings environment none files server, ""⟩ with
      | .ok n t => ⟨.code n, t.printed, t.session.files, t.session.server⟩
      | .error fault t => ⟨endingOf fault, t.printed, t.session.files, t.session.server⟩

end ProbeForge.CommandLine
