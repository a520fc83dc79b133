import ProbeForge.Derivation.Rendering

/-!
# The derivation engine

A statement is grown and rendered with a source of its own, seeded for it, so the same grammar and
seed give the same statement. A failure gives a safe fallback statement instead; a fault gives none.
-/

namespace ProbeForge

structure Engine where
  grammar : Grammar
  objects : Universe
  maxNodes : Int

structure Generation where
  start : String
  seed : Int
  text : String
  failure : Option RenderFailure
  counts : OrderedMap String Int
  trace : List TraceStep
  tree : Option Tree

namespace Generation

def fallback : String := "select null where 1 = 0"

def succeeded (r : Generation) : Bool := r.failure.isNone

def reason (r : Generation) : Option String := r.failure.map (·.reason)

def errorSymbol (r : Generation) : Option String := r.failure.map (·.symbol)

/-- The text tagged with its seed, so that an executed probe can be traced back. -/
def probeText (r : Generation) : String := s!"/*{r.seed}*/ {r.text}"

end Generation

namespace Engine

def defaultMaxNodes : Int := 200000

/-- Without a universe the demonstration schema is used. -/
def make (grammar : Grammar) (objects : Option Universe) (maxNodes : Int) : Engine :=
  { grammar, objects := objects.getD Universe.demo, maxNodes }

/-- Null stands for the grammar's own start symbol. -/
def startSymbol (e : Engine) : Json → Except Fault Symbol
  | .null => require (.noStartSymbol e.grammar.name.plain) e.grammar.start
  | name => e.grammar.symbolOf name

variable {ρ : Type} [RandomSource ρ]

/-- What a halt means for a statement from `start`. -/
def failureOf (e : Engine) (start : Symbol) : Halt → Except Fault RenderFailure
  | .failure failure => .ok failure
  | .tooDeep => .ok (.tooDeep start.name)
  | .unfinished => .ok (.tooManyNodes (toString e.maxNodes) start.name)
  | .fault fault => .error fault

/-- A statement drawn from a source, with the source as it is afterwards. -/
def generateFrom (e : Engine) (start : Symbol) (seed : Int) (watch : Watch) (source : ρ) :
    Except Fault Generation × ρ :=
  let job : Job := ⟨e.grammar, e.objects, e.maxNodes, watch⟩
  let (halt, grown) := Growth.run job job.turns (.start start source)
  let base : Generation :=
    { start := start.name, seed, text := Generation.fallback, failure := none,
      counts := grown.counts, trace := grown.trace.toList, tree := none }
  match halt with
  | some halt =>
    ((e.failureOf start halt).map fun failure => { base with failure := some failure },
      grown.scope.source)
  | none =>
    -- the tree is kept even if it cannot be rendered
    let base := { base with tree := if watch.tree then some grown.tree else none }
    match Rendering.render e.grammar grown.tree e.objects Rendering.levels 0 grown.scope with
    | .ok text scope => (.ok { base with text }, scope.source)
    | .error halt scope =>
      ((e.failureOf start halt).map fun failure => { base with failure := some failure },
        scope.source)

/-- A statement from a seed, of sources of type `ρ`. -/
def generate (ρ : Type) [RandomSource ρ] (e : Engine) (start : Json) (seed : Int)
    (watch : Watch) : Except Fault Generation := do
  let symbol ← e.startSymbol start
  (e.generateFrom symbol seed watch (RandomSource.seeded seed : ρ)).1

/-- Statements with consecutive seeds, up to the first fault, and that fault. -/
def produce (ρ : Type) [RandomSource ρ] (e : Engine) (start : Json) (counts : Bool) :
    Nat → Int → List Generation × Option Fault
  | 0, _ => ([], none)
  | count + 1, seed =>
    match e.generate ρ start seed ⟨counts, false, false⟩ with
    | .error fault => ([], some fault)
    | .ok r =>
      let (rest, fault) := produce ρ e start counts count (seed + 1)
      (r :: rest, fault)

/-- Statements with consecutive seeds; none for a count below one. -/
def generateMany (ρ : Type) [RandomSource ρ] (e : Engine) (count : Int) (start : Json)
    (seed : Int) (counts : Bool) : Except Fault (List Generation) :=
  match e.produce ρ start counts count.toNat seed with
  | (results, none) => .ok results
  | (_, some fault) => .error fault

end Engine

end ProbeForge
