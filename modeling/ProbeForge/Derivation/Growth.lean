import ProbeForge.Behaviour
import ProbeForge.Derivation.Tree
import ProbeForge.Grammar.Basic
import ProbeForge.Scope.Catalog

/-!
# Growing a derivation tree

Nodes wait in the order of a leftmost derivation: the children of an expanded node go before
everything that was waiting. Each turn takes one node; a nonterminal is expanded with a rule drawn
by weight, whose generator may change the scope. Growth stops when nothing waits, when a nonterminal
meets a tree over the node limit, or at a fault.
-/

namespace ProbeForge

/-- Why a statement was replaced by the fallback. -/
inductive RenderFailure where
  | tooManyNodes (limit symbol : String)
  | tooDeep (start : String)
  | unimplemented (symbol : String)
  | noSource (symbol : String)
  | noSchema (symbol : String)
  | noSequence (symbol : String)
  | noSegment (symbol : String)
deriving DecidableEq, Repr

namespace RenderFailure

def reason : RenderFailure → String
  | tooManyNodes limit _ => s!"derivation exceeded {limit} nodes"
  | tooDeep _ => "derivation tree too deep to render"
  | unimplemented symbol => s!"unimplemented construct <{symbol}>"
  | noSource symbol => s!"no source registered for <{symbol}>"
  | noSchema symbol => s!"no schema registered for <{symbol}>"
  | noSequence symbol => s!"no sequence registered for <{symbol}>"
  | noSegment symbol => s!"<{symbol}> has no scope segment"

def symbol : RenderFailure → String
  | tooManyNodes _ symbol | tooDeep symbol | unimplemented symbol | noSource symbol
  | noSchema symbol | noSequence symbol | noSegment symbol => symbol

end RenderFailure

/-- What ends a derivation or a rendering early. Only a failure has a fallback; a fault is the
caller's. -/
inductive Halt where
  | failure (failure : RenderFailure)
  | fault (fault : Fault)
  /-- The rendering went below its last level. -/
  | tooDeep
  /-- Growth used up its turns; the number of turns granted rules this out. -/
  | unfinished
deriving DecidableEq, Repr

/-- Which records to keep of a derivation. -/
structure Watch where
  counts : Bool
  trace : Bool
  tree : Bool
deriving DecidableEq, Repr

/-- A rule application and the symbols that wait after it. -/
structure TraceStep where
  ruleName : String
  rule : String
  frontier : List String
deriving DecidableEq, Repr

structure Job where
  grammar : Grammar
  objects : Universe
  limit : Int
  watch : Watch

structure Growth (ρ : Type) where
  tree : Tree
  pending : List Nat
  scope : Scope ρ
  counts : OrderedMap String Int
  trace : Array TraceStep

section

variable {ρ : Type} [RandomSource ρ]

/-- One to `n` random letters between single quotes. -/
def randomLetters : Nat → List Char → ScopeM ρ (List Char)
  | 0, done => return done.reverse
  | n + 1, done => do
    let k ← Scope.draw (RandomSource.below 25)
    randomLetters n (Char.ofNat (97 + k) :: done)

def Generator.run (u : Universe) : Generator → ScopeAttempt ρ Payload
  | openBlock => fun s =>
    let (id, s) := Scope.push s
    .ok (.block id) s
  | closeBlock => fun s =>
    match Scope.pop s with
    | .ok id s => .ok (.text (s.catalog.segment id).name) s
    | .error m s => .error m s
  | registerTable => .source <$> Scope.addTable u
  | registerSchema => .source <$> Scope.addSchema u
  | registerView => .source <$> Scope.addSource u .view
  | registerMaterializedView => .source <$> Scope.addSource u .mview
  | registerSequence => .source <$> Scope.addSource u .sequence
  | defineAlias => .text <$> Scope.defineAlias
  | integer => fun s =>
    let (n, s) := Scope.draw (RandomSource.below 1000) s
    .ok (.text (toString n.val)) s
  | number => fun s =>
    let (x, s) := Scope.draw RandomSource.unit s
    .ok (.text (Numeric.fixed 2 (-1000.0 + (1000.0 - -1000.0) * x))) s
  | string => fun s =>
    let (n, s) := Scope.draw (RandomSource.below 8) s
    let (letters, s) := randomLetters n.val [] s
    .ok (.text (String.ofList ('\'' :: (letters ++ ['\'']))) ) s

namespace Growth

def start (symbol : Symbol) (source : ρ) : Growth ρ :=
  { tree := Tree.empty.addRoot symbol, pending := [0], scope := ⟨.empty, source⟩, counts := ∅,
    trace := #[] }

/-- Runs the generator that a rule names, if any, and leaves its result in the node. -/
def fill (job : Job) (i : Nat) (id : Json) (s : Growth ρ) : Option Halt × Growth ρ :=
  match Generator.resolve id with
  | .error fault => (some (.fault fault), s)
  | .ok none => (none, s)
  | .ok (some generator) =>
    match generator.run job.objects s.scope with
    | .error misuse scope => (some (.fault (.misuse misuse)), { s with scope })
    | .ok payload scope =>
      let segment := match payload, generator.keepsSegment with
        | .block id, true => some id
        | _, _ => none
      (none, { s with
        scope, tree := s.tree.modify i fun n => { n with payload := some payload, segment } })

/-- Puts the right side of the chosen rule under the node and before everything that waits. -/
def branch (i : Nat) (right : List Symbol) (s : Growth ρ) : Growth ρ :=
  -- the children will have the places from the present size on
  let pending := List.range' s.tree.size right.length ++ s.pending
  { s with pending, tree := s.tree.addChildren i right }

def frontier (s : Growth ρ) : List String :=
  s.pending.filterMap fun i => s.tree.nodes[i]?.map (·.symbol.name)

/-- Notes a rule application in the records that are kept. -/
def note (watch : Watch) (choice : Grammar.RuleChoice) (s : Growth ρ) : Growth ρ :=
  let counts := if watch.counts then s.counts.count choice.name 1 else s.counts
  let trace := if watch.trace then
      s.trace.push ⟨choice.name, choice.entry.rule.text, s.frontier⟩
    else s.trace
  { s with counts, trace }

def expand (job : Job) (i : Nat) (group : RuleGroup) (s : Growth ρ) : Option Halt × Growth ρ :=
  match job.grammar.randomRuleOf group s.scope.source with
  | (.error fault, source) => (some (.fault fault), { s with scope := { s.scope with source } })
  | (.ok choice, source) =>
    let entry := choice.entry
    let s := { s with
      scope := { s.scope with source }
      tree := s.tree.modify i fun n =>
        { n with ruleName := some choice.name, representer := entry.representer } }
    -- the generator sees the node before its children are there
    match s.fill job i entry.generator with
    | (some halt, s) => (some halt, s)
    | (none, s) => (none, (s.branch i entry.rule.right).note job.watch choice)

/-- A terminal needs no work. -/
def visit (job : Job) (i : Nat) (s : Growth ρ) : Option Halt × Growth ρ :=
  match s.tree.nodes[i]? with
  | none => (some (.fault .outOfRange), s)
  | some node =>
    match job.grammar.group? node.symbol with
    | none => (none, s)
    | some group =>
      -- only an expansion can go over the limit
      if s.tree.size > job.limit then
        (some (.failure (.tooManyNodes (toString job.limit) node.symbol.name)), s)
      else s.expand job i group

/-- Up to `turns` turns. -/
def run (job : Job) : Nat → Growth ρ → Option Halt × Growth ρ
  | turns, s =>
    match s.pending with
    | [] => (none, s)
    | i :: pending =>
      match turns with
      | 0 => (some .unfinished, s)
      | turns + 1 =>
        match visit job i { s with pending } with
        | (none, s) => run job turns s
        | (some halt, s) => (some halt, s)

end Growth

end

/-- The longest right side bounds how far one expansion takes a tree over the limit. -/
def Grammar.longestRight (g : Grammar) : Nat :=
  (g.table.toList.map (·.rule.right.length)).max?.getD 0

def Job.turns (job : Job) : Nat := max 1 (job.limit.toNat + job.grammar.longestRight)

end ProbeForge
