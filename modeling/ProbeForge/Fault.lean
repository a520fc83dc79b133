/-!
# Faults

Every way in which an operation is refused. A misconfiguration is a mistake in a grammar, a weight
vector, a universe or the settings and carries what its message shows; a misuse says that a scope
operation came at the wrong moment. The other faults have no text of their own.
-/

namespace ProbeForge

/-- The two sets of behaviours that a rule can name. -/
inductive BehaviourSort where
  | generation
  | representation
deriving DecidableEq, Repr

def BehaviourSort.noun : BehaviourSort → String
  | .generation => "generation"
  | .representation => "representation"

inductive Misconfiguration where
  | symbolName (shown : String)
  | symbolTwice (name : String)
  | ruleLeft (shown : String)
  | ruleRight (left shown : String)
  | ruleTwice (rule : String)
  | ruleMissing
  | weightMissing
  | weightBelowOne (weight : Int) (rule : String)
  | symbolUnknown (name grammar : String)
  | notNonterminal (name : String)
  | totalOutOfSync (name : String)
  | weightCount (given expected : Nat)
  | weightNotPositive (index : Nat) (weight : Int)
  | geneCount (name : String) (given expected : Nat)
  | behaviourUnknown (sort : BehaviourSort) (id available : String)
  | behaviourTwice (sort : BehaviourSort) (id : String)
  | weightClassUnknown (shown : String)
  | nameClash (grammar names : String)
  | leftUndeclared (grammar name : String)
  | symbolUndeclared (grammar name left : String)
  | withoutRules (grammar names : String)
  | startNotNonterminal (grammar name : String)
  | kindUnknown (shown : String)
  | objectTwice (key : String)
  | entryMalformed (key : String)
  | metadataMissing (path : String)
  | metadataNotJson (path : String)
  | weightsMalformed
  | weightsNotIntegers
  | weightsMissing (path : String)
  | weightsFileCount (path : String) (entries : Nat) (grammar : String) (rules : Nat)
  | exemplarsMissing (path : String)
  | exemplarsNotJson (path : String)
  | exemplarsNotObjects (path : String)
  | geneMode (setting shown : String)
  | settingBelowOne (setting : String)
  | settingOutsideUnit (setting : String)
  | settingsUnknown (names : String)
  | seedNotInteger (shown : String)
  | grammarNotFound (name available : String)
  | grammarInconsistent (name radius : String)
deriving DecidableEq, Repr

def Misconfiguration.message : Misconfiguration → String
  | symbolName shown => s!"Invalid symbol name: {shown}"
  | symbolTwice name => s!"Symbol '{name}' registered twice"
  | ruleLeft shown => s!"Rule lhs must be a GrammarSymbol, got {shown}"
  | ruleRight left shown => s!"Rule rhs for '{left}' contains a non-symbol: {shown}"
  | ruleTwice rule => s!"Duplicate rule {rule}"
  | ruleMissing => "The input rule is None"
  | weightMissing => "The input weight is None"
  | weightBelowOne weight rule => s!"Weight {weight} < 1 for rule {rule}"
  | symbolUnknown name grammar => s!"Unknown symbol '{name}' in grammar '{grammar}'"
  | notNonterminal name => s!"Symbol '{name}' is not a nonterminal"
  | totalOutOfSync name => s!"Total weight for '{name}' is out of sync"
  | weightCount given expected => s!"Weights length {given} != rule table length {expected}"
  | weightNotPositive index weight => s!"Input weight {index} is {weight}; weights must be >= 1"
  | geneCount name given expected => s!"Gene for '{name}' has {given} weights, expected {expected}"
  | behaviourUnknown .generation id available =>
    s!"Generation behaviour '{id}' not found. Available: {available}"
  | behaviourUnknown .representation id available =>
    s!"Representation behaviour '{id}' not found. Available: {available}"
  | behaviourTwice sort id => s!"Duplicate {sort.noun} behaviour '{id}'"
  | weightClassUnknown shown => s!"Unknown weight class {shown}"
  | nameClash grammar names =>
    s!"Grammar '{grammar}': names used as terminal and nonterminal: {names}"
  | leftUndeclared grammar name => s!"Grammar '{grammar}': '{name}' is not a declared nonterminal"
  | symbolUndeclared grammar name left =>
    s!"Grammar '{grammar}': undeclared symbol '{name}' in rule for '{left}'"
  | withoutRules grammar names => s!"Grammar '{grammar}': nonterminals without rules: {names}"
  | startNotNonterminal grammar name =>
    s!"Grammar '{grammar}': start symbol '{name}' is not a nonterminal"
  | kindUnknown shown => s!"Unknown object kind: {shown}"
  | objectTwice key => s!"Object '{key}' defined twice in universe"
  | entryMalformed key => s!"Malformed universe entry '{key}'"
  | metadataMissing path => s!"No metadata file |{path}|"
  | metadataNotJson path => s!"Metadata file {path} is not valid JSON"
  | weightsMalformed => "Malformed weights"
  | weightsNotIntegers => "Weights must be a JSON array of integers"
  | weightsMissing path => s!"No weights file |{path}|"
  | weightsFileCount path entries grammar rules =>
    s!"Weights file {path} has {entries} entries; grammar '{grammar}' has {rules} rules"
  | exemplarsMissing path => s!"No exemplars file |{path}|"
  | exemplarsNotJson path => s!"Exemplars file {path} is not valid JSON"
  | exemplarsNotObjects path => s!"Exemplars file {path} must hold a list of objects"
  | geneMode setting shown => s!"{setting} must be one of ('nt', 'rule'), got {shown}"
  | settingBelowOne setting => s!"{setting} must be at least 1"
  | settingOutsideUnit setting => s!"{setting} must be within [0, 1]"
  | settingsUnknown names => s!"Unknown configuration keys: {names}"
  | seedNotInteger shown => s!"PYORION_SEED must be an integer, got {shown}"
  | grammarNotFound name available => s!"Grammar '{name}' not found. Available: {available}"
  | grammarInconsistent name radius =>
    s!"Grammar '{name}' is inconsistent (radius {radius}); cannot start a tournament"

/-- A scope operation in a state that does not allow it. It points at a mistake in how a grammar
wires its behaviours. -/
structure Misuse where
  operation : String
  state : String
  detail : String
deriving DecidableEq, Repr

def Misuse.message (m : Misuse) : String :=
  let text := s!"{m.operation} called in scope state {m.state}"
  if m.detail.isEmpty then text else s!"{text}: {m.detail}"

inductive Fault where
  | configuration (cause : Misconfiguration)
  | misuse (misuse : Misuse)
  | noStartSymbol (grammar : String)
  | noGrammarIn (path : String)
  /-- A name or key that is not there. -/
  | absent
  | outOfRange
  | wrongType
  /-- A value of the right type that is not acceptable, such as a draw from an empty range. -/
  | unacceptable
  /-- A number too large for a float. -/
  | tooLarge
  | divisionByZero
  | noAttribute
  | fileNotFound
  /-- A folder where a file is meant. -/
  | isFolder
  /-- A file where a folder is meant to lead on. -/
  | notFolder
  /-- A file where a folder is to be made. -/
  | inTheWay
  | clientMissing
deriving DecidableEq, Repr

/-- The text of a fault that has one. -/
def Fault.message? : Fault → Option String
  | configuration cause => some cause.message
  | misuse m => some m.message
  | noStartSymbol grammar => some s!"Grammar '{grammar}' has no start symbol"
  | noGrammarIn path => some s!"No grammar 'g' found in {path}"
  | _ => none

/-- A computation that may be refused. What it changed before it was refused stays changed. -/
abbrev Attempt (σ α : Type) : Type := EStateM Fault σ α

/-- What needs no state can be attempted in any. -/
instance {σ : Type} : MonadLift (Except Fault) (EStateM Fault σ) where
  monadLift x s :=
    match x with
    | .ok a => .ok a s
    | .error fault => .error fault s

/-- Runs an attempt on a part of the state. -/
def Attempt.on {σ τ α : Type} (part : σ → τ) (put : τ → σ → σ) (run : Attempt τ α) :
    Attempt σ α := fun s =>
  match run (part s) with
  | .ok a t => .ok a (put t s)
  | .error fault t => .error fault (put t s)

/-- A change that keeps what it did before a fault. -/
def Attempt.settle {σ : Type} : Option Fault × σ → Attempt σ Unit
  | (none, s) => fun _ => .ok () s
  | (some fault, s) => fun _ => .error fault s

/-- A value that may be missing, where missing it is a fault. -/
def require {α : Type} (fault : Fault) : Option α → Except Fault α
  | some a => .ok a
  | none => .error fault

def refuse {α : Type} (cause : Misconfiguration) : Except Fault α := .error (.configuration cause)

end ProbeForge
