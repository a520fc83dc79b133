import ProbeForge.OrderedMap
import ProbeForge.Settings

/-!
# Arguments

A command line names a command and then options in any order. An option may be shortened as long as
only one option of the command begins that way, and its value may follow it after an equals sign.
What begins with a dash is an option unless it is a number or has a space in it.
-/

namespace ProbeForge.CommandLine

inductive ValueKind where
  | text
  | integer
  | real
  | mode
deriving DecidableEq, Repr

inductive Arity where
  /-- The option stands alone. -/
  | flag
  | single (kind : ValueKind)
  /-- The option takes a text each time it is given. -/
  | repeated
deriving DecidableEq, Repr

/-- An option and the key under which its value is kept. -/
structure OptionSpec where
  name : String
  key : String
  arity : Arity
deriving DecidableEq, Repr

inductive Command where
  | list
  | generate
  | analyze
  | validate
  | dump
  | tournament
deriving DecidableEq, Repr

namespace Command

def all : List Command := [list, generate, analyze, validate, dump, tournament]

def name : Command → String
  | list => "list"
  | generate => "generate"
  | analyze => "analyze"
  | validate => "validate"
  | dump => "dump"
  | tournament => "tournament"

def ofName? (name : String) : Option Command := all.find? (·.name == name)

def help : OptionSpec := ⟨"--help", "help", .flag⟩

def shared : List OptionSpec :=
  [⟨"--grammar", "grammar", .single .text⟩, ⟨"--start", "start_symbol", .single .text⟩,
    ⟨"--seed", "seed", .single .integer⟩, ⟨"--weights", "weights_file", .single .text⟩,
    ⟨"--universe", "universe_file", .single .text⟩, ⟨"--dsn", "dsn", .single .text⟩,
    ⟨"--schema", "schemas", .repeated⟩, ⟨"--top-weight", "top_weight", .single .integer⟩,
    ⟨"--max-radius", "max_radius", .single .real⟩, ⟨"--verbose", "verbose", .flag⟩]

def own : Command → List OptionSpec
  | list => []
  | generate =>
    [⟨"--count", "count", .single .integer⟩, ⟨"--output", "output", .single .text⟩,
      ⟨"--tag-seed", "tag_seed", .flag⟩]
  | analyze => [⟨"--frontier", "frontier", .flag⟩]
  | validate => [⟨"--no-adjust", "no_adjust", .flag⟩, ⟨"--output", "output", .single .text⟩]
  | dump => [⟨"--bnf", "bnf", .flag⟩]
  | tournament =>
    [⟨"--population", "population", .single .integer⟩, ⟨"--rounds", "rounds", .single .integer⟩,
      ⟨"--probes", "probe_count", .single .integer⟩, ⟨"--mutation", "mutation", .single .mode⟩,
      ⟨"--crossover", "crossover", .single .mode⟩, ⟨"--special", "special_codes", .repeated⟩,
      ⟨"--exemplars", "exemplars_file", .single .text⟩,
      ⟨"--statement-timeout", "statement_timeout", .single .integer⟩,
      ⟨"--work-dir", "work_dir", .single .text⟩, ⟨"--save-files", "save_files", .flag⟩,
      ⟨"--dry-run", "dry_run", .flag⟩, ⟨"--output", "output", .single .text⟩]

def options (c : Command) : List OptionSpec := help :: (shared ++ c.own)

end Command

/-! ### Words -/

/-- What an argument is taken for. -/
inductive Word where
  | value (text : String)
  | option (spec : OptionSpec) (given : Option String)
  | unknown (text : String)
  /-- Every argument after this one is a value. -/
  | separator
  /-- Several options begin like this. -/
  | ambiguous
  /-- A short option with a value that it does not take. -/
  | malformed
deriving DecidableEq, Repr

/-- Digits with at most one point before the last of them, after a minus sign. -/
def isNegativeNumber (cs : List Char) : Bool :=
  match cs with
  | '-' :: rest =>
    let isDigit (c : Char) : Bool := (Text.digitValue? c).isSome
    let whole := rest.takeWhile isDigit
    match rest.dropWhile isDigit with
    | [] => !whole.isEmpty
    | ['\n'] => !whole.isEmpty
    | '.' :: places =>
      let decimals := places.takeWhile isDigit
      let rest := places.drop decimals.length
      !decimals.isEmpty && (rest == [] || rest == ['\n'])
    | _ => false
  | _ => false

/-- The part before the first equals sign and the part after it. -/
def splitValue (arg : String) : String × Option String :=
  let cs := arg.toList
  let name := cs.takeWhile (· ≠ '=')
  match cs.drop name.length with
  | _ :: value => (String.ofList name, some (String.ofList value))
  | [] => (arg, none)

/-- What an argument that begins with a dash and is no option is. -/
def plainWord (arg : String) : Word :=
  if isNegativeNumber arg.toList || arg.toList.contains ' ' then .value arg else .unknown arg

def longWord (specs : List OptionSpec) (arg : String) : Word :=
  let (stem, value) := splitValue arg
  match specs.find? (·.name == arg), specs.find? (·.name == stem) with
  -- the whole argument may be an option's name although it has an equals sign
  | some spec, _ => .option spec none
  | none, some spec => .option spec value
  | none, none =>
    match specs.filter fun spec => stem.toList.isPrefixOf spec.name.toList with
    | [] => plainWord arg
    | [spec] => .option spec value
    | _ => .ambiguous

/-- Help is the only short option. What else hangs on it does not count, but a dash or an equals
sign may not. -/
def shortWord (arg : String) (cs : List Char) : Word :=
  match cs with
  | 'h' :: more =>
    match more.dropWhile (· = 'h') with
    | '-' :: _ | '=' :: _ => .malformed
    | _ => .option Command.help none
  | _ => plainWord arg

def wordOf (specs : List OptionSpec) (arg : String) : Word :=
  match arg.toList with
  | '-' :: '-' :: [] => .separator
  | '-' :: '-' :: _ => longWord specs arg
  | '-' :: c :: cs => shortWord arg (c :: cs)
  | _ => .value arg

def wordsOf (specs : List OptionSpec) : List String → List Word
  | [] => []
  | arg :: rest =>
    match wordOf specs arg with
    | .separator => .separator :: rest.map .value
    | word => word :: wordsOf specs rest

/-! ### Reading -/

inductive Usage where
  /-- Help was asked for. -/
  | help
  /-- The command line cannot be read. -/
  | wrong
deriving DecidableEq, Repr

structure Arguments where
  command : Command
  values : Settings.Values

def readValue (kind : ValueKind) (text : String) : Option Json :=
  match kind with
  | .text => some (.text text)
  | .integer => (Text.readInteger text).map .int
  | .real => (Text.readReal text).map .real
  | .mode => (GeneMode.ofName? text).map fun mode => .text mode.name

def put (values : OrderedMap String Json) (key : String) (value : Json) : OrderedMap String Json :=
  values.insert key value

def append (values : OrderedMap String Json) (key text : String) : OrderedMap String Json :=
  match values.find? key with
  | some (.list given) => values.insert key (.list (given ++ [.text text]))
  | _ => values.insert key (.list [.text text])

/-- Enters a value that an option takes. -/
def enter (values : OrderedMap String Json) (spec : OptionSpec) (text : String) :
    Except Usage (OrderedMap String Json) :=
  match spec.arity with
  | .flag => .error .wrong
  | .single kind =>
    match readValue kind text with
    | some value => .ok (put values spec.key value)
    | none => .error .wrong
  | .repeated => .ok (append values spec.key text)

/-- Reads the options of a command; `stray` tells whether anything out of place was met, which
counts only in the end. -/
def readOptions : List Word → Bool → OrderedMap String Json →
    Except Usage (OrderedMap String Json)
  | [], stray, values => if stray then .error .wrong else .ok values
  | .option spec (some text) :: rest, stray, values => do
    readOptions rest stray (← enter values spec text)
  | .option spec none :: rest, stray, values =>
    match spec.arity with
    | .flag =>
      if spec = Command.help then .error .help
      else readOptions rest stray (put values spec.key (.bool true))
    | _ =>
      match rest with
      | .value text :: rest => do readOptions rest stray (← enter values spec text)
      | _ => .error .wrong
  | .malformed :: _, _, _ => .error .wrong
  | .value _ :: rest, _, values | .unknown _ :: rest, _, values | .separator :: rest, _, values
  | .ambiguous :: rest, _, values => readOptions rest true values

/-- Arguments before the command are out of place. -/
def readFrom : Bool → List String → Except Usage Arguments
  | _, [] => .error .wrong
  | stray, arg :: rest =>
    match wordOf [Command.help] arg with
    | .option _ none => .error .help
    | .unknown _ => readFrom true rest
    | .value name =>
      match Command.ofName? name with
      | none => .error .wrong
      | some command => do
        let words := wordsOf command.options rest
        -- found before any value is looked at, and before help is given
        if words.contains .ambiguous then .error .wrong
        else
          let values ← readOptions words stray ∅
          return ⟨command, values.entries⟩
    | _ => .error .wrong

def read (args : List String) : Except Usage Arguments := readFrom false args

namespace Arguments

/-- The value of an option; null if it was not given. -/
def value (a : Arguments) (key : String) : Json := (Json.record a.values).get key

def isSet (a : Arguments) (key : String) : Bool := (a.value key).isFilled

/-- A file to write to; an empty name asks for none. -/
def output? (a : Arguments) : Option String := (a.value "output").text?.filter (!·.isEmpty)

/-- The values that are settings. -/
def settings (a : Arguments) : Settings.Values :=
  a.values.filter fun (key, _) => Settings.keys.contains key

end Arguments

end ProbeForge.CommandLine
