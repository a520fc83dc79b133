import ProbeForge.Grammars.Arithmetic
import ProbeForge.Grammars.SelectCore

/-!
# The grammar library

Grammar definitions under the names by which they are asked for. Definitions come from modules,
which are named by dotted paths; a module offers its definition under the attribute `g`.
-/

namespace ProbeForge

structure Library where
  definitions : OrderedMap String Definition

namespace Library

def empty : Library := ⟨∅⟩

/-- The modules that offer a definition. -/
def modules : List (String × Definition) :=
  [("grammars.select_core", Grammars.selectCore), ("grammars.arith", Grammars.arithmetic)]

def standardAttribute : String := "g"

def offered? (path attr : String) : Option Definition :=
  if attr = standardAttribute then modules.lookup path else none

def names (l : Library) : List String := l.definitions.keys

def find? (l : Library) (name : String) : Option Definition := l.definitions.find? name

def register (l : Library) (name : String) (d : Definition) : Library :=
  ⟨l.definitions.insert name d⟩

/-- Registers what a module offers; a module that is missing or offers nothing changes nothing. -/
def load (l : Library) (name path attr : String) : Bool × Library :=
  match offered? path attr with
  | some d => (true, l.register name d)
  | none => (false, l)

/-- Like `load`, where a path that names no module at all is refused. -/
def loadBuiltIn (l : Library) (name path attr : String) : Except Fault (Bool × Library) :=
  match path.toList with
  | [] => .error .unacceptable
  | '.' :: _ => .error .wrongType
  | _ => .ok (l.load name path attr)

def builtIns : List (String × String) :=
  [("select_core", "grammars.select_core"), ("arith", "grammars.arith")]

/-- The library with the built-in definitions, and how many there are. -/
def loadBuiltIns (l : Library) : Nat × Library :=
  builtIns.foldl
    (fun (count, l) (name, path) =>
      let (loaded, l) := l.load name path standardAttribute
      (if loaded then count + 1 else count, l))
    (0, l)

/-- `base`, or else the first of `base_2`, `base_3`, … that is free. -/
def uniqueName (l : Library) (base : String) : String :=
  if !l.definitions.contains base then base
  else
    -- there are more candidates than names in use
    let candidates := (List.range (l.definitions.size + 1)).map fun i => s!"{base}_{i + 2}"
    (candidates.find? (!l.definitions.contains ·)).getD base

def lastPart (path : String) : String :=
  String.ofList ((Text.cutAt (· = '.') path.toList).getLast?.getD [])

/-- The variable that lists further modules. -/
def pathVariable : String := "PYORION_GRAMMARS"

/-- Loads the modules of a list with commas, each under a name of its own. -/
def loadListed (l : Library) (value : String) : Nat × Library :=
  let paths := (Text.cutAt (· = ',') value.toList).map fun cs => Text.strip (String.ofList cs)
  (paths.filter (!·.isEmpty)).foldl
    (fun (count, l) path =>
      let (loaded, l) := l.load (l.uniqueName (lastPart path)) path standardAttribute
      (if loaded then count + 1 else count, l))
    (0, l)

/-- The module that a name stands for: slashes are dots, and dots at the end do not count. -/
def moduleOf (name : String) : String :=
  let dotted := ("grammars." ++ name).toList.map fun c => if c = '/' then '.' else c
  String.ofList (dotted.reverse.dropWhile (· = '.')).reverse

/-- Whether there is a definition of a name, after looking for a module of that name. -/
def loadByName (l : Library) (name : String) : Bool × Library :=
  if l.definitions.contains name then (true, l) else l.load name (moduleOf name) standardAttribute

def addAlias (l : Library) (name aliasName : String) : Except Fault Library :=
  match l.find? name with
  | some d => .ok (l.register aliasName d)
  | none => .error .absent

/-- A name that is no text cannot stand for a module. -/
def nameOf (name : Json) : Except Fault String := do
  name.requireKey
  require .noAttribute name.text?

/-- A fresh grammar of a name. What was loaded for it stays loaded. -/
def build (l : Library) (name : String) : Except Fault Grammar × Library :=
  let (_, l) := l.loadByName name
  match l.find? name with
  | some d => (d.build, l)
  | none => (refuse (.grammarNotFound name (", ".intercalate l.names.mergeSort)), l)

end Library

end ProbeForge
