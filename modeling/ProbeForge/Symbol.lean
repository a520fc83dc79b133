import ProbeForge.Json.Basic

/-!
# Grammar symbols

A symbol is only a name; whether it is a terminal is decided by the grammar that uses it. The
catalog gives each name one serial number, in the order in which the names first came.
-/

namespace ProbeForge

structure Symbol where
  name : String
deriving DecidableEq, Repr, Inhabited

namespace Symbol

/-- Symbols are ordered as their names are, by code point. -/
def before (a b : Symbol) : Bool := decide (a.name < b.name)

def sort (symbols : List Symbol) : List Symbol := symbols.mergeSort fun a b => !b.before a

end Symbol

structure SymbolCatalog where
  symbols : List Symbol
deriving Repr, DecidableEq

namespace SymbolCatalog

def empty : SymbolCatalog := ⟨[]⟩

def find? (catalog : SymbolCatalog) (name : String) : Option Symbol :=
  catalog.symbols.find? (·.name == name)

def contains (catalog : SymbolCatalog) (name : String) : Bool := (catalog.find? name).isSome

/-- The number of a symbol is its place among those that were made. -/
def serial (catalog : SymbolCatalog) (symbol : Symbol) : Nat := catalog.symbols.idxOf symbol

def size (catalog : SymbolCatalog) : Nat := catalog.symbols.length

/-- The symbol of a name with its number, made on first use. -/
def intern (catalog : SymbolCatalog) (name : String) :
    Except Fault ((Nat × Symbol) × SymbolCatalog) :=
  if name.isEmpty then refuse (.symbolName (Text.quoted name))
  else
    match catalog.find? name with
    | some symbol => .ok ((catalog.serial symbol, symbol), catalog)
    | none => .ok ((catalog.size, ⟨name⟩), ⟨catalog.symbols ++ [⟨name⟩]⟩)

/-- Like `intern`, for a name that must be new. -/
def register (catalog : SymbolCatalog) (name : String) :
    Except Fault ((Nat × Symbol) × SymbolCatalog) :=
  if catalog.contains name then refuse (.symbolTwice name) else catalog.intern name

/-- Only a text can name a symbol. -/
def internName (catalog : SymbolCatalog) : Json → Except Fault ((Nat × Symbol) × SymbolCatalog)
  | .text name => catalog.intern name
  | value => refuse (.symbolName value.shown)

def registerName (catalog : SymbolCatalog) : Json → Except Fault ((Nat × Symbol) × SymbolCatalog)
  | .text name => catalog.register name
  | .list _ | .record _ => .error .wrongType
  | value => catalog.internName value

/-- Like `internName`, without the number. -/
def internValue (catalog : SymbolCatalog) (name : Json) : Except Fault (Symbol × SymbolCatalog) :=
  (catalog.internName name).map fun ((_, symbol), catalog) => (symbol, catalog)

def registerValue (catalog : SymbolCatalog) (name : Json) : Except Fault (Symbol × SymbolCatalog) :=
  (catalog.registerName name).map fun ((_, symbol), catalog) => (symbol, catalog)

end SymbolCatalog

end ProbeForge
