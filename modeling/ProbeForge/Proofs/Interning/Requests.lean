import ProbeForge.Proofs.Outcome
import ProbeForge.Rule

/-!
# Requests to catalogs

A catalog of symbols and a catalog of rules are called with arguments of any kind. If they are valid
they say what is asked for: a name or a rule. If they are not, the call is refused.
-/

namespace ProbeForge.Interning

/-! ### Requests -/

/-- Whether something is asked for that may be there already, or that must be new. -/
inductive Way where
  | intern
  | register
deriving DecidableEq

/-- A call of one of the catalogs, with arguments of any kind. The right side of a rule may be
nothing that can be gone through. -/
inductive Request where
  | symbol (way : Way) (name : Json)
  | rule (way : Way) (left : Operand) (right : Except Fault (List Operand))

structure Catalogs where
  symbols : SymbolCatalog
  rules : RuleCatalog

def Catalogs.empty : Catalogs := ⟨.empty, .empty⟩

/-- What a catalog gives out: a symbol or a rule, told from others by its number. -/
inductive Object where
  | symbol (serial : Nat) (symbol : Symbol)
  | rule (serial : Nat) (rule : Rule)
deriving DecidableEq

def Way.symbol (catalog : SymbolCatalog) (name : Json) :
    Way → Except Fault ((Nat × Symbol) × SymbolCatalog)
  | intern => catalog.internName name
  | register => catalog.registerName name

def Way.rule (catalog : RuleCatalog) (left : Operand) (right : Except Fault (List Operand)) :
    Way → Except Fault ((Nat × Rule) × RuleCatalog)
  | intern => catalog.internSides left right
  | register => catalog.registerSides left right

def Request.way : Request → Way
  | symbol way _ => way
  | rule way _ _ => way

/-- The object that a request gives, with the catalogs afterwards. -/
def Request.run (c : Catalogs) : Request → Except Fault (Object × Catalogs)
  | symbol way name =>
    (way.symbol c.symbols name).map fun ((serial, s), symbols) =>
      (.symbol serial s, { c with symbols })
  | rule way left right =>
    (way.rule c.rules left right).map fun ((serial, r), rules) =>
      (.rule serial r, { c with rules })

/-- A request that is refused leaves the catalogs as they are. -/
def Catalogs.next (c : Catalogs) (request : Request) : Catalogs :=
  match request.run c with
  | .ok (_, next) => next
  | .error _ => c

def Catalogs.after (requests : List Request) : Catalogs := requests.foldl next .empty

/-! ### Identities -/

/-- What there is one object for. -/
inductive Identity where
  | name (name : String)
  | sides (rule : Rule)
deriving DecidableEq

def Identity.name? : Identity → Option String
  | name n => some n
  | sides _ => none

def Identity.rule? : Identity → Option Rule
  | name _ => none
  | sides r => some r

def Object.identity : Object → Identity
  | symbol _ s => .name s.name
  | rule _ r => .sides r

/-- Why something that must be new is refused if it is not. -/
def Identity.twice : Identity → Misconfiguration
  | name n => .symbolTwice n
  | sides r => .ruleTwice r.text

def symbol? : Operand → Option Symbol
  | .symbol s => some s
  | .other _ => none

def rule? (left : Operand) (right : Except Fault (List Operand)) : Option Rule := do
  return ⟨← symbol? left, ← (← right.toOption).mapM symbol?⟩

/-- What a request is for if its arguments are valid: a name is a text that is not empty, and the
sides of a rule are made up of symbols. -/
def Request.identity? : Request → Option Identity
  | symbol _ (.text name) => if name.isEmpty then none else some (.name name)
  | symbol _ _ => none
  | rule _ left right => (rule? left right).map .sides

/-- The object that there is for an identity. -/
def Catalogs.find? (c : Catalogs) : Identity → Option Object
  | .name n => (c.symbols.find? n).map fun s => .symbol (c.symbols.serial s) s
  | .sides r => (c.rules.find? r).map fun (serial, r) => .rule serial r

/-- What a walk through the symbols visits. -/
def Catalogs.symbolObjects (c : Catalogs) : List Object :=
  c.symbols.symbols.map fun s => .symbol (c.symbols.serial s) s

def Catalogs.ruleObjects (c : Catalogs) : List Object :=
  c.rules.rules.map fun (serial, r) => .rule serial r

section Valid

variable {identity : Identity} {way : Way} {name : Json} {left : Operand}
  {right : Except Fault (List Operand)}

theorem symbol_valid
    (h : (Request.symbol way name).identity? = some identity) :
    ∃ n, name = .text n ∧ n.isEmpty = false ∧ identity = .name n := by
  cases name with
  | text n =>
    obtain ⟨hn, hidentity⟩ := Option.ite_none_left_eq_some.mp h
    exact ⟨n, rfl, Bool.eq_false_iff.mpr hn, (Option.some.inj hidentity).symm⟩
  | _ => cases h

theorem internName_invalid (catalog : SymbolCatalog)
    (h : (Request.symbol way name).identity? = none) :
    ∃ fault, catalog.internName name = .error fault := by
  cases name with
  | text n =>
    cases hn : n.isEmpty with
    | true => exact ⟨_, if_pos hn⟩
    | false => simp [Request.identity?, hn] at h
  | _ => exact ⟨_, rfl⟩

theorem symbol_invalid (catalog : SymbolCatalog)
    (h : (Request.symbol way name).identity? = none) :
    ∃ fault, way.symbol catalog name = .error fault := by
  cases way with
  | intern => exact internName_invalid catalog h
  | register =>
    cases name with
    | text n =>
      change ∃ fault, catalog.register n = .error fault
      rw [SymbolCatalog.register]
      split
      · exact ⟨_, rfl⟩
      · exact internName_invalid catalog h
    | list | record => exact ⟨_, rfl⟩
    | _ => exact internName_invalid catalog h

theorem rightOf_eq (left : Symbol) (operands : List Operand) :
    (Rule.rightOf left operands).toOption = operands.mapM symbol? := by
  induction operands with
  | nil => rfl
  | cons operand operands ih =>
    rw [List.mapM_cons, ← ih]
    cases operand with
    | symbol s =>
      change ((Rule.rightOf left operands).map (s :: ·)).toOption = _
      cases Rule.rightOf left operands <;> rfl
    | other value => rfl

theorem ofSides_eq (left : Operand) (right : Except Fault (List Operand)) :
    (Rule.ofSides left right).toOption = rule? left right := by
  cases left with
  | symbol left =>
    cases right with
    | ok operands =>
      change ((Rule.rightOf left operands).bind fun right => .ok (⟨left, right⟩ : Rule)).toOption =
        (operands.mapM symbol?).bind fun right => some (⟨left, right⟩ : Rule)
      rw [← rightOf_eq left]
      cases Rule.rightOf left operands <;> rfl
    | error fault => rfl
  | other value => rfl

theorem rule_valid (h : (Request.rule way left right).identity? = some identity) :
    ∃ r, Rule.ofSides left right = .ok r ∧ identity = .sides r := by
  obtain ⟨r, hr, rfl⟩ := Option.map_eq_some_iff.mp h
  rw [← ofSides_eq, toOption_some] at hr
  exact ⟨r, hr, rfl⟩

theorem rule_invalid (catalog : RuleCatalog)
    (h : (Request.rule way left right).identity? = none) :
    ∃ fault, way.rule catalog left right = .error fault := by
  have hnone := Option.map_eq_none_iff.mp h
  rw [← ofSides_eq, toOption_none] at hnone
  obtain ⟨fault, hfault⟩ := hnone
  refine ⟨fault, ?_⟩
  cases way with
  | intern => rw [Way.rule, RuleCatalog.internSides, hfault]; rfl
  | register => rw [Way.rule, RuleCatalog.registerSides, hfault]; rfl

end Valid

end ProbeForge.Interning
