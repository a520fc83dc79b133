import ProbeForge.OrderedMap
import ProbeForge.Symbol

/-!
# Production rules

The catalog keeps one rule for each pair of sides, grouped by left side in the order of each side's
first rule. A rule's serial number is its place in the order of creation.
-/

namespace ProbeForge

structure Rule where
  left : Symbol
  right : List Symbol
deriving DecidableEq, Repr, Inhabited

def Rule.text (rule : Rule) : String :=
  " ".intercalate (rule.left.name :: "==>" :: rule.right.map (·.name))

/-- What a caller may hand in as a side of a rule. -/
inductive Operand where
  | symbol (symbol : Symbol)
  | other (value : Json)

def Rule.rightOf (left : Symbol) : List Operand → Except Fault (List Symbol)
  | [] => .ok []
  | .symbol s :: rest => (rightOf left rest).map (s :: ·)
  | .other value :: _ => refuse (.ruleRight left.name value.shown)

/-- The left side is looked at before the right one is gone through, which may be refused too. -/
def Rule.ofSides (left : Operand) (right : Except Fault (List Operand)) : Except Fault Rule :=
  match left with
  | .symbol left => do return ⟨left, ← rightOf left (← right)⟩
  | .other value => refuse (.ruleLeft value.shown)

def Rule.ofOperands (left : Operand) (right : List Operand) : Except Fault Rule :=
  ofSides left (.ok right)

structure RuleCatalog where
  groups : OrderedMap Symbol (List (Nat × Rule))
  created : Nat

namespace RuleCatalog

def empty : RuleCatalog := ⟨∅, 0⟩

def group (catalog : RuleCatalog) (left : Symbol) : List (Nat × Rule) :=
  (catalog.groups.find? left).getD []

def find? (catalog : RuleCatalog) (rule : Rule) : Option (Nat × Rule) :=
  (catalog.group rule.left).find? (·.2 == rule)

/-- The rule with its serial number, made on first use. -/
def intern (catalog : RuleCatalog) (rule : Rule) : (Nat × Rule) × RuleCatalog :=
  match catalog.find? rule with
  | some known => (known, catalog)
  | none =>
    let made := (catalog.created, rule)
    (made, ⟨catalog.groups.insert rule.left (catalog.group rule.left ++ [made]),
      catalog.created + 1⟩)

def register (catalog : RuleCatalog) (rule : Rule) :
    Except Fault ((Nat × Rule) × RuleCatalog) :=
  if (catalog.find? rule).isSome then refuse (.ruleTwice rule.text)
  else .ok (catalog.intern rule)

/-- Like `intern`, for sides of any kind. -/
def internSides (catalog : RuleCatalog) (left : Operand) (right : Except Fault (List Operand)) :
    Except Fault ((Nat × Rule) × RuleCatalog) :=
  (Rule.ofSides left right).map catalog.intern

def registerSides (catalog : RuleCatalog) (left : Operand) (right : Except Fault (List Operand)) :
    Except Fault ((Nat × Rule) × RuleCatalog) := do
  catalog.register (← Rule.ofSides left right)

def rules (catalog : RuleCatalog) : List (Nat × Rule) := catalog.groups.values.flatten

def size (catalog : RuleCatalog) : Nat := catalog.rules.length

end RuleCatalog

end ProbeForge
