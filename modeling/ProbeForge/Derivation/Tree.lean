import ProbeForge.Scope.Segment
import ProbeForge.Symbol

/-!
# Derivation trees

Nodes in an array, the root first; a node's children are added after it and have larger places.
Places may also be counted from the end, the last node being -1.
-/

namespace ProbeForge

/-- What a generator leaves in its node. -/
inductive Payload where
  | text (s : String)
  | source (d : SourceDescriptor)
  | block (segment : SegmentId)
deriving DecidableEq, Repr

structure Node where
  symbol : Symbol
  /-- The place the node was added under, as it was given. -/
  parent : Option Int
  children : List Nat
  payload : Option Payload
  segment : Option SegmentId
  /-- The name of the behaviour that renders the node, or null. -/
  representer : Json
  ruleName : Option String
deriving Inhabited

namespace Node

def fresh (symbol : Symbol) (parent : Option Int) : Node :=
  { symbol, parent, children := [], payload := none, segment := none, representer := .null,
    ruleName := none }

def isExpanded (n : Node) : Bool := n.ruleName.isSome

/-- The symbol, the rule if it has a name, and the payload unless it is a block. -/
def label (n : Node) : String :=
  let rule := match n.ruleName with
    | some name => if name.isEmpty then "" else s!"  [{name}]"
    | none => ""
  let payload := match n.payload with
    | some (.text s) => s!"  = {s}"
    | some (.source d) => s!"  = {d.text}"
    | some (.block _) | none => ""
  n.symbol.name ++ rule ++ payload

end Node

structure Tree where
  nodes : Array Node

namespace Tree

def empty : Tree := ⟨#[]⟩

def size (t : Tree) : Nat := t.nodes.size

def root? (t : Tree) : Option Node := t.nodes[0]?

def place? (t : Tree) (i : Int) : Option Nat :=
  let i := if i < 0 then i + t.size else i
  if 0 ≤ i ∧ i < t.size then some i.toNat else none

def modify (t : Tree) (i : Nat) (f : Node → Node) : Tree := ⟨t.nodes.modify i f⟩

/-- A new node without a parent. -/
def addRoot (t : Tree) (symbol : Symbol) : Tree := ⟨t.nodes.push (.fresh symbol none)⟩

/-- A new node under the node at a place of the tree that already has it. A place out of range is
refused, but the node stays. -/
def addUnder (t : Tree) (symbol : Symbol) (parent : Int) : Option Fault × Tree :=
  let grown : Tree := ⟨t.nodes.push (.fresh symbol (some parent))⟩
  match grown.place? parent with
  | some i => (none, grown.modify i fun n => { n with children := n.children ++ [t.size] })
  | none => (some .outOfRange, grown)

/-- New nodes for the symbols of a right side, as the children of an expanded node. -/
def addChildren (t : Tree) (parent : Nat) (symbols : List Symbol) : Tree :=
  let children := List.range' t.size symbols.length
  let nodes := symbols.foldl (fun nodes s => nodes.push (.fresh s (some parent))) t.nodes
  Tree.modify ⟨nodes⟩ parent fun n => { n with children := n.children ++ children }

def childrenOf (t : Tree) (i : Nat) : List Nat := (t.nodes[i]?.map (·.children)).getD []

/-- The nodes below and including `i`, each before its children, with their depths. Only children
that come after their parent count, so the walk ends for any tree. -/
def walk (t : Tree) (i depth : Nat) : List (Nat × Nat) :=
  if i < t.size then
    (depth, i) :: (t.childrenOf i).flatMap fun c =>
      if i < c ∧ c < t.size then walk t c (depth + 1) else []
  else []
termination_by t.size - i

def walkFrom (t : Tree) (i : Int) : Except Fault (List (Nat × Nat)) :=
  match t.place? i with
  | some i => .ok (t.walk i 0)
  | none => .error .outOfRange

/-- One line for each node, indented by its depth; an empty tree has no root to begin with. -/
def format (t : Tree) : Except Fault String :=
  (t.walkFrom 0).map fun steps =>
    "\n".intercalate (steps.filterMap fun (depth, i) =>
      t.nodes[i]?.map fun n => String.ofList (List.replicate (2 * depth) ' ') ++ n.label)

end Tree

end ProbeForge
