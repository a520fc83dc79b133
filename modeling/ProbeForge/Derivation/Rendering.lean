import ProbeForge.Derivation.Growth
import ProbeForge.Text.Blank

/-!
# Rendering a derivation tree

Each expanded node is turned into text by the representer of its rule, which decides when its
children are rendered and how their texts are joined. Names are resolved on the way, through the
cursor of the segment that is current, so the order of rendering matters. Rendering goes down a
limited number of levels.
-/

namespace ProbeForge

abbrev RenderM (ρ α : Type) : Type := EStateM Halt (Scope ρ) α

namespace Rendering

/-- Trees deeper than this are not rendered. -/
def levels : Nat := 250

/-- The texts that are not empty, with no space at the ends. -/
def joinTexts (between : String) (texts : List String) : String :=
  Text.strip (between.intercalate (texts.filter (!·.isEmpty)))

def joinStripped (texts : List String) : String := String.join (texts.map Text.strip)

/-- No space before a comma. -/
def closeCommas : List Char → List Char
  | ' ' :: ',' :: rest => ',' :: closeCommas rest
  | c :: rest => c :: closeCommas rest
  | [] => []

/-- The inner one of three texts, without the outer two, in tight parentheses. -/
def parenthesized (texts : List String) : String :=
  let inner := match texts with
    | _ :: inner :: _ :: _ => inner
    | _ => joinTexts " " texts
  "(" ++ Text.strip inner ++ ")"

def payloadText {ρ : Type} (s : Scope ρ) : Payload → String
  | .text t => t
  | .source d => d.text
  | .block id => (s.catalog.segment id).summary

/-- Whether a part of the tree opens a query block. -/
def opensBlock (tree : Tree) (i : Nat) : Bool :=
  (tree.walk i 0).any fun (_, k) => (tree.nodes[k]?.bind (·.segment)).isSome

variable {ρ : Type} [RandomSource ρ] {α : Type}

def fail (failure : RenderFailure) : RenderM ρ α := throw (.failure failure)

def inScope (run : ScopeAttempt ρ α) : RenderM ρ α :=
  EStateM.adaptExcept (fun misuse => .fault (.misuse misuse)) run

/-- Runs `body` in a segment, and leaves the segment whatever comes of it. -/
def inBlock (id : SegmentId) (body : RenderM ρ α) : RenderM ρ α := fun s =>
  let ((), s) := Scope.enter id s
  match body s with
  | .ok a s =>
    match inScope Scope.pop s with
    | .ok _ s => .ok a s
    | .error halt s => .error halt s
  | .error halt s =>
    match inScope Scope.pop s with
    | .ok _ s => .error halt s
    | .error halt s => .error halt s

/-- The texts of the children in their order, those that open a block rendered before the others. -/
def blocksFirst (tree : Tree) (children : List Nat) (render : Nat → RenderM ρ String) :
    RenderM ρ (List String) := do
  let positions := List.range children.length
  let opens (k : Nat) : Bool := opensBlock tree (children.getD k 0)
  let order := positions.filter opens ++ positions.filter (!opens ·)
  -- the texts are put back into the order of the children afterwards
  let texts ← order.mapM fun k => do return (k, ← render (children.getD k 0))
  return positions.map fun k => (texts.lookup k).getD ""

def represent (tree : Tree) (u : Universe) (node : Node) (render : Nat → RenderM ρ String) :
    Representer → RenderM ρ String
  | .spaced => joinTexts " " <$> node.children.mapM render
  | .tight => joinTexts "" <$> node.children.mapM render
  | .tightUnary | .tightBinary => joinStripped <$> node.children.mapM render
  | .tightParen => parenthesized <$> node.children.mapM render
  | .commaList => do
    let text := joinTexts " " (← node.children.mapM render)
    return String.ofList (closeCommas text.toList)
  | .unimplemented => fail (.unimplemented node.symbol.name)
  | .payloadText =>
    match node.payload with
    | none => joinTexts " " <$> node.children.mapM render
    | some payload => do return payloadText (← get) payload
  | .payloadName =>
    match node.payload with
    | some (.source d) => return d.name
    | _ => fail (.noSource node.symbol.name)
  | .payloadSchema =>
    match node.payload with
    | some (.source d) =>
      let schema := d.schema.getD ""
      return if schema.isEmpty then Scope.unknownSchema else schema
    | _ => fail (.noSchema node.symbol.name)
  | .sequenceLiteral =>
    match node.payload with
    | some (.source d) => return "'" ++ d.name ++ "'"
    | _ => fail (.noSequence node.symbol.name)
  | .sourcesFirst => joinTexts " " <$> blocksFirst tree node.children render
  | .outputColumn => do
    let text := joinTexts " " (← node.children.mapM render)
    -- the column that was just written becomes an output of the block
    let _ ← inScope Scope.exportColumn
    return text
  | .tableName => inScope Scope.chooseTable
  | .tableAlias => inScope Scope.chooseAlias
  | .columnName => inScope Scope.chooseColumn
  | .columnRef => do
    let aliasName ← inScope Scope.chooseAlias
    let column ← inScope Scope.chooseColumn
    return aliasName ++ "." ++ column
  | .columnAlias => inScope Scope.chooseColumnAlias
  | .schemaName => inScope (Scope.chooseSchema u)
  | .block =>
    match node.segment with
    | none => fail (.noSegment node.symbol.name)
    | some id => inBlock id (joinTexts " " <$> node.children.mapM render)
  | .blockEnd => return ""

/-- The text of the tree below `i`, over a number of levels. -/
def render (g : Grammar) (tree : Tree) (u : Universe) : Nat → Nat → RenderM ρ String
  | 0, _ => throw .tooDeep
  | levels + 1, i =>
    match tree.nodes[i]? with
    | none => throw (.fault .outOfRange)
    | some node =>
      if node.isExpanded then
        match Representer.resolve node.representer with
        | .ok representer => represent tree u node (render g tree u levels) representer
        | .error fault => throw (.fault fault)
      else return (g.textOf node.symbol).plain

end Rendering

end ProbeForge
