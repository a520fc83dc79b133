import ProbeForge.Random.Source
import ProbeForge.Scope.Segment

/-!
# Scope catalogs

The segments of one generated statement, with the stack of the blocks that are open. While the tree
is built, blocks are pushed and popped and sources registered; while it is rendered, each block's
segment is entered again and its references are chosen through the segment's cursor. All names that
are made up come from one counter and are never used twice.
-/

namespace ProbeForge

structure Catalog where
  segments : Array Segment
  /-- The open segments, innermost first. -/
  stack : List SegmentId
  /-- Blocks opened so far. -/
  opened : Nat
  /-- Names minted so far. -/
  minted : Nat

namespace Catalog

def empty : Catalog := ⟨#[], [], 0, 0⟩

def segment (c : Catalog) (id : SegmentId) : Segment := c.segments.getD id default

def modifySegment (c : Catalog) (id : SegmentId) (f : Segment → Segment) : Catalog :=
  { c with segments := c.segments.modify id f }

def columnList (c : Catalog) (entry : SourceEntry) : List String :=
  match entry.columns with
  | .fixed columns => columns
  | .exportsOf id => (c.segment id).exportedColumns

end Catalog

/-- A catalog with the source its choices are drawn from. -/
structure Scope (ρ : Type) where
  catalog : Catalog
  source : ρ

/-- Scope operations that always succeed. -/
abbrev ScopeM (ρ α : Type) : Type := StateM (Scope ρ) α

/-- Scope operations that need an open segment or a certain cursor. -/
abbrev ScopeAttempt (ρ α : Type) : Type := EStateM Misuse (Scope ρ) α

namespace Scope

def unknownSchema : String := "UNKNOWN_SCHEMA"

section Choices

variable {ρ : Type} [RandomSource ρ] {α : Type}

def draw (f : ρ → α × ρ) : ScopeM ρ α := fun s =>
  let (a, source) := f s.source
  (a, { s with source })

def chooseFrom (x : α) (xs : List α) : ScopeM ρ α := draw (RandomSource.choose x xs)

def segmentAt (id : SegmentId) : ScopeM ρ Segment := fun s => (s.catalog.segment id, s)

def update (id : SegmentId) (f : Segment → Segment) : ScopeM ρ Unit := fun s =>
  ((), { s with catalog := s.catalog.modifySegment id f })

/-! ### Segments -/

/-- A new name that begins with `stem`. -/
def mint (id : SegmentId) (stem : String) : ScopeM ρ String := fun s =>
  match (s.catalog.segment id).ownMinted with
  | some n =>
    (s!"{stem}_{n + 1}",
      { s with catalog := s.catalog.modifySegment id ({ · with ownMinted := some (n + 1) }) })
  | none =>
    let n := s.catalog.minted + 1
    (s!"{stem}_{n}", { s with catalog := { s.catalog with minted := n } })

/-- A source without columns, under a name of its own. -/
def addPlaceholder (id : SegmentId) (kind : SourceKind) (stem : String) :
    ScopeM ρ SourceDescriptor := do
  let name ← mint id stem
  let entry : SourceEntry := ⟨name, name, kind, none, .fixed []⟩
  update id (·.putSource entry)
  return entry.descriptor

/-- Registers a random object of a kind, one that the segment does not have yet if there is one. -/
def addPhysical (u : Universe) (id : SegmentId) (kind : SourceKind) :
    ScopeM ρ SourceDescriptor := do
  let segment ← segmentAt id
  let objects := u.objectsOf kind
  let isUsed (o : SourceObject) : Bool :=
    segment.sources.values.any fun e =>
      e.kind == kind && e.schema == o.schemaText? && e.name == o.nameText
  let unused := objects.filter (!isUsed ·)
  -- once all objects are used, one comes again
  match (if unused.isEmpty then objects else unused) with
  | [] => addPlaceholder id kind s!"UNKNOWN_{kind.name}"
  | first :: rest =>
    let o ← chooseFrom first rest
    -- two schemas may have objects of one name
    let name := o.nameText
    let aliasName ← if segment.sources.contains name then mint id name else pure name
    update id (·.putSource ⟨name, aliasName, kind, o.schemaText?, .fixed o.columnTexts⟩)
    let schema := if segment.hasFlag Segment.schemaFlag then o.schemaText? else none
    return ⟨schema, name, aliasName, kind⟩

/-- Gives a source an alias of its own unless it has one. -/
def addSourceAlias (id : SegmentId) (key : String) : ScopeM ρ Aliasing := do
  let segment ← segmentAt id
  match segment.sources.find? key with
  | none => return .placeholder (← mint id "UNKNOWN_ALIAS")
  | some entry =>
    if entry.aliasName = entry.name then
      let aliasName ← mint id key
      update id (·.rename key aliasName entry)
      return .source { entry.descriptor with aliasName }
    else return .source entry.descriptor

def unknownTable (id : SegmentId) : ScopeM ρ SourceDescriptor := do
  let name ← mint id "UNKNOWN_TABLE"
  return ⟨none, name, name, .table⟩

def findSource (id : SegmentId) (aliasName : String) : ScopeM ρ SourceDescriptor := do
  match (← segmentAt id).sources.find? aliasName with
  | some entry => return entry.descriptor
  | none => unknownTable id

/-- A random source that can be referred to. One whose columns are not known yet, an inline view
that is not rendered so far, is taken only if there is no other. -/
def anySource (id : SegmentId) : ScopeM ρ SourceDescriptor := do
  let catalog := (← get).catalog
  let candidates := (catalog.segment id).sources.entries.filter (Segment.isReferenceable ·.2)
  let known := candidates.filter fun (_, entry) => !(catalog.columnList entry).isEmpty
  match (if known.isEmpty then candidates else known).map (·.1) with
  | [] => unknownTable id
  | first :: rest => findSource id (← chooseFrom first rest)

/-! ### Columns -/

/-- Notes that a column of a source is used. Its first use needs no alias. -/
def pickColumn (id : SegmentId) (column source : String) : ScopeM ρ String := do
  match (← segmentAt id).columns.find? column with
  | none =>
    update id fun s => { s with columns := s.columns.insert column ⟨[(column, source)]⟩ }
    return column
  | some aliases =>
    let aliasName ← mint id column
    update id fun s =>
      { s with columns := s.columns.insert column (aliases.insert aliasName source) }
    return aliasName

/-- Picks a column of a source that may be missing or have no columns. -/
def addColumnOf (id : SegmentId) (entry : Option SourceEntry) : ScopeM ρ ColumnDescriptor := do
  let catalog := (← get).catalog
  match entry with
  | none =>
    -- the column, the source and its alias are all made up
    let column ← mint id "UNKNOWN_COLUMN"
    let name ← mint id "UNKNOWN"
    let aliasName ← mint id name
    return ⟨none, some name, aliasName, column, column⟩
  | some entry =>
    match catalog.columnList entry with
    | [] =>
      let column ← mint id "UNKNOWN_COLUMN"
      return ⟨none, some entry.name, entry.aliasName, column, column⟩
    | first :: rest =>
      let column ← chooseFrom first rest
      let columnAlias ← pickColumn id column entry.aliasName
      let schema := if entry.kind.isPhysical then entry.schema else none
      return ⟨schema, some entry.name, entry.aliasName, column, columnAlias⟩

def addColumn (id : SegmentId) (source : String) : ScopeM ρ ColumnDescriptor := do
  addColumnOf id ((← segmentAt id).sources.find? source)

/-- Picks a column of a random source. -/
def addAnyColumn (id : SegmentId) : ScopeM ρ ColumnDescriptor := do
  match (← segmentAt id).sources.keys with
  | [] => addColumnOf id none
  | first :: rest => addColumn id (← chooseFrom first rest)

/-- One of the columns picked before, of one source or of any. -/
def pickedColumn (id : SegmentId) (source : Option String) :
    ScopeM ρ (Option ColumnDescriptor) := do
  let segment ← segmentAt id
  let ofSource := segment.pickedColumns.filter fun (_, _, s) => source.all (s == ·)
  match ofSource with
  | [] => return none
  | first :: rest =>
    let (column, columnAlias, s) ← chooseFrom first rest
    return some (segment.describeColumn s column columnAlias)

/-- One of the aliases that a column of a source goes by. -/
def pickedAlias (id : SegmentId) (column source : String) :
    ScopeM ρ (Option ColumnDescriptor) := do
  let segment ← segmentAt id
  let aliases := ((segment.columns.find? column).getD ∅).entries.filter (·.2 = source)
  match aliases with
  | [] => return none
  | first :: rest =>
    let (columnAlias, s) ← chooseFrom first rest
    return some (segment.describeColumn s column columnAlias)

/-- An alias for a picked column that the select list has not written yet. The column's own name is
no alias and is replaced by a new one in its place at the end. -/
def addColumnAlias (id : SegmentId) (column source : String) :
    ScopeM ρ (Option ColumnDescriptor) := do
  let segment ← segmentAt id
  let aliases := (segment.columns.find? column).getD ∅
  let usable (entry : String × String) : Bool :=
    entry.2 = source && (entry.1 = column || !segment.exports.contains entry.1)
  if !aliases.values.contains source then return none
  else
    let put (aliases : OrderedMap String String) (aliasName : String) : ScopeM ρ Unit :=
      update id fun s =>
        { s with columns := s.columns.insert column (aliases.insert aliasName source) }
    match aliases.entries.find? usable with
    | some (aliasName, _) =>
      if aliasName = column then
        let aliasName ← mint id column
        put (aliases.erase column) aliasName
        return some (segment.describeColumn source column aliasName)
      else return some (segment.describeColumn source column aliasName)
    -- every alias has been written already, so one more is needed
    | none =>
      let aliasName ← mint id column
      put aliases aliasName
      return some (segment.describeColumn source column aliasName)

/-! ### The stack -/

/-- Runs an operation on the innermost open segment. -/
def withTop (f : SegmentId → ScopeM ρ α) : ScopeAttempt ρ α := fun s =>
  match s.catalog.stack with
  | id :: _ =>
    let (a, s) := f id s
    .ok a s
  | [] => .error ⟨"current", "EMPTY", "no active scope segment"⟩ s

/-- Opens a block in the current one, as a child source there and with that block as its parent
source. -/
def push : ScopeM ρ SegmentId := fun s =>
  let c := s.catalog
  let id := c.segments.size
  let opened := c.opened + 1
  let child := Segment.fresh s!"QB{opened}" c.stack.head? none
  let c := match c.stack.head? with
    | none => { c with segments := c.segments.push child }
    -- the blocks see each other: one as the parent, the other as a child
    | some parent =>
      let child := child.putInline (c.segment parent) parent .parent
      let c := c.modifySegment parent fun p =>
        { p.putInline child id .child with children := p.children ++ [id] }
      { c with segments := c.segments.push child }
  (id, { s with catalog := { c with stack := id :: c.stack, opened } })

/-- A segment outside the nesting, with a counter of its own. -/
def openAlone (name : String) : ScopeM ρ SegmentId := fun s =>
  let c := s.catalog
  let id := c.segments.size
  let segment := Segment.fresh name none (some 0)
  (id, { s with catalog :=
    { c with segments := c.segments.push segment, stack := id :: c.stack } })

/-- Makes a segment current again. -/
def enter (id : SegmentId) : ScopeM ρ Unit := fun s =>
  ((), { s with catalog := { s.catalog with stack := id :: s.catalog.stack } })

def pop : ScopeAttempt ρ SegmentId := fun s =>
  match s.catalog.stack with
  | id :: stack => .ok id { s with catalog := { s.catalog with stack } }
  | [] => .error ⟨"pop", "EMPTY", "scope stack is empty"⟩ s

/-! ### Registration while the tree is built -/

/-- Registers a table whose schema is written now and whose name by the sibling that follows. -/
def addSchema (u : Universe) : ScopeAttempt ρ SourceDescriptor := withTop fun id => do
  update id (·.setFlag Segment.schemaFlag)
  let table ← addPhysical u id .table
  update id fun s => { s.clearFlag Segment.schemaFlag with pending := some table }
  return table

/-- The table whose schema was just written, or else a new one. -/
def addTable (u : Universe) : ScopeAttempt ρ SourceDescriptor := withTop fun id => do
  match (← segmentAt id).pending with
  | some table =>
    update id ({ · with pending := none })
    return table
  | none => addPhysical u id .table

def addSource (u : Universe) (kind : SourceKind) : ScopeAttempt ρ SourceDescriptor :=
  withTop fun id => addPhysical u id kind

/-- The alias of the source registered last. -/
def defineAlias : ScopeAttempt ρ String := withTop fun id => do
  match (← segmentAt id).lastSource with
  | none => mint id "UNKNOWN_ALIAS"
  | some key => return (← addSourceAlias id key).aliasName

/-! ### Resolution while the tree is rendered -/

def setCursor (id : SegmentId) (cursor : Cursor) : ScopeM ρ Unit := update id ({ · with cursor })

def chooseTable : ScopeAttempt ρ String := withTop fun id => do
  let source ← match (← segmentAt id).cursor with
    | .aliasChosen aliasName => findSource id aliasName
    | _ => anySource id
  setCursor id (.nameResolved source.aliasName source.name)
  return source.name

def chooseAlias : ScopeAttempt ρ String := withTop fun id => do
  match (← segmentAt id).cursor with
  | .aliasChosen aliasName => return aliasName
  | .nameResolved aliasName _ =>
    setCursor id .idle
    return aliasName
  | _ =>
    let source ← anySource id
    setCursor id (.aliasChosen source.aliasName)
    return source.aliasName

/-- A column of a source; one that was picked before is reused half of the time. -/
def reuseOrPick (id : SegmentId) (source : String) : ScopeM ρ String := do
  match ← pickedColumn id (some source) with
  | some picked =>
    if (← draw RandomSource.unit) < 0.5 then return picked.column
    else return (← addColumn id source).column
  | none => return (← addColumn id source).column

def chooseColumn : ScopeAttempt ρ String := withTop fun id => do
  let cursor := (← segmentAt id).cursor
  let source ← match cursor with
    -- a source that is written already decides whose column it is
    | .aliasChosen aliasName | .nameResolved aliasName _ => pure aliasName
    | _ => do pure (← anySource id).aliasName
  let column ← reuseOrPick id source
  setCursor id (.columnChosen source cursor.name? column)
  return column

/-- Runs an operation that writes the column at the cursor out; the cursor is idle afterwards. -/
def withColumn (operation lack : String) (f : SegmentId → String → String → ScopeM ρ String) :
    ScopeAttempt ρ String := fun s =>
  match s.catalog.stack with
  | id :: _ =>
    let segment := s.catalog.segment id
    match segment.cursor with
    | .columnChosen source _ column =>
      let (name, s) := f id source column s
      let written (segment : Segment) := { segment.exportName name with cursor := .idle }
      .ok name { s with catalog := s.catalog.modifySegment id written }
    | cursor => .error ⟨operation, cursor.state, s!"segment {segment.name} has {lack}"⟩ s
  | [] => .error ⟨"current", "EMPTY", "no active scope segment"⟩ s

/-- Writes the chosen column under an alias. -/
def chooseColumnAlias : ScopeAttempt ρ String :=
  withColumn "choose_column_alias" "no column awaiting an alias" fun id source column => do
    let aliasName := ((← addColumnAlias id column source).map (·.columnAlias)).getD ""
    if aliasName.isEmpty then mint id "UNKNOWN_COLUMN_ALIAS" else return aliasName

/-- Writes the chosen column under its own name. -/
def exportColumn : ScopeAttempt ρ String :=
  withColumn "export_column" "no column to expose" fun _ _ column => return column

/-- The schema of a random source of the block, or of the universe if the block has no sources. -/
def chooseSchema (u : Universe) : ScopeAttempt ρ String := withTop fun id => do
  setCursor id .idle
  match (← segmentAt id).sources.entries with
  | first :: rest =>
    let schema := (← chooseFrom first rest).2.schema.getD ""
    return if schema.isEmpty then unknownSchema else schema
  | [] =>
    match u.schemaTexts with
    | [] => return unknownSchema
    | first :: rest => chooseFrom first rest

end Choices

end Scope

end ProbeForge
