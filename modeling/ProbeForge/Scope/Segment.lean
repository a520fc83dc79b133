import ProbeForge.Universe

/-!
# Scope segments

A segment holds what one query block has introduced: its row sources under their aliases, the
columns picked from them, and the names that its select list puts out. Neighbouring blocks appear as
sources too; their columns are looked up in the other segment at the time of asking, since a block's
outputs are known only once it is rendered.
-/

namespace ProbeForge

/-- The place of a segment among all segments of a catalog. -/
abbrev SegmentId := Nat

inductive ColumnSource where
  | fixed (columns : List String)
  | exportsOf (segment : SegmentId)
deriving DecidableEq, Repr

/-- A row source; its alias differs from its name once it was given one. -/
structure SourceEntry where
  name : String
  aliasName : String
  kind : SourceKind
  schema : Option String
  columns : ColumnSource
deriving DecidableEq, Repr

structure SourceDescriptor where
  schema : Option String
  name : String
  aliasName : String
  kind : SourceKind
deriving DecidableEq, Repr

def SourceEntry.descriptor (e : SourceEntry) : SourceDescriptor :=
  ⟨e.schema, e.name, e.aliasName, e.kind⟩

/-- The text that stands for a descriptor printed as a value. -/
def SourceDescriptor.text (d : SourceDescriptor) : String :=
  let kind := s!"<SourceKind.{d.kind.name}: {Text.quoted d.kind.name}>"
  s!"SourceDescriptor(schema={Text.quotedOption d.schema}, name={Text.quoted d.name}, " ++
    s!"alias={Text.quoted d.aliasName}, kind={kind})"

/-- The answer to a request for a source's alias. Without a source a made-up alias stands in. -/
inductive Aliasing where
  | source (descriptor : SourceDescriptor)
  | placeholder (aliasName : String)
deriving DecidableEq, Repr

def Aliasing.aliasName : Aliasing → String
  | source d => d.aliasName
  | placeholder aliasName => aliasName

/-- A column of a source together with the alias it goes by. -/
structure ColumnDescriptor where
  schema : Option String
  name : Option String
  aliasName : String
  column : String
  columnAlias : String
deriving DecidableEq, Repr

/-- A descriptor as five optional fields; no column is five times nothing. -/
def ColumnDescriptor.row : Option ColumnDescriptor → List (Option String)
  | none => List.replicate 5 none
  | some d => [d.schema, d.name, some d.aliasName, some d.column, some d.columnAlias]

/-- What has been chosen so far for a reference that is being written part by part. -/
inductive Cursor where
  | idle
  | aliasChosen (aliasName : String)
  | nameResolved (aliasName name : String)
  | columnChosen (aliasName : String) (name : Option String) (column : String)
deriving DecidableEq, Repr

namespace Cursor

def state : Cursor → String
  | idle => "NONE"
  | aliasChosen _ => "ALIAS_CHOSEN"
  | nameResolved _ _ => "NAME_RESOLVED"
  | columnChosen _ _ _ => "COLUMN_CHOSEN"

def aliasName? : Cursor → Option String
  | idle => none
  | aliasChosen aliasName | nameResolved aliasName _ | columnChosen aliasName _ _ => some aliasName

def name? : Cursor → Option String
  | idle | aliasChosen _ => none
  | nameResolved _ name => some name
  | columnChosen _ name _ => name

def column? : Cursor → Option String
  | columnChosen _ _ column => some column
  | _ => none

end Cursor

structure Segment where
  name : String
  parent : Option SegmentId
  children : List SegmentId
  /-- Each source under its alias. -/
  sources : OrderedMap String SourceEntry
  /-- For each column the aliases it goes by, each with the alias of its source. -/
  columns : OrderedMap String (OrderedMap String String)
  /-- Output names of the select list in the order written. -/
  exports : List String
  flags : List String
  lastSource : Option String
  /-- The table of a schema that was written, waiting for its name. -/
  pending : Option SourceDescriptor
  cursor : Cursor
  /-- The names minted so far, for a segment that does not share its catalog's counter. -/
  ownMinted : Option Nat

namespace Segment

def fresh (name : String) (parent : Option SegmentId) (ownMinted : Option Nat) : Segment :=
  { name, parent, children := [], sources := ∅, columns := ∅, exports := [], flags := [],
    lastSource := none, pending := none, cursor := .idle, ownMinted }

instance : Inhabited Segment := ⟨fresh "" none none⟩

def schemaFlag : String := "SCHEMA"

def setFlag (s : Segment) (flag : String) : Segment :=
  if s.flags.contains flag then s else { s with flags := s.flags ++ [flag] }

def clearFlag (s : Segment) (flag : String) : Segment :=
  { s with flags := s.flags.filter (· ≠ flag) }

def hasFlag (s : Segment) (flag : String) : Bool := s.flags.contains flag

def exportName (s : Segment) (name : String) : Segment := { s with exports := s.exports ++ [name] }

/-- The outputs that a neighbour can refer to. A name written twice is ambiguous to it. -/
def exportedColumns (s : Segment) : List String := s.exports.filter (s.exports.count · = 1)

def putSource (s : Segment) (entry : SourceEntry) : Segment :=
  { s with sources := s.sources.insert entry.aliasName entry, lastSource := some entry.aliasName }

/-- Registers the block of another segment under that segment's name. -/
def putInline (s : Segment) (other : Segment) (id : SegmentId) (kind : SourceKind) : Segment :=
  s.putSource ⟨other.name, other.name, kind, none, .exportsOf id⟩

/-- Moves a source to a new alias, in the column table and as the last source too. -/
def rename (s : Segment) (old new : String) (entry : SourceEntry) : Segment :=
  { s with
    sources := (s.sources.erase old).insert new { entry with aliasName := new }
    columns := s.columns.mapValues (·.mapValues fun source => if source = old then new else source)
    lastSource := if s.lastSource = some old then some new else s.lastSource }

/-- Tables and views can be referred to, and so can an inline view, a child block with an alias. -/
def isReferenceable (entry : SourceEntry) : Bool :=
  match entry.kind with
  | .table | .view | .mview => true
  | .child => entry.aliasName ≠ entry.name
  | .sequence | .parent => false

/-- Every column that was picked, with its alias and its source's alias. -/
def pickedColumns (s : Segment) : List (String × String × String) :=
  s.columns.entries.flatMap fun (column, aliases) =>
    aliases.entries.map fun (columnAlias, source) => (column, columnAlias, source)

def describeColumn (s : Segment) (source column columnAlias : String) : ColumnDescriptor :=
  let entry := s.sources.find? source
  { schema := entry.bind (·.schema), name := entry.map (·.name), aliasName := source, column,
    columnAlias }

def summary (s : Segment) : String :=
  s!"ScopeSegment({s.name}, sources={Text.quotedList s.sources.keys})"

end Segment

end ProbeForge
