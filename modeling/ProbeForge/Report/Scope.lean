import ProbeForge.Json.Form
import ProbeForge.Scope.Catalog

/-!
# Universes and scopes as JSON

Objects, sources and columns are lists of their parts; a segment is shown with its tables in the
order in which they are kept.
-/

namespace ProbeForge

open Json

def SourceObject.toJson (o : SourceObject) : Json :=
  .list [o.qualifiedName, o.name, o.kind.name, o.schema, .list o.columns]

def Universe.toJson (u : Universe) : Json := many (·.toJson) u.objects.values

def SourceDescriptor.toJson (d : SourceDescriptor) : Json :=
  .list [maybeText d.schema, d.name, d.aliasName, d.kind.name]

def ColumnDescriptor.rowJson (d : Option ColumnDescriptor) : Json := many maybeText (row d)

/-- Whether a row describes no column. Fields may be left out, but there are no more than five. -/
def ColumnDescriptor.isEmptyRow (row : List Json) : Except Fault Bool :=
  if row.length ≤ 5 then .ok (row.all (·.isNull)) else .error .wrongType

def Aliasing.toJson : Aliasing → Json
  | .source d => d.toJson
  | .placeholder aliasName => .list [.null, .null, aliasName, .null]

/-- A segment as it is in `c`, with the output names it has in `last`: answers share that list. -/
def Catalog.segmentJson (c last : Catalog) (id : SegmentId) : Json :=
  let s := c.segment id
  let nameOf (id : SegmentId) : Json := (c.segment id).name
  let sourceJson (entry : String × SourceEntry) : Json :=
    let (key, e) := entry
    .list [key, e.name, e.aliasName, e.kind.name, maybeText e.schema, texts (c.columnList e)]
  .record [("name", s.name), ("parent", maybe nameOf s.parent),
    ("children", many nameOf s.children), ("symtab", many sourceJson s.sources.toList),
    ("coltab", many (fun (column, aliases) => .list [column,
      many (fun (name, source) => texts [name, source]) aliases.toList]) s.columns.toList),
    ("exports", texts (last.segment id).exports), ("exported", texts s.exportedColumns),
    ("flags", texts s.flags.mergeSort), ("last", maybeText s.lastSource),
    ("pending", maybe (·.toJson) s.pending),
    ("cursor", .list [s.cursor.state, maybeText s.cursor.aliasName?, maybeText s.cursor.name?,
      maybeText s.cursor.column?])]

end ProbeForge
