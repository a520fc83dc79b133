import ProbeForge.Database.Server
import ProbeForge.Universe

/-!
# Introspection

Reads a universe from a server's catalogs. The first relation that cannot be taken over ends the
reading, and the universe holds the relations before it.
-/

namespace ProbeForge.Database

def relationQuery : String :=
  "SELECT c.oid, n.nspname, c.relname, c.relkind FROM pg_class c " ++
    "JOIN pg_namespace n ON n.oid = c.relnamespace WHERE n.nspname = ANY(%s) " ++
    "AND c.relkind IN ('r', 'p', 'v', 'm', 'S') ORDER BY n.nspname, c.relname"

def columnQuery : String :=
  "SELECT a.attname FROM pg_attribute a " ++
    "WHERE a.attrelid = %s AND a.attnum > 0 AND NOT a.attisdropped ORDER BY a.attnum"

/-- Partitioned tables count as tables. -/
def relationKind? : Json → Option SourceKind
  | .text "r" | .text "p" => some .table
  | .text "v" => some .view
  | .text "m" => some .mview
  | .text "S" => some .sequence
  | _ => none

structure Relation where
  oid : Json
  schema : Json
  name : Json
  kind : Json

def Relation.ofRow? : List Json → Option Relation
  | [oid, schema, name, kind] => some ⟨oid, schema, name, kind⟩
  | _ => none

def Relation.isSequence (r : Relation) : Bool := r.kind.text? = some "S"

/-- The first fields of rows that all have one. -/
def columnNames? (rows : List (List Json)) : Option (List Json) := rows.mapM List.head?

/-- The rows that a query gives; nothing if the query or the fetch fails. -/
def query? (c : Connection) (sql : String) (arguments : List Json) (s : Server) :
    Option (List (List Json)) × Server :=
  match s.execute c sql (some arguments) with
  | (.error _, s) => (none, s)
  | (.ok (), s) =>
    match s.fetch with
    | (.error _, s) => (none, s)
    | (.ok rows, s) => (some rows, s)

/-- Sequences have no columns to ask for. -/
def columns? (c : Connection) (r : Relation) (s : Server) : Option (List Json) × Server :=
  if r.isSequence then (some [], s)
  else
    let (rows, s) := query? c columnQuery [r.oid] s
    (rows.bind columnNames?, s)

/-- The universe with one more relation, if everything about it is in order. -/
def adopt? (c : Connection) (u : Universe) (row : List Json) (s : Server) :
    Option Universe × Server :=
  match Relation.ofRow? row with
  | none => (none, s)
  | some r =>
    match columns? c r s with
    | (none, s) => (none, s)
    | (some columns, s) =>
      -- the columns have been asked for although the kind may be unknown
      match relationKind? r.kind with
      | none => (none, s)
      | some kind =>
        match u.add ⟨r.name, kind, r.schema, columns⟩ with
        | (none, u) => (some u, s)
        | (some _, _) => (none, s)

def adoptAll (c : Connection) : List (List Json) → Universe → Server → Universe × Server
  | [], u, s => (u, s)
  | row :: rest, u, s =>
    match adopt? c u row s with
    | (some u, s) => adoptAll c rest u s
    | (none, s) => (u, s)

/-- A server that cannot be asked has an empty universe. That the connection can be closed is taken
for granted. -/
def introspect (dsn : Json) (schemas : List Json) (s : Server) : Universe × Server :=
  match s.connect dsn with
  | (.error _, s) => (.empty, s)
  | (.ok c, s) =>
    let (rows, s) := query? c relationQuery [.list schemas] s
    let (u, s) := adoptAll c (rows.getD []) .empty s
    (u, (s.close c).2)

end ProbeForge.Database
