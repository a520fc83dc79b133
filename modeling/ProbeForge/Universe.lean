import ProbeForge.Json.Access
import ProbeForge.Text.UpperCase

/-!
# The universe

The database objects that statements may refer to, each under its qualified name, with the names of
each physical kind listed apart. A universe only grows; a name comes once.
-/

namespace ProbeForge

inductive SourceKind where
  | table
  | view
  | mview
  | sequence
  /-- The block around an inline block. -/
  | parent
  /-- A block nested in another. -/
  | child
deriving DecidableEq, Repr

namespace SourceKind

def all : List SourceKind := [table, view, mview, sequence, parent, child]

def name : SourceKind → String
  | table => "TABLE"
  | view => "VIEW"
  | mview => "MVIEW"
  | sequence => "SEQUENCE"
  | parent => "PARENT"
  | child => "CHILD"

def isPhysical : SourceKind → Bool
  | parent | child => false
  | _ => true

def ofName? (name : String) : Option SourceKind := all.find? (·.name == name)

/-- The kinds as metadata spell them, in upper case. -/
def spellings : List (String × SourceKind) :=
  [("TABLE", table), ("BASE TABLE", table), ("VIEW", view), ("MVIEW", mview),
    ("MATERIALIZED VIEW", mview), ("MATERIALIZED_VIEW", mview), ("SEQUENCE", sequence)]

/-- Case and surrounding space do not count. -/
def ofValue (value : Json) : Except Fault SourceKind :=
  match spellings.lookup (Text.upperCase (Text.strip value.plain)) with
  | some kind => .ok kind
  | none => refuse (.kindUnknown value.shown)

end SourceKind

/-- Names are meant to be texts, but what was given instead is kept. -/
structure SourceObject where
  name : Json
  kind : SourceKind
  schema : Json
  columns : List Json

namespace SourceObject

/-- An object whose names are texts. -/
def named (name : String) (kind : SourceKind) (schema : Option String) (columns : List String) :
    SourceObject :=
  ⟨name, kind, schema.elim .null .text, columns.map .text⟩

/-- The name, qualified by the schema unless that is missing or empty. -/
def qualifiedName (o : SourceObject) : Json :=
  if o.schema.isFilled then .text s!"{o.schema.plain}.{o.name.plain}" else o.name

def key (o : SourceObject) : Except Fault Key := o.qualifiedName.toKey

def nameText (o : SourceObject) : String := o.name.plain

def schemaText? (o : SourceObject) : Option String :=
  if o.schema.isNull then none else some o.schema.plain

def columnTexts (o : SourceObject) : List String := o.columns.map (·.plain)

end SourceObject

structure Universe where
  objects : OrderedMap Key SourceObject
  tables : List Key
  views : List Key
  mviews : List Key
  sequences : List Key

namespace Universe

def empty : Universe := ⟨∅, [], [], [], []⟩

/-- The keys of a kind in the order in which they were added. -/
def keysOf (u : Universe) : SourceKind → List Key
  | .table => u.tables
  | .view => u.views
  | .mview => u.mviews
  | .sequence => u.sequences
  | .parent | .child => []

/-- Inline kinds have no list. -/
def listKey (u : Universe) (kind : SourceKind) (key : Key) : Option Universe :=
  match kind with
  | .table => some { u with tables := u.tables ++ [key] }
  | .view => some { u with views := u.views ++ [key] }
  | .mview => some { u with mviews := u.mviews ++ [key] }
  | .sequence => some { u with sequences := u.sequences ++ [key] }
  | .parent | .child => none

/-- An object of an inline kind is stored before it is refused. -/
def add (u : Universe) (o : SourceObject) : Option Fault × Universe :=
  match o.key with
  | .error fault => (some fault, u)
  | .ok key =>
    if u.objects.contains key then
      (some (.configuration (.objectTwice o.qualifiedName.plain)), u)
    else
      let u := { u with objects := u.objects.insert key o }
      match u.listKey o.kind key with
      | some u => (none, u)
      | none => (some .absent, u)

def find? (u : Universe) (key : Key) : Option SourceObject := u.objects.find? key

def contains (u : Universe) (key : Key) : Bool := u.objects.contains key

def size (u : Universe) : Nat := u.objects.size

/-- The objects of a kind in the order in which they were added. -/
def objectsOf (u : Universe) (kind : SourceKind) : List SourceObject :=
  (u.keysOf kind).filterMap u.find?

/-- The schemas in the order in which they first come. -/
def schemas (u : Universe) : Except Fault (List Json) := do
  let given := (u.objects.values.map (·.schema)).filter (!·.isNull)
  let seen ← given.foldlM
    (fun (seen : OrderedMap Key Json) schema => do
      let key ← schema.toKey
      return if seen.contains key then seen else seen.insert key schema)
    ∅
  return seen.values

def schemaTexts (u : Universe) : List String := (u.schemas.toOption.getD []).map (·.plain)

def addAll (u : Universe) : List SourceObject → Except Fault Universe
  | [] => .ok u
  | o :: rest =>
    match u.add o with
    | (none, u) => u.addAll rest
    | (some fault, _) => .error fault

def ofObjects (objects : List SourceObject) : Except Fault Universe := empty.addAll objects

/-- A universe of a finished table. -/
def ofTable (objects : OrderedMap Key SourceObject) : Except Fault Universe :=
  objects.entries.foldlM
    (fun u (key, o) => require .absent (u.listKey o.kind key))
    { empty with objects }

/-! ### Metadata -/

/-- An entry may leave out everything: it is then a table of that name without columns. -/
def objectOfEntry (key : Json) : Json → Except Fault SourceObject
  | .record fields => do
    let entry := Json.record fields
    let kind ← SourceKind.ofValue (entry.getOr "kind" (entry.getOr "type" "TABLE"))
    let columns ← (entry.getOr "columns" (.list [])).elements
    return { name := entry.getOr "name" key, kind, schema := entry.get "schema", columns }
  | _ => refuse (.entryMalformed key.plain)

/-- Entries are read and added one by one; the first mistake decides the fault. -/
def ofEntries (entries : List (Json × Json)) : Except Fault Universe :=
  entries.foldlM
    (fun u (key, entry) => do
      let o ← objectOfEntry key entry
      u.addAll [o])
    empty

def ofJson : Json → Except Fault Universe
  | .record fields => ofEntries (fields.map fun (key, entry) => (key, entry))
  | _ => .error .noAttribute

/-- The demonstration schema. -/
def demoObjects : List SourceObject :=
  [ .named "bonus" .table "scott" ["ename", "job", "sal", "comm"],
    .named "dept" .table "scott" ["deptno", "dname", "loc"],
    .named "emp" .table "scott"
      ["empno", "ename", "job", "mgr", "hiredate", "sal", "comm", "deptno"],
    .named "salgrade" .table "scott" ["grade", "losal", "hisal"],
    .named "emp_summary" .view "scott" ["deptno", "total_sal"],
    .named "dept_stats" .mview "scott" ["deptno", "headcount"],
    .named "emp_seq" .sequence "scott" [] ]

def demo : Universe := (ofObjects demoObjects).toOption.getD empty

end Universe

end ProbeForge
