import ProbeForge.Fault
import ProbeForge.OrderedMap
import ProbeForge.Text.Blank
import ProbeForge.Text.Lines

/-!
# Files

The texts that are read and written, by place. A place is a path cut at its slashes; steps that stay
where they are do not count. A path is followed one step after another, and each step must start in a
folder that exists, also a step back up.
-/

namespace ProbeForge

structure Place where
  /-- Whether the path starts at the root instead of the working folder. -/
  rooted : Bool
  parts : List String
deriving DecidableEq, Repr

namespace Place

def pieces (path : String) : List String := (Text.cutAt (· = '/') path.toList).map String.ofList

def ofPath (path : String) : Place :=
  { rooted := path.toList.head? = some '/'
    parts := (pieces path).filter fun s => s ≠ "" ∧ s ≠ "." }

def path (p : Place) : String :=
  let inner := "/".intercalate p.parts
  if p.rooted then "/" ++ inner else if p.parts.isEmpty then "." else inner

def parent (p : Place) : Place := { p with parts := p.parts.dropLast }

def child (p : Place) (part : String) : Place := { p with parts := p.parts ++ [part] }

/-- What a local path leads to from the folder `p`. -/
def inside (p : Place) (path : String) : Place := { p with parts := p.parts ++ (ofPath path).parts }

/-- Whether a place is the working folder or above it. -/
def isAbove (p : Place) : Bool := !p.rooted && p.parts.all (· = "..")

/-- One step up from a place that was reached. Above the root is the root. -/
def up (p : Place) : Place := if p.isAbove then p.child ".." else p.parent

def step (p : Place) (part : String) : Place := if part = ".." then p.up else p.child part

/-- Whether a place is below the working folder. -/
def isLocal (p : Place) : Bool := !p.rooted && p.parts.head? != some ".."

/-- No path has a character zero in it. -/
def isPossible (p : Place) : Bool := p.parts.all fun part => !part.toList.contains (Char.ofNat 0)

end Place

structure Files where
  /-- By the places that are reached, which have steps up only at the beginning. -/
  texts : OrderedMap Place String
  folders : List Place
  /-- The files that were there at the beginning. -/
  given : List Place

namespace Files

def isFolder (f : Files) (p : Place) : Bool := p.isAbove || f.folders.contains p

/-! ### Finding -/

/-- The place reached from `here` by a path. -/
def follow (f : Files) (here : Place) : List String → Except Fault Place
  | [] => .ok here
  | part :: rest =>
    if f.isFolder here then follow f (here.step part) rest
    else .error (if f.texts.contains here then .notFolder else .fileNotFound)

/-- The place that a path leads to, whether or not there is anything. -/
def locate (f : Files) (p : Place) : Except Fault Place :=
  if p.isPossible then f.follow ⟨p.rooted, []⟩ p.parts else .error .unacceptable

def contains (f : Files) (p : Place) : Bool :=
  match f.locate p with
  | .ok here => f.isFolder here || f.texts.contains here
  | .error _ => false

/-- The text of a file with line feeds as its only newlines. -/
def read (f : Files) (p : Place) : Except Fault String := do
  let here ← f.locate p
  if f.isFolder here then throw .isFolder
  let text ← require .fileNotFound (f.texts.find? here)
  return String.ofList (Text.unifyNewlines text.toList)

/-! ### Writing -/

/-- A folder in a folder that exists. -/
def makeFolder (p : Place) : Attempt Files Unit := do
  let f ← get
  let here ← f.locate p
  if f.texts.contains here then throw .inTheWay
  else if !f.isFolder here then set { f with folders := f.folders ++ [here] }

/-- A folder with those on the way to it, from the innermost part to the outermost. -/
def makeFoldersTo (rooted : Bool) : List String → Attempt Files Unit
  | [] => return ()
  | part :: above => fun f =>
    let folder := makeFolder ⟨rooted, (part :: above).reverse⟩
    match folder f with
    | .error .fileNotFound f => (do makeFoldersTo rooted above; folder) f
    | result => result

def makeFolders (p : Place) : Attempt Files Unit := makeFoldersTo p.rooted p.parts.reverse

/-- A file is created only in a folder that exists. -/
def write (p : Place) (text : String) : Attempt Files Unit := do
  let f ← get
  let here ← f.locate p
  if f.isFolder here then throw .isFolder
  set { f with texts := f.texts.insert here text }

/-- Writes a file and makes the folders on the way to it, which stay even if the text is refused. -/
def save (p : Place) (text : Except Fault String) : Attempt Files Unit := do
  makeFolders p.parent
  write p (← text)

/-- Writes a file by its path as it is spelled, where a slash or a dot at the end asks for a
folder. -/
def writeTo (path : String) (text : String) : Attempt Files Unit := do
  let f ← get
  let p := Place.ofPath path
  let here ← f.locate p
  let last := (Place.pieces path).getLast?
  let dotted := ((Place.pieces path).filter (· ≠ "")).getLast? = some "."
  if f.isFolder here then throw .isFolder
  else if dotted then throw (if f.texts.contains here then .notFolder else .fileNotFound)
  else if last = some "" then throw .isFolder
  else write p text

/-! ### Beginning and end -/

def empty : Files :=
  { texts := ∅, folders := [⟨true, []⟩, ⟨true, ["tmp"]⟩], given := [] }

/-- Files with these texts, in folders made for them. -/
def ofGiven (given : List (String × String)) : Files :=
  let f := given.foldl
    (fun f (path, text) =>
      match save (Place.ofPath path) (.ok text) f with
      | .ok () f | .error _ f => f)
    empty
  { f with given := f.texts.keys }

/-- The local files that came later, by path, as they are read. -/
def created (f : Files) : List (String × String) :=
  -- files outside the working folder are not listed
  let later := f.texts.entries.filter fun (p, _) => p.isLocal && !f.given.contains p
  (later.map fun (p, text) =>
    (p.path, String.ofList (Text.unifyNewlines text.toList))).mergeSort fun a b => a.1 ≤ b.1

end Files

end ProbeForge
