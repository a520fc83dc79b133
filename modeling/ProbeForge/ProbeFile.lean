import ProbeForge.Files

/-!
# Probe files

A probe file has one statement on a line, ended by a semicolon. Blank lines and lines that begin
with two dashes are skipped.
-/

namespace ProbeForge.ProbeFile

def format (probes : List String) : String := String.join (probes.map (· ++ ";\n"))

/-- A line without the space around it and without its semicolon. -/
def statement? (line : String) : Option String :=
  let line := Text.strip line
  let cs := line.toList
  if cs.isEmpty || ['-', '-'].isPrefixOf cs then none
  else if cs.getLast? = some ';' then some (String.ofList cs.dropLast)
  else some line

def statements (text : String) : List String := (Text.lines text).filterMap statement?

def read (files : Files) (path : String) : Except Fault (List String) :=
  (files.read (Place.ofPath path)).map statements

end ProbeForge.ProbeFile
