import ProbeForge.Derivation.Engine
import ProbeForge.Json.Form

/-!
# Statements as JSON

A generated statement with what is known of its derivation.
-/

namespace ProbeForge

open Json

def TraceStep.toJson (s : TraceStep) : Json := .list [s.ruleName, s.rule, texts s.frontier]

namespace Generation

/-- The statement alone. -/
def fields (r : Generation) (seed : Json) : List (String × Json) :=
  [("start", r.start), ("seed", seed), ("text", r.text), ("probe", s!"/*{seed.plain}*/ {r.text}"),
    ("success", .bool r.succeeded), ("reason", maybeText r.reason),
    ("error_symbol", maybeText r.errorSymbol)]

def toJson (r : Generation) : Json := .record (r.fields (.int r.seed))

/-- The statement with the records of its derivation, and with its seed as it was given. -/
def toJsonSeeded (r : Generation) (seed : Json) : Json :=
  let tree := r.tree.bind (·.format.toOption)
  .record (r.fields seed ++ [("counts", Json.counts r.counts), ("trace", many (·.toJson) r.trace),
    ("tree", maybeText tree)])

def toFullJson (r : Generation) : Json := r.toJsonSeeded (.int r.seed)

end Generation

end ProbeForge
