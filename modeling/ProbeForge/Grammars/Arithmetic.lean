import ProbeForge.Grammar.Definition

/-!
# The arithmetic grammar

Small integer expressions, for demonstrations and for exercising the engine.
-/

namespace ProbeForge.Grammars

open WeightClass in
def arithmetic : Definition :=
  let rule (c : WeightClass) (left right : String) (representer generator : Option String) :
      RuleSpec := .named c left right generator representer
  { Definition.named "arith" "Integer arithmetic expressions"
      ["expr", "term", "factor", "number"] ["+", "-", "*", "/", "(", ")"] with
    rules :=
      [ rule normal "expr" "term" none none,
        rule medium "expr" "expr + term" none none,
        rule medium "expr" "expr - term" none none,
        rule normal "term" "factor" none none,
        rule medium "term" "term * factor" none none,
        rule low "term" "term / factor" none none,
        rule normal "factor" "number" none none,
        rule low "factor" "( expr )" (some "tight_paren") none,
        rule rare "factor" "- factor" (some "tight_unary") none,
        rule normal "number" "" (some "payload_text") (some "integer") ]
    start := "expr" }

end ProbeForge.Grammars
