import ProbeForge.Json.Access
import ProbeForge.Numeric.Fixed

/-!
# Building JSON values

Values of common shapes. Computed floats are written as texts with six decimals, so that a reader
need not care about the last bits, and tables are written in the order of their keys.
-/

namespace ProbeForge.Json

def many {α : Type} (f : α → Json) (xs : List α) : Json := list (xs.map f)

def maybe {α : Type} (f : α → Json) (x : Option α) : Json := x.elim null f

def maybeText : Option String → Json := maybe text

def nat (n : Nat) : Json := int n

def texts : List String → Json := many text

def ints : List Int → Json := many int

def nats : List Nat → Json := many nat

/-- A float with six decimals. -/
def fixed (x : Float) : Json := text (Numeric.fixed 6 x)

/-- Pairs in the order of their keys. -/
def byKey {α : Type} (f : α → Json) (entries : List (String × α)) : Json :=
  many (fun (key, x) => list [key, f x]) (entries.mergeSort fun a b => a.1 ≤ b.1)

def counts (counts : OrderedMap String Int) : Json := byKey int counts.toList

end ProbeForge.Json
