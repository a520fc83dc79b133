import ProbeForge.Consistency.Grid

/-!
# The spectral radius

A square grid is read as a weighted graph with an edge where an entry is above zero. Without a cycle
the radius is zero. Otherwise it is found by power iteration on the grid with one added on its
diagonal, which keeps the growth ratio from oscillating and adds one to the radius.
-/

namespace ProbeForge.Grid

variable {n : Nat}

/-- The pairs that two steps connect. -/
def twoSteps (p : Grid Bool n n) : Grid Bool n n :=
  ofFn fun i j => (List.finRange n).any fun k => p.entry i k && p.entry k j

def doubled : Nat → Grid Bool n n → Grid Bool n n
  | 0, p => p
  | k + 1, p => doubled k p.twoSteps

def anyStep (p : Grid Bool n n) : Bool :=
  (List.finRange n).any fun i => (List.finRange n).any fun j => p.entry i j

/-- Doublings after which paths of one step have become paths of at least `n` steps. -/
def doublings (n : Nat) : Nat := if n ≤ 1 then 0 else (n - 1).log2 + 1

variable {α : Type} [Scalar α]

/-- Whether some power is zero: a path of `n` steps would repeat a place, so there is none in a
graph without a cycle. -/
@[specialize] def isNilpotent (a : Grid α n n) : Bool :=
  !(doubled (doublings n) a.pattern).anyStep

structure Precision (α : Type) where
  /-- How close two growth ratios are to count as equal, relative to a ratio above one. -/
  tolerance : α
  maxIterations : Nat

def Precision.standard : Precision α := ⟨Scalar.ratio 1 10000000000, 100000⟩

/-- The growth ratio of `shifted` from `x` on, after an estimate of it; the last estimate if the
ratios never settle. There is none if everything vanishes. -/
@[specialize] def growth? (shifted : Grid α n n) (tolerance : α) :
    Nat → Vector α n → α → Option α
  | 0, _, estimate => some estimate
  | k + 1, x, estimate =>
    let y := shifted.apply x
    let sum := total y.get
    if Scalar.isZero sum then none
    else if Scalar.gap sum estimate ≤ tolerance * Scalar.larger 1 sum then some sum
    -- divided by their sum, the entries of the next vector sum up to one
    else growth? shifted tolerance k (y.map (· / sum)) sum

/-- The radius by power iteration alone. -/
@[specialize] def iteratedRadius (precision : Precision α) (a : Grid α n n) : α :=
  if n = 0 then 0
  else
    match growth? a.shift precision.tolerance precision.maxIterations
      (.replicate n (Scalar.ratio 1 n)) 0 with
    | some growth => Scalar.larger (growth - 1) 0
    | none => 0

@[specialize] def spectralRadius (precision : Precision α) (a : Grid α n n) : α :=
  if a.isNilpotent then 0 else iteratedRadius precision a

end ProbeForge.Grid
