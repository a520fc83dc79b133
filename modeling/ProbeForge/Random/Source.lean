import ProbeForge.Fault

/-!
# Sources of random numbers

Everything that is drawn at random comes from three kinds of draw. Code that draws is written for
any source; a bounded draw is in range by its type, so no caller checks it.
-/

namespace ProbeForge

class RandomSource (ρ : Type) where
  seeded : Int → ρ
  /-- One of `n + 1` values. -/
  below : (n : Nat) → ρ → Fin (n + 1) × ρ
  /-- In `[0, 1)`. -/
  unit : ρ → Float × ρ
  /-- Normally distributed with mean 0 and deviation 1. -/
  normal : ρ → Float × ρ

namespace RandomSource

variable {ρ : Type} [RandomSource ρ] {α : Type}

/-- One element of a list that has a first one. -/
def choose (x : α) (xs : List α) (source : ρ) : α × ρ :=
  let (k, source) := below xs.length source
  ((x :: xs)[k], source)

theorem choose_mem (x : α) (xs : List α) (source : ρ) : (choose x xs source).1 ∈ x :: xs :=
  List.getElem_mem _

def choose? (xs : List α) (source : ρ) : Except Fault α × ρ :=
  match xs with
  | [] => (.error .outOfRange, source)
  | x :: xs =>
    let (y, source) := choose x xs source
    (.ok y, source)

/-- An integer between `low` and `high`, both included. -/
def between (low high : Int) (source : ρ) : Except Fault Int × ρ :=
  if high < low then (.error .unacceptable, source)
  else
    let (k, source) := below (high - low).toNat source
    (.ok (low + k), source)

/-- Draws from a shrinking pool: the last element takes the place of the drawn one. -/
def samplePool : Nat → Array α → ρ → List α × ρ
  | 0, _, source => ([], source)
  | k + 1, pool, source =>
    match h : pool.size with
    | 0 => ([], source)
    | n + 1 =>
      let (j, source) := below n source
      have inRange : j.val < pool.size := h ▸ j.isLt
      let drawn := pool[j.val]
      let pool := (pool.set j.val pool[n] inRange).pop
      let (rest, source) := samplePool k pool source
      (drawn :: rest, source)

/-- How often a repeated draw is tried before a value is fixed without drawing. A real source needs
a few tries; the bound only makes every draw end. -/
def patience : Nat := 10000

/-- A position not yet taken, by repeated draws; the first free one if patience runs out. -/
def freshIndex (n : Nat) (taken : List Nat) : Nat → ρ → Nat × ρ
  | 0, source => (((List.range (n + 1)).find? (!taken.contains ·)).getD 0, source)
  | fuel + 1, source =>
    let (j, source) := below n source
    if taken.contains j then freshIndex n taken fuel source else (j, source)

def sampleIndices (n : Nat) : Nat → List Nat → ρ → List Nat × ρ
  | 0, taken, source => (taken.reverse, source)
  | k + 1, taken, source =>
    let (j, source) := freshIndex n taken patience source
    sampleIndices n k (j :: taken) source

/-- The least power of four that is at least `n`. -/
def powerOfFour (n : Nat) : Nat → Nat → Nat
  | 0, p => p
  | fuel + 1, p => if p < n then powerOfFour n fuel (4 * p) else p

/-- Up to this many elements a sample is drawn from a pool rather than by position. -/
def poolLimit (k : Nat) : Nat := 21 + if k > 5 then powerOfFour (3 * k) (3 * k) 1 else 0

/-- `k` elements at different positions, in the order drawn. -/
def sample (xs : List α) (k : Nat) (source : ρ) : Except Fault (List α) × ρ :=
  if k > xs.length then (.error .unacceptable, source)
  else if xs.length ≤ poolLimit k then
    let (drawn, source) := samplePool k xs.toArray source
    (.ok drawn, source)
  else
    let (positions, source) := sampleIndices (xs.length - 1) k [] source
    (.ok (positions.filterMap (xs[·]?)), source)

end RandomSource

end ProbeForge
