import ProbeForge.Evolution.OutcomePattern
import ProbeForge.Files
import ProbeForge.Json.Access
import ProbeForge.Json.Reader

/-!
# Scoring

Counted outcomes are turned into a distribution and scored by how near it is to the nearest of some
exemplar distributions: the greatest distance possible, divided by that distance.
-/

namespace ProbeForge

/-- How a value counts; it may be no number. -/
abbrev Measure (ν α : Type) : Type := ν → Except Fault (Quantity α)

abbrev Distribution (α : Type) : Type := OrderedMap String α

namespace Distribution

variable {α : Type} [Scalar α] {ν : Type}

@[specialize] def sumBy (read : Measure ν α) (values : List ν) : Except Fault (Quantity α) :=
  values.foldlM (fun sum v => do sum.add (← read v)) (.whole 0)

/-- The share of a key, or nothing for a count of zero. -/
@[specialize] def share? (read : Measure ν α) (total : α) (entry : String × ν) :
    Except Fault (Option (String × α)) := do
  let count ← read entry.2
  if count.isZero then return none
  else return some (entry.1, ← Scalar.divide (← count.toScalar) total)

/-- Counts as shares of their sum; without a positive sum there are no shares. -/
@[specialize] def normalize (read : Measure ν α) (counts : OrderedMap String ν) :
    Except Fault (Distribution α) := do
  let total ← (← sumBy read counts.values).toScalar
  if total ≤ 0 then return ∅
  else return ⟨(← counts.entries.mapM (share? read total)).filterMap id⟩

/-- A key that is missing has no share. -/
@[specialize] def shareOf (read : Measure ν α) (d : OrderedMap String ν) (key : String) :
    Except Fault (Quantity α) :=
  match d.find? key with
  | some v => read v
  | none => .ok (.real 0)

/-- The keys of either distribution, each once. -/
def keysOfBoth (a b : OrderedMap String ν) : List String :=
  a.keys ++ b.keys.filter (!a.contains ·)

@[specialize] def squaredDistance (read : Measure ν α) (a b : OrderedMap String ν) :
    Except Fault (Quantity α) :=
  (keysOfBoth a b).foldlM
    (fun sum k => do
      let difference ← (← shareOf read a k).sub (← shareOf read b k)
      sum.add (← difference.square))
    (.whole 0)

@[specialize] def distanceBy {α : Type} [Rooted α] (read : Measure ν α)
    (a b : OrderedMap String ν) : Except Fault α := do
  return Rooted.sqrt (← (← squaredDistance read a b).toScalar)

/-- The distance between distributions. -/
@[specialize] def distance {α : Type} [Rooted α] (a b : Distribution α) : Except Fault α :=
  distanceBy (fun x => .ok (.real x)) a b

end Distribution

structure Verdict (α : Type) where
  score : α
  special : Bool

structure Scorer (α : Type) where
  exemplars : List (Distribution α)
  /-- Patterns of outcomes that make a candidate special. -/
  specialCodes : List String

namespace Scorer

variable {α : Type} [Rooted α]

/-- Without exemplars the ideal is that every probe succeeds. -/
def make (exemplars : List (Distribution α)) (specialCodes : List String) : Scorer α :=
  { exemplars := if exemplars.isEmpty then [⟨[("ok", 1)]⟩] else exemplars, specialCodes }

/-- A scorer from counts. The patterns are looked at before the counts. -/
@[specialize] def ofCounts {ν : Type} (read : Measure ν α) (exemplars : List (OrderedMap String ν))
    (specialCodes : Json) : Except Fault (Scorer α) := do
  let codes ← specialCodes.toTexts
  return make (← exemplars.mapM (Distribution.normalize read)) codes

/-- The largest distance between two distributions. -/
@[specialize] def maxDistance : α := Rooted.sqrt (Scalar.ratio 2 1)

/-- Distances below this are taken for this. -/
@[specialize] def epsilon : α := Scalar.ratio 1 1000000000

/-- The least element of a list that has a first one. -/
@[specialize] def least (x : α) (xs : List α) : α := xs.foldl Scalar.smaller x

variable {ν : Type}

@[specialize] def nearestDistance (s : Scorer α) (read : Measure ν α)
    (results : OrderedMap String ν) : Except Fault α := do
  let observed ← Distribution.normalize read results
  -- a candidate without outcomes is as far away as possible
  if observed.isEmpty then return maxDistance
  else
    match ← s.exemplars.mapM (Distribution.distance observed) with
    | x :: xs => return least x xs
    | [] => return maxDistance

@[specialize] def score (s : Scorer α) (read : Measure ν α) (results : OrderedMap String ν) :
    Except Fault α := do
  return maxDistance / Scalar.larger (← s.nearestDistance read results) epsilon

/-- Whether an outcome that occurred fits a pattern. Without patterns no count is read. -/
@[specialize] def isSpecial (s : Scorer α) (read : Measure ν α) (results : OrderedMap String ν) :
    Except Fault Bool := do
  if s.specialCodes.isEmpty then return false
  results.entries.anyM fun (outcome, count) => do
    return (← read count).isPositive && s.specialCodes.any (OutcomePattern.isIn · outcome)

@[specialize] def judge (s : Scorer α) (read : Measure ν α) (results : OrderedMap String ν) :
    Except Fault (Verdict α) := do
  return ⟨← s.score read results, ← s.isSpecial read results⟩

end Scorer

/-! ### Exemplar files -/

namespace ExemplarFile

def records? : List Json → Option (List (List (String × Json)))
  | [] => some []
  | .record fields :: rest => (records? rest).map (fields :: ·)
  | _ :: _ => none

def exemplars (records : List (List (String × Json))) :
    Except Fault (List (Distribution Float)) :=
  records.mapM fun fields => Distribution.normalize Json.toNumber ⟨fields⟩

def read (files : Files) (path : String) : Except Fault (List (Distribution Float)) := do
  let place := Place.ofPath path
  if !files.contains place then refuse (.exemplarsMissing path)
  else
    match Json.read? (← files.read place) with
    | none => refuse (.exemplarsNotJson path)
    | some (.list values) =>
      match records? values with
      | some records => exemplars records
      | none => refuse (.exemplarsNotObjects path)
    | some _ => refuse (.exemplarsNotObjects path)

end ExemplarFile

end ProbeForge
