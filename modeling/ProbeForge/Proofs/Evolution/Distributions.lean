import Mathlib.Algebra.BigOperators.Ring.List
import Mathlib.Algebra.Order.BigOperators.Group.Finset
import Mathlib.Algebra.Order.BigOperators.Group.List
import Mathlib.Tactic.Linarith
import ProbeForge.Evolution.Scoring
import ProbeForge.Proofs.Numeric.Real
import ProbeForge.Proofs.OrderedMap
import ProbeForge.Proofs.Outcome

/-!
# Distances between distributions

Counts become shares of a whole, of which there are none if nothing was counted. Two distributions
are furthest apart where each has its whole under names of its own.
-/

namespace ProbeForge.Distribution

variable {ν : Type} {read : Measure ν ℝ} {m : OrderedMap String ν}

/-- What a value counts. -/
noncomputable def amount (read : Measure ν ℝ) (v : ν) : ℝ :=
  match read v with
  | .ok q => q.value
  | .error _ => 0

theorem amount_eq {v : ν} {q : Quantity ℝ} (h : read v = .ok q) : amount read v = q.value := by
  rw [amount, h]

/-- Every value is a number that is not negative, and no name comes twice. -/
structure Counts (read : Measure ν ℝ) (m : OrderedMap String ν) : Prop where
  distinct : m.Distinct
  counted : ∀ v ∈ m.values, ∃ q, read v = .ok q ∧ 0 ≤ q.value

/-- Parts of one whole, which need not take up all of it. -/
structure Parts (d : Distribution ℝ) : Prop where
  distinct : d.Distinct
  nonneg : ∀ x ∈ d.values, 0 ≤ x
  sum_le_one : d.values.sum ≤ 1

theorem parts_empty : Parts ∅ where
  distinct := OrderedMap.distinct_empty
  nonneg _ h := nomatch h
  sum_le_one := zero_le_one

theorem parts_singleton (key : String) : Parts ⟨[(key, 1)]⟩ where
  distinct := OrderedMap.distinct_singleton
  nonneg x hx := by
    rw [List.mem_singleton.mp hx]
    exact zero_le_one
  sum_le_one := (List.sum_singleton (x := (1 : ℝ))).le

/-! ### Shares -/

noncomputable def total (read : Measure ν ℝ) (m : OrderedMap String ν) : ℝ :=
  (m.values.map (amount read)).sum

/-- What has a count other than zero. -/
noncomputable def occurring (read : Measure ν ℝ) (m : OrderedMap String ν) : List (String × ν) :=
  m.entries.filter fun entry => decide (amount read entry.2 ≠ 0)

/-- All that occurred, with its share of the total. -/
noncomputable def shares (read : Measure ν ℝ) (m : OrderedMap String ν) : Distribution ℝ :=
  ⟨(occurring read m).map fun entry => (entry.1, amount read entry.2 / total read m)⟩

noncomputable def normalized (read : Measure ν ℝ) (m : OrderedMap String ν) : Distribution ℝ :=
  if total read m ≤ 0 then ∅ else shares read m

namespace Counts

variable (h : Counts read m)
include h

theorem amount_nonneg {v : ν} (hv : v ∈ m.values) : 0 ≤ amount read v := by
  obtain ⟨q, hq, hnonneg⟩ := h.counted v hv
  rwa [amount_eq hq]

theorem amount_le_total {v : ν} (hv : v ∈ m.values) : amount read v ≤ total read m := by
  refine List.single_le_sum (fun x hx => ?_) _ (List.mem_map_of_mem hv)
  obtain ⟨v', hv', rfl⟩ := List.mem_map.mp hx
  exact h.amount_nonneg hv'

theorem exists_sumBy : ∃ q, sumBy read m.values = .ok q ∧ q.value = total read m := by
  have hstep : ∀ v ∈ m.values, ∀ sum : Quantity ℝ,
      ∃ q, (do sum.add (← read v)) = .ok q ∧ q.value = sum.value + amount read v := by
    intro v hv sum
    obtain ⟨count, hcount, -⟩ := h.counted v hv
    rw [amount_eq hcount, hcount]
    exact sum.exists_add count
  obtain ⟨q, hq, hvalue⟩ := Quantity.exists_foldlM_add _ (amount read) hstep (.whole 0)
  refine ⟨q, hq, ?_⟩
  rw [hvalue, total, Quantity.value, Int.cast_zero, zero_add]

theorem share?_eq {entry : String × ν} (hentry : entry ∈ m.entries) (hpos : 0 < total read m) :
    share? read (total read m) entry = .ok (if decide (amount read entry.2 ≠ 0) then
      some (entry.1, amount read entry.2 / total read m) else none) := by
  obtain ⟨q, hq, -⟩ := h.counted entry.2 (List.mem_map_of_mem hentry)
  rw [share?, amount_eq hq, hq]
  change (if q.isZero then Except.ok none else _) = _
  by_cases hzero : q.value = 0
  · rw [if_pos (Quantity.isZero_iff.mpr hzero), if_neg (by simpa using hzero)]
  · rw [if_neg (mt Quantity.isZero_iff.mp hzero), if_pos (decide_eq_true hzero),
      Quantity.toScalar_real]
    change (do let share ← Scalar.divide q.value (total read m); _) = _
    rw [Scalar.divide_real _ hpos.ne']
    rfl

theorem normalize_eq : normalize read m = .ok (normalized read m) := by
  obtain ⟨q, hq, hvalue⟩ := h.exists_sumBy
  rw [normalize, hq]
  change (do let total ← q.toScalar; _) = _
  rw [Quantity.toScalar_real, hvalue]
  change (if total read m ≤ 0 then _ else _) = _
  unfold normalized
  split
  case isTrue => rfl
  case isFalse hpos =>
    rw [mapM_eq_map fun entry hentry => h.share?_eq hentry (not_le.mp hpos)]
    change Except.ok (⟨_⟩ : Distribution ℝ) = _
    rw [List.filterMap_map, shares, occurring, ← List.filterMap_eq_map, List.filterMap_filter]
    rfl

theorem parts_shares (hpos : 0 < total read m) : Parts (shares read m) where
  distinct := by
    unfold OrderedMap.Distinct OrderedMap.keys shares
    rw [List.map_map]
    exact h.distinct.sublist (List.filter_sublist.map _)
  nonneg x hx := by
    unfold OrderedMap.values shares at hx
    rw [List.map_map] at hx
    obtain ⟨entry, hentry, rfl⟩ := List.mem_map.mp hx
    have hmem := List.mem_map_of_mem (f := (·.2)) (List.mem_of_mem_filter hentry)
    exact div_nonneg (h.amount_nonneg hmem) hpos.le
  sum_le_one := by
    have hsub : ((occurring read m).map fun entry => amount read entry.2).Sublist
        (m.values.map (amount read)) := by
      rw [OrderedMap.values, List.map_map]
      exact List.filter_sublist.map _
    have hsum := hsub.sum_le_sum fun x hx => by
      obtain ⟨v, hv, rfl⟩ := List.mem_map.mp hx
      exact h.amount_nonneg hv
    have hvalues : (shares read m).values =
        (occurring read m).map fun entry => amount read entry.2 * (total read m)⁻¹ := by
      simp [OrderedMap.values, shares, div_eq_mul_inv]
    rw [hvalues, List.sum_map_mul_right, ← div_eq_mul_inv]
    exact (div_le_one hpos).mpr hsum

/-- Nothing is left of counts only if all of them are zero. -/
theorem isEmpty_normalized :
    (normalized read m).isEmpty = true ↔ ∀ v ∈ m.values, amount read v = 0 := by
  constructor
  · intro hempty v hv
    by_contra hne
    have hpos : 0 < total read m :=
      ((h.amount_nonneg hv).lt_of_ne' hne).trans_le (h.amount_le_total hv)
    obtain ⟨entry, hentry, rfl⟩ := List.mem_map.mp hv
    have hmem : entry ∈ occurring read m := List.mem_filter.mpr ⟨hentry, decide_eq_true hne⟩
    rw [normalized, if_neg hpos.not_ge, OrderedMap.isEmpty, shares, List.isEmpty_map,
      List.isEmpty_iff] at hempty
    rw [hempty] at hmem
    cases hmem
  · intro hnone
    have htotal : total read m = 0 := List.sum_eq_zero fun x hx => by
      obtain ⟨v, hv, rfl⟩ := List.mem_map.mp hx
      exact hnone v hv
    rw [normalized, if_pos htotal.le]
    rfl

theorem parts_normalized : Parts (normalized read m) := by
  unfold normalized
  split
  case isTrue => exact parts_empty
  case isFalse hpos => exact h.parts_shares (not_le.mp hpos)

end Counts

/-! ### Distances -/

/-- The part that goes by a name; a name that is missing has none. -/
def part (d : Distribution ℝ) (key : String) : ℝ := (d.find? key).getD 0

theorem shareOf_real (d : Distribution ℝ) (key : String) :
    shareOf (fun x => .ok (.real x)) d key = .ok (.real (d.part key)) := by
  unfold shareOf part
  cases d.find? key <;> rfl

theorem nodup_keysOfBoth {a b : OrderedMap String ν} (ha : a.Distinct) (hb : b.Distinct) :
    (keysOfBoth a b).Nodup := by
  refine ha.append (hb.filter _) fun key hleft hright => ?_
  have hmissing := (List.mem_filter.mp hright).2
  rw [OrderedMap.mem_keys.mp hleft] at hmissing
  cases hmissing

/-- How far apart two distributions are, squared. -/
noncomputable def squares (d d' : Distribution ℝ) : ℝ :=
  ((keysOfBoth d d').map fun key => (d.part key - d'.part key) * (d.part key - d'.part key)).sum

theorem exists_squaredDistance (d d' : Distribution ℝ) :
    ∃ q, squaredDistance (fun x => .ok (.real x)) d d' = .ok q ∧ q.value = squares d d' := by
  let gap (key : String) : ℝ := d.part key - d'.part key
  obtain ⟨q, hq, hvalue⟩ := Quantity.exists_foldlM_add
    (fun sum key => do
      let difference ← (← shareOf (fun x : ℝ => .ok (.real x)) d key).sub
        (← shareOf (fun x : ℝ => .ok (.real x)) d' key)
      sum.add (← difference.square))
    (fun key => gap key * gap key) (l := keysOfBoth d d') (fun key _ sum => by
      rw [shareOf_real, shareOf_real]
      exact sum.exists_add (.real (gap key * gap key))) (.whole 0)
  rw [Quantity.value, Int.cast_zero, zero_add] at hvalue
  exact ⟨q, hq, hvalue⟩

theorem distance_eq (d d' : Distribution ℝ) : distance d d' = .ok √(squares d d') := by
  obtain ⟨q, hq, hvalue⟩ := exists_squaredDistance d d'
  rw [distance, distanceBy, hq, ← hvalue]
  change (do let scalar ← q.toScalar; _) = _
  rw [Quantity.toScalar_real]
  rfl

theorem sq_sub_le_add {x y : ℝ} (hx : 0 ≤ x) (hx₁ : x ≤ 1) (hy : 0 ≤ y) (hy₁ : y ≤ 1) :
    (x - y) * (x - y) ≤ x + y := by
  nlinarith [mul_nonneg hx hy]

namespace Parts

variable {d d' : Distribution ℝ} (h : Parts d) (h' : Parts d')

section

include h

theorem part_nonneg (key : String) : 0 ≤ d.part key := by
  unfold part
  cases hfind : d.find? key with
  | none => exact le_rfl
  | some x => exact h.nonneg x (List.mem_map_of_mem (OrderedMap.mem_of_find? hfind))

theorem sum_values : (d.keys.map d.part).sum = d.values.sum := by
  unfold OrderedMap.keys OrderedMap.values
  rw [List.map_map]
  congr 1
  refine List.map_congr_left fun entry hentry => ?_
  change d.part entry.1 = entry.2
  rw [part, OrderedMap.find?_of_mem h.distinct hentry, Option.getD_some]

/-- Parts under different names come to no more than the whole. -/
theorem sum_part_le_one {keys : List String} (hkeys : keys.Nodup) :
    (keys.map d.part).sum ≤ 1 := by
  have hmissing : ∀ key ∈ keys.toFinset, d.part key ≠ 0 → key ∈ d.keys := by
    intro key _ hne
    rw [OrderedMap.mem_keys, OrderedMap.contains, Option.isSome_iff_ne_none]
    intro hnone
    exact hne (by rw [part, hnone, Option.getD_none])
  calc (keys.map d.part).sum
      = ∑ key ∈ keys.toFinset, d.part key := (List.sum_toFinset _ hkeys).symm
    _ = ∑ key ∈ keys.toFinset with key ∈ d.keys, d.part key :=
      (Finset.sum_filter_of_ne hmissing).symm
    _ ≤ ∑ key ∈ d.keys.toFinset, d.part key :=
      Finset.sum_le_sum_of_subset_of_nonneg
        (fun key hkey => List.mem_toFinset.mpr (Finset.mem_filter.mp hkey).2)
        fun key _ _ => h.part_nonneg key
    _ = d.values.sum := (List.sum_toFinset _ h.distinct).trans h.sum_values
    _ ≤ 1 := h.sum_le_one

theorem part_le_one (key : String) : d.part key ≤ 1 := by
  simpa using h.sum_part_le_one (List.nodup_singleton key)

end

include h h'

theorem squares_le_two : squares d d' ≤ 2 := by
  let keys := keysOfBoth d d'
  have hkeys : keys.Nodup := nodup_keysOfBoth h.distinct h'.distinct
  calc squares d d'
      ≤ (keys.map fun key => d.part key + d'.part key).sum :=
        List.sum_le_sum fun key _ => sq_sub_le_add (h.part_nonneg key) (h.part_le_one key)
          (h'.part_nonneg key) (h'.part_le_one key)
    _ = (keys.map d.part).sum + (keys.map d'.part).sum := List.sum_map_add
    _ ≤ 1 + 1 := add_le_add (h.sum_part_le_one hkeys) (h'.sum_part_le_one hkeys)
    _ = 2 := one_add_one_eq_two

end Parts

end ProbeForge.Distribution
