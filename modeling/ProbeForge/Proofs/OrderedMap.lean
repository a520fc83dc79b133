import Mathlib.Algebra.Ring.Int.Defs
import Mathlib.Data.List.Basic
import Mathlib.Data.List.Nodup
import ProbeForge.OrderedMap

/-!
# Ordered maps, entry by entry

What is found in a table after each operation. In a table whose keys are distinct the entries are
what is found.
-/

namespace ProbeForge.OrderedMap

variable {κ ν μ : Type} {m : OrderedMap κ ν} {k k' : κ} {v v' : ν}

/-- No key comes twice. -/
def Distinct (m : OrderedMap κ ν) : Prop := m.keys.Nodup

theorem distinct_singleton : (⟨[(k, v)]⟩ : OrderedMap κ ν).Distinct := List.nodup_singleton k

theorem keys_mapValues (f : ν → μ) (m : OrderedMap κ ν) : (m.mapValues f).keys = m.keys := by
  simp [keys, mapValues, Function.comp_def]

theorem Distinct.mapValues (hm : m.Distinct) (f : ν → μ) : (m.mapValues f).Distinct := by
  unfold Distinct
  rwa [keys_mapValues]

theorem mem_mapValues {f : ν → μ} {b : μ} :
    (k, b) ∈ (m.mapValues f).entries ↔ ∃ v, (k, v) ∈ m.entries ∧ f v = b := by
  simp [OrderedMap.mapValues]

theorem distinct_empty : (∅ : OrderedMap κ ν).Distinct := List.nodup_nil

variable [DecidableEq κ]

theorem mem_of_find? (h : m.find? k = some v) : (k, v) ∈ m.entries := by
  obtain ⟨before, after, hsplit, -⟩ := List.lookup_eq_some_iff.mp h
  rw [hsplit]
  exact List.mem_append_right _ List.mem_cons_self

theorem find?_of_mem (hm : m.Distinct) (h : (k, v) ∈ m.entries) : m.find? k = some v := by
  obtain ⟨before, after, hsplit⟩ := List.append_of_mem h
  refine List.lookup_eq_some_iff.mpr ⟨before, after, hsplit, fun p hp => ?_⟩
  unfold Distinct keys at hm
  rw [hsplit, List.map_append, List.map_cons] at hm
  have hne := (List.nodup_append.mp hm).2.2 p.1 (List.mem_map_of_mem hp) k List.mem_cons_self
  simpa using hne.symm

theorem contains_of_mem (h : (k, v) ∈ m.entries) : m.contains k = true :=
  List.lookup_isSome_iff.mpr ⟨(k, v), h, beq_self_eq_true k⟩

/-! ### Assignment -/

theorem lookup_cons (p : κ × ν) (l : List (κ × ν)) :
    (p :: l).lookup k = if p.1 = k then some p.2 else l.lookup k := by
  rw [List.lookup_cons]
  by_cases h : p.1 = k
  · rw [if_pos h, beq_iff_eq.mpr h.symm]
  · rw [if_neg h, beq_eq_false_iff_ne.mpr (Ne.symm h)]

theorem lookup_assign (l : List (κ × ν)) :
    (assign k v l).lookup k' = if k = k' then some v else l.lookup k' := by
  induction l with
  | nil => exact lookup_cons (k, v) []
  | cons p l ih =>
    rw [assign]
    split
    case isTrue heq =>
      subst heq
      rw [lookup_cons, lookup_cons]
      by_cases h : p.1 = k'
      · rw [if_pos h, if_pos h]
      · rw [if_neg h, if_neg h, if_neg h]
    case isFalse hne =>
      rw [lookup_cons, lookup_cons, ih]
      by_cases h : p.1 = k'
      · have hne' : k ≠ k' := fun heq => hne (h.trans heq.symm)
        rw [if_pos h, if_neg hne', if_pos h]
      · rw [if_neg h, if_neg h]

theorem find?_insert :
    (m.insert k v).find? k' = if k = k' then some v else m.find? k' :=
  lookup_assign m.entries

theorem find?_insert_self : (m.insert k v).find? k = some v := by
  rw [find?_insert, if_pos rfl]

theorem contains_insert : (m.insert k v).contains k' = true ↔ k = k' ∨ m.contains k' = true := by
  unfold contains
  rw [find?_insert]
  split
  case isTrue h => simp [h]
  case isFalse h => simp [h]

theorem mem_insert_self : (k, v) ∈ (m.insert k v).entries := mem_of_find? find?_insert_self

theorem mem_assign {l : List (κ × ν)} (h : (k', v') ∈ assign k v l) :
    k' = k ∧ v' = v ∨ (k', v') ∈ l := by
  induction l with
  | nil => exact .inl (by simpa [assign] using h)
  | cons p l ih =>
    obtain ⟨a, b⟩ := p
    rw [assign] at h
    split at h
    case isTrue heq =>
      rcases List.mem_cons.mp h with hhead | htail
      · cases hhead
        exact .inl ⟨heq, rfl⟩
      · exact .inr (List.mem_cons_of_mem _ htail)
    case isFalse =>
      rcases List.mem_cons.mp h with hhead | htail
      · exact .inr (hhead ▸ List.mem_cons_self)
      · exact (ih htail).imp_right (List.mem_cons_of_mem _)

theorem mem_insert (h : (k', v') ∈ (m.insert k v).entries) :
    k' = k ∧ v' = v ∨ (k', v') ∈ m.entries := mem_assign h

theorem map_fst_assign (l : List (κ × ν)) :
    (assign k v l).map (·.1) = if k ∈ l.map (·.1) then l.map (·.1) else l.map (·.1) ++ [k] := by
  induction l with
  | nil => rfl
  | cons p l ih =>
    obtain ⟨a, b⟩ := p
    rw [assign]
    split
    case isTrue heq => simp [heq]
    case isFalse hne =>
      rw [List.map_cons, ih, List.map_cons]
      by_cases h : k ∈ l.map (·.1)
      · rw [if_pos h, if_pos (List.mem_cons_of_mem _ h)]
      · have hout : k ∉ a :: l.map (·.1) := by simp [Ne.symm hne, h]
        rw [if_neg h, if_neg hout]
        rfl

theorem assign_of_not_mem {l : List (κ × ν)} (h : k ∉ l.map (·.1)) :
    assign k v l = l ++ [(k, v)] := by
  induction l with
  | nil => rfl
  | cons p l ih =>
    obtain ⟨hne, hrest⟩ := List.ne_and_not_mem_of_not_mem_cons h
    rw [assign, if_neg (Ne.symm hne), ih hrest]
    rfl

theorem Distinct.insert (hm : m.Distinct) : (m.insert k v).Distinct := by
  unfold Distinct keys OrderedMap.insert
  rw [map_fst_assign]
  split
  case isTrue => exact hm
  case isFalse hnot =>
    refine List.nodup_append.mpr ⟨hm, List.nodup_singleton k, fun a ha b hb heq => hnot ?_⟩
    rw [← List.mem_singleton.mp hb, ← heq]
    exact ha

/-! ### Removal and values -/

theorem find?_erase : (m.erase k).find? k' = if k = k' then none else m.find? k' := by
  unfold find? erase
  induction m.entries with
  | nil => simp
  | cons p l ih =>
    rw [List.filter_cons]
    by_cases h : p.1 = k
    · rw [if_neg (by simpa using h), ih, lookup_cons, h]
      by_cases h' : k = k'
      · rw [if_pos h', if_pos h']
      · rw [if_neg h', if_neg h', if_neg h']
    · rw [if_pos (by simpa using h), lookup_cons, lookup_cons, ih]
      by_cases h' : p.1 = k'
      · have hne : k ≠ k' := fun heq => h (h'.trans heq.symm)
        rw [if_pos h', if_neg hne, if_pos h']
      · rw [if_neg h', if_neg h']

theorem contains_erase : (m.erase k).contains k' = true ↔ k ≠ k' ∧ m.contains k' = true := by
  unfold contains
  rw [find?_erase]
  split
  case isTrue h => simp [h]
  case isFalse h => simp [h]

theorem Distinct.erase (hm : m.Distinct) : (m.erase k).Distinct :=
  hm.sublist (List.filter_sublist.map _)

theorem mem_erase (h : (k', v') ∈ (m.erase k).entries) : (k', v') ∈ m.entries :=
  List.mem_of_mem_filter h

/-- A value under a new key hides no other. -/
theorem find?_insert_of_not_contains (hk : m.contains k = false) (h : m.find? k' = some v') :
    (m.insert k v).find? k' = some v' := by
  have hne : k ≠ k' := by
    rintro rfl
    rw [contains, h] at hk
    cases hk
  rw [find?_insert, if_neg hne, h]

/-! ### Size -/

omit [DecidableEq κ] in
theorem length_keys (m : OrderedMap κ ν) : m.keys.length = m.size := List.length_map _

theorem mem_keys : k ∈ m.keys ↔ m.contains k = true := by
  rw [contains, find?, List.lookup_isSome_iff, keys, List.mem_map]
  exact exists_congr fun p => and_congr_right' (by rw [beq_iff_eq]; exact eq_comm)

theorem keys_insert :
    (m.insert k v).keys = if m.contains k = true then m.keys else m.keys ++ [k] := by
  rw [← if_congr mem_keys rfl rfl]
  exact map_fst_assign m.entries

/-- A new key goes to the end. -/
theorem entries_insert (h : m.contains k = false) :
    (m.insert k v).entries = m.entries ++ [(k, v)] :=
  assign_of_not_mem fun hmem => Bool.false_ne_true (h.symm.trans (mem_keys.mp hmem))

theorem size_insert :
    (m.insert k v).size = if m.contains k = true then m.size else m.size + 1 := by
  rw [← length_keys, ← length_keys, keys_insert]
  split
  · rfl
  · exact List.length_append

theorem size_insert_eq_iff : (m.insert k v).size = m.size + 1 ↔ m.contains k = false := by
  rw [size_insert]
  cases m.contains k <;> simp

theorem keys_erase : (m.erase k).keys = m.keys.filter (· ≠ k) := by
  rw [keys, keys, OrderedMap.erase, List.filter_map]
  rfl

theorem Distinct.size_erase (hm : m.Distinct) (h : m.contains k = true) :
    (m.erase k).size + 1 = m.size := by
  have hkeys : (m.erase k).keys = m.keys.erase k := by
    rw [keys_erase, hm.erase_eq_filter]
    exact List.filter_congr fun a _ => by by_cases ha : a = k <;> simp [ha]
  rw [← length_keys, ← length_keys, hkeys, List.length_erase_of_mem (mem_keys.mpr h)]
  exact Nat.sub_add_cancel (List.length_pos_of_mem (mem_keys.mpr h))

/-! ### Tallies -/

theorem sum_values_count (m : OrderedMap κ Int) (k : κ) (n : Int) :
    (m.count k n).values.sum = m.values.sum + n := by
  change ((assign k ((m.entries.lookup k).getD 0 + n) m.entries).map (·.2)).sum =
    (m.entries.map (·.2)).sum + n
  induction m.entries with
  | nil => simp [assign]
  | cons p l ih =>
    rw [assign, lookup_cons]
    split
    · simp only [List.map_cons, List.sum_cons, Option.getD_some]
      omega
    · rw [List.map_cons, List.sum_cons, ih, List.map_cons, List.sum_cons]
      omega

/-- A table of how often each member of a list comes. -/
structure Tallies (m : OrderedMap κ Int) (l : List κ) : Prop where
  distinct : m.Distinct
  count : ∀ k n, m.find? k = some n ↔ k ∈ l ∧ n = l.count k

theorem tallies_nil : (∅ : OrderedMap κ Int).Tallies [] :=
  ⟨distinct_empty, fun k n => by simp [find?, EmptyCollection.emptyCollection]⟩

theorem Tallies.getD {m : OrderedMap κ Int} {l : List κ} (h : m.Tallies l) (k : κ) :
    (m.find? k).getD 0 = l.count k := by
  cases hfound : m.find? k with
  | some n => exact ((h.count k n).mp hfound).2
  | none =>
    have hout : k ∉ l := fun hmem => by
      rw [(h.count k _).mpr ⟨hmem, rfl⟩] at hfound
      cases hfound
    rw [List.count_eq_zero.mpr hout]
    rfl

theorem Tallies.concat {m : OrderedMap κ Int} {l : List κ} (h : m.Tallies l) (k : κ) :
    (m.count k 1).Tallies (l ++ [k]) := by
  refine ⟨h.distinct.insert, fun k' n => ?_⟩
  rw [OrderedMap.count, find?_insert, h.getD, List.count_append]
  split
  case isTrue heq =>
    subst heq
    simp [eq_comm]
  case isFalse hne =>
    rw [h.count]
    simp [hne, Ne.symm hne]

end ProbeForge.OrderedMap
