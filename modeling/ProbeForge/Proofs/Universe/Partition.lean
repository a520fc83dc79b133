import Mathlib.Data.List.Induction
import ProbeForge.Proofs.Universe.Additions

/-!
# Kinds of a universe

A universe that was filled by additions lists each key once, for the kind of the object that is
found under it, in the order in which the objects were added. An object that is refused is listed
nowhere, even if it was stored.
-/

namespace ProbeForge.Universe

variable {u : Universe} {kind kind' : SourceKind} {key : Key} {o : SourceObject}

theorem isPhysical_of_mem_keysOf (h : key ∈ u.keysOf kind) : kind.isPhysical = true := by
  cases kind with
  | table | view | mview | sequence => rfl
  | parent | child => cases h

/-- A key is listed for the kind of the object that is found under it, and for no other. -/
theorem Partitioned.find?_of_mem_keysOf (h : u.Partitioned) (hkey : key ∈ u.keysOf kind) :
    ∃ o, u.find? key = some o ∧ o.key = .ok key ∧ o.kind = kind := by
  rw [h.listed kind (isPhysical_of_mem_keysOf hkey)] at hkey
  obtain ⟨⟨key, o⟩, hmem, rfl⟩ := List.mem_map.mp hkey
  obtain ⟨hentry, hkind⟩ := List.mem_filter.mp hmem
  exact ⟨o, OrderedMap.find?_of_mem h.distinct hentry, h.keyed _ hentry, of_decide_eq_true hkind⟩

theorem Partitioned.nodup_keysOf (h : u.Partitioned) (kind : SourceKind) :
    (u.keysOf kind).Nodup := by
  cases kind with
  | table | view | mview | sequence =>
    rw [h.listed _ rfl]
    exact h.distinct.sublist (List.filter_sublist.map _)
  | parent | child => exact List.nodup_nil

theorem Partitioned.disjoint_keysOf (h : u.Partitioned) (hne : kind ≠ kind') :
    (u.keysOf kind).Disjoint (u.keysOf kind') := by
  intro key hkey hkey'
  obtain ⟨o, hfind, -, rfl⟩ := h.find?_of_mem_keysOf hkey
  obtain ⟨o', hfind', -, rfl⟩ := h.find?_of_mem_keysOf hkey'
  cases hfind.symm.trans hfind'
  exact hne rfl

/-- Looking up all keys of a physical kind loses none of its objects. -/
theorem Partitioned.objectsOf_eq (h : u.Partitioned) (hphysical : kind.isPhysical = true) :
    u.objectsOf kind = u.objects.values.filter (·.kind = kind) := by
  have hfound : ∀ p ∈ u.objects.entries.filter (·.2.kind = kind),
      (u.find? ∘ (·.1)) p = (some ∘ (·.2)) p :=
    fun p hp => OrderedMap.find?_of_mem h.distinct (List.mem_of_mem_filter hp)
  rw [objectsOf, h.listed kind hphysical, List.filterMap_map, List.filterMap_congr hfound,
    List.filterMap_eq_map, OrderedMap.values, List.filter_map]
  rfl

/-- Objects are stored in the order in which they are added. -/
theorem values_filledBy (objects : List SourceObject) :
    (filledBy objects).objects.values.Sublist objects := by
  induction objects using List.reverseRecOn with
  | nil => exact List.Sublist.refl _
  | append_singleton objects o ih =>
    have hlast : filledBy (objects ++ [o]) = ((filledBy objects).add o).2 := List.foldl_concat ..
    have hadds := adds_add (filledBy objects) o
    rw [hlast]
    generalize (filledBy objects).add o = r at hadds
    cases hadds with
    | unkeyed | twice => exact ih.trans (List.sublist_append_left _ _)
    | added _ hstores | unlisted _ hstores =>
      rw [hstores.values]
      exact ih.append (List.Sublist.refl _)

/-- However a universe was filled, its keys are partitioned by kind. -/
theorem filledBy_partition (objects : List SourceObject) :
    let u := filledBy objects
    u.objects.values.Sublist objects ∧ (∀ kind, (u.keysOf kind).Nodup) ∧
      (∀ kind kind', kind ≠ kind' → (u.keysOf kind).Disjoint (u.keysOf kind')) ∧
      (∀ kind, kind.isPhysical = true →
        u.keysOf kind = (u.objects.entries.filter (·.2.kind = kind)).map (·.1) ∧
          u.objectsOf kind = u.objects.values.filter (·.kind = kind)) ∧
      ∀ kind, ∀ key ∈ u.keysOf kind,
        ∃ o, u.find? key = some o ∧ o.key = .ok key ∧ o.kind = kind := by
  intro u
  have hu : u.Partitioned := partitioned_filledBy objects
  exact ⟨values_filledBy objects, hu.nodup_keysOf, fun kind kind' => hu.disjoint_keysOf,
    fun kind hphysical => ⟨hu.listed kind hphysical, hu.objectsOf_eq hphysical⟩,
    fun kind key => hu.find?_of_mem_keysOf⟩

/-- The second object is taken for the first, and the third is stored though it is refused. -/
example :
    let u := filledBy [.named "t" .table "s" [], .named "s.t" .view none [],
      .named "b" .child none [], .named "v" .view none []]
    (u.size, u.tables, u.views) = (3, [.text "s.t"], [.text "v"]) := by decide +kernel

end ProbeForge.Universe
