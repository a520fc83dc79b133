import ProbeForge.Proofs.OrderedMap
import ProbeForge.Universe

/-!
# Additions to a universe

An addition is refused if the key of the object cannot be computed or is taken, and then changes
nothing. Each object of a universe that was filled by additions stands under its own key, and the
keys of a physical kind are those of its objects in the order in which they were added.
-/

namespace ProbeForge.Universe

variable {u u' : Universe} {o : SourceObject} {key : Key}

theorem length_values (u : Universe) : u.objects.values.length = u.size := List.length_map _

/-- One more object stands under its key, which was free. -/
structure Stores (u : Universe) (o : SourceObject) (key : Key) (u' : Universe) : Prop where
  keyed : o.key = .ok key
  free : u.contains key = false
  objects : u'.objects = u.objects.insert key o
  keys : ∀ kind : SourceKind, kind.isPhysical = true →
    u'.keysOf kind = u.keysOf kind ++ if kind = o.kind then [key] else []

/-- What an addition comes to. -/
inductive Adds (u : Universe) (o : SourceObject) : Option Fault × Universe → Prop where
  | unkeyed {fault : Fault} (keyless : o.key = .error fault) : Adds u o (some fault, u)
  | twice {key : Key} (keyed : o.key = .ok key) (taken : u.contains key = true) :
      Adds u o (some (.configuration (.objectTwice o.qualifiedName.plain)), u)
  | added {key : Key} {u' : Universe} (physical : o.kind.isPhysical = true)
      (stores : u.Stores o key u') : Adds u o (none, u')
  | unlisted {key : Key} {u' : Universe} (inline : o.kind.isPhysical = false)
      (stores : u.Stores o key u') : Adds u o (some .absent, u')

theorem adds_add (u : Universe) (o : SourceObject) : Adds u o (u.add o) := by
  unfold add
  split
  case h_1 fault hkey => exact .unkeyed hkey
  case h_2 key hkey =>
    split
    case isTrue htaken => exact .twice hkey htaken
    case isFalse hfree =>
      have hfree : u.contains key = false := Bool.eq_false_iff.mpr hfree
      cases hkind : o.kind with
      | table | view | mview | sequence =>
        refine .added (by rw [hkind]; rfl) ⟨hkey, hfree, rfl, fun kind hphysical => ?_⟩
        rw [hkind]
        cases kind <;> simp [keysOf]
      | parent | child =>
        refine .unlisted (by rw [hkind]; rfl) ⟨hkey, hfree, rfl, fun kind hphysical => ?_⟩
        -- an inline kind is none of those that are listed
        rw [if_neg (by rintro rfl; simp [hkind, SourceKind.isPhysical] at hphysical)]
        cases kind <;> simp [keysOf]

/-- Every object stands under its own key, no key comes twice, and each physical kind lists the keys
of its objects in order. -/
structure Partitioned (u : Universe) : Prop where
  distinct : u.objects.Distinct
  keyed : ∀ p ∈ u.objects.entries, p.2.key = .ok p.1
  listed : ∀ kind : SourceKind, kind.isPhysical = true →
    u.keysOf kind = (u.objects.entries.filter (·.2.kind = kind)).map (·.1)

theorem partitioned_empty : empty.Partitioned where
  distinct := OrderedMap.distinct_empty
  keyed _ hmem := nomatch hmem
  listed kind _ := by cases kind <;> rfl

theorem Stores.entries (h : u.Stores o key u') :
    u'.objects.entries = u.objects.entries ++ [(key, o)] := by
  rw [h.objects, OrderedMap.entries_insert h.free]

theorem Stores.values (h : u.Stores o key u') :
    u'.objects.values = u.objects.values ++ [o] := by
  rw [OrderedMap.values, h.entries, List.map_append]
  rfl

theorem Partitioned.stores (h : u.Partitioned) (hstores : u.Stores o key u') : u'.Partitioned where
  distinct := hstores.objects ▸ h.distinct.insert
  keyed p hp := by
    rcases List.mem_append.mp (hstores.entries ▸ hp) with hp | hp
    · exact h.keyed p hp
    · cases List.mem_singleton.mp hp
      exact hstores.keyed
  listed kind hphysical := by
    rw [hstores.keys kind hphysical, hstores.entries, List.filter_append, List.map_append,
      h.listed kind hphysical]
    congr 1
    by_cases heq : kind = o.kind
    · simp [heq]
    · simp [heq, Ne.symm heq]

/-- Refused or not, an addition leaves the universe partitioned. -/
theorem Partitioned.add (h : u.Partitioned) (o : SourceObject) : (u.add o).2.Partitioned := by
  have hadds := adds_add u o
  generalize u.add o = r at hadds
  cases hadds with
  | unkeyed | twice => exact h
  | added _ hstores | unlisted _ hstores => exact h.stores hstores

/-- The universe after some additions, also those that are refused. -/
def filledBy (objects : List SourceObject) : Universe :=
  objects.foldl (fun u o => (u.add o).2) empty

theorem partitioned_filledBy (objects : List SourceObject) : (filledBy objects).Partitioned :=
  List.foldlRecOn objects _ partitioned_empty fun _ hu o _ => hu.add o

/-- A key is taken exactly if it is that of an object. -/
theorem Partitioned.contains_iff (h : u.Partitioned) :
    u.contains key = true ↔ ∃ o ∈ u.objects.values, o.key = .ok key := by
  constructor
  · intro hcontains
    obtain ⟨o, ho⟩ := Option.isSome_iff_exists.mp hcontains
    have hmem := OrderedMap.mem_of_find? ho
    exact ⟨o, List.mem_map_of_mem (f := (·.2)) hmem, h.keyed _ hmem⟩
  · rintro ⟨o, ho, hkey⟩
    obtain ⟨⟨key', o⟩, hmem, rfl⟩ := List.mem_map.mp ho
    cases Except.ok.inj (hkey.symm.trans (h.keyed _ hmem))
    exact OrderedMap.contains_of_mem hmem

theorem Partitioned.eq_of_key {o' : SourceObject} (h : u.Partitioned) (ho : o ∈ u.objects.values)
    (ho' : o' ∈ u.objects.values) (hkey : o.key = o'.key) : o = o' := by
  obtain ⟨⟨k, o⟩, hmem, rfl⟩ := List.mem_map.mp ho
  obtain ⟨⟨k', o'⟩, hmem', rfl⟩ := List.mem_map.mp ho'
  cases Except.ok.inj ((h.keyed _ hmem).symm.trans (hkey.trans (h.keyed _ hmem')))
  exact Option.some.inj ((OrderedMap.find?_of_mem h.distinct hmem).symm.trans
    (OrderedMap.find?_of_mem h.distinct hmem'))

/-- The key of the object can be computed and none of the others has it. -/
def Free (others : List SourceObject) (o : SourceObject) : Prop :=
  ∃ key, o.key = .ok key ∧ ∀ o' ∈ others, o'.key ≠ .ok key

theorem Partitioned.free_iff (h : u.Partitioned) :
    Free u.objects.values o ↔ ∃ key, o.key = .ok key ∧ u.contains key = false := by
  refine exists_congr fun key => and_congr_right fun _ => ?_
  rw [← Bool.not_eq_true, h.contains_iff]
  simp

/-- An object of a physical kind is added exactly if its key is free, and then comes last. -/
theorem Partitioned.add_physical (h : u.Partitioned) (hphysical : o.kind.isPhysical = true) :
    ((u.add o).1 = none ↔ Free u.objects.values o) ∧
      ((u.add o).1 = none → (u.add o).2.objects.values = u.objects.values ++ [o]) := by
  rw [h.free_iff]
  have hadds := adds_add u o
  generalize u.add o = r at hadds
  cases hadds with
  | unkeyed hkeyless => simp [hkeyless]
  | twice hkey htaken => simp [hkey, htaken]
  | added _ hstores =>
    exact ⟨iff_of_true rfl ⟨_, hstores.keyed, hstores.free⟩, fun _ => hstores.values⟩
  | unlisted hinline => exact absurd (hinline.symm.trans hphysical) Bool.false_ne_true

end ProbeForge.Universe
