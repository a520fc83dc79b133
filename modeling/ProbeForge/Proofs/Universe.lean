import ProbeForge.Proofs.OrderedMap
import ProbeForge.Proofs.Outcome
import ProbeForge.Universe

/-!
# Lookups in a universe

However a universe was put together, each name that it lists for a kind is that of one of its
objects. If the names of its objects are texts, the schemas can be collected.
-/

namespace ProbeForge

/-- An object whose names are texts. -/
def SourceObject.IsNamed (o : SourceObject) : Prop :=
  ∃ name kind schema columns, o = .named name kind schema columns

namespace Universe

variable {u u' : Universe} {o : SourceObject}

/-- A universe that was put together from objects whose names are texts, also by additions that were
refused. -/
inductive Made : Universe → Prop where
  | table {objects : OrderedMap Key SourceObject} {u : Universe}
      (named : ∀ o ∈ objects.values, o.IsNamed) (made : ofTable objects = .ok u) : Made u
  | added {u : Universe} {o : SourceObject} (before : Made u) (named : o.IsNamed) :
      Made (u.add o).2

/-- What is looked up is there, and has names that are texts. -/
structure Indexed (u : Universe) : Prop where
  named : ∀ o ∈ u.objects.values, o.IsNamed
  listed : ∀ kind, ∀ key ∈ u.keysOf kind, u.contains key = true

theorem listKey_some {kind : SourceKind} {key : Key} (h : u.listKey kind key = some u') :
    u'.objects = u.objects ∧
      ∀ kind' key', key' ∈ u'.keysOf kind' → key' = key ∨ key' ∈ u.keysOf kind' := by
  cases kind
  case parent | child => cases h
  all_goals
    cases h
    refine ⟨rfl, fun kind' key' hmem => ?_⟩
    cases kind'
    all_goals simp only [keysOf, List.mem_append, List.mem_singleton] at hmem ⊢
    all_goals tauto

theorem Indexed.listKey (h : u.Indexed) {kind : SourceKind} {key : Key}
    (hkey : u.contains key = true) (hlist : u.listKey kind key = some u') : u'.Indexed := by
  obtain ⟨hobjects, hkeys⟩ := listKey_some hlist
  have hcontains : u'.contains = u.contains := by
    unfold contains
    rw [hobjects]
  refine ⟨hobjects ▸ h.named, fun kind' key' hmem => ?_⟩
  rw [hcontains]
  rcases hkeys kind' key' hmem with rfl | hold
  · exact hkey
  · exact h.listed kind' key' hold

theorem Indexed.insert (h : u.Indexed) (ho : o.IsNamed) (key : Key) :
    Indexed { u with objects := u.objects.insert key o } where
  named o' hmem := by
    obtain ⟨⟨key', o'⟩, hentry, rfl⟩ := List.mem_map.mp hmem
    rcases OrderedMap.mem_insert hentry with ⟨-, rfl⟩ | hold
    · exact ho
    · exact h.named o' (List.mem_map_of_mem hold)
  listed kind key' hmem := by
    -- no key leaves the table
    have hold : u.contains key' = true := h.listed kind key' (by cases kind <;> exact hmem)
    unfold contains OrderedMap.contains at hold ⊢
    rw [OrderedMap.find?_insert]
    split
    · rfl
    · exact hold

/-- An object that is refused leaves every lookup as it was. -/
theorem Indexed.add (h : u.Indexed) (ho : o.IsNamed) : (u.add o).2.Indexed := by
  unfold Universe.add
  split
  case h_1 => exact h
  case h_2 key hkey =>
    dsimp only
    split
    · exact h
    · -- the object is in the table before its kind is looked at
      have hinsert := h.insert ho key
      split
      case h_1 u' hlist =>
        refine hinsert.listKey ?_ hlist
        unfold contains OrderedMap.contains
        rw [OrderedMap.find?_insert_self]
        rfl
      case h_2 => exact hinsert

/-- What is listed is found. -/
theorem Indexed.find? (h : u.Indexed) {kind : SourceKind} {key : Key} (hkey : key ∈ u.keysOf kind) :
    ∃ o, u.find? key = some o ∧ o.IsNamed := by
  obtain ⟨o, ho⟩ := Option.isSome_iff_exists.mp (h.listed kind key hkey)
  exact ⟨o, ho, h.named o (List.mem_map_of_mem (f := (·.2)) (OrderedMap.mem_of_find? ho))⟩

theorem Indexed.schemas (h : u.Indexed) : ∃ schemas, u.schemas = .ok schemas := by
  unfold Universe.schemas
  have hkeys : ∀ schema ∈ (u.objects.values.map (·.schema)).filter (!·.isNull),
      ∃ key, schema.toKey = .ok key := by
    intro schema hschema
    obtain ⟨o, ho, rfl⟩ := List.mem_map.mp (List.mem_of_mem_filter hschema)
    obtain ⟨name, kind, schema, columns, rfl⟩ := h.named o ho
    cases schema with
    | none => exact ⟨.null, rfl⟩
    | some schema => exact ⟨.text schema, rfl⟩
  refine Exists.elim (foldlM_total (fun schema hschema seen => ?_) ∅) fun seen hseen =>
    ⟨seen.values, bind_ok.mpr ⟨seen, hseen, rfl⟩⟩
  obtain ⟨key, hkey⟩ := hkeys schema hschema
  exact ⟨_, bind_ok.mpr ⟨key, hkey, rfl⟩⟩

end Universe

end ProbeForge
