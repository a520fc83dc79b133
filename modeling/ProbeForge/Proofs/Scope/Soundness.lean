import ProbeForge.Proofs.Scope.Histories
import ProbeForge.Proofs.Scope.Plain

/-!
# Sound tables

The table of sources, the table of columns and the last source of a segment refer to each other by
aliases that change. Every edit keeps them in agreement, so they agree after every history.
-/

namespace ProbeForge

/-! ### Agreement of the tables -/

/-- The aliases recorded for a column: each is the column's name itself or was made from it, and
stands for a source that is registered. -/
structure Tables.GoesBy (m : Nat) (t : Tables) (column : String)
    (aliases : OrderedMap String String) : Prop where
  distinct : aliases.Distinct
  inhabited : aliases.entries ≠ []
  registered : ∀ p ∈ aliases.entries, t.sources.contains p.2 = true
  named : ∀ p ∈ aliases.entries, p.1 = column ∨ ∃ n, 1 ≤ n ∧ n ≤ m ∧ p.1 = s!"{column}_{n}"

/-- The tables agree, where `m` names were minted so far. -/
structure Tables.Sound (m : Nat) (t : Tables) : Prop where
  sources : t.sources.Distinct
  columns : t.columns.Distinct
  owned : Owned t.sources
  last : ∀ key, t.lastSource = some key → t.sources.contains key = true
  aliases : ∀ p ∈ t.columns.entries, t.GoesBy m p.1 p.2

namespace Tables

variable {m m' : Nat} {t t' : Tables}

theorem sound_empty (m : Nat) : (⟨∅, ∅, none⟩ : Tables).Sound m where
  sources := OrderedMap.distinct_empty
  columns := OrderedMap.distinct_empty
  owned _ _ h := by cases h
  last _ h := by cases h
  aliases _ h := by cases h

theorem GoesBy.mono {column : String} {aliases : OrderedMap String String}
    (h : t.GoesBy m column aliases) (hm : m ≤ m')
    (hsub : ∀ source, t.sources.contains source = true → t'.sources.contains source = true) :
    t'.GoesBy m' column aliases where
  distinct := h.distinct
  inhabited := h.inhabited
  registered p hp := hsub p.2 (h.registered p hp)
  named p hp := (h.named p hp).imp_right fun ⟨n, hn, hle, heq⟩ => ⟨n, hn, Nat.le_trans hle hm, heq⟩

theorem Sound.mono (h : t.Sound m) (hm : m ≤ m') : t.Sound m' :=
  { h with aliases := fun p hp => (h.aliases p hp).mono hm fun _ h => h }

theorem Sound.contains_of_lists (h : t.Sound m) {source : String} (hlists : t.Lists source) :
    t.sources.contains source = true := by
  obtain ⟨key, entry, hfind, rfl⟩ := hlists
  rw [h.owned key entry hfind]
  exact OrderedMap.contains_of_mem (OrderedMap.mem_of_find? hfind)

theorem Sound.goesBy (h : t.Sound m) {column : String} {aliases : OrderedMap String String}
    (hfind : t.columns.find? column = some aliases) : t.GoesBy m column aliases :=
  h.aliases _ (OrderedMap.mem_of_find? hfind)

/-- The aliases of one column are replaced. -/
theorem Sound.insert_column (h : t.Sound m) (hm : m ≤ m') {column : String}
    {aliases : OrderedMap String String} (hgoes : t.GoesBy m' column aliases) :
    { t with columns := t.columns.insert column aliases }.Sound m' where
  sources := h.sources
  columns := h.columns.insert
  owned := h.owned
  last := h.last
  aliases := by
    rintro ⟨column', aliases'⟩ hp
    rcases OrderedMap.mem_insert hp with ⟨rfl, rfl⟩ | hold
    · exact ⟨hgoes.distinct, hgoes.inhabited, hgoes.registered, hgoes.named⟩
    · exact (h.aliases _ hold).mono hm fun _ h => h

theorem Sound.put (h : t.Sound m) (entry : SourceEntry) :
    ({ t with
      sources := t.sources.insert entry.aliasName entry
      lastSource := some entry.aliasName } : Tables).Sound m where
  sources := h.sources.insert
  columns := h.columns
  owned := h.owned.insert entry
  last key hkey := by
    cases hkey
    exact OrderedMap.contains_insert.mpr (.inl rfl)
  aliases p hp := (h.aliases p hp).mono (Nat.le_refl m) fun _ hsource =>
    OrderedMap.contains_insert.mpr (.inr hsource)

/-- A source that goes by a new alias goes by it in the column table too. -/
theorem Sound.rename (h : t.Sound m) (key new : String) (entry : SourceEntry) :
    ({ sources := (t.sources.erase key).insert new { entry with aliasName := new }
       columns := t.columns.mapValues
         (·.mapValues fun source => if source = key then new else source)
       lastSource := if t.lastSource = some key then some new else t.lastSource } : Tables).Sound
      m := by
  have hmoved : ∀ source, t.sources.contains source = true →
      ((t.sources.erase key).insert new { entry with aliasName := new }).contains
        (if source = key then new else source) = true := by
    intro source hsource
    rw [OrderedMap.contains_insert, OrderedMap.contains_erase]
    split
    case isTrue => exact .inl rfl
    case isFalse hne => exact .inr ⟨Ne.symm hne, hsource⟩
  refine ⟨h.sources.erase.insert, h.columns.mapValues _,
    (h.owned.erase key).insert { entry with aliasName := new }, fun last hlast => ?_, ?_⟩
  · dsimp only at hlast
    split at hlast
    · cases hlast
      exact OrderedMap.contains_insert.mpr (.inl rfl)
    case isFalse hne =>
      have hmove := hmoved last (h.last last hlast)
      rwa [if_neg fun heq : last = key => hne (heq ▸ hlast)] at hmove
  · rintro ⟨column, aliases'⟩ hp
    obtain ⟨aliases, hold, rfl⟩ := OrderedMap.mem_mapValues.mp hp
    have hgoes := h.aliases _ hold
    refine ⟨hgoes.distinct.mapValues _, fun hnil => ?_, ?_, ?_⟩
    · exact hgoes.inhabited (List.map_eq_nil_iff.mp hnil)
    · rintro ⟨columnAlias, source'⟩ hpair
      obtain ⟨source, hsource, rfl⟩ := OrderedMap.mem_mapValues.mp hpair
      exact hmoved source (hgoes.registered _ hsource)
    · rintro ⟨columnAlias, source'⟩ hpair
      obtain ⟨source, hsource, -⟩ := OrderedMap.mem_mapValues.mp hpair
      exact hgoes.named (columnAlias, source) hsource

end Tables

theorem Edit.sound {m m' : Nat} {t t' : Tables} (h : Edit m m' t t') (hm : m ≤ m')
    (ht : t.Sound m) : t'.Sound m' := by
  cases h with
  | none => exact ht.mono hm
  | put entry => exact (ht.put entry).mono hm
  | rename found fresh minted => exact (ht.rename _ _ _).mono hm
  | @pick column source listed unused =>
    refine ht.insert_column hm ⟨OrderedMap.distinct_singleton, by simp, fun p hp => ?_, ?_⟩
    · cases List.mem_singleton.mp hp
      exact ht.contains_of_lists listed
    · intro p hp
      cases List.mem_singleton.mp hp
      exact .inl rfl
  | @name column source aliases kept n found known keeps fresh minted =>
    -- the aliases that are kept are among those there were
    have hgoes := ht.goesBy found
    have hsub : ∀ p ∈ kept.entries, p ∈ aliases.entries := by
      intro p hp
      rcases keeps with rfl | rfl
      · exact hp
      · exact OrderedMap.mem_erase hp
    have hkept : kept.Distinct := by
      rcases keeps with rfl | rfl
      · exact hgoes.distinct
      · exact hgoes.distinct.erase
    have hsource : t.sources.contains source = true := by
      rcases known with hlisted | hvalue
      · exact ht.contains_of_lists hlisted
      · obtain ⟨p, hp, rfl⟩ := List.mem_map.mp hvalue
        exact hgoes.registered p hp
    refine ht.insert_column hm ⟨hkept.insert, ?_, ?_, ?_⟩
    · exact List.ne_nil_of_mem OrderedMap.mem_insert_self
    · rintro ⟨columnAlias, source'⟩ hp
      rcases OrderedMap.mem_insert hp with ⟨-, rfl⟩ | hold
      · exact hsource
      · exact hgoes.registered _ (hsub _ hold)
    · rintro ⟨columnAlias, source'⟩ hp
      rcases OrderedMap.mem_insert hp with ⟨rfl, -⟩ | hold
      · exact .inr ⟨n, by omega, minted, rfl⟩
      · exact (hgoes.named _ (hsub _ hold)).imp_right fun ⟨k, hk, hle, heq⟩ =>
          ⟨k, hk, Nat.le_trans hle hm, heq⟩

/-! ### Agreement in a catalog -/

/-- All segments are sound, and the open ones exist. -/
structure Catalog.Sound (c : Catalog) : Prop where
  shared : c.Shared
  tables : ∀ id, (c.segment id).tables.Sound c.minted
  stack : ∀ id ∈ c.stack, id < c.segments.size

theorem Catalog.sound_empty : Catalog.empty.Sound where
  shared _ := rfl
  tables _ := Tables.sound_empty 0
  stack _ h := by cases h

namespace Scope

variable {ρ : Type} {id : SegmentId} {s s' : Scope ρ}

theorem Edited.sound (h : Edited id s s') (hs : s.catalog.Sound) : s'.catalog.Sound := by
  obtain ⟨f, hchanged, -⟩ := h.changed
  have hminted := h.minted_le
  refine ⟨h.shared hs.shared, fun k => ?_, fun k hk => ?_⟩
  · by_cases hkid : k = id
    · subst hkid
      exact h.edit.sound hminted (hs.tables k)
    · rw [hchanged.other hkid]
      exact (hs.tables k).mono hminted
  · rw [hchanged.size_eq]
    exact hs.stack k (hchanged.stack_eq ▸ hk)

theorem Edits.sound (h : Edits id s s') (hs : s.catalog.Sound) : s'.catalog.Sound := by
  induction h with
  | refl => exact hs
  | tail _ hedited ih => exact hedited.sound ih

theorem push_sound (hs : s.catalog.Sound) : (push s).2.catalog.Sound := by
  refine ⟨push_shared hs.shared, fun k => ?_, fun k hk => ?_⟩
  · rw [push_minted]
    cases push_opened s k with
    | same eq => exact eq ▸ hs.tables k
    | root name eq => exact eq ▸ Tables.sound_empty _
    | nested parent name id eq => exact eq ▸ (Tables.sound_empty _).put _
    | enclosing child eq => exact eq ▸ (hs.tables k).put _
  · rw [push_size]
    rw [push_stack] at hk
    rcases List.mem_cons.mp hk with rfl | hk
    · exact Nat.lt_succ_self _
    · exact Nat.lt_succ_of_lt (hs.stack k hk)

theorem Moves.sound (h : Moves s s') (hs : s.catalog.Sound) : s'.catalog.Sound := by
  cases h with
  | edits edits => exact edits.sound hs
  | pushes pushed => exact pushed ▸ push_sound hs
  | @restacks stack known same =>
    subst same
    exact ⟨hs.shared, hs.tables, fun id hid => (known id hid).elim (hs.stack id) fun h => h⟩

/-- After every history the tables of every segment agree. -/
theorem sound_of_history [RandomSource ρ] (u : Universe) (source : ρ) (calls : List Call)
    (id : SegmentId) : ((history u source calls).scope.catalog.segment id).tables.Sound
      (history u source calls).scope.catalog.minted := by
  have hsound : (history u source calls).scope.catalog.Sound :=
    history_induction (P := fun r => r.scope.catalog.Sound) Catalog.sound_empty
      fun r call hr => ((r.step_next hr.shared u call).moved hr.shared).sound hr
  exact hsound.tables id

end Scope

end ProbeForge
