import ProbeForge.Proofs.OrderedMap
import ProbeForge.Proofs.Scope.Registration

/-!
# Resolution

What the operations that are used while a statement is written do to the innermost segment, and what
they answer.
-/

namespace ProbeForge

/-- The column was picked from the source. -/
def Segment.Picked (segment : Segment) (column source : String) : Prop :=
  ∃ columnAlias, (column, columnAlias, source) ∈ segment.pickedColumns

theorem Segment.mem_pickedColumns {segment : Segment} {column columnAlias source : String} :
    (column, columnAlias, source) ∈ segment.pickedColumns ↔
      ∃ aliases, (column, aliases) ∈ segment.columns.entries ∧
        (columnAlias, source) ∈ aliases.entries := by
  unfold pickedColumns
  rw [List.mem_flatMap]
  constructor
  · rintro ⟨⟨column', aliases⟩, hmem, h⟩
    obtain ⟨⟨columnAlias', source'⟩, hpair, heq⟩ := List.mem_map.mp h
    cases heq
    exact ⟨aliases, hmem, hpair⟩
  · rintro ⟨aliases, hmem, hpair⟩
    exact ⟨(column, aliases), hmem, List.mem_map.mpr ⟨(columnAlias, source), hpair, rfl⟩⟩

/-- No reference is half written. -/
def Cursor.IsFree : Cursor → Prop
  | idle | columnChosen _ _ _ => True
  | aliasChosen _ | nameResolved _ _ => False

/-- The column at the cursor waits to be written out. -/
def Cursor.IsChosen (cursor : Cursor) : Prop :=
  ∃ source name column, cursor = .columnChosen source name column

namespace Scope

variable {ρ : Type} {id : SegmentId} {rest : List SegmentId} {s : Scope ρ}

/-! ### Qualifiers -/

/-- A qualifier is the alias of a source that can be referred to, or made up if there is none. -/
inductive Qualifies (c : Catalog) (id : SegmentId) (aliasName : String) : Prop where
  | source {key : String} {entry : SourceEntry}
      (found : (c.segment id).sources.find? key = some entry)
      (referenceable : Segment.isReferenceable entry = true)
      (named : aliasName = entry.aliasName)
  | madeUp (none : ∀ p ∈ (c.segment id).sources.entries, Segment.isReferenceable p.2 = false)
      (minted : aliasName = s!"UNKNOWN_TABLE_{c.minted + 1}")

theorem unknownTable_spec (id : SegmentId) (hs : s.catalog.Shared) :
    Kept id s (unknownTable id s).2 ∧
      (unknownTable id s).1.aliasName = s!"UNKNOWN_TABLE_{s.catalog.minted + 1}" := by
  refine ⟨mint_kept hs id "UNKNOWN_TABLE", ?_⟩
  unfold unknownTable
  rw [bind_run, mint_shared hs]
  rfl

theorem findSource_found {key : String} {entry : SourceEntry}
    (h : (s.catalog.segment id).sources.find? key = some entry) :
    findSource id key s = (entry.descriptor, s) := by
  unfold findSource
  rw [bind_run, segmentAt_run]
  simp only [h]
  rfl

/-! ### The column table -/

/-- How a column of a source comes to be written, and what the column table is then. -/
inductive Writes (c : Catalog) (id : SegmentId) (source column : String)
    (columns : OrderedMap String (OrderedMap String String)) : Prop where
  | reused (picked : (c.segment id).Picked column source)
      (same : columns = (c.segment id).columns)
  | unknown (missing : (c.segment id).sources.find? source = none)
      (same : columns = (c.segment id).columns)
  | placeholder {entry : SourceEntry} {n : Nat}
      (found : (c.segment id).sources.find? source = some entry)
      (bare : c.columnList entry = []) (minted : column = s!"UNKNOWN_COLUMN_{n}")
      (same : columns = (c.segment id).columns)
  | listed {entry : SourceEntry} (found : (c.segment id).sources.find? source = some entry)
      (mem : column ∈ c.columnList entry)
      (picks : ∀ column' source', { c.segment id with columns }.Picked column' source' →
        (c.segment id).Picked column' source' ∨
          column' = column ∧ source' = entry.aliasName)

theorem Writes.of_kept {s' : Scope ρ} {source column : String}
    {columns : OrderedMap String (OrderedMap String String)} (hkept : Kept id s s')
    (h : Writes s'.catalog id source column columns) :
    Writes s.catalog id source column columns := by
  have hlist : ∀ entry, s'.catalog.columnList entry = s.catalog.columnList entry := fun entry =>
    Catalog.columnList_congr fun k _ => congrArg Segment.exports hkept.segment_eq
  cases h with
  | reused picked same => exact .reused (hkept.segment_eq ▸ picked) (hkept.segment_eq ▸ same)
  | unknown missing same => exact .unknown (hkept.segment_eq ▸ missing) (hkept.segment_eq ▸ same)
  | placeholder found bare minted same =>
    exact .placeholder (hkept.segment_eq ▸ found) (hlist _ ▸ bare) minted (hkept.segment_eq ▸ same)
  | listed found mem picks =>
    exact .listed (hkept.segment_eq ▸ found) (hlist _ ▸ mem) (hkept.segment_eq (k := id) ▸ picks)

/-- The cursor does not matter. -/
theorem Writes.of_cursor {s' : Scope ρ} {cursor : Cursor} {source column : String}
    {columns : OrderedMap String (OrderedMap String String)}
    (hchanged : Changed id ({ · with cursor }) s s') (hid : id < s.catalog.segments.size)
    (h : Writes s'.catalog id source column columns) :
    Writes s.catalog id source column columns := by
  have hself := hchanged.self hid
  have hlist : ∀ entry, s'.catalog.columnList entry = s.catalog.columnList entry := by
    refine fun entry => Catalog.columnList_congr fun k _ => ?_
    by_cases hk : k = id
    · subst hk
      rw [hself]
    · rw [hchanged.other hk]
  cases h with
  | reused picked same =>
    rw [hself] at picked same
    exact .reused picked same
  | unknown missing same =>
    rw [hself] at missing same
    exact .unknown missing same
  | placeholder found bare minted same =>
    rw [hself] at found same
    exact .placeholder found (hlist _ ▸ bare) minted same
  | listed found mem picks =>
    rw [hself] at found picks
    exact .listed found (hlist _ ▸ mem) picks

/-- What is picked newly is in the list of its source. -/
theorem Writes.picked {c : Catalog} {source column : String}
    {columns : OrderedMap String (OrderedMap String String)}
    (hown : ∀ key entry, (c.segment id).sources.find? key = some entry → entry.aliasName = key)
    (h : Writes c id source column columns) {column' source' : String}
    (hpicked : { c.segment id with columns }.Picked column' source') :
    (c.segment id).Picked column' source' ∨
      ∃ entry, (c.segment id).sources.find? source' = some entry ∧
        column' ∈ c.columnList entry := by
  cases h with
  | reused _ same | unknown _ same | placeholder _ _ _ same =>
    subst same
    exact .inl hpicked
  | @listed entry found mem picks =>
    rcases picks column' source' hpicked with hold | ⟨rfl, rfl⟩
    · exact .inl hold
    · refine .inr ⟨entry, ?_, mem⟩
      rw [hown source entry found]
      exact found

theorem picked_insert {segment : Segment} {column columnAlias source : String}
    {aliases : OrderedMap String String}
    (haliases : ∀ p ∈ aliases.entries, segment.Picked column p.2)
    {column' source' : String}
    (h : Segment.Picked { segment with
      columns := segment.columns.insert column (aliases.insert columnAlias source) }
        column' source') :
    segment.Picked column' source' ∨ column' = column ∧ source' = source := by
  obtain ⟨columnAlias', hmem⟩ := h
  obtain ⟨aliases', hentry, hpair⟩ := Segment.mem_pickedColumns.mp hmem
  rcases OrderedMap.mem_insert hentry with ⟨rfl, rfl⟩ | hold
  · rcases OrderedMap.mem_insert hpair with ⟨-, rfl⟩ | hpair
    · exact .inr ⟨rfl, rfl⟩
    · exact .inl (haliases _ hpair)
  · exact .inl ⟨columnAlias', Segment.mem_pickedColumns.mpr ⟨aliases', hold, hpair⟩⟩

/-- How a column of a source is noted: first without an alias, then with a new one each time. -/
inductive Picks (id : SegmentId) (column source : String) (s : Scope ρ) :
    String × Scope ρ → Prop where
  | first (unused : (s.catalog.segment id).columns.find? column = none) : Picks id column source s
      (column, (update id (fun g => { g with
        columns := g.columns.insert column ⟨[(column, source)]⟩ }) s).2)
  | again {aliases : OrderedMap String String}
      (found : (s.catalog.segment id).columns.find? column = some aliases) :
      Picks id column source s ((mint id column s).1,
        (update id (fun g => { g with
          columns := g.columns.insert column (aliases.insert (mint id column s).1 source) })
          (mint id column s).2).2)

theorem pickColumn_picks (id : SegmentId) (column source : String) (s : Scope ρ) :
    Picks id column source s (pickColumn id column source s) := by
  unfold pickColumn
  rw [bind_run, segmentAt_run]
  dsimp only
  cases hfind : (s.catalog.segment id).columns.find? column with
  | none => exact .first hfind
  | some aliases => exact .again hfind

theorem pickColumn_spec (id : SegmentId) (hs : s.catalog.Shared) (column source : String) :
    ∃ columns, Changed id ({ · with columns }) s (pickColumn id column source s).2 ∧
      ∀ column' source', { s.catalog.segment id with columns }.Picked column' source' →
        (s.catalog.segment id).Picked column' source' ∨ column' = column ∧ source' = source := by
  have hfirst : ∀ p ∈ (⟨[]⟩ : OrderedMap String String).entries,
      (s.catalog.segment id).Picked column p.2 := fun p hp => by cases hp
  have hpicks := pickColumn_picks id column source s
  generalize pickColumn id column source s = r at hpicks ⊢
  cases hpicks with
  | first unused =>
    exact ⟨_, (update_changed id _ s).congr rfl, fun _ _ h => picked_insert hfirst h⟩
  | @again aliases found =>
    have haliases : ∀ p ∈ aliases.entries, (s.catalog.segment id).Picked column p.2 :=
      fun p hp => ⟨p.1, Segment.mem_pickedColumns.mpr
        ⟨aliases, OrderedMap.mem_of_find? found, hp⟩⟩
    refine ⟨(s.catalog.segment id).columns.insert column
      (aliases.insert (mint id column s).1 source), ?_, fun _ _ h => picked_insert haliases h⟩
    exact ((mint_kept hs id column).trans (update_changed id _ _)).congr rfl

/-! ### Outputs -/

theorem withColumn_spec {operation lack source column : String} {name : Option String}
    {f : SegmentId → String → String → ScopeM ρ String} (hstack : s.catalog.stack = id :: rest)
    (hcursor : (s.catalog.segment id).cursor = .columnChosen source name column) :
    withColumn operation lack f s = .ok (f id source column s).1
      (update id (fun segment => { segment.exportName (f id source column s).1 with
        cursor := .idle }) (f id source column s).2).2 := by
  unfold withColumn
  simp only [hstack, hcursor]
  rfl

theorem withColumn_ok {operation lack name : String} {s' : Scope ρ}
    {f : SegmentId → String → String → ScopeM ρ String}
    (h : withColumn operation lack f s = .ok name s') :
    ∃ id rest source chosen column, s.catalog.stack = id :: rest ∧
      (s.catalog.segment id).cursor = .columnChosen source chosen column := by
  unfold withColumn at h
  split at h
  case h_1 id rest hstack =>
    dsimp only at h
    split at h
    case h_1 source chosen column hcursor =>
      exact ⟨id, rest, source, chosen, column, hstack, hcursor⟩
    case h_2 => cases h
  case h_2 => cases h

theorem exportColumn_spec {source column : String} {name : Option String}
    (hstack : s.catalog.stack = id :: rest)
    (hcursor : (s.catalog.segment id).cursor = .columnChosen source name column) :
    ∃ s', exportColumn s = .ok column s' ∧
      Changed id (fun segment => { segment.exportName column with cursor := .idle }) s s' :=
  ⟨_, withColumn_spec hstack hcursor, update_changed id _ s⟩

/-- The alias that a column of a source is offered, with the scope afterwards. -/
inductive Offers (id : SegmentId) (column source : String) (s : Scope ρ) :
    Option ColumnDescriptor × Scope ρ → Prop where
  | absent (absent : ∀ aliases, (s.catalog.segment id).columns.find? column = some aliases →
      source ∉ aliases.values) : Offers id column source s (none, s)
  | unwritten {columnAlias : String} {aliases : OrderedMap String String}
      (found : (s.catalog.segment id).columns.find? column = some aliases)
      (mem : (columnAlias, source) ∈ aliases.entries) (named : columnAlias ≠ column)
      (unwritten : columnAlias ∉ (s.catalog.segment id).exports) : Offers id column source s
      (some ((s.catalog.segment id).describeColumn source column columnAlias), s)
  | minted {aliases kept : OrderedMap String String}
      (found : (s.catalog.segment id).columns.find? column = some aliases)
      (mem : source ∈ aliases.values) (keeps : kept = aliases ∨ kept = aliases.erase column) :
      Offers id column source s
      (some ((s.catalog.segment id).describeColumn source column (mint id column s).1),
        (update id (fun g => { g with
          columns := g.columns.insert column (kept.insert (mint id column s).1 source) })
          (mint id column s).2).2)

theorem addColumnAlias_offers (id : SegmentId) (column source : String) (s : Scope ρ) :
    Offers id column source s (addColumnAlias id column source s) := by
  unfold addColumnAlias
  rw [bind_run, segmentAt_run]
  dsimp only
  cases hfind : (s.catalog.segment id).columns.find? column with
  | none => exact .absent fun aliases h => by rw [hfind] at h; cases h
  | some aliases =>
    rw [Option.getD_some]
    by_cases hsource : aliases.values.contains source = true
    case neg =>
      rw [Bool.not_eq_true] at hsource
      simp only [hsource, Bool.not_false, if_true]
      refine .absent fun aliases' h hmem => ?_
      cases hfind.symm.trans h
      cases hsource.symm.trans (List.contains_iff_mem.mpr hmem)
    have hmem : source ∈ aliases.values := List.contains_iff_mem.mp hsource
    simp only [hsource, Bool.not_true, Bool.false_eq_true, if_false]
    -- the first alias for the source that is the column itself or was not written yet
    generalize husable : aliases.entries.find? (fun p => decide (p.2 = source) &&
      (decide (p.1 = column) || !(s.catalog.segment id).exports.contains p.1)) = usable
    cases usable with
    | none => exact .minted hfind hmem (.inl rfl)
    | some p =>
      dsimp only
      by_cases hcolumn : p.1 = column
      · rw [if_pos hcolumn]
        exact .minted hfind hmem (.inr rfl)
      · rw [if_neg hcolumn]
        obtain ⟨hsame, hunwritten⟩ : p.2 = source ∧ p.1 ∉ (s.catalog.segment id).exports := by
          simpa [hcolumn] using List.find?_some husable
        exact .unwritten hfind (hsame ▸ List.mem_of_find?_eq_some husable) hcolumn hunwritten

theorem addColumnAlias_spec (id : SegmentId) (hs : s.catalog.Shared) (column source : String) :
    ∃ columns, Changed id ({ · with columns }) s (addColumnAlias id column source s).2 ∧
      ∀ column' source', { s.catalog.segment id with columns }.Picked column' source' →
        (s.catalog.segment id).Picked column' source' := by
  have hoffers := addColumnAlias_offers id column source s
  generalize addColumnAlias id column source s = r at hoffers ⊢
  cases hoffers with
  | absent | unwritten =>
    exact ⟨(s.catalog.segment id).columns, (Kept.refl id s).congr rfl, fun _ _ h => h⟩
  | @minted aliases kept found mem keeps =>
    have hpicked : ∀ p ∈ aliases.entries, (s.catalog.segment id).Picked column p.2 :=
      fun p hp => ⟨p.1, Segment.mem_pickedColumns.mpr ⟨_, OrderedMap.mem_of_find? found, hp⟩⟩
    have hsub : ∀ p ∈ kept.entries, p ∈ aliases.entries := by
      rcases keeps with rfl | rfl
      · exact fun p hp => hp
      · exact fun p hp => OrderedMap.mem_erase hp
    refine ⟨(s.catalog.segment id).columns.insert column
      (kept.insert (mint id column s).1 source), ?_, fun column' source' h => ?_⟩
    · exact ((mint_kept hs id column).trans (update_changed id _ _)).congr rfl
    · rcases picked_insert (fun p hp => hpicked p (hsub p hp)) h with hold | ⟨rfl, rfl⟩
      · exact hold
      · obtain ⟨p, hp, rfl⟩ := List.mem_map.mp mem
        exact hpicked p hp

theorem chooseColumnAlias_spec {source column : String} {name : Option String}
    (hs : s.catalog.Shared) (hstack : s.catalog.stack = id :: rest)
    (hcursor : (s.catalog.segment id).cursor = .columnChosen source name column) :
    ∃ aliasName columns s', chooseColumnAlias s = .ok aliasName s' ∧
      Changed id (fun segment =>
        { { segment with columns }.exportName aliasName with cursor := .idle }) s s' ∧
      ∀ column' source', { s.catalog.segment id with columns }.Picked column' source' →
        (s.catalog.segment id).Picked column' source' := by
  obtain ⟨columns, hchanged, hpicks⟩ := addColumnAlias_spec id hs column source
  refine ⟨_, columns, _, withColumn_spec hstack hcursor, ?_, hpicks⟩
  rw [bind_run]
  generalize addColumnAlias id column source s = added at hchanged ⊢
  obtain ⟨d, s₁⟩ := added
  have hs₁ : s₁.catalog.Shared := hchanged.shared hs fun _ => rfl
  dsimp only
  by_cases hempty : ((d.map (·.columnAlias)).getD "").isEmpty = true
  · rw [if_pos hempty]
    exact ((hchanged.trans (mint_kept hs₁ id _)).trans (update_changed id _ _)).congr rfl
  · rw [if_neg hempty]
    exact (hchanged.trans (update_changed id _ _)).congr rfl

/-! ### Choices -/

section Choosing

variable [RandomSource ρ]

theorem anySource_spec (hs : s.catalog.Shared) (hd : (s.catalog.segment id).sources.Distinct) :
    Kept id s (anySource id s).2 ∧ Qualifies s.catalog id (anySource id s).1.aliasName := by
  unfold anySource
  rw [bind_run, get_run]
  dsimp only
  generalize hcandidates :
    (s.catalog.segment id).sources.entries.filter (fun p => Segment.isReferenceable p.2) =
      candidates
  generalize hknown :
    candidates.filter (fun p => !(s.catalog.columnList p.2).isEmpty) = known
  -- what is chosen from are candidates, and none only if there are none
  have hsub : ∀ p ∈ (if known.isEmpty then candidates else known), p ∈ candidates := by
    intro p hp
    split at hp
    · exact hp
    · exact List.mem_of_mem_filter (hknown ▸ hp)
  have hnone : (if known.isEmpty then candidates else known) = [] → candidates = [] := by
    intro hempty
    split at hempty
    · exact hempty
    case isFalse hne => exact absurd (List.isEmpty_iff.mpr hempty) hne
  generalize (if known.isEmpty then candidates else known) = chosen at hsub hnone ⊢
  cases hkeys : chosen.map (·.1) with
  | nil =>
    obtain ⟨hkept, hname⟩ := unknownTable_spec id hs
    refine ⟨hkept, .madeUp (fun p hp => ?_) hname⟩
    have hcand := hnone (List.map_eq_nil_iff.mp hkeys)
    by_contra href
    rw [Bool.not_eq_false] at href
    have hin : p ∈ candidates := hcandidates ▸ List.mem_filter.mpr ⟨hp, href⟩
    rw [hcand] at hin
    cases hin
  | cons first others =>
    have hdrawn := chooseFrom_kept id first others s
    have hmem := chooseFrom_mem first others s
    dsimp only
    rw [bind_run]
    generalize chooseFrom first others s = drawn at hdrawn hmem ⊢
    obtain ⟨key, s₁⟩ := drawn
    obtain ⟨⟨key', entry⟩, hin, rfl⟩ := List.mem_map.mp (hkeys ▸ hmem)
    obtain ⟨hentry, href⟩ := List.mem_filter.mp (hcandidates ▸ hsub _ hin)
    have hfound := OrderedMap.find?_of_mem hd hentry
    rw [findSource_found (hdrawn.segment_eq ▸ hfound)]
    exact ⟨hdrawn, .source hfound href rfl⟩

/-- A qualifier is chosen when no reference is half written. -/
theorem chooseAlias_spec (hs : s.catalog.Shared) (hd : (s.catalog.segment id).sources.Distinct)
    (hstack : s.catalog.stack = id :: rest) (hfree : (s.catalog.segment id).cursor.IsFree) :
    ∃ aliasName s', chooseAlias s = .ok aliasName s' ∧
      Changed id ({ · with cursor := .aliasChosen aliasName }) s s' ∧
      Qualifies s.catalog id aliasName := by
  unfold chooseAlias
  rw [withTop_run hstack, bind_run, segmentAt_run]
  dsimp only
  obtain ⟨hkept, hqualifies⟩ := anySource_spec hs hd
  have hset := hkept.trans (update_changed id
    ({ · with cursor := .aliasChosen (anySource id s).1.aliasName }) (anySource id s).2)
  cases hcursor : (s.catalog.segment id).cursor with
  | idle | columnChosen => exact ⟨_, _, rfl, hset, hqualifies⟩
  | aliasChosen | nameResolved =>
    rw [hcursor] at hfree
    exact hfree.elim

theorem pickedColumn_spec (id : SegmentId) (source : String) (s : Scope ρ) :
    Kept id s (pickedColumn id (some source) s).2 ∧
      ∀ d, (pickedColumn id (some source) s).1 = some d →
        (s.catalog.segment id).Picked d.column source := by
  unfold pickedColumn
  rw [bind_run, segmentAt_run]
  dsimp only
  generalize hpicked : (s.catalog.segment id).pickedColumns.filter (fun p =>
    (some source).all (p.2.2 == ·)) = picked
  cases picked with
  | nil =>
    refine ⟨Kept.refl id s, fun d hd => ?_⟩
    cases hd
  | cons first others =>
    dsimp only
    have hdrawn := chooseFrom_kept id first others s
    have hmem := chooseFrom_mem first others s
    rw [bind_run]
    generalize chooseFrom first others s = drawn at hdrawn hmem ⊢
    obtain ⟨⟨column, columnAlias, source'⟩, s₁⟩ := drawn
    refine ⟨hdrawn, fun d hd => ?_⟩
    cases hd
    obtain ⟨hin, hsource⟩ := List.mem_filter.mp (hpicked ▸ hmem)
    have hsame : source' = source := by simpa using hsource
    exact ⟨columnAlias, hsame ▸ hin⟩

theorem addColumnOf_spec {entry : SourceEntry} {source : String} (hs : s.catalog.Shared)
    (hfound : (s.catalog.segment id).sources.find? source = some entry) :
    ∃ columns, Changed id ({ · with columns }) s (addColumnOf id (some entry) s).2 ∧
      Writes s.catalog id source (addColumnOf id (some entry) s).1.column columns := by
  unfold addColumnOf
  rw [bind_run, get_run]
  dsimp only
  cases hlist : s.catalog.columnList entry with
  | nil =>
    refine ⟨(s.catalog.segment id).columns, (mint_kept hs id "UNKNOWN_COLUMN").congr rfl, ?_⟩
    refine .placeholder hfound hlist (n := s.catalog.minted + 1) ?_ rfl
    dsimp only
    rw [bind_run, mint_shared hs]
    rfl
  | cons first others =>
    have hdrawn := chooseFrom_kept id first others s
    have hmem := chooseFrom_mem first others s
    dsimp only
    rw [bind_run]
    generalize chooseFrom first others s = drawn at hdrawn hmem ⊢
    obtain ⟨column, s₁⟩ := drawn
    obtain ⟨columns, hchanged, hpicks⟩ :=
      pickColumn_spec id (hdrawn.shared hs) column entry.aliasName
    rw [hdrawn.segment_eq] at hpicks
    exact ⟨columns, (hdrawn.trans hchanged).congr rfl,
      .listed hfound (hlist ▸ hmem) hpicks⟩

theorem addColumn_spec (id : SegmentId) (hs : s.catalog.Shared) (source : String) :
    ∃ columns, Changed id ({ · with columns }) s (addColumn id source s).2 ∧
      Writes s.catalog id source (addColumn id source s).1.column columns := by
  unfold addColumn
  rw [bind_run, segmentAt_run]
  dsimp only
  cases hfind : (s.catalog.segment id).sources.find? source with
  | some entry => exact addColumnOf_spec hs hfind
  | none =>
    have h₁ := mint_kept hs id "UNKNOWN_COLUMN"
    have h₂ := mint_kept (h₁.shared hs) id "UNKNOWN"
    have h₃ := mint_kept (h₂.shared (h₁.shared hs)) id
      (mint id "UNKNOWN" (mint id "UNKNOWN_COLUMN" s).2).1
    exact ⟨_, ((h₁.trans h₂).trans h₃).congr rfl, .unknown hfind rfl⟩

/-- Either a column that was picked before is taken again, or a new one is picked after whatever was
drawn. -/
theorem reuseOrPick_cases (id : SegmentId) (source : String) (s : Scope ρ) :
    (∃ column s', reuseOrPick id source s = (column, s') ∧ Kept id s s' ∧
        (s.catalog.segment id).Picked column source) ∨
      ∃ s₁, Kept id s s₁ ∧ reuseOrPick id source s =
        ((addColumn id source s₁).1.column, (addColumn id source s₁).2) := by
  obtain ⟨hkept, hpicked⟩ := pickedColumn_spec id source s
  unfold reuseOrPick
  rw [bind_run]
  generalize pickedColumn id (some source) s = found at hkept hpicked ⊢
  obtain ⟨picked, s₁⟩ := found
  cases picked with
  | none => exact .inr ⟨s₁, hkept, rfl⟩
  | some d =>
    have hdrawn := draw_kept id RandomSource.unit s₁
    dsimp only
    rw [bind_run]
    generalize (draw RandomSource.unit s₁ : Float × Scope ρ) = drawn at hdrawn ⊢
    obtain ⟨x, s₂⟩ := drawn
    dsimp only
    by_cases hx : x < 0.5
    · rw [if_pos hx]
      exact .inl ⟨d.column, s₂, rfl, hkept.trans hdrawn, hpicked d rfl⟩
    · rw [if_neg hx]
      exact .inr ⟨s₂, hkept.trans hdrawn, rfl⟩

theorem reuseOrPick_spec (id : SegmentId) (hs : s.catalog.Shared) (source : String) :
    ∃ columns, Changed id ({ · with columns }) s (reuseOrPick id source s).2 ∧
      Writes s.catalog id source (reuseOrPick id source s).1 columns := by
  rcases reuseOrPick_cases id source s with ⟨column, s', hrun, hkept, hpicked⟩ | ⟨s₁, hkept, hrun⟩
  · rw [hrun]
    exact ⟨(s.catalog.segment id).columns, hkept.congr rfl, .reused hpicked rfl⟩
  · rw [hrun]
    obtain ⟨columns, hchanged, hwrites⟩ := addColumn_spec id (hkept.shared hs) source
    exact ⟨columns, (hkept.trans hchanged).congr rfl, hwrites.of_kept hkept⟩

/-- After its qualifier a column is chosen. -/
theorem chooseColumn_spec {source : String} (hs : s.catalog.Shared)
    (hstack : s.catalog.stack = id :: rest)
    (hcursor : (s.catalog.segment id).cursor = .aliasChosen source) :
    ∃ column columns s', chooseColumn s = .ok column s' ∧
      Changed id ({ · with columns, cursor := .columnChosen source none column }) s s' ∧
      Writes s.catalog id source column columns := by
  unfold chooseColumn
  rw [withTop_run hstack, bind_run, segmentAt_run]
  dsimp only
  rw [hcursor]
  dsimp only
  obtain ⟨columns, hchanged, hwrites⟩ := reuseOrPick_spec id hs source
  exact ⟨_, columns, _, rfl, (hchanged.trans (update_changed id _ _)).congr rfl, hwrites⟩

end Choosing

end Scope

end ProbeForge
