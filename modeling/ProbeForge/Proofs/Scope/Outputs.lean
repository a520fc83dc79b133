import ProbeForge.Proofs.Numbered
import ProbeForge.Proofs.Scope.Soundness

/-!
# Names of outputs

The column aliases that are written never repeat in a catalog: each was made from a number that was
not used before, is kept in the column table of one segment only, and is listed there as written.
An alias belongs to the column and the source chosen before it, unless the column was made up.
-/

namespace ProbeForge

/-! ### Made names -/

/-- The name was made with a number above `m`, up to `m'`. -/
def Made (m m' : Nat) (name : String) : Prop :=
  ∃ (stem : String) (n : Nat), m < n ∧ n ≤ m' ∧ name = s!"{stem}_{n}"

variable {m m' : Nat} {name : String}

theorem Made.disjoint {m'' : Nat} (h : Made m m' name) (h' : Made m' m'' name) : False := by
  obtain ⟨stem, n, -, hle, rfl⟩ := h
  obtain ⟨stem', n', hlt, -, heq⟩ := h'
  obtain rfl := (numbered_inj heq).2
  exact absurd hle (Nat.not_le.mpr hlt)

theorem Made.mono {m'' : Nat} (h : Made m m' name) (hle : m' ≤ m'') : Made m m'' name :=
  let ⟨stem, n, hlt, hn, heq⟩ := h
  ⟨stem, n, hlt, Nat.le_trans hn hle, heq⟩

namespace Tables

variable {t t' : Tables}

/-- Some column goes by the name without having it. -/
def Gives (t : Tables) (name : String) : Prop :=
  ∃ column aliases source, (column, aliases) ∈ t.columns.entries ∧
    (name, source) ∈ aliases.entries ∧ name ≠ column

theorem not_gives_of_empty (h : t.columns = ∅) : ¬t.Gives name := by
  rintro ⟨column, aliases, source, hmem, -⟩
  rw [h] at hmem
  cases hmem

theorem Sound.made (h : t.Sound m) (hgives : t.Gives name) : Made 0 m name := by
  obtain ⟨column, aliases, source, hmem, hname, hne⟩ := hgives
  obtain heq | ⟨n, hn, hle, heq⟩ := (h.aliases _ hmem).named _ hname
  · exact absurd heq hne
  · exact ⟨column, n, hn, hle, heq⟩

end Tables

/-- What an edit adds to the given names was made by it. -/
theorem Edit.gives {t t' : Tables} (h : Edit m m' t t') (hgives : t'.Gives name) :
    t.Gives name ∨ Made m m' name := by
  obtain ⟨column', aliases', source', hmem, hname, hne⟩ := hgives
  cases h with
  | none | put => exact .inl ⟨column', aliases', source', hmem, hname, hne⟩
  | rename =>
    obtain ⟨aliases, hold, rfl⟩ := OrderedMap.mem_mapValues.mp hmem
    obtain ⟨source, hname, -⟩ := OrderedMap.mem_mapValues.mp hname
    exact .inl ⟨column', aliases, source, hold, hname, hne⟩
  | pick listed unused =>
    rcases OrderedMap.mem_insert hmem with ⟨rfl, rfl⟩ | hold
    · cases List.mem_singleton.mp hname
      exact absurd rfl hne
    · exact .inl ⟨column', aliases', source', hold, hname, hne⟩
  | @name column source aliases kept n found known keeps fresh minted =>
    rcases OrderedMap.mem_insert hmem with ⟨rfl, rfl⟩ | hold
    · rcases OrderedMap.mem_insert hname with ⟨rfl, -⟩ | hkept
      · exact .inr ⟨column', n, fresh, minted, rfl⟩
      · have hin : (name, source') ∈ aliases.entries := by
          rcases keeps with rfl | rfl
          · exact hkept
          · exact OrderedMap.mem_erase hkept
        exact .inl ⟨column', aliases, source', OrderedMap.mem_of_find? found, hin, hne⟩
    · exact .inl ⟨column', aliases', source', hold, hname, hne⟩

/-! ### Written aliases -/

/-- The aliases that were written are distinct and will not be written again: the one segment that
may still give one of them lists it among its outputs. -/
structure Ledger (c : Catalog) (written : List String) : Prop where
  sound : c.Sound
  nodup : written.Nodup
  made : ∀ name ∈ written, Made 0 c.minted name
  apart : ∀ name k k', (c.segment k).tables.Gives name → (c.segment k').tables.Gives name → k = k'
  listed : ∀ name ∈ written, ∀ k, (c.segment k).tables.Gives name →
    name ∈ (c.segment k).exports

theorem ledger_empty : Ledger .empty [] where
  sound := Catalog.sound_empty
  nodup := List.nodup_nil
  made name h := by cases h
  apart name k k' h := absurd h (Tables.not_gives_of_empty rfl)
  listed name h := by cases h

/-- Only one segment gives new names, and they are newly made. -/
theorem Ledger.grow {c c' : Catalog} {written : List String} (h : Ledger c written)
    (hsound : c'.Sound) (hm : c.minted ≤ c'.minted) (id : SegmentId)
    (hgives : ∀ k name, (c'.segment k).tables.Gives name →
      (c.segment k).tables.Gives name ∨ k = id ∧ Made c.minted c'.minted name)
    (hexports : ∀ k, (c.segment k).exports ⊆ (c'.segment k).exports ∨
      (c'.segment k).tables.columns = ∅) :
    Ledger c' written where
  sound := hsound
  nodup := h.nodup
  made name hname := (h.made name hname).mono hm
  apart name k k' hk hk' := by
    have hold : ∀ {j}, (c.segment j).tables.Gives name → ¬Made c.minted c'.minted name :=
      fun hj hmade => ((h.sound.tables _).made hj).disjoint hmade
    rcases hgives k name hk with hk | ⟨rfl, hmade⟩ <;>
      rcases hgives k' name hk' with hk' | ⟨rfl, hmade'⟩
    · exact h.apart name k k' hk hk'
    · exact absurd hmade' (hold hk)
    · exact absurd hmade (hold hk')
    · rfl
  listed name hname k hk := by
    rcases hgives k name hk with hold | ⟨-, hmade⟩
    · rcases hexports k with hsub | hempty
      · exact hsub (h.listed name hname k hold)
      · exact absurd hk (Tables.not_gives_of_empty hempty)
    · exact ((h.made name hname).disjoint hmade).elim

namespace Scope

variable {ρ : Type} {id : SegmentId} {s s' : Scope ρ} {written : List String}

theorem Edited.ledger (h : Edited id s s') (hs : Ledger s.catalog written) :
    Ledger s'.catalog written := by
  obtain ⟨f, hchanged, -⟩ := h.changed
  refine hs.grow (h.sound hs.sound) h.minted_le id (fun k name hk => ?_) fun k => .inl ?_
  · by_cases hkid : k = id
    · subst hkid
      exact (h.edit.gives hk).imp_right fun hmade => ⟨rfl, hmade⟩
    · exact .inl (hchanged.other hkid ▸ hk)
  · by_cases hkid : k = id
    · subst hkid
      exact h.exports.subset
    · rw [hchanged.other hkid]
      exact fun _ h => h

theorem Edits.ledger (h : Edits id s s') (hs : Ledger s.catalog written) :
    Ledger s'.catalog written := by
  induction h with
  | refl => exact hs
  | tail _ hedited ih => exact hedited.ledger ih

theorem push_ledger (hs : Ledger s.catalog written) : Ledger (push s).2.catalog written := by
  have hminted := Nat.le_of_eq (push_minted s).symm
  refine hs.grow (push_sound hs.sound) hminted 0 (fun k name hk => .inl ?_) fun k => ?_
  · cases push_opened s k with
    | same eq => exact eq ▸ hk
    | root name eq | nested parent name id eq =>
      exact absurd hk (Tables.not_gives_of_empty (eq ▸ rfl))
    | enclosing child eq =>
      rw [eq] at hk
      exact hk
  · cases push_opened s k with
    | same eq => exact .inl (eq ▸ fun _ h => h)
    | root name eq | nested parent name id eq => exact .inr (eq ▸ rfl)
    | enclosing child eq => exact .inl (eq ▸ fun _ h => h)

theorem Moves.ledger (h : Moves s s') (hs : Ledger s.catalog written) :
    Ledger s'.catalog written := by
  cases h with
  | edits edits => exact edits.ledger hs
  | pushes pushed => exact pushed ▸ push_ledger hs
  | @restacks stack known same =>
    have hsound := (Moves.restacks known same).sound hs.sound
    subst same
    exact ⟨hsound, hs.nodup, hs.made, hs.apart, hs.listed⟩

/-! ### Answers -/

/-- How the column of a source comes to be written under a name, and what the segment tells of the
name afterwards. -/
inductive Written (id : SegmentId) (column source name : String) (s s' : Scope ρ) : Prop where
  | reused {aliases : OrderedMap String String}
      (found : (s.catalog.segment id).columns.find? column = some aliases)
      (mem : (name, source) ∈ aliases.entries) (named : name ≠ column)
      (unwritten : name ∉ (s.catalog.segment id).exports)
      (same : (s'.catalog.segment id).columns = (s.catalog.segment id).columns)
  | minted {aliases : OrderedMap String String}
      (made : name = s!"{column}_{s.catalog.minted + 1}")
      (counted : s'.catalog.minted = s.catalog.minted + 1)
      (found : (s'.catalog.segment id).columns.find? column = some aliases)
      (mem : (name, source) ∈ aliases.entries)
  | absent (absent : ∀ aliases, (s.catalog.segment id).columns.find? column = some aliases →
        source ∉ aliases.values)
      (made : name = s!"UNKNOWN_COLUMN_ALIAS_{s.catalog.minted + 1}")
      (counted : s'.catalog.minted = s.catalog.minted + 1)

/-- A name that is written after a change of the segment is listed there. -/
theorem written_changed {f : Segment → Segment} (hid : id < s.catalog.segments.size)
    (h : Changed id f s s') (name : String) :
    let s'' := (update id (fun g => { g.exportName name with cursor := .idle }) s').2
    name ∈ (s''.catalog.segment id).exports ∧
      (s''.catalog.segment id).columns = (f (s.catalog.segment id)).columns ∧
      ∀ k, k ≠ id → s''.catalog.segment k = s.catalog.segment k := by
  have hchanged := h.trans (update_changed id
    (fun g : Segment => { g.exportName name with cursor := .idle }) s')
  have hself := hchanged.self hid
  refine ⟨?_, ?_, fun k hk => hchanged.other hk⟩
  · rw [hself]
    exact List.mem_append_right _ (List.mem_singleton_self name)
  · rw [hself]
    rfl

theorem chooseColumnAlias_written {rest : List SegmentId} {source column : String}
    {chosen : Option String} (hs : s.catalog.Sound) (hstack : s.catalog.stack = id :: rest)
    (hcursor : (s.catalog.segment id).cursor = .columnChosen source chosen column) :
    ∃ name s', chooseColumnAlias s = .ok name s' ∧ Written id column source name s s' ∧
      name ∈ (s'.catalog.segment id).exports ∧
      ∀ k, k ≠ id → s'.catalog.segment k = s.catalog.segment k := by
  have hid : id < s.catalog.segments.size := hs.stack id (hstack ▸ List.mem_cons_self)
  have hoffers := addColumnAlias_offers id column source s
  refine ⟨_, _, withColumn_spec hstack hcursor, ?_⟩
  rw [bind_run]
  generalize addColumnAlias id column source s = r at hoffers ⊢
  obtain ⟨d, s₁⟩ := r
  dsimp only
  cases hoffers with
  | absent absent =>
    obtain ⟨hlisted, -, hothers⟩ := written_changed hid (mint_kept hs.shared id
      "UNKNOWN_COLUMN_ALIAS") (mint id "UNKNOWN_COLUMN_ALIAS" s).1
    refine ⟨.absent absent ?_ ?_, hlisted, hothers⟩
    · exact congrArg Prod.fst (mint_shared hs.shared id _)
    · exact congrArg (·.2.catalog.minted) (mint_shared hs.shared id _)
  | @unwritten columnAlias aliases found mem named unwritten =>
    -- a name that was made is not empty, so it is written as it is
    have hfull : ¬(((some ((s.catalog.segment id).describeColumn source column columnAlias)).map
        (·.columnAlias)).getD "").isEmpty = true := by
      obtain ⟨n, -, -, rfl⟩ : ∃ n, 1 ≤ n ∧ n ≤ s.catalog.minted ∧ columnAlias = s!"{column}_{n}" :=
        (((hs.tables id).goesBy found).named _ mem).resolve_left named
      exact Bool.eq_false_iff.mp (numbered_not_isEmpty column n)
    obtain ⟨hlisted, hsame, hothers⟩ := written_changed hid (Kept.refl id s) columnAlias
    rw [if_neg hfull]
    exact ⟨.reused found mem named unwritten hsame, hlisted, hothers⟩
  | @minted aliases kept found mem keeps =>
    have hmade : (mint id column s).1 = s!"{column}_{s.catalog.minted + 1}" :=
      congrArg Prod.fst (mint_shared hs.shared id column)
    have hfull : ¬(((some ((s.catalog.segment id).describeColumn source column
        (mint id column s).1)).map (·.columnAlias)).getD "").isEmpty = true :=
      Bool.eq_false_iff.mp (hmade ▸ numbered_not_isEmpty column _ :
        (mint id column s).1.isEmpty = false)
    obtain ⟨hlisted, hcolumns, hothers⟩ := written_changed hid
      ((mint_kept hs.shared id column).trans (update_changed id (fun g : Segment => { g with
        columns := g.columns.insert column (kept.insert (mint id column s).1 source) }) _))
      (mint id column s).1
    rw [if_neg hfull]
    refine ⟨.minted hmade ?_ ?_ (OrderedMap.mem_insert_self (m := kept)), hlisted, hothers⟩
    · exact congrArg (·.2.catalog.minted) (mint_shared hs.shared id _)
    · exact (congrArg (OrderedMap.find? · column) hcolumns).trans OrderedMap.find?_insert_self

/-! ### Columns before their aliases -/

/-- The column was made up just now, or it goes by some alias for the source. -/
def Settles (id : SegmentId) (source : String) (s s' : Scope ρ) (column : String) : Prop :=
  (∃ n, s.catalog.minted < n ∧ n ≤ s'.catalog.minted ∧ column = s!"UNKNOWN_COLUMN_{n}") ∨
    ∃ aliases, (s'.catalog.segment id).columns.find? column = some aliases ∧
      source ∈ aliases.values

theorem Settles.mono {s₁ s₂ : Scope ρ} {source column : String}
    (h : Settles id source s₁ s₂ column) (hbefore : s.catalog.minted ≤ s₁.catalog.minted)
    (hafter : s₂.catalog.minted ≤ s'.catalog.minted)
    (hcolumns : (s'.catalog.segment id).columns = (s₂.catalog.segment id).columns) :
    Settles id source s s' column := by
  rcases h with ⟨n, hlt, hn, heq⟩ | ⟨aliases, hfind, hmem⟩
  · exact .inl ⟨n, Nat.lt_of_le_of_lt hbefore hlt, Nat.le_trans hn hafter, heq⟩
  · exact .inr ⟨aliases, hcolumns ▸ hfind, hmem⟩

/-- What is done before or after without touching the segment does not matter. -/
theorem Settles.of_kept {s₁ s₂ : Scope ρ} {source column : String}
    (h : Settles id source s₁ s₂ column) (hbefore : Kept id s s₁) (hafter : Kept id s₂ s') :
    Settles id source s s' column :=
  h.mono hbefore.edits.minted_le hafter.edits.minted_le (congrArg Segment.columns hafter.segment_eq)

theorem settles_unknown (hs : s.catalog.Shared) (source : String) :
    Settles id source s (mint id "UNKNOWN_COLUMN" s).2 (mint id "UNKNOWN_COLUMN" s).1 := by
  rw [mint_shared hs]
  exact .inl ⟨_, Nat.lt_succ_self _, Nat.le_refl _, rfl⟩

theorem pickColumn_settles (hid : id < s.catalog.segments.size) (hs : s.catalog.Shared)
    (column source : String) :
    Settles id source s (pickColumn id column source s).2 column := by
  have hpicks := pickColumn_picks id column source s
  generalize pickColumn id column source s = r at hpicks ⊢
  -- the table is what was put into it
  have hput : ∀ {aliases : OrderedMap String String} {s' : Scope ρ}, Changed id
      (fun g => { g with columns := g.columns.insert column aliases }) s s' →
      source ∈ aliases.values → Settles id source s s' column := fun hchanged hmem =>
    .inr ⟨_, (congrArg (·.columns.find? column) (hchanged.self hid)).trans
      OrderedMap.find?_insert_self, hmem⟩
  cases hpicks with
  | first unused => exact hput (update_changed id _ s) (List.mem_singleton_self source)
  | again found =>
    exact hput ((mint_kept hs id column).trans (update_changed id _ _))
      (List.mem_map.mpr ⟨_, OrderedMap.mem_insert_self, rfl⟩)

section Choosing

variable [RandomSource ρ]

theorem addColumn_settles (hid : id < s.catalog.segments.size) (hs : s.catalog.Sound)
    (source : String) :
    Settles id source s (addColumn id source s).2 (addColumn id source s).1.column := by
  unfold addColumn addColumnOf
  rw [bind_run, segmentAt_run]
  dsimp only
  rw [bind_run, get_run]
  dsimp only
  cases hfind : (s.catalog.segment id).sources.find? source with
  | none =>
    have hs₁ := (mint_kept hs.shared id "UNKNOWN_COLUMN").shared hs.shared
    have hname := mint_kept hs₁ id "UNKNOWN"
    have halias := mint_kept (hname.shared hs₁) id
      (mint id "UNKNOWN" (mint id "UNKNOWN_COLUMN" s).2).1
    exact (settles_unknown hs.shared source).of_kept (Kept.refl id s) (hname.trans halias)
  | some entry =>
    dsimp only
    cases hlist : s.catalog.columnList entry with
    | nil => exact settles_unknown hs.shared source
    | cons first others =>
      have hdrawn := chooseFrom_kept id first others s
      dsimp only
      rw [bind_run]
      generalize chooseFrom first others s = drawn at hdrawn ⊢
      obtain ⟨column, s₁⟩ := drawn
      have hpick := pickColumn_settles (hdrawn.size_eq ▸ hid) (hdrawn.shared hs.shared) column
        entry.aliasName
      rw [(hs.tables id).owned source entry hfind] at hpick ⊢
      exact hpick.of_kept hdrawn (Kept.refl id _)

theorem reuseOrPick_settles (hid : id < s.catalog.segments.size) (hs : s.catalog.Sound)
    (source : String) :
    Settles id source s (reuseOrPick id source s).2 (reuseOrPick id source s).1 := by
  rcases reuseOrPick_cases id source s with ⟨column, s', hrun, hkept, columnAlias, hmem⟩ |
    ⟨s₁, hkept, hrun⟩
  · rw [hrun]
    obtain ⟨aliases, hcolumn, hpair⟩ := Segment.mem_pickedColumns.mp hmem
    have hfind := OrderedMap.find?_of_mem (hs.tables id).columns hcolumn
    have hnow : Settles id source s s column :=
      .inr ⟨aliases, hfind, List.mem_map.mpr ⟨_, hpair, rfl⟩⟩
    exact hnow.of_kept (Kept.refl id s) hkept
  · rw [hrun]
    exact (addColumn_settles (hkept.size_eq ▸ hid) (hkept.edits.sound hs) source).of_kept hkept
      (Kept.refl id _)

/-- The pick and the cursor that is set to it. -/
theorem chosen_settles {rest : List SegmentId} {source column : String} {name : Option String}
    {s₁ : Scope ρ} (hs : s.catalog.Sound) (hstack : s.catalog.stack = id :: rest)
    (hedits : Edits id s s₁)
    (h : (do let column ← reuseOrPick id source
             setCursor id (.columnChosen source name column)
             return column : ScopeM ρ String) s₁ = (column, s')) :
    s'.catalog.stack = id :: rest ∧
      (s'.catalog.segment id).cursor = .columnChosen source name column ∧
      Settles id source s s' column := by
  have hid : id < s.catalog.segments.size := hs.stack id (hstack ▸ List.mem_cons_self)
  have hsound := hedits.sound hs
  have hpicks := (amends_referring id).reuseOrPick source s₁ hsound.shared
  have hsettles := reuseOrPick_settles (hedits.size_eq ▸ hid) hsound source
  rw [bind_run] at h
  generalize reuseOrPick id source s₁ = picked at h hpicks hsettles
  obtain ⟨picked, s₂⟩ := picked
  cases h
  have hset := update_changed id (fun g : Segment => { g with
    cursor := .columnChosen source name picked }) s₂
  have hself := hset.self (by rw [hpicks.size_eq, hedits.size_eq]; exact hid)
  refine ⟨?_, congrArg Segment.cursor hself, ?_⟩
  · exact hpicks.stack_eq.trans (hedits.stack_eq.trans hstack)
  · exact hsettles.mono hedits.minted_le (Nat.le_refl _) ((congrArg Segment.columns hself).trans rfl)

/-- A column is chosen together with its source. -/
theorem chooseColumn_settles {column : String} (hs : s.catalog.Sound)
    (h : chooseColumn s = .ok column s') :
    ∃ id rest source name, s'.catalog.stack = id :: rest ∧
      (s'.catalog.segment id).cursor = .columnChosen source name column ∧
      Settles id source s s' column := by
  cases hstack : s.catalog.stack with
  | nil =>
    unfold chooseColumn withTop at h
    simp only [hstack] at h
    cases h
  | cons id rest =>
    obtain ⟨hcolumn, hscope⟩ := withTop_ok hstack h
    have hrun : _ = (column, s') := Prod.ext hcolumn hscope
    rw [bind_run, segmentAt_run] at hrun
    dsimp only at hrun
    cases hcursor : (s.catalog.segment id).cursor with
    | idle | columnChosen =>
      -- no alias is waiting for its column, so any source is drawn first
      rw [hcursor] at hrun
      dsimp only at hrun
      rw [bind_run] at hrun
      have hany := (amends_lenient id).anySource s hs.shared
      generalize anySource id s = found at hany hrun
      exact ⟨id, rest, _, _, chosen_settles hs hstack hany hrun⟩
    | aliasChosen | nameResolved =>
      rw [hcursor] at hrun
      exact ⟨id, rest, _, _, chosen_settles hs hstack .refl hrun⟩

end Choosing

/-! ### Histories -/

theorem Written.mapped {source column : String} (hs' : s'.catalog.Sound)
    (h : Written id column source name s s') :
    (∃ aliases, (s'.catalog.segment id).columns.find? column = some aliases ∧
        aliases.find? name = some source) ∨
      (∀ aliases, (s.catalog.segment id).columns.find? column = some aliases →
          source ∉ aliases.values) ∧
        name = s!"UNKNOWN_COLUMN_ALIAS_{s.catalog.minted + 1}" := by
  have hlookup : ∀ {aliases}, (s'.catalog.segment id).columns.find? column = some aliases →
      (name, source) ∈ aliases.entries → aliases.find? name = some source := fun hfind hmem =>
    OrderedMap.find?_of_mem ((hs'.tables id).goesBy hfind).distinct hmem
  cases h with
  | reused found mem _ _ same =>
    rw [← same] at found
    exact .inl ⟨_, found, hlookup found mem⟩
  | minted _ _ found mem => exact .inl ⟨_, found, hlookup found mem⟩
  | absent absent made _ => exact .inr ⟨absent, made⟩

/-- A name that is written was not written before, and only its segment may give it. -/
theorem Written.ledger {source column : String} (h : Written id column source name s s')
    (hs : Ledger s.catalog written) (hs' : Ledger s'.catalog written)
    (hlisted : name ∈ (s'.catalog.segment id).exports)
    (hothers : ∀ k, k ≠ id → s'.catalog.segment k = s.catalog.segment k) :
    Ledger s'.catalog (name :: written) := by
  obtain ⟨hnew, hmade, honly⟩ : name ∉ written ∧ Made 0 s'.catalog.minted name ∧
      ∀ k, (s.catalog.segment k).tables.Gives name → k = id := by
    -- a number that was just minted is in no name that was made before
    have hfresh : Made s.catalog.minted s'.catalog.minted name → name ∉ written ∧
        Made 0 s'.catalog.minted name ∧ ∀ k, (s.catalog.segment k).tables.Gives name → k = id := by
      intro hmade
      refine ⟨fun hmem => (hs.made name hmem).disjoint hmade, ?_, fun k hk =>
        (((hs.sound.tables k).made hk).disjoint hmade).elim⟩
      obtain ⟨stem, n, hlt, hle, heq⟩ := hmade
      exact ⟨stem, n, Nat.zero_lt_of_lt hlt, hle, heq⟩
    cases h with
    | @reused aliases found mem named unwritten same =>
      have hgives : (s.catalog.segment id).tables.Gives name :=
        ⟨column, aliases, source, OrderedMap.mem_of_find? found, mem, named⟩
      have hgives' : (s'.catalog.segment id).tables.Gives name :=
        ⟨column, aliases, source, OrderedMap.mem_of_find? (same.symm ▸ found :), mem, named⟩
      exact ⟨fun hmem => unwritten (hs.listed name hmem id hgives),
        (hs'.sound.tables id).made hgives', fun k hk => hs.apart name k id hk hgives⟩
    | minted made counted =>
      exact hfresh ⟨column, _, Nat.lt_succ_self _, Nat.le_of_eq counted.symm, made⟩
    | absent absent made counted =>
      exact hfresh ⟨"UNKNOWN_COLUMN_ALIAS", _, Nat.lt_succ_self _, Nat.le_of_eq counted.symm, made⟩
  refine ⟨hs'.sound, List.nodup_cons.mpr ⟨hnew, hs.nodup⟩,
    List.forall_mem_cons.mpr ⟨hmade, hs'.made⟩, hs'.apart,
    List.forall_mem_cons.mpr ⟨fun k hk => ?_, hs'.listed⟩⟩
  by_cases hkid : k = id
  · exact hkid ▸ hlisted
  · rw [hothers k hkid] at hk
    exact absurd (honly k hk) hkid

theorem Record.Step.ledger {r r' : Record ρ} (h : r.Step r')
    (hr : Ledger r.scope.catalog r.aliases) : Ledger r'.scope.catalog r'.aliases := by
  have hmoved := (h.moved hr.sound.shared).ledger hr
  cases h with
  | moves _ same => exact same ▸ hmoved
  | @chooses name chosen recorded =>
    obtain ⟨id, rest, source, earlier, column, hstack, hcursor⟩ := withColumn_ok chosen
    obtain ⟨name', s', hrun, hwritten, hlisted, hothers⟩ :=
      chooseColumnAlias_written hr.sound hstack hcursor
    obtain ⟨rfl, rfl⟩ := EStateM.Result.ok.inj (hrun.symm.trans chosen)
    exact recorded ▸ hwritten.ledger hr hmoved hlisted hothers

/-- In every history the column aliases that are chosen are distinct. Right after a column, the
alias chosen is one that the column table has for it and its source, or a new one if the column was
made up. -/
theorem outputs_of_history [RandomSource ρ] (u : Universe) (source : ρ) (calls : List Call) :
    let r := history u source calls
    r.aliases.Nodup ∧
      ∀ column s, chooseColumn r.scope = .ok column s →
        ∃ id rest source earlier name s', s.catalog.stack = id :: rest ∧
          (s.catalog.segment id).cursor = .columnChosen source earlier column ∧
          chooseColumnAlias s = .ok name s' ∧
          ((∃ aliases, (s'.catalog.segment id).columns.find? column = some aliases ∧
              aliases.find? name = some source) ∨
            (∃ n, r.scope.catalog.minted < n ∧ n ≤ s.catalog.minted ∧
                column = s!"UNKNOWN_COLUMN_{n}") ∧
              name = s!"UNKNOWN_COLUMN_ALIAS_{s.catalog.minted + 1}") := by
  intro r
  have hledger : Ledger r.scope.catalog r.aliases :=
    history_induction (P := fun r => Ledger r.scope.catalog r.aliases) ledger_empty
      fun r call hr => (r.step_next hr.sound.shared u call).ledger hr
  refine ⟨hledger.nodup, fun column s hchosen => ?_⟩
  have hsound : s.catalog.Sound :=
    (after_ok hchosen ▸ chooseColumn_moves hledger.sound.shared).sound hledger.sound
  obtain ⟨id, rest, source, earlier, hstack, hcursor, hsettles⟩ :=
    chooseColumn_settles hledger.sound hchosen
  obtain ⟨name, s', hrun, hwritten, -, -⟩ := chooseColumnAlias_written hsound hstack hcursor
  have hsound' : s'.catalog.Sound :=
    (after_ok hrun ▸ chooseColumnAlias_moves hsound.shared).sound hsound
  refine ⟨id, rest, source, earlier, name, s', hstack, hcursor, hrun, ?_⟩
  refine (hwritten.mapped hsound').imp_right fun ⟨habsent, hname⟩ => ⟨?_, hname⟩
  rcases hsettles with hmade | ⟨aliases, hfind, hmem⟩
  · exact hmade
  · exact absurd hmem (habsent aliases hfind)

end Scope

end ProbeForge
