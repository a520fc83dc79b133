import Mathlib.Logic.Relation
import ProbeForge.Proofs.Scope.Along
import ProbeForge.Proofs.Scope.Effects
import ProbeForge.Proofs.Scope.Resolution

/-!
# Edits

All operations on a segment, from whatever state they start, come down to four ways to change its
tables of sources and columns, done one after the other.
-/

namespace ProbeForge

/-- What a segment knows of sources and columns. -/
structure Tables where
  sources : OrderedMap String SourceEntry
  columns : OrderedMap String (OrderedMap String String)
  lastSource : Option String

def Segment.tables (g : Segment) : Tables := ⟨g.sources, g.columns, g.lastSource⟩

/-- The alias is that of a source in the table. -/
def Tables.Lists (t : Tables) (source : String) : Prop :=
  ∃ key entry, t.sources.find? key = some entry ∧ source = entry.aliasName

/-- The tables before and after a change during which the counter of names goes from `m` to `m'`. -/
inductive Edit (m m' : Nat) (t : Tables) : Tables → Prop where
  | none : Edit m m' t t
  /-- A source is registered, in the place of another one under the same alias. -/
  | put (entry : SourceEntry) : Edit m m' t
      { t with
        sources := t.sources.insert entry.aliasName entry
        lastSource := some entry.aliasName }
  /-- A source gets a new alias. -/
  | rename {key : String} {entry : SourceEntry} {n : Nat}
      (found : t.sources.find? key = some entry) (fresh : m < n) (minted : n ≤ m') : Edit m m' t
      { sources := (t.sources.erase key).insert s!"{key}_{n}"
          { entry with aliasName := s!"{key}_{n}" }
        columns := t.columns.mapValues
          (·.mapValues fun source => if source = key then s!"{key}_{n}" else source)
        lastSource := if t.lastSource = some key then some s!"{key}_{n}" else t.lastSource }
  /-- A column is used for the first time and needs no alias. -/
  | pick {column source : String} (listed : t.Lists source)
      (unused : t.columns.find? column = Option.none) : Edit m m' t
      { t with columns := t.columns.insert column ⟨[(column, source)]⟩ }
  /-- A column gets a new alias, which may replace its own name. -/
  | name {column source : String} {aliases kept : OrderedMap String String} {n : Nat}
      (found : t.columns.find? column = some aliases)
      (known : t.Lists source ∨ source ∈ aliases.values)
      (keeps : kept = aliases ∨ kept = aliases.erase column) (fresh : m < n) (minted : n ≤ m') :
      Edit m m' t
      { t with columns := t.columns.insert column (kept.insert s!"{column}_{n}" source) }

namespace Scope

variable {ρ α β : Type} {id : SegmentId} {s s' : Scope ρ} {f : Segment → Segment}

/-- One change of a segment. Outputs are only added. -/
structure Edited (id : SegmentId) (s s' : Scope ρ) : Prop where
  changed : ∃ f, Changed id f s s' ∧ ∀ g, (f g).ownMinted = g.ownMinted
  exports : (s.catalog.segment id).exports <+: (s'.catalog.segment id).exports
  edit : Edit s.catalog.minted s'.catalog.minted (s.catalog.segment id).tables
    (s'.catalog.segment id).tables

theorem Changed.edited (h : Changed id f s s') (hown : ∀ g, (f g).ownMinted = g.ownMinted)
    (hexports : (s.catalog.segment id).exports <+: (f (s.catalog.segment id)).exports)
    (hedit : Edit s.catalog.minted s'.catalog.minted (s.catalog.segment id).tables
      (f (s.catalog.segment id)).tables) : Edited id s s' := by
  by_cases hid : id < s.catalog.segments.size
  · exact ⟨⟨f, h, hown⟩, h.self hid ▸ hexports, h.self hid ▸ hedit⟩
  · have hsame : s'.catalog.segment id = s.catalog.segment id := by
      rw [Catalog.segment_of_size_le (Nat.not_lt.mp hid),
        Catalog.segment_of_size_le (h.size_eq ▸ Nat.not_lt.mp hid)]
    exact ⟨⟨f, h, hown⟩, hsame ▸ List.prefix_refl _, hsame ▸ .none⟩

theorem Kept.edited (h : Kept id s s') : Edited id s s' :=
  Changed.edited h (fun _ => rfl) (List.prefix_refl _) .none

theorem Edited.minted_le (h : Edited id s s') : s.catalog.minted ≤ s'.catalog.minted := by
  obtain ⟨f, ⟨minted, source, hle, rfl⟩, -⟩ := h.changed
  exact hle

theorem Edited.shared (h : Edited id s s') (hs : s.catalog.Shared) : s'.catalog.Shared := by
  obtain ⟨f, hchanged, hown⟩ := h.changed
  exact hchanged.shared hs hown

/-- Changes of one segment, one after the other. -/
abbrev Edits (id : SegmentId) : Scope ρ → Scope ρ → Prop := Relation.ReflTransGen (Edited id)

theorem Edits.shared (h : Edits id s s') (hs : s.catalog.Shared) : s'.catalog.Shared := by
  induction h with
  | refl => exact hs
  | tail _ hedited ih => exact hedited.shared ih

theorem Edits.minted_le (h : Edits id s s') : s.catalog.minted ≤ s'.catalog.minted := by
  induction h with
  | refl => exact Nat.le_refl _
  | tail _ hedited ih => exact Nat.le_trans ih hedited.minted_le

theorem Edits.size_eq (h : Edits id s s') :
    s'.catalog.segments.size = s.catalog.segments.size := by
  induction h with
  | refl => rfl
  | tail _ hedited ih =>
    obtain ⟨f, hchanged, -⟩ := hedited.changed
    exact hchanged.size_eq.trans ih

theorem Edits.stack_eq (h : Edits id s s') : s'.catalog.stack = s.catalog.stack := by
  induction h with
  | refl => rfl
  | tail _ hedited ih =>
    obtain ⟨f, hchanged, -⟩ := hedited.changed
    exact hchanged.stack_eq.trans ih

theorem Kept.edits (h : Kept id s s') : Edits id s s' := .single h.edited

/-- The segment is only edited. -/
def Amends (id : SegmentId) (s s' : Scope ρ) : Prop := s.catalog.Shared → Edits id s s'

theorem amends_lenient (id : SegmentId) : Lenient id (Amends (ρ := ρ) id) where
  refl _ _ := .refl
  trans h h' hs := (h hs).trans (h' ((h hs).shared hs))
  reseeded s source _ := (Kept.reseeded id s source).edits
  mint stem _ hs := (mint_kept hs id stem).edits

/-! ### Elementary operations -/

/-- A change that leaves the tables alone. -/
theorem update_amends (id : SegmentId) (htables : ∀ g, (f g).tables = g.tables)
    (hown : ∀ g, (f g).ownMinted = g.ownMinted) (hexports : ∀ g, g.exports <+: (f g).exports) :
    Along (Amends id) (update id f : ScopeM ρ Unit) := fun s _ =>
  .single ((update_changed id f s).edited hown (hexports _) ((htables _).symm ▸ .none))

theorem setFlag_amends (id : SegmentId) (flag : String) :
    Along (Amends id) (update id (·.setFlag flag) : ScopeM ρ Unit) := by
  refine update_amends id (fun g => ?_) (setFlag_ownMinted · flag) fun g => ?_ <;>
    unfold Segment.setFlag <;> split
  · rfl
  · rfl
  · exact List.prefix_refl _
  · exact List.prefix_refl _

theorem clearFlag_amends (id : SegmentId) (flag : String) :
    Along (Amends id) (update id (·.clearFlag flag) : ScopeM ρ Unit) :=
  update_amends id (fun _ => rfl) (fun _ => rfl) fun _ => List.prefix_refl _

/-- A change that uses up the next name. -/
theorem minted_edits {stem : String} (hs : s.catalog.Shared)
    (hown : ∀ g, (f g).ownMinted = g.ownMinted) (hexports : ∀ g, g.exports <+: (f g).exports)
    (hedit : Edit s.catalog.minted (s.catalog.minted + 1) (s.catalog.segment id).tables
      (f (s.catalog.segment id)).tables) : Edits id s (update id f (mint id stem s).2).2 := by
  have hchanged := (mint_kept hs id stem).trans (update_changed id f (mint id stem s).2)
  refine .single (hchanged.edited hown (hexports _) ?_)
  rw [mint_shared hs]
  exact hedit

/-! ### Sources -/

theorem addSourceAlias_amends (id : SegmentId) (key : String) :
    Along (Amends id) (addSourceAlias id key : ScopeM ρ Aliasing) := by
  intro s hs
  unfold addSourceAlias
  rw [bind_run, segmentAt_run]
  dsimp only
  cases hfind : (s.catalog.segment id).sources.find? key with
  | none =>
    exact (amends_lenient id).bind ((amends_lenient id).mint _)
      (fun _ => (amends_lenient id).pure _) s hs
  | some entry =>
    dsimp only
    split
    · change Edits id s (update id (·.rename key (mint id key s).1 entry) (mint id key s).2).2
      refine minted_edits hs (fun _ => rfl) (fun _ => List.prefix_refl _) ?_
      rw [mint_shared hs]
      exact .rename hfind (Nat.lt_succ_self _) (Nat.le_refl _)
    · exact .refl

/-! ### Columns -/

theorem pickColumn_edits (hs : s.catalog.Shared) {source : String}
    (hlisted : (s.catalog.segment id).tables.Lists source) (column : String) :
    Edits id s (pickColumn id column source s).2 := by
  have hpicks := pickColumn_picks id column source s
  generalize pickColumn id column source s = r at hpicks ⊢
  cases hpicks with
  | first unused =>
    exact .single ((update_changed id _ s).edited (fun _ => rfl) (List.prefix_refl _)
      (.pick hlisted unused))
  | again found =>
    refine minted_edits hs (fun _ => rfl) (fun _ => List.prefix_refl _) ?_
    rw [mint_shared hs]
    exact .name found (.inl hlisted) (.inl rfl) (Nat.lt_succ_self _) (Nat.le_refl _)

theorem addColumnAlias_amends (id : SegmentId) (column source : String) :
    Along (Amends id) (addColumnAlias id column source : ScopeM ρ (Option ColumnDescriptor)) := by
  intro s hs
  have hoffers := addColumnAlias_offers id column source s
  generalize addColumnAlias id column source s = r at hoffers ⊢
  cases hoffers with
  | absent | unwritten => exact .refl
  | minted found mem keeps =>
    refine minted_edits hs (fun _ => rfl) (fun _ => List.prefix_refl _) ?_
    rw [mint_shared hs]
    exact .name found (.inr mem) keeps (Nat.lt_succ_self _) (Nat.le_refl _)

section Choosing

variable [RandomSource ρ]

theorem addColumnOf_edits (hs : s.catalog.Shared) {entry : SourceEntry}
    (hlisted : (s.catalog.segment id).tables.Lists entry.aliasName) :
    Edits id s (addColumnOf id (some entry) s).2 := by
  unfold addColumnOf
  rw [bind_run, get_run]
  dsimp only
  cases hlist : s.catalog.columnList entry with
  | nil =>
    exact (amends_lenient id).bind ((amends_lenient id).mint _)
      (fun _ => (amends_lenient id).pure _) s hs
  | cons first others =>
    have hdrawn := chooseFrom_kept id first others s
    dsimp only
    rw [bind_run]
    generalize chooseFrom first others s = drawn at hdrawn ⊢
    obtain ⟨column, s₁⟩ := drawn
    refine hdrawn.edits.trans (pickColumn_edits (hdrawn.shared hs) ?_ column)
    rw [hdrawn.segment_eq]
    exact hlisted

theorem addColumn_amends (id : SegmentId) (source : String) :
    Along (Amends id) (addColumn id source : ScopeM ρ ColumnDescriptor) := fun s hs => by
  unfold addColumn
  rw [bind_run, segmentAt_run]
  cases hfind : (s.catalog.segment id).sources.find? source with
  | none => exact (amends_lenient id).addColumnOf_none s hs
  | some entry => exact addColumnOf_edits hs ⟨source, entry, hfind, rfl⟩

end Choosing

/-- Whatever is asked of a segment, it is only edited. -/
theorem amends_referring (id : SegmentId) : Referring id (Amends (ρ := ρ) id) where
  toLenient := amends_lenient id
  putSource entry s _ :=
    .single ((update_changed id _ s).edited (fun _ => rfl) (List.prefix_refl _) (.put entry))
  addSourceAlias := addSourceAlias_amends id
  addColumn := addColumn_amends id
  addColumnAlias := addColumnAlias_amends id
  setCursor _ := update_amends id (fun _ => rfl) (fun _ => rfl) fun _ => List.prefix_refl _
  exportName _ := update_amends id (fun _ => rfl) (fun _ => rfl) fun _ => List.prefix_append _ _

end Scope

end ProbeForge
