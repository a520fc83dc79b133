import ProbeForge.Proofs.Outcome
import ProbeForge.Proofs.Scope.Registration

/-!
# Along a relation

The operations on a segment are made of a few elementary ones: a number is drawn, a name is minted,
a source, an alias or a column is written to the tables, a reference to the cursor. A relation
between scopes that holds along these holds along the operations made of them, and along the
requests of a catalog, which work on its innermost segment.
-/

namespace ProbeForge.Scope

variable {ρ α β : Type} {id : SegmentId} {R : Scope ρ → Scope ρ → Prop}

/-- The operation takes every scope to one that is related to it. -/
def Along (R : Scope ρ → Scope ρ → Prop) (x : ScopeM ρ α) : Prop := ∀ s, R s (x s).2

theorem Along.discard {x : ScopeM ρ α} (hx : Along R x) : Along R (discard x) := hx

/-! ### Names -/

/-- A relation that holds along drawing numbers and minting names in a segment. -/
structure Lenient (id : SegmentId) (R : Scope ρ → Scope ρ → Prop) : Prop where
  refl (s : Scope ρ) : R s s
  trans {s s' s'' : Scope ρ} (h : R s s') (h' : R s' s'') : R s s''
  reseeded (s : Scope ρ) (source : ρ) : R s { s with source }
  mint (stem : String) : Along R (Scope.mint id stem)

namespace Lenient

variable (h : Lenient id R)
include h

theorem pure (a : α) : Along R (Pure.pure a : ScopeM ρ α) := h.refl

theorem bind {x : ScopeM ρ α} {f : α → ScopeM ρ β} (hx : Along R x) (hf : ∀ a, Along R (f a)) :
    Along R (x >>= f) := fun s => h.trans (hx s) (hf (x s).1 (x s).2)

theorem get : Along R (MonadState.get : ScopeM ρ (Scope ρ)) := h.refl

theorem segmentAt (k : SegmentId) : Along R (Scope.segmentAt k : ScopeM ρ Segment) := h.refl

theorem draw (f : ρ → α × ρ) : Along R (Scope.draw f) := fun s => h.reseeded s (f s.source).2

theorem unknownTable : Along R (Scope.unknownTable id : ScopeM ρ SourceDescriptor) :=
  h.bind (h.mint _) fun _ => h.pure _

theorem findSource (key : String) :
    Along R (Scope.findSource id key : ScopeM ρ SourceDescriptor) := by
  refine h.bind (h.segmentAt id) fun g => ?_
  split
  · exact h.pure _
  · exact h.unknownTable

variable [RandomSource ρ]

theorem chooseFrom (x : α) (xs : List α) : Along R (Scope.chooseFrom x xs : ScopeM ρ α) :=
  h.draw _

theorem anySource : Along R (Scope.anySource id : ScopeM ρ SourceDescriptor) := by
  refine h.bind h.get fun s => ?_
  dsimp only
  split
  · exact h.unknownTable
  · exact h.bind (h.chooseFrom _ _) fun _ => h.findSource _

/-- Without a source the column is made up. -/
theorem addColumnOf_none : Along R (addColumnOf id none : ScopeM ρ ColumnDescriptor) :=
  h.bind h.get fun _ => h.bind (h.mint _) fun _ => h.bind (h.mint _) fun _ =>
    h.bind (h.mint _) fun _ => h.pure _

theorem pickedColumn (source : Option String) :
    Along R (Scope.pickedColumn id source : ScopeM ρ (Option ColumnDescriptor)) := by
  refine h.bind (h.segmentAt id) fun g => ?_
  dsimp only
  split
  · exact h.pure _
  · exact h.bind (h.chooseFrom _ _) fun _ => h.pure _

theorem pickedAlias (column source : String) :
    Along R (Scope.pickedAlias id column source : ScopeM ρ (Option ColumnDescriptor)) := by
  refine h.bind (h.segmentAt id) fun g => ?_
  dsimp only
  split
  · exact h.pure _
  · exact h.bind (h.chooseFrom _ _) fun _ => h.pure _

omit [RandomSource ρ] in
/-- A source that has no alias yet is moved to a new one. -/
theorem addSourceAlias
    (hrename : ∀ key new entry, Along R (update id (·.rename key new entry))) (key : String) :
    Along R (Scope.addSourceAlias id key : ScopeM ρ Aliasing) := by
  refine h.bind (h.segmentAt id) fun g => ?_
  split
  · exact h.bind (h.mint _) fun _ => h.pure _
  · split
    · exact h.bind (h.mint _) fun _ => h.bind (hrename _ _ _) fun _ => h.pure _
    · exact h.pure _

section Columns

variable (hput : ∀ put : OrderedMap String (OrderedMap String String) →
    OrderedMap String (OrderedMap String String),
  Along R (update id fun g => { g with columns := put g.columns }))
include hput

omit [RandomSource ρ] in
theorem pickColumn (column source : String) :
    Along R (Scope.pickColumn id column source : ScopeM ρ String) := by
  refine h.bind (h.segmentAt id) fun g => ?_
  split
  · exact h.bind (hput (·.insert column _)) fun _ => h.pure _
  · exact h.bind (h.mint _) fun _ => h.bind (hput (·.insert column _)) fun _ => h.pure _

/-- Picking a column writes to the table of columns only. -/
theorem addColumn (source : String) :
    Along R (Scope.addColumn id source : ScopeM ρ ColumnDescriptor) := by
  refine h.bind (h.segmentAt id) fun g => ?_
  cases g.sources.find? source with
  | none => exact h.addColumnOf_none
  | some entry =>
    refine h.bind h.get fun s => ?_
    dsimp only
    split
    · exact h.bind (h.mint _) fun _ => h.pure _
    · exact h.bind (h.chooseFrom _ _) fun _ =>
        h.bind (h.pickColumn hput _ _) fun _ => h.pure _

omit [RandomSource ρ] in
theorem addColumnAlias (column source : String) :
    Along R (Scope.addColumnAlias id column source : ScopeM ρ (Option ColumnDescriptor)) := by
  have hnew : ∀ (aliases : OrderedMap String String) (d : String → Option ColumnDescriptor),
      Along R (do
        let aliasName ← Scope.mint id column
        update id fun s =>
          { s with columns := s.columns.insert column (aliases.insert aliasName source) }
        return d aliasName : ScopeM ρ (Option ColumnDescriptor)) := fun aliases d =>
    h.bind (h.mint _) fun _ => h.bind (hput (·.insert column _)) fun _ => h.pure _
  refine h.bind (h.segmentAt id) fun g => ?_
  dsimp only
  split
  · exact h.pure _
  · split
    · split
      · exact hnew _ _
      · exact h.pure _
    · exact hnew _ _

end Columns

end Lenient

/-! ### Tables -/

/-- Besides, the relation holds along writing to the tables of the segment. -/
structure Stocking (id : SegmentId) (R : Scope ρ → Scope ρ → Prop) : Prop
    extends Lenient id R where
  putSource (entry : SourceEntry) : Along R (update id (·.putSource entry))
  addSourceAlias (key : String) : Along R (Scope.addSourceAlias id key)
  addColumn [RandomSource ρ] (source : String) : Along R (Scope.addColumn id source)
  addColumnAlias (column source : String) : Along R (Scope.addColumnAlias id column source)

namespace Stocking

variable (h : Stocking id R)
include h

theorem addPlaceholder (kind : SourceKind) (stem : String) :
    Along R (Scope.addPlaceholder id kind stem : ScopeM ρ SourceDescriptor) :=
  h.bind (h.mint stem) fun _ => h.bind (h.putSource _) fun _ => h.pure _

variable [RandomSource ρ]

theorem addPhysical (u : Universe) (kind : SourceKind) :
    Along R (Scope.addPhysical u id kind : ScopeM ρ SourceDescriptor) := by
  refine h.bind (h.segmentAt id) fun g => ?_
  dsimp only
  split
  · exact h.addPlaceholder kind _
  · refine h.bind (h.chooseFrom _ _) fun o => ?_
    split
    · exact h.bind (h.mint _) fun _ => h.bind (h.putSource _) fun _ => h.pure _
    · exact h.bind (h.pure _) fun _ => h.bind (h.putSource _) fun _ => h.pure _

theorem addAnyColumn : Along R (Scope.addAnyColumn id : ScopeM ρ ColumnDescriptor) := by
  refine h.bind (h.segmentAt id) fun g => ?_
  split
  · exact h.addColumnOf_none
  · exact h.bind (h.chooseFrom _ _) fun _ => h.addColumn _

theorem reuseOrPick (source : String) :
    Along R (Scope.reuseOrPick id source : ScopeM ρ String) := by
  refine h.bind (h.pickedColumn _) fun picked => ?_
  split
  · refine h.bind (h.draw _) fun x => ?_
    split
    · exact h.pure _
    · exact h.bind (h.addColumn source) fun _ => h.pure _
  · exact h.bind (h.addColumn source) fun _ => h.pure _

end Stocking

/-! ### References -/

/-- Besides, the relation holds along writing to the cursor and the outputs of the segment. -/
structure Referring (id : SegmentId) (R : Scope ρ → Scope ρ → Prop) : Prop
    extends Stocking id R where
  setCursor (cursor : Cursor) : Along R (Scope.setCursor id cursor)
  exportName (name : String) : Along R (update id (·.exportName name))

/-- The column is written out, and the cursor is idle. -/
theorem Referring.written (h : Referring id R) (name : String) :
    Along R (update id fun g => { g.exportName name with cursor := .idle }) := fun s => by
  have hsame : (Scope.setCursor id .idle (update id (·.exportName name) s).2).2 =
      (update id (fun g => { g.exportName name with cursor := .idle }) s).2 :=
    congrArg (Scope.mk · s.source) (s.catalog.modifySegment_modifySegment id _ _)
  exact hsame ▸ h.trans (h.exportName name s) (h.setCursor .idle _)

/-! ### Requests -/

/-- The request writes to nothing but the tables of the innermost segment. -/
def OnTop (x : ScopeAttempt ρ α) : Prop :=
  ∃ f, x = withTop f ∧ ∀ id R, Stocking id R → Along R (f id)

/-- The request writes a column out, and besides to nothing but the tables of its segment. -/
def OnColumn (x : ScopeAttempt ρ String) : Prop :=
  ∃ operation lack f, x = withColumn operation lack f ∧
    ∀ id R, Stocking id R → ∀ source column, Along R (f id source column)

/-- Whether or not it succeeds, the request changes one segment at most. -/
def Confined (x : ScopeAttempt ρ α) : Prop :=
  ∀ R : SegmentId → Scope ρ → Scope ρ → Prop, (∀ id, Referring id (R id)) →
    ∀ s, ∃ id, R id s (after x s)

theorem withTop_along {f : SegmentId → ScopeM ρ α} (hrefl : ∀ s, R s s)
    (hf : ∀ id, Along R (f id)) (s : Scope ρ) : R s (after (withTop f) s) := by
  unfold after withTop
  cases s.catalog.stack with
  | nil => exact hrefl s
  | cons id rest => exact hf id s

theorem withTop_confined {f : SegmentId → ScopeM ρ α}
    (hf : ∀ id R, Referring id R → Along R (f id)) : Confined (withTop f) := by
  intro R hR s
  unfold after withTop
  cases s.catalog.stack with
  | nil => exact ⟨0, (hR 0).refl s⟩
  | cons id rest => exact ⟨id, hf id _ (hR id) s⟩

theorem OnTop.confined {x : ScopeAttempt ρ α} (h : OnTop x) : Confined x := by
  obtain ⟨f, rfl, hf⟩ := h
  exact withTop_confined fun id R hR => hf id R hR.toStocking

theorem OnColumn.confined {x : ScopeAttempt ρ String} (h : OnColumn x) : Confined x := by
  obtain ⟨operation, lack, f, rfl, hf⟩ := h
  intro R hR s
  unfold after withColumn
  cases s.catalog.stack with
  | nil => exact ⟨0, (hR 0).refl s⟩
  | cons id rest =>
    refine ⟨id, ?_⟩
    dsimp only
    cases (s.catalog.segment id).cursor with
    | columnChosen source name column =>
      exact (hR id).trans (hf id _ (hR id).toStocking source column s) ((hR id).written _ _)
    | idle | aliasChosen | nameResolved => exact (hR id).refl s

theorem defineAlias_onTop : OnTop (defineAlias (ρ := ρ)) := by
  refine ⟨_, rfl, fun id R h => h.bind (h.segmentAt id) fun g => ?_⟩
  split
  · exact h.mint _
  · exact h.bind (h.addSourceAlias _) fun _ => h.pure _

theorem chooseColumnAlias_onColumn : OnColumn (chooseColumnAlias (ρ := ρ)) := by
  refine ⟨_, _, _, rfl, fun id R h source column =>
    h.bind (h.addColumnAlias column source) fun d => ?_⟩
  dsimp only
  split
  · exact h.mint _
  · exact h.pure _

theorem exportColumn_onColumn : OnColumn (exportColumn (ρ := ρ)) :=
  ⟨_, _, _, rfl, fun _ _ h _ _ => h.pure _⟩

section Choosing

variable [RandomSource ρ]

theorem addSource_onTop (u : Universe) (kind : SourceKind) :
    OnTop (addSource (ρ := ρ) u kind) := ⟨_, rfl, fun _ _ h => h.addPhysical u kind⟩

theorem chooseTable_confined : Confined (chooseTable (ρ := ρ)) := by
  refine withTop_confined fun id R h => h.bind (h.segmentAt id) fun g => ?_
  split <;> dsimp only
  · exact h.bind (h.findSource _) fun _ => h.bind (h.setCursor _) fun _ => h.pure _
  · exact h.bind h.anySource fun _ => h.bind (h.setCursor _) fun _ => h.pure _

theorem chooseAlias_confined : Confined (chooseAlias (ρ := ρ)) := by
  refine withTop_confined fun id R h => h.bind (h.segmentAt id) fun g => ?_
  split
  · exact h.pure _
  · exact h.bind (h.setCursor _) fun _ => h.pure _
  · exact h.bind h.anySource fun _ => h.bind (h.setCursor _) fun _ => h.pure _

theorem chooseColumn_confined : Confined (chooseColumn (ρ := ρ)) := by
  refine withTop_confined fun id R h => h.bind (h.segmentAt id) fun g => ?_
  have hpick : ∀ source, Along R (do
      let column ← reuseOrPick id source
      setCursor id (.columnChosen source g.cursor.name? column)
      return column : ScopeM ρ String) := fun source =>
    h.bind (h.reuseOrPick source) fun _ => h.bind (h.setCursor _) fun _ => h.pure _
  dsimp only
  split
  · exact hpick _
  · exact hpick _
  · exact h.bind h.anySource fun _ => hpick _

theorem chooseSchema_confined (u : Universe) : Confined (chooseSchema (ρ := ρ) u) := by
  refine withTop_confined fun id R h => h.bind (h.setCursor _) fun _ =>
    h.bind (h.segmentAt id) fun g => ?_
  split
  · exact h.bind (h.chooseFrom _ _) fun _ => h.pure _
  · split
    · exact h.pure _
    · exact h.chooseFrom _ _

end Choosing

end ProbeForge.Scope
