import ProbeForge.Proofs.Scope.Requests

/-!
# Announced tables

A schema is written before the name of its table. The table is registered with the schema and waits
in its segment for the name to be written. Only another schema or a table of the same segment can
take it from there, so it waits through everything that happens in the meantime. The flag by which
the schema is asked for is taken back within the same call.
-/

namespace ProbeForge

/-- What a segment holds of a schema that is written. -/
def Segment.marks (g : Segment) : Option SourceDescriptor × List String := (g.pending, g.flags)

theorem Segment.Aside.marks : Segment.Aside Segment.marks :=
  ⟨fun _ _ _ _ _ => rfl, fun _ _ _ => rfl⟩

theorem Segment.marks_default : (default : Segment).marks = (none, []) := rfl

theorem Segment.hasFlag_of_marks {g g' : Segment} (h : g'.marks = g.marks) (flag : String) :
    g'.hasFlag flag = g.hasFlag flag :=
  congrArg (fun marks => marks.2.contains flag) h

theorem Segment.setFlag_pending (g : Segment) (flag : String) :
    (g.setFlag flag).pending = g.pending := by
  unfold setFlag
  split <;> rfl

theorem Segment.hasFlag_setFlag {g : Segment} {flag other : String}
    (h : (g.setFlag other).hasFlag flag = true) : g.hasFlag flag = true ∨ flag = other := by
  unfold setFlag at h
  split at h
  case isTrue => exact .inl h
  case isFalse => simpa [hasFlag] using h

theorem Segment.hasFlag_clearFlag {g : Segment} {flag other : String} :
    (g.clearFlag other).hasFlag flag = true ↔ g.hasFlag flag = true ∧ flag ≠ other := by
  simp [hasFlag, clearFlag]

namespace Scope

variable {ρ α : Type} {id k : SegmentId} {rest : List SegmentId} {s s' : Scope ρ}
  {d : SourceDescriptor}

/-! ### Segments that keep their marks -/

/-- Every segment has the marks that it had. One that is opened has none. -/
def SameMarks (s s' : Scope ρ) : Prop :=
  ∀ k, (s'.catalog.segment k).marks = (s.catalog.segment k).marks

/-- What the operation answers does not matter. -/
theorem Confined.sameMarks {β : Type} {x : ScopeAttempt ρ α} (h : Confined x) (f : α → β)
    (s : Scope ρ) : SameMarks s (after (f <$> x) s) := by
  rw [after_map]
  exact (h.sameField .marks s).field_eq

theorem sameMarks_of_opened {g : Segment} (hnew : g.marks = (none, []))
    (h : ∀ k, s'.catalog.segment k =
      if k = s.catalog.segments.size then g else s.catalog.segment k) : SameMarks s s' := by
  intro k
  rw [h k]
  split
  case isTrue heq =>
    rw [Catalog.segment_of_size_le (Nat.le_of_eq heq.symm), hnew, Segment.marks_default]
  case isFalse => rfl

theorem push_sameMarks (s : Scope ρ) : SameMarks s (push s).2 := by
  cases hstack : s.catalog.stack with
  | nil => exact sameMarks_of_opened rfl fun _ => Catalog.segment_of_push (push_root hstack)
  | cons id rest =>
    intro k
    by_cases hk : k = s.catalog.segments.size
    · rw [hk, segment_push_new hstack, Catalog.segment_of_size_le (Nat.le_refl _)]
      rfl
    · rw [segment_push_old hstack hk]
      exact Catalog.field_modifySegment (f := enclose _ _) Segment.marks (fun _ => rfl) k

theorem pop_sameMarks (s : Scope ρ) : SameMarks s (after pop s) := by
  unfold after
  cases hstack : s.catalog.stack with
  | nil =>
    unfold pop
    rw [hstack]
    exact fun _ => rfl
  | cons id rest =>
    rw [pop_run hstack]
    exact fun _ => rfl

variable [RandomSource ρ]

/-- Marks are made by schemas, tables and flags. -/
inductive Request.Marks : Request → Prop where
  | schema : Marks (.call .addSchema)
  | table : Marks (.call .addTable)
  | setFlag (id : SegmentId) (flag : String) : Marks (.call (.on id (.setFlag flag)))
  | clearFlag (id : SegmentId) (flag : String) : Marks (.call (.on id (.clearFlag flag)))

theorem Request.sameMarks (u : Universe) {request : Request} (h : ¬ request.Marks) (s : Scope ρ) :
    SameMarks s (after (request.operation u) s) := by
  cases request with
  | current => exact (withTop_confined fun id _ h => h.segmentAt id).sameMarks _ s
  | alone name => exact sameMarks_of_opened rfl fun _ => Catalog.segment_of_push rfl
  | call call =>
    cases call with
    | push => exact push_sameMarks s
    | pop =>
      rw [operation, Call.operation, silently, after_map]
      exact pop_sameMarks s
    | enter id => exact fun _ => rfl
    | addSchema => exact absurd .schema h
    | addTable => exact absurd .table h
    | addSource kind => exact (addSource_onTop u kind).confined.sameMarks _ s
    | defineAlias => exact defineAlias_onTop.confined.sameMarks _ s
    | chooseTable => exact chooseTable_confined.sameMarks _ s
    | chooseAlias => exact chooseAlias_confined.sameMarks _ s
    | chooseColumn => exact chooseColumn_confined.sameMarks _ s
    | chooseColumnAlias => exact chooseColumnAlias_onColumn.confined.sameMarks _ s
    | exportColumn => exact exportColumn_onColumn.confined.sameMarks _ s
    | chooseSchema => exact (chooseSchema_confined u).sameMarks _ s
    | on id call =>
      refine (call.sameField Segment.Aside.marks.beside u id (fun _ _ => rfl) ?_ s).field_eq
      rintro ⟨flag, rfl | rfl⟩
      · exact absurd (.setFlag id flag) h
      · exact absurd (.clearFlag id flag) h

/-! ### Schemas and tables -/

/-- The scope without the table that waits in a segment. -/
def handedOut (id : SegmentId) (s : Scope ρ) : Scope ρ :=
  { s with catalog := s.catalog.modifySegment id ({ · with pending := none }) }

omit [RandomSource ρ] in
/-- Nothing is registered for a table that waits. -/
theorem handedOut_tables (id : SegmentId) (s : Scope ρ) (k : SegmentId) :
    ((handedOut id s).catalog.segment k).tables = (s.catalog.segment k).tables :=
  Catalog.field_modifySegment (f := ({ · with pending := none })) Segment.tables (fun _ => rfl) k

theorem addTable_waiting (u : Universe) (hstack : s.catalog.stack = id :: rest)
    (hpending : (s.catalog.segment id).pending = some d) :
    addTable u s = .ok d (handedOut id s) := by
  rw [addTable, withTop_run hstack, bind_run, segmentAt_run]
  dsimp only
  rw [hpending]
  rfl

/-- A table that does not wait is registered, and no mark is changed. -/
theorem addTable_new (u : Universe) (hstack : s.catalog.stack = id :: rest)
    (hpending : (s.catalog.segment id).pending = none) :
    SameMarks s (after (addTable u) s) := by
  rw [after, addTable, withTop_run hstack, bind_run, segmentAt_run]
  dsimp only
  rw [hpending]
  exact ((sameField_stocking Segment.Aside.marks.beside id).addPhysical u .table s).field_eq

/-- The marks of the innermost segment after a schema, and those of the others. -/
structure Announced (id : SegmentId) (s : Scope ρ) (d : SourceDescriptor) (s' : Scope ρ) :
    Prop where
  waits : id < s.catalog.segments.size → (s'.catalog.segment id).pending = some d
  unflagged : (s'.catalog.segment id).hasFlag Segment.schemaFlag = false
  others : ∀ k ≠ id, (s'.catalog.segment k).marks = (s.catalog.segment k).marks

theorem addSchema_announced (u : Universe) (hstack : s.catalog.stack = id :: rest) :
    ∃ d s', addSchema u s = .ok d s' ∧ Announced id s d s' := by
  refine ⟨_, _, withTop_run hstack _, ?_⟩
  have hflag := update_changed id (·.setFlag Segment.schemaFlag) s
  simp only [bind_run]
  generalize (update id (·.setFlag Segment.schemaFlag) s).2 = s₁ at hflag ⊢
  have hput := (sameField_stocking Segment.Aside.marks.beside id).addPhysical u .table s₁
  generalize addPhysical u id .table s₁ = registered at hput ⊢
  obtain ⟨d, s₂⟩ := registered
  have hsize : s₂.catalog.segments.size = s.catalog.segments.size :=
    hput.size_eq.trans hflag.size_eq
  have hwritten := update_changed id
    (fun g => { g.clearFlag Segment.schemaFlag with pending := some d }) s₂
  refine ⟨fun hid => ?_, ?_, fun k hk => ?_⟩
  · exact congrArg Segment.pending (hwritten.self (hsize ▸ hid))
  · by_cases hid : id < s₂.catalog.segments.size
    · refine (congrArg (·.hasFlag Segment.schemaFlag) (hwritten.self hid)).trans ?_
      simp [Segment.hasFlag, Segment.clearFlag]
    · have hle := Nat.not_lt.mp hid
      exact congrArg (·.hasFlag Segment.schemaFlag)
        (Catalog.segment_of_size_le (hwritten.size_eq ▸ hle))
  · exact (congrArg Segment.marks (hwritten.other hk)).trans
      ((hput.field_eq k).trans (congrArg Segment.marks (hflag.other hk)))

/-! ### Histories -/

omit [RandomSource ρ] in
theorem after_withTop_nil {f : SegmentId → ScopeM ρ α} (h : s.catalog.stack = []) :
    after (withTop f) s = s := by
  unfold after withTop
  rw [h]

/-- A schema makes marks in the innermost segment only. -/
theorem addSchema_others (u : Universe) (h : s.catalog.stack.head? ≠ some k) :
    ((after (addSchema u) s).catalog.segment k).marks = (s.catalog.segment k).marks := by
  cases hstack : s.catalog.stack with
  | nil => rw [addSchema, after_withTop_nil hstack]
  | cons id rest =>
    obtain ⟨d, s', hrun, hannounced⟩ := addSchema_announced u hstack
    rw [after_ok hrun]
    exact hannounced.others k fun heq => h (by rw [hstack, heq, List.head?_cons])

theorem addTable_others (u : Universe) (h : s.catalog.stack.head? ≠ some k) :
    ((after (addTable u) s).catalog.segment k).marks = (s.catalog.segment k).marks := by
  cases hstack : s.catalog.stack with
  | nil => rw [addTable, after_withTop_nil hstack]
  | cons id rest =>
    cases hpending : (s.catalog.segment id).pending with
    | none => exact addTable_new u hstack hpending k
    | some d =>
      rw [after_ok (addTable_waiting u hstack hpending)]
      refine congrArg Segment.marks (Catalog.segment_modify_of_ne fun heq => h ?_)
      rw [hstack, heq, List.head?_cons]

theorem pending_follow {u : Universe} {request : Request}
    (hpending : (s.catalog.segment id).pending = some d)
    (hspares : request = .call .addSchema ∨ request = .call .addTable →
      s.catalog.stack.head? ≠ some id) :
    ((follow u s request).catalog.segment id).pending = some d := by
  unfold follow
  split
  case isFalse => exact hpending
  suffices hsame : ((after (request.operation u) s).catalog.segment id).pending =
      (s.catalog.segment id).pending from hsame.trans hpending
  by_cases hmarks : request.Marks
  case neg => exact congrArg Prod.fst (Request.sameMarks u hmarks s id)
  cases hmarks with
  | schema =>
    rw [Request.operation, Call.operation, silently, after_map]
    exact congrArg Prod.fst (addSchema_others u (hspares (.inl rfl)))
  | table =>
    rw [Request.operation, Call.operation, silently, after_map]
    exact congrArg Prod.fst (addTable_others u (hspares (.inr rfl)))
  | setFlag k flag =>
    exact Catalog.field_modifySegment Segment.pending (Segment.setFlag_pending · flag) id
  | clearFlag k flag =>
    exact Catalog.field_modifySegment (f := (·.clearFlag flag)) Segment.pending (fun _ => rfl) id

/-- No table and no schema is asked for while the segment is the innermost one. -/
def Spares (u : Universe) (id : SegmentId) : Scope ρ → List Request → Prop
  | _, [] => True
  | s, request :: requests =>
    (request = .call .addSchema ∨ request = .call .addTable →
      s.catalog.stack.head? ≠ some id) ∧ Spares u id (follow u s request) requests

theorem pending_of_spares {u : Universe} {requests : List Request}
    (hpending : (s.catalog.segment id).pending = some d) (h : Spares u id s requests) :
    ((requests.foldl (follow u) s).catalog.segment id).pending = some d := by
  induction requests generalizing s with
  | nil => exact hpending
  | cons request requests ih => exact ih (pending_follow hpending h.1) h.2

/-- The next table of the segment is this one, and nothing is registered for it. -/
def Awaits (u : Universe) (id : SegmentId) (d : SourceDescriptor) (s : Scope ρ) : Prop :=
  ∀ (requests : List Request) (rest : List SegmentId), Spares u id s requests →
    (requests.foldl (follow u) s).catalog.stack = id :: rest →
      addTable u (requests.foldl (follow u) s) = .ok d (handedOut id (requests.foldl (follow u) s))

theorem awaits_of_pending {u : Universe} (h : (s.catalog.segment id).pending = some d) :
    Awaits u id d s := fun _ _ hspares hstack =>
  addTable_waiting u hstack (pending_of_spares h hspares)

/-- A request that does not set the schema flag by itself leaves it nowhere where it was not. -/
theorem schemaFlag_follow {u : Universe} {request : Request}
    (hset : ∀ k, request ≠ .call (.on k (.setFlag Segment.schemaFlag)))
    (h : ((follow u s request).catalog.segment id).hasFlag Segment.schemaFlag = true) :
    (s.catalog.segment id).hasFlag Segment.schemaFlag = true := by
  unfold follow at h
  split at h
  case isFalse => exact h
  by_cases hmarks : request.Marks
  case neg => exact Segment.hasFlag_of_marks (Request.sameMarks u hmarks s id) _ ▸ h
  cases hmarks with
  | schema =>
    rw [Request.operation, Call.operation, silently, after_map] at h
    cases hstack : s.catalog.stack with
    | nil => rwa [addSchema, after_withTop_nil hstack] at h
    | cons top rest =>
      -- the flag is up only while the schema is registered
      obtain ⟨d, s', hrun, hannounced⟩ := addSchema_announced u hstack
      rw [after_ok hrun] at h
      by_cases hid : id = top
      · rw [hid, hannounced.unflagged] at h
        cases h
      · rwa [Segment.hasFlag_of_marks (hannounced.others id hid)] at h
  | table =>
    rw [Request.operation, Call.operation, silently, after_map] at h
    cases hstack : s.catalog.stack with
    | nil => rwa [addTable, after_withTop_nil hstack] at h
    | cons top rest =>
      cases hpending : (s.catalog.segment top).pending with
      | none => rwa [Segment.hasFlag_of_marks (addTable_new u hstack hpending id)] at h
      | some d =>
        rw [after_ok (addTable_waiting u hstack hpending)] at h
        have hsame : ((handedOut top s).catalog.segment id).flags = (s.catalog.segment id).flags :=
          Catalog.field_modifySegment (f := ({ · with pending := none })) Segment.flags
            (fun _ => rfl) id
        exact (congrArg (·.contains Segment.schemaFlag) hsame).symm.trans h
  | setFlag k flag =>
    rcases (update_changed k (·.setFlag flag) s).segment_cases id with hsame | ⟨-, hchanged⟩
    · exact congrArg (·.hasFlag Segment.schemaFlag) hsame ▸ h
    · refine (Segment.hasFlag_setFlag (hchanged ▸ h)).resolve_right ?_
      rintro rfl
      exact hset k rfl
  | clearFlag k flag =>
    rcases (update_changed k (·.clearFlag flag) s).segment_cases id with hsame | ⟨-, hchanged⟩
    · exact congrArg (·.hasFlag Segment.schemaFlag) hsame ▸ h
    · exact (Segment.hasFlag_clearFlag.mp (hchanged ▸ h)).1

end Scope

end ProbeForge
