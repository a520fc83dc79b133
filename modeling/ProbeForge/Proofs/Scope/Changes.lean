import ProbeForge.Scope.Catalog

/-!
# Changes of one segment

Apart from opening and closing blocks, a scope operation changes at most the innermost segment and
draws random numbers and mints names. Each operation is described by what it does to that segment.
The segments of a statement share one counter for names, so minting leaves a segment as it is.
-/

namespace ProbeForge

namespace Catalog

variable {c : Catalog} {id k : SegmentId} {f : Segment → Segment}

theorem segment_modify_self (h : id < c.segments.size) :
    (c.modifySegment id f).segment id = f (c.segment id) := by
  simp [segment, modifySegment, Array.getD, h, Array.getElem_modify]

theorem segment_modify_of_ne (h : k ≠ id) :
    (c.modifySegment id f).segment k = c.segment k := by
  simp [segment, modifySegment, Array.getD_eq_getD_getElem?, Array.getElem?_modify, h.symm]

theorem segment_of_size_le (h : c.segments.size ≤ id) : c.segment id = default := by
  simp [segment, Array.getD, Nat.not_lt.mpr h]

/-- What a change of one segment leaves alone is the same in every segment. -/
theorem field_modifySegment {β : Type} (field : Segment → β) (hf : ∀ g, field (f g) = field g)
    (k : SegmentId) : field ((c.modifySegment id f).segment k) = field (c.segment k) := by
  by_cases hk : k = id
  · subst hk
    by_cases hsize : k < c.segments.size
    · rw [segment_modify_self hsize, hf]
    · have hle := Nat.not_lt.mp hsize
      rw [segment_of_size_le hle,
        segment_of_size_le (Nat.le_trans (Nat.le_of_eq Array.size_modify) hle)]
  · rw [segment_modify_of_ne hk]

theorem segment_of_push {c' : Catalog} {g : Segment} (h : c'.segments = c.segments.push g) :
    c'.segment k = if k = c.segments.size then g else c.segment k := by
  rw [segment, h, Array.getD_eq_getD_getElem?, Array.getElem?_push]
  split
  · rfl
  · rw [← Array.getD_eq_getD_getElem?]
    rfl

/-- The columns of a source depend on the segment whose outputs it stands for. -/
theorem columnList_congr {c' : Catalog} {entry : SourceEntry}
    (h : ∀ k, entry.columns = .exportsOf k → (c'.segment k).exports = (c.segment k).exports) :
    c'.columnList entry = c.columnList entry := by
  unfold columnList
  cases hcolumns : entry.columns with
  | fixed columns => rfl
  | exportsOf k => simp only [Segment.exportedColumns, h k hcolumns]

theorem modifySegment_id (c : Catalog) (id : SegmentId) : c.modifySegment id (fun s => s) = c := by
  have hsame : c.segments.modify id (fun s => s) = c.segments := by
    refine Array.ext (by simp) fun k hk hk' => ?_
    simp [Array.getElem_modify]
  simp [modifySegment, hsame]

theorem modifySegment_modifySegment (c : Catalog) (id : SegmentId) (f g : Segment → Segment) :
    (c.modifySegment id f).modifySegment id g = c.modifySegment id (fun s => g (f s)) := by
  have hsame : (c.segments.modify id f).modify id g = c.segments.modify id fun s => g (f s) := by
    refine Array.ext (by simp) fun k hk hk' => ?_
    by_cases hik : id = k <;> simp [Array.getElem_modify, hik]
  simp [modifySegment, hsame]

/-- All segments draw their names from the catalog's counter. -/
def Shared (c : Catalog) : Prop := ∀ id, (c.segment id).ownMinted = none

end Catalog

namespace Scope

variable {ρ : Type} {α β : Type}

/-- One segment was changed; besides, numbers may have been drawn and names minted. -/
def Changed (id : SegmentId) (f : Segment → Segment) (s s' : Scope ρ) : Prop :=
  ∃ minted source, s.catalog.minted ≤ minted ∧
    s' = ⟨{ s.catalog.modifySegment id f with minted }, source⟩

/-- No segment was changed. -/
abbrev Kept (id : SegmentId) (s s' : Scope ρ) : Prop := Changed id (fun segment => segment) s s'

section Changed

variable {id k : SegmentId} {f g : Segment → Segment} {s s' s'' : Scope ρ}

theorem Changed.stack_eq (h : Changed id f s s') : s'.catalog.stack = s.catalog.stack := by
  obtain ⟨minted, source, -, rfl⟩ := h
  rfl

theorem Changed.size_eq (h : Changed id f s s') :
    s'.catalog.segments.size = s.catalog.segments.size := by
  obtain ⟨minted, source, -, rfl⟩ := h
  exact Array.size_modify

theorem Changed.self (h : Changed id f s s') (hid : id < s.catalog.segments.size) :
    s'.catalog.segment id = f (s.catalog.segment id) := by
  obtain ⟨minted, source, -, rfl⟩ := h
  exact Catalog.segment_modify_self hid

theorem Changed.other (h : Changed id f s s') (hk : k ≠ id) :
    s'.catalog.segment k = s.catalog.segment k := by
  obtain ⟨minted, source, -, rfl⟩ := h
  exact Catalog.segment_modify_of_ne hk

theorem Changed.segment_cases (h : Changed id f s s') (k : SegmentId) :
    s'.catalog.segment k = s.catalog.segment k ∨
      k = id ∧ s'.catalog.segment k = f (s.catalog.segment k) := by
  by_cases hk : k = id
  · subst hk
    by_cases hsize : k < s.catalog.segments.size
    · exact .inr ⟨rfl, h.self hsize⟩
    · have hle := Nat.not_lt.mp hsize
      rw [Catalog.segment_of_size_le hle, Catalog.segment_of_size_le (h.size_eq ▸ hle)]
      exact .inl rfl
  · exact .inl (h.other hk)

/-- Only what happens to the segment as it is counts. -/
theorem Changed.congr (h : Changed id f s s')
    (heq : f (s.catalog.segment id) = g (s.catalog.segment id)) : Changed id g s s' := by
  obtain ⟨minted, source, hle, rfl⟩ := h
  have hsame : s.catalog.modifySegment id f = s.catalog.modifySegment id g := by
    unfold Catalog.modifySegment
    congr 1
    refine Array.ext (by simp) fun k hk hk' => ?_
    rw [Array.getElem_modify, Array.getElem_modify]
    split
    case isTrue hik =>
      subst hik
      have hlt : id < s.catalog.segments.size := by simpa using hk
      simpa [Catalog.segment, Array.getD, hlt] using heq
    case isFalse => rfl
  exact ⟨minted, source, hle, hsame ▸ rfl⟩

theorem Changed.trans (h : Changed id f s s') (h' : Changed id g s' s'') :
    Changed id (fun segment => g (f segment)) s s'' := by
  obtain ⟨minted, source, hle, rfl⟩ := h
  obtain ⟨minted', source', hle', rfl⟩ := h'
  refine ⟨minted', source', Nat.le_trans hle hle', ?_⟩
  rw [← Catalog.modifySegment_modifySegment s.catalog id f g]
  rfl

theorem Kept.refl (id : SegmentId) (s : Scope ρ) : Kept id s s :=
  ⟨s.catalog.minted, s.source, Nat.le_refl _, by rw [Catalog.modifySegment_id]⟩

theorem Kept.reseeded (id : SegmentId) (s : Scope ρ) (source : ρ) : Kept id s { s with source } :=
  ⟨s.catalog.minted, source, Nat.le_refl _, by rw [Catalog.modifySegment_id]⟩

theorem Kept.segment_eq (h : Kept id s s') : s'.catalog.segment k = s.catalog.segment k := by
  obtain ⟨minted, source, -, rfl⟩ := h
  rw [Catalog.modifySegment_id]
  rfl

theorem Changed.shared (h : Changed id f s s') (hs : s.catalog.Shared)
    (hf : ∀ segment, (f segment).ownMinted = segment.ownMinted) : s'.catalog.Shared := by
  intro k
  rcases h.segment_cases k with hsame | ⟨-, hchanged⟩
  · rw [hsame, hs]
  · rw [hchanged, hf, hs]

end Changed

/-! ### Elementary operations -/

section Elementary

variable {id : SegmentId} {s : Scope ρ}

theorem pure_run (a : α) (s : Scope ρ) : (pure a : ScopeM ρ α) s = (a, s) := rfl

theorem bind_run (m : ScopeM ρ α) (f : α → ScopeM ρ β) (s : Scope ρ) :
    (m >>= f) s = f (m s).1 (m s).2 := rfl

theorem segmentAt_run (id : SegmentId) (s : Scope ρ) :
    (segmentAt id : ScopeM ρ Segment) s = (s.catalog.segment id, s) := rfl

theorem get_run (s : Scope ρ) : (get : ScopeM ρ (Scope ρ)) s = (s, s) := rfl

theorem update_changed (id : SegmentId) (f : Segment → Segment) (s : Scope ρ) :
    Changed id f s (update id f s).2 :=
  ⟨s.catalog.minted, s.source, Nat.le_refl _, rfl⟩

theorem draw_kept (id : SegmentId) (f : ρ → α × ρ) (s : Scope ρ) : Kept id s (draw f s).2 :=
  ⟨s.catalog.minted, (f s.source).2, Nat.le_refl _, by rw [Catalog.modifySegment_id]; rfl⟩

theorem chooseFrom_kept [RandomSource ρ] (id : SegmentId) (x : α) (xs : List α) (s : Scope ρ) :
    Kept id s (chooseFrom x xs s).2 := draw_kept id _ s

theorem chooseFrom_mem [RandomSource ρ] (x : α) (xs : List α) (s : Scope ρ) :
    (chooseFrom x xs s).1 ∈ x :: xs :=
  List.getElem_mem _

theorem mint_shared (hs : s.catalog.Shared) (id : SegmentId) (stem : String) :
    mint id stem s = (s!"{stem}_{s.catalog.minted + 1}",
      { s with catalog := { s.catalog with minted := s.catalog.minted + 1 } }) := by
  unfold mint
  rw [hs id]

theorem mint_kept (hs : s.catalog.Shared) (id : SegmentId) (stem : String) :
    Kept id s (mint id stem s).2 := by
  rw [mint_shared hs]
  exact ⟨s.catalog.minted + 1, s.source, Nat.le_succ _, by rw [Catalog.modifySegment_id]⟩

theorem Kept.shared {s' : Scope ρ} (h : Kept id s s') (hs : s.catalog.Shared) :
    s'.catalog.Shared := Changed.shared h hs fun _ => rfl

end Elementary

end Scope

end ProbeForge
