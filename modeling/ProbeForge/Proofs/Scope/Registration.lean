import ProbeForge.Proofs.Scope.Changes

/-!
# Registration

What the operations that are used while a tree grows do to the innermost segment.
-/

namespace ProbeForge.Scope

variable {ρ : Type} {α : Type} {id : SegmentId} {rest : List SegmentId} {s : Scope ρ}

theorem withTop_run (h : s.catalog.stack = id :: rest) (f : SegmentId → ScopeM ρ α) :
    withTop f s = .ok (f id s).1 (f id s).2 := by
  unfold withTop
  simp only [h]
  rfl

theorem withTop_ok {f : SegmentId → ScopeM ρ α} {a : α} {s' : Scope ρ}
    (hstack : s.catalog.stack = id :: rest) (h : withTop f s = .ok a s') :
    (f id s).1 = a ∧ (f id s).2 = s' := by
  rw [withTop_run hstack] at h
  cases h
  exact ⟨rfl, rfl⟩

theorem withTop_error {f : SegmentId → ScopeM ρ α} {misuse : Misuse} {s' : Scope ρ}
    (h : withTop f s = .error misuse s') : s.catalog.stack = [] := by
  unfold withTop at h
  split at h
  · cases h
  · assumption

/-- A physical source as it is registered, and the descriptor of it that is handed out. -/
structure Describes (d : SourceDescriptor) (kind : SourceKind) (entry : SourceEntry) : Prop where
  kind_eq : entry.kind = kind
  descriptor_kind : d.kind = kind
  name_eq : d.name = entry.name
  alias_eq : d.aliasName = entry.aliasName
  fixed : ∃ columns, entry.columns = .fixed columns

/-- The operation registers a physical source of a kind. -/
def Registers (id : SegmentId) (kind : SourceKind) (s : Scope ρ)
    (op : ScopeM ρ SourceDescriptor) : Prop :=
  ∃ entry, Describes (op s).1 kind entry ∧ Changed id (·.putSource entry) s (op s).2

/-- Besides, where schemas are written the descriptor has the schema of the source. -/
def RegistersInFull (id : SegmentId) (kind : SourceKind) (s : Scope ρ)
    (op : ScopeM ρ SourceDescriptor) : Prop :=
  ∃ entry, Describes (op s).1 kind entry ∧
    ((s.catalog.segment id).hasFlag Segment.schemaFlag = true → (op s).1 = entry.descriptor) ∧
    Changed id (·.putSource entry) s (op s).2

theorem registersInFull_read {kind : SourceKind} {k : SegmentId}
    {f : Segment → ScopeM ρ SourceDescriptor} :
    RegistersInFull id kind s (segmentAt k >>= f) ↔
      RegistersInFull id kind s (f (s.catalog.segment k)) :=
  Iff.rfl

section Physical

variable [RandomSource ρ]

theorem registersInFull_physical (hs : s.catalog.Shared) (u : Universe) (kind : SourceKind) :
    RegistersInFull id kind s (addPhysical u id kind) := by
  unfold addPhysical
  rw [registersInFull_read]
  dsimp only
  split
  case h_1 =>
    exact ⟨⟨_, _, kind, none, .fixed []⟩, ⟨rfl, rfl, rfl, rfl, [], rfl⟩, fun _ => rfl,
      (mint_kept hs id _).trans (update_changed id _ _)⟩
  case h_2 first others _ =>
    have hdrawn := chooseFrom_kept id first others s
    rw [RegistersInFull, bind_run]
    generalize chooseFrom first others s = drawn at hdrawn ⊢
    obtain ⟨o, s₁⟩ := drawn
    have hs₁ : s₁.catalog.Shared := hdrawn.shared hs
    dsimp only
    split
    · refine ⟨_, ⟨rfl, rfl, rfl, rfl, _, rfl⟩, fun hflag => ?_,
        (hdrawn.trans (mint_kept hs₁ id _)).trans (update_changed id _ _)⟩
      exact congrArg (SourceDescriptor.mk · _ _ _) (if_pos hflag)
    · refine ⟨_, ⟨rfl, rfl, rfl, rfl, _, rfl⟩, fun hflag => ?_,
        hdrawn.trans (update_changed id _ _)⟩
      exact congrArg (SourceDescriptor.mk · _ _ _) (if_pos hflag)

theorem registers_physical (hs : s.catalog.Shared) (u : Universe) (kind : SourceKind) :
    Registers id kind s (addPhysical u id kind) := by
  obtain ⟨entry, hd, -, hchanged⟩ := registersInFull_physical hs u kind
  exact ⟨entry, hd, hchanged⟩

theorem addSource_ok {u : Universe} {kind : SourceKind} {d : SourceDescriptor} {s' : Scope ρ}
    (hs : s.catalog.Shared) (hstack : s.catalog.stack = id :: rest)
    (h : addSource u kind s = .ok d s') :
    ∃ entry, Describes d kind entry ∧ Changed id (·.putSource entry) s s' := by
  obtain ⟨rfl, rfl⟩ := withTop_ok hstack h
  exact registers_physical hs u kind

/-- A table is the one whose schema was written before, or a new one. -/
theorem addTable_ok {u : Universe} {d : SourceDescriptor} {s' : Scope ρ}
    (hs : s.catalog.Shared) (hstack : s.catalog.stack = id :: rest)
    (h : addTable u s = .ok d s') :
    ((s.catalog.segment id).pending = some d ∧ Changed id ({ · with pending := none }) s s') ∨
      ((s.catalog.segment id).pending = none ∧
        ∃ entry, Describes d .table entry ∧ Changed id (·.putSource entry) s s') := by
  obtain ⟨rfl, rfl⟩ := withTop_ok hstack h
  rw [bind_run, segmentAt_run]
  dsimp only
  cases hpending : (s.catalog.segment id).pending with
  | some table => exact .inl ⟨rfl, update_changed id _ s⟩
  | none => exact .inr ⟨rfl, registers_physical hs u .table⟩

/-- What remains in a segment of a table whose schema was written. -/
def announce (segment : Segment) (entry : SourceEntry)
    (d : SourceDescriptor) : Segment :=
  { ((segment.setFlag Segment.schemaFlag).putSource entry).clearFlag Segment.schemaFlag with
    pending := some d }

theorem setFlag_ownMinted (segment : Segment) (flag : String) :
    (segment.setFlag flag).ownMinted = segment.ownMinted := by
  unfold Segment.setFlag
  split <;> rfl

theorem setFlag_sources (segment : Segment) (flag : String) :
    (segment.setFlag flag).sources = segment.sources := by
  unfold Segment.setFlag
  split <;> rfl

theorem announce_sources (segment : Segment) (entry : SourceEntry) (d : SourceDescriptor) :
    (announce segment entry d).sources = segment.sources.insert entry.aliasName entry := by
  rw [← setFlag_sources segment Segment.schemaFlag]
  rfl

theorem setFlag_hasFlag (segment : Segment) (flag : String) :
    (segment.setFlag flag).hasFlag flag = true := by
  unfold Segment.setFlag Segment.hasFlag
  split
  case isTrue h => exact h
  case isFalse => simp

/-- The schema that is handed out is that of the table which is registered. -/
theorem addSchema_entry {u : Universe} {d : SourceDescriptor} {s' : Scope ρ}
    (hs : s.catalog.Shared) (hstack : s.catalog.stack = id :: rest)
    (hid : id < s.catalog.segments.size) (h : addSchema u s = .ok d s') :
    ∃ entry, entry.descriptor = d ∧ Describes d .table entry ∧
      Changed id (announce · entry d) s s' := by
  obtain ⟨rfl, rfl⟩ := withTop_ok hstack h
  have hflag := update_changed id (·.setFlag Segment.schemaFlag) s
  have hs₁ := hflag.shared hs fun segment => setFlag_ownMinted segment _
  obtain ⟨entry, hd, hschema, hput⟩ := registersInFull_physical hs₁ u .table
  refine ⟨entry, (hschema ?_).symm, hd, (hflag.trans hput).trans (update_changed id _ _)⟩
  rw [hflag.self hid]
  exact setFlag_hasFlag _ _

theorem addSchema_ok {u : Universe} {d : SourceDescriptor} {s' : Scope ρ}
    (hs : s.catalog.Shared) (hstack : s.catalog.stack = id :: rest)
    (h : addSchema u s = .ok d s') :
    ∃ entry, Describes d .table entry ∧ Changed id (announce · entry d) s s' := by
  obtain ⟨rfl, rfl⟩ := withTop_ok hstack h
  have hflag := update_changed id (·.setFlag Segment.schemaFlag) s
  have hs₁ := hflag.shared hs fun segment => setFlag_ownMinted segment _
  obtain ⟨entry, hd, hput⟩ := registers_physical hs₁ u .table
  exact ⟨entry, hd, (hflag.trans hput).trans (update_changed id _ _)⟩

end Physical

/-! ### Aliases -/

theorem addSourceAlias_own {key : String} {entry : SourceEntry} (hs : s.catalog.Shared)
    (hfind : (s.catalog.segment id).sources.find? key = some entry)
    (hown : entry.aliasName = entry.name) :
    (addSourceAlias id key s).1.aliasName = s!"{key}_{s.catalog.minted + 1}" ∧
      Changed id (·.rename key s!"{key}_{s.catalog.minted + 1}" entry) s
        (addSourceAlias id key s).2 := by
  unfold addSourceAlias
  rw [bind_run, segmentAt_run]
  dsimp only
  rw [hfind]
  dsimp only
  rw [if_pos hown, bind_run, mint_shared hs]
  refine ⟨rfl, ?_⟩
  have hmint := mint_kept hs id key
  rw [mint_shared hs] at hmint
  exact hmint.trans (update_changed id _ _)

theorem addSourceAlias_given {key : String} {entry : SourceEntry}
    (hfind : (s.catalog.segment id).sources.find? key = some entry)
    (hgiven : entry.aliasName ≠ entry.name) :
    (addSourceAlias id key s).1.aliasName = entry.aliasName ∧ (addSourceAlias id key s).2 = s := by
  unfold addSourceAlias
  rw [bind_run, segmentAt_run]
  dsimp only
  rw [hfind]
  dsimp only
  rw [if_neg hgiven]
  exact ⟨rfl, rfl⟩

/-- The alias of the source that was registered last: the one it has, or a new one. -/
theorem defineAlias_ok {key text : String} {entry : SourceEntry} {s' : Scope ρ}
    (hs : s.catalog.Shared) (hstack : s.catalog.stack = id :: rest)
    (hlast : (s.catalog.segment id).lastSource = some key)
    (hfind : (s.catalog.segment id).sources.find? key = some entry)
    (h : defineAlias s = .ok text s') :
    (entry.aliasName = entry.name ∧ text = s!"{key}_{s.catalog.minted + 1}" ∧
        Changed id (·.rename key text entry) s s') ∨
      (entry.aliasName ≠ entry.name ∧ text = entry.aliasName ∧ s' = s) := by
  obtain ⟨rfl, rfl⟩ := withTop_ok hstack h
  rw [bind_run, segmentAt_run]
  dsimp only
  rw [hlast]
  dsimp only
  rw [bind_run]
  by_cases hown : entry.aliasName = entry.name
  · obtain ⟨hname, hchanged⟩ := addSourceAlias_own hs hfind hown
    exact .inl ⟨hown, hname, hname ▸ hchanged⟩
  · obtain ⟨hname, hsame⟩ := addSourceAlias_given (s := s) hfind hown
    exact .inr ⟨hown, hname, hsame⟩

/-! ### Blocks -/

theorem pop_run (h : s.catalog.stack = id :: rest) :
    (pop s : EStateM.Result Misuse (Scope ρ) SegmentId) =
      .ok id { s with catalog := { s.catalog with stack := rest } } := by
  unfold pop
  simp only [h]

theorem pop_error {misuse : Misuse} {s' : Scope ρ} (h : pop s = .error misuse s') :
    s.catalog.stack = [] := by
  unfold pop at h
  split at h
  · cases h
  · assumption

/-- A block as it is opened inside another one, which is its parent source. -/
def nested (parent : Segment) (name : String) (id : SegmentId) : Segment :=
  (Segment.fresh name (some id) none).putInline parent id .parent

theorem push_stack (s : Scope ρ) :
    (push s).2.catalog.stack = s.catalog.segments.size :: s.catalog.stack := by
  obtain ⟨⟨segments, stack, opened, minted⟩, source⟩ := s
  cases stack <;> rfl

theorem push_root (h : s.catalog.stack = []) :
    (push s).2.catalog.segments =
      s.catalog.segments.push (.fresh s!"QB{s.catalog.opened + 1}" none none) := by
  unfold push
  simp only [h]
  rfl

/-- What the block around a new one becomes: the new one is a child source there. -/
def enclose (child : Segment) (id : SegmentId) (p : Segment) : Segment :=
  { p.putInline child id .child with children := p.children ++ [id] }

theorem push_nested (h : s.catalog.stack = id :: rest) :
    (push s).2.catalog.segments =
      (s.catalog.segments.modify id
        (enclose (nested (s.catalog.segment id) s!"QB{s.catalog.opened + 1}" id)
          s.catalog.segments.size)).push
        (nested (s.catalog.segment id) s!"QB{s.catalog.opened + 1}" id) := by
  unfold push
  simp only [h]
  rfl

theorem segment_push_new (h : s.catalog.stack = id :: rest) :
    (push s).2.catalog.segment s.catalog.segments.size =
      nested (s.catalog.segment id) s!"QB{s.catalog.opened + 1}" id := by
  rw [Catalog.segment, push_nested h, Array.getD_eq_getD_getElem?, Array.getElem?_push,
    Array.size_modify, if_pos rfl]
  rfl

theorem segment_push_old {k : SegmentId} (h : s.catalog.stack = id :: rest)
    (hk : k ≠ s.catalog.segments.size) :
    (push s).2.catalog.segment k =
      (s.catalog.modifySegment id
        (enclose (nested (s.catalog.segment id) s!"QB{s.catalog.opened + 1}" id)
          s.catalog.segments.size)).segment k := by
  rw [Catalog.segment, push_nested h, Array.getD_eq_getD_getElem?, Array.getElem?_push,
    Array.size_modify, if_neg hk, ← Array.getD_eq_getD_getElem?]
  rfl

theorem push_size (s : Scope ρ) :
    (push s).2.catalog.segments.size = s.catalog.segments.size + 1 := by
  cases h : s.catalog.stack with
  | nil => rw [push_root h, Array.size_push]
  | cons id rest => rw [push_nested h, Array.size_push, Array.size_modify]

/-- What becomes of a segment when the segment `n` is opened: it stays as it is, is the one that is
opened, or encloses it. -/
inductive Opened (n : SegmentId) (g g' : Segment) : Prop where
  | same (eq : g' = g)
  | root (name : String) (eq : g' = .fresh name none none)
  | nested (parent : Segment) (name : String) (id : SegmentId) (eq : g' = nested parent name id)
  | enclosing (child : Segment) (eq : g' = enclose child n g)

theorem push_opened (s : Scope ρ) (k : SegmentId) :
    Opened s.catalog.segments.size (s.catalog.segment k) ((push s).2.catalog.segment k) := by
  by_cases hsize : s.catalog.segments.size < k
  · rw [Catalog.segment_of_size_le (c := (push s).2.catalog) (by rw [push_size]; exact hsize)]
    exact .same (Catalog.segment_of_size_le (Nat.le_of_lt hsize)).symm
  cases h : s.catalog.stack with
  | nil =>
    have hpush := Catalog.segment_of_push (k := k) (push_root h)
    by_cases hnew : k = s.catalog.segments.size
    · exact .root s!"QB{s.catalog.opened + 1}" (hpush.trans (if_pos hnew))
    · exact .same (hpush.trans (if_neg hnew))
  | cons id rest =>
    by_cases hnew : k = s.catalog.segments.size
    · exact .nested _ _ _ (hnew ▸ segment_push_new h)
    · by_cases hk : k = id
      · subst hk
        have hlt := Nat.lt_of_le_of_ne (Nat.not_lt.mp hsize) hnew
        exact .enclosing _ ((segment_push_old h hnew).trans (Catalog.segment_modify_self hlt))
      · exact .same ((segment_push_old h hnew).trans (Catalog.segment_modify_of_ne hk))

theorem push_minted (s : Scope ρ) : (push s).2.catalog.minted = s.catalog.minted := by
  obtain ⟨⟨segments, stack, opened, minted⟩, source⟩ := s
  cases stack <;> rfl

theorem push_shared (hs : s.catalog.Shared) : (push s).2.catalog.Shared := by
  intro k
  cases push_opened s k with
  | same eq | enclosing child eq => exact eq ▸ hs k
  | root name eq | nested parent name id eq => exact eq ▸ rfl

end ProbeForge.Scope
