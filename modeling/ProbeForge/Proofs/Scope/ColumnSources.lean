import ProbeForge.Proofs.Derivation.Leftmost
import ProbeForge.Proofs.Scope.Requests

/-!
# Sources of columns

A column that is chosen for a source is in its list, was picked from it before, or is made up. The
first part of a reference names a source and the second one chooses a column, and only the cursor
tells the second what the first has named.
-/

namespace ProbeForge

/-! ### What a segment has to offer -/

namespace Catalog

/-- The names minted so far from the counter that a segment draws on. -/
def mintedBy (c : Catalog) (id : SegmentId) : Nat := (c.segment id).ownMinted.getD c.minted

/-- The source has the column in its list, or the column was picked from it before. -/
inductive Supplies (c : Catalog) (id : SegmentId) (source column : String) : Prop where
  | listed {entry : SourceEntry} (found : (c.segment id).sources.find? source = some entry)
      (mem : column ∈ c.columnList entry)
  | picked (picked : (c.segment id).Picked column source)

/-- The source supplies the column, or the column is made up from here on. -/
def Owns (c : Catalog) (id : SegmentId) (source column : String) : Prop :=
  c.Supplies id source column ∨ ∃ n, c.mintedBy id < n ∧ column = s!"UNKNOWN_COLUMN_{n}"

/-- The sources that a free choice is made from: those that can be referred to, and only those with
columns that are known if there are any. -/
def eligible (c : Catalog) (id : SegmentId) : List (String × SourceEntry) :=
  let candidates := (c.segment id).sources.entries.filter (Segment.isReferenceable ·.2)
  let known := candidates.filter fun (_, entry) => !(c.columnList entry).isEmpty
  if known.isEmpty then candidates else known

/-- The aliases that a free choice can end with. -/
inductive Drawable (c : Catalog) (id : SegmentId) : String → Prop where
  | source {key : String} {entry : SourceEntry} (eligible : key ∈ (c.eligible id).map (·.1))
      (found : (c.segment id).sources.find? key = some entry) : Drawable c id entry.aliasName
  | madeUp (none : (c.eligible id).map (·.1) = []) :
      Drawable c id s!"UNKNOWN_TABLE_{c.mintedBy id + 1}"

/-- All sources, columns and outputs are as before, and names may have been minted. -/
structure Alike (c c' : Catalog) : Prop where
  sources (k : SegmentId) : (c'.segment k).sources = (c.segment k).sources
  columns (k : SegmentId) : (c'.segment k).columns = (c.segment k).columns
  exports (k : SegmentId) : (c'.segment k).exports = (c.segment k).exports
  minted_le (k : SegmentId) : c.mintedBy k ≤ c'.mintedBy k

variable {c c' c'' : Catalog} {id : SegmentId} {source column : String}

theorem Alike.refl (c : Catalog) : Alike c c :=
  ⟨fun _ => rfl, fun _ => rfl, fun _ => rfl, fun _ => Nat.le_refl _⟩

theorem Alike.trans (h : Alike c c') (h' : Alike c' c'') : Alike c c'' where
  sources k := (h'.sources k).trans (h.sources k)
  columns k := (h'.columns k).trans (h.columns k)
  exports k := (h'.exports k).trans (h.exports k)
  minted_le k := Nat.le_trans (h.minted_le k) (h'.minted_le k)

theorem Alike.columnList_eq (h : Alike c c') (entry : SourceEntry) :
    c'.columnList entry = c.columnList entry := columnList_congr fun k _ => h.exports k

theorem Alike.picked_iff (h : Alike c c') :
    (c'.segment id).Picked column source ↔ (c.segment id).Picked column source := by
  simp only [Segment.Picked, Segment.pickedColumns, h.columns]

theorem Alike.supplies_iff (h : Alike c c') :
    c'.Supplies id source column ↔ c.Supplies id source column := by
  constructor
  · rintro (⟨found, mem⟩ | ⟨picked⟩)
    · exact .listed (h.sources id ▸ found) (h.columnList_eq _ ▸ mem)
    · exact .picked (h.picked_iff.mp picked)
  · rintro (⟨found, mem⟩ | ⟨picked⟩)
    · exact .listed ((h.sources id).symm ▸ found) ((h.columnList_eq _).symm ▸ mem)
    · exact .picked (h.picked_iff.mpr picked)

/-- What is made up later is made up from here on too. -/
theorem Alike.owns (h : Alike c c') (howns : c'.Owns id source column) :
    c.Owns id source column := by
  rcases howns with hsupplies | ⟨n, hlt, hname⟩
  · exact .inl (h.supplies_iff.mp hsupplies)
  · exact .inr ⟨n, Nat.lt_of_le_of_lt (h.minted_le id) hlt, hname⟩

theorem Alike.eligible_eq (h : Alike c c') : c'.eligible id = c.eligible id := by
  simp only [eligible, h.sources, h.columnList_eq]

theorem Alike.drawable_iff (h : Alike c c') (hminted : c'.mintedBy id = c.mintedBy id) :
    c'.Drawable id source ↔ c.Drawable id source := by
  constructor
  · rintro (⟨hmem, found⟩ | hnone)
    · exact .source (h.eligible_eq ▸ hmem) (h.sources id ▸ found)
    · exact hminted ▸ .madeUp (h.eligible_eq ▸ hnone)
  · rintro (⟨hmem, found⟩ | hnone)
    · exact .source (h.eligible_eq.symm ▸ hmem) ((h.sources id).symm ▸ found)
    · exact hminted ▸ .madeUp (h.eligible_eq.symm ▸ hnone)

theorem mintedBy_modifySegment {f : Segment → Segment}
    (hf : ∀ g, (f g).ownMinted = g.ownMinted) (k : SegmentId) :
    (c.modifySegment id f).mintedBy k = c.mintedBy k :=
  congrArg (·.getD c.minted) (field_modifySegment Segment.ownMinted hf k)

theorem Alike.of_modifySegment {f : Segment → Segment} (hsources : ∀ g, (f g).sources = g.sources)
    (hcolumns : ∀ g, (f g).columns = g.columns) (hexports : ∀ g, (f g).exports = g.exports)
    (hminted : c.mintedBy id ≤ (c.modifySegment id f).mintedBy id) :
    Alike c (c.modifySegment id f) where
  sources := field_modifySegment Segment.sources hsources
  columns := field_modifySegment Segment.columns hcolumns
  exports := field_modifySegment Segment.exports hexports
  minted_le k := by
    by_cases hk : k = id
    · exact hk ▸ hminted
    · rw [mintedBy, mintedBy, segment_modify_of_ne hk]
      exact Nat.le_refl _

end Catalog

namespace Scope

open Catalog
open Growth (Draws)

variable {ρ α β : Type} {id : SegmentId} {rest : List SegmentId} {s s' : Scope ρ}

/-! ### Operations that keep the tables -/

/-- Sources, columns and outputs are as before. -/
abbrev Resembles (s s' : Scope ρ) : Prop := Alike s.catalog s'.catalog

theorem setCursor_resembles (id : SegmentId) (cursor : Cursor) :
    Along Resembles (setCursor id cursor : ScopeM ρ Unit) := by
  intro s
  have hminted : (s.catalog.modifySegment id ({ · with cursor })).mintedBy id =
      s.catalog.mintedBy id := mintedBy_modifySegment (f := ({ · with cursor })) (fun _ => rfl) id
  exact .of_modifySegment (fun _ => rfl) (fun _ => rfl) (fun _ => rfl) (Nat.le_of_eq hminted.symm)

theorem cursor_setCursor (hid : id < s.catalog.segments.size) (cursor : Cursor) :
    ((setCursor id cursor s).2.catalog.segment id).cursor = cursor :=
  congrArg Segment.cursor (segment_modify_self hid)

theorem drawable_setCursor (cursor : Cursor) {other : String} :
    (setCursor id cursor s).2.catalog.Drawable id other ↔ s.catalog.Drawable id other :=
  (setCursor_resembles id cursor s).drawable_iff
    (mintedBy_modifySegment (f := ({ · with cursor })) (fun _ => rfl) id)

/-- A new name has the next number of the segment's counter, whatever is drawn. -/
theorem mint_numbered (c : Catalog) (id : SegmentId) (stem : String) :
    ∃ c', ∀ source : ρ, mint id stem (⟨c, source⟩ : Scope ρ) =
      (s!"{stem}_{c.mintedBy id + 1}", ⟨c', source⟩) := by
  unfold mint mintedBy
  dsimp only
  cases (c.segment id).ownMinted with
  | none => exact ⟨_, fun _ => rfl⟩
  | some n => exact ⟨_, fun _ => rfl⟩

theorem mint_name (id : SegmentId) (stem : String) (s : Scope ρ) :
    (mint id stem s).1 = s!"{stem}_{s.catalog.mintedBy id + 1}" := by
  obtain ⟨c', hmint⟩ := mint_numbered (ρ := ρ) s.catalog id stem
  exact congrArg (·.1) (hmint s.source)

theorem resembles_lenient (id : SegmentId) : Lenient id (Resembles (ρ := ρ)) where
  refl s := .refl s.catalog
  trans := .trans
  reseeded s _ := .refl s.catalog
  mint stem s := by
    unfold Scope.mint
    split
    case h_1 n hown =>
      have hsize : id < s.catalog.segments.size := by
        by_contra hle
        rw [segment_of_size_le (Nat.not_lt.mp hle)] at hown
        cases hown
      refine .of_modifySegment (fun _ => rfl) (fun _ => rfl) (fun _ => rfl) ?_
      rw [mintedBy, mintedBy, segment_modify_self hsize, hown]
      exact Nat.le_succ n
    case h_2 hnone =>
      refine ⟨fun _ => rfl, fun _ => rfl, fun _ => rfl, fun k => ?_⟩
      change (s.catalog.segment k).ownMinted.getD s.catalog.minted ≤
        (s.catalog.segment k).ownMinted.getD (s.catalog.minted + 1)
      cases (s.catalog.segment k).ownMinted with
      | none => exact Nat.le_succ _
      | some n => exact Nat.le_refl n

section Choosing

variable [RandomSource ρ]

/-! ### Answers -/

theorem anySource_run (id : SegmentId) (s : Scope ρ) : anySource id s =
    (match (s.catalog.eligible id).map (·.1) with
      | [] => unknownTable id
      | first :: rest => do findSource id (← chooseFrom first rest) :
      ScopeM ρ SourceDescriptor) s := rfl

theorem exists_found {c : Catalog} {key : String} (h : key ∈ (c.eligible id).map (·.1)) :
    ∃ entry, (c.segment id).sources.find? key = some entry := by
  obtain ⟨⟨key, entry⟩, hmem, rfl⟩ := List.mem_map.mp h
  have hentry : (key, entry) ∈ (c.segment id).sources.entries := by
    unfold Catalog.eligible at hmem
    dsimp only at hmem
    split at hmem
    · exact List.mem_of_mem_filter hmem
    · exact List.mem_of_mem_filter (List.mem_of_mem_filter hmem)
  exact Option.isSome_iff_exists.mp (OrderedMap.contains_of_mem hentry)

theorem anySource_drawable (id : SegmentId) (s : Scope ρ) :
    s.catalog.Drawable id (anySource id s).1.aliasName := by
  rw [anySource_run]
  cases hkeys : (s.catalog.eligible id).map (·.1) with
  | nil =>
    have hname : (unknownTable id s).1.aliasName = s!"UNKNOWN_TABLE_{s.catalog.mintedBy id + 1}" :=
      mint_name id "UNKNOWN_TABLE" s
    exact hname ▸ .madeUp hkeys
  | cons first others =>
    have hmem := hkeys.symm ▸ chooseFrom_mem first others s
    obtain ⟨entry, hfound⟩ := exists_found hmem
    dsimp only
    rw [bind_run, findSource_found (s := (chooseFrom first others s).2) hfound]
    exact .source hmem hfound

theorem addColumnOf_owns {entry : Option SourceEntry} {source : String}
    (h : (s.catalog.segment id).sources.find? source = entry) :
    s.catalog.Owns id source (addColumnOf id entry s).1.column := by
  unfold addColumnOf
  rw [bind_run, get_run]
  dsimp only
  have hminted : s.catalog.Owns id source (mint id "UNKNOWN_COLUMN" s).1 :=
    .inr ⟨_, Nat.lt_succ_self _, mint_name id "UNKNOWN_COLUMN" s⟩
  cases entry with
  | none => exact hminted
  | some entry =>
    dsimp only
    cases hlist : s.catalog.columnList entry with
    | nil => exact hminted
    | cons first others =>
      have hmem : (chooseFrom first others s).1 ∈ s.catalog.columnList entry := by
        rw [hlist]
        exact chooseFrom_mem first others s
      exact .inl (.listed h hmem)

/-- A column is reused only for the source that it was picked from. -/
theorem reuseOrPick_owns (id : SegmentId) (source : String) (s : Scope ρ) :
    s.catalog.Owns id source (reuseOrPick id source s).1 := by
  have hadd : ∀ s' : Scope ρ, Alike s.catalog s'.catalog →
      s.catalog.Owns id source (addColumn id source s').1.column := fun s' halike =>
    halike.owns (addColumnOf_owns rfl)
  obtain ⟨-, hpicked⟩ := pickedColumn_spec id source s
  have halike := (resembles_lenient id).pickedColumn (some source) s
  unfold reuseOrPick
  rw [bind_run]
  generalize pickedColumn id (some source) s = found at hpicked halike ⊢
  obtain ⟨picked, s₁⟩ := found
  cases picked with
  | none => exact hadd s₁ halike
  | some d =>
    dsimp only
    rw [bind_run]
    split
    · exact .inl (.picked (hpicked d rfl))
    · exact hadd _ (halike.trans ((resembles_lenient id).draw _ s₁))

/-! ### The two parts of a reference -/

/-- Once an alias is written, the cursor has it for the column, unless the alias was that of a table
whose name was written before. -/
inductive AfterAlias (id : SegmentId) (s : Scope ρ) (aliasName : String) (s' : Scope ρ) : Prop where
  | kept (cursor : (s'.catalog.segment id).cursor = .aliasChosen aliasName)
  | dropped (name : String)
      (resolved : (s.catalog.segment id).cursor = .nameResolved aliasName name)
      (changed : s' = (setCursor id .idle s).2)

theorem chooseAlias_named (hstack : s.catalog.stack = id :: rest)
    (hid : id < s.catalog.segments.size) :
    ∃ aliasName s', chooseAlias s = .ok aliasName s' ∧ s'.catalog.stack = id :: rest ∧
      Alike s.catalog s'.catalog ∧ AfterAlias id s aliasName s' := by
  unfold chooseAlias
  rw [withTop_run hstack, bind_run, segmentAt_run]
  dsimp only
  cases hcursor : (s.catalog.segment id).cursor with
  | aliasChosen aliasName => exact ⟨aliasName, s, rfl, hstack, .refl _, .kept hcursor⟩
  | nameResolved aliasName name =>
    exact ⟨aliasName, _, rfl, hstack, setCursor_resembles id .idle s, .dropped name hcursor rfl⟩
  | idle | columnChosen =>
    have hany := (sameField_lenient .cursor id).anySource s
    have halike := (resembles_lenient id).anySource s
    dsimp only
    rw [bind_run]
    generalize anySource id s = chosen at hany halike ⊢
    refine ⟨chosen.1.aliasName, _, rfl, hany.stack_eq.trans hstack, ?_, .kept ?_⟩
    · exact halike.trans (setCursor_resembles id _ _)
    · exact cursor_setCursor (hany.size_eq ▸ hid) _

/-- The source that a column is chosen for: the one at the cursor, or else a free choice. -/
inductive ChosenFor (id : SegmentId) (s : Scope ρ) (source : String) : Prop where
  | named (cursor : (s.catalog.segment id).cursor = .aliasChosen source)
  | resolved (name : String) (cursor : (s.catalog.segment id).cursor = .nameResolved source name)
  | drawn (free : (s.catalog.segment id).cursor.IsFree) (drawable : s.catalog.Drawable id source)

/-- The source that a cursor names, or else any source. -/
def sourceAt (id : SegmentId) : Cursor → ScopeM ρ String
  | .aliasChosen aliasName | .nameResolved aliasName _ => pure aliasName
  | .idle | .columnChosen .. => do return (← anySource id).aliasName

theorem chooseColumn_run (hstack : s.catalog.stack = id :: rest) :
    let chosen := sourceAt id (s.catalog.segment id).cursor s
    ∃ s', chooseColumn s = .ok (reuseOrPick id chosen.1 chosen.2).1 s' := by
  unfold chooseColumn
  rw [withTop_run hstack, bind_run, segmentAt_run]
  unfold sourceAt
  cases (s.catalog.segment id).cursor with
  | idle | aliasChosen | nameResolved | columnChosen =>
    simp only [bind_run, pure_run]
    exact ⟨_, rfl⟩

theorem chooseColumn_owns (hstack : s.catalog.stack = id :: rest) :
    ∃ source column s', chooseColumn s = .ok column s' ∧ ChosenFor id s source ∧
      s.catalog.Owns id source column := by
  obtain ⟨s', hrun⟩ := chooseColumn_run hstack
  refine ⟨(sourceAt id (s.catalog.segment id).cursor s).1, _, s', hrun, ?_⟩
  cases hcursor : (s.catalog.segment id).cursor with
  | aliasChosen aliasName => exact ⟨.named hcursor, reuseOrPick_owns id aliasName s⟩
  | nameResolved aliasName name =>
    exact ⟨.resolved name hcursor, reuseOrPick_owns id aliasName s⟩
  | idle | columnChosen =>
    have hfree : (s.catalog.segment id).cursor.IsFree := hcursor ▸ trivial
    exact ⟨.drawn hfree (anySource_drawable id s),
      ((resembles_lenient id).anySource s).owns (reuseOrPick_owns id _ _)⟩

theorem pickedColumn_none {source : String}
    (h : ∀ column, ¬ (s.catalog.segment id).Picked column source) :
    pickedColumn id (some source) s = (none, s) := by
  have hnone : (s.catalog.segment id).pickedColumns.filter
      (fun p => (some source).all (p.2.2 == ·)) = [] := by
    refine List.filter_eq_nil_iff.mpr fun p hp hsource => ?_
    have hsame : p.2.2 = source := by simpa using hsource
    exact h p.1 ⟨p.2.1, hsame ▸ hp⟩
  unfold pickedColumn
  rw [bind_run, segmentAt_run]
  dsimp only
  rw [hnone]
  rfl

end Choosing

/-! ### Draws that are written down -/

/-- Positions that are given beforehand, and one number of the unit interval. -/
structure Script extends Draws where
  share : Float

instance : RandomSource Script where
  seeded _ := ⟨⟨[]⟩, 0⟩
  below n script :=
    let drawn := RandomSource.below n script.toDraws
    (drawn.1, ⟨drawn.2, script.share⟩)
  unit script := (script.share, script)
  normal script := (0, script)

variable {c : Catalog}

theorem chooseFrom_script {x first : α} {others : List α} (h : x ∈ first :: others) :
    ∃ k, ∀ c positions share,
      chooseFrom first others (⟨c, ⟨⟨k :: positions⟩, share⟩⟩ : Scope Script) =
        (x, ⟨c, ⟨⟨positions⟩, share⟩⟩) := by
  obtain ⟨k, hk, rfl⟩ := List.getElem_of_mem h
  refine ⟨k, fun c positions share => ?_⟩
  have hlt : k < others.length + 1 := hk
  have hmod : k % (others.length + 1) = k := Nat.mod_eq_of_lt hlt
  simp [chooseFrom, draw, RandomSource.choose, RandomSource.below, hmod]

/-- Every source that can be drawn is drawn by some script. -/
theorem anySource_script {other : String} (h : c.Drawable id other) :
    ∃ d c' positions, d.aliasName = other ∧ ∀ more share,
      anySource id (⟨c, ⟨⟨positions ++ more⟩, share⟩⟩ : Scope Script) =
        (d, ⟨c', ⟨⟨more⟩, share⟩⟩) := by
  cases h with
  | @source key entry hmem hfound =>
    cases hkeys : (c.eligible id).map (·.1) with
    | nil => rw [hkeys] at hmem; cases hmem
    | cons first others =>
      obtain ⟨k, hk⟩ := chooseFrom_script (hkeys ▸ hmem)
      refine ⟨entry.descriptor, c, [k], rfl, fun more share => ?_⟩
      rw [anySource_run]
      dsimp only
      rw [hkeys]
      dsimp only
      rw [bind_run, List.singleton_append, hk]
      exact findSource_found hfound
  | madeUp hnone =>
    obtain ⟨c', hmint⟩ := mint_numbered (ρ := Script) c id "UNKNOWN_TABLE"
    let name := s!"UNKNOWN_TABLE_{c.mintedBy id + 1}"
    refine ⟨⟨none, name, name, .table⟩, c', [], rfl, fun more share => ?_⟩
    rw [anySource_run]
    dsimp only
    rw [hnone, List.nil_append]
    dsimp only
    unfold unknownTable
    rw [bind_run, hmint]
    rfl

theorem addColumn_script {source column : String} {entry : SourceEntry}
    (hfound : (c.segment id).sources.find? source = some entry)
    (hmem : column ∈ c.columnList entry) :
    ∃ k, ∀ positions share,
      (addColumn id source (⟨c, ⟨⟨k :: positions⟩, share⟩⟩ : Scope Script)).1.column = column := by
  cases hlist : c.columnList entry with
  | nil =>
    rw [hlist] at hmem
    cases hmem
  | cons first others =>
    obtain ⟨k, hk⟩ := chooseFrom_script (hlist ▸ hmem)
    refine ⟨k, fun positions share => ?_⟩
    unfold addColumn
    rw [bind_run, segmentAt_run]
    dsimp only
    rw [hfound]
    unfold addColumnOf
    rw [bind_run, get_run]
    dsimp only
    rw [hlist]
    dsimp only
    rw [bind_run, hk]
    rfl

theorem pickedColumn_script {source column : String} (h : (c.segment id).Picked column source) :
    ∃ k d, d.column = column ∧ ∀ positions share,
      pickedColumn id (some source) (⟨c, ⟨⟨k :: positions⟩, share⟩⟩ : Scope Script) =
        (some d, ⟨c, ⟨⟨positions⟩, share⟩⟩) := by
  obtain ⟨columnAlias, hmem⟩ := h
  have hin : (column, columnAlias, source) ∈ (c.segment id).pickedColumns.filter fun p =>
      (some source).all (p.2.2 == ·) := List.mem_filter.mpr ⟨hmem, by simp⟩
  cases hpicked : (c.segment id).pickedColumns.filter fun p => (some source).all (p.2.2 == ·) with
  | nil =>
    rw [hpicked] at hin
    cases hin
  | cons first others =>
    obtain ⟨k, hk⟩ := chooseFrom_script (hpicked ▸ hin)
    refine ⟨k, (c.segment id).describeColumn source column columnAlias, rfl,
      fun positions share => ?_⟩
    unfold pickedColumn
    rw [bind_run, segmentAt_run]
    dsimp only
    rw [hpicked]
    dsimp only
    rw [bind_run, hk]
    rfl

/-- Every column that a source supplies is chosen for it by some script. -/
theorem reuseOrPick_script {source column : String} (h : c.Supplies id source column) :
    ∃ positions share,
      (reuseOrPick id source (⟨c, ⟨⟨positions⟩, share⟩⟩ : Scope Script)).1 = column := by
  have hreuse : (0 : Float) < 0.5 := by decide
  have hpick : ¬ (0.5 : Float) < 0.5 := by decide
  unfold reuseOrPick
  cases h with
  | picked hpicked =>
    obtain ⟨k, d, hcolumn, hk⟩ := pickedColumn_script hpicked
    refine ⟨[k], 0, ?_⟩
    rw [bind_run, hk]
    dsimp only
    rw [bind_run]
    exact (if_pos hreuse).symm ▸ hcolumn
  | listed hfound hmem =>
    obtain ⟨k, hk⟩ := addColumn_script hfound hmem
    by_cases hsome : ∃ column', (c.segment id).Picked column' source
    · obtain ⟨column', hpicked⟩ := hsome
      obtain ⟨j, d, -, hj⟩ := pickedColumn_script hpicked
      refine ⟨[j, k], 0.5, ?_⟩
      rw [bind_run, hj]
      dsimp only
      rw [bind_run]
      exact (if_neg hpick).symm ▸ hk [] 0.5
    · refine ⟨[k], 0, ?_⟩
      rw [bind_run, pickedColumn_none (not_exists.mp hsome)]
      exact hk [] 0

theorem chooseColumn_script {other column : String} (hstack : c.stack = id :: rest)
    (hcursor : (c.segment id).cursor = .idle) (hdrawable : c.Drawable id other)
    (hsupplies : c.Supplies id other column) :
    ∃ (script : Script) (s' : Scope Script), chooseColumn ⟨c, script⟩ = .ok column s' := by
  obtain ⟨d, c', positions, rfl, hany⟩ := anySource_script hdrawable
  have halike : Alike c c' := by
    have hkeeps := (resembles_lenient id).anySource (⟨c, ⟨⟨positions ++ []⟩, 0⟩⟩ : Scope Script)
    rwa [hany] at hkeeps
  obtain ⟨more, share, hcolumn⟩ := reuseOrPick_script (halike.supplies_iff.mpr hsupplies)
  obtain ⟨s', hrun⟩ := chooseColumn_run
    (s := (⟨c, ⟨⟨positions ++ more⟩, share⟩⟩ : Scope Script)) hstack
  refine ⟨⟨⟨positions ++ more⟩, share⟩, s', hrun.trans ?_⟩
  refine congrArg (EStateM.Result.ok · s') ?_
  rw [hcursor]
  unfold sourceAt
  dsimp only
  rw [bind_run, hany]
  exact hcolumn

/-- Once an alias was named after its table, every column that any drawable source supplies is
chosen by some script. -/
theorem reference_script {aliasName name other column : String} (hstack : c.stack = id :: rest)
    (hid : id < c.segments.size) (hcursor : (c.segment id).cursor = .nameResolved aliasName name)
    (hdrawable : c.Drawable id other) (hsupplies : c.Supplies id other column) :
    ∃ (script : Script) (s₁ s₂ : Scope Script),
      chooseAlias ⟨c, script⟩ = .ok aliasName s₁ ∧ chooseColumn s₁ = .ok column s₂ := by
  -- the cursor is idle after the alias, so the column is chosen freely
  let s : Scope Script := ⟨c, ⟨⟨[]⟩, 0⟩⟩
  obtain ⟨script, s', hrun⟩ := chooseColumn_script (c := (setCursor id .idle s).2.catalog) hstack
    (cursor_setCursor hid .idle) ((drawable_setCursor .idle).mpr hdrawable)
    ((setCursor_resembles id .idle s).supplies_iff.mpr hsupplies)
  refine ⟨script, _, s', ?_, hrun⟩
  unfold chooseAlias
  rw [withTop_run hstack, bind_run, segmentAt_run]
  dsimp only
  rw [hcursor]
  rfl

end Scope

end ProbeForge
