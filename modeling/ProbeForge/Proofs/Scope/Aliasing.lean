import ProbeForge.Proofs.Scope.ColumnSources
import ProbeForge.Proofs.Scope.Naming

/-!
# Aliases of sources

A source that is given an alias moves to it with the rest of its entry as it was, and what referred
to it by its key goes by the alias. It has an alias of its own from then on, so giving one again
changes nothing. This rests on each source being kept under its alias, also in segments outside the
nesting.
-/

namespace ProbeForge

/-- What refers to the source `key` once it goes by `new`. -/
def redirect (key new source : String) : String := if source = key then new else source

theorem redirect_self (key source : String) : redirect key key source = source := by
  unfold redirect
  split
  · exact Eq.symm ‹source = key›
  · rfl

/-- The source `key` goes by `new` afterwards, and all else is as before. A source that had that key
gives way. -/
structure Segment.Renames (key new : String) (entry : SourceEntry) (g g' : Segment) : Prop where
  moved : g'.sources.find? new = some { entry with aliasName := new }
  left : new ≠ key → g'.sources.find? key = none
  others : ∀ other, other ≠ key → other ≠ new → g'.sources.find? other = g.sources.find? other
  columns : g'.columns = g.columns.mapValues (·.mapValues (redirect key new))
  last : g'.lastSource = g.lastSource.map (redirect key new)
  rest : g' = { g with
    sources := g'.sources, columns := g'.columns, lastSource := g'.lastSource
    ownMinted := g'.ownMinted }

namespace Segment

variable {key new : String} {entry : SourceEntry}

theorem renames_rename (hne : new ≠ key) (g : Segment) (ownMinted : Option Nat) :
    g.Renames key new entry ({ g with ownMinted }.rename key new entry) where
  moved := OrderedMap.find?_insert_self
  left _ := by
    change ((g.sources.erase key).insert new _).find? key = none
    rw [OrderedMap.find?_insert, if_neg hne, OrderedMap.find?_erase, if_pos rfl]
  others other hkey hnew := by
    change ((g.sources.erase key).insert new _).find? other = _
    rw [OrderedMap.find?_insert, if_neg (Ne.symm hnew), OrderedMap.find?_erase,
      if_neg (Ne.symm hkey)]
  columns := rfl
  last := by
    change (if g.lastSource = some key then some new else g.lastSource) = _
    cases g.lastSource with
    | none => rfl
    | some last =>
      rw [Option.map_some, redirect, apply_ite some]
      simp only [Option.some.injEq]
  rest := rfl

/-- A source that goes by its key already is renamed by leaving it alone. -/
theorem renames_self {g : Segment} (hfind : g.sources.find? key = some entry)
    (hkey : entry.aliasName = key) : g.Renames key key entry g where
  moved := by
    subst hkey
    exact hfind
  left h := absurd rfl h
  others _ _ _ := rfl
  columns := by
    have hsame : redirect key key = id := funext (redirect_self key)
    simp [OrderedMap.mapValues, hsame]
  last := by
    have hsame : redirect key key = id := funext (redirect_self key)
    rw [hsame, Option.map_id]
    rfl
  rest := rfl

end Segment

theorem owned_empty : Owned ∅ := fun _ _ h => nomatch h

/-- Every source of every segment is kept under its alias. -/
def Catalog.Owned (c : Catalog) : Prop := ∀ id, ProbeForge.Owned (c.segment id).sources

theorem Catalog.Alike.owned {c c' : Catalog} (h : Alike c c') (hc : c.Owned) : c'.Owned :=
  fun k => h.sources k ▸ hc k

namespace Scope

variable {ρ α : Type} {id : SegmentId} {s s' : Scope ρ}

/-! ### Sources under their aliases -/

/-- If every source was kept under its alias, so it is afterwards. -/
def KeepsOwned (s s' : Scope ρ) : Prop := s.catalog.Owned → s'.catalog.Owned

theorem update_keepsOwned (id : SegmentId) {f : Segment → Segment}
    (hf : ∀ g, Owned g.sources → Owned (f g).sources) :
    Along KeepsOwned (update id f : ScopeM ρ Unit) := by
  intro s hs k
  rcases (update_changed id f s).segment_cases k with hsame | ⟨-, hchanged⟩
  · exact hsame ▸ hs k
  · exact hchanged ▸ hf _ (hs k)

theorem keepsOwned_referring (id : SegmentId) : Referring id (KeepsOwned (ρ := ρ)) :=
  have h : Lenient id (KeepsOwned (ρ := ρ)) :=
    { refl := fun _ hs => hs
      trans := fun h h' hs => h' (h hs)
      reseeded := fun _ _ hs => hs
      mint := fun stem s hs => ((resembles_lenient id).mint stem s).owned hs }
  have hput := fun put : _ → _ => update_keepsOwned (ρ := ρ) id
    (f := fun g : Segment => { g with columns := put g.columns }) fun _ hg => hg
  { toLenient := h
    putSource := fun entry => update_keepsOwned id fun _ hg => hg.insert entry
    addSourceAlias := h.addSourceAlias fun key new entry =>
      update_keepsOwned id fun _ hg => (hg.erase key).insert { entry with aliasName := new }
    addColumn := h.addColumn hput
    addColumnAlias := h.addColumnAlias hput
    setCursor := fun _ => update_keepsOwned id fun _ hg => hg
    exportName := fun _ => update_keepsOwned id fun _ hg => hg }

theorem push_keepsOwned (s : Scope ρ) : KeepsOwned s (push s).2 := by
  intro hs k
  cases push_opened s k with
  | same eq => exact eq ▸ hs k
  | root name eq => exact eq ▸ owned_empty
  | nested parent name id eq => exact eq ▸ owned_empty.insert _
  | enclosing child eq => exact eq ▸ (hs k).insert _

theorem openAlone_keepsOwned (name : String) (s : Scope ρ) :
    KeepsOwned s (openAlone name s).2 := by
  intro hs k
  have hopened : (openAlone name s).2.catalog.segments =
      s.catalog.segments.push (.fresh name none (some 0)) := rfl
  rw [Catalog.segment_of_push hopened]
  split
  · exact owned_empty
  · exact hs k

theorem keepsOwned_hosting : Hosting (KeepsOwned (ρ := ρ)) where
  referring := keepsOwned_referring
  marks id f hf := update_keepsOwned id fun g hg => by
    obtain ⟨flags, pending, hsame⟩ := hf g
    rw [hsame]
    exact hg
  push := push_keepsOwned
  restack _ _ hs := hs

section Requests

variable [RandomSource ρ]

theorem Request.keepsOwned (u : Universe) (request : Request) (s : Scope ρ) :
    KeepsOwned s (after (request.operation u) s) := by
  cases request with
  | current =>
    rw [operation, silently, after_map]
    exact keepsOwned_hosting.confined (withTop_confined fun id _ h => h.segmentAt id) s
  | alone name => exact openAlone_keepsOwned name s
  | call call => exact keepsOwned_hosting.call u call s

theorem reached_owned (u : Universe) (source : ρ) (requests : List Request) :
    (reached u source requests).catalog.Owned := by
  refine List.foldlRecOn (motive := fun s : Scope ρ => s.catalog.Owned) requests (follow u)
    (fun _ => owned_empty) fun s hs request _ => ?_
  unfold follow
  split
  · exact request.keepsOwned u s hs
  · exact hs

end Requests

/-! ### Giving an alias -/

/-- Minting a name changes the segment by its own counter at most. -/
theorem mint_changed (id : SegmentId) (stem : String) (s : Scope ρ) :
    ∃ f, (∀ g, ∃ ownMinted, f g = { g with ownMinted }) ∧ Changed id f s (mint id stem s).2 := by
  unfold mint
  split
  case h_1 n _ =>
    exact ⟨_, fun _ => ⟨_, rfl⟩, update_changed id ({ · with ownMinted := some (n + 1) }) s⟩
  case h_2 =>
    exact ⟨fun g => g, fun g => ⟨g.ownMinted, rfl⟩, s.catalog.minted + 1, s.source, Nat.le_succ _,
      by rw [Catalog.modifySegment_id]⟩

theorem mint_source (id : SegmentId) (stem : String) (s : Scope ρ) :
    (mint id stem s).2.source = s.source := by
  unfold mint
  split <;> rfl

theorem addSourceAlias_run {key : String} {entry : SourceEntry}
    (hfind : (s.sources id).find? key = some entry) : addSourceAlias id key s =
    (if entry.aliasName = entry.name then do
        let aliasName ← mint id key
        update id (·.rename key aliasName entry)
        return .source { entry.descriptor with aliasName }
      else return .source entry.descriptor : ScopeM ρ Aliasing) s := by
  unfold addSourceAlias
  rw [bind_run, segmentAt_run]
  dsimp only
  rw [show (s.catalog.segment id).sources.find? key = some entry from hfind]

/-- What giving the source `key` an alias comes to. -/
structure GivesAlias (id : SegmentId) (key : String) (entry : SourceEntry) (s : Scope ρ)
    (d : SourceDescriptor) (s' : Scope ρ) : Prop where
  answered : d = { entry.descriptor with aliasName := d.aliasName }
  renamed : (s.catalog.segment id).Renames key d.aliasName entry (s'.catalog.segment id)
  elsewhere : ∀ k ≠ id, s'.catalog.segment k = s.catalog.segment k
  source : s'.source = s.source
  own : d.aliasName ≠ entry.name

theorem addSourceAlias_gives {key : String} {entry : SourceEntry} (hs : s.catalog.Owned)
    (hfind : (s.sources id).find? key = some entry) :
    ∃ d s', addSourceAlias id key s = (.source d, s') ∧ GivesAlias id key entry s d s' := by
  have hkey : entry.aliasName = key := hs id key entry hfind
  rw [addSourceAlias_run hfind]
  by_cases hown : entry.aliasName = entry.name
  · rw [if_pos hown]
    -- a segment that is not there has no sources
    have hid : id < s.catalog.segments.size := by
      by_contra hle
      rw [sources, Catalog.segment_of_size_le (Nat.not_lt.mp hle)] at hfind
      cases hfind
    -- the new alias differs from the name too, for the source went by its name
    have hne : (mint id key s).1 ≠ key := mint_name id key s ▸ numbered_ne_stem _ _
    have hsource := mint_source id key s
    obtain ⟨f, hf, hminted⟩ := mint_changed id key s
    rw [bind_run]
    generalize mint id key s = minted at hne hsource hminted ⊢
    obtain ⟨new, s₁⟩ := minted
    have hchanged := hminted.trans (update_changed id (·.rename key new entry) s₁)
    obtain ⟨ownMinted, hcounted⟩ := hf (s.catalog.segment id)
    have hself := hchanged.self hid
    rw [hcounted] at hself
    exact ⟨_, _, rfl, rfl, hself ▸ Segment.renames_rename hne _ ownMinted,
      fun k hk => hchanged.other hk, hsource, fun heq => hne (heq.trans (hown.symm.trans hkey))⟩
  · rw [if_neg hown]
    refine ⟨_, s, rfl, rfl, ?_, fun _ _ => rfl, rfl, hown⟩
    exact hkey ▸ Segment.renames_self (hkey ▸ hfind) rfl

/-- A source with an alias of its own keeps it. -/
theorem GivesAlias.again {key : String} {entry : SourceEntry} {d : SourceDescriptor}
    (h : GivesAlias id key entry s d s') : addSourceAlias id d.aliasName s' = (.source d, s') := by
  rw [addSourceAlias_run h.renamed.moved, if_neg h.own]
  exact congrArg (fun d => (Aliasing.source d, s')) h.answered.symm

/-- After any requests, giving a source an alias renames it wherever it is referred to, and giving
it again changes nothing at all. -/
theorem addSourceAlias_once [RandomSource ρ] (u : Universe) (source : ρ) (requests : List Request)
    (id : SegmentId) {key : String} {entry : SourceEntry}
    (hfind : ((reached u source requests).sources id).find? key = some entry) :
    ∃ d s', addSourceAlias id key (reached u source requests) = (.source d, s') ∧
      GivesAlias id key entry (reached u source requests) d s' ∧
      addSourceAlias id d.aliasName s' = (.source d, s') := by
  obtain ⟨d, s', hrun, hgives⟩ := addSourceAlias_gives (reached_owned u source requests) hfind
  exact ⟨d, s', hrun, hgives, hgives.again⟩

def soleTable : Universe :=
  (Universe.ofObjects [.named "t" .table "s" ["a"]]).toOption.getD .empty

/-- The table is registered in a segment outside the nesting, and its column is picked. -/
def picked : List Request :=
  [.alone "QB1", .call (.on 0 (.addPhysical .table)), .call (.on 0 (.addColumn (some "t")))]

def unaliased : Scope Growth.Draws := reached soleTable ⟨[]⟩ picked

theorem addSourceAlias_once_picked :
    (unaliased.sources 0).find? "t" = some ⟨"t", "t", .table, some "s", .fixed ["a"]⟩ ∧
    (unaliased.catalog.segment 0).columns = ⟨[("a", ⟨[("a", "t")]⟩)]⟩ ∧
    ∃ d s', addSourceAlias 0 "t" unaliased = (.source d, s') ∧
      GivesAlias 0 "t" ⟨"t", "t", .table, some "s", .fixed ["a"]⟩ unaliased d s' ∧
      addSourceAlias 0 d.aliasName s' = (.source d, s') := by
  have hfind : (unaliased.sources 0).find? "t" =
      some ⟨"t", "t", .table, some "s", .fixed ["a"]⟩ := by decide +kernel
  exact ⟨hfind, by decide +kernel, addSourceAlias_once soleTable _ picked 0 hfind⟩

end Scope

end ProbeForge
