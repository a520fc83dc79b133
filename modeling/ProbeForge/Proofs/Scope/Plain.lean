import ProbeForge.Proofs.OrderedMap
import ProbeForge.Proofs.Scope.Effects

/-!
# Plain segments

As long as nothing has been written, a segment only has sources. Each of them is found under its own
alias, and under no other.
-/

namespace ProbeForge

/-- Each source is found under its own alias. -/
def Owned (sources : OrderedMap String SourceEntry) : Prop :=
  ∀ key entry, sources.find? key = some entry → entry.aliasName = key

section Owned

variable {sources : OrderedMap String SourceEntry}

theorem Owned.insert (h : Owned sources) (entry : SourceEntry) :
    Owned (sources.insert entry.aliasName entry) := by
  intro key found hfind
  rw [OrderedMap.find?_insert] at hfind
  split at hfind
  case isTrue hkey =>
    cases hfind
    exact hkey
  case isFalse => exact h key found hfind

theorem Owned.erase (h : Owned sources) (old : String) : Owned (sources.erase old) := by
  intro key found hfind
  rw [OrderedMap.find?_erase] at hfind
  split at hfind
  · cases hfind
  · exact h key found hfind

end Owned

/-- Sources with distinct keys, each under its alias. -/
structure Segment.Keyed (segment : Segment) : Prop where
  distinct : segment.sources.Distinct
  own : ∀ key entry, segment.sources.find? key = some entry → entry.aliasName = key

/-- Nothing was written from the segment yet. -/
structure Segment.Plain (segment : Segment) : Prop extends segment.Keyed where
  columns : segment.columns = ∅
  exports : segment.exports = []
  cursor : segment.cursor = .idle

namespace Segment

variable {segment : Segment}

theorem plain_fresh (name : String) (parent : Option SegmentId) (ownMinted : Option Nat) :
    (fresh name parent ownMinted).Plain where
  distinct := OrderedMap.distinct_empty
  own _ _ h := by cases h
  columns := rfl
  exports := rfl
  cursor := rfl

theorem plain_default : (default : Segment).Plain := plain_fresh "" none none

theorem Keyed.putSource (h : segment.Keyed) (entry : SourceEntry) :
    (segment.putSource entry).Keyed where
  distinct := h.distinct.insert
  own := Owned.insert h.own entry

theorem Plain.putSource (h : segment.Plain) (entry : SourceEntry) :
    (segment.putSource entry).Plain :=
  { h.toKeyed.putSource entry with columns := h.columns, exports := h.exports, cursor := h.cursor }

theorem Plain.rename (h : segment.Plain) (old new : String) (entry : SourceEntry) :
    (segment.rename old new entry).Plain where
  distinct := h.distinct.erase.insert
  own := (Owned.erase h.own old).insert { entry with aliasName := new }
  columns := by
    rw [Segment.rename, h.columns]
    rfl
  exports := h.exports
  cursor := h.cursor

theorem Plain.setFlag (h : segment.Plain) (flag : String) : (segment.setFlag flag).Plain := by
  unfold Segment.setFlag
  split
  · exact h
  · exact ⟨⟨h.distinct, h.own⟩, h.columns, h.exports, h.cursor⟩

theorem Plain.announce (h : segment.Plain) (entry : SourceEntry) (d : SourceDescriptor) :
    (Scope.announce segment entry d).Plain :=
  have put := (h.setFlag schemaFlag).putSource entry
  ⟨⟨put.distinct, put.own⟩, put.columns, put.exports, put.cursor⟩

theorem Plain.enclose (h : segment.Plain) (child : Segment) (id : SegmentId) :
    (Scope.enclose child id segment).Plain :=
  have put := h.putSource ⟨child.name, child.name, .child, none, .exportsOf id⟩
  ⟨⟨put.distinct, put.own⟩, put.columns, put.exports, put.cursor⟩

end Segment

/-- Nothing was written yet. -/
def Catalog.Plain (c : Catalog) : Prop := ∀ id, (c.segment id).Plain

namespace Scope

variable {ρ : Type} {id : SegmentId} {rest : List SegmentId} {s s' : Scope ρ}
  {f : Segment → Segment}

theorem Changed.plain (h : Changed id f s s') (hs : s.catalog.Plain)
    (hf : ∀ segment : Segment, segment.Plain → (f segment).Plain) : s'.catalog.Plain := by
  intro k
  rcases h.segment_cases k with hsame | ⟨-, hchanged⟩
  · exact hsame ▸ hs k
  · exact hchanged ▸ hf _ (hs k)

theorem push_plain (hs : s.catalog.Plain) : (push s).2.catalog.Plain := by
  intro k
  cases push_opened s k with
  | same eq => exact eq ▸ hs k
  | root name eq => exact eq ▸ Segment.plain_fresh _ _ _
  | nested parent name id eq => exact eq ▸ (Segment.plain_fresh _ _ _).putSource _
  | enclosing child eq => exact eq ▸ (hs k).enclose _ _

end Scope

open Scope in
theorem Generator.Effect.plain {ρ : Type} {id : SegmentId} {rest : List SegmentId}
    {s s' : Scope ρ} {payload : Payload} {generator : Generator}
    (h : generator.Effect id rest s payload s') (hs : s.catalog.Plain) : s'.catalog.Plain := by
  have hregistered : ∀ {kind : SourceKind}, Registered id kind s payload s' → s'.catalog.Plain := by
    rintro kind ⟨d, entry, -, -, hchanged⟩
    exact hchanged.plain hs fun _ hplain => hplain.putSource entry
  cases generator
  case openBlock =>
    obtain ⟨-, rfl⟩ := h
    exact push_plain hs
  case closeBlock =>
    cases h
    exact hs
  case registerTable =>
    rcases h with ⟨d, -, -, hchanged⟩ | ⟨-, hput⟩
    · exact hchanged.plain hs fun _ h => ⟨⟨h.distinct, h.own⟩, h.columns, h.exports, h.cursor⟩
    · exact hregistered hput
  case registerSchema =>
    obtain ⟨d, entry, -, -, hchanged⟩ := h
    exact hchanged.plain hs fun _ hplain => hplain.announce entry d
  case registerView | registerMaterializedView | registerSequence => exact hregistered h
  case defineAlias =>
    obtain ⟨text, -, haliased⟩ := h
    cases haliased with
    | missing _ kept => exact Changed.plain kept hs fun _ h => h
    | own _ _ _ _ changed => exact changed.plain hs fun _ hplain => hplain.rename _ _ _
    | given => exact hs
  case integer | number | string => exact Changed.plain h hs fun _ h => h

theorem Effects.plain {ρ : Type} {id : SegmentId} {rest : List SegmentId} {s s' : Scope ρ}
    {generator : Option Generator} {payload : Option Payload} {segment : Option SegmentId}
    (h : Effects id rest s generator payload segment s') (hs : s.catalog.Plain) :
    s'.catalog.Plain := by
  cases generator with
  | none => exact h.2.2 ▸ hs
  | some generator =>
    obtain ⟨p, -, -, heffect⟩ := h
    exact heffect.plain hs

end ProbeForge
