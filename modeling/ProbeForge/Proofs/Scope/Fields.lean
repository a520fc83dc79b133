import ProbeForge.Proofs.Scope.Histories

/-!
# What lies beside the tables

Registering a source, giving an alias and picking a column write to the tables of a segment and to
its counter of names. What a segment holds beside them stays as it is, in every segment.
-/

namespace ProbeForge

/-- A field that can be read without the tables and the counter. -/
def Segment.Beside {γ : Type} (field : Segment → γ) : Prop :=
  ∀ g sources columns lastSource ownMinted,
    field { g with sources, columns, lastSource, ownMinted } = field g

theorem Segment.Beside.cursor : Segment.Beside Segment.cursor := fun _ _ _ _ _ => rfl

/-- A field that can be read without the cursor and the outputs too. -/
structure Segment.Aside {γ : Type} (field : Segment → γ) : Prop where
  beside : Segment.Beside field
  references : ∀ g cursor exports, field { g with cursor, exports } = field g

theorem Segment.Aside.nothing : Segment.Aside fun _ => () :=
  ⟨fun _ _ _ _ _ => rfl, fun _ _ _ => rfl⟩

namespace Scope

variable {ρ α γ : Type} {field : Segment → γ} {s s' s'' : Scope ρ}

/-- The same blocks are open, and in every segment the field is what it was. -/
structure SameField (field : Segment → γ) (s s' : Scope ρ) : Prop where
  stack_eq : s'.catalog.stack = s.catalog.stack
  size_eq : s'.catalog.segments.size = s.catalog.segments.size
  field_eq : ∀ id, field (s'.catalog.segment id) = field (s.catalog.segment id)

theorem SameField.refl (field : Segment → γ) (s : Scope ρ) : SameField field s s :=
  ⟨rfl, rfl, fun _ => rfl⟩

theorem SameField.trans (h : SameField field s s') (h' : SameField field s' s'') :
    SameField field s s'' :=
  ⟨h'.stack_eq.trans h.stack_eq, h'.size_eq.trans h.size_eq,
    fun id => (h'.field_eq id).trans (h.field_eq id)⟩

theorem update_sameField (id : SegmentId) {f : Segment → Segment}
    (hf : ∀ g, field (f g) = field g) :
    Along (SameField field) (update id f : ScopeM ρ Unit) := fun _ =>
  ⟨rfl, Array.size_modify, Catalog.field_modifySegment field hf⟩

theorem setFlag_sameField (id : SegmentId) (flag : String)
    (hflags : ∀ g flags, field { g with flags } = field g) :
    Along (SameField field) (update id (·.setFlag flag) : ScopeM ρ Unit) :=
  update_sameField id fun g => by
    unfold Segment.setFlag
    split
    · rfl
    · exact hflags g _

theorem sameField_lenient (hfield : Segment.Beside field) (id : SegmentId) :
    Lenient id (SameField (ρ := ρ) field) where
  refl := .refl field
  trans := .trans
  reseeded _ _ := ⟨rfl, rfl, fun _ => rfl⟩
  mint stem s := by
    unfold Scope.mint
    split
    case h_1 n _ =>
      exact update_sameField id (f := ({ · with ownMinted := some (n + 1) }))
        (fun g => hfield g _ _ _ _) s
    case h_2 => exact ⟨rfl, rfl, fun _ => rfl⟩

theorem sameField_stocking (hfield : Segment.Beside field) (id : SegmentId) :
    Stocking id (SameField (ρ := ρ) field) :=
  have h := sameField_lenient hfield id
  have hput := fun put : _ → _ => update_sameField (ρ := ρ) id
    (f := fun g : Segment => { g with columns := put g.columns }) fun g => hfield g _ _ _ _
  { toLenient := h
    putSource := fun _ => update_sameField id fun g => hfield g _ _ _ _
    addSourceAlias := h.addSourceAlias fun _ _ _ => update_sameField id fun g => hfield g _ _ _ _
    addColumn := h.addColumn hput
    addColumnAlias := h.addColumnAlias hput }

theorem sameField_referring (hfield : Segment.Aside field) (id : SegmentId) :
    Referring id (SameField (ρ := ρ) field) where
  toStocking := sameField_stocking hfield.beside id
  setCursor cursor := update_sameField id fun g => hfield.references g cursor g.exports
  exportName _ := update_sameField id fun g => hfield.references g g.cursor _

/-- Beside outputs and flags a call to a segment writes to nothing but the tables. -/
theorem SegmentCall.sameField [RandomSource ρ] (hfield : Segment.Beside field) (u : Universe)
    (id : SegmentId) (call : SegmentCall)
    (hexports : ∀ g exports, field { g with exports } = field g)
    (hflags : (∃ flag, call = .setFlag flag ∨ call = .clearFlag flag) →
      ∀ g flags, field { g with flags } = field g) :
    Along (SameField field) (call.run u id : ScopeM ρ Unit) :=
  call.along (sameField_stocking hfield id) u
    (fun _ _ => update_sameField id fun g => hexports g _)
    (fun flag heq => setFlag_sameField id flag (hflags ⟨flag, .inl heq⟩))
    fun flag heq => update_sameField id fun g => hflags ⟨flag, .inr heq⟩ g _

/-- A request that changes one segment at most leaves such a field alone. -/
theorem Confined.sameField {x : ScopeAttempt ρ α} (h : Confined x) (hfield : Segment.Aside field)
    (s : Scope ρ) : SameField field s (after x s) := by
  obtain ⟨-, hsame⟩ := h (fun _ => SameField field) (sameField_referring hfield) s
  exact hsame

end Scope

end ProbeForge
