import ProbeForge.Proofs.Scope.Fields

/-!
# Cursors

A reference is written part by part, and the cursor of its segment holds what was written so far.
An operation writes to the fields of one cursor in one of five ways; whatever it looks up, mints and
draws before leaves every cursor alone.
-/

namespace ProbeForge

/-! ### Fields -/

/-- A cursor as the four fields that operations write. -/
structure Cursor.Fields where
  state : String
  aliasName : Option String
  name : Option String
  column : Option String

def Cursor.fields (c : Cursor) : Cursor.Fields := ⟨c.state, c.aliasName?, c.name?, c.column?⟩

namespace Cursor.Fields

/-- Fields that go together. With a column, a name that was resolved before it may be left. -/
inductive Shaped : Fields → Prop where
  | idle : Shaped ⟨"NONE", none, none, none⟩
  | aliasChosen (aliasName : String) : Shaped ⟨"ALIAS_CHOSEN", some aliasName, none, none⟩
  | nameResolved (aliasName name : String) :
      Shaped ⟨"NAME_RESOLVED", some aliasName, some name, none⟩
  | columnChosen (aliasName : String) (name : Option String) (column : String) :
      Shaped ⟨"COLUMN_CHOSEN", some aliasName, name, some column⟩

/-- What an operation writes to a cursor. -/
inductive Write where
  | nothing
  | reset
  | source (aliasName : String)
  | table (aliasName name : String)
  | column (aliasName column : String)

/-- The fields afterwards. A column is written beside the name that is there. -/
def Write.apply : Write → Fields → Fields
  | nothing, fields => fields
  | reset, _ => ⟨"NONE", none, none, none⟩
  | source aliasName, _ => ⟨"ALIAS_CHOSEN", some aliasName, none, none⟩
  | table aliasName name, _ => ⟨"NAME_RESOLVED", some aliasName, some name, none⟩
  | column aliasName chosen, fields =>
    { fields with state := "COLUMN_CHOSEN", aliasName := some aliasName, column := some chosen }

theorem Shaped.apply {fields : Fields} (h : fields.Shaped) (write : Write) :
    (write.apply fields).Shaped := by
  cases write with
  | nothing => exact h
  | reset => exact .idle
  | source aliasName => exact .aliasChosen aliasName
  | table aliasName name => exact .nameResolved aliasName name
  | column aliasName column => exact .columnChosen aliasName fields.name column

end Cursor.Fields

namespace Scope

open Cursor.Fields

variable {ρ α β : Type} {id : SegmentId} {rest : List SegmentId} {s s' s'' : Scope ρ}

/-! ### Writes -/

/-- The cursor of one segment is written to and that of no other. -/
structure Writing (id : SegmentId) (write : Write) (s s' : Scope ρ) : Prop where
  stack_eq : s'.catalog.stack = s.catalog.stack
  size_eq : s'.catalog.segments.size = s.catalog.segments.size
  self : id < s.catalog.segments.size → (s'.catalog.segment id).cursor.fields =
    write.apply (s.catalog.segment id).cursor.fields
  other : ∀ k ≠ id, (s'.catalog.segment k).cursor = (s.catalog.segment k).cursor

theorem SameField.writing (h : SameField Segment.cursor s s') (id : SegmentId) :
    Writing id .nothing s s' :=
  ⟨h.stack_eq, h.size_eq, fun _ => congrArg Cursor.fields (h.field_eq id),
    fun k _ => h.field_eq k⟩

theorem SameField.trans_writing {write : Write} (h : SameField Segment.cursor s s')
    (h' : Writing id write s' s'') : Writing id write s s'' :=
  ⟨h'.stack_eq.trans h.stack_eq, h'.size_eq.trans h.size_eq,
    fun hid => h.field_eq id ▸ h'.self (h.size_eq ▸ hid),
    fun k hk => (h'.other k hk).trans (h.field_eq k)⟩

theorem Writing.trans_same {write : Write} (h : Writing id write s s')
    (h' : SameField Segment.cursor s' s'') : Writing id write s s'' :=
  ⟨h'.stack_eq.trans h.stack_eq, h'.size_eq.trans h.size_eq,
    fun hid => h'.field_eq id ▸ h.self hid,
    fun k hk => (h'.field_eq k).trans (h.other k hk)⟩

theorem update_writing (id : SegmentId) {f : Segment → Segment} {write : Write}
    (hf : (f (s.catalog.segment id)).cursor.fields =
      write.apply (s.catalog.segment id).cursor.fields) : Writing id write s (update id f s).2 := by
  have hchanged := update_changed id f s
  exact ⟨hchanged.stack_eq, hchanged.size_eq, fun hid => hchanged.self hid ▸ hf,
    fun k hk => congrArg Segment.cursor (hchanged.other hk)⟩

theorem setCursor_writing {cursor : Cursor} {write : Write}
    (h : cursor.fields = write.apply (s.catalog.segment id).cursor.fields) :
    Writing id write s (setCursor id cursor s).2 := update_writing id h

theorem Along.then_setCursor {x : ScopeM ρ α} (hx : Along (SameField Segment.cursor) x)
    {cursor : α → Cursor} {answer : α → β} {write : Write}
    (h : (cursor (x s).1).fields = write.apply (s.catalog.segment id).cursor.fields) :
    Writing id write s ((do
      let a ← x
      setCursor id (cursor a)
      return answer a : ScopeM ρ β) s).2 :=
  (hx s).trans_writing (setCursor_writing (by rw [(hx s).field_eq id, h]))

end Scope

end ProbeForge
