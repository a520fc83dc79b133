import ProbeForge.Proofs.Outcome
import ProbeForge.Proofs.Scope.Edits

/-!
# Histories of a catalog

The calls that a catalog and its segments take, in any order and on any segment, accepted or
refused. A call edits one segment, opens a block, or only changes which segments are open.
-/

namespace ProbeForge.Scope

variable {ρ α : Type} {s s' : Scope ρ} {id : SegmentId}

/-- One segment is edited, a block is opened, or the stack changes. -/
inductive Moves (s s' : Scope ρ) : Prop where
  | edits {id : SegmentId} (edits : Edits id s s')
  | pushes (pushed : s' = (push s).2)
  | restacks {stack : List SegmentId}
      (known : ∀ id ∈ stack, id ∈ s.catalog.stack ∨ id < s.catalog.segments.size)
      (same : s' = ⟨{ s.catalog with stack }, s.source⟩)

theorem Confined.moves {x : ScopeAttempt ρ α} (h : Confined x) (hs : s.catalog.Shared) :
    Moves s (after x s) := by
  obtain ⟨id, hedits⟩ := h Amends amends_referring s
  exact .edits (hedits hs)

theorem withTop_moves {f : SegmentId → ScopeM ρ α} (hs : s.catalog.Shared)
    (hf : ∀ id, Along (Amends id) (f id)) : Moves s (after (withTop f) s) := by
  unfold after withTop
  cases s.catalog.stack with
  | nil => exact .edits (.refl : Edits 0 s s)
  | cons id rest => exact .edits (hf id s hs)

theorem pop_moves (s : Scope ρ) : Moves s (after pop s) := by
  unfold after pop
  cases hstack : s.catalog.stack with
  | nil => exact .edits (.refl : Edits 0 s s)
  | cons id rest =>
    exact .restacks (fun k hk => .inl (hstack ▸ List.mem_cons_of_mem id hk)) rfl

theorem enter_moves (h : id < s.catalog.segments.size) : Moves s (enter id s).2 := by
  refine .restacks (fun k (hk : k ∈ id :: s.catalog.stack) => ?_) rfl
  rcases List.mem_cons.mp hk with rfl | hk
  · exact .inr h
  · exact .inl hk

theorem chooseColumnAlias_moves (hs : s.catalog.Shared) :
    Moves s (after chooseColumnAlias s) := chooseColumnAlias_onColumn.confined.moves hs

section Choosing

variable [RandomSource ρ]

theorem chooseColumn_moves (hs : s.catalog.Shared) : Moves s (after chooseColumn s) :=
  chooseColumn_confined.moves hs

theorem addSchema_moves (hs : s.catalog.Shared) (u : Universe) :
    Moves s (after (addSchema u) s) := by
  refine withTop_moves hs fun id => (amends_lenient id).bind (setFlag_amends id _) fun _ =>
    (amends_lenient id).bind ((amends_referring id).addPhysical u _) fun table =>
      (amends_lenient id).bind ?_ fun _ => (amends_lenient id).pure _
  exact update_amends id (fun _ => rfl) (fun _ => rfl) fun _ => List.prefix_refl _

theorem addTable_moves (hs : s.catalog.Shared) (u : Universe) :
    Moves s (after (addTable u) s) := by
  refine withTop_moves hs fun id =>
    (amends_lenient id).bind ((amends_lenient id).segmentAt id) fun g => ?_
  split
  · refine (amends_lenient id).bind ?_ fun _ => (amends_lenient id).pure _
    exact update_amends id (fun _ => rfl) (fun _ => rfl) fun _ => List.prefix_refl _
  · exact (amends_referring id).addPhysical u _

end Choosing

/-! ### Calls -/

/-- The operation without what it answers. -/
def silently (x : ScopeAttempt ρ α) : ScopeAttempt ρ (Option String) := (fun _ => none) <$> x

theorem silently_ok {x : ScopeAttempt ρ α} {chosen : Option String}
    (h : silently x s = .ok chosen s') : chosen = none := by
  obtain ⟨a, -, rfl⟩ := map_attempt_ok h
  rfl

theorem silently_moves {x : ScopeAttempt ρ α} (h : Moves s (after x s)) :
    Moves s (after (silently x) s) := by
  rwa [silently, after_map]

section Calls

variable [RandomSource ρ]

/-- What can be asked of a segment. -/
inductive SegmentCall where
  | setFlag (flag : String)
  | clearFlag (flag : String)
  | mint (stem : String)
  | exportName (name : String)
  | addInline (other : SegmentId) (kind : SourceKind)
  | addPhysical (kind : SourceKind)
  | addSourceAlias (key : String)
  | getSource (aliasName : Option String)
  | addColumn (source : Option String)
  | getColumn (source : Option String)
  | getColumnAlias (column source : String)
  | addColumnAlias (column source : String)

def SegmentCall.run (u : Universe) (id : SegmentId) : SegmentCall → ScopeM ρ Unit
  | setFlag flag => update id (·.setFlag flag)
  | clearFlag flag => update id (·.clearFlag flag)
  | mint stem => discard (Scope.mint id stem)
  | exportName name => update id (·.exportName name)
  | addInline other kind => do
    let segment ← segmentAt other
    update id (·.putInline segment other kind)
  | addPhysical kind => discard (Scope.addPhysical u id kind)
  | addSourceAlias key => discard (Scope.addSourceAlias id key)
  | getSource none => discard (anySource id)
  | getSource (some aliasName) => discard (findSource id aliasName)
  | addColumn none => discard (addAnyColumn id)
  | addColumn (some source) => discard (Scope.addColumn id source)
  | getColumn source => discard (pickedColumn id source)
  | getColumnAlias column source => discard (pickedAlias id column source)
  | addColumnAlias column source => discard (Scope.addColumnAlias id column source)

/-- What can be asked of a catalog; `on` asks one of its segments. -/
inductive Call where
  | push
  | pop
  | enter (id : SegmentId)
  | addSchema
  | addTable
  | addSource (kind : SourceKind)
  | defineAlias
  | chooseTable
  | chooseAlias
  | chooseColumn
  | chooseColumnAlias
  | exportColumn
  | chooseSchema
  | on (id : SegmentId) (call : SegmentCall)

/-- The segments that a call is about, apart from the open ones. -/
def Call.segments : Call → List SegmentId
  | enter id => [id]
  | on id (.addInline other _) => [id, other]
  | on id _ => [id]
  | _ => []

/-- The operation that a call asks for. Only a column alias is kept as an answer. -/
def Call.operation (u : Universe) : Call → ScopeAttempt ρ (Option String)
  | push => silently (modifyGet Scope.push)
  | pop => silently Scope.pop
  | enter id => silently (modifyGet (Scope.enter id))
  | addSchema => silently (Scope.addSchema u)
  | addTable => silently (Scope.addTable u)
  | addSource kind => silently (Scope.addSource u kind)
  | defineAlias => silently Scope.defineAlias
  | chooseTable => silently Scope.chooseTable
  | chooseAlias => silently Scope.chooseAlias
  | chooseColumn => silently Scope.chooseColumn
  | chooseColumnAlias => some <$> Scope.chooseColumnAlias
  | exportColumn => silently Scope.exportColumn
  | chooseSchema => silently (Scope.chooseSchema u)
  | on id call => silently (modifyGet (call.run u id))

/-- A catalog as a history left it, with the column aliases that were chosen, the last one first. -/
structure Record (ρ : Type) where
  scope : Scope ρ
  aliases : List String

/-- The record after a call. A segment that the catalog does not have takes no call. -/
def Record.next (u : Universe) (r : Record ρ) (call : Call) : Record ρ :=
  if call.segments.all (· < r.scope.catalog.segments.size) then
    match call.operation u r.scope with
    | .ok chosen scope => ⟨scope, chosen.toList ++ r.aliases⟩
    | .error _ scope => ⟨scope, r.aliases⟩
  else r

/-- The record of all calls on an empty catalog. -/
def history (u : Universe) (source : ρ) (calls : List Call) : Record ρ :=
  calls.foldl (Record.next u) ⟨⟨.empty, source⟩, []⟩

/-! ### What a call does -/

/-- A call to a segment writes to the tables, to the outputs or to a flag. -/
theorem SegmentCall.along {R : Scope ρ → Scope ρ → Prop} (h : Stocking id R) (u : Universe)
    (call : SegmentCall)
    (hexport : ∀ name, call = .exportName name → Along R (update id (·.exportName name)))
    (hset : ∀ flag, call = .setFlag flag → Along R (update id (·.setFlag flag)))
    (hclear : ∀ flag, call = .clearFlag flag → Along R (update id (·.clearFlag flag))) :
    Along R (call.run u id) := by
  cases call with
  | setFlag flag => exact hset flag rfl
  | clearFlag flag => exact hclear flag rfl
  | mint stem => exact (h.mint stem).discard
  | exportName name => exact hexport name rfl
  | addInline other kind => exact h.bind (h.segmentAt other) fun _ => h.putSource _
  | addPhysical kind => exact (h.addPhysical u kind).discard
  | addSourceAlias key => exact (h.addSourceAlias key).discard
  | getSource aliasName =>
    cases aliasName with
    | none => exact h.anySource.discard
    | some aliasName => exact (h.findSource aliasName).discard
  | addColumn source =>
    cases source with
    | none => exact h.addAnyColumn.discard
    | some source => exact (h.addColumn source).discard
  | getColumn source => exact (h.pickedColumn source).discard
  | getColumnAlias column source => exact (h.pickedAlias column source).discard
  | addColumnAlias column source => exact (h.addColumnAlias column source).discard

/-- A relation that holds along all that is asked of segments, and besides along marking a segment,
opening a block and changing which blocks are open. -/
structure Hosting (R : Scope ρ → Scope ρ → Prop) : Prop where
  referring (id : SegmentId) : Referring id R
  marks (id : SegmentId) {f : Segment → Segment}
    (hf : ∀ g, ∃ flags pending, f g = { g with flags, pending }) :
    Along R (update id f : ScopeM ρ Unit)
  push (s : Scope ρ) : R s (Scope.push s).2
  restack (s : Scope ρ) (stack : List SegmentId) : R s ⟨{ s.catalog with stack }, s.source⟩

namespace Hosting

variable {R : Scope ρ → Scope ρ → Prop} (h : Hosting R)
include h

omit [RandomSource ρ] in
theorem setFlag (id : SegmentId) (flag : String) :
    Along R (update id (·.setFlag flag) : ScopeM ρ Unit) :=
  h.marks id fun g => by
    unfold Segment.setFlag
    split
    · exact ⟨g.flags, g.pending, rfl⟩
    · exact ⟨_, g.pending, rfl⟩

omit [RandomSource ρ] in
theorem confined {x : ScopeAttempt ρ α} (hx : Confined x) (s : Scope ρ) : R s (after x s) := by
  obtain ⟨-, hrelated⟩ := hx (fun _ => R) h.referring s
  exact hrelated

omit [RandomSource ρ] in
theorem pop (s : Scope ρ) : R s (after Scope.pop s) := by
  unfold after Scope.pop
  cases s.catalog.stack with
  | nil => exact (h.referring 0).refl s
  | cons id stack => exact h.restack s stack

theorem addSchema (u : Universe) (s : Scope ρ) : R s (after (Scope.addSchema u) s) := by
  refine withTop_along (h.referring 0).refl (fun id => ?_) s
  have hid := h.referring id
  exact hid.bind (h.setFlag id _) fun _ => hid.bind (hid.addPhysical u _) fun table =>
    hid.bind (h.marks id fun g => ⟨_, some table, rfl⟩) fun _ => hid.pure _

theorem addTable (u : Universe) (s : Scope ρ) : R s (after (Scope.addTable u) s) := by
  refine withTop_along (h.referring 0).refl (fun id => ?_) s
  have hid := h.referring id
  refine hid.bind (hid.segmentAt id) fun g => ?_
  split
  · exact hid.bind (h.marks id fun g => ⟨g.flags, none, rfl⟩) fun _ => hid.pure _
  · exact hid.addPhysical u _

/-- The relation holds along every call. -/
theorem call (u : Universe) (call : Call) (s : Scope ρ) : R s (after (call.operation u) s) := by
  cases call
  case push => exact h.push s
  case enter id => exact h.restack s (id :: s.catalog.stack)
  case on id call =>
    exact call.along (h.referring id).toStocking u (fun name _ => (h.referring id).exportName name)
      (fun flag _ => h.setFlag id flag) (fun flag _ => h.marks id fun g => ⟨_, g.pending, rfl⟩) s
  all_goals rw [Call.operation]
  case chooseColumnAlias =>
    rw [after_map]
    exact h.confined chooseColumnAlias_onColumn.confined s
  all_goals rw [silently, after_map]
  case pop => exact h.pop s
  case addSchema => exact h.addSchema u s
  case addTable => exact h.addTable u s
  case addSource kind => exact h.confined (addSource_onTop u kind).confined s
  case defineAlias => exact h.confined defineAlias_onTop.confined s
  case chooseTable => exact h.confined chooseTable_confined s
  case chooseAlias => exact h.confined chooseAlias_confined s
  case chooseColumn => exact h.confined chooseColumn_confined s
  case exportColumn => exact h.confined exportColumn_onColumn.confined s
  case chooseSchema => exact h.confined (chooseSchema_confined u) s

end Hosting

theorem SegmentCall.amends (u : Universe) (id : SegmentId) (call : SegmentCall) :
    Along (Amends id) (call.run u id : ScopeM ρ Unit) :=
  call.along (amends_referring id).toStocking u
    (fun name _ => (amends_referring id).exportName name) (fun flag _ => setFlag_amends id flag)
    fun flag _ => clearFlag_amends id flag

theorem Call.moves (hs : s.catalog.Shared) (u : Universe) {call : Call}
    (hknown : ∀ id ∈ call.segments, id < s.catalog.segments.size) :
    Moves s (after (call.operation u) s) := by
  cases call with
  | push => exact .pushes rfl
  | pop => exact silently_moves (pop_moves s)
  | enter id => exact enter_moves (hknown id (List.mem_singleton_self id))
  | addSchema => exact silently_moves (addSchema_moves hs u)
  | addTable => exact silently_moves (addTable_moves hs u)
  | addSource kind => exact silently_moves ((addSource_onTop u kind).confined.moves hs)
  | defineAlias => exact silently_moves (defineAlias_onTop.confined.moves hs)
  | chooseTable => exact silently_moves (chooseTable_confined.moves hs)
  | chooseAlias => exact silently_moves (chooseAlias_confined.moves hs)
  | chooseColumn => exact silently_moves (chooseColumn_moves hs)
  | chooseColumnAlias =>
    rw [operation, after_map]
    exact chooseColumnAlias_moves hs
  | exportColumn => exact silently_moves (exportColumn_onColumn.confined.moves hs)
  | chooseSchema => exact silently_moves ((chooseSchema_confined u).moves hs)
  | on id call => exact .edits (call.amends u id s hs)

/-! ### Steps of a history -/

variable {r : Record ρ}

/-- A call moves the catalog; if it chooses a column alias, that is recorded. -/
inductive Record.Step (r r' : Record ρ) : Prop where
  | moves (moves : Moves r.scope r'.scope) (same : r'.aliases = r.aliases)
  | chooses {aliasName : String} (chosen : chooseColumnAlias r.scope = .ok aliasName r'.scope)
      (recorded : r'.aliases = aliasName :: r.aliases)

theorem Call.eq_of_chosen {u : Universe} {call : Call} {aliasName : String}
    (h : call.operation u s = .ok (some aliasName) s') : call = .chooseColumnAlias := by
  cases call
  case chooseColumnAlias => rfl
  all_goals cases silently_ok h

theorem Record.step_next (hs : r.scope.catalog.Shared) (u : Universe) (call : Call) :
    r.Step (r.next u call) := by
  unfold next
  split
  case isFalse => exact .moves (.edits (.refl : Edits 0 r.scope r.scope)) rfl
  case isTrue hall =>
    have hmoves := call.moves hs u fun id hid => by simpa using List.all_eq_true.mp hall id hid
    unfold after at hmoves
    cases hrun : call.operation u r.scope with
    | error misuse s =>
      rw [hrun] at hmoves
      exact .moves hmoves rfl
    | ok chosen s =>
      rw [hrun] at hmoves
      cases chosen with
      | none => exact .moves hmoves rfl
      | some aliasName =>
        cases Call.eq_of_chosen hrun
        obtain ⟨a, hchosen, ha⟩ := map_attempt_ok hrun
        cases ha
        exact .chooses hchosen rfl

/-- What every step preserves holds of every history. -/
theorem history_induction {P : Record ρ → Prop} {u : Universe} {source : ρ} {calls : List Call}
    (start : P ⟨⟨.empty, source⟩, []⟩) (step : ∀ r call, P r → P (r.next u call)) :
    P (history u source calls) :=
  List.foldlRecOn calls _ start fun r hr call _ => step r call hr

end Calls

theorem Record.Step.moved {r r' : Record ρ} (h : r.Step r') (hs : r.scope.catalog.Shared) :
    Moves r.scope r'.scope := by
  cases h with
  | moves moves => exact moves
  | chooses chosen =>
    exact after_ok chosen ▸ chooseColumnAlias_moves hs

end ProbeForge.Scope
