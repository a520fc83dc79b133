import ProbeForge.Proofs.Scope.Cursors

/-!
# Requests to a catalog

A request that needs an open block or a chosen column is refused without one, before it has done
anything. A request that is accepted writes at most to the cursor of the innermost segment, in a way
that is fixed by what is there.
-/

namespace ProbeForge.Scope

open Cursor.Fields

variable {ρ α β : Type} {id : SegmentId} {rest : List SegmentId} {s s' : Scope ρ}

/-! ### Requests -/

/-- What a catalog may be asked for: its innermost segment, a segment outside the nesting, or a
call. -/
inductive Request where
  | current
  | alone (name : String)
  | call (call : Call)

namespace Request

def segments : Request → List SegmentId
  | current | alone _ => []
  | call asked => asked.segments

def operation [RandomSource ρ] (u : Universe) : Request → ScopeAttempt ρ (Option String)
  | current => silently (withTop segmentAt)
  | alone name => silently (modifyGet (openAlone name))
  | call asked => asked.operation u

/-- Whether the request works on the innermost segment. -/
def needsBlock : Request → Bool
  | alone _ | call .push | call (.enter _) | call (.on _ _) => false
  | _ => true

/-- Whether the request writes out a column that was chosen. -/
def needsColumn : Request → Bool
  | call .chooseColumnAlias | call .exportColumn => true
  | _ => false

/-- What a request may write to the cursor of the innermost segment, by what is there. -/
def Writes (fields : Cursor.Fields) (write : Write) : Request → Prop
  | call .chooseTable => ∃ aliasName name, write = .table aliasName name
  | call .chooseAlias =>
    if fields.state = "ALIAS_CHOSEN" then write = .nothing
    else if fields.state = "NAME_RESOLVED" then write = .reset
    else ∃ aliasName, write = .source aliasName
  | call .chooseColumn => ∃ aliasName column, write = .column aliasName column ∧
    (fields.state = "ALIAS_CHOSEN" ∨ fields.state = "NAME_RESOLVED" →
      fields.aliasName = some aliasName)
  | call .chooseColumnAlias | call .exportColumn | call .chooseSchema => write = .reset
  | _ => write = .nothing

end Request

/-- The cursor of the innermost segment. -/
def top (s : Scope ρ) : Cursor :=
  s.catalog.stack.head?.elim .idle fun id => (s.catalog.segment id).cursor

theorem top_eq (h : s.catalog.stack = id :: rest) : top s = (s.catalog.segment id).cursor := by
  rw [top, h]
  rfl

/-- There is no block to work on, or no column that could be written out. -/
def Request.Refused (request : Request) (s : Scope ρ) : Prop :=
  request.needsBlock = true ∧ s.catalog.stack = [] ∨
    request.needsColumn = true ∧ (top s).state ≠ "COLUMN_CHOSEN"

/-- The open segments are in the catalog. -/
def Grounded (s : Scope ρ) : Prop := ∀ id ∈ s.catalog.stack, id < s.catalog.segments.size

/-- What a request does to cursors. -/
structure Accepts (request : Request) (s s' : Scope ρ) : Prop where
  writes : ∃ write, request.Writes (top s).fields write ∧ ∀ id < s.catalog.segments.size,
    (s'.catalog.segment id).cursor.fields =
      if s.catalog.stack.head? = some id then write.apply (s.catalog.segment id).cursor.fields
      else (s.catalog.segment id).cursor.fields
  opens : ∀ id, s.catalog.segments.size ≤ id → (s'.catalog.segment id).cursor = .idle
  grounded : Grounded s'

/-- A request is refused before it has done anything, or it is accepted. -/
inductive Outcome (request : Request) (s : Scope ρ) : EStateM.Result Misuse (Scope ρ) α → Prop where
  | refused {misuse : Misuse} (lacks : request.Refused s)
      (state : misuse.state = if s.catalog.stack = [] then "EMPTY" else (top s).state) :
      Outcome request s (.error misuse s)
  | accepted {a : α} {s' : Scope ρ} (suits : ¬ request.Refused s)
      (accepts : (∀ id ∈ request.segments, id < s.catalog.segments.size) → Accepts request s s') :
      Outcome request s (.ok a s')

variable {request : Request}

theorem Outcome.map {x : ScopeAttempt ρ α} (h : Outcome request s (x s)) (f : α → β) :
    Outcome request s ((f <$> x) s) := by
  change Outcome request s (EStateM.map f x s)
  unfold EStateM.map
  cases hrun : x s with
  | ok a s' =>
    rw [hrun] at h
    cases h with
    | accepted suits accepts => exact .accepted suits accepts
  | error misuse s' =>
    rw [hrun] at h
    cases h with
    | refused lacks state => exact .refused lacks state

theorem Writing.accepts {write : Write} (h : Writing id write s s')
    (hstack : s.catalog.stack = id :: rest) (hs : Grounded s)
    (hwrites : request.Writes (top s).fields write) : Accepts request s s' where
  writes := by
    refine ⟨write, hwrites, fun k hk => ?_⟩
    rw [hstack, List.head?_cons]
    by_cases hid : id = k
    · subst hid
      rw [if_pos rfl, h.self hk]
    · rw [if_neg (by simpa using hid), h.other k (Ne.symm hid)]
  opens k hk := by
    rw [Catalog.segment_of_size_le (h.size_eq ▸ hk)]
    rfl
  grounded k hk := by
    rw [h.size_eq]
    exact hs k (h.stack_eq ▸ hk)

theorem withTop_outcome {f : SegmentId → ScopeM ρ α} (hs : Grounded s)
    (hblock : request.needsBlock = true) (hcolumn : request.needsColumn = false)
    (hf : ∀ id, (s.catalog.segment id).cursor = top s →
      ∃ write, request.Writes (top s).fields write ∧ Writing id write s (f id s).2) :
    Outcome request s (withTop f s) := by
  cases hstack : s.catalog.stack with
  | nil =>
    unfold withTop
    rw [hstack]
    exact .refused (.inl ⟨hblock, hstack⟩) (by rw [if_pos hstack])
  | cons id rest =>
    rw [withTop_run hstack]
    obtain ⟨write, hwrites, hwriting⟩ := hf id (top_eq hstack).symm
    refine .accepted ?_ fun _ => hwriting.accepts hstack hs hwrites
    rintro (⟨-, hnil⟩ | ⟨hneeds, -⟩)
    · cases hstack.symm.trans hnil
    · rw [hcolumn] at hneeds
      cases hneeds

theorem Outcome.lacks_column {misuse : Misuse} (hstack : s.catalog.stack = id :: rest)
    (hcolumn : request.needsColumn = true) (hne : (top s).state ≠ "COLUMN_CHOSEN")
    (hstate : misuse.state = (top s).state) :
    Outcome request s (.error misuse s : EStateM.Result Misuse (Scope ρ) α) := by
  refine .refused (.inr ⟨hcolumn, hne⟩) ?_
  rw [hstack, if_neg (List.cons_ne_nil id rest), hstate]

theorem withColumn_outcome {operation lack : String}
    {f : SegmentId → String → String → ScopeM ρ String} (hs : Grounded s)
    (hblock : request.needsBlock = true) (hcolumn : request.needsColumn = true)
    (hwrites : request.Writes (top s).fields .reset)
    (hf : ∀ id source column, Along (SameField Segment.cursor) (f id source column)) :
    Outcome request s (withColumn operation lack f s) := by
  unfold withColumn
  cases hstack : s.catalog.stack with
  | nil => exact .refused (.inl ⟨hblock, hstack⟩) (by rw [if_pos hstack])
  | cons id rest =>
    have htop := top_eq hstack
    dsimp only
    cases hcursor : (s.catalog.segment id).cursor with
    | columnChosen source name column =>
      refine .accepted ?_ fun _ => Writing.accepts ?_ hstack hs hwrites
      · rintro (⟨-, hnil⟩ | ⟨-, hne⟩)
        · cases hstack.symm.trans hnil
        · exact hne (by rw [htop, hcursor]; rfl)
      · exact (hf id source column s).trans_writing (update_writing id rfl)
    | idle | aliasChosen | nameResolved =>
      rw [hcursor] at htop
      exact .lacks_column hstack hcolumn (by simp [htop, Cursor.state]) (by rw [htop])

theorem pop_outcome (hs : Grounded s) : Outcome (.call .pop) s (pop s) := by
  cases hstack : s.catalog.stack with
  | nil =>
    unfold pop
    rw [hstack]
    exact .refused (.inl ⟨rfl, hstack⟩) (by rw [if_pos hstack])
  | cons id rest =>
    rw [pop_run hstack]
    refine .accepted ?_ fun _ => ?_
    · rintro (⟨-, hnil⟩ | ⟨hneeds, -⟩)
      · cases hstack.symm.trans hnil
      · cases hneeds
    · refine ⟨⟨.nothing, rfl, fun k _ => (ite_self _).symm⟩, fun k hk => ?_, fun k hk => ?_⟩
      · exact congrArg Segment.cursor (Catalog.segment_of_size_le hk)
      · exact hs k (hstack ▸ List.mem_cons_of_mem id hk)

theorem withTop_same {f : SegmentId → ScopeM ρ α} (hs : Grounded s)
    (hblock : request.needsBlock = true) (hcolumn : request.needsColumn = false)
    (hwrites : request.Writes (top s).fields .nothing)
    (hf : ∀ id, Along (SameField Segment.cursor) (f id)) : Outcome request s (withTop f s) :=
  withTop_outcome hs hblock hcolumn fun id _ => ⟨.nothing, hwrites, (hf id s).writing id⟩

theorem OnTop.outcome {x : ScopeAttempt ρ α} (h : OnTop x) (request : Request) (hs : Grounded s)
    (hblock : request.needsBlock = true) (hcolumn : request.needsColumn = false)
    (hwrites : request.Writes (top s).fields .nothing) : Outcome request s (x s) := by
  obtain ⟨f, rfl, hf⟩ := h
  exact withTop_same hs hblock hcolumn hwrites fun id => hf id _ (sameField_stocking .cursor id)

theorem OnColumn.outcome {x : ScopeAttempt ρ String} (h : OnColumn x) (request : Request)
    (hs : Grounded s) (hblock : request.needsBlock = true) (hcolumn : request.needsColumn = true)
    (hwrites : request.Writes (top s).fields .reset) : Outcome request s (x s) := by
  obtain ⟨operation, lack, f, rfl, hf⟩ := h
  exact withColumn_outcome hs hblock hcolumn hwrites fun id =>
    hf id _ (sameField_stocking .cursor id)

/-! ### Requests that are never refused -/

theorem Outcome.free {a : α} (hblock : request.needsBlock = false)
    (hcolumn : request.needsColumn = false)
    (accepts : (∀ id ∈ request.segments, id < s.catalog.segments.size) → Accepts request s s') :
    Outcome request s (.ok a s' : EStateM.Result Misuse (Scope ρ) α) := by
  refine .accepted ?_ accepts
  rintro (⟨hneeds, -⟩ | ⟨hneeds, -⟩)
  · rw [hblock] at hneeds
    cases hneeds
  · rw [hcolumn] at hneeds
    cases hneeds

theorem SameField.accepts (h : SameField Segment.cursor s s') (hs : Grounded s)
    (hwrites : request.Writes (top s).fields .nothing) : Accepts request s s' where
  writes := ⟨.nothing, hwrites, fun k _ => by
    rw [h.field_eq k]
    exact (ite_self _).symm⟩
  opens k hk := by
    rw [Catalog.segment_of_size_le (h.size_eq ▸ hk)]
    rfl
  grounded k hk := by
    rw [h.size_eq]
    exact hs k (h.stack_eq ▸ hk)

/-- A new segment becomes the innermost one. -/
theorem accepts_opened (hs : Grounded s) (hwrites : request.Writes (top s).fields .nothing)
    (hstack : s'.catalog.stack = s.catalog.segments.size :: s.catalog.stack)
    (hsize : s'.catalog.segments.size = s.catalog.segments.size + 1)
    (hnew : (s'.catalog.segment s.catalog.segments.size).cursor = .idle)
    (hold : ∀ k < s.catalog.segments.size,
      (s'.catalog.segment k).cursor = (s.catalog.segment k).cursor) : Accepts request s s' where
  writes := ⟨.nothing, hwrites, fun k hk => by
    rw [hold k hk]
    exact (ite_self _).symm⟩
  opens k hk := by
    rcases Nat.eq_or_lt_of_le hk with rfl | hlt
    · exact hnew
    · rw [Catalog.segment_of_size_le (hsize ▸ hlt)]
      rfl
  grounded k hk := by
    rw [hsize]
    rcases List.mem_cons.mp (hstack ▸ hk) with rfl | hk
    · exact Nat.lt_succ_self _
    · exact Nat.lt_succ_of_lt (hs k hk)

theorem alone_accepts (hs : Grounded s) (name : String) :
    Accepts (.alone name) s (openAlone name s).2 := by
  have hsegment : ∀ k, (openAlone name s).2.catalog.segment k =
      if k = s.catalog.segments.size then .fresh name none (some 0) else s.catalog.segment k :=
    fun _ => Catalog.segment_of_push rfl
  refine accepts_opened hs rfl rfl (Array.size_push _) ?_ fun k hk => ?_
  · rw [hsegment, if_pos rfl]
    rfl
  · rw [hsegment, if_neg (Nat.ne_of_lt hk)]

theorem push_accepts (hs : Grounded s) : Accepts (.call .push) s (push s).2 := by
  refine accepts_opened hs rfl (push_stack s) (push_size s) ?_ fun k hk => ?_ <;>
    cases hstack : s.catalog.stack with
    | nil => ?_
    | cons id rest => ?_
  · rw [Catalog.segment_of_push (push_root hstack), if_pos rfl]
    rfl
  · rw [segment_push_new hstack]
    rfl
  · rw [Catalog.segment_of_push (push_root hstack), if_neg (Nat.ne_of_lt hk)]
  · rw [segment_push_old hstack (Nat.ne_of_lt hk)]
    exact Catalog.field_modifySegment (f := enclose _ _) Segment.cursor (fun _ => rfl) k

theorem enter_accepts (hs : Grounded s) (h : id < s.catalog.segments.size) :
    Accepts (.call (.enter id)) s (enter id s).2 := by
  refine ⟨⟨.nothing, rfl, fun k _ => (ite_self _).symm⟩, fun k hk => ?_, fun k hk => ?_⟩
  · exact congrArg Segment.cursor (Catalog.segment_of_size_le hk)
  · rcases List.mem_cons.mp hk with rfl | hk
    · exact h
    · exact hs k hk

/-! ### Calls -/

section Calls

variable [RandomSource ρ]

theorem addSchema_outcome (hs : Grounded s) (u : Universe) :
    Outcome (.call .addSchema) s (addSchema u s) :=
  withTop_same hs rfl rfl rfl fun id =>
    have h := sameField_stocking .cursor id
    h.bind (setFlag_sameField id _ fun _ _ => rfl) fun _ => h.bind (h.addPhysical u _) fun _ =>
      h.bind (update_sameField id fun _ => rfl) fun _ => h.pure _

theorem addTable_outcome (hs : Grounded s) (u : Universe) :
    Outcome (.call .addTable) s (addTable u s) := by
  refine withTop_same hs rfl rfl rfl fun id => ?_
  have h := sameField_stocking (ρ := ρ) .cursor id
  refine h.bind (h.segmentAt id) fun g => ?_
  split
  · exact h.bind (update_sameField id fun _ => rfl) fun _ => h.pure _
  · exact h.addPhysical u _

theorem chooseTable_outcome (hs : Grounded s) :
    Outcome (.call .chooseTable) s (chooseTable s) := by
  refine withTop_outcome hs rfl rfl fun id _ => ?_
  rw [bind_run, segmentAt_run]
  dsimp only
  cases (s.catalog.segment id).cursor with
  | aliasChosen aliasName =>
    exact ⟨.table _ _, ⟨_, _, rfl⟩,
      ((sameField_lenient .cursor id).findSource aliasName).then_setCursor rfl⟩
  | idle | nameResolved | columnChosen =>
    exact ⟨.table _ _, ⟨_, _, rfl⟩, (sameField_lenient .cursor id).anySource.then_setCursor rfl⟩

theorem chooseAlias_outcome (hs : Grounded s) :
    Outcome (.call .chooseAlias) s (chooseAlias s) := by
  refine withTop_outcome hs rfl rfl fun id htop => ?_
  rw [bind_run, segmentAt_run, ← htop]
  dsimp only
  cases (s.catalog.segment id).cursor with
  | aliasChosen aliasName => exact ⟨.nothing, rfl, (SameField.refl Segment.cursor s).writing id⟩
  | nameResolved aliasName name => exact ⟨.reset, rfl, setCursor_writing rfl⟩
  | idle | columnChosen =>
    exact ⟨.source _, ⟨_, rfl⟩, (sameField_lenient .cursor id).anySource.then_setCursor rfl⟩

theorem chooseColumn_outcome (hs : Grounded s) :
    Outcome (.call .chooseColumn) s (chooseColumn s) := by
  refine withTop_outcome hs rfl rfl fun id htop => ?_
  rw [bind_run, segmentAt_run, ← htop]
  dsimp only
  -- the cursor was read before the source was looked up, so its name is still there
  have hpick : ∀ (source : String) (s' : Scope ρ), SameField Segment.cursor s s' →
      Writing id (.column source (reuseOrPick id source s').1) s ((do
        let column ← reuseOrPick id source
        setCursor id (.columnChosen source (s.catalog.segment id).cursor.name? column)
        return column : ScopeM ρ String) s').2 := fun source s' hsame =>
    hsame.trans_writing (((sameField_stocking .cursor id).reuseOrPick source).then_setCursor
      (by rw [hsame.field_eq id]; rfl))
  cases hcursor : (s.catalog.segment id).cursor with
  | aliasChosen aliasName | nameResolved aliasName =>
    rw [hcursor] at hpick
    exact ⟨_, ⟨_, _, rfl, fun _ => rfl⟩, hpick aliasName s (.refl _ s)⟩
  | idle | columnChosen =>
    rw [hcursor] at hpick
    have hany := (sameField_lenient .cursor id).anySource s
    dsimp only
    rw [bind_run]
    generalize anySource id s = chosen at hany ⊢
    refine ⟨_, ⟨_, _, rfl, fun h => ?_⟩, hpick chosen.1.aliasName chosen.2 hany⟩
    simp [Cursor.fields, Cursor.state] at h

theorem chooseSchema_outcome (hs : Grounded s) (u : Universe) :
    Outcome (.call .chooseSchema) s (chooseSchema u s) := by
  refine withTop_outcome hs rfl rfl fun id _ => ⟨.reset, rfl, ?_⟩
  rw [bind_run]
  have h := sameField_lenient (ρ := ρ) .cursor id
  refine (setCursor_writing rfl).trans_same (h.bind (h.segmentAt id) ?_ _)
  intro g
  split
  · exact h.bind (h.chooseFrom _ _) fun _ => h.pure _
  · split
    · exact h.pure _
    · exact h.chooseFrom _ _

/-- Whatever is asked, it is refused before anything was done, or it is accepted. -/
theorem Request.outcome (hs : Grounded s) (u : Universe) (request : Request) :
    Outcome request s (request.operation u s) := by
  cases request with
  | current =>
    have hcurrent : Outcome .current s (withTop segmentAt s) :=
      withTop_same hs rfl rfl rfl fun id => (sameField_lenient .cursor id).segmentAt id
    exact hcurrent.map _
  | alone name => exact .free rfl rfl fun _ => alone_accepts hs name
  | call call =>
    cases call with
    | push => exact .free rfl rfl fun _ => push_accepts hs
    | pop => exact (pop_outcome hs).map _
    | enter id => exact .free rfl rfl fun h => enter_accepts hs (h id List.mem_cons_self)
    | addSchema => exact (addSchema_outcome hs u).map _
    | addTable => exact (addTable_outcome hs u).map _
    | addSource kind =>
      exact ((addSource_onTop u kind).outcome (.call (.addSource kind)) hs rfl rfl rfl).map _
    | defineAlias => exact (defineAlias_onTop.outcome (.call .defineAlias) hs rfl rfl rfl).map _
    | chooseTable => exact (chooseTable_outcome hs).map _
    | chooseAlias => exact (chooseAlias_outcome hs).map _
    | chooseColumn => exact (chooseColumn_outcome hs).map _
    | chooseColumnAlias =>
      exact (chooseColumnAlias_onColumn.outcome (.call .chooseColumnAlias) hs rfl rfl rfl).map _
    | exportColumn =>
      exact (exportColumn_onColumn.outcome (.call .exportColumn) hs rfl rfl rfl).map _
    | chooseSchema => exact (chooseSchema_outcome hs u).map _
    | on id call =>
      have hsame := call.sameField .cursor u id (fun _ _ => rfl) (fun _ _ _ => rfl) s
      exact .free rfl rfl fun _ => hsame.accepts hs rfl

/-! ### Runs -/

omit [RandomSource ρ] in
theorem Accepts.shaped (h : Accepts request s s')
    (hs : ∀ id, (s.catalog.segment id).cursor.fields.Shaped) (id : SegmentId) :
    (s'.catalog.segment id).cursor.fields.Shaped := by
  by_cases hid : id < s.catalog.segments.size
  · obtain ⟨write, -, hwritten⟩ := h.writes
    rw [hwritten id hid]
    split
    · exact (hs id).apply write
    · exact hs id
  · rw [h.opens id (Nat.not_lt.mp hid)]
    exact .idle

/-- The scope after a request. None is made of a segment that the catalog does not have. -/
def follow (u : Universe) (s : Scope ρ) (request : Request) : Scope ρ :=
  if request.segments.all (· < s.catalog.segments.size) then after (request.operation u) s else s

/-- The scope after all requests to an empty catalog. -/
def reached (u : Universe) (source : ρ) (requests : List Request) : Scope ρ :=
  requests.foldl (follow u) ⟨.empty, source⟩

/-- Every cursor is in order, and a request either finds what it needs or leaves all as it was. -/
structure Orderly (u : Universe) (s : Scope ρ) : Prop where
  shaped : ∀ id < s.catalog.segments.size, (s.catalog.segment id).cursor.fields.Shaped
  refused_iff : ∀ request : Request,
    (∃ misuse s', request.operation u s = .error misuse s') ↔ request.Refused s
  unchanged : ∀ (request : Request) (misuse : Misuse) (s' : Scope ρ),
    request.operation u s = .error misuse s' →
      s' = s ∧ misuse.state = if s.catalog.stack = [] then "EMPTY" else (top s).state
  accepts : ∀ (request : Request) (answer : Option String) (s' : Scope ρ),
    (∀ id ∈ request.segments, id < s.catalog.segments.size) →
      request.operation u s = .ok answer s' → Accepts request s s'

theorem orderly_of_shaped (u : Universe) (hs : Grounded s)
    (hshaped : ∀ id, (s.catalog.segment id).cursor.fields.Shaped) : Orderly u s where
  shaped id _ := hshaped id
  refused_iff request := by
    have houtcome := request.outcome hs u
    generalize request.operation u s = result at houtcome
    cases houtcome with
    | refused lacks => exact ⟨fun _ => lacks, fun _ => ⟨_, _, rfl⟩⟩
    | accepted suits =>
      refine ⟨?_, fun hrefused => absurd hrefused suits⟩
      rintro ⟨misuse, s', h⟩
      cases h
  unchanged request misuse s' h := by
    have houtcome := request.outcome hs u
    rw [h] at houtcome
    cases houtcome with
    | refused _ state => exact ⟨rfl, state⟩
  accepts request answer s' hknown h := by
    have houtcome := request.outcome hs u
    rw [h] at houtcome
    cases houtcome with
    | accepted _ accepts => exact accepts hknown

theorem follow_shaped (u : Universe) (request : Request) (hs : Grounded s)
    (hshaped : ∀ id, (s.catalog.segment id).cursor.fields.Shaped) :
    Grounded (follow u s request) ∧
      ∀ id, ((follow u s request).catalog.segment id).cursor.fields.Shaped := by
  unfold follow
  split
  case isFalse => exact ⟨hs, hshaped⟩
  case isTrue hall =>
    have houtcome := request.outcome hs u
    unfold after
    generalize request.operation u s = result at houtcome
    cases houtcome with
    | refused => exact ⟨hs, hshaped⟩
    | accepted _ accepts =>
      have haccepts := accepts fun id hid => by simpa using List.all_eq_true.mp hall id hid
      exact ⟨haccepts.grounded, haccepts.shaped hshaped⟩

/-- So it is after any requests, over any universe and with any draws. -/
theorem reached_orderly (u : Universe) (source : ρ) (requests : List Request) :
    Orderly u (reached u source requests) := by
  -- a write reaches a cursor only if the open segment is in the catalog
  have hstart : Grounded (⟨.empty, source⟩ : Scope ρ) := fun id hid => by cases hid
  obtain ⟨hgrounded, hshaped⟩ := List.foldlRecOn (motive := fun s : Scope ρ =>
      Grounded s ∧ ∀ id, (s.catalog.segment id).cursor.fields.Shaped) requests (follow u)
    ⟨hstart, fun id => .idle⟩ fun s hs request _ => follow_shaped u request hs.1 hs.2
  exact orderly_of_shaped u hgrounded hshaped

end Calls

end ProbeForge.Scope
