import ProbeForge.Proofs.Derivation.Expansion
import ProbeForge.Proofs.Scope.Registration

/-!
# Effects of generators

What a generator that succeeds did to the scope while a block is open. Only two generators change
the stack; the others change the block that is open. A generator fails only without an open block.
-/

namespace ProbeForge

open Scope

variable {ρ : Type} {id : SegmentId} {rest : List SegmentId} {s s' : Scope ρ}

/-- What happens to the innermost segment when the source registered last is given an alias. -/
inductive Aliased (id : SegmentId) (s : Scope ρ) (text : String) : Scope ρ → Prop where
  | missing {s' : Scope ρ} (absent : (s.catalog.segment id).lastSource.bind
      (s.catalog.segment id).sources.find? = none) (kept : Kept id s s') : Aliased id s text s'
  | own {s' : Scope ρ} {key : String} {entry : SourceEntry}
      (last : (s.catalog.segment id).lastSource = some key)
      (found : (s.catalog.segment id).sources.find? key = some entry)
      (unnamed : entry.aliasName = entry.name)
      (minted : text = s!"{key}_{s.catalog.minted + 1}")
      (changed : Changed id (·.rename key text entry) s s') : Aliased id s text s'
  | given {key : String} {entry : SourceEntry}
      (last : (s.catalog.segment id).lastSource = some key)
      (found : (s.catalog.segment id).sources.find? key = some entry)
      (named : entry.aliasName ≠ entry.name) (same : text = entry.aliasName) : Aliased id s text s

/-- A physical source was registered. -/
def Registered (id : SegmentId) (kind : SourceKind) (s : Scope ρ) (payload : Payload)
    (s' : Scope ρ) : Prop :=
  ∃ d entry, payload = .source d ∧ Describes d kind entry ∧ Changed id (·.putSource entry) s s'

/-- The effect of a generator in the block `id`, with the blocks `rest` around it. -/
def Generator.Effect (id : SegmentId) (rest : List SegmentId) (s : Scope ρ) (payload : Payload)
    (s' : Scope ρ) : Generator → Prop
  | openBlock => payload = .block s.catalog.segments.size ∧ s' = (push s).2
  | closeBlock => s' = { s with catalog := { s.catalog with stack := rest } }
  | registerTable =>
    (∃ d, payload = .source d ∧ (s.catalog.segment id).pending = some d ∧
        Changed id ({ · with pending := none }) s s') ∨
      ((s.catalog.segment id).pending = none ∧ Registered id .table s payload s')
  | registerSchema =>
    ∃ d entry, payload = .source d ∧ Describes d .table entry ∧ Changed id (announce · entry d) s s'
  | registerView => Registered id .view s payload s'
  | registerMaterializedView => Registered id .mview s payload s'
  | registerSequence => Registered id .sequence s payload s'
  | defineAlias => ∃ text, payload = .text text ∧ Aliased id s text s'
  | integer | number | string => Kept id s s'

/-! ### Consequences -/

theorem Aliased.changed {text : String} (h : Aliased id s text s') :
    ∃ f, Changed id f s s' ∧ ∀ segment, (f segment).ownMinted = segment.ownMinted := by
  cases h with
  | missing _ kept => exact ⟨_, kept, fun _ => rfl⟩
  | own _ _ _ _ changed => exact ⟨_, changed, fun _ => rfl⟩
  | given => exact ⟨_, Kept.refl id s, fun _ => rfl⟩

/-- Apart from blocks, a generator changes the innermost segment at most. -/
theorem Generator.Effect.changed {generator : Generator} {payload : Payload}
    (h : generator.Effect id rest s payload s') (hopen : generator ≠ .openBlock)
    (hclose : generator ≠ .closeBlock) :
    ∃ f, Changed id f s s' ∧ ∀ segment, (f segment).ownMinted = segment.ownMinted := by
  cases generator
  case openBlock => exact absurd rfl hopen
  case closeBlock => exact absurd rfl hclose
  case registerTable =>
    rcases h with ⟨d, -, -, hchanged⟩ | ⟨-, d, entry, -, -, hchanged⟩
    · exact ⟨_, hchanged, fun _ => rfl⟩
    · exact ⟨_, hchanged, fun _ => rfl⟩
  case registerSchema =>
    obtain ⟨d, entry, -, -, hchanged⟩ := h
    exact ⟨_, hchanged, fun segment => setFlag_ownMinted segment _⟩
  case registerView | registerMaterializedView | registerSequence =>
    obtain ⟨d, entry, -, -, hchanged⟩ := h
    exact ⟨_, hchanged, fun _ => rfl⟩
  case defineAlias =>
    obtain ⟨text, -, haliased⟩ := h
    exact haliased.changed
  case integer | number | string => exact ⟨_, h, fun _ => rfl⟩

theorem Generator.Effect.shared {generator : Generator} {payload : Payload}
    (h : generator.Effect id rest s payload s') (hs : s.catalog.Shared) : s'.catalog.Shared := by
  by_cases hopen : generator = .openBlock
  · subst hopen
    obtain ⟨-, rfl⟩ := h
    exact push_shared hs
  by_cases hclose : generator = .closeBlock
  · subst hclose
    cases h
    exact hs
  obtain ⟨f, hchanged, hkept⟩ := h.changed hopen hclose
  exact hchanged.shared hs hkept

/-! ### Runs -/

theorem aliased_of_run {text : String} (hs : s.catalog.Shared)
    (hstack : s.catalog.stack = id :: rest) (h : defineAlias s = .ok text s') :
    Aliased id s text s' := by
  cases hlast : (s.catalog.segment id).lastSource with
  | none =>
    obtain ⟨rfl, rfl⟩ := withTop_ok hstack h
    refine .missing (by simp [hlast]) ?_
    rw [bind_run, segmentAt_run]
    dsimp only
    rw [hlast]
    exact mint_kept hs id _
  | some key =>
    cases hfind : (s.catalog.segment id).sources.find? key with
    | none =>
      obtain ⟨rfl, rfl⟩ := withTop_ok hstack h
      refine .missing (by simp [hlast, hfind]) ?_
      rw [bind_run, segmentAt_run]
      dsimp only
      rw [hlast]
      dsimp only
      rw [bind_run]
      unfold addSourceAlias
      rw [bind_run, segmentAt_run]
      dsimp only
      rw [hfind]
      exact mint_kept hs id _
    | some entry =>
      rcases defineAlias_ok hs hstack hlast hfind h with
        ⟨hown, hname, hchanged⟩ | ⟨hgiven, hname, rfl⟩
      · exact .own hlast hfind hown hname hchanged
      · exact .given hlast hfind hgiven hname

variable [RandomSource ρ]

theorem randomLetters_kept (id : SegmentId) (n : Nat) (done : List Char) (s : Scope ρ) :
    Kept id s (randomLetters n done s).2 := by
  induction n generalizing done s with
  | zero => exact Kept.refl id s
  | succ n ih => exact (draw_kept id _ s).trans (ih _ _)

theorem Generator.openBlock_ok {u : Universe} {payload : Payload}
    (h : openBlock.run u s = .ok payload s') :
    payload = .block s.catalog.segments.size ∧ s' = (push s).2 := by
  obtain ⟨hpayload, hscope⟩ := EStateM.Result.ok.inj h
  exact ⟨hpayload.symm, hscope.symm⟩

theorem Generator.effect_of_run {u : Universe} {generator : Generator} {payload : Payload}
    (hs : s.catalog.Shared) (hstack : s.catalog.stack = id :: rest)
    (h : generator.run u s = .ok payload s') : generator.Effect id rest s payload s' := by
  cases generator
  case openBlock => exact openBlock_ok h
  case closeBlock =>
    simp only [run, pop_run hstack] at h
    cases h
    rfl
  case registerTable =>
    obtain ⟨d, hrun, rfl⟩ := map_attempt_ok h
    rcases addTable_ok hs hstack hrun with ⟨hpending, hchanged⟩ | ⟨hnone, entry, hd, hchanged⟩
    · exact .inl ⟨d, rfl, hpending, hchanged⟩
    · exact .inr ⟨hnone, d, entry, rfl, hd, hchanged⟩
  case registerSchema =>
    obtain ⟨d, hrun, rfl⟩ := map_attempt_ok h
    obtain ⟨entry, hd, hchanged⟩ := addSchema_ok hs hstack hrun
    exact ⟨d, entry, rfl, hd, hchanged⟩
  case registerView | registerMaterializedView | registerSequence =>
    obtain ⟨d, hrun, rfl⟩ := map_attempt_ok h
    obtain ⟨entry, hd, hchanged⟩ := addSource_ok hs hstack hrun
    exact ⟨d, entry, rfl, hd, hchanged⟩
  case defineAlias =>
    obtain ⟨text, hrun, rfl⟩ := map_attempt_ok h
    exact ⟨text, rfl, aliased_of_run hs hstack hrun⟩
  case integer | number =>
    cases h
    exact draw_kept id _ s
  case string =>
    cases h
    exact (draw_kept id _ s).trans (randomLetters_kept id _ _ _)

/-- The effect of the generator that a rule names, if any. -/
def Effects (id : SegmentId) (rest : List SegmentId) (s : Scope ρ) :
    Option Generator → Option Payload → Option SegmentId → Scope ρ → Prop
  | none, payload, segment, s' => payload = none ∧ segment = none ∧ s' = s
  | some generator, payload, segment, s' =>
    ∃ p, payload = some p ∧ segment = generator.keptSegment p ∧ generator.Effect id rest s p s'

/-- Outside every block only the opening of one can succeed. -/
theorem Ran.effects {u : Universe} {generator : Option Generator} {payload : Option Payload}
    {segment : Option SegmentId} (hs : s.catalog.Shared)
    (hopen : s.catalog.stack = id :: rest ∨ generator = some .openBlock)
    (h : Ran u s generator payload segment s') :
    Effects id rest s generator payload segment s' := by
  cases generator with
  | none => exact h
  | some generator =>
    obtain ⟨p, hrun, hpayload, hsegment⟩ := h
    refine ⟨p, hpayload, hsegment, ?_⟩
    rcases hopen with hstack | hopens
    · exact Generator.effect_of_run hs hstack hrun
    · cases hopens
      exact Generator.openBlock_ok hrun

omit [RandomSource ρ] in
/-- A segment is kept where one was added. -/
theorem Effects.segment_cases {generator : Option Generator} {payload : Option Payload}
    {segment : Option SegmentId} (h : Effects id rest s generator payload segment s') :
    segment = none ∧ s'.catalog.segments.size = s.catalog.segments.size ∨
      segment = some s.catalog.segments.size ∧
        s'.catalog.segments.size = s.catalog.segments.size + 1 := by
  cases generator with
  | none =>
    obtain ⟨-, hsegment, rfl⟩ := h
    exact .inl ⟨hsegment, rfl⟩
  | some generator =>
    obtain ⟨p, -, rfl, heffect⟩ := h
    by_cases hopen : generator = .openBlock
    · subst hopen
      obtain ⟨rfl, rfl⟩ := heffect
      exact .inr ⟨rfl, push_size s⟩
    · have hnone : generator.keptSegment p = none := by
        cases generator <;> first | exact absurd rfl hopen | (cases p <;> rfl)
      refine .inl ⟨hnone, ?_⟩
      by_cases hclose : generator = .closeBlock
      · subst hclose
        cases heffect
        rfl
      · obtain ⟨f, hchanged, -⟩ := heffect.changed hopen hclose
        exact hchanged.size_eq

omit [RandomSource ρ] in
theorem Effects.shared {generator : Option Generator} {payload : Option Payload}
    {segment : Option SegmentId} (h : Effects id rest s generator payload segment s')
    (hs : s.catalog.Shared) : s'.catalog.Shared := by
  cases generator with
  | none =>
    obtain ⟨-, -, rfl⟩ := h
    exact hs
  | some generator =>
    obtain ⟨p, -, -, heffect⟩ := h
    exact heffect.shared hs

omit [RandomSource ρ] in
/-- A block is opened, the innermost one is closed, or the stack stays as it is. -/
theorem Effects.stack_cases {generator : Option Generator} {payload : Option Payload}
    {segment : Option SegmentId} (h : Effects id rest s generator payload segment s') :
    generator = some .openBlock ∧ segment = some s.catalog.segments.size ∧
        s'.catalog.stack = s.catalog.segments.size :: s.catalog.stack ∨
      generator = some .closeBlock ∧ s'.catalog.stack = rest ∨
        generator ≠ some .openBlock ∧ generator ≠ some .closeBlock ∧
          s'.catalog.stack = s.catalog.stack := by
  cases generator with
  | none =>
    obtain ⟨-, -, rfl⟩ := h
    exact .inr (.inr ⟨by simp, by simp, rfl⟩)
  | some generator =>
    obtain ⟨p, -, rfl, heffect⟩ := h
    by_cases hopen : generator = .openBlock
    · subst hopen
      obtain ⟨rfl, rfl⟩ := heffect
      exact .inl ⟨rfl, rfl, push_stack s⟩
    by_cases hclose : generator = .closeBlock
    · subst hclose
      cases heffect
      exact .inr (.inl ⟨rfl, rfl⟩)
    · obtain ⟨f, hchanged, -⟩ := heffect.changed hopen hclose
      exact .inr (.inr ⟨by simpa using hopen, by simpa using hclose, hchanged.stack_eq⟩)

theorem map_attempt_error {σ ε α β : Type} {f : α → β} {run : EStateM ε σ α} {s s' : σ} {e : ε}
    (h : (f <$> run) s = .error e s') : run s = .error e s' := by
  change EStateM.map f run s = _ at h
  unfold EStateM.map at h
  split at h
  · cases h
  · cases h
    assumption

theorem Generator.stack_of_error {u : Universe} {generator : Generator} {misuse : Misuse}
    (h : generator.run u s = .error misuse s') : s.catalog.stack = [] := by
  cases generator
  case openBlock | integer | number | string => cases h
  case closeBlock =>
    unfold run at h
    dsimp only at h
    split at h
    · cases h
    case h_2 hpop => exact pop_error hpop
  all_goals exact withTop_error (map_attempt_error h)

end ProbeForge
