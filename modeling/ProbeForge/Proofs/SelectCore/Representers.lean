import ProbeForge.Proofs.Derivation.Rendering
import ProbeForge.Proofs.Scope.Plain
import ProbeForge.Proofs.Scope.Resolution
import ProbeForge.Proofs.SelectCore.Trees

/-!
# Representers of the core SELECT grammar

What the operation of a representer does after the children of its node were rendered. Most only put
texts together; three write to the open segment, through its cursor.
-/

namespace ProbeForge.SelectCore

open Grammars Scope Rendering

/-! ### Representer rules -/

theorem block_iff {name : String} {alternative : Alternative}
    (hmem : alternative ∈ alternatives name) :
    alternative.2.2 = .block ↔ alternative.2.1 = some .openBlock :=
  forall_alternatives (P := fun _ alternative =>
    alternative.2.2 = .block ↔ alternative.2.1 = some .openBlock) (by decide) hmem

/-- A column alias follows the column that it stands for. -/
theorem columnAlias_right {name : String} {alternative : Alternative}
    (hmem : alternative ∈ alternatives name) (h : "col_alias" ∈ alternative.1) :
    alternative.1 = ["column_ref", "AS", "col_alias"] ∧ alternative.2.2 = .spaced := by
  revert h
  exact forall_alternatives (P := fun _ alternative => "col_alias" ∈ alternative.1 →
    alternative.1 = ["column_ref", "AS", "col_alias"] ∧ alternative.2.2 = .spaced) (by decide) hmem

theorem outputColumn_right {name : String} {alternative : Alternative}
    (hmem : alternative ∈ alternatives name) (h : alternative.2.2 = .outputColumn) :
    alternative.1 = ["column_ref"] := by
  revert h
  exact forall_alternatives (P := fun _ alternative => alternative.2.2 = .outputColumn →
    alternative.1 = ["column_ref"]) (by decide) hmem

theorem columnRef_iff {name : String} {alternative : Alternative}
    (hmem : alternative ∈ alternatives name) :
    alternative.2.2 = .columnRef ↔ name = "column_ref" :=
  forall_alternatives (P := fun name alternative =>
    alternative.2.2 = .columnRef ↔ name = "column_ref") (by decide) hmem

theorem columnAlias_iff {name : String} {alternative : Alternative}
    (hmem : alternative ∈ alternatives name) :
    alternative.2.2 = .columnAlias ↔ name = "col_alias" :=
  forall_alternatives (P := fun name alternative =>
    alternative.2.2 = .columnAlias ↔ name = "col_alias") (by decide) hmem

theorem unimplemented_iff {name : String} {alternative : Alternative}
    (hmem : alternative ∈ alternatives name) :
    alternative.2.2 = .unimplemented ↔ name = "set_operation" :=
  forall_alternatives (P := fun name alternative =>
    alternative.2.2 = .unimplemented ↔ name = "set_operation") (by decide) hmem

/-- Representers that only put texts together. -/
def quiet : List Representer :=
  [.spaced, .tight, .tightBinary, .tightParen, .commaList, .sourcesFirst, .payloadText, .blockEnd]

/-- Representers that write a part of a registered source. -/
def named : List Representer := [.payloadName, .payloadSchema, .sequenceLiteral]

/-- Representers that change the open segment. -/
def writing : List Representer := [.outputColumn, .columnRef, .columnAlias]

/-- Representers that change the scope or fail. -/
def acting : List Representer :=
  [.block, .outputColumn, .columnRef, .columnAlias, .unimplemented]

/-- Generators that register a source. -/
def registering : List Generator :=
  [.registerTable, .registerSchema, .registerView, .registerMaterializedView, .registerSequence]

theorem representer_cases {name : String} {alternative : Alternative}
    (hmem : alternative ∈ alternatives name) :
    alternative.2.2 ∈ quiet ∨
      alternative.2.2 ∈ named ∧ (∃ generator ∈ registering, alternative.2.1 = some generator) ∨
      alternative.2.2 ∈ acting :=
  forall_alternatives (P := fun _ alternative => alternative.2.2 ∈ quiet ∨
    alternative.2.2 ∈ named ∧ (∃ generator ∈ registering, alternative.2.1 = some generator) ∨
    alternative.2.2 ∈ acting) (by decide) hmem

variable {ρ : Type} [RandomSource ρ] {g : Grammar} {t : Tree} {u : Universe} {size : Nat}
  {levels i : Nat} {n : Node} {id : SegmentId} {rest : List SegmentId} {s s' : Scope ρ}

theorem conclude_quiet {representer : Representer} (h : representer ∈ quiet) (texts : List String) :
    ∃ text, conclude t u n texts representer s = .ok text s := by
  simp only [quiet, List.mem_cons, List.not_mem_nil, or_false] at h
  rcases h with rfl | rfl | rfl | rfl | rfl | rfl | rfl | rfl
  case inr.inr.inr.inr.inr.inr.inl =>
    unfold conclude
    cases n.payload <;> exact ⟨_, rfl⟩
  all_goals exact ⟨_, rfl⟩

theorem source_of_registering {generator : Generator} (h : generator ∈ registering)
    (hleaves : generator.Leaves n.payload n.segment) : ∃ d, n.payload = some (.source d) := by
  simp only [registering, List.mem_cons, List.not_mem_nil, or_false] at h
  rcases h with rfl | rfl | rfl | rfl | rfl <;> exact hleaves.1

theorem conclude_named {representer : Representer} (h : representer ∈ named)
    (hsource : ∃ d, n.payload = some (.source d)) (texts : List String) :
    ∃ text, conclude t u n texts representer s = .ok text s := by
  obtain ⟨d, hd⟩ := hsource
  simp only [named, List.mem_cons, List.not_mem_nil, or_false] at h
  rcases h with rfl | rfl | rfl <;> exact ⟨_, by simp only [conclude, represent, hd]; rfl⟩

theorem conclude_stays {right : List String} {generator : Option Generator}
    {representer : Representer}
    (hmem : (right, generator, representer) ∈ alternatives n.symbol.name)
    (htakes : Takes t i n right generator representer) (h : representer ∉ acting)
    (texts : List String) (s : Scope ρ) :
    ∃ text, conclude t u n texts representer s = .ok text s := by
  rcases representer_cases hmem with hquiet | ⟨hnamed, generator', hregisters, hgenerator⟩ | hacting
  · exact conclude_quiet hquiet texts
  · have hholds := htakes.holds
    simp only at hgenerator
    rw [hgenerator] at hholds
    exact conclude_named hnamed (source_of_registering hregisters hholds) texts
  · exact absurd hacting h

/-! ### Scopes of a rendering -/

/-- A scope in which no reference is half written. -/
structure Calm (size : Nat) (s : Scope ρ) : Prop where
  size_eq : s.catalog.segments.size = size
  shared : s.catalog.Shared
  keyed : ∀ id, (s.catalog.segment id).Keyed
  free : ∀ id, (s.catalog.segment id).cursor.IsFree

omit [RandomSource ρ] in
theorem Calm.changed {f : Segment → Segment} (h : Calm size s) (hchanged : Changed id f s s')
    (hminted : ∀ segment, (f segment).ownMinted = segment.ownMinted)
    (hsources : ∀ segment, (f segment).sources = segment.sources)
    (hcursor : ∀ segment, (f segment).cursor.IsFree) : Calm size s' := by
  have hsegment : ∀ k, (s'.catalog.segment k).sources = (s.catalog.segment k).sources ∧
      (s'.catalog.segment k).cursor.IsFree := by
    intro k
    by_cases hk : k = id
    · subst hk
      by_cases hsize : k < s.catalog.segments.size
      · rw [hchanged.self hsize]
        exact ⟨hsources _, hcursor _⟩
      · have hold := Nat.not_lt.mp hsize
        rw [Catalog.segment_of_size_le hold, Catalog.segment_of_size_le (hchanged.size_eq ▸ hold)]
        exact ⟨rfl, trivial⟩
    · rw [hchanged.other hk]
      exact ⟨rfl, h.free k⟩
  exact ⟨hchanged.size_eq.trans h.size_eq, hchanged.shared h.shared hminted,
    fun k => ⟨(hsegment k).1 ▸ (h.keyed k).distinct, (hsegment k).1 ▸ (h.keyed k).own⟩,
    fun k => (hsegment k).2⟩

omit [RandomSource ρ] in
theorem Calm.restacked (h : Calm size s) (stack : List SegmentId) :
    Calm size { s with catalog := { s.catalog with stack } } :=
  ⟨h.size_eq, h.shared, h.keyed, h.free⟩

/-! ### Blocks -/

omit [RandomSource ρ] in
theorem entered_cases {right : List String} {generator : Option Generator}
    {representer : Representer}
    (hmem : (right, generator, representer) ∈ alternatives n.symbol.name)
    (htakes : Takes t i n right generator representer) (s : Scope ρ) :
    representer ≠ .block ∧ n.segment = none ∧ entered n representer s = s ∨
      ∃ id, representer = .block ∧ n.segment = some id ∧
        entered n representer s = (Scope.enter id s).2 := by
  rcases segment_of_holds htakes.holds with ⟨hsegment, hgenerator⟩ | ⟨id, hsegment, hgenerator⟩
  · have hblock : representer ≠ .block := fun h => hgenerator ((block_iff hmem).mp h)
    exact .inl ⟨hblock, hsegment, entered_eq hsegment representer s⟩
  · have hblock : representer = .block := (block_iff hmem).mpr hgenerator
    refine .inr ⟨id, hblock, hsegment, ?_⟩
    rw [hblock]
    unfold entered
    rw [hsegment]

/-- The block is left when its children were rendered. -/
theorem conclude_block {block : SegmentId} (hsegment : n.segment = some block)
    (hstack : s.catalog.stack = id :: rest) (texts : List String) :
    conclude t u n texts .block s =
      .ok (joinTexts " " texts) { s with catalog := { s.catalog with stack := rest } } := by
  unfold conclude
  simp only [hsegment, bind_result, inScope_ok (pop_run hstack)]
  rfl

/-- The block is also left when one of its children was given up. -/
theorem abandon_block {block : SegmentId} (hsegment : n.segment = some block)
    (hstack : s.catalog.stack = id :: rest) (halt : Halt) :
    abandon n halt .block s =
      .error halt { s with catalog := { s.catalog with stack := rest } } := by
  unfold abandon
  simp only [hsegment, Option.isSome_some, if_true, bind_result, inScope_ok (pop_run hstack)]
  rfl

/-! ### References -/

/-- A reference is the alias of a source and a column of it. -/
theorem columnRef_spec (hcalm : Calm size s) (hstack : s.catalog.stack = id :: rest)
    (hbound : id < size) :
    ∃ aliasName column columns s₁ s', chooseAlias s = .ok aliasName s₁ ∧
      chooseColumn s₁ = .ok column s' ∧
      represent t u n (fun _ => pure "") .columnRef s = .ok (aliasName ++ "." ++ column) s' ∧
      Changed id ({ · with columns, cursor := .columnChosen aliasName none column }) s s' ∧
      Qualifies s.catalog id aliasName ∧ Writes s.catalog id aliasName column columns := by
  obtain ⟨aliasName, s₁, hrun, hchanged, hqualifies⟩ :=
    chooseAlias_spec hcalm.shared (hcalm.keyed id).distinct hstack (hcalm.free id)
  have hstack₁ := hchanged.stack_eq.trans hstack
  have hlt : id < s.catalog.segments.size := hcalm.size_eq ▸ hbound
  have hcursor : (s₁.catalog.segment id).cursor = .aliasChosen aliasName := by
    rw [hchanged.self hlt]
  obtain ⟨column, columns, s', hrun', hchanged', hwrites⟩ :=
    chooseColumn_spec (hchanged.shared hcalm.shared fun _ => rfl) hstack₁ hcursor
  refine ⟨aliasName, column, columns, s₁, s', hrun, hrun', ?_,
    (hchanged.trans hchanged').congr rfl, hqualifies, hwrites.of_cursor hchanged hlt⟩
  simp only [represent, bind_result, inScope_ok hrun, inScope_ok hrun']
  rfl

/-! ### Conclusions -/

/-- What was written to the open segment: its sources stay, and picked columns are in the lists of
their sources. -/
inductive Noted (id : SegmentId) (s s' : Scope ρ) : Prop where
  | intro {f : Segment → Segment} (changed : Changed id f s s')
      (minted : ∀ segment, (f segment).ownMinted = segment.ownMinted)
      (sources : ∀ segment, (f segment).sources = segment.sources)
      (free : ∀ segment, (f segment).cursor.IsFree)
      (picks : ∀ column source, (f (s.catalog.segment id)).Picked column source →
        (s.catalog.segment id).Picked column source ∨
          ∃ entry, (s.catalog.segment id).sources.find? source = some entry ∧
            column ∈ s.catalog.columnList entry)

/-- What comes of a representer after the children. -/
inductive Concluded (representer : Representer) (id : SegmentId) (rest : List SegmentId)
    (s : Scope ρ) : EStateM.Result Halt (Scope ρ) String → Prop where
  | stays {text : String} (passive : representer ∉ acting) :
      Concluded representer id rest s (.ok text s)
  | leaves {text : String} (closes : representer = .block) :
      Concluded representer id rest s
        (.ok text { s with catalog := { s.catalog with stack := rest } })
  | notes {text : String} {s' : Scope ρ} (writes : representer ∈ writing) (noted : Noted id s s')
      (chosen : representer = .columnRef → (s'.catalog.segment id).cursor.IsChosen) :
      Concluded representer id rest s (.ok text s')
  | stub (stubbed : representer = .unimplemented) :
      Concluded representer id rest s (.error (.failure (.unimplemented "set_operation")) s)

/-- The representer's own operation, after the children. -/
theorem conclude_spec {right : List String} {generator : Option Generator}
    {representer : Representer}
    (hmem : (right, generator, representer) ∈ alternatives n.symbol.name)
    (htakes : Takes t i n right generator representer) (hbound : id < size) (hcalm : Calm size s)
    (hstack : s.catalog.stack = id :: rest)
    (hchosen : representer = .outputColumn ∨ representer = .columnAlias →
      (s.catalog.segment id).cursor.IsChosen) (texts : List String) :
    Concluded representer id rest s (conclude t u n texts representer s) := by
  by_cases hacting : representer ∈ acting
  case neg =>
    obtain ⟨text, hrun⟩ := conclude_stays (u := u) hmem htakes hacting texts s
    rw [hrun]
    exact .stays hacting
  simp only [acting, List.mem_cons, List.not_mem_nil, or_false] at hacting
  rcases hacting with rfl | rfl | rfl | rfl | rfl
  · -- the block is left
    rcases entered_cases hmem htakes s with ⟨hne, -, -⟩ | ⟨block, -, hsegment, -⟩
    · exact absurd rfl hne
    · rw [conclude_block hsegment hstack]
      exact .leaves rfl
  · -- the column that was referred to last is exported
    obtain ⟨source, name, column, hcursor⟩ := hchosen (.inl rfl)
    obtain ⟨s', hrun, hchanged⟩ := exportColumn_spec hstack hcursor
    have hexport : conclude t u n texts .outputColumn s = .ok (joinTexts " " texts) s' := by
      unfold conclude
      simp only [bind_result, inScope_ok hrun]
      rfl
    rw [hexport]
    exact .notes (by decide) (.intro hchanged (fun _ => rfl) (fun _ => rfl) (fun _ => trivial)
      fun _ _ h => .inl h) (by simp)
  · -- a column of a source is picked
    obtain ⟨aliasName, column, columns, s₁, s', -, -, hrun, hchanged, -, hwrites⟩ :=
      columnRef_spec (t := t) (u := u) (n := n) hcalm hstack hbound
    rw [show conclude t u n texts .columnRef s = _ from hrun]
    refine .notes (by decide) (.intro hchanged (fun _ => rfl) (fun _ => rfl) (fun _ => trivial)
      fun column' source h => hwrites.picked (hcalm.keyed id).own h) fun _ => ?_
    rw [hchanged.self (hcalm.size_eq ▸ hbound)]
    exact ⟨aliasName, none, column, rfl⟩
  · -- the column that was picked last gets another name
    obtain ⟨source, name, column, hcursor⟩ := hchosen (.inr rfl)
    obtain ⟨aliasName, columns, s', hrun, hchanged, hpicks⟩ :=
      chooseColumnAlias_spec hcalm.shared hstack hcursor
    rw [show conclude t u n texts .columnAlias s = .ok aliasName s' from inScope_ok hrun]
    exact .notes (by decide) (.intro hchanged (fun _ => rfl) (fun _ => rfl) (fun _ => trivial)
      fun column' source h => .inl (hpicks column' source h)) (by simp)
  · -- set operations have no representer of their own
    have hsymbol : n.symbol.name = "set_operation" := (unimplemented_iff hmem).mp rfl
    have hfails : conclude t u n texts .unimplemented s =
        .error (.failure (.unimplemented "set_operation")) s := by
      unfold conclude represent
      rw [hsymbol]
      rfl
    rw [hfails]
    exact .stub rfl

end ProbeForge.SelectCore
