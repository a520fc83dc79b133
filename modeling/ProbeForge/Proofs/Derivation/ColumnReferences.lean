import ProbeForge.Proofs.Derivation.Rendering
import ProbeForge.Proofs.Scope.ColumnSources

/-!
# Column references

A column reference is written as an alias and a column, by two choices that have only the cursor in
common. Its column belongs to the source of its alias unless a table was named before: then the
alias is that of the table, but the cursor forgets it and the column is chosen from any source.
-/

namespace ProbeForge

open Rendering Scope

/-- Whatever is drawn, a column reference is written, and its column belongs to the source that its
alias names. -/
def Catalog.NamesOneSource (c : Catalog) (id : SegmentId) : Prop :=
  ∀ (σ : Type) [RandomSource σ] (draws : σ) (tree : Tree) (u : Universe) (node : Node)
    (render : Nat → RenderM σ String), ∃ aliasName column s₁ s₂,
      chooseAlias (⟨c, draws⟩ : Scope σ) = .ok aliasName s₁ ∧ chooseColumn s₁ = .ok column s₂ ∧
      represent tree u node render .columnRef ⟨c, draws⟩ = .ok (aliasName ++ "." ++ column) s₂ ∧
      c.Owns id aliasName column

/-- The sources that can be drawn supply no columns but those of the source that a table at the
cursor is registered as. -/
def Catalog.Unambiguous (c : Catalog) (id : SegmentId) : Prop :=
  ∀ aliasName name, (c.segment id).cursor = .nameResolved aliasName name →
    ∀ other column, c.Drawable id other → c.Supplies id other column → c.Owns id aliasName column

namespace Scope

variable {ρ : Type} [RandomSource ρ] {id : SegmentId} {rest : List SegmentId} {s : Scope ρ}
  {c : Catalog}

theorem reference_owns (hstack : s.catalog.stack = id :: rest)
    (hid : id < s.catalog.segments.size) (hclear : s.catalog.Unambiguous id) :
    ∃ aliasName column s₁ s₂, chooseAlias s = .ok aliasName s₁ ∧ chooseColumn s₁ = .ok column s₂ ∧
      s.catalog.Owns id aliasName column := by
  obtain ⟨aliasName, s₁, halias, hstack₁, halike, hnamed⟩ := chooseAlias_named hstack hid
  obtain ⟨source, column, s₂, hcolumn, hchosen, howns⟩ := chooseColumn_owns hstack₁
  refine ⟨aliasName, column, s₁, s₂, halias, hcolumn, ?_⟩
  have hbefore := halike.owns howns
  cases hnamed with
  | kept hcursor =>
    cases hchosen with
    | named hcursor' =>
      cases hcursor.symm.trans hcursor'
      exact hbefore
    | resolved name hcursor' => cases hcursor.symm.trans hcursor'
    | drawn hfree =>
      rw [hcursor] at hfree
      exact hfree.elim
  | dropped name hresolved hchanged =>
    subst hchanged
    have hcursor := cursor_setCursor hid .idle
    cases hchosen with
    | named hcursor' => cases hcursor.symm.trans hcursor'
    | resolved name hcursor' => cases hcursor.symm.trans hcursor'
    | drawn _ hdrawable =>
      rcases hbefore with hsupplies | hmadeUp
      · exact hclear aliasName name hresolved source column
          ((drawable_setCursor .idle).mp hdrawable) hsupplies
      · exact .inr hmadeUp

theorem namesOneSource_iff (hstack : c.stack = id :: rest) (hid : id < c.segments.size) :
    c.NamesOneSource id ↔ c.Unambiguous id := by
  constructor
  · intro h aliasName name hcursor other column hdrawable hsupplies
    obtain ⟨script, s₁, s₂, halias, hcolumn⟩ :=
      reference_script hstack hid hcursor hdrawable hsupplies
    obtain ⟨aliasName', column', s₁', s₂', halias', hcolumn', -, howns⟩ :=
      h Script script .empty .empty default fun _ => pure ""
    cases halias.symm.trans halias'
    cases hcolumn.symm.trans hcolumn'
    exact howns
  · intro hclear σ _ draws tree u node render
    obtain ⟨aliasName, column, s₁, s₂, halias, hcolumn, howns⟩ :=
      reference_owns (s := (⟨c, draws⟩ : Scope σ)) hstack hid hclear
    refine ⟨aliasName, column, s₁, s₂, halias, hcolumn, ?_, howns⟩
    simp only [represent, bind_result, inScope_ok halias, inScope_ok hcolumn]
    rfl

theorem reached_grounded (u : Universe) (source : ρ) (requests : List Request) :
    Grounded (reached u source requests) := by
  have hstart : Grounded (⟨.empty, source⟩ : Scope ρ) := fun id hid => by cases hid
  exact (List.foldlRecOn (motive := fun s : Scope ρ =>
      Grounded s ∧ ∀ id, (s.catalog.segment id).cursor.fields.Shaped) requests (follow u)
    ⟨hstart, fun id => .idle⟩ fun s hs request _ => follow_shaped u request hs.1 hs.2).1

/-- After any requests, references from the open block name one source each exactly if no other
source can supply a column to a table whose name was just written. -/
theorem reached_namesOneSource_iff (u : Universe) (source : ρ) (requests : List Request)
    (hstack : (reached u source requests).catalog.stack = id :: rest) :
    (reached u source requests).catalog.NamesOneSource id ↔
      (reached u source requests).catalog.Unambiguous id := by
  have hgrounded := reached_grounded u source requests
  exact namesOneSource_iff hstack (hgrounded id (hstack ▸ List.mem_cons_self))

/-! ### A table and a view -/

/-- A table and a view without a column in common. -/
def tableAndView : Universe :=
  (Universe.ofObjects [.named "t" .table "s" ["a"], .named "v" .view "s" ["b"]]).toOption.getD
    .empty

/-- Both are registered in one block. -/
def twoSources : List Request :=
  [.call .push, .call (.addSource .table), .call (.addSource .view)]

def twoRegistered : Scope Script := reached tableAndView ⟨⟨[]⟩, 0⟩ twoSources

theorem namesOneSource_twoRegistered :
    twoRegistered.catalog.stack = [0] ∧ twoRegistered.catalog.NamesOneSource 0 := by
  have hcursor : (twoRegistered.catalog.segment 0).cursor = .idle := by decide +kernel
  unfold twoRegistered at hcursor ⊢
  have hstack : (reached tableAndView (⟨⟨[]⟩, 0⟩ : Script) twoSources).catalog.stack = [0] := by
    decide +kernel
  refine ⟨hstack, (reached_namesOneSource_iff tableAndView _ twoSources hstack).mpr ?_⟩
  intro aliasName name hresolved
  cases hcursor.symm.trans hresolved

/-- Then the table is named. -/
def tableNamed : Scope Script :=
  reached tableAndView ⟨⟨[]⟩, 0⟩ (twoSources ++ [.call .chooseTable])

theorem not_owns_tableNamed : ¬ tableNamed.catalog.Owns 0 "t" "b" := by
  rintro ((⟨hfound, hmem⟩ | ⟨columnAlias, hpicked⟩) | ⟨n, -, hname⟩)
  · have htable : (tableNamed.catalog.segment 0).sources.find? "t" =
        some ⟨"t", "t", .table, some "s", .fixed ["a"]⟩ := by decide +kernel
    cases htable.symm.trans hfound
    revert hmem
    decide +kernel
  · have hnone : (tableNamed.catalog.segment 0).pickedColumns = [] := by decide +kernel
    rw [hnone] at hpicked
    cases hpicked
  · have hfirst := congrArg (·.toList.head?) hname
    simp [toString, String.toList_append] at hfirst

/-- A reference can be the alias of the table with the column of the view. -/
theorem not_namesOneSource_tableNamed :
    tableNamed.catalog.stack = [0] ∧ ¬ tableNamed.catalog.NamesOneSource 0 := by
  have hstack : tableNamed.catalog.stack = [0] := by decide +kernel
  refine ⟨hstack, fun hnames => ?_⟩
  have hclear := (namesOneSource_iff hstack (by decide +kernel)).mp hnames
  let view : SourceEntry := ⟨"v", "v", .view, some "s", .fixed ["b"]⟩
  have hfound : (tableNamed.catalog.segment 0).sources.find? "v" = some view := by decide +kernel
  have hdrawable : tableNamed.catalog.Drawable 0 "v" := .source (by decide +kernel) hfound
  have hsupplies : tableNamed.catalog.Supplies 0 "v" "b" := .listed hfound (by decide +kernel)
  exact not_owns_tableNamed
    (hclear "t" "t" (by decide +kernel) "v" "b" hdrawable hsupplies)

end Scope

end ProbeForge
