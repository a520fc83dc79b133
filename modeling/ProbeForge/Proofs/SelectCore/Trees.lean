import ProbeForge.Proofs.Derivation.Descent
import ProbeForge.Proofs.Derivation.Turns
import ProbeForge.Proofs.SelectCore.Rules

/-!
# Trees of the core SELECT grammar

What a node of a tree can be, read off the rules: its right side, what its generator left in it and
how it is rendered.
-/

namespace ProbeForge.SelectCore

open Grammars

/-! ### Weighted grammars -/

/-- The grammar under weights that are all positive. -/
structure IsCore (g : Grammar) : Prop extends selectCore.Weighted g where
  positive : ∀ entry ∈ g.table, 1 ≤ entry.weight

theorem isCore_of_setWeights {built g : Grammar} {weights : List Int}
    (hbuild : selectCore.build = .ok built) (hweights : built.setWeights weights true = .ok g) :
    IsCore g :=
  ⟨(Definition.weighted_build hbuild).setWeights hweights,
    Grammar.one_le_weight_of_setWeights hweights⟩

variable {g : Grammar}

theorem IsCore.start_eq (hg : IsCore g) : g.start = some ⟨"sql_statement"⟩ :=
  hg.start "sql_statement" rfl

theorem IsCore.runnable (hg : IsCore g) : g.Runnable := hg.toWeighted.runnable hg.positive

theorem IsCore.grouped (hg : IsCore g) : g.Grouped := hg.runnable.coherent.grouped

theorem nonterminal_of_alternatives {name : String} (h : alternatives name ≠ []) :
    .text name ∈ selectCore.nonterminals := by
  obtain ⟨alternative, hmem⟩ := List.exists_mem_of_ne_nil _ h
  refine List.mem_map_of_mem (f := Json.text) ?_
  exact forall_alternatives (P := fun name _ => name ∈ rows.map (·.1)) (by decide) hmem

theorem IsCore.isNonterminal_iff (hg : IsCore g) {symbol : Symbol} :
    g.isNonterminal symbol = true ↔ alternatives symbol.name ≠ [] := by
  constructor
  · intro h
    obtain ⟨group, hgroup, rfl⟩ := Grammar.isNonterminal_iff.mp h
    obtain ⟨i, hi⟩ := List.exists_mem_of_ne_nil _ (hg.coherent.inhabited group hgroup)
    obtain ⟨entry, hentry, hleft⟩ := hg.coherent.entry_of_mem hgroup hi
    obtain ⟨shape, hshape, hrule, -, -⟩ := hg.shaped entry (Array.mem_of_getElem? hentry)
    have hmem := alternatives_of_shape shape hshape
    rw [← hrule, hleft] at hmem
    exact List.ne_nil_of_mem hmem
  · intro h
    exact hg.nonterminal _ (nonterminal_of_alternatives h)

theorem IsCore.not_terminal (hg : IsCore g) {symbol : Symbol}
    (h : alternatives symbol.name ≠ []) : g.group? symbol ≠ none := by
  intro hnone
  have hsome := hg.isNonterminal_iff.mpr h
  rw [Grammar.isNonterminal, hnone] at hsome
  cases hsome

/-- What a rule of the grammar is, once its generator is looked up. -/
theorem IsCore.alternative (hg : IsCore g) {entry : RuleEntry} (hentry : entry ∈ g.table)
    {generator : Option Generator}
    (hresolve : Generator.resolve entry.generator = .ok generator) :
    ∃ representer, (entry.rule.right.map (·.name), generator, representer) ∈
        alternatives entry.rule.left.name ∧
      Representer.resolve entry.representer = .ok representer := by
  obtain ⟨shape, hshape, hrule, hgenerator, hrepresenter⟩ := hg.shaped entry hentry
  cases hgenerator.symm.trans hresolve
  rw [hrule]
  exact ⟨_, alternatives_of_shape shape hshape, hrepresenter⟩

/-! ### Expanded nodes -/

/-- Only the nodes that open a block have a segment. -/
theorem segment_of_holds {n : Node} {generator : Option Generator}
    (h : Holds generator n.payload n.segment) :
    n.segment = none ∧ generator ≠ some .openBlock ∨
      ∃ id, n.segment = some id ∧ generator = some .openBlock := by
  cases generator with
  | none => exact .inl ⟨h.2, by simp⟩
  | some generator =>
    cases generator
    case openBlock =>
      obtain ⟨id, -, hsegment⟩ := h
      exact .inr ⟨id, hsegment, rfl⟩
    all_goals exact .inl ⟨h.2, by simp⟩

theorem opens_iff_of_holds {n : Node} {generator : Option Generator}
    (h : Holds generator n.payload n.segment) :
    generator = some .openBlock ↔ n.segment ≠ none := by
  rcases segment_of_holds h with ⟨hnone, hne⟩ | ⟨id, hsome, hopens⟩
  · exact iff_of_false hne (not_not.mpr hnone)
  · exact iff_of_true hopens (by simp [hsome])

/-- A node that took one of the alternatives. -/
structure Takes (t : Tree) (i : Nat) (n : Node) (right : List String)
    (generator : Option Generator) (representer : Representer) : Prop where
  children : List.Forall₂
    (fun c s => ∃ m, t.nodes[c]? = some m ∧ m.symbol = ⟨s⟩ ∧ m.parent = some (i : Int))
    n.children right
  later : ∀ c ∈ n.children, i < c
  distinct : n.children.Nodup
  holds : Holds generator n.payload n.segment
  representer : Representer.resolve n.representer = .ok representer

variable {t : Tree} {pending : List Nat} {i : Nat} {n : Node}

theorem IsCore.takes_of_follows (hg : IsCore g) {entry : RuleEntry} (hentry : entry ∈ g.table)
    (hfollows : t.Follows i n entry) {generator : Option Generator}
    (hresolve : Generator.resolve entry.generator = .ok generator) :
    ∃ right representer, (right, generator, representer) ∈ alternatives n.symbol.name ∧
      Takes t i n right generator representer := by
  obtain ⟨generator', hresolve', hholds⟩ := hfollows.holds
  cases hresolve.symm.trans hresolve'
  obtain ⟨representer, hmem, hrepresenter⟩ := hg.alternative hentry hresolve
  rw [hfollows.left] at hmem
  refine ⟨_, _, hmem, ?_, hfollows.later, hfollows.distinct, hholds, ?_⟩
  · exact List.forall₂_map_right_iff.mpr hfollows.children
  · rw [hfollows.representer]
    exact hrepresenter

theorem IsCore.takes (hg : IsCore g) (ht : t.Derives g pending) (hn : t.nodes[i]? = some n)
    (hexp : n.isExpanded = true) :
    ∃ right generator representer, (right, generator, representer) ∈ alternatives n.symbol.name ∧
      Takes t i n right generator representer := by
  obtain ⟨entry, hentry, hfollows⟩ := ht.follows i n hn hexp
  obtain ⟨generator, hresolve, -⟩ := hfollows.holds
  obtain ⟨right, representer, hmem, htakes⟩ := hg.takes_of_follows hentry hfollows hresolve
  exact ⟨right, generator, representer, hmem, htakes⟩

/-- The node above another one, with the rule that made it. -/
theorem IsCore.parent_takes (hg : IsCore g) (ht : t.Derives g pending)
    (hn : t.nodes[i]? = some n) (hi : i ≠ 0) :
    ∃ (p : Nat) (m : Node) (right : List String) (generator : Option Generator)
      (representer : Representer),
      n.parent = some (p : Int) ∧ t.nodes[p]? = some m ∧ m.isExpanded = true ∧ i ∈ m.children ∧
        (right, generator, representer) ∈ alternatives m.symbol.name ∧
        Takes t p m right generator representer ∧ n.symbol.name ∈ right := by
  rcases ht.parent i n hn with hzero | ⟨p, m, hparent, hm, hmem⟩
  · exact absurd hzero hi
  · have hexp := (ht.child hm hmem).1
    obtain ⟨right, generator, representer, halternative, htakes⟩ := hg.takes ht hm hexp
    obtain ⟨name, hname, n', hn', hsymbol, -⟩ := forall₂_mem_left htakes.children hmem
    cases hn.symm.trans hn'
    exact ⟨p, m, right, generator, representer, hparent, hm, hexp, hmem, halternative, htakes,
      hsymbol ▸ hname⟩

/-- In a finished tree only terminals are without a rule. -/
theorem IsCore.isExpanded (hg : IsCore g) (ht : t.Derives g []) (hn : t.nodes[i]? = some n)
    (h : alternatives n.symbol.name ≠ []) : n.isExpanded = true := by
  by_contra hno
  rw [Bool.not_eq_true] at hno
  exact hg.not_terminal h (((ht.bare i n hn hno).2.2.2).resolve_left List.not_mem_nil)

/-- The symbols of a right side tell the children apart. -/
theorem Takes.child_unique {right : List String} {generator : Option Generator}
    {representer : Representer} (h : Takes t i n right generator representer)
    (honce : right.Nodup) {c c' : Nat} {m m' : Node} (hc : c ∈ n.children) (hc' : c' ∈ n.children)
    (hm : t.nodes[c]? = some m) (hm' : t.nodes[c']? = some m') (hsame : m'.symbol = m.symbol) :
    c' = c := by
  have hall := h.children
  generalize n.children = children at hall hc hc'
  clear h
  induction hall with
  | nil => cases hc
  | @cons a name l right hhead htail ih =>
    obtain ⟨hnot, honce⟩ := List.nodup_cons.mp honce
    -- the first symbol is not among the others
    have hapart : ∀ {b : Nat} {o o' : Node}, t.nodes[a]? = some o → b ∈ l →
        t.nodes[b]? = some o' → o'.symbol ≠ o.symbol := by
      intro b o o' ho hb ho' hsymbols
      obtain ⟨o₁, ho₁, hsymbol, -⟩ := hhead
      obtain ⟨name', hname', o₂, ho₂, hsymbol', -⟩ := forall₂_mem_left htail hb
      cases ho.symm.trans ho₁
      cases ho'.symm.trans ho₂
      rw [hsymbol, hsymbol'] at hsymbols
      cases hsymbols
      exact hnot hname'
    rcases List.mem_cons.mp hc with rfl | hin
    · rcases List.mem_cons.mp hc' with rfl | hin'
      · rfl
      · exact absurd hsame (hapart hm hin' hm')
    · rcases List.mem_cons.mp hc' with rfl | hin'
      · exact absurd hsame.symm (hapart hm' hin hm)
      · exact ih honce hin hin'

/-! ### Symbols below a node -/

/-- Symbols that are closed under the rules which open no block hold in the rest of a block. -/
theorem IsCore.name_of_under (hg : IsCore g) (ht : t.Derives g pending) {P : String → Prop}
    (hclosed : ∀ name, ∀ alternative ∈ alternatives name, P name →
      alternative.2.1 ≠ some .openBlock → ∀ x ∈ alternative.1, P x)
    {j : Nat} {m : Node} (hn : t.nodes[i]? = some n) (hname : P n.symbol.name)
    (h : t.Under i j) (hm : t.nodes[j]? = some m) : P m.symbol.name := by
  induction h generalizing m with
  | here =>
    cases hn.symm.trans hm
    exact hname
  | child above found same mem ih =>
    obtain ⟨right, generator, representer, halternative, htakes⟩ :=
      hg.takes ht found (ht.child found mem).1
    have hopens : generator ≠ some .openBlock := by
      rintro rfl
      obtain ⟨id, -, hsegment⟩ := htakes.holds
      rw [same] at hsegment
      cases hsegment
    obtain ⟨x, hx, m', hm', hsymbol, -⟩ := forall₂_mem_left htakes.children mem
    cases hm.symm.trans hm'
    rw [hsymbol]
    exact hclosed _ _ halternative (ih found) hopens x hx

/-- Below symbols that are closed under rules without blocks no block is opened. -/
theorem IsCore.opens_none (hg : IsCore g) (ht : t.Derives g pending) {P : String → Prop}
    (hclosed : ∀ name, ∀ alternative ∈ alternatives name, P name →
      alternative.2.1 ≠ some .openBlock ∧ ∀ x ∈ alternative.1, P x)
    (hn : t.nodes[i]? = some n) (hname : P n.symbol.name) (id : SegmentId) : ¬ t.Opens i id := by
  rintro ⟨d, j, m, hpath, hm, hsegment⟩
  -- no rule on the way down leaves the symbols
  have hbelow : P m.symbol.name := by
    clear hsegment
    induction hpath generalizing m with
    | here =>
      cases hn.symm.trans hm
      exact hname
    | child above found mem ih =>
      obtain ⟨right, generator, representer, halternative, htakes⟩ :=
        hg.takes ht found (ht.child found mem).1
      obtain ⟨x, hx, m', hm', hsymbol, -⟩ := forall₂_mem_left htakes.children mem
      cases hm.symm.trans hm'
      rw [hsymbol]
      exact (hclosed _ _ halternative (ih _ found)).2 x hx
  have hexp : m.isExpanded = true := by
    by_contra hno
    rw [Bool.not_eq_true] at hno
    obtain ⟨-, -, hnone, -⟩ := ht.bare j m hm hno
    rw [hnone] at hsegment
    cases hsegment
  obtain ⟨right, generator, representer, halternative, htakes⟩ := hg.takes ht hm hexp
  exact (hclosed _ _ halternative hbelow).1
    ((opens_iff_of_holds htakes.holds).mpr (by simp [hsegment]))

end ProbeForge.SelectCore
